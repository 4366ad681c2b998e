import BoundedAuthority.Runtime.Producer

/-!
# What a producer writes is read back

A decoder that accepts an assembled grant or proof has read the fields the producer
was given.  A selector comes back with its values in their normal form, which is what
canonical JSON keeps of them; what that means is up to the major (`Major.ReadsBack`).
-/

namespace BoundedAuthority.Runtime

open Wire JsonValue V1

/-! ## Assembled serializations -/

/-- The compact serialization of a signing input and its signature. -/
def joined (input : SigningInput) (signature : Bytes) : Bytes :=
  input.protectedSegment ++ ascii "." ++ input.payloadSegment ++ ascii "." ++
    Base64.encode signature

theorem joined_of_assemble {input : SigningInput} {signature compact : Bytes}
    (assembled : CompactJws.assemble input signature Bounds.maximum = some compact) :
    compact = joined input signature := by
  simp only [CompactJws.assemble, Bounds.coerce_toLimits, Option.bind_eq_bind, Option.bind_some,
    guard_bind_eq_some, Option.some.injEq] at assembled
  obtain ⟨-, -, -, -, same⟩ := assembled
  exact same.symm

/-- What is opened from an assembled serialization. -/
theorem opened_of_joined {kind : SigningKind} {header payload signature : Bytes}
    {input : SigningInput} {opened : Opened} {bounds : Bounds}
    (signed : signingInput kind header payload bounds = some input)
    (found : openCompact (joined input signature) bounds = some opened) :
    Json.decode header bounds = some (.object opened.header) ∧
      Json.decode payload bounds = some (.object opened.payload) ∧
      opened.signature = signature ∧ opened.message = input.message := by
  simp only [signingInput, Option.bind_eq_bind, guard_bind_eq_some, Option.some.injEq] at signed
  obtain ⟨-, rfl⟩ := signed
  obtain ⟨segments, protectedBytes, payloadBytes, scanned, first, second, third, -, decodedHeader,
    decodedPayload, message⟩ := openCompact_eq_some.mp found
  obtain ⟨compactSame, fits⟩ := CompactJws.scan_eq_some.mp scanned
  have segmentsSame : segments = ⟨Base64.encode header, Base64.encode payload,
      Base64.encode signature⟩ := by
    refine CompactJws.compact_injective fits.protectedHeader.plain
      (Base64.dot_notMem_encode _) fits.payload.plain (Base64.dot_notMem_encode _) ?_
    rw [← compactSame]
    simp [joined, CompactJws.Segments.compact, CompactJws.Segments.message, ascii]
  subst segmentsSame
  obtain rfl := Base64.encode_injective (Base64Url.decode_eq_some.mp first).1
  obtain rfl := Base64.encode_injective (Base64Url.decode_eq_some.mp second).1
  obtain same := Base64.encode_injective (Base64Url.decode_eq_some.mp third).1
  exact ⟨decodedHeader, decodedPayload, same.symm, message⟩

/-! ## Lists -/

/-- What is written and read element by element. -/
theorem eq_map_of_mapM {α β γ : Type} {f : α → Option β} {g : β → Option γ} {n : β → β} {r : α → γ}
    (each : ∀ a b c, f a = some b → g (n b) = some c → c = r a) : ∀ {as : List α} {bs : List β}
    {cs : List γ}, as.mapM f = some bs → (bs.map n).mapM g = some cs → cs = as.map r
  | [], bs, cs, written, read => by
      obtain rfl := Option.some.inj written
      exact (Option.some.inj read).symm
  | a :: as, bs, cs, written, read => by
      simp only [List.mapM_cons, Option.bind_eq_bind, Option.bind_eq_some_iff, Option.pure_def,
        Option.some.injEq] at written
      obtain ⟨b, first, bs', rest, rfl⟩ := written
      simp only [List.map_cons, List.mapM_cons, Option.bind_eq_bind, Option.bind_eq_some_iff,
        Option.pure_def, Option.some.injEq] at read
      obtain ⟨c, first', cs', rest', rfl⟩ := read
      rw [List.map_cons, each a b c first first', eq_map_of_mapM each rest rest']

theorem eq_of_mapM_map {α β : Type} {f : β → Option α} {g : α → β}
    (inverse : ∀ a b, f (g a) = some b → b = a) : ∀ {as out : List α},
    (as.map g).mapM f = some out → out = as
  | [], out, h => (Option.some.inj h).symm
  | a :: as, out, h => by
      simp only [List.map_cons, List.mapM_cons, Option.bind_eq_bind, Option.bind_eq_some_iff,
        Option.pure_def, Option.some.injEq] at h
      obtain ⟨b, first, bs, rest, rfl⟩ := h
      rw [inverse a b first, eq_of_mapM_map inverse rest]

/-- Strings are read as they are. -/
theorem eq_of_strings {count size : Nat} {values out : List Bytes}
    (h : strings ((values.map JsonValue.string).map Jcs.normal) count size = some out) :
    out = values := by
  rw [List.map_map] at h
  simp only [strings, Option.bind_eq_bind, guard_bind_eq_some] at h
  refine eq_of_mapM_map (fun a b found => ?_) h.2
  simp only [Function.comp, Jcs.normal, guard_bind_eq_some, Option.some.injEq] at found
  exact found.2.2.symm

/-! ## Grants -/

/-- What the selectors and the keys of a major are read back as, under the maximal
bounds. -/
structure Major.ReadsBack {σ : Type} (M : Major σ) (readBack : σ → σ) : Prop where
  selector : ∀ selector encoded read, M.encodeSelector selector .maximum = some encoded →
    M.selector (Jcs.normal encoded) .maximum = some read → read = readBack selector
  publicKey : ∀ publicKey bytes jwk members encoded read thumbprint,
    M.encodePublic publicKey Bounds.maximum = some bytes →
    Json.decode bytes Bounds.maximum = some jwk → Jcs.normal jwk = .object members →
    Jcs.encode (.object members) Bounds.maximum = some encoded →
    M.decodePublic encoded Bounds.maximum = some read →
    M.thumbprintRaw encoded Bounds.maximum = some thumbprint →
    read = publicKey ∧ M.publicKeyThumbprintRaw publicKey Bounds.maximum = some thumbprint
  digest : ∀ operation arguments text,
    M.digest operation arguments Bounds.maximum = some text →
    ∃ digest, M.digestRaw operation arguments Bounds.maximum = some digest ∧
      text = Base64.encode digest

/-- An operation with its selectors read back. -/
def Operation.readBack {σ : Type} (readBack : σ → σ) (operation : Operation σ) : Operation σ where
  name := operation.name
  selectors := operation.selectors.map readBack

variable {σ : Type} {M : Major σ} {otp : Otp} {readBack : σ → σ} (reads : M.ReadsBack readBack)

include reads

theorem eq_of_operation {original : Operation σ} {encoded : JsonValue} {read : Operation σ}
    (written : encodeOperation M original .maximum = some encoded)
    (found : operation M (Jcs.normal encoded) .maximum = some read) :
    read = original.readBack readBack := by
  simp only [encodeOperation, Option.bind_eq_bind, Option.bind_eq_some_iff, guard_eq_some,
    exists_const, Option.some.injEq] at written
  obtain ⟨-, -, encodedSelectors, selectors, rfl⟩ := written
  rw [Jcs.normal_object] at found
  simp only [operation, Option.bind_eq_bind, guard_eq_some, Option.bind_eq_some_iff, exists_const,
    Option.some.injEq] at found
  obtain ⟨map, closed, name, foundName, -, values, foundValues, -, selectors', readSelectors,
    rfl⟩ :=
    found
  have readFrom : ClosedMap.ReadFrom [(ascii "name", .string original.name),
      (ascii "selectors", .array encodedSelectors)] map :=
    ⟨show [ascii "name", ascii "selectors"].Nodup by decide, ClosedMap.closedMap_eq closed⟩
  rw [readFrom.string (ascii "name") original.name (by simp), Option.some.injEq] at foundName
  rw [readFrom.array (ascii "selectors") encodedSelectors (by simp), Option.some.injEq]
    at foundValues
  subst foundName foundValues
  rw [Operation.readBack, eq_map_of_mapM reads.selector selectors readSelectors]

theorem eq_of_operations {originals : List (Operation σ)} {encoded : List JsonValue}
    {read : List (Operation σ)} (written : encodeOperations M originals .maximum = some encoded)
    (found : operations M (encoded.map Jcs.normal) .maximum = some read) :
    read = originals.map (Operation.readBack readBack) := by
  simp only [encodeOperations, Option.bind_eq_bind, guard_bind_eq_some] at written
  simp only [operations, Option.bind_eq_bind, guard_bind_eq_some] at found
  exact eq_map_of_mapM (fun _ _ _ => eq_of_operation reads) written.2.2 found.2

omit reads in
theorem eq_of_decodeAudiences {audiences read : List Bytes} {bounds : Bounds}
    (h : decodeAudiences otp (some (Jcs.normal (.array (audiences.map .string)))) bounds =
      some read) :
    read = audiences := by
  rw [Jcs.normal_array] at h
  simp only [decodeAudiences, Option.bind_eq_bind, Option.bind_eq_some_iff, guard_eq_some,
    exists_const, Option.some.injEq] at h
  obtain ⟨read', found, -, rfl⟩ := h
  exact eq_of_strings found

omit reads in
/-- A digest is read from its text. -/
theorem eq_of_digestMember {members : List (Bytes × JsonValue)} {map : ClosedMap}
    {key read : Bytes} {bounds : Bounds} (readFrom : ClosedMap.ReadFrom members map)
    (digest : Bytes)
    (member : (key, .string (Base64.encode digest)) ∈ members)
    (found : digestMember map key bounds = some read) : read = digest := by
  simp only [digestMember, readFrom.string _ _ member, Option.bind_eq_bind, Option.bind_some,
    Option.bind_eq_some_iff, guard_eq_some, exists_const, Option.some.injEq] at found
  obtain ⟨_, decoded, -, rfl⟩ := found
  exact (Base64.encode_injective (Base64Url.decode_eq_some.mp decoded).1).symm

/-- The grant that is read. -/
def Grant.decoded (M : Major σ) (readBack : σ → σ) (grant : Grant σ) : DecodedGrant σ where
  version := M.version
  keyId := grant.keyId
  issuer := grant.issuer
  grantId := grant.grantId
  audiences := grant.audiences
  issuedAt := grant.issuedAt
  notBefore := grant.notBefore
  expiresAt := grant.expiresAt
  holderThumbprint := grant.holderThumbprint
  operations := grant.operations.map (Operation.readBack readBack)
  verification := .notEvaluated

/-- A grant that is assembled and parsed is the one that was given. -/
theorem parsed_of_grantSigningInput {grant : Grant σ} {input : SigningInput} {signature : Bytes}
    {parsed : Parsed (DecodedGrant σ)} (signed : grantSigningInput M otp grant [] = some input)
    (found : parseGrant M otp (joined input signature) Bounds.maximum = some parsed) :
    parsed = ⟨grant.decoded M readBack, signature, input.message⟩ := by
  simp only [grantSigningInput, Bounds.coerce_nil, Option.bind_eq_bind, Option.bind_some,
    Option.bind_eq_some_iff, Prod.exists] at signed
  obtain ⟨header, payload, json, protectedBytes, writtenHeader, payloadBytes, writtenPayload,
    signed⟩ := signed
  simp only [grantJson, Option.bind_eq_bind, guard_eq_some, Option.bind_eq_some_iff, exists_const,
    Option.some.injEq, Prod.mk.injEq] at json
  obtain ⟨-, -, -, -, -, -, -, operationValues, operations, rfl, rfl⟩ := json
  obtain ⟨opened, headerMap, payloadMap, openedCompact, closedHeader, closedPayload, fields,
    signatureSame, messageSame⟩ := (parseGrant_eq_some M otp).mp found
  obtain ⟨readHeader, readPayload, rfl, message⟩ := opened_of_joined signed openedCompact
  obtain rfl := ClosedMap.closedMap_eq closedHeader
  obtain rfl := ClosedMap.closedMap_eq closedPayload
  have header := ClosedMap.readFrom_of_encode writtenHeader readHeader
  have payload := ClosedMap.readFrom_of_encode writtenPayload readPayload
  have kid := fields.kid
  have iss := fields.iss
  have jti := fields.jti
  have aud := fields.aud
  have iat := fields.iat
  have nbf := fields.nbf
  have exp := fields.exp
  obtain ⟨members, map, cnf, closed, jkt⟩ := fields.cnf
  obtain ⟨values, array, readOperations⟩ := fields.operations
  have members' : ClosedMap.ReadFrom [(ascii "jkt", .string (Base64.encode grant.holderThumbprint))]
      map := by
    obtain ⟨nested, foundNested, readNested⟩ := payload.object (ascii "cnf")
      [(ascii "jkt", .string (Base64.encode grant.holderThumbprint))]
      (by simp [grantPayload]) (by simp)
    rw [cnf, Option.some.injEq] at foundNested
    subst foundNested
    rw [ClosedMap.closedMap_eq closed]
    exact readNested
  rw [header.string (ascii "kid") grant.keyId (by simp [grantHeader]), Option.some.injEq] at kid
  rw [payload.string (ascii "iss") grant.issuer (by simp [grantPayload]), Option.some.injEq] at iss
  rw [payload.string (ascii "jti") grant.grantId (by simp [grantPayload]), Option.some.injEq] at jti
  rw [payload.integer (ascii "iat") grant.issuedAt (by simp [grantPayload]), Option.some.injEq]
    at iat
  rw [payload.integer (ascii "nbf") grant.notBefore (by simp [grantPayload]), Option.some.injEq]
    at nbf
  rw [payload.integer (ascii "exp") grant.expiresAt (by simp [grantPayload]), Option.some.injEq]
    at exp
  rw [payload.lookup (ascii "aud") (.array (grant.audiences.map .string)) (by simp [grantPayload])]
    at aud
  rw [payload.array (ascii "operations") operationValues (by simp [grantPayload]),
    Option.some.injEq] at array
  subst array
  have decoded : parsed.decoded = grant.decoded M readBack :=
    DecodedGrant.ext fields.version kid.symm iss.symm jti.symm (eq_of_decodeAudiences aud) iat.symm
      nbf.symm exp.symm (eq_of_digestMember members' grant.holderThumbprint (by simp) jkt)
      (eq_of_operations reads operations readOperations) fields.verification
  exact Parsed.ext decoded signatureSame (messageSame.trans message)

/-! ## Proofs -/

/-- The proof that is read. -/
def Proof.decoded (M : Major σ) (proof : Proof) (grantHash requestHash thumbprint : Bytes) :
    DecodedProof where
  version := M.version
  proofId := proof.proofId
  method := proof.method
  targetUri := proof.targetUri
  issuedAt := proof.issuedAt
  nonce := proof.nonce
  invocationId := proof.invocationId
  operation := proof.operation
  grantHash := grantHash
  requestHash := requestHash
  holderPublicKey := proof.holderPublicKey
  holderThumbprint := thumbprint
  verification := .notEvaluated

omit reads in
/-- The nonce is read from where it stands. -/
theorem eq_of_profileNonce {profile : Profile} {proof : Proof}
    {targetUri grantHash requestHash : Bytes}
    {map : ClosedMap} {read : Option Bytes} {bounds : Bounds}
    (readFrom : ClosedMap.ReadFrom (proofPayload M proof targetUri grantHash requestHash) map)
    (found : profile.profileNonce map bounds = some read) : read = proof.nonce := by
  cases present : proof.nonce with
  | some nonce =>
      have lookup := readFrom.lookup (ascii "nonce") (.string nonce)
        (by simp [proofPayload, present])
      rw [Jcs.normal] at lookup
      cases profile with
      | standard =>
          simp only [Profile.profileNonce, Profile.optionalNonce, lookup, Option.bind_eq_bind,
            guard_bind_eq_some, Option.some.injEq] at found
          exact found.2.symm
      | localLoopbackHttp =>
          simp only [Profile.profileNonce, ClosedMap.string, lookup, Option.bind_eq_bind,
            Option.bind_some, guard_bind_eq_some, Option.some.injEq] at found
          exact found.2.symm
  | none =>
      have absent : ascii "nonce" ∉ (proofPayload M proof targetUri grantHash requestHash).map
          Prod.fst := by
        simp only [proofPayload, present]
        exact show ascii "nonce" ∉ proofPayloadKeysWithoutNonce by decide
      have lookup := readFrom.lookup_none absent
      cases profile with
      | standard =>
          simp only [Profile.profileNonce, Profile.optionalNonce, lookup, Option.some.injEq]
            at found
          exact found.symm
      | localLoopbackHttp =>
          simp only [Profile.profileNonce, ClosedMap.string, lookup, Option.bind_eq_bind,
            Option.bind_none] at found
          cases found

/-- A proof that is assembled and parsed is the one that was given, with the digests of
its grant, its request and its key. -/
theorem parsed_of_proofSigningInput {profile : Profile} {proof : Proof} {input : SigningInput}
    {signature : Bytes} {parsed : Parsed DecodedProof}
    (signed : proofSigningInputFor M otp proof [] profile = some input)
    (found : parseProof M otp profile (joined input signature) Bounds.maximum = some parsed) :
    ∃ digest thumbprint,
      M.digestRaw proof.operation proof.castArguments Bounds.maximum = some digest ∧
      M.publicKeyThumbprintRaw proof.holderPublicKey Bounds.maximum = some thumbprint ∧
      parsed = ⟨proof.decoded M (otp.sha256 proof.grantCompact) digest thumbprint, signature,
        input.message⟩ := by
  simp only [proofSigningInputFor, Bounds.coerce_nil, Option.bind_eq_bind, Option.bind_some,
    Option.bind_eq_some_iff, Prod.exists] at signed
  obtain ⟨header, payload, json, protectedBytes, writtenHeader, payloadBytes, writtenPayload,
    signed⟩ := signed
  simp only [proofJson, Option.bind_eq_bind, guard_eq_some, Option.bind_eq_some_iff, exists_const,
    Option.some.injEq, Prod.mk.injEq] at json
  obtain ⟨-, jwkBytes, writtenKey, jwk, readKey, -, -, targetUri, -, rfl, -, -, -, grantHash, ath,
    requestText, request, rfl, rfl⟩ := json
  obtain ⟨opened, headerMap, payloadMap, openedCompact, closedHeader, closedPayload, fields,
    signatureSame, messageSame⟩ := (parseProof_eq_some M otp profile).mp found
  obtain ⟨readHeader, readPayload, rfl, message⟩ := opened_of_joined signed openedCompact
  obtain rfl := ClosedMap.closedMap_eq closedHeader
  obtain rfl := Profile.closedProofPayload_eq closedPayload
  have header := ClosedMap.readFrom_of_encode writtenHeader readHeader
  have payload := ClosedMap.readFrom_of_encode writtenPayload readPayload
  obtain ⟨digest, rawDigest, rfl⟩ := reads.digest _ _ _ request
  obtain rfl : grantHash = Base64.encode (otp.sha256 proof.grantCompact) := by
    obtain ⟨_, -, same⟩ := Option.bind_eq_some_iff.mp ath
    exact (Option.some.inj same).symm
  obtain ⟨members, encoded, foundJwk, writtenJwk, decodedKey, thumbprint⟩ := fields.jwk
  have normalJwk : Jcs.normal jwk = .object members := by
    rw [ClosedMap.object, header.lookup (ascii "jwk") jwk (by simp [proofHeader])] at foundJwk
    split at foundJwk
    next read same =>
      rw [Option.some.injEq] at foundJwk same
      rw [same, foundJwk]
    next => cases foundJwk
  obtain ⟨keySame, keyThumbprint⟩ := reads.publicKey _ _ _ _ _ _ _ writtenKey readKey normalJwk
    writtenJwk decodedKey thumbprint
  have jti := fields.jti
  have htm := fields.htm
  have htu := fields.htu
  have iat := fields.iat
  have invocation := fields.invocation
  have operation := fields.operation
  rw [payload.string (ascii "jti") proof.proofId (by unfold proofPayload; split <;> simp),
    Option.some.injEq] at jti
  rw [payload.string (ascii "htm") proof.method (by unfold proofPayload; split <;> simp),
    Option.some.injEq] at htm
  rw [payload.string (ascii "htu") proof.targetUri (by unfold proofPayload; split <;> simp),
    Option.some.injEq] at htu
  rw [payload.integer (ascii "iat") proof.issuedAt (by unfold proofPayload; split <;> simp),
    Option.some.injEq] at iat
  rw [payload.string (ascii "ba_inv") proof.invocationId (by unfold proofPayload; split <;> simp),
    Option.some.injEq] at invocation
  rw [payload.string (ascii "ba_op") proof.operation (by unfold proofPayload; split <;> simp),
    Option.some.injEq] at operation
  have grantHashSame := eq_of_digestMember payload (otp.sha256 proof.grantCompact)
    (by unfold proofPayload; split <;> simp) fields.ath
  have requestHashSame := eq_of_digestMember payload digest
    (by unfold proofPayload; split <;> simp) fields.request
  have decoded : parsed.decoded = proof.decoded M (otp.sha256 proof.grantCompact) digest
      parsed.decoded.holderThumbprint :=
    DecodedProof.ext fields.version jti.symm htm.symm htu.symm iat.symm
      (eq_of_profileNonce payload fields.nonce) invocation.symm operation.symm grantHashSame
      requestHashSame keySame rfl fields.verification
  exact ⟨digest, _, rawDigest, keyThumbprint,
    Parsed.ext decoded signatureSame (messageSame.trans message)⟩

end BoundedAuthority.Runtime
