import BoundedAuthority.Rust.ProofClaims
import BoundedAuthority.V1.HolderBinding

/-!
# Where the proof claims of Rust and of the reference agree

The reference reads the digits of an invocation id that stand for the version and the
variant of a UUID; `validate_uuid` does not.
-/

namespace BoundedAuthority.Rust

open Wire JsonValue
open V1 (Bounds ClosedMap Otp)
open BoundedAuthority.Runtime

/-! ## Alphabets -/

variable {s : Bytes} {bounds : Bounds}

theorem isEmpty_eq (s : Bytes) : (!s.isEmpty) = decide (1 ≤ s.length) := by
  cases s <;> simp

theorem validateMethodToken_eq : validateMethodToken s bounds = V1.validMethod s bounds := by
  rw [validateMethodToken, isEmpty_eq]
  rfl

theorem validateOperationName_eq : validateOperationName s bounds = V1.validOperation s bounds := by
  rw [validateOperationName, isEmpty_eq]
  rfl

/-! ## Invocation ids -/

/-- A part of a text is made of the bytes at its places. -/
theorem all_part_iff {start size : Nat} {p : UInt8 → Bool} : (V1.part s start size).all p = true ↔
    ∀ i b, s[i]? = some b → start ≤ i → i < start + size → p b = true := by
  simp only [V1.part, List.all_eq_true, List.mem_iff_getElem?, List.getElem?_take,
    List.getElem?_drop]
  constructor
  · intro h i b found low high
    refine h b ⟨i - start, ?_⟩
    rw [if_pos (by omega), Nat.add_sub_cancel' low]
    exact found
  · rintro h b ⟨i, found⟩
    split at found
    next inside => exact h (start + i) b found (by omega) (by omega)
    next => cases found

theorem part_one_iff {start : Nat} {c : UInt8} (inside : start < s.length) :
    (V1.part s start 1 == [c]) = true ↔ ∀ b, s[start]? = some b → b = c := by
  have drop : s.drop start = s[start] :: s.drop (start + 1) := List.drop_eq_getElem_cons inside
  rw [V1.part, drop, List.take_succ_cons, List.take_zero]
  simp [List.getElem?_eq_getElem inside]

/-- The version is one to five and the variant that of RFC 4122. -/
def versioned (s : Bytes) : Bool :=
  (V1.part s 14 1).all (within 0x31 0x35) && (V1.part s 19 1).all (ascii "89ab").contains

theorem validateUuid_iff : validateUuid s = true ↔ s.length = 36 ∧ ∀ i b, s[i]? = some b →
    if i ∈ uuidHyphens then b = 0x2D else (isDigit b || within 0x61 0x66 b) = true := by
  simp only [validateUuid, Bool.and_eq_true, decide_eq_true_eq, List.all_eq_true]
  refine and_congr_right fun _ => ⟨fun h i b found => ?_, fun h pair member => ?_⟩
  · have := h (b, i) (List.mem_zipIdx_iff_getElem?.mpr found)
    split at this
    next hyphen => rw [if_pos hyphen]; exact beq_iff_eq.mp this
    next plain => rw [if_neg plain]; exact this
  · have := h pair.2 pair.1 (List.mem_zipIdx_iff_getElem?.mp member)
    split at this
    next hyphen => rw [if_pos hyphen]; exact beq_iff_eq.mpr this
    next plain => rw [if_neg plain]; exact this

/-- A digit of a version is a digit, and one of a variant is lower-case hexadecimal. -/
theorem lowerHex_of_version {b : UInt8} (h : within 0x31 0x35 b = true) :
    (isDigit b || within 0x61 0x66 b) = true := by
  simp only [within, isDigit, Bool.and_eq_true, Bool.or_eq_true, decide_eq_true_eq] at h ⊢
  exact .inl ⟨UInt8.le_trans (show (0x30 : UInt8) ≤ 0x31 by decide) h.1,
    UInt8.le_trans h.2 (show (0x35 : UInt8) ≤ 0x39 by decide)⟩

theorem lowerHex_of_variant {b : UInt8} (h : (ascii "89ab").contains b = true) :
    (isDigit b || within 0x61 0x66 b) = true := by
  have all : ∀ c ∈ ascii "89ab", (isDigit c || within 0x61 0x66 c) = true := by decide +kernel
  exact all b (List.contains_iff_mem.mp h)

/-- The reference accepts the ids Rust does with the version and the variant of a UUID. -/
theorem validUuid_iff : V1.validUuid s = true ↔ validateUuid s = true ∧ versioned s = true := by
  by_cases size : s.length = 36
  · have hyphen : ascii "-" = [0x2D] := rfl
    have inside : ∀ {i b}, s[i]? = some b → i < 36 := fun found =>
      size ▸ (List.getElem?_eq_some_iff.mp found).1
    simp only [V1.validUuid, size, decide_true, Bool.true_and, Bool.and_eq_true, hyphen,
      @part_one_iff s 8 _ (by omega), @part_one_iff s 13 _ (by omega),
      @part_one_iff s 18 _ (by omega), @part_one_iff s 23 _ (by omega),
      List.all_cons, List.all_nil, and_true, V1.lowerHex, validateUuid_iff, true_and, versioned,
      all_part_iff]
    constructor
    · rintro ⟨⟨⟨⟨⟨⟨h8, h13⟩, h18⟩, h23⟩, version⟩, variant⟩, a, b, c, d, e⟩
      refine ⟨fun i x found => ?_, version, variant⟩
      have := inside found
      split
      next place =>
        simp only [uuidHyphens, List.mem_cons, List.not_mem_nil, or_false] at place
        rcases place with rfl | rfl | rfl | rfl
        · exact h8 x found
        · exact h13 x found
        · exact h18 x found
        · exact h23 x found
      next place =>
        simp only [uuidHyphens, List.mem_cons, List.not_mem_nil, or_false, not_or] at place
        rcases show i < 8 ∨ (9 ≤ i ∧ i < 13) ∨ i = 14 ∨ (15 ≤ i ∧ i < 18) ∨ i = 19 ∨
          (20 ≤ i ∧ i < 23) ∨ 24 ≤ i by omega with low | ⟨low, high⟩ | same | ⟨low, high⟩ | same |
            ⟨low, high⟩ | low
        · exact a i x found (Nat.zero_le i) (by omega)
        · exact b i x found low (by omega)
        · exact lowerHex_of_version (version i x found (by omega) (by omega))
        · exact c i x found low (by omega)
        · exact lowerHex_of_variant (variant i x found (by omega) (by omega))
        · exact d i x found low (by omega)
        · exact e i x found low (by omega)
    · rintro ⟨each, version, variant⟩
      have hyphenAt : ∀ i ∈ uuidHyphens, ∀ x, s[i]? = some x → x = 0x2D := fun i place x found => by
        have := each i x found
        rwa [if_pos place] at this
      have hexAt : ∀ {low high : Nat}, (∀ i, low ≤ i → i < high → i ∉ uuidHyphens) →
          ∀ i x, s[i]? = some x → low ≤ i → i < high → (isDigit x || within 0x61 0x66 x) =
            true := by
        intro low high plain i x found above below
        have := each i x found
        rwa [if_neg (plain i above below)] at this
      have outside : ∀ {i : Nat}, i ≠ 8 → i ≠ 13 → i ≠ 18 → i ≠ 23 → i ∉ uuidHyphens := by
        intro i _ _ _ _
        simp only [uuidHyphens, List.mem_cons, List.not_mem_nil, or_false]
        omega
      refine ⟨⟨⟨⟨⟨⟨hyphenAt 8 (by decide), hyphenAt 13 (by decide)⟩, hyphenAt 18 (by decide)⟩,
        hyphenAt 23 (by decide)⟩, version⟩, variant⟩, ?_, ?_, ?_, ?_, ?_⟩
      iterate 5
        exact hexAt fun i _ _ => outside (by omega) (by omega) (by omega) (by omega)
  · simp [V1.validUuid, validateUuid, size]

/-! ## Claims -/

theorem string_lookup {map : ClosedMap} {key : Bytes} :
    string (map.lookup key) = ClosedMap.string map key := rfl

theorem base64urlDecode_eq_some {text raw : Bytes} :
    base64urlDecode text = some raw ↔ text = Base64.encode raw := by
  simp only [base64urlDecode, Option.bind_eq_bind, Option.bind_eq_some_iff, guard_eq_some,
    exists_const, Option.some.injEq]
  constructor
  · rintro ⟨-, out, -, same, rfl⟩
    exact same.symm
  · rintro rfl
    refine ⟨?_, raw, Base64.decode_encode raw, rfl, rfl⟩
    rw [Base64.length_encode]
    split <;> omega

variable {map : ClosedMap} {key : Bytes}

/-- The reference takes a digest Rust takes, where a digest fits a decoded segment. -/
theorem digestMember_eq_some {digest : Bytes} : digestMember map key bounds = some digest ↔
    takeDigestB64u (map.lookup key) bounds = some digest ∧ 32 ≤ bounds .decodedSegmentBytes := by
  simp only [digestMember, takeDigestB64u, string_lookup, Option.bind_eq_bind,
    Option.bind_eq_some_iff, guard_eq_some, exists_const, Option.some.injEq,
    base64urlDecode_eq_some, V1.Base64Url.decode_eq_some, Bounds.digestBytes_eq]
  constructor
  · rintro ⟨text, found, raw, ⟨canonical, encoded, decoded⟩, size, rfl⟩
    exact ⟨⟨text, found, encoded, raw, canonical, size, rfl⟩, size ▸ decoded⟩
  · rintro ⟨⟨text, found, encoded, raw, canonical, size, rfl⟩, fits⟩
    exact ⟨text, found, raw, ⟨canonical, encoded, size ▸ fits⟩, size, rfl⟩

/-- Where strings are UTF-8, both take the same nonces. -/
theorem profileNonce_eq {profile : Profile}
    (text : ∀ s, map.lookup (ascii "nonce") = some (.string s) → Utf8.valid s = true) :
    profile.profileNonce map bounds = takeNonce (map.lookup (ascii "nonce")) bounds profile := by
  cases found : map.lookup (ascii "nonce") with
  | none =>
      cases profile <;>
        simp [Profile.profileNonce, Profile.optionalNonce, ClosedMap.string, takeNonce, found]
  | some value =>
      cases value with
      | string s =>
          have valid := text s found
          cases s with
          | nil =>
              cases profile <;>
                simp [Profile.profileNonce, Profile.optionalNonce, ClosedMap.string, takeNonce,
                  found, V1.validNonce]
          | cons b rest =>
              cases profile <;>
                simp [Profile.profileNonce, Profile.optionalNonce, ClosedMap.string, takeNonce,
                  found, V1.validNonce, valid]
      | _ =>
          cases profile <;>
            simp [Profile.profileNonce, Profile.optionalNonce, ClosedMap.string, takeNonce, found]

/-! ## Decoded objects -/

/-- What a decoder promises of the members of an object. -/
structure Decoded (members : List (Bytes × JsonValue)) : Prop where
  distinct : (members.map Prod.fst).Nodup
  text : ∀ m ∈ members, ∀ s, m.2 = .string s → Utf8.valid s = true

/-- The members of every object the reference decodes are such. -/
theorem decoded_of_decode {bytes : Bytes} {members : List (Bytes × JsonValue)}
    (h : V1.Json.decode bytes bounds = some (.object members)) : Decoded members := by
  obtain ⟨-, _, -, accepts⟩ := V1.Json.decode_eq_some.mp h
  obtain ⟨-, distinct, each⟩ := accepts.admits.within
  refine ⟨distinct, fun m member s same => ?_⟩
  have value := (withinMembers_iff.mp each m member).2
  rw [same] at value
  exact value.2

variable {members : List (Bytes × JsonValue)}

theorem Decoded.lookup_iff (h : Decoded members) {key : Bytes} {value : JsonValue} :
    members.reverse.lookup key = some value ↔ (key, value) ∈ members := by
  rw [ClosedMap.lookup_eq_some_iff, List.mem_reverse]
  rw [List.map_reverse, List.nodup_reverse]
  exact h.distinct

/-- A name with a value is a name. -/
theorem mem_names {key : Bytes} {value : JsonValue} (h : members.reverse.lookup key = some value) :
    key ∈ members.map Prod.fst := by
  by_contra absent
  rw [ClosedMap.lookup_eq_none_iff.mpr (by rwa [List.map_reverse, List.mem_reverse])] at h
  cases h

/-- Distinct names are the keys when they are among them and none is missing. -/
theorem perm_of_subset {names keys : List Bytes} (distinct : names.Nodup) (keys' : keys.Nodup)
    (known : ∀ name ∈ names, name ∈ keys) (there : ∀ key ∈ keys, key ∈ names) : names.Perm keys :=
  (List.perm_ext_iff_of_nodup distinct keys').mpr fun key => ⟨known key, there key⟩

/-- Both sides know the same names. -/
theorem headerNames_perm : headerNames.Perm proofHeaderKeys := by decide

theorem payloadNames_perm : payloadNames.Perm proofPayloadKeys := by decide

theorem headerNames_nodup : headerNames.Nodup := by decide

theorem proofPayloadKeys_nodup : proofPayloadKeys.Nodup := by decide

theorem proofPayloadKeys_perm :
    proofPayloadKeys.Perm (ascii "nonce" :: proofPayloadKeysWithoutNonce) := by decide

/-- The closed payloads are those of known names without a required one missing. -/
theorem closedProofPayload_eq_some {profile : Profile} (h : Decoded members) :
    profile.closedProofPayload members = some map ↔
      (∀ name ∈ members.map Prod.fst, name ∈ payloadNames) ∧
      (∀ key ∈ proofPayloadKeysWithoutNonce, key ∈ members.map Prod.fst) ∧
      (profile = .localLoopbackHttp → ascii "nonce" ∈ members.map Prod.fst) ∧
      map = members.reverse := by
  have keys := payloadNames_perm
  have split := proofPayloadKeys_perm
  obtain ⟨apart, without⟩ := List.nodup_cons.mp (split.nodup_iff.mp proofPayloadKeys_nodup)
  have all : (members.map Prod.fst).Perm proofPayloadKeys ↔
      (∀ name ∈ members.map Prod.fst, name ∈ payloadNames) ∧
      (∀ key ∈ proofPayloadKeysWithoutNonce, key ∈ members.map Prod.fst) ∧
      ascii "nonce" ∈ members.map Prod.fst := by
    constructor
    · intro perm
      refine ⟨fun name there => keys.mem_iff.mpr (perm.mem_iff.mp there), fun key listed => ?_, ?_⟩
      · exact perm.mem_iff.mpr (split.mem_iff.mpr (List.mem_cons_of_mem _ listed))
      · exact perm.mem_iff.mpr (split.mem_iff.mpr List.mem_cons_self)
    · rintro ⟨known, there, nonce⟩
      refine perm_of_subset h.distinct proofPayloadKeys_nodup
        (fun name listed => keys.mem_iff.mp (known name listed)) fun key listed => ?_
      rcases List.mem_cons.mp (split.mem_iff.mp listed) with rfl | listed
      · exact nonce
      · exact there key listed
  have fewer : ascii "nonce" ∉ members.map Prod.fst → ((members.map Prod.fst).Perm
      proofPayloadKeysWithoutNonce ↔
      (∀ name ∈ members.map Prod.fst, name ∈ payloadNames) ∧
      ∀ key ∈ proofPayloadKeysWithoutNonce, key ∈ members.map Prod.fst) := by
    intro absent
    constructor
    · intro perm
      refine ⟨fun name there => ?_, fun key listed => perm.mem_iff.mpr listed⟩
      exact keys.mem_iff.mpr (split.mem_iff.mpr (List.mem_cons_of_mem _ (perm.mem_iff.mp there)))
    · rintro ⟨known, there⟩
      refine perm_of_subset h.distinct without (fun name listed => ?_) there
      rcases List.mem_cons.mp (split.mem_iff.mp (keys.mem_iff.mp (known name listed)))
        with rfl | key
      · exact absurd listed absent
      · exact key
  have never : (members.map Prod.fst).Perm proofPayloadKeysWithoutNonce →
      ascii "nonce" ∉ members.map Prod.fst := fun perm there =>
    apart (perm.mem_iff.mp there)
  cases profile with
  | standard =>
      rw [Profile.closedProofPayload, ClosedMap.closedMapOneOf_eq_some]
      simp only [List.mem_cons, List.not_mem_nil, or_false, exists_eq_or_imp, exists_eq_left,
        reduceCtorEq, false_implies, true_and, ← and_assoc]
      refine and_congr_left fun _ => ?_
      by_cases nonce : ascii "nonce" ∈ members.map Prod.fst
      · rw [all, or_iff_left fun perm => never perm nonce, ← and_assoc, and_iff_left nonce]
      · rw [all, fewer nonce, or_iff_right fun h => nonce h.2.2]
  | localLoopbackHttp =>
      rw [Profile.closedProofPayload, ClosedMap.closedMap_eq_some, all]
      simp only [true_implies, and_assoc]

/-! ## The reference -/

/-- What `parse_proof_validated/3` does with both segments once they are decoded. -/
def reference (otp : Otp) (header payload : List (Bytes × JsonValue)) (bounds : Bounds)
    (profile : Profile) : Option DecodedProof := do
  let header ← ClosedMap.closedMap header proofHeaderKeys
  let payload ← profile.closedProofPayload payload
  decodeProofFields (V1.Runtime.major otp) otp profile header payload bounds

/-- The fields both return. -/
def ProofDecoded.ofReference (proof : DecodedProof) : ProofDecoded where
  proofId := proof.proofId
  method := proof.method
  targetUri := proof.targetUri
  invocationId := proof.invocationId
  operation := proof.operation
  grantHash := proof.grantHash
  requestHash := proof.requestHash
  issuedAt := proof.issuedAt
  nonce := proof.nonce
  keyId := []
  holderThumbprint := proof.holderThumbprint
  verification := proof.verification

/-- The key of a header and its thumbprint, in the reference. -/
def referenceHolder (otp : Otp) (jwk : JsonValue) (bounds : Bounds) : Option (Bytes × Bytes) :=
  match jwk with
  | .object members => do
      let bytes ← V1.Jcs.encode (.object members) bounds
      let publicKey ← V1.Jwk.decodePublic bytes bounds
      let thumbprint ← V1.Jwk.thumbprintRaw otp bytes bounds
      some (publicKey, thumbprint)
  | _ => none

variable (v : SubValidators)

/-- The key of a header and its thumbprint. -/
def SubValidators.holder (jwk : JsonValue) (bounds : Bounds) : Option (Bytes × Bytes) := do
  let bytes ← v.jcsEncode jwk bounds
  let publicKey ← v.jwkDecodePublic bytes
  let thumbprint ← v.thumbprintRaw publicKey
  some (publicKey, thumbprint)

/-- The checks of keys, URIs and identifiers come out alike on a proof. -/
structure SameVerdicts (v : SubValidators) (otp : Otp) (header payload : List (Bytes × JsonValue))
    (bounds : Bounds) (profile : Profile) : Prop where
  holder : ∀ jwk, (ascii "jwk", jwk) ∈ header → v.holder jwk bounds = referenceHolder otp jwk bounds
  identifier : ∀ s, (ascii "jti", .string s) ∈ payload →
    v.validateIdentifier s bounds = V1.validIdentifier otp s bounds
  uri : ∀ s, (ascii "htu", .string s) ∈ payload →
    v.normalize profile s bounds = profile.normalizeProofUri s bounds

/-- Every claim but the invocation id is as Rust wants it. -/
structure OtherClaims (v : SubValidators) (header payload : List (Bytes × JsonValue))
    (bounds : Bounds) (profile : Profile) : Prop where
  headerKnown : ∀ name ∈ header.map Prod.fst, name ∈ headerNames
  alg : string (header.reverse.lookup (ascii "alg")) = some (ascii "EdDSA")
  typ : string (header.reverse.lookup (ascii "typ")) = some profile.proofType
  jwk : ∃ jwk, header.reverse.lookup (ascii "jwk") = some jwk ∧ (v.holder jwk bounds).isSome = true
  known : ∀ name ∈ payload.map Prod.fst, name ∈ payloadNames
  version : takeIntegralDate (payload.reverse.lookup (ascii "v")) = some 1
  jti : (takeStringOrUri v (payload.reverse.lookup (ascii "jti")) bounds).isSome = true
  htm : (takeMethodToken (payload.reverse.lookup (ascii "htm")) bounds).isSome = true
  operation : (takeOperationName (payload.reverse.lookup (ascii "ba_op")) bounds).isSome = true
  ath : (takeDigestB64u (payload.reverse.lookup (ascii "ath")) bounds).isSome = true
  request : (takeDigestB64u (payload.reverse.lookup (ascii "ba_req")) bounds).isSome = true
  iat : (takeIntegralDate (payload.reverse.lookup (ascii "iat"))).isSome = true
  htu : ∃ uri, string (payload.reverse.lookup (ascii "htu")) = some uri ∧
    v.normalize profile uri bounds = some uri
  nonce : (takeNonce (payload.reverse.lookup (ascii "nonce")) bounds profile).isSome = true

section

variable {v} {otp : Otp} {header payload : List (Bytes × JsonValue)} {profile : Profile}

theorem members_eq_some {names : List Bytes} : Rust.members names (.object members) = some map ↔
    (∀ name ∈ members.map Prod.fst, name ∈ names) ∧ map = members.reverse := by
  simp only [Rust.members, Option.bind_eq_bind, guard_bind_eq_some, Option.some.injEq,
    List.all_eq_true, List.contains_iff_mem, List.forall_mem_map]
  exact and_congr_right fun _ => eq_comm

/-- A claim that has to be a text of some kind. -/
theorem taken_eq_some {value : Option JsonValue} {p : Bytes → Bool} {s : Bytes} :
    (do let s ← string value; guard (p s); some s) = some s ↔
      string value = some s ∧ p s = true := by
  simp only [Option.bind_eq_bind, Option.bind_eq_some_iff, guard_eq_some, exists_const,
    Option.some.injEq]
  constructor
  · rintro ⟨_, found, valid, rfl⟩
    exact ⟨found, valid⟩
  · rintro ⟨found, valid⟩
    exact ⟨s, found, valid, rfl⟩

/-- What is checked of a header. -/
theorem validateProofHeaderFor_eq_some {publicKey : Bytes} :
    validateProofHeaderFor v (.object header) bounds profile = some publicKey ↔
      (∀ name ∈ header.map Prod.fst, name ∈ headerNames) ∧
      string (header.reverse.lookup (ascii "alg")) = some (ascii "EdDSA") ∧
      string (header.reverse.lookup (ascii "typ")) = some profile.proofType ∧
      ∃ jwk, header.reverse.lookup (ascii "jwk") = some jwk ∧
        ∃ bytes, v.jcsEncode jwk bounds = some bytes ∧
          v.jwkDecodePublic bytes = some publicKey := by
  simp only [validateProofHeaderFor, Option.bind_eq_bind, Option.bind_eq_some_iff, guard_eq_some,
    exists_const, members_eq_some]
  constructor
  · rintro ⟨_, ⟨known, rfl⟩, rest⟩
    exact ⟨known, rest⟩
  · rintro ⟨known, rest⟩
    exact ⟨_, ⟨known, rfl⟩, rest⟩

/-- What is checked of a payload, claim by claim. -/
theorem validateProofPayloadFor_eq_some {claims : ProofPayload} :
    validateProofPayloadFor v (.object payload) bounds profile = some claims ↔
      (∀ name ∈ payload.map Prod.fst, name ∈ payloadNames) ∧
      takeIntegralDate (payload.reverse.lookup (ascii "v")) = some 1 ∧
      takeStringOrUri v (payload.reverse.lookup (ascii "jti")) bounds = some claims.proofId ∧
      takeMethodToken (payload.reverse.lookup (ascii "htm")) bounds = some claims.method ∧
      takeUuid (payload.reverse.lookup (ascii "ba_inv")) = some claims.invocationId ∧
      takeOperationName (payload.reverse.lookup (ascii "ba_op")) bounds = some claims.operation ∧
      takeDigestB64u (payload.reverse.lookup (ascii "ath")) bounds = some claims.grantHash ∧
      takeDigestB64u (payload.reverse.lookup (ascii "ba_req")) bounds = some claims.requestHash ∧
      takeIntegralDate (payload.reverse.lookup (ascii "iat")) = some claims.issuedAt ∧
      string (payload.reverse.lookup (ascii "htu")) = some claims.targetUri ∧
      takeNonce (payload.reverse.lookup (ascii "nonce")) bounds profile = some claims.nonce ∧
      v.normalize profile claims.targetUri bounds = some claims.targetUri := by
  simp only [validateProofPayloadFor, Option.bind_eq_bind, Option.bind_eq_some_iff, guard_eq_some,
    exists_const, members_eq_some, Option.some.injEq]
  constructor
  · rintro ⟨_, ⟨known, rfl⟩, version, _, jti, _, htm, _, uuid, _, operation, _, ath, _, request, _,
      iat, _, htu, _, nonce, _, normal, rfl, rfl⟩
    exact ⟨known, version, jti, htm, uuid, operation, ath, request, iat, htu, nonce, normal⟩
  · rintro ⟨known, version, jti, htm, uuid, operation, ath, request, iat, htu, nonce, normal⟩
    exact ⟨_, ⟨known, rfl⟩, version, _, jti, _, htm, _, uuid, _, operation, _, ath, _, request, _,
      iat, _, htu, _, nonce, _, normal, rfl, rfl⟩

/-- A decoded proof is a header with a key that has a thumbprint, and a payload. -/
theorem decodeProofFor_eq_some {decoded : ProofDecoded} :
    decodeProofFor v (.object header) (.object payload) bounds profile = some decoded ↔
      ∃ publicKey, validateProofHeaderFor v (.object header) bounds profile = some publicKey ∧
        validateProofPayloadFor v (.object payload) bounds profile =
          some decoded.toProofPayload ∧
        v.thumbprintRaw publicKey = some decoded.holderThumbprint ∧ decoded.keyId = [] := by
  simp only [decodeProofFor, Option.bind_eq_bind, Option.bind_eq_some_iff, Option.some.injEq]
  constructor
  · rintro ⟨key, header, claims, payload, thumbprint, hashed, rfl⟩
    exact ⟨key, header, payload, hashed, rfl⟩
  · rintro ⟨key, header, payload, hashed, noKeyId⟩
    refine ⟨key, header, _, payload, _, hashed, ?_⟩
    rw [← noKeyId]

/-- Rust accepts a proof exactly when the other claims are right and the invocation id
is a hexadecimal text with hyphens. -/
theorem decodeProofFor_isSome_iff :
    (decodeProofFor v (.object header) (.object payload) bounds profile).isSome = true ↔
      OtherClaims v header payload bounds profile ∧
      (takeUuid (payload.reverse.lookup (ascii "ba_inv"))).isSome = true := by
  constructor
  · intro h
    obtain ⟨decoded, found⟩ := Option.isSome_iff_exists.mp h
    obtain ⟨key, foundHeader, foundPayload, hashed, -⟩ := decodeProofFor_eq_some.mp found
    obtain ⟨headerKnown, alg, typ, jwk, foundJwk, bytes, encoded, decodedKey⟩ :=
      validateProofHeaderFor_eq_some.mp foundHeader
    obtain ⟨known, version, jti, htm, uuid, operation, ath, request, iat, htu, nonce, normal⟩ :=
      validateProofPayloadFor_eq_some.mp foundPayload
    have holder : v.holder jwk bounds = some (key, decoded.holderThumbprint) := by
      simp [SubValidators.holder, encoded, decodedKey, hashed]
    exact ⟨{ headerKnown := headerKnown
             alg := alg
             typ := typ
             jwk := ⟨jwk, foundJwk, Option.isSome_of_eq_some holder⟩
             known := known
             version := version
             jti := Option.isSome_of_eq_some jti
             htm := Option.isSome_of_eq_some htm
             operation := Option.isSome_of_eq_some operation
             ath := Option.isSome_of_eq_some ath
             request := Option.isSome_of_eq_some request
             iat := Option.isSome_of_eq_some iat
             htu := ⟨_, htu, normal⟩
             nonce := Option.isSome_of_eq_some nonce }, Option.isSome_of_eq_some uuid⟩
  · rintro ⟨h, taken⟩
    obtain ⟨jwk, foundJwk, holder⟩ := h.jwk
    obtain ⟨⟨key, thumbprint⟩, holder⟩ := Option.isSome_iff_exists.mp holder
    simp only [SubValidators.holder, Option.bind_eq_bind, Option.bind_eq_some_iff,
      Option.some.injEq, Prod.mk.injEq] at holder
    obtain ⟨bytes, encoded, _, decoded, _, hashed, rfl, rfl⟩ := holder
    obtain ⟨invocation, uuid⟩ := Option.isSome_iff_exists.mp taken
    obtain ⟨proofId, jti⟩ := Option.isSome_iff_exists.mp h.jti
    obtain ⟨method, htm⟩ := Option.isSome_iff_exists.mp h.htm
    obtain ⟨operation, foundOperation⟩ := Option.isSome_iff_exists.mp h.operation
    obtain ⟨grantHash, ath⟩ := Option.isSome_iff_exists.mp h.ath
    obtain ⟨requestHash, request⟩ := Option.isSome_iff_exists.mp h.request
    obtain ⟨issuedAt, iat⟩ := Option.isSome_iff_exists.mp h.iat
    obtain ⟨uri, htu, normal⟩ := h.htu
    obtain ⟨nonce, foundNonce⟩ := Option.isSome_iff_exists.mp h.nonce
    have validHeader := validateProofHeaderFor_eq_some.mpr
      ⟨h.headerKnown, h.alg, h.typ, jwk, foundJwk, bytes, encoded, decoded⟩
    have validPayload := (@validateProofPayloadFor_eq_some _ v payload profile
      ⟨proofId, method, uri, invocation, operation, grantHash, requestHash, issuedAt, nonce⟩).mpr
      ⟨h.known, h.version, jti, htm, uuid, foundOperation, ath, request, iat, htu, foundNonce,
        normal⟩
    exact Option.isSome_of_eq_some ((@decodeProofFor_eq_some _ v header payload profile
      ⟨_, [], _, .notEvaluated⟩).mpr ⟨_, validHeader, validPayload, hashed, rfl⟩)

/-! ## Agreement -/

theorem lookup_of_string {s : Bytes} (h : string (map.lookup key) = some s) :
    map.lookup key = some (.string s) := by
  unfold string at h
  split at h
  next s' found => rw [found, Option.some.inj h]
  next => cases h

theorem mem_of_takeIntegralDate {n : Int}
    (h : takeIntegralDate (members.reverse.lookup key) = some n) :
    key ∈ members.map Prod.fst := by
  unfold takeIntegralDate at h
  split at h
  next found => exact mem_names found
  next => cases h

theorem lookup_of_object {ms : List (Bytes × JsonValue)} (h : ClosedMap.object map key = some ms) :
    map.lookup key = some (.object ms) := by
  unfold ClosedMap.object at h
  split at h
  next ms' found => rw [found, Option.some.inj h]
  next => cases h

theorem referenceHolder_eq_some {jwk : JsonValue} {publicKey thumbprint : Bytes} :
    referenceHolder otp jwk bounds = some (publicKey, thumbprint) ↔
      ∃ ms bytes, jwk = .object ms ∧ V1.Jcs.encode (.object ms) bounds = some bytes ∧
        V1.Jwk.decodePublic bytes bounds = some publicKey ∧
        V1.Jwk.thumbprintRaw otp bytes bounds = some thumbprint := by
  cases jwk with
  | object ms =>
      simp only [referenceHolder, Option.bind_eq_bind, Option.bind_eq_some_iff, Option.some.injEq,
        Prod.mk.injEq, JsonValue.object.injEq]
      constructor
      · rintro ⟨bytes, encoded, _, decoded, _, hashed, rfl, rfl⟩
        exact ⟨ms, bytes, rfl, encoded, decoded, hashed⟩
      · rintro ⟨_, bytes, rfl, encoded, decoded, hashed⟩
        exact ⟨bytes, encoded, _, decoded, _, hashed, rfl, rfl⟩
  | _ => simp [referenceHolder]

variable (same : SameVerdicts v otp header payload bounds profile) (decodedHeader : Decoded header)
  (decodedPayload : Decoded payload)

include same decodedHeader decodedPayload

/-- What the reference accepts Rust accepts, with the same fields. -/
theorem decodeProofFor_of_reference {proof : DecodedProof}
    (h : reference otp header payload bounds profile = some proof) :
    decodeProofFor v (.object header) (.object payload) bounds profile =
      some (ProofDecoded.ofReference proof) := by
  simp only [reference, Option.bind_eq_bind, Option.bind_eq_some_iff, ClosedMap.closedMap_eq_some,
    closedProofPayload_eq_some decodedPayload, decodeProofFields_eq_some] at h
  obtain ⟨_, ⟨headerNamed, rfl⟩, _, ⟨known, -, -, rfl⟩, fields⟩ := h
  obtain ⟨ms, bytes, foundJwk, encoded, decoded, hashed⟩ := fields.jwk
  have jwk := lookup_of_object foundJwk
  have holder :
      v.holder (.object ms) bounds = some (proof.holderPublicKey, proof.holderThumbprint) := by
    rw [same.holder _ (decodedHeader.lookup_iff.mp jwk)]
    exact referenceHolder_eq_some.mpr ⟨ms, bytes, rfl, encoded, decoded, hashed⟩
  simp only [SubValidators.holder, Option.bind_eq_bind, Option.bind_eq_some_iff, Option.some.injEq,
    Prod.mk.injEq] at holder
  obtain ⟨bytes', encoded', _, decoded', _, hashed', rfl, rfl⟩ := holder
  have identifier : v.validateIdentifier proof.proofId bounds = true := by
    rw [same.identifier _ (decodedPayload.lookup_iff.mp (lookup_of_string fields.jti))]
    exact fields.validJti
  have normal : v.normalize profile proof.targetUri bounds = some proof.targetUri := by
    rw [same.uri _ (decodedPayload.lookup_iff.mp (lookup_of_string fields.htu))]
    exact fields.normalHtu
  have nonce : takeNonce (payload.reverse.lookup (ascii "nonce")) bounds profile =
      some proof.nonce := by
    rw [← profileNonce_eq fun s found => decodedPayload.text _ (decodedPayload.lookup_iff.mp found)
      s rfl]
    exact fields.nonce
  have method : validateMethodToken proof.method bounds = true := by
    rw [validateMethodToken_eq]
    exact fields.validHtm
  have operation : validateOperationName proof.operation bounds = true := by
    rw [validateOperationName_eq]
    exact fields.validOperation
  have uuid := (validUuid_iff.mp fields.validInvocation).1
  have ath := (digestMember_eq_some.mp fields.ath).1
  have request := (digestMember_eq_some.mp fields.request).1
  have validHeader := validateProofHeaderFor_eq_some.mpr
    ⟨fun name there => headerNames_perm.mem_iff.mpr (headerNamed.mem_iff.mp there), fields.alg,
      fields.typ, _, jwk, bytes', encoded', decoded'⟩
  exact decodeProofFor_eq_some.mpr ⟨_, validHeader, validateProofPayloadFor_eq_some.mpr
    ⟨known, fields.v, taken_eq_some.mpr ⟨fields.jti, identifier⟩,
      taken_eq_some.mpr ⟨fields.htm, method⟩, taken_eq_some.mpr ⟨fields.invocation, uuid⟩,
      taken_eq_some.mpr ⟨fields.operation, operation⟩, ath, request, fields.iat, fields.htu, nonce,
      normal⟩, hashed', rfl⟩

/-- What Rust accepts the reference accepts, if the invocation id has a version and a
variant and a digest fits a decoded segment. -/
theorem reference_isSome (other : OtherClaims v header payload bounds profile) {invocation : Bytes}
    (found : string (payload.reverse.lookup (ascii "ba_inv")) = some invocation)
    (uuid : validateUuid invocation = true) (version : versioned invocation = true)
    (fits : 32 ≤ bounds .decodedSegmentBytes) :
    (reference otp header payload bounds profile).isSome = true := by
  have named :
      ∀ {key s}, string (payload.reverse.lookup key) = some s → key ∈ payload.map Prod.fst :=
    fun h => mem_names (lookup_of_string h)
  obtain ⟨jwk, foundJwk, holds⟩ := other.jwk
  obtain ⟨⟨publicKey, thumbprint⟩, holder⟩ := Option.isSome_iff_exists.mp holds
  rw [same.holder _ (decodedHeader.lookup_iff.mp foundJwk)] at holder
  obtain ⟨ms, bytes, rfl, encoded, decoded, hashed⟩ := referenceHolder_eq_some.mp holder
  obtain ⟨proofId, takenId⟩ := Option.isSome_iff_exists.mp other.jti
  obtain ⟨method, takenMethod⟩ := Option.isSome_iff_exists.mp other.htm
  obtain ⟨operation, takenOperation⟩ := Option.isSome_iff_exists.mp other.operation
  obtain ⟨grantHash, ath⟩ := Option.isSome_iff_exists.mp other.ath
  obtain ⟨requestHash, request⟩ := Option.isSome_iff_exists.mp other.request
  obtain ⟨issuedAt, iat⟩ := Option.isSome_iff_exists.mp other.iat
  obtain ⟨nonce, foundNonce⟩ := Option.isSome_iff_exists.mp other.nonce
  obtain ⟨uri, htu, normal⟩ := other.htu
  obtain ⟨jti, identifier⟩ := taken_eq_some.mp takenId
  obtain ⟨htm, token⟩ := taken_eq_some.mp takenMethod
  obtain ⟨op, printable⟩ := taken_eq_some.mp takenOperation
  rw [same.identifier _ (decodedPayload.lookup_iff.mp (lookup_of_string jti))] at identifier
  rw [same.uri _ (decodedPayload.lookup_iff.mp (lookup_of_string htu))] at normal
  rw [← profileNonce_eq fun s found => decodedPayload.text _ (decodedPayload.lookup_iff.mp found) s
    rfl]
    at foundNonce
  rw [validateMethodToken_eq] at token
  rw [validateOperationName_eq] at printable
  have headerNamed : (header.map Prod.fst).Perm proofHeaderKeys := by
    refine List.Perm.trans
      (perm_of_subset decodedHeader.distinct headerNames_nodup other.headerKnown
        fun key listed => ?_) headerNames_perm
    simp only [headerNames, List.mem_cons, List.not_mem_nil, or_false] at listed
    rcases listed with rfl | rfl | rfl
    · exact mem_names (lookup_of_string other.alg)
    · exact mem_names (lookup_of_string other.typ)
    · exact mem_names foundJwk
  have there : ∀ key ∈ proofPayloadKeysWithoutNonce, key ∈ payload.map Prod.fst := by
    intro key listed
    simp only [proofPayloadKeysWithoutNonce, List.mem_cons, List.not_mem_nil, or_false] at listed
    rcases listed with rfl | rfl | rfl | rfl | rfl | rfl | rfl | rfl | rfl
    · obtain ⟨_, text, -⟩ := Option.bind_eq_some_iff.mp ath
      exact named text
    · exact named found
    · exact named op
    · obtain ⟨_, text, -⟩ := Option.bind_eq_some_iff.mp request
      exact named text
    · exact named htm
    · exact named htu
    · exact mem_of_takeIntegralDate iat
    · exact named jti
    · exact mem_of_takeIntegralDate other.version
  have nonceThere : profile = .localLoopbackHttp → ascii "nonce" ∈ payload.map Prod.fst := by
    rintro rfl
    obtain ⟨_, text, -⟩ := Option.bind_eq_some_iff.mp foundNonce
    exact named text
  refine Option.isSome_iff_exists.mpr
    ⟨⟨1, proofId, method, uri, issuedAt, nonce, invocation, operation,
    grantHash, requestHash, publicKey, thumbprint, .notEvaluated⟩, ?_⟩
  simp only [reference, Option.bind_eq_bind, Option.bind_eq_some_iff, ClosedMap.closedMap_eq_some,
    closedProofPayload_eq_some decodedPayload, decodeProofFields_eq_some]
  exact ⟨_, ⟨headerNamed, rfl⟩, _, ⟨other.known, there, nonceThere, rfl⟩,
    { alg := other.alg
      typ := other.typ
      jwk := ⟨ms, bytes, by rw [ClosedMap.object, foundJwk], encoded, decoded, hashed⟩
      v := other.version
      jti := jti
      validJti := identifier
      htm := htm
      validHtm := token
      htu := htu
      normalHtu := normal
      iat := iat
      nonce := foundNonce
      invocation := found
      validInvocation := validUuid_iff.mpr ⟨uuid, version⟩
      operation := op
      validOperation := printable
      ath := digestMember_eq_some.mpr ⟨ath, fits⟩
      request := digestMember_eq_some.mpr ⟨request, fits⟩
      version := rfl
      verification := rfl }⟩

/-- Rust and the reference decode the claims of a proof alike exactly when the other
claims are wrong, or the invocation id is no hexadecimal text with hyphens, or it has the
version and the variant of a UUID and a digest fits a decoded segment. -/
theorem decodeProofFor_agrees_iff :
    decodeProofFor v (.object header) (.object payload) bounds profile =
        (reference otp header payload bounds profile).map ProofDecoded.ofReference ↔
      (OtherClaims v header payload bounds profile → ∀ invocation,
        string (payload.reverse.lookup (ascii "ba_inv")) = some invocation →
        validateUuid invocation = true →
        versioned invocation = true ∧ 32 ≤ bounds .decodedSegmentBytes) := by
  constructor
  · intro agree other invocation found uuid
    have accepted := decodeProofFor_isSome_iff.mpr ⟨other, by simp [takeUuid, found, uuid, guard]⟩
    rw [agree, Option.isSome_map] at accepted
    obtain ⟨proof, is⟩ := Option.isSome_iff_exists.mp accepted
    simp only [reference, Option.bind_eq_bind, Option.bind_eq_some_iff, ClosedMap.closedMap_eq_some,
      closedProofPayload_eq_some decodedPayload, decodeProofFields_eq_some] at is
    obtain ⟨_, -, _, ⟨-, -, -, rfl⟩, fields⟩ := is
    have invocationSame :
        string (payload.reverse.lookup (ascii "ba_inv")) = some proof.invocationId :=
      fields.invocation
    rw [found, Option.some.injEq] at invocationSame
    rw [invocationSame]
    exact ⟨(validUuid_iff.mp fields.validInvocation).2, (digestMember_eq_some.mp fields.ath).2⟩
  · intro condition
    cases accepted : reference otp header payload bounds profile with
    | some proof => exact decodeProofFor_of_reference same decodedHeader decodedPayload accepted
    | none =>
        rw [Option.map_none, ← Option.not_isSome_iff_eq_none, decodeProofFor_isSome_iff]
        rintro ⟨other, taken⟩
        obtain ⟨invocation, taken⟩ := Option.isSome_iff_exists.mp taken
        obtain ⟨found, uuid⟩ := taken_eq_some.mp taken
        obtain ⟨version, fits⟩ := condition other _ found uuid
        have := reference_isSome same decodedHeader decodedPayload other found uuid version fits
        rw [accepted] at this
        cases this

end

namespace Sample

def platform : Otp := V1.Runtime.Sample.producer

/-- The checks of the reference. -/
def validators : SubValidators where
  validateIdentifier := V1.validIdentifier platform
  uriNormalize input bounds := V1.Uri.normalize input bounds
  localLoopbackHttpUriNormalize input bounds :=
    ApplicationProfile.LocalLoopbackHttp.normalize input bounds
  jcsEncode value bounds := V1.Jcs.encode value bounds
  jwkDecodePublic jwk := V1.Jwk.decodePublic jwk []
  thumbprintRaw publicKey := V1.Jwk.publicKeyThumbprintRaw platform publicKey []

def header : List (Bytes × JsonValue) :=
  [(ascii "alg", .string (ascii "EdDSA")),
    (ascii "jwk", .object (V1.Jwk.jwkMembers V1.Runtime.Sample.holderKey)),
    (ascii "typ", .string (ascii "dpop+jwt"))]

def payload (invocation : Bytes) : List (Bytes × JsonValue) :=
  [(ascii "ath", .string (List.replicate 43 0x41)), (ascii "ba_inv", .string invocation),
    (ascii "ba_op", .string (ascii "o")), (ascii "ba_req", .string (List.replicate 43 0x41)),
    (ascii "htm", .string (ascii "GET")), (ascii "htu", .string (ascii "https://h/")),
    (ascii "iat", .integer 5), (ascii "jti", .string (ascii "p")), (ascii "v", .integer 1)]

/-- An invocation id of version zero. -/
def nilUuid : Bytes := ascii "00000000-0000-0000-0000-000000000000"

theorem sameVerdicts :
    SameVerdicts validators platform header (payload nilUuid) .maximum .standard where
  holder jwk member := by
    have all : ∀ m ∈ header, m.1 = ascii "jwk" →
        validators.holder m.2 .maximum = referenceHolder platform m.2 .maximum := by decide +kernel
    exact all _ member rfl
  identifier _ _ := rfl
  uri _ _ := rfl

/-- Members whose strings are UTF-8. -/
theorem decoded_of_strings {members : List (Bytes × JsonValue)}
    (distinct : (members.map Prod.fst).Nodup)
    (valid : ∀ m ∈ members, (string (some m.2)).all Utf8.valid = true) : Decoded members := by
  refine ⟨distinct, fun m member s same => ?_⟩
  have := valid m member
  rw [same] at this
  exact this

theorem decodedHeader : Decoded header := decoded_of_strings (by decide) (by decide)

theorem decodedPayload : Decoded (payload nilUuid) :=
  decoded_of_strings (by decide) (by decide)

end Sample

theorem decodeProofFor_agrees_iff_sample :
    decodeProofFor Sample.validators (.object Sample.header)
      (.object (Sample.payload Sample.nilUuid))
        .maximum .standard =
      (reference Sample.platform Sample.header (Sample.payload Sample.nilUuid) .maximum
        .standard).map
        ProofDecoded.ofReference ↔
      (OtherClaims Sample.validators Sample.header (Sample.payload Sample.nilUuid) .maximum
        .standard → ∀ invocation,
          string ((Sample.payload Sample.nilUuid).reverse.lookup (ascii "ba_inv")) =
          some invocation → validateUuid invocation = true →
          versioned invocation = true ∧ 32 ≤ Bounds.maximum .decodedSegmentBytes) :=
  decodeProofFor_agrees_iff Sample.sameVerdicts Sample.decodedHeader Sample.decodedPayload

/-- An invocation id of version zero is accepted by Rust and not by the reference. -/
theorem decodeProofFor_differs :
    SameVerdicts Sample.validators Sample.platform Sample.header (Sample.payload Sample.nilUuid)
      .maximum .standard ∧
    Decoded Sample.header ∧ Decoded (Sample.payload Sample.nilUuid) ∧
    decodeProofFor Sample.validators (.object Sample.header)
      (.object (Sample.payload Sample.nilUuid))
        .maximum .standard ≠
      (reference Sample.platform Sample.header (Sample.payload Sample.nilUuid) .maximum
        .standard).map
        ProofDecoded.ofReference :=
  ⟨Sample.sameVerdicts, Sample.decodedHeader, Sample.decodedPayload, by decide +kernel⟩

example : validateUuid Sample.nilUuid = true ∧ versioned Sample.nilUuid = false := by
  decide

end BoundedAuthority.Rust
