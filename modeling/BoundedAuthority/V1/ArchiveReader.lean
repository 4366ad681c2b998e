import BoundedAuthority.V1.AnchoredExportCodec
import BoundedAuthority.V1.Platform

/-!
# The reader does not see the chunks

A cursor stands for the bytes that are left (`Cursor.Holds`), as long as no chunk
behind it is empty.  Reading from a cursor refines reading from those bytes
(`Cursor.refines`), so the parser of archives, which is built from reads, returns the
same from both (`parseArchive_refines`), and the verifier depends on the chunks only
through their concatenation.
-/

namespace BoundedAuthority.V1

open Wire JsonValue

namespace Cursor

/-- The bytes that are left. -/
def remaining (state : Cursor) : Bytes := state.1 ++ state.2.flatten

theorem remaining_mk (current : Bytes) (rest : List Bytes) :
    remaining (current, rest) = current ++ rest.flatten := rfl

/-- A cursor with the given bytes left and no empty chunk behind. -/
def Holds (state : Cursor) (bytes : Bytes) : Prop :=
  (∀ chunk ∈ state.2, chunk ≠ []) ∧ state.remaining = bytes

/-- The steps a read from a cursor takes at most. -/
def steps : Cursor → Nat
  | ([], rest) => 2 * rest.length + 1
  | (_ :: _, rest) => 2 * rest.length + 2

theorem steps_le_fuel (state : Cursor) : state.steps ≤ state.fuel := by
  obtain ⟨_ | ⟨byte, current⟩, rest⟩ := state <;> simp [steps, fuel]

/-- What a read is, behind what is gathered already. -/
theorem readExactLoop_agree {n : Nat} {state : Cursor} {count : Nat} {accumulator : List Bytes}
    (solid : ∀ chunk ∈ state.2, chunk ≠ []) (enough : state.steps ≤ n) :
    Agree Holds (readExactLoop n state count accumulator)
      (if count ≤ state.remaining.length then
        some (accumulator.reverse.flatten ++ state.remaining.take count,
          state.remaining.drop count)
      else none) := by
  fun_induction readExactLoop n state count accumulator with
  | case1 _ _ state =>
      obtain ⟨_ | ⟨_, _⟩, _⟩ := state <;> simp [steps] at enough
  | case2 n byte next rest count accumulator ih =>
      -- an empty chunk is left: the bytes are the same
      exact ih (fun chunk h => solid chunk (List.mem_cons_of_mem _ h)) (by
        simp only [steps, List.length_cons] at enough ⊢
        omega)
  | case3 n current rest count accumulator _ fits =>
      have total : count ≤ (remaining (current, rest)).length := by
        rw [remaining_mk, List.length_append]
        omega
      have part : (remaining (current, rest)).take count = current.take count :=
        List.take_append_of_le_length fits
      have left : (remaining (current, rest)).drop count = current.drop count ++ rest.flatten :=
        List.drop_append_of_le_length fits
      rw [if_pos total, part, left, List.reverse_cons, List.flatten_append, List.flatten_singleton]
      exact Agree.returned ⟨solid, rfl⟩
  | case4 n current rest count accumulator _ long nonempty ih =>
      have ih := ih solid (by
        cases current with
        | nil => cases nonempty
        | cons byte current =>
            simp only [steps] at enough ⊢
            omega)
      have part : (remaining (current, rest)).take count =
          current ++ (remaining ([], rest)).take (count - current.length) := by
        rw [remaining_mk, List.take_append, List.take_of_length_le (by omega)]
        rfl
      have left : (remaining (current, rest)).drop count =
          (remaining ([], rest)).drop (count - current.length) := by
        rw [remaining_mk, List.drop_append, List.drop_of_length_le (by omega)]
        rfl
      have total : count ≤ (remaining (current, rest)).length ↔
          count - current.length ≤ (remaining ([], rest)).length := by
        simp only [remaining, List.nil_append, List.length_append]
        omega
      rw [List.reverse_cons, List.flatten_append, List.flatten_singleton, List.append_assoc,
        ← part, ← left] at ih
      simpa only [total] using ih
  | case5 n current rest count accumulator shape long empty =>
      -- nothing is left: a chunk behind would not be empty
      obtain rfl : current = [] := List.eq_nil_of_length_eq_zero (by omega)
      obtain rfl : rest = [] := by
        cases rest with
        | nil => rfl
        | cons chunk rest =>
            cases chunk with
            | nil => exact absurd rfl (solid [] List.mem_cons_self)
            | cons byte next => exact (shape byte next rest rfl rfl).elim
      rw [if_neg (by simpa [remaining] using long)]
      exact Agree.failed

/-- Reading from a cursor is reading from the bytes that are left. -/
theorem refines : source.Refines Source.plain Holds where
  readExact := by
    rintro state _ ⟨solid, rfl⟩ count
    exact readExactLoop_agree solid state.steps_le_fuel
  eof := by
    rintro ⟨current, rest⟩ _ ⟨solid, rfl⟩
    cases current with
    | cons byte current => rfl
    | nil =>
        cases rest with
        | nil => rfl
        | cons chunk rest =>
            cases chunk with
            | nil => exact absurd rfl (solid [] List.mem_cons_self)
            | cons byte next => rfl

/-- A reader starts with all the bytes of its chunks. -/
theorem holds_start {chunks : List Bytes} (solid : ∀ chunk ∈ chunks, chunk ≠ []) :
    Holds ([], chunks) chunks.flatten := ⟨solid, rfl⟩

end Cursor

namespace AnchoredExportCodec

variable {otp : Otp} {bounds : Bounds}

section Refinement

variable {σ τ : Type} {source : Source σ} {target : Source τ} {R : σ → τ → Prop}
  (refines : source.Refines target R)

include refines

theorem readTransitionFrames_agree : ∀ (remaining : Nat) {s : σ} {t : τ}, R s t →
    Agree R (readTransitionFrames otp source bounds remaining s)
      (readTransitionFrames otp target bounds remaining t)
  | 0, _, _, h => Agree.returned h
  | remaining + 1, _, _, h =>
      (refines.readFrame h _).bind fun _ _ _ h => Agree.guarded _ fun _ =>
        (readTransitionFrames_agree remaining h).bind fun _ _ _ h => Agree.returned h

theorem readRowFrames_agree : ∀ (remaining : Nat) {s : σ} {t : τ}, R s t →
    Agree R (readRowFrames source bounds remaining s) (readRowFrames target bounds remaining t)
  | 0, _, _, h => Agree.returned h
  | remaining + 1, _, _, h =>
      (refines.readFrame h _).bind fun _ _ _ h =>
        (readRowFrames_agree remaining h).bind fun _ _ _ h => Agree.returned h

/-- The parser returns the same archive from a source and from what it refines. -/
theorem parseArchive_refines {s : σ} {t : τ} (h : R s t) :
    parseArchive otp source s bounds = parseArchive otp target t bounds := by
  refine (refines.readExact h _).bind_eq fun _ _ _ h => ?_
  refine Option.bind_congr fun _ _ => (refines.readFrame h _).bind_eq fun _ _ _ h => ?_
  refine Option.bind_congr fun header _ => (refines.readFrame h _).bind_eq fun _ _ _ h => ?_
  refine Option.bind_congr fun _ _ =>
    (readTransitionFrames_agree refines _ h).bind_eq fun _ _ _ h => ?_
  refine (readRowFrames_agree refines _ h).bind_eq fun _ _ _ h => ?_
  refine (refines.readFrame h _).bind_eq fun _ s t h => ?_
  refine Option.bind_congr fun _ _ => ?_
  rw [refines.eof h]

end Refinement

/-- Whatever the chunks, the archive is parsed from their bytes. -/
theorem parseArchive_chunks {chunks : List Bytes} (solid : ∀ chunk ∈ chunks, chunk ≠ []) :
    parseArchive otp Cursor.source ([], chunks) bounds =
      parseArchive otp Source.plain chunks.flatten bounds :=
  parseArchive_refines Cursor.refines (Cursor.holds_start solid)

/-- Chunks that are not empty and within the ceilings. -/
theorem validateChunks_eq_some : ∀ {chunks : List Bytes} {count bytes count' bytes' : Nat},
    validateChunks bounds chunks count bytes = some (count', bytes') ↔
      (∀ chunk ∈ chunks, chunk ≠ []) ∧ count' = count + chunks.length ∧
        bytes' = bytes + chunks.flatten.length ∧ 0 < count' ∧
        (chunks = [] ∨ count' ≤ bounds .archiveChunks ∧ bytes' ≤ bounds .archiveBytes)
  | [], 0, bytes, count', bytes' => by
      simp only [validateChunks, reduceCtorEq, List.length_nil, false_iff]
      omega
  | [], count + 1, bytes, count', bytes' => by
      simp only [validateChunks, Option.some.injEq, Prod.mk.injEq, List.not_mem_nil, false_imp_iff,
        implies_true, List.length_nil, List.flatten_nil, true_and, true_or, and_true]
      omega
  | chunk :: rest, count, bytes, count', bytes' => by
      simp only [validateChunks, Option.bind_eq_bind, guard_bind_eq_some, validateChunks_eq_some,
        List.forall_mem_cons, List.length_cons, List.flatten_cons, List.length_append, reduceCtorEq,
        false_or, List.length_pos_iff]
      constructor
      · rintro ⟨⟨nonempty, room, fits⟩, solid, rfl, rfl, positive, total⟩
        refine ⟨⟨nonempty, solid⟩, by omega, by omega, positive, ?_⟩
        rcases total with rfl | total
        · simp only [List.length_nil, List.flatten_nil] at *
          omega
        · exact total
      · rintro ⟨⟨nonempty, solid⟩, rfl, rfl, positive, total⟩
        exact ⟨⟨nonempty, by omega, by omega⟩, solid, by omega, by omega, by omega,
          .inr (by omega)⟩

/-- Of chunks within the ceiling only the bytes in all can be too many. -/
theorem validateChunks_solid {chunks : List Bytes} (nonempty : chunks ≠ [])
    (solid : ∀ chunk ∈ chunks, chunk ≠ []) (ceiling : chunks.length ≤ bounds .archiveChunks) :
    validateChunks bounds chunks 0 0 = if chunks.flatten.length ≤ bounds .archiveBytes then
      some (chunks.length, chunks.flatten.length) else none := by
  have positive : 0 < chunks.length := List.length_pos_iff.mpr nonempty
  refine Option.ext fun ⟨count, bytes⟩ => ?_
  rw [validateChunks_eq_some, Option.ite_none_right_eq_some, Option.some.injEq, Prod.mk.injEq]
  constructor
  · rintro ⟨-, rfl, rfl, -, total⟩
    obtain ⟨-, fits⟩ := total.resolve_left nonempty
    exact ⟨by omega, by omega, by omega⟩
  · rintro ⟨fits, rfl, rfl⟩
    exact ⟨solid, by omega, by omega, positive, .inr ⟨ceiling, fits⟩⟩

/-- A run of reads over chunks takes their bytes from the front. -/
theorem readAll_chunks {chunks : List Bytes} (solid : ∀ chunk ∈ chunks, chunk ≠ [])
    {counts : List Nat} {parts : List Bytes} {state : Cursor}
    (h : Cursor.source.readAll counts ([], chunks) = some (parts, state)) :
    counts.sum ≤ chunks.flatten.length ∧ parts.flatten = chunks.flatten.take counts.sum ∧
      Cursor.Holds state (chunks.flatten.drop counts.sum) := by
  have agree := Cursor.refines.readAll counts (Cursor.holds_start solid)
  rw [h] at agree
  cases plain : Source.plain.readAll counts chunks.flatten with
  | none =>
      rw [plain] at agree
      cases agree
  | some result =>
      rw [plain] at agree
      obtain ⟨parts', bytes⟩ := result
      obtain ⟨total, flat, rfl⟩ := plain_readAll plain
      cases agree with
      | some related =>
          obtain ⟨rfl, holds⟩ := related
          exact ⟨total, flat, holds⟩

/-- **The verifier does not see the chunks.**  Two chunkings of the same bytes have the
same verdict.  Every run of reads returns the same bytes from both, and so does the frame
behind it; the end is seen exactly when all bytes are read. -/
theorem verify_rechunked {chunks chunks' : List Bytes} {version : Bytes}
    {keyChain : HistoricalKeyChain} {expected : ExpectedAnchoredExport}
    (nonempty : chunks ≠ []) (nonempty' : chunks' ≠ [])
    (solid : ∀ chunk ∈ chunks, chunk ≠ []) (solid' : ∀ chunk ∈ chunks', chunk ≠ [])
    (same : chunks.flatten = chunks'.flatten)
    (ceiling : ∀ bounds, Bounds.coerce expected.bounds = some bounds →
      chunks.length ≤ bounds .archiveChunks ∧ chunks'.length ≤ bounds .archiveChunks) :
    verify otp ⟨chunks, version⟩ keyChain expected =
        verify otp ⟨chunks', version⟩ keyChain expected ∧
      ∀ counts : List Nat,
        (Cursor.source.readAll counts ([], chunks)).map Prod.fst =
            (Cursor.source.readAll counts ([], chunks')).map Prod.fst ∧
          ∀ parts state parts' state',
            Cursor.source.readAll counts ([], chunks) = some (parts, state) →
            Cursor.source.readAll counts ([], chunks') = some (parts', state') →
              parts.flatten = chunks.flatten.take counts.sum ∧
              (∀ maximum, (readFrame Cursor.source state maximum).map Prod.fst =
                (readFrame Cursor.source state' maximum).map Prod.fst) ∧
              (Cursor.eof state = true ↔ counts.sum = chunks.flatten.length) := by
  refine ⟨?_, fun counts => ⟨?_, fun parts state parts' state' read read' => ?_⟩⟩
  · refine Option.bind_congr fun bounds coerced => ?_
    obtain ⟨fits, fits'⟩ := ceiling bounds coerced
    simp only [hashChunks, parseArchive_chunks solid, parseArchive_chunks solid',
      validateChunks_solid nonempty solid fits, validateChunks_solid nonempty' solid' fits', same]
    by_cases size : chunks'.flatten.length ≤ bounds .archiveBytes
    · simp only [size, if_true, Option.bind_eq_bind, Option.bind_some]
      rfl
    · simp only [size, if_false, Option.bind_eq_bind, Option.bind_none]
  · have agree := Cursor.refines.readAll counts (Cursor.holds_start solid)
    have agree' := Cursor.refines.readAll counts (Cursor.holds_start solid')
    rw [agree.map_fst, agree'.map_fst, same]
  · obtain ⟨total, flat, holds⟩ := readAll_chunks solid read
    obtain ⟨-, -, holds'⟩ := readAll_chunks solid' read'
    refine ⟨flat, fun maximum => ?_, ?_⟩
    · rw [(Cursor.refines.readFrame holds maximum).map_fst,
        (Cursor.refines.readFrame holds' maximum).map_fst, same]
    · have eof : Cursor.eof state = (chunks.flatten.drop counts.sum).isEmpty :=
        Cursor.refines.eof holds
      rw [eof, List.isEmpty_iff, List.drop_eq_nil_iff]
      omega

/-! ## A sample archive

One row, one transition from a key to the next, and the signatures of the three
compacts. -/

namespace Sample

def firstKey : HistoricalPublicKey :=
  ⟨ascii "k0", bigEndian 32 0x8A88E3DD7409F195FD52DB2D3CBA5D72CA6709BF1D94121BF3748801B40F6F5C, 0,
    none⟩

def secondKey : HistoricalPublicKey :=
  ⟨ascii "k1", bigEndian 32 0x8139770EA87D175F56A35466C34C7ECCCB8D8A91B4EE37A25DF60F5B8FC9B394, 0,
    none⟩

def firstFingerprint : Bytes := bigEndian 32
  0x5030D178E665D62A5701FA7DC18B26D77B0304C2B9A20FBE4167418F3B9FEA8E

def secondFingerprint : Bytes := bigEndian 32
  0x69506D6A92DDD7549454A20C1897CFCCE103B8DD2C5DC9B32503554FEFEC2845

/-- The canonical text of an object, in base64url. -/
def encoded64 (members : List (Bytes × JsonValue)) : Bytes :=
  Base64.encode ((Jcs.encode (object members) Bounds.maximum).getD [])

def message (typ keyId : Bytes) (payload : List (Bytes × JsonValue)) : Bytes :=
  encoded64 [(ascii "alg", string (ascii "EdDSA")), (ascii "kid", string keyId),
    (ascii "typ", string typ)] ++ ascii "." ++ encoded64 payload

def row : Bytes :=
  (Jcs.encode (ConsumptionChain.rowJson ⟨ascii "c", 1, zeroHash, zeroHash⟩) Bounds.maximum).getD []

def lastHash : Bytes := bigEndian 32
  0x4BE07DCD5C262CA29669FFBDEE81AA8A370450EB275B3766D0DA94CB70FCF0C6

/-- What the signature of a boundary anchor is over. -/
def anchorMessage (keyId anchorId : Bytes) (anchoredAt : Int) (hash fingerprint : Bytes)
    (sequence : Int) : Bytes :=
  message (ascii "ba+chain-anchor") keyId
    [(ascii "anchor_id", string anchorId), (ascii "anchored_at", integer anchoredAt),
      (ascii "chain_hash", string (Base64.encode hash)), (ascii "chain_id", string (ascii "c")),
      (ascii "key_fingerprint", string (Base64.encode fingerprint)),
      (ascii "sequence", integer sequence), (ascii "v", integer 1)]

def startMessage : Bytes := anchorMessage (ascii "k0") (ascii "a0") 10 zeroHash firstFingerprint 0

def startSignature : Bytes :=
  bigEndian 32 0xBE7BE50E714A9D017484E0D090CE4A5C8F60BA5028CBB2D9FC70C3CF8B8C6DDD ++
    bigEndian 32 0x2CB41BC0FC68FBB52773F01E02FC94BD42B7547231B72A7F32CA515EC808AD08

def transitionMessage : Bytes := message (ascii "ba+key-transition") (ascii "k0")
  [(ascii "chain_id", string (ascii "c")), (ascii "effective_at", integer 20),
    (ascii "from_key_fingerprint", string (Base64.encode firstFingerprint)),
    (ascii "to_key_fingerprint", string (Base64.encode secondFingerprint)),
    (ascii "to_key_id", string (ascii "k1")), (ascii "transition_id", string (ascii "t1")),
    (ascii "v", integer 1)]

def transitionSignature : Bytes :=
  bigEndian 32 0x0891532891611DB70CC0AA32A102FC4CC58321E2E2D70D4801482868418B245C ++
    bigEndian 32 0xCF1BC963616FF7CA1DCE6E57898FAFE73D12679B28235D5CD12BC3A6F7557B07

def endMessage : Bytes := anchorMessage (ascii "k1") (ascii "a1") 30 lastHash secondFingerprint 1

def endSignature : Bytes :=
  bigEndian 32 0xE18E6ED33874E45603517DCB9829587FF411600FE88E8778D0179946273CE4E6 ++
    bigEndian 32 0x91B4594FEB77B85DFFB361CB66D47AE16E959C43E6B3D94BF32F695A69DF040E

/-- The hash of the row behind the one of the archive. -/
def laterHash : Bytes := bigEndian 32
  0x99E3F995A2FFA635033540CF5FF6EBDB91C77611E9895DFFB8AB764153D17669

/-- The anchor of that row, for an archive that continues this one. -/
def laterMessage : Bytes := anchorMessage (ascii "k1") (ascii "a2") 40 laterHash secondFingerprint 2

def laterSignature : Bytes :=
  bigEndian 32 0xE07DB1722A25C1D6B50BFA5A665BD9199E1283F95E5A04F1B543489E29D4EA06 ++
    bigEndian 32 0x10A63ACDE230EE95E845F1518F57F049A6F936FA546D938AC05C5C52F285FC0A

def platform : Otp := Otp.listed
  [(startMessage, startSignature, firstKey.publicKey),
    (transitionMessage, transitionSignature, firstKey.publicKey),
    (endMessage, endSignature, secondKey.publicKey),
    (laterMessage, laterSignature, secondKey.publicKey)]

def chain : ExpectedChain := ⟨ascii "c", 1, 1, 1, zeroHash, lastHash, []⟩

def startAnchor : ExpectedAnchor :=
  ⟨ascii "a0", 10, ascii "c", 0, zeroHash, ascii "k0", firstFingerprint, []⟩

def transition : ExpectedKeyTransition :=
  ⟨ascii "t1", ascii "c", 20, ascii "k0", firstFingerprint, ascii "k1", secondFingerprint, []⟩

def endAnchor : ExpectedAnchor :=
  ⟨ascii "a1", 30, ascii "c", 1, lastHash, ascii "k1", secondFingerprint, []⟩

def input : AnchoredExportInput where
  rows := [row]
  startAnchor := startMessage ++ ascii "." ++ Base64.encode startSignature
  transitions := [transitionMessage ++ ascii "." ++ Base64.encode transitionSignature]
  endAnchor := endMessage ++ ascii "." ++ Base64.encode endSignature

def expectedExport : ExpectedExport := ⟨chain, startAnchor, [transition], endAnchor, []⟩

def chunks : List Bytes :=
  buildChunks ((Jcs.encode (object (headerMembers chain 1)) Bounds.maximum).getD [])
    input.startAnchor input.transitions input.rows input.endAnchor

def digest : Bytes := bigEndian 32
  0x83D314C58D863E09AE66849FF560F50E6C75CE3B98A0E367DC833E0F1466A157

def keys : HistoricalKeyChain := ⟨[firstKey, secondKey]⟩

def expected : ExpectedAnchoredExport :=
  ⟨chain, startAnchor, [transition], endAnchor, digest, ascii "1", []⟩

end Sample

/-- The sample archive is accepted. -/
theorem Sample.accepted :
    (verify Sample.platform ⟨Sample.chunks, ascii "1"⟩ Sample.keys Sample.expected).isSome =
      true := by
  decide +kernel

/-- The sample archive in frames and in one chunk. -/
theorem verify_rechunked_sample :
    verify Sample.platform ⟨[Sample.chunks.flatten], ascii "1"⟩ Sample.keys Sample.expected =
      verify Sample.platform ⟨Sample.chunks, ascii "1"⟩ Sample.keys Sample.expected := by
  have shape : Sample.chunks ≠ [] ∧ (∀ chunk ∈ Sample.chunks, chunk ≠ []) ∧
      Sample.chunks.length ≤ 6 ∧ Sample.chunks.flatten ≠ [] := by decide +kernel
  obtain ⟨nonempty, solid, length, whole⟩ := shape
  have maximal : Bounds.coerce Sample.expected.bounds = some .maximum := Bounds.coerce_nil
  have ceiling : ∀ bounds, Bounds.coerce Sample.expected.bounds = some bounds →
      [Sample.chunks.flatten].length ≤ bounds .archiveChunks ∧
        Sample.chunks.length ≤ bounds .archiveChunks := by
    intro bounds coerced
    rw [maximal, Option.some.injEq] at coerced
    subst coerced
    exact ⟨by decide, length.trans (by decide)⟩
  exact (@verify_rechunked Sample.platform _ _ (ascii "1") Sample.keys Sample.expected
    (List.cons_ne_nil _ _) nonempty (List.forall_mem_singleton.mpr whole) solid
    List.flatten_singleton ceiling).1

example :
    (verify Sample.platform ⟨[[]], ascii "1"⟩ Sample.keys Sample.expected).isSome = false := by
  decide +kernel

end AnchoredExportCodec

end BoundedAuthority.V1
