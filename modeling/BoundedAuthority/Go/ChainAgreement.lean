import BoundedAuthority.Go.Chain
import BoundedAuthority.Go.JsonReference
import BoundedAuthority.V1.ChainProducer
import BoundedAuthority.V1.Tightening

/-!
# The chain checkers agree

A row that both the Go decoder and the Go encoder take is in canonical order, so the loop
over its members finds them where the reference writes them
(`parseCanonicalRow_eq_some`).  Then both checkers run through the rows alike, and they
accept the same chains whenever digests fit the base64url bounds of the reference and
both come to one answer about the identifier of the chain (`check_iff_checkChain`).
-/

namespace BoundedAuthority.Go

open Wire V1 JsonValue

variable {b : Bounds} {numerals : Numerals}

/-! ## Bounds that are passed on -/

theorem resolveBounds_pointer (b : Bounds) : resolveBounds (pointer b) = some b := by
  have valid : validateBounds (fun key => (b key : Int)) = true := by
    refine validateBounds_iff.mpr fun key => Bounds.validOverride_iff.mpr ?_
    have positive := b.positive key
    have tight := b.tightens key
    exact ⟨by omega, by omega, fun wide => by have := b.fixed key wide; omega⟩
  rw [pointer, resolveBounds, dif_pos valid]
  rfl

theorem jcsEncode_pointer (v : JsonValue) : jcsEncode v (pointer b) = Jcs.encode v b :=
  Option.ext fun _ => (jcsEncode_eq_some (resolveBounds_pointer b)).trans Jcs.encode_eq_some.symm

/-! ## Canonical objects -/

/-- A value that is decoded and encoded to the same bytes is in its normal form. -/
theorem normal_of_canonical (sound : numerals.Sound) {raw : Bytes} {v : JsonValue}
    (decoded : jsonDecode numerals raw (pointer b) = some v)
    (encoded : Jcs.encode v b = some raw) : Jcs.normal v = v := by
  obtain ⟨-, t, document, accepts, -⟩ := (jsonDecode_eq_some sound (resolveBounds_pointer b)).mp
    decoded
  obtain ⟨encodable, nodes, rfl⟩ :=
    Jcs.encode_eq_some.mp (Jcs.encode_below b.le_maximum v raw encoded)
  obtain ⟨-, t', document', accepts'⟩ :=
    Json.decode_eq_some.mp (Jcs.decode_canon encodable nodes)
  obtain rfl := document.unique document'
  exact Option.some.inj (accepts'.denotes.symm.trans accepts.denotes)

/-- The names a loop over the members lets through. -/
theorem names_of_foldlM {σ : Type} {f : σ → Bytes × JsonValue → Option σ} {keys : List Bytes}
    (known : ∀ s m s', f s m = some s' → m.1 ∈ keys) :
    ∀ {members : List (Bytes × JsonValue)} {s s' : σ}, members.foldlM f s = some s' →
      ∀ m ∈ members, m.1 ∈ keys
  | [], _, _, _ => by simp
  | m :: rest, s, s', run => by
      rw [List.foldlM_cons] at run
      obtain ⟨middle, first, others⟩ := Option.bind_eq_some_iff.mp run
      exact List.forall_mem_cons.mpr ⟨known _ _ _ first, names_of_foldlM known others⟩

/-- Names in canonical order. -/
structure InOrder (keys : List Bytes) : Prop where
  sorted : keys.Pairwise fun a b => Utf16.le (Utf16.units a) (Utf16.units b) = true
  antisymm : ∀ a ∈ keys, ∀ b ∈ keys, Utf16.le (Utf16.units a) (Utf16.units b) = true →
    Utf16.le (Utf16.units b) (Utf16.units a) = true → a = b

/-- A canonical object with so many members, all of them known, has the known names in
their order. -/
theorem names_of_canonical (sound : numerals.Sound) {raw : Bytes} {obj : List (Bytes × JsonValue)}
    {keys : List Bytes} (order : InOrder keys)
    (decoded : jsonDecode numerals raw (pointer b) = some (.object obj))
    (encoded : Jcs.encode (.object obj) b = some raw) (known : ∀ m ∈ obj, m.1 ∈ keys)
    (count : obj.length = keys.length) : obj.map Prod.fst = keys := by
  obtain ⟨-, t, -, accepts, -⟩ := (jsonDecode_eq_some sound (resolveBounds_pointer b)).mp decoded
  have distinct : (obj.map Prod.fst).Nodup := accepts.sized.2.1
  have perm : (obj.map Prod.fst).Perm keys := by
    refine (List.subperm_of_subset distinct fun name member => ?_).perm_of_length_le ?_
    · obtain ⟨m, inside, rfl⟩ := List.mem_map.mp member
      exact known m inside
    · rw [List.length_map, count]
  have normal := normal_of_canonical sound decoded encoded
  rw [Jcs.normal_object, JsonValue.object.injEq] at normal
  have sorted : (obj.map Prod.fst).Pairwise fun a b =>
      Utf16.le (Utf16.units a) (Utf16.units b) = true := by
    rw [← normal, List.map_map]
    refine List.pairwise_map.mpr ?_
    exact Jcs.sortMembers_sorted obj
  exact List.Perm.eq_of_pairwise
    (fun a b left right => order.antisymm a (perm.subset left) b right) sorted order.sorted perm

/-! ## Rows -/

open ConsumptionChain (rowKeys rowMembers rowJson)

/-- The entry of a row. -/
def ChainRowData.entry (row : ChainRowData) : ConsumptionEntry :=
  ⟨row.chainID, row.sequence, row.previous, row.commitment⟩

/-- A row as both sides take it, but for the checks of its entry. -/
structure CanonicalRow (numerals : Numerals) (b : Bounds) (raw : Bytes) (entry : ConsumptionEntry) :
    Prop where
  size : 0 < raw.length ∧ raw.length ≤ b .chainRowBytes
  decoded : jsonDecode numerals raw (pointer b) = some (.object (rowMembers entry))
  encoded : Jcs.encode (rowJson entry) b = some raw
  sequence : validTime entry.sequence b = true
  commitment : entry.commitment.length = 32
  previous : entry.previousHash.length = 32

theorem rowKeys_inOrder : InOrder rowKeys where
  sorted := by decide
  antisymm := by decide

theorem rowField_known {out out' : RowFields} {m : Bytes × JsonValue}
    (h : rowField b out m = some out') : m.1 ∈ rowKeys := by
  unfold rowField at h
  simp only [rowKeys, List.mem_cons]
  split at h
  next key => simp [key]
  next =>
  split at h
  next key => simp [key]
  next =>
  split at h
  next key => simp [key]
  next =>
  split at h
  next key => simp [key]
  next =>
  split at h
  next key => simp [key]
  next => cases h

section

variable (out : RowFields) (v : JsonValue)

theorem rowField_chainID : rowField b out (ascii "chain_id", v) =
    some { out with chainID := textOr out.chainID v } := rfl

theorem rowField_commitment : rowField b out (ascii "commitment", v) =
    some { out with commitment := textOr out.commitment v } := rfl

theorem rowField_previous : rowField b out (ascii "previous", v) =
    some { out with previous := textOr out.previous v } := rfl

theorem rowField_sequence : rowField b out (ascii "sequence", v) =
    (integralTime v b).map fun t => { out with sequence := t } := rfl

theorem rowField_v {out' : RowFields} :
    rowField b out (ascii "v", v) = some out' ↔ v = .integer 1 ∧ out' = out := by
  rw [rowField, if_pos rfl]
  split
  next one => exact ⟨fun same => ⟨one, (Option.some.inj same).symm⟩,
      fun h => congrArg some h.2.symm⟩
  next other => exact ⟨fun h => absurd h (by simp), fun h => absurd h.1 other⟩

end

/-- The loop over the members of a row in canonical order. -/
theorem rowFields_eq_some (chainID commitment previous sequence version : JsonValue)
    (out : RowFields) :
    [(ascii "chain_id", chainID), (ascii "commitment", commitment), (ascii "previous", previous),
        (ascii "sequence", sequence), (ascii "v", version)].foldlM (rowField b) ⟨[], [], [], 0⟩ =
        some out ↔
      sequence = .integer out.sequence ∧ validTime out.sequence b = true ∧ version = .integer 1 ∧
        out.chainID = textOr [] chainID ∧ out.commitment = textOr [] commitment ∧
        out.previous = textOr [] previous := by
  simp only [List.foldlM_cons, List.foldlM_nil, rowField_chainID, rowField_commitment,
    rowField_previous, rowField_sequence, rowField_v, Option.bind_eq_bind, Option.bind_some,
    Option.bind_eq_some_iff, Option.map_eq_some_iff, integralTime_eq_some, Option.pure_def,
    Option.some.injEq]
  constructor
  · rintro ⟨_, ⟨time, ⟨rfl, within⟩, rfl⟩, _, ⟨rfl, rfl⟩, rfl⟩
    exact ⟨rfl, within, rfl, rfl, rfl, rfl⟩
  · obtain ⟨_, _, _, time⟩ := out
    rintro ⟨rfl, within, rfl, rfl, rfl, rfl⟩
    exact ⟨_, ⟨time, ⟨rfl, within⟩, rfl⟩, _, ⟨rfl, rfl⟩, rfl⟩

/-- A member that must not be empty is text. -/
theorem eq_string_of_textOr {v : JsonValue} {s : Bytes} (h : textOr [] v = s) (nonempty : s ≠ []) :
    v = .string s := by
  cases v with
  | string t => exact congrArg JsonValue.string h
  | _ => exact absurd h.symm nonempty

theorem encode_digest_ne_nil {digest : Bytes} (size : digest.length = 32) :
    Base64.encode digest ≠ [] :=
  fun empty => by simp [Base64.encode_eq_nil.mp empty] at size

/-- A row is parsed as the row of the reference it is. -/
theorem parseCanonicalRow_eq_some (sound : numerals.Sound) {raw : Bytes} {row : ChainRowData} :
    parseCanonicalRow numerals raw b = some row ↔
      CanonicalRow numerals b raw row.entry ∧
        validStringOrURI row.chainID (b .identifierBytes) = true := by
  simp only [parseCanonicalRow, Option.bind_eq_bind, Option.bind_eq_some_iff, guard_eq_some,
    exists_const, jcsEncode_pointer]
  constructor
  · rintro ⟨size, value, decoded, h⟩
    split at h
    next obj =>
      simp only [Option.bind_eq_some_iff, guard_eq_some, exists_const, Option.some.injEq,
        canonicalDigestString_eq_some] at h
      obtain ⟨count, out, fields, valid, commitment, ⟨commitmentText, commitmentSize⟩, previous,
        ⟨previousText, previousSize⟩, _, encoded, rfl, rfl⟩ := h
      have names := names_of_canonical sound rowKeys_inOrder decoded encoded
        (names_of_foldlM (fun _ _ _ => rowField_known) fields) count
      simp only [rowKeys, List.map_eq_cons_iff, List.map_eq_nil_iff] at names
      obtain ⟨⟨_, v₁⟩, _, rfl, rfl, ⟨_, v₂⟩, _, rfl, rfl, ⟨_, v₃⟩, _, rfl, rfl, ⟨_, v₄⟩, _, rfl,
        rfl, ⟨_, v₅⟩, _, rfl, rfl, rfl⟩ := names
      obtain ⟨rfl, within, rfl, chainID, commitment', previous'⟩ :=
        (rowFields_eq_some _ _ _ _ _ out).mp fields
      have nonempty : out.chainID ≠ [] := by
        intro empty
        simp [validStringOrURI, empty] at valid
      obtain rfl := eq_string_of_textOr chainID.symm nonempty
      obtain rfl := eq_string_of_textOr (commitment'.symm.trans commitmentText)
        (encode_digest_ne_nil commitmentSize)
      obtain rfl := eq_string_of_textOr (previous'.symm.trans previousText)
        (encode_digest_ne_nil previousSize)
      exact ⟨⟨⟨by omega, by omega⟩, decoded, encoded, within, commitmentSize, previousSize⟩, valid⟩
    next => cases h
  · rintro ⟨canonical, valid⟩
    have fields := (rowFields_eq_some (.string row.chainID) (.string (Base64.encode row.commitment))
      (.string (Base64.encode row.previous)) (.integer row.sequence) (.integer 1)
      ⟨row.chainID, Base64.encode row.commitment, Base64.encode row.previous, row.sequence⟩).mpr
      ⟨rfl, canonical.sequence, rfl, rfl, rfl, rfl⟩
    refine ⟨by have := canonical.size; omega, _, canonical.decoded, ?_⟩
    simp only [Option.bind_eq_some_iff, guard_eq_some, exists_const, Option.some.injEq,
      canonicalDigestString_eq_some]
    exact ⟨rfl, _, fields, valid, _, ⟨rfl, canonical.commitment⟩, _, ⟨rfl, canonical.previous⟩, raw,
      canonical.encoded, rfl, rfl⟩

variable {otp : Otp}

/-- Digests pass the base64url bounds of the reference. -/
def DigestsFit (b : Bounds) : Prop := 43 ≤ b .encodedSegmentBytes ∧ 32 ≤ b .decodedSegmentBytes

theorem decode_digest_iff {digest : Bytes} (size : digest.length = 32) :
    Base64Url.decode (Base64.encode digest) b = some digest ↔ DigestsFit b := by
  rw [Base64Url.decode_eq_some, Base64.length_encode, size]
  exact and_iff_right rfl

/-- The names of a row are no longer than its digests. -/
theorem CanonicalRow.names (sound : numerals.Sound) {raw : Bytes} {entry : ConsumptionEntry}
    (h : CanonicalRow numerals b raw entry) :
    NamesWithin (b .stringBytes) (.object (rowMembers entry)) := by
  obtain ⟨-, t, -, accepts, -⟩ :=
    (jsonDecode_eq_some sound (resolveBounds_pointer b)).mp h.decoded
  obtain ⟨-, -, -, -, -, digest, -⟩ := accepts.sized
  have size : (Base64.encode entry.commitment).length = 43 := by
    rw [Base64.length_encode, h.commitment]
    rfl
  have long : 43 ≤ b .stringBytes := size ▸ digest
  have short : ∀ key ∈ rowKeys, key.length ≤ 43 := by decide
  have fits : ∀ key ∈ rowKeys, key.length ≤ b .stringBytes := fun key member =>
    Nat.le_trans (short key member) long
  simp only [rowKeys, List.forall_mem_cons] at fits
  obtain ⟨chainId, commitment, previous, sequence, version, -⟩ := fits
  exact ⟨chainId, trivial, commitment, trivial, previous, trivial, sequence, trivial, version,
    trivial, trivial⟩

/-- The numbers of a row are integers, so no reader of fractions decides about it. -/
theorem floatFree_rowJson (entry : ConsumptionEntry) : FloatFree (rowJson entry) :=
  ⟨trivial, trivial, trivial, trivial, trivial, trivial⟩

/-- A row the reference parses is such a row, with an entry it would write. -/
theorem parseRow_eq_some (sound : numerals.Sound) {raw : Bytes} {entry : ConsumptionEntry}
    {encoded : EncodedConsumptionEntry} :
    ConsumptionChain.parseRow otp raw b = some (entry, encoded) ↔
      CanonicalRow numerals b raw entry ∧ ConsumptionChain.validateEntry otp entry b = true ∧
        DigestsFit b ∧ encoded = ⟨raw, chainHash otp.sha256 raw⟩ := by
  constructor
  · intro h
    obtain ⟨written, rfl⟩ := ConsumptionChain.parseRow_spec h
    obtain ⟨valid, canonical, size, hash⟩ := ConsumptionChain.encode_eq_some.mp written
    have context := valid
    simp only [ConsumptionChain.validateEntry, Bool.and_eq_true, validPositiveSequence, fixedDigest,
      decide_eq_true_eq, Bounds.digestBytes_eq] at context
    obtain ⟨⟨⟨⟨-, positive, magnitude⟩, previousSize⟩, commitmentSize⟩, -⟩ := context
    simp only [ConsumptionChain.parseRow, Option.bind_eq_bind, guard_bind_eq_some] at h
    obtain ⟨⟨nonempty, -⟩, h⟩ := h
    obtain ⟨value, decoded, h⟩ := Option.bind_eq_some_iff.mp h
    have read := ClosedMap.decode_encode (ConsumptionChain.ordered_rowMembers entry)
      (Jcs.encode_below b.le_maximum _ _ canonical)
    obtain rfl := Json.decode_unique decoded read
    simp only [Option.bind_eq_some_iff, guard_eq_some, exists_const, Option.some.injEq,
      Prod.mk.injEq] at h
    obtain ⟨row, closed, -, _, -, _, -, previousEncoded, previousText, _, previousDecoded, _, -, _,
      -, _, -, -, rfl, -⟩ := h
    obtain rfl := ClosedMap.closedMap_eq closed
    obtain rfl : Base64.encode _ = previousEncoded := Option.some.inj previousText
    have fits := (decode_digest_iff previousSize).mp previousDecoded
    refine ⟨⟨⟨nonempty, size⟩,
      jsonDecode_of_floatFree sound (resolveBounds_pointer b) (floatFree_rowJson _) decoded,
      canonical, ?_, commitmentSize, previousSize⟩, valid, fits, ?_⟩
    · rw [validTime, Bool.and_eq_true, decide_eq_true_eq, decide_eq_true_eq]
      exact ⟨by omega, magnitude⟩
    · rw [chainHash, chainDomainPrefix, ← ConsumptionChain.domain, ← hash]
  · rintro ⟨canonical, valid, fits, rfl⟩
    have decoded := ((decode_eq_some_iff sound (resolveBounds_pointer b)).mpr
      ⟨canonical.decoded, canonical.names sound⟩).1
    have previous := (decode_digest_iff canonical.previous).mpr fits
    have commitment := (decode_digest_iff canonical.commitment).mpr fits
    have written : ConsumptionChain.encode otp entry b = some ⟨raw, chainHash otp.sha256 raw⟩ :=
      ConsumptionChain.encode_eq_some.mpr ⟨valid, canonical.encoded, canonical.size.2, rfl⟩
    have closed :
        ClosedMap.closedMap (rowMembers entry) rowKeys = some (rowMembers entry).reverse :=
      ClosedMap.closedMap_of_keys rfl
    have version : ClosedMap.integer (rowMembers entry).reverse (ascii "v") = some 1 := rfl
    have chainId : ClosedMap.string (rowMembers entry).reverse (ascii "chain_id") =
        some entry.chainId := rfl
    have sequence : ClosedMap.integer (rowMembers entry).reverse (ascii "sequence") =
        some entry.sequence := rfl
    have previousText : ClosedMap.string (rowMembers entry).reverse (ascii "previous") =
        some (Base64.encode entry.previousHash) := rfl
    have commitmentText : ClosedMap.string (rowMembers entry).reverse (ascii "commitment") =
        some (Base64.encode entry.commitment) := rfl
    simp only [ConsumptionChain.parseRow, canonical.size, and_self, decoded, closed, version,
      chainId, sequence, previousText, commitmentText, previous, commitment, written,
      Option.bind_eq_bind, guard_true, Option.pure_def, Option.bind_some]

/-! ## One step -/

/-- The strings of a row are strings of the reference. -/
theorem CanonicalRow.utf8 {raw : Bytes} {entry : ConsumptionEntry}
    (h : CanonicalRow numerals b raw entry) : Utf8.valid entry.chainId = true := by
  obtain ⟨encodable, -, -⟩ := Jcs.encode_eq_some.mp h.encoded
  obtain ⟨-, -, -, chainId, -⟩ := encodable.within
  exact chainId.2

/-- What the Go loop asks of a row in a place is what the reference asks of it. -/
theorem rowStep_iff (sound : numerals.Sound) {chainID prior raw hash : Bytes} {sequence : Int}
    (agree : AgreeOn otp b chainID) (positive : 0 < sequence) :
    ConsumptionChain.rowStep otp b chainID sequence prior raw = some hash ↔
      DigestsFit b ∧ hash = chainHash otp.sha256 raw ∧
        ∃ row, parseCanonicalRow numerals raw b = some row ∧ row.chainID = chainID ∧
          row.sequence = sequence ∧ row.previous = prior ∧ (sequence = 1 → prior = zeroHash) := by
  simp only [ConsumptionChain.rowStep_eq_some, parseRow_eq_some sound,
    parseCanonicalRow_eq_some sound]
  constructor
  · rintro ⟨commitment, _, ⟨canonical, valid, fits, rfl⟩, rfl⟩
    simp only [ConsumptionChain.validateEntry, Bool.and_eq_true, Bool.or_eq_true, decide_eq_true_eq,
      FixedBytes.equal_iff] at valid
    obtain ⟨⟨⟨⟨identifier, -⟩, -⟩, -⟩, genesis⟩ := valid
    refine ⟨fits, rfl, ⟨chainID, commitment, prior, sequence⟩, ⟨canonical, ?_⟩, rfl, rfl, rfl, ?_⟩
    · exact (agree canonical.utf8).trans identifier
    · exact genesis.resolve_left ∘ not_not_intro
  · rintro ⟨fits, rfl, ⟨_, commitment, _, _⟩, ⟨canonical, valid⟩, rfl, rfl, rfl, genesis⟩
    refine ⟨commitment, _, ⟨canonical, ?_, fits, rfl⟩, rfl⟩
    have time := canonical.sequence
    simp only [validTime, Bool.and_eq_true, decide_eq_true_eq] at time
    simp only [ConsumptionChain.validateEntry, Bool.and_eq_true, Bool.or_eq_true, decide_eq_true_eq,
      FixedBytes.equal_iff, validPositiveSequence, fixedDigest, Bounds.digestBytes_eq]
    refine ⟨⟨⟨⟨(agree canonical.utf8).symm.trans valid, positive, time.2⟩, canonical.previous⟩,
      canonical.commitment⟩, ?_⟩
    exact or_iff_not_imp_left.mpr fun one => genesis (not_not.mp one)

/-! ## Runs -/

theorem toInt_position {first : Int64} {i : Nat} (positive : 0 < first.toInt)
    (room : first.toInt + i < 2 ^ 63) : (first + Int64.ofNat i).toInt = first.toInt + i := by
  rw [Int64.toInt_add, Int64.toInt_ofNat_of_lt (by omega)]
  exact Int.bmod_eq_of_le (by omega) (by omega)

/-- Behind the first row the Go loop is the run of the reference. -/
theorem checkRows_iff_run (sound : numerals.Sound) {expected : ExpectedChain} {wantPrev : Bytes}
    (agree : AgreeOn otp b expected.chainID) (fits : DigestsFit b)
    (positive : 0 < expected.firstSequence.toInt) :
    ∀ {rows : List Bytes} {i : Nat} {prior last : Bytes}, i ≠ 0 →
      expected.firstSequence.toInt + i + rows.length ≤ 2 ^ 63 →
      (checkRows otp.sha256 numerals b expected wantPrev rows i prior = some last ↔
        Linked.run (ConsumptionChain.rowStep otp b expected.chainID)
          (expected.firstSequence.toInt + i) prior rows = some last)
  | [], i, prior, last, _, _ => by simp [checkRows]
  | raw :: rest, i, prior, last, later, room => by
      have length : (((raw :: rest).length : Nat) : Int) = rest.length + 1 := by simp
      have next :
          expected.firstSequence.toInt + i + 1 = expected.firstSequence.toInt + (i + 1 : Nat) := by
        omega
      have position := toInt_position (i := i) positive (by omega)
      have rows := @checkRows_iff_run sound expected wantPrev agree fits positive rest (i + 1)
        (chainHash otp.sha256 raw) last (Nat.succ_ne_zero i) (by omega)
      simp only [checkRows, Linked.run_cons_eq_some, Option.bind_eq_bind, Option.bind_eq_some_iff,
        guard_eq_some, exists_const, if_neg later, position, rows, next,
        rowStep_iff sound agree (show 0 < expected.firstSequence.toInt + i by omega)]
      constructor
      · rintro ⟨row, parsed, chain, order, previous, run⟩
        exact ⟨_, ⟨fits, rfl, row, parsed, chain, order, previous, by omega⟩, run⟩
      · rintro ⟨_, ⟨-, rfl, row, parsed, chain, order, previous, -⟩, run⟩
        exact ⟨row, parsed, chain, order, previous, run⟩

/-- The Go loop over some rows is the run of the reference. -/
theorem checkRows_first (sound : numerals.Sound) {expected : ExpectedChain}
    {wantPrev last link : Bytes}
    (agree : AgreeOn otp b expected.chainID) (fits : DigestsFit b)
    (positive : 0 < expected.firstSequence.toInt) {rows : List Bytes} (some_ : rows ≠ [])
    (room : expected.firstSequence.toInt + rows.length ≤ 2 ^ 63) :
    checkRows otp.sha256 numerals b expected wantPrev rows 0 link = some last ↔
      Linked.run (ConsumptionChain.rowStep otp b expected.chainID) expected.firstSequence.toInt
        wantPrev rows = some last := by
  cases rows with
  | nil => exact absurd rfl some_
  | cons raw rest =>
      have length : (((raw :: rest).length : Nat) : Int) = rest.length + 1 := by simp
      have position := toInt_position (i := 0) positive (by omega)
      have rows := @checkRows_iff_run _ _ _ sound expected wantPrev agree fits positive rest 1
        (chainHash otp.sha256 raw) last one_ne_zero (by omega)
      simp only [checkRows, Linked.run_cons_eq_some, Option.bind_eq_bind, Option.bind_eq_some_iff,
        guard_eq_some, exists_const, if_true, position, Nat.zero_add, rows, Nat.cast_zero,
        Int.add_zero, Nat.cast_one, rowStep_iff sound agree positive]
      constructor
      · rintro ⟨row, parsed, chain, order, ⟨genesis, previous⟩, run⟩
        refine ⟨_, ⟨fits, rfl, row, parsed, chain, order, previous, fun one => ?_⟩, run⟩
        rw [← previous]
        exact not_not.mp fun other => genesis ⟨order.trans one, other⟩
      · rintro ⟨_, ⟨-, rfl, row, parsed, chain, order, previous, genesis⟩, run⟩
        refine ⟨row, parsed, chain, order, ⟨?_, previous⟩, run⟩
        rintro ⟨one, other⟩
        exact other (previous.trans (genesis (order.symm.trans one)))

/-! ## Chains -/

/-- What a row of the reference says about the place it stands in. -/
theorem rowStep_valid {chainID prior raw hash : Bytes} {sequence : Int}
    (h : ConsumptionChain.rowStep otp b chainID sequence prior raw = some hash) :
    validIdentifier otp chainID b = true ∧ 0 < sequence ∧ sequence ≤ b .integerMagnitude ∧
      prior.length = 32 ∧ (sequence = 1 → prior = zeroHash) ∧ hash.length = 32 := by
  obtain ⟨commitment, encoded, parsed, rfl⟩ := ConsumptionChain.rowStep_eq_some.mp h
  obtain ⟨written, -⟩ := ConsumptionChain.parseRow_spec parsed
  have valid := (ConsumptionChain.encode_eq_some.mp written).1
  simp only [ConsumptionChain.validateEntry, validPositiveSequence, fixedDigest,
    Bounds.digestBytes_eq, Bool.and_eq_true, Bool.or_eq_true, decide_eq_true_eq,
    FixedBytes.equal_iff] at valid
  obtain ⟨⟨⟨⟨identifier, positive, magnitude⟩, previous⟩, -⟩, genesis⟩ := valid
  exact ⟨identifier, positive, magnitude, previous, fun one => genesis.resolve_left
    (not_not_intro one), ConsumptionChain.length_hash written⟩

/-- A run over some rows ends in a place that is a number of the reference. -/
theorem run_last {chainID : Bytes} : ∀ {rows : List Bytes} {sequence : Int} {prior last : Bytes},
    rows ≠ [] →
    Linked.run (ConsumptionChain.rowStep otp b chainID) sequence prior rows = some last →
      sequence + rows.length ≤ b .integerMagnitude + 1 ∧ last.length = 32
  | [], _, _, _, some_, _ => absurd rfl some_
  | raw :: rest, sequence, prior, last, _, run => by
      obtain ⟨hash, step, others⟩ := Linked.run_cons_eq_some.mp run
      obtain ⟨-, -, magnitude, -, -, size⟩ := rowStep_valid step
      rw [List.length_cons]
      by_cases single : rest = []
      · rw [single, Linked.run_nil, Option.some.injEq] at others
        rw [single, ← others]
        exact ⟨by simp only [List.length_nil]; omega, size⟩
      · obtain ⟨place, length⟩ := run_last single others
        exact ⟨by omega, length⟩

/-- The context of a chain is one the rows of the chain speak for, but for the range. -/
theorem accepts_iff_run {expected : V1.ExpectedChain} {rows : List Bytes} :
    ConsumptionChain.Accepts otp b rows expected ↔
      rows ≠ [] ∧ rows.length ≤ b .chainRows ∧ (rows.length : Int) = expected.rowCount ∧
        expected.rowCount = expected.lastSequence - expected.firstSequence + 1 ∧
        Linked.run (ConsumptionChain.rowStep otp b expected.chainId) expected.firstSequence
          expected.previousHash rows = some expected.lastHash := by
  constructor
  · intro h
    have count := h.count
    obtain ⟨positive, fits, range⟩ := ConsumptionChain.expectedChain_count h.context
    refine ⟨?_, by omega, count, range, h.run⟩
    rintro rfl
    rw [List.length_nil] at count
    omega
  · rintro ⟨some_, fits, count, range, run⟩
    refine ⟨?_, count, run⟩
    obtain ⟨place, lastSize⟩ := run_last some_ run
    cases rows with
    | nil => exact absurd rfl some_
    | cons raw rest =>
      obtain ⟨hash, step, -⟩ := Linked.run_cons_eq_some.mp run
      obtain ⟨identifier, positive, magnitude, previous, genesis, -⟩ := rowStep_valid step
      rw [List.length_cons] at place count fits
      simp only [ContextValidation.expectedChain, ContextValidation.validChainRange,
        ContextValidation.validChainCount, ContextValidation.validChainHashes,
        validPositiveSequence, fixedDigest, Bounds.digestBytes_eq, Bool.and_eq_true,
        Bool.or_eq_true, decide_eq_true_eq, FixedBytes.equal_iff]
      exact ⟨⟨⟨identifier, ⟨⟨positive, magnitude⟩, by omega, by omega⟩, by omega⟩,
        ⟨by omega, by omega⟩, range⟩, ⟨previous, lastSize⟩, or_iff_not_imp_left.mpr fun one =>
        genesis (not_not.mp one)⟩

/-- The range of 64-bit numbers is the range of the numbers. -/
theorem validRange_iff {expected : ExpectedChain} : validRange expected b = true ↔
    1 ≤ expected.firstSequence.toInt ∧ expected.firstSequence.toInt ≤ expected.lastSequence.toInt ∧
      1 ≤ expected.rowCount.toInt ∧ expected.rowCount.toInt ≤ b .chainRows ∧
      expected.rowCount.toInt = expected.lastSequence.toInt - expected.firstSequence.toInt + 1 := by
  have rows := b.tightens .chainRows
  have most : BoundKey.maximum .chainRows < 2 ^ 63 := by decide
  have ceiling : (Int64.ofNat (b .chainRows)).toInt = b .chainRows :=
    Int64.toInt_ofNat_of_lt (by omega)
  have one : (1 : Int64).toInt = 1 := rfl
  have bound := expected.lastSequence.toInt_lt
  simp only [validRange, Bool.and_eq_true, Bool.not_eq_true', Bool.or_eq_false_iff,
    decide_eq_false_iff_not, beq_iff_eq, gt_iff_lt, Int64.lt_iff_toInt_lt, ceiling, one,
    ← Int64.toInt_inj, Int64.toInt_add, Int64.toInt_sub]
  constructor
  · rintro ⟨⟨⟨⟨first, last⟩, count⟩, most⟩, range⟩
    rw [Int.bmod_eq_of_le (n := expected.lastSequence.toInt - _) (by omega) (by omega),
      Int.bmod_eq_of_le (by omega) (by omega)] at range
    omega
  · rintro ⟨first, last, count, most, range⟩
    refine ⟨⟨⟨⟨by omega, by omega⟩, by omega⟩, by omega⟩, ?_⟩
    rw [Int.bmod_eq_of_le (n := expected.lastSequence.toInt - _) (by omega) (by omega),
      Int.bmod_eq_of_le (by omega) (by omega)]
    exact range.symm

/-- A context of the Go verifier, as the reference takes it. -/
def ExpectedChain.reference (expected : ExpectedChain) : V1.ExpectedChain where
  chainId := expected.chainID
  firstSequence := expected.firstSequence.toInt
  lastSequence := expected.lastSequence.toInt
  rowCount := expected.rowCount.toInt
  previousHash := (canonicalDigestString expected.previousHash).getD []
  lastHash := (canonicalDigestString expected.lastHash).getD []
  bounds := toLimits expected.bounds

/-- What the Go verifier found, as the reference says it behind a row. -/
def ChainFacts.reference (found : ChainFacts) (previousHash : Bytes) : V1.ChainFacts where
  version := 1
  chainId := found.chainID
  firstSequence := found.firstSequence.toInt
  lastSequence := found.lastSequence.toInt
  rowCount := found.rowCount.toInt
  previousHash := previousHash
  lastHash := found.lastHash
  verification := .boundaryConsistent
  trust := found.trust

/-- The facts of an accepted chain are those of its context. -/
def factsOf (expected : ExpectedChain) : ChainFacts where
  chainID := expected.chainID
  firstSequence := expected.firstSequence
  lastSequence := expected.lastSequence
  rowCount := expected.rowCount
  lastHash := (canonicalDigestString expected.lastHash).getD []
  checks := chainChecks
  trust := .notEvaluated

theorem eq_some_of_length_getD {digest : Option Bytes} (size : (digest.getD []).length = 32) :
    digest = some (digest.getD []) := by
  cases digest with
  | none => exact absurd size (by decide)
  | some _ => rfl

theorem length_toInt_iff {rows : List Bytes} {count : Int64} (fits : rows.length ≤ b .chainRows) :
    Int64.ofNat rows.length = count ↔ (rows.length : Int) = count.toInt := by
  have rows := b.tightens .chainRows
  have most : BoundKey.maximum .chainRows < 2 ^ 63 := by decide
  rw [← Int64.toInt_inj, Int64.toInt_ofNat_of_lt (by omega)]

/-- The Go verifier accepts what the reference accepts, where digests fit. -/
theorem checkChain_eq_some (sound : numerals.Sound) {expected : ExpectedChain} {rows : List Bytes}
    {found : ChainFacts} (resolved : resolveBounds expected.bounds = some b)
    (agree : AgreeOn otp b expected.chainID) (fits : DigestsFit b) :
    checkChain otp.sha256 numerals rows expected = some found ↔
      ConsumptionChain.Accepts otp b rows expected.reference ∧ found = factsOf expected := by
  simp only [checkChain, resolved, Option.bind_eq_bind, Option.bind_some, Option.bind_eq_some_iff,
    guard_eq_some, exists_const, Option.some.injEq, validRange_iff, accepts_iff_run, gt_iff_lt,
    not_or, Nat.not_lt, List.length_eq_zero_iff, ExpectedChain.reference, factsOf]
  constructor
  · rintro ⟨-, ⟨first, last, -, -, range⟩, prev, prevText, head, headText, ⟨some_, most⟩, count, _,
      run, rfl, rfl⟩
    rw [length_toInt_iff most] at count
    have bound := expected.lastSequence.toInt_lt
    rw [checkRows_first sound agree fits first some_ (by omega)] at run
    rw [prevText, headText]
    exact ⟨⟨some_, most, count, range, run⟩, rfl⟩
  · rintro ⟨⟨some_, most, count, range, run⟩, rfl⟩
    obtain ⟨place, lastSize⟩ := run_last some_ run
    have start : validIdentifier otp expected.chainID b = true ∧ 0 < expected.firstSequence.toInt ∧
        ((canonicalDigestString expected.previousHash).getD []).length = 32 := by
      cases rows with
      | nil => exact absurd rfl some_
      | cons raw rest =>
        obtain ⟨hash, step, -⟩ := Linked.run_cons_eq_some.mp run
        obtain ⟨identifier, positive, -, previous, -⟩ := rowStep_valid step
        exact ⟨identifier, positive, previous⟩
    obtain ⟨identifier, positive, prevSize⟩ := start
    have nonempty := List.length_pos_iff.mpr some_
    have utf8 : Utf8.valid expected.chainID = true := by
      simp only [validIdentifier, Bool.and_eq_true] at identifier
      exact identifier.1.2
    have bound := expected.lastSequence.toInt_lt
    refine ⟨(agree utf8).trans identifier, by omega, _, eq_some_of_length_getD prevSize, _,
      eq_some_of_length_getD lastSize, ⟨some_, most⟩, (length_toInt_iff most).mpr count, _, ?_, rfl,
      rfl⟩
    exact (checkRows_first sound agree fits positive some_ (by omega)).mpr run

/-- **One chain on both sides.**  The reference accepts the rows of a chain exactly when
its bounds leave room for digests and the Go verifier accepts them, and the facts say the
same. -/
theorem check_iff_checkChain (sound : numerals.Sound) {expected : ExpectedChain} {rows : List Bytes}
    {facts : V1.ChainFacts}
    (agree : ∀ b, resolveBounds expected.bounds = some b → AgreeOn otp b expected.chainID) :
    ConsumptionChain.check otp ⟨rows⟩ expected.reference = some facts ↔
      (∃ b, resolveBounds expected.bounds = some b ∧ DigestsFit b) ∧
        ∃ found, checkChain otp.sha256 numerals rows expected = some found ∧
          facts = found.reference expected.reference.previousHash := by
  have coerce : Bounds.coerce expected.reference.bounds = resolveBounds expected.bounds :=
    (resolveBounds_eq expected.bounds).symm
  rw [ConsumptionChain.check_eq_some, coerce]
  constructor
  · rintro ⟨b, resolved, accepts, rfl⟩
    have fits : DigestsFit b := by
      obtain ⟨some_, -, -, -, run⟩ := accepts_iff_run.mp accepts
      cases rows with
      | nil => exact absurd rfl some_
      | cons raw rest =>
        obtain ⟨hash, step, -⟩ := Linked.run_cons_eq_some.mp run
        have positive := (rowStep_valid step).2.1
        exact ((rowStep_iff sound (agree b resolved) positive).mp step).1
    exact ⟨⟨b, resolved, fits⟩, _, (checkChain_eq_some sound resolved (agree b resolved) fits).mpr
      ⟨accepts, rfl⟩, rfl⟩
  · rintro ⟨⟨b, resolved, fits⟩, found, checked, rfl⟩
    obtain ⟨accepts, rfl⟩ :=
      (checkChain_eq_some sound resolved (agree b resolved) fits).mp checked
    exact ⟨b, resolved, accepts, rfl⟩

/-- A chain of two rows, as the producer builds it. -/
theorem check_iff_checkChain_two :
    let otp := Otp.listed []
    let built := (ConsumptionChain.produce otp [] (ascii "c") 1 zeroHash [zeroHash, zeroHash]).getD
      ([], [])
    let expected : ExpectedChain :=
      ⟨ascii "c", 1, 2, Base64.encode zeroHash, Base64.encode built.2, 2, none⟩
    ConsumptionChain.check otp ⟨built.1⟩ expected.reference =
        some (ConsumptionChain.factsOf expected.reference) ∧
      ∃ found, checkChain otp.sha256 .limited built.1 expected = some found ∧
        ConsumptionChain.factsOf expected.reference = found.reference zeroHash := by
  intro otp built expected
  have accepted : ConsumptionChain.check otp ⟨built.1⟩ expected.reference =
      some (ConsumptionChain.factsOf expected.reference) := by decide +kernel
  have previous : expected.reference.previousHash = zeroHash := by decide
  have agree : ∀ b, resolveBounds expected.bounds = some b → AgreeOn otp b expected.chainID :=
    fun b _ => agreeOn_plain otp b (by decide)
  refine ⟨accepted, ?_⟩
  rw [← previous]
  exact ((check_iff_checkChain Numerals.sound_limited agree).mp accepted).2

theorem digestsFit_maximum : DigestsFit Bounds.maximum := ⟨by decide, by decide⟩

/-- **One verdict at the maxima.**  Both sides accept the same chains where no limit is
tightened. -/
theorem checkChain_maximum_iff (sound : numerals.Sound) {expected : ExpectedChain}
    {rows : List Bytes} (maxima : resolveBounds expected.bounds = some .maximum)
    (agree : AgreeOn otp .maximum expected.chainID) :
    (checkChain otp.sha256 numerals rows expected).isSome = true ↔
      (ConsumptionChain.check otp ⟨rows⟩ expected.reference).isSome = true := by
  have coerce : Bounds.coerce expected.reference.bounds = some .maximum :=
    (resolveBounds_eq expected.bounds).symm.trans maxima
  simp only [Option.isSome_iff_exists, ConsumptionChain.check_eq_some, coerce,
    checkChain_eq_some sound maxima agree digestsFit_maximum, Option.some.injEq, exists_eq_left']
  constructor
  · rintro ⟨_, accepts, -⟩
    exact ⟨_, accepts, rfl⟩
  · rintro ⟨_, accepts, -⟩
    exact ⟨_, accepts, rfl⟩

/-- A chain of two rows is accepted on both sides, and without its first row on neither. -/
theorem checkChain_maximum_iff_two :
    let otp := Otp.listed []
    let built := (ConsumptionChain.produce otp [] (ascii "c") 1 zeroHash [zeroHash, zeroHash]).getD
      ([], [])
    let expected : ExpectedChain :=
      ⟨ascii "c", 1, 2, Base64.encode zeroHash, Base64.encode built.2, 2, none⟩
    (checkChain otp.sha256 .limited built.1 expected).isSome = true ∧
      ¬(checkChain otp.sha256 .limited built.1.tail expected).isSome = true := by
  intro otp built expected
  have accepted : (ConsumptionChain.check otp ⟨built.1⟩ expected.reference).isSome = true := by
    decide +kernel
  have refused : ¬(ConsumptionChain.check otp ⟨built.1.tail⟩ expected.reference).isSome = true := by
    decide +kernel
  have agree : AgreeOn otp .maximum expected.chainID :=
    agreeOn_plain otp .maximum (by decide)
  exact ⟨(checkChain_maximum_iff Numerals.sound_limited rfl agree).mpr accepted,
    fun taken => refused ((checkChain_maximum_iff Numerals.sound_limited rfl agree).mp taken)⟩

end BoundedAuthority.Go
