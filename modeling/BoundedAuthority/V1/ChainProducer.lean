import BoundedAuthority.V1.ChainEvidence

/-!
# The verifier accepts what the producer builds

Under the maximal bounds the decoder reads every row the producer writes
(`parseRow_maximum`).  So a row is accepted in its place exactly when the producer
writes it for some commitment, and the verifier's recursion is the producer's.
-/

namespace BoundedAuthority.V1.ConsumptionChain

open Wire JsonValue

variable {otp : Otp}

/-- The rows of a producer that chains one entry for each commitment, and the hash it
ends with. -/
def produce (otp : Otp) (limits : Limits) (chainId : Bytes) :
    (sequence : Int) → (previousHash : Bytes) → (commitments : List Bytes) →
      Option (List Bytes × Bytes)
  | _, previousHash, [] => some ([], previousHash)
  | sequence, previousHash, commitment :: rest => do
      let encoded ← encode otp ⟨chainId, sequence, previousHash, commitment⟩ limits
      let (rows, lastHash) ← produce otp limits chainId (sequence + 1) encoded.hash rest
      some (encoded.bytes :: rows, lastHash)

/-! ## Rows under the maximal bounds -/

theorem ordered_rowMembers (entry : ConsumptionEntry) : ClosedMap.Ordered (rowMembers entry) where
  plain := by simp [rowMembers, ClosedMap.Plain]
  sorted := by
    have keys : rowKeys.Pairwise fun a b => Utf16.le (Utf16.units a) (Utf16.units b) = true := by
      decide +kernel
    exact keys

/-- A digest of the right size passes the base64url bounds. -/
theorem decode_digest {digest : Bytes} (h : fixedDigest digest .maximum = true) :
    Base64Url.decode (Base64.encode digest) Bounds.maximum = some digest := by
  have size : digest.length = 32 := of_decide_eq_true h
  refine Base64Url.decode_eq_some.mpr ⟨rfl, ?_, ?_⟩
  · rw [Base64.length_encode, size]
    decide
  · rw [size]
    decide

/-- Under the maximal bounds the rows the producer writes are the ones accepted. -/
theorem parseRow_maximum {row : Bytes} {entry : ConsumptionEntry}
    {encoded : EncodedConsumptionEntry} : parseRow otp row .maximum = some (entry, encoded) ↔
      encode otp entry Bounds.maximum = some encoded ∧ encoded.bytes = row := by
  refine ⟨parseRow_spec, ?_⟩
  rintro ⟨written, rfl⟩
  obtain ⟨valid, canonical, size, -⟩ := encode_eq_some.mp written
  have read := ClosedMap.decode_encode (ordered_rowMembers entry) canonical
  have positive : 0 < encoded.bytes.length := by
    obtain ⟨-, -, bytes⟩ := Jcs.encode_eq_some.mp canonical
    rw [bytes, rowJson, Jcs.canon_object, List.length_cons]
    exact Nat.succ_pos _
  simp only [validateEntry, Bool.and_eq_true] at valid
  have previous := decode_digest valid.1.1.2
  have commitment := decode_digest valid.1.2
  have closed : ClosedMap.closedMap (rowMembers entry) rowKeys = some (rowMembers entry).reverse :=
    ClosedMap.closedMap_of_keys rfl
  have version : ClosedMap.integer (rowMembers entry).reverse (ascii "v") = some 1 := rfl
  have chainId : ClosedMap.string (rowMembers entry).reverse (ascii "chain_id") =
      some entry.chainId := rfl
  have sequence : ClosedMap.integer (rowMembers entry).reverse (ascii "sequence") =
      some entry.sequence := rfl
  have previousText : ClosedMap.string (rowMembers entry).reverse (ascii "previous") =
      some (Base64.encode entry.previousHash) := rfl
  have commitmentText : ClosedMap.string (rowMembers entry).reverse (ascii "commitment") =
      some (Base64.encode entry.commitment) := rfl
  simp only [parseRow, positive, size, and_self, read, closed, version, chainId, sequence,
    previousText, commitmentText, previous, commitment, written, Option.bind_eq_bind, guard_true,
    Option.pure_def, Option.bind_some]

theorem rowStep_maximum {chainId prior row hash : Bytes} {sequence : Int} :
    rowStep otp .maximum chainId sequence prior row = some hash ↔ ∃ commitment encoded,
      encode otp ⟨chainId, sequence, prior, commitment⟩ Bounds.maximum = some encoded ∧
        encoded.bytes = row ∧ hash = encoded.hash := by
  simp only [rowStep_eq_some, parseRow_maximum, and_assoc]

/-! ## Chains under the maximal bounds -/

theorem produce_cons_eq_some {limits : Limits} {chainId previous last commitment : Bytes}
    {sequence : Int} {commitments rows : List Bytes} :
    produce otp limits chainId sequence previous (commitment :: commitments) = some (rows, last) ↔
      ∃ encoded rest, encode otp ⟨chainId, sequence, previous, commitment⟩ limits = some encoded ∧
        produce otp limits chainId (sequence + 1) encoded.hash commitments = some (rest, last) ∧
          rows = encoded.bytes :: rest := by
  simp only [produce, Option.bind_eq_bind, Option.bind_eq_some_iff, Prod.exists, Option.some.injEq,
    Prod.mk.injEq]
  constructor
  · rintro ⟨encoded, written, rest, _, produced, rfl, rfl⟩
    exact ⟨encoded, rest, written, produced, rfl⟩
  · rintro ⟨encoded, rest, written, produced, rfl⟩
    exact ⟨encoded, written, rest, _, produced, rfl, rfl⟩

/-- One row for each commitment. -/
theorem length_produce {limits : Limits} {chainId : Bytes} : ∀ {commitments rows : List Bytes}
    {sequence : Int} {previous last : Bytes},
    produce otp limits chainId sequence previous commitments = some (rows, last) →
      commitments.length = rows.length
  | [], rows, _, _, _, h => by
      obtain ⟨rfl, -⟩ := Prod.mk.inj (Option.some.inj h)
      rfl
  | commitment :: commitments, rows, _, _, _, h => by
      obtain ⟨encoded, rest, -, produced, rfl⟩ := produce_cons_eq_some.mp h
      exact congrArg (· + 1) (length_produce produced)

/-- The verifier's run is the producer's, row by row. -/
theorem run_iff_produce {chainId : Bytes} : ∀ (rows : List Bytes) {sequence : Int}
    {prior last : Bytes},
    Linked.run (rowStep otp .maximum chainId) sequence prior rows = some last ↔
      ∃ commitments : List Bytes, commitments.length = rows.length ∧
        produce otp Bounds.maximum chainId sequence prior commitments = some (rows, last)
  | [], sequence, prior, last => by
      simp only [Linked.run_nil, List.length_nil, List.length_eq_zero_iff, exists_eq_left, produce,
        Option.some.injEq, Prod.mk.injEq, true_and]
  | row :: rows, sequence, prior, last => by
      simp only [Linked.run_cons_eq_some, rowStep_maximum, run_iff_produce rows]
      constructor
      · rintro ⟨_, ⟨commitment, encoded, written, rfl, rfl⟩, commitments, length, produced⟩
        exact ⟨commitment :: commitments, congrArg (· + 1) length,
          produce_cons_eq_some.mpr ⟨encoded, rows, written, produced, rfl⟩⟩
      · rintro ⟨commitments, length, produced⟩
        cases commitments with
        | nil => cases length
        | cons commitment commitments =>
            obtain ⟨encoded, rest, written, produced, same⟩ := produce_cons_eq_some.mp produced
            obtain ⟨rfl, rfl⟩ := List.cons.inj same
            exact ⟨encoded.hash, ⟨commitment, encoded, written, rfl, rfl⟩, commitments,
              Nat.succ.inj length, produced⟩

/-- Limits that coerce to the same bounds give the same rows. -/
theorem encode_coerced {limits : Limits} (coerced : Bounds.coerce limits = some .maximum)
    (entry : ConsumptionEntry) : encode otp entry limits = encode otp entry Bounds.maximum := by
  simp only [encode, coerced, Bounds.coerce_toLimits]

theorem produce_coerced {limits : Limits} (coerced : Bounds.coerce limits = some .maximum)
    (chainId : Bytes) : ∀ (commitments : List Bytes) (sequence : Int) (previous : Bytes),
    produce otp limits chainId sequence previous commitments =
      produce otp Bounds.maximum chainId sequence previous commitments
  | [], _, _ => rfl
  | commitment :: commitments, sequence, previous => by
      simp only [produce, encode_coerced coerced, produce_coerced coerced chainId commitments]

/-- **Verifier and producer agree.**  Under the maximal bounds a row list is accepted for
a valid context exactly when the producer builds it, from as many commitments as the
context counts, and ends with the hash of the context. -/
theorem accepted_iff_produced {expected : ExpectedChain}
    (maximal : Bounds.coerce expected.bounds = some .maximum)
    (context : ContextValidation.expectedChain otp expected .maximum = true) (rows : List Bytes) :
    (check otp ⟨rows⟩ expected).isSome = true ↔ ∃ commitments : List Bytes,
      (commitments.length : Int) = expected.rowCount ∧
        produce otp expected.bounds expected.chainId expected.firstSequence expected.previousHash
          commitments = some (rows, expected.lastHash) := by
  simp only [Option.isSome_iff_exists, check_eq_some, maximal, Option.some.injEq, exists_eq_left',
    produce_coerced maximal]
  constructor
  · rintro ⟨_, accepts, -⟩
    obtain ⟨commitments, length, produced⟩ := (run_iff_produce _).mp accepts.run
    exact ⟨commitments, by rw [length]; exact accepts.count, produced⟩
  · rintro ⟨commitments, count, produced⟩
    have length : commitments.length = rows.length := length_produce produced
    exact ⟨_, ⟨context, by rw [← length]; exact count,
      (run_iff_produce _).mpr ⟨commitments, length, produced⟩⟩, rfl⟩

/-- A chain of two rows is accepted, as the producer builds it. -/
theorem accepted_iff_produced_two :
    let otp := Otp.listed []
    let built := (produce otp [] (ascii "c") 1 zeroHash [zeroHash, zeroHash]).getD ([], [])
    let expected : ExpectedChain := ⟨ascii "c", 1, 2, 2, zeroHash, built.2, []⟩
    (check otp ⟨built.1⟩ expected).isSome = true ∧
      ((check otp ⟨built.1⟩ expected).isSome = true ↔ ∃ commitments : List Bytes,
        (commitments.length : Int) = expected.rowCount ∧
          produce otp expected.bounds expected.chainId expected.firstSequence expected.previousHash
            commitments = some (built.1, expected.lastHash)) := by
  intro otp built expected
  have context : ContextValidation.expectedChain otp expected .maximum = true := by decide +kernel
  have accepted : (check otp ⟨built.1⟩ expected).isSome = true := by decide +kernel
  exact ⟨accepted, @accepted_iff_produced otp expected Bounds.coerce_nil context built.1⟩

example : (produce (Otp.listed []) [] (ascii "c") 1 zeroHash [[]]).isSome = false := by
  decide +kernel

end BoundedAuthority.V1.ConsumptionChain
