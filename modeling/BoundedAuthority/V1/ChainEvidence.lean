import BoundedAuthority.V1.ConsumptionChain
import BoundedAuthority.V1.Platform

/-!
# What an accepted chain fixes

A row is accepted when it is what the producer writes for the entry it names
(`parseRow_spec`), and the verifier's recursion is a linked list whose links are
the hashes (`checkRows_eq_some`).  A hash is over the bytes of a row, and the row
names the hash before it.  So the hash at the end fixes every row, as long as no
two rows collide.
-/

namespace BoundedAuthority.V1.ConsumptionChain

open Wire JsonValue

variable {otp : Otp} {bounds : Bounds}

/-! ## Rows -/

/-- What the producer writes. -/
theorem encode_eq_some {entry : ConsumptionEntry} {encoded : EncodedConsumptionEntry} :
    encode otp entry bounds = some encoded ↔ validateEntry otp entry bounds = true ∧
      Jcs.encode (rowJson entry) bounds = some encoded.bytes ∧
      encoded.bytes.length ≤ bounds .chainRowBytes ∧
      encoded.hash = otp.sha256 (domain ++ encoded.bytes) := by
  simp only [encode, Bounds.coerce_toLimits, Option.bind_eq_bind, Option.bind_some,
    Option.bind_eq_some_iff, guard_eq_some, exists_const, Option.some.injEq]
  constructor
  · rintro ⟨valid, bytes, written, size, rfl⟩
    exact ⟨valid, written, size, rfl⟩
  · rintro ⟨valid, written, size, hash⟩
    exact ⟨valid, _, written, size, by rw [← hash]⟩

/-- An accepted row is the row of the entry it names. -/
theorem parseRow_spec {row : Bytes} {entry : ConsumptionEntry} {encoded : EncodedConsumptionEntry}
    (h : parseRow otp row bounds = some (entry, encoded)) :
    encode otp entry bounds = some encoded ∧ encoded.bytes = row := by
  simp only [parseRow, Option.bind_eq_bind, Option.bind_eq_some_iff, guard_eq_some,
    exists_const] at h
  obtain ⟨-, value, -, h⟩ := h
  split at h
  next members =>
    simp only [Option.bind_eq_some_iff, guard_eq_some, exists_const, Option.some.injEq,
      Prod.mk.injEq] at h
    obtain ⟨_, -, -, _, -, _, -, _, -, _, -, _, -, _, -, _, written, same, rfl, rfl⟩ := h
    exact ⟨written, same⟩
  next => cases h

theorem length_hash {entry : ConsumptionEntry} {encoded : EncodedConsumptionEntry}
    (h : encode otp entry bounds = some encoded) : encoded.hash.length = 32 := by
  rw [(encode_eq_some.mp h).2.2.2, otp.length_sha256]

/-! ## Lists of rows -/

/-- The body of `check_rows/5`: a row under its place and the hash before it, and its own
hash. -/
def rowStep (otp : Otp) (bounds : Bounds) (chainId : Bytes) (sequence : Int) (priorHash : Bytes)
    (row : Bytes) : Option Bytes := do
  let (entry, encoded) ← parseRow otp row bounds
  guard (entry.chainId = chainId)
  guard (entry.sequence = sequence)
  guard (FixedBytes.equal entry.previousHash priorHash)
  some encoded.hash

theorem rowStep_eq_some {chainId prior row hash : Bytes} {sequence : Int} :
    rowStep otp bounds chainId sequence prior row = some hash ↔ ∃ commitment encoded,
      parseRow otp row bounds = some (⟨chainId, sequence, prior, commitment⟩, encoded) ∧
        hash = encoded.hash := by
  simp only [rowStep, Option.bind_eq_bind, Option.bind_eq_some_iff, guard_eq_some, exists_const,
    Option.some.injEq, Prod.exists, FixedBytes.equal_iff]
  constructor
  · rintro ⟨⟨_, _, _, commitment⟩, encoded, parsed, rfl, rfl, rfl, rfl⟩
    exact ⟨commitment, encoded, parsed, rfl⟩
  · rintro ⟨commitment, encoded, parsed, rfl⟩
    exact ⟨_, encoded, parsed, rfl, rfl, rfl, rfl⟩

/-- The verifier's recursion is a run over the rows that ends in its place. -/
theorem checkRows_eq_some {expected : ExpectedChain} {last : Bytes} : ∀ {rows : List Bytes}
    {sequence : Int} {prior : Bytes}, checkRows otp bounds expected rows sequence prior =
      some last ↔
      Linked.run (rowStep otp bounds expected.chainId) sequence prior rows = some last ∧
        sequence + rows.length = expected.lastSequence + 1
  | [], sequence, prior => by
      simp only [checkRows, Option.bind_eq_bind, guard_bind_eq_some, Linked.run_nil,
        List.length_nil, Nat.cast_zero, Int.add_zero]
      exact and_comm
  | row :: rows, sequence, prior => by
      have place : sequence + 1 + (rows.length : Int) = sequence + (row :: rows).length := by
        simp only [List.length_cons]
        omega
      simp only [checkRows, Linked.run_cons_eq_some, rowStep, Option.bind_eq_bind,
        Option.bind_eq_some_iff, guard_eq_some, exists_const, Option.some.injEq, Prod.exists,
        checkRows_eq_some, place]
      constructor
      · rintro ⟨entry, encoded, parsed, chain, order, previous, run, place⟩
        exact ⟨⟨_, ⟨entry, encoded, parsed, chain, order, previous, rfl⟩, run⟩, place⟩
      · rintro ⟨⟨_, ⟨entry, encoded, parsed, chain, order, previous, rfl⟩, run⟩, place⟩
        exact ⟨entry, encoded, parsed, chain, order, previous, run, place⟩

theorem validateRows_eq_some : ∀ {rows : List Bytes} {count n : Nat},
    validateRows bounds rows count = some n ↔
      (∀ row ∈ rows, 0 < row.length ∧ row.length ≤ bounds .chainRowBytes) ∧
        n = count + rows.length ∧ 0 < n ∧ (rows = [] ∨ n ≤ bounds .chainRows)
  | [], 0, n => by simp [validateRows]
  | [], count + 1, n => by simp [validateRows]; omega
  | row :: rows, count, n => by
      rw [validateRows]
      split
      next fits =>
        rw [validateRows_eq_some, List.forall_mem_cons, List.length_cons]
        constructor
        · rintro ⟨sizes, rfl, positive, total⟩
          refine ⟨⟨⟨fits.1, fits.2.1⟩, sizes⟩, by omega, positive, .inr ?_⟩
          rcases total with rfl | total
          · have := fits.2.2
            simp only [List.length_nil] at *
            omega
          · exact total
        · rintro ⟨⟨-, sizes⟩, rfl, positive, total⟩
          exact ⟨sizes, by omega, positive, .inr (total.resolve_left (by simp))⟩
      next tooMany =>
        constructor
        · intro h
          cases h
        · rintro ⟨sizes, rfl, -, total⟩
          obtain ⟨positive, size⟩ := sizes row List.mem_cons_self
          have := total.resolve_left (by simp)
          rw [List.length_cons] at this
          exact absurd ⟨positive, size, by omega⟩ tooMany

/-! ## Chains -/

/-- What the verifier accepts. -/
structure Accepts (otp : Otp) (bounds : Bounds) (rows : List Bytes) (expected : ExpectedChain) :
    Prop where
  context : ContextValidation.expectedChain otp expected bounds = true
  count : (rows.length : Int) = expected.rowCount
  run : Linked.run (rowStep otp bounds expected.chainId) expected.firstSequence
    expected.previousHash rows = some expected.lastHash

theorem expectedChain_count {expected : ExpectedChain}
    (h : ContextValidation.expectedChain otp expected bounds = true) :
    0 < expected.rowCount ∧ expected.rowCount ≤ bounds .chainRows ∧
      expected.rowCount = expected.lastSequence - expected.firstSequence + 1 := by
  simp only [ContextValidation.expectedChain, ContextValidation.validChainCount, Bool.and_eq_true,
    decide_eq_true_eq] at h
  exact ⟨h.1.2.1.1, h.1.2.1.2, h.1.2.2⟩

/-- Rows a run accepts have the size of a row. -/
theorem rows_sized {chainId : Bytes} : ∀ {rows : List Bytes} {sequence : Int} {prior last : Bytes},
    Linked.run (rowStep otp bounds chainId) sequence prior rows = some last →
      ∀ row ∈ rows, 0 < row.length ∧ row.length ≤ bounds .chainRowBytes
  | [], _, _, _, _ => by simp
  | row :: rows, sequence, prior, last, h => by
      obtain ⟨hash, step, rest⟩ := Linked.run_cons_eq_some.mp h
      obtain ⟨commitment, encoded, parsed, -⟩ := rowStep_eq_some.mp step
      rw [List.forall_mem_cons]
      refine ⟨?_, rows_sized rest⟩
      simp only [parseRow, Option.bind_eq_bind, guard_bind_eq_some] at parsed
      exact parsed.1

/-- The facts of an accepted chain are those of its context. -/
def factsOf (expected : ExpectedChain) : ChainFacts where
  version := 1
  chainId := expected.chainId
  firstSequence := expected.firstSequence
  lastSequence := expected.lastSequence
  rowCount := expected.rowCount
  previousHash := expected.previousHash
  lastHash := expected.lastHash
  verification := .boundaryConsistent
  trust := .notEvaluated

theorem check_eq_some {rows : List Bytes} {expected : ExpectedChain} {facts : ChainFacts} :
    check otp ⟨rows⟩ expected = some facts ↔ ∃ bounds, Bounds.coerce expected.bounds = some bounds ∧
      Accepts otp bounds rows expected ∧ facts = factsOf expected := by
  simp only [check, Option.bind_eq_bind, Option.bind_eq_some_iff, guard_eq_some, exists_const,
    Option.some.injEq, FixedBytes.equal_iff, validateRows_eq_some, checkRows_eq_some, Nat.zero_add]
  constructor
  · rintro ⟨bounds, coerced, context, _, ⟨-, rfl, -, -⟩, count, _, ⟨run, -⟩, rfl, rfl⟩
    exact ⟨bounds, coerced, ⟨context, count, run⟩, rfl⟩
  · rintro ⟨bounds, coerced, ⟨context, count, run⟩, rfl⟩
    obtain ⟨positive, fits, range⟩ := expectedChain_count context
    exact ⟨bounds, coerced, context, _, ⟨rows_sized run, rfl, by omega, .inr (by omega)⟩, count, _,
      ⟨run, by omega⟩, rfl, rfl⟩

/-- A hash fixes the row it is of and the hash the row names. -/
theorem rowStep_determines {chainId : Bytes} {sequence : Int} {prior prior' row row' hash : Bytes}
    (h : rowStep otp bounds chainId sequence prior row = some hash)
    (h' : rowStep otp bounds chainId sequence prior' row' = some hash) :
    row = row' ∧ prior = prior' ∨ otp.Collide (domain ++ row) (domain ++ row') := by
  obtain ⟨commitment, encoded, parsed, rfl⟩ := rowStep_eq_some.mp h
  obtain ⟨commitment', encoded', parsed', same⟩ := rowStep_eq_some.mp h'
  obtain ⟨written, rfl⟩ := parseRow_spec parsed
  obtain ⟨written', rfl⟩ := parseRow_spec parsed'
  have digest : otp.sha256 (domain ++ encoded.bytes) = otp.sha256 (domain ++ encoded'.bytes) := by
    rw [← (encode_eq_some.mp written).2.2.2, ← (encode_eq_some.mp written').2.2.2, same]
  rcases otp.eq_or_collide digest with equal | collide
  · have bytes : encoded.bytes = encoded'.bytes := List.append_cancel_left equal
    rw [bytes, parsed', Option.some.injEq, Prod.mk.injEq] at parsed
    exact .inl ⟨bytes, by injection parsed.1 with _ _ previous _; exact previous.symm⟩
  · exact .inr collide

/-- **Tamper evidence.**  Two row lists accepted under one context are the same, or two
of their rows collide under the domain tag. -/
theorem accepted_rows_unique {expected : ExpectedChain} {rows rows' : List Bytes}
    {facts facts' : ChainFacts} (h : check otp ⟨rows⟩ expected = some facts)
    (h' : check otp ⟨rows'⟩ expected = some facts') :
    rows = rows' ∨
      ∃ row ∈ rows, ∃ row' ∈ rows', otp.Collide (domain ++ row) (domain ++ row') := by
  obtain ⟨bounds, coerced, accepts, -⟩ := check_eq_some.mp h
  obtain ⟨bounds', coerced', accepts', -⟩ := check_eq_some.mp h'
  obtain rfl : bounds = bounds' := Option.some.inj (coerced.symm.trans coerced')
  have length : rows.length = rows'.length := by
    have := accepts.count
    have := accepts'.count
    omega
  rcases Linked.run_determines length accepts.run accepts'.run rowStep_determines
    with same | collide
  · exact .inl same.1
  · exact .inr collide

/-- Two rows under SHA-256; and, under a hash that is constant, two chains of two rows,
which collide. -/
theorem accepted_rows_unique_two :
    let otp := Otp.listed []
    let constant : Otp := { otp with
      sha256 := fun _ => zeroHash
      length_sha256 := fun _ => rfl }
    let row (sequence : Int) (previous : Bytes) (fill : UInt8) : Bytes :=
      ((encode otp ⟨ascii "c", sequence, previous, List.replicate 32 fill⟩ []).map
        EncodedConsumptionEntry.bytes).getD []
    let expected (lastHash : Bytes) : ExpectedChain :=
      ⟨ascii "c", 1, 2, 2, zeroHash, lastHash, []⟩
    let first := row 1 zeroHash 0
    let second := row 2 (otp.sha256 (domain ++ first)) 1
    (check otp ⟨[first, second]⟩ (expected (otp.sha256 (domain ++ second)))).isSome = true ∧
      ([first, second] = [first, second] ∨
        ∃ a ∈ [first, second], ∃ b ∈ [first, second], otp.Collide (domain ++ a) (domain ++ b)) ∧
      [row 1 zeroHash 0, row 2 zeroHash 1] ≠ [row 1 zeroHash 1, row 2 zeroHash 0] ∧
      ∃ a ∈ [row 1 zeroHash 0, row 2 zeroHash 1], ∃ b ∈ [row 1 zeroHash 1, row 2 zeroHash 0],
        constant.Collide (domain ++ a) (domain ++ b) := by
  intro otp constant row expected first second
  have accepted : check otp ⟨[first, second]⟩ (expected (otp.sha256 (domain ++ second))) =
      some (factsOf (expected (otp.sha256 (domain ++ second)))) := by decide +kernel
  have left : check constant ⟨[row 1 zeroHash 0, row 2 zeroHash 1]⟩ (expected zeroHash) =
      some (factsOf (expected zeroHash)) := by decide +kernel
  have right : check constant ⟨[row 1 zeroHash 1, row 2 zeroHash 0]⟩ (expected zeroHash) =
      some (factsOf (expected zeroHash)) := by decide +kernel
  have apart : [row 1 zeroHash 0, row 2 zeroHash 1] ≠ [row 1 zeroHash 1, row 2 zeroHash 0] := by
    decide +kernel
  exact ⟨by rw [accepted]; rfl, accepted_rows_unique accepted accepted, apart,
    (accepted_rows_unique left right).resolve_left apart⟩

example :
    (check (Otp.listed []) ⟨[]⟩ ⟨ascii "c", 1, 1, 1, zeroHash, zeroHash, []⟩).isSome = false := by
  decide +kernel

end BoundedAuthority.V1.ConsumptionChain
