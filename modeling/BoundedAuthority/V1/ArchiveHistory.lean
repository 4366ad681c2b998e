import BoundedAuthority.V1.ArchiveRoundTrip
import BoundedAuthority.V1.Tightening

/-!
# Histories of archives

A chain outlives every archive of it.  An archive that is verified holds the rows between
two anchors, and archives that continue one another hold the rows of one chain, as the
producer writes them (`history_produced`).  However a chain is cut into archives, its last
hash fixes the rows in all of them (`histories_agree`).
-/

namespace BoundedAuthority.V1

open Wire JsonValue

/-! ## Rows under any bounds -/

namespace ConsumptionChain

variable {otp : Otp} {bounds : Bounds}

theorem validPositiveSequence_maximum {value : Int}
    (h : validPositiveSequence value bounds = true) :
      validPositiveSequence value .maximum = true := by
  have magnitude : (bounds .integerMagnitude : Int) ≤ Bounds.maximum .integerMagnitude :=
    Int.ofNat_le.mpr (bounds.tightens _)
  simp only [validPositiveSequence, Bool.and_eq_true, decide_eq_true_eq] at h ⊢
  exact ⟨h.1, h.2.trans magnitude⟩

theorem fixedDigest_maximum {value : Bytes} (h : fixedDigest value bounds = true) :
    fixedDigest value .maximum = true := by
  simp only [fixedDigest, Bounds.digestBytes_eq] at h ⊢
  exact h

/-- A row that is written under any bounds is written under the maximal ones. -/
theorem encode_maximum {entry : ConsumptionEntry} {encoded : EncodedConsumptionEntry}
    (h : encode otp entry bounds = some encoded) :
      encode otp entry Bounds.maximum = some encoded := by
  obtain ⟨valid, written, size, hash⟩ := encode_eq_some.mp h
  have le := bounds.le_maximum
  simp only [validateEntry, Bool.and_eq_true] at valid
  obtain ⟨⟨⟨⟨chainId, sequence⟩, previous⟩, commitment⟩, start⟩ := valid
  refine encode_eq_some.mpr ⟨?_, Jcs.encode_below le _ _ written, size.trans (le _), hash⟩
  simp only [validateEntry, Bool.and_eq_true]
  exact ⟨⟨⟨⟨validIdentifier_mono le chainId, validPositiveSequence_maximum sequence⟩,
    fixedDigest_maximum previous⟩, fixedDigest_maximum commitment⟩, start⟩

theorem rowStep_toMaximum {chainId prior row hash : Bytes} {sequence : Int}
    (h : rowStep otp bounds chainId sequence prior row = some hash) :
    rowStep otp .maximum chainId sequence prior row = some hash := by
  obtain ⟨commitment, encoded, parsed, rfl⟩ := rowStep_eq_some.mp h
  obtain ⟨written, same⟩ := parseRow_spec parsed
  exact rowStep_maximum.mpr ⟨commitment, encoded, encode_maximum written, same, rfl⟩

/-- Rows that are linked under any bounds are linked under the maximal ones. -/
theorem run_maximum {chainId last : Bytes} {rows : List Bytes} {sequence : Int} {prior : Bytes}
    (h : Linked.run (rowStep otp bounds chainId) sequence prior rows = some last) :
    Linked.run (rowStep otp .maximum chainId) sequence prior rows = some last := by
  induction rows generalizing sequence prior with
  | nil => exact h
  | cons row rows ih =>
    obtain ⟨hash, step, rest⟩ := Linked.run_cons_eq_some.mp h
    exact Linked.run_cons_eq_some.mpr ⟨hash, rowStep_toMaximum step, ih rest⟩

/-- Apart from the number of its rows a context that is valid under any bounds is valid
under the maximal ones. -/
theorem expectedChain_parts {expected : ExpectedChain}
    (h : ContextValidation.expectedChain otp expected bounds = true) :
    validIdentifier otp expected.chainId .maximum = true ∧
      validPositiveSequence expected.firstSequence .maximum = true ∧
      validPositiveSequence expected.lastSequence .maximum = true ∧
      fixedDigest expected.previousHash .maximum = true ∧
      fixedDigest expected.lastHash .maximum = true ∧
      (expected.firstSequence ≠ 1 || FixedBytes.equal expected.previousHash zeroHash) = true := by
  simp only [ContextValidation.expectedChain, ContextValidation.validChainRange,
    ContextValidation.validChainHashes, Bool.and_eq_true] at h
  obtain ⟨⟨⟨chainId, ⟨first, last⟩, -⟩, -⟩, ⟨previous, final⟩, start⟩ := h
  exact ⟨validIdentifier_mono bounds.le_maximum chainId, validPositiveSequence_maximum first,
    validPositiveSequence_maximum last, fixedDigest_maximum previous, fixedDigest_maximum final,
    start⟩

end ConsumptionChain

namespace AnchoredExportCodec

variable {otp : Otp}

/-! ## Verified archives -/

/-- A stored archive, the context it was verified in and the facts that were returned. -/
structure Verified (otp : Otp) where
  archived : ArchivedObject
  keyChain : HistoricalKeyChain
  expected : ExpectedAnchoredExport
  facts : AnchoredExportFacts
  accepted : verify otp archived keyChain expected = some facts

namespace Verified

/-- The rows the archive is parsed into. -/
def rows (archive : Verified otp) : List Bytes :=
  ((Bounds.coerce archive.expected.bounds).bind fun bounds =>
    (parseArchive otp Cursor.source ([], archive.archived.chunks) bounds).map (·.rows)).getD []

/-- The facts of an archive are those of its context, and its rows are a chain for it. -/
theorem chain (archive : Verified otp) : ∃ bounds,
    archive.facts.chainId = archive.expected.chain.chainId ∧
      archive.facts.firstSequence = archive.expected.chain.firstSequence ∧
      archive.facts.lastSequence = archive.expected.chain.lastSequence ∧
      archive.facts.previousHash = archive.expected.chain.previousHash ∧
      archive.facts.lastHash = archive.expected.chain.lastHash ∧
      ConsumptionChain.Accepts otp bounds archive.rows
        { archive.expected.chain with bounds := bounds } := by
  obtain ⟨archived, keyChain, expected, facts, accepted⟩ := archive
  have verified := accepted
  simp only [verify, Option.bind_eq_bind, Option.bind_eq_some_iff, guard_eq_some, exists_const,
    Prod.exists, Option.some.injEq] at verified
  obtain ⟨bounds, coerced, _, -, -, -, _, _, -, -, parsed, found, -, -, -, -, -, -, _, _, -, _, -,
    _, _, _, -, _, -, -, _, checked, -, rfl⟩ := verified
  obtain ⟨_, same, accepts, -⟩ := ConsumptionChain.check_eq_some.mp checked
  obtain rfl := Option.some.inj ((Bounds.coerce_toLimits bounds).symm.trans same)
  have rows : rows (⟨archived, keyChain, expected, _, accepted⟩ : Verified otp) = parsed.rows := by
    simp only [Verified.rows, coerced, found, Option.bind_some, Option.map_some, Option.getD_some]
  exact ⟨bounds, rfl, rfl, rfl, rfl, rfl, rows ▸ accepts⟩

/-- The rows of an archive, from the one hash it names to the other. -/
theorem run (archive : Verified otp) :
    Linked.run (ConsumptionChain.rowStep otp .maximum archive.facts.chainId)
      archive.facts.firstSequence archive.facts.previousHash archive.rows =
        some archive.facts.lastHash := by
  obtain ⟨bounds, chainId, first, -, previous, last, accepts⟩ := archive.chain
  rw [chainId, first, previous, last]
  exact ConsumptionChain.run_maximum accepts.run

/-- An archive has a row for every place. -/
theorem place (archive : Verified otp) :
    archive.facts.firstSequence + archive.rows.length = archive.facts.lastSequence + 1 := by
  obtain ⟨bounds, -, first, last, -, -, accepts⟩ := archive.chain
  obtain ⟨-, -, range⟩ := ConsumptionChain.expectedChain_count accepts.context
  have count := accepts.count
  simp only at range count
  omega

/-- No archive is without rows. -/
theorem rows_pos (archive : Verified otp) : 0 < archive.rows.length := by
  obtain ⟨bounds, -, -, -, -, -, accepts⟩ := archive.chain
  obtain ⟨positive, -, -⟩ := ConsumptionChain.expectedChain_count accepts.context
  have count := accepts.count
  simp only at positive count
  omega

end Verified

/-! ## Histories -/

/-- The second archive starts where the first one ends. -/
def Continues (earlier later : Verified otp) : Prop :=
  later.facts.chainId = earlier.facts.chainId ∧
    later.facts.firstSequence = earlier.facts.lastSequence + 1 ∧
    later.facts.previousHash = earlier.facts.lastHash

/-- Archives that continue one another, from the first one on. -/
structure History (otp : Otp) where
  first : Verified otp
  rest : List (Verified otp)
  continues : (first :: rest).IsChain Continues

namespace History

/-- The archive the history ends with. -/
def last (history : History otp) : Verified otp := (history.first :: history.rest).getLast (by simp)

/-- The rows of all archives in order. -/
def rows (history : History otp) : List Bytes :=
  (history.first :: history.rest).flatMap Verified.rows

/-- The rows of a history are linked from its first archive to its last. -/
theorem run (history : History otp) :
    history.last.facts.chainId = history.first.facts.chainId ∧
      Linked.run (ConsumptionChain.rowStep otp .maximum history.first.facts.chainId)
        history.first.facts.firstSequence history.first.facts.previousHash history.rows =
          some history.last.facts.lastHash ∧
      history.first.facts.firstSequence + history.rows.length =
        history.last.facts.lastSequence + 1 := by
  obtain ⟨first, rest, continues⟩ := history
  induction rest generalizing first with
  | nil =>
    simp only [History.last, History.rows, List.getLast_singleton, List.flatMap_cons,
      List.flatMap_nil, List.append_nil]
    exact ⟨trivial, first.run, first.place⟩
  | cons second rest ih =>
    obtain ⟨⟨chainId, place, link⟩, continues⟩ := List.isChain_cons_cons.mp continues
    obtain ⟨same, run, total⟩ := ih second continues
    have ended := first.place
    simp only [History.last, History.rows, List.getLast_cons_cons] at same run total ⊢
    rw [List.flatMap_cons, List.length_append]
    refine ⟨same.trans chainId, ?_, by push_cast; omega⟩
    refine Linked.run_append.mpr ⟨first.facts.lastHash, first.run, ?_⟩
    rw [ended, ← chainId, ← place, ← link]
    exact run

/-- The chain a history is of. -/
def chain (history : History otp) : ExpectedChain where
  chainId := history.first.facts.chainId
  firstSequence := history.first.facts.firstSequence
  lastSequence := history.last.facts.lastSequence
  rowCount := history.rows.length
  previousHash := history.first.facts.previousHash
  lastHash := history.last.facts.lastHash
  bounds := []

/-- Only the number of its rows can keep the chain of a history from being a context. -/
theorem expectedChain_iff (history : History otp) :
    ContextValidation.expectedChain otp history.chain .maximum = true ↔
      history.rows.length ≤ Bounds.maximum .chainRows := by
  obtain ⟨-, -, total⟩ := history.run
  obtain ⟨_, chainId, first, -, previous, -, accepts⟩ := history.first.chain
  obtain ⟨_, -, -, last, -, final, accepts'⟩ := history.last.chain
  obtain ⟨identifier, firstValid, -, previousValid, -, start⟩ :=
    ConsumptionChain.expectedChain_parts accepts.context
  obtain ⟨-, -, lastValid, -, finalValid, -⟩ :=
    ConsumptionChain.expectedChain_parts accepts'.context
  have nonempty : 0 < history.rows.length := by
    have positive := history.first.rows_pos
    rw [History.rows, List.flatMap_cons, List.length_append]
    omega
  rw [← chainId] at identifier
  rw [← first] at firstValid start
  rw [← previous] at previousValid start
  rw [← last] at lastValid
  rw [← final] at finalValid
  constructor
  · intro context
    obtain ⟨-, size, -⟩ := ConsumptionChain.expectedChain_count context
    exact Int.ofNat_le.mp size
  · intro size
    simp only [ContextValidation.expectedChain, ContextValidation.validChainRange,
      ContextValidation.validChainCount, ContextValidation.validChainHashes, Bool.and_eq_true,
      decide_eq_true_eq]
    refine ⟨⟨⟨identifier, ⟨firstValid, lastValid⟩, ?_⟩, ⟨?_, Int.ofNat_le.mpr size⟩, ?_⟩,
      ⟨previousValid, finalValid⟩, start⟩ <;>
    · simp only [History.chain]
      omega

end History

/-- A history is one chain.  The rows of archives that continue one another are what the
producer writes, from the first hash named to the last, for as many commitments; and the chain
verifier accepts them in one list exactly when it takes so many rows. -/
theorem history_produced (history : History otp) :
    (∃ commitments : List Bytes, commitments.length = history.rows.length ∧
      ConsumptionChain.produce otp [] history.first.facts.chainId
        history.first.facts.firstSequence history.first.facts.previousHash commitments =
          some (history.rows, history.last.facts.lastHash)) ∧
    ((ConsumptionChain.check otp ⟨history.rows⟩ history.chain).isSome = true ↔
      history.rows.length ≤ Bounds.maximum .chainRows) := by
  obtain ⟨-, run, -⟩ := history.run
  refine ⟨?_, ?_⟩
  · obtain ⟨commitments, length, produced⟩ := (ConsumptionChain.run_iff_produce _).mp run
    refine ⟨commitments, length, ?_⟩
    rw [ConsumptionChain.produce_coerced Bounds.coerce_nil]
    exact produced
  · rw [← history.expectedChain_iff, Option.isSome_iff_exists]
    constructor
    · rintro ⟨facts, checked⟩
      obtain ⟨_, coerced, accepts, -⟩ := ConsumptionChain.check_eq_some.mp checked
      obtain rfl := Option.some.inj (Bounds.coerce_nil.symm.trans coerced)
      exact accepts.context
    · intro context
      exact ⟨_, ConsumptionChain.check_eq_some.mpr
        ⟨.maximum, Bounds.coerce_nil, ⟨context, rfl, run⟩, rfl⟩⟩

/-- The last hash fixes the history.  Of two histories that end in one place of a chain
with one hash, the rows of the one that starts later are the last rows of the other, whose
earlier rows are produced up to the hash it starts from; or two rows collide under the
domain tag. -/
theorem histories_agree {early late : History otp}
    (chainId : late.last.facts.chainId = early.last.facts.chainId)
    (place : late.last.facts.lastSequence = early.last.facts.lastSequence)
    (hash : late.last.facts.lastHash = early.last.facts.lastHash)
    (order : early.first.facts.firstSequence ≤ late.first.facts.firstSequence) :
    (∃ commitments older, early.rows = older ++ late.rows ∧
      ConsumptionChain.produce otp [] early.first.facts.chainId
        early.first.facts.firstSequence early.first.facts.previousHash commitments =
          some (older, late.first.facts.previousHash)) ∨
    ∃ row ∈ late.rows, ∃ row' ∈ early.rows,
      otp.Collide (ConsumptionChain.domain ++ row) (ConsumptionChain.domain ++ row') := by
  obtain ⟨sameLate, runLate, totalLate⟩ := late.run
  obtain ⟨sameEarly, runEarly, totalEarly⟩ := early.run
  have same : late.first.facts.chainId = early.first.facts.chainId :=
    sameLate.symm.trans (chainId.trans sameEarly)
  rw [same, hash] at runLate
  cases Linked.run_suffix runLate runEarly (by omega) (by omega)
      ConsumptionChain.rowStep_determines with
  | inl suffix =>
    obtain ⟨older, rows, run⟩ := suffix
    obtain ⟨commitments, -, produced⟩ := (ConsumptionChain.run_iff_produce _).mp run
    refine .inl ⟨commitments, older, rows, ?_⟩
    rw [ConsumptionChain.produce_coerced Bounds.coerce_nil]
    exact produced
  | inr collide => exact .inr collide

/-! ## A sample history -/

namespace Sample

/-- The sample archive with the facts it is verified to. -/
def archive : Verified platform where
  archived := ⟨chunks, ascii "1"⟩
  keyChain := keys
  expected := expected
  facts := (verify platform ⟨chunks, ascii "1"⟩ keys expected).get accepted
  accepted := (Option.some_get _).symm

def laterRow : Bytes :=
  (Jcs.encode (ConsumptionChain.rowJson ⟨ascii "c", 2, lastHash, zeroHash⟩) Bounds.maximum).getD []

def laterChain : ExpectedChain := ⟨ascii "c", 2, 2, 1, lastHash, laterHash, []⟩

def laterAnchor : ExpectedAnchor :=
  ⟨ascii "a2", 40, ascii "c", 2, laterHash, ascii "k1", secondFingerprint, []⟩

/-- The archive of the next row, which starts from the anchor the first one ends with. -/
def laterChunks : List Bytes :=
  buildChunks ((Jcs.encode (object (headerMembers laterChain 0)) Bounds.maximum).getD [])
    input.endAnchor [] [laterRow] (laterMessage ++ ascii "." ++ Base64.encode laterSignature)

def laterDigest : Bytes := bigEndian 32
  0xEADD36A0C0131A386AD282926A30E009D3387E82F40F71A337B83E4A61682BB3

def laterExpected : ExpectedAnchoredExport :=
  ⟨laterChain, endAnchor, [], laterAnchor, laterDigest, ascii "1", []⟩

theorem later_accepted :
    (verify platform ⟨laterChunks, ascii "1"⟩ ⟨[secondKey]⟩ laterExpected).isSome = true := by
  decide +kernel

/-- The later archive with the facts it is verified to. -/
def later : Verified platform where
  archived := ⟨laterChunks, ascii "1"⟩
  keyChain := ⟨[secondKey]⟩
  expected := laterExpected
  facts := (verify platform ⟨laterChunks, ascii "1"⟩ ⟨[secondKey]⟩ laterExpected).get later_accepted
  accepted := (Option.some_get _).symm

theorem later_continues : Continues archive later := by
  obtain ⟨_, chainId, -, last, -, hash, -⟩ := archive.chain
  obtain ⟨_, chainId', first, -, previous, -, -⟩ := later.chain
  refine ⟨chainId'.trans chainId.symm, ?_, previous.trans hash.symm⟩
  rw [first, last]
  rfl

/-- Both archives. -/
def history : History platform := ⟨archive, [later], .cons_cons later_continues (.singleton _)⟩

/-- The later archive alone. -/
def recent : History platform := ⟨later, [], .singleton _⟩

theorem last_history : history.last = later := by
  rw [History.last, List.getLast_eq_iff_getLast?_eq_some]
  rfl

theorem last_recent : recent.last = later := by
  rw [History.last, List.getLast_eq_iff_getLast?_eq_some]
  rfl

end Sample

/-- The later archive holds the last rows of both. -/
theorem histories_agree_sample :
    (∃ commitments older, Sample.history.rows = older ++ Sample.recent.rows ∧
      ConsumptionChain.produce Sample.platform [] Sample.archive.facts.chainId
        Sample.archive.facts.firstSequence Sample.archive.facts.previousHash commitments =
          some (older, Sample.later.facts.previousHash)) ∨
    ∃ row ∈ Sample.recent.rows, ∃ row' ∈ Sample.history.rows,
      Sample.platform.Collide (ConsumptionChain.domain ++ row)
        (ConsumptionChain.domain ++ row') := by
  have order : Sample.archive.facts.firstSequence ≤ Sample.later.facts.firstSequence := by
    obtain ⟨_, -, first, -⟩ := Sample.archive.chain
    obtain ⟨_, -, first', -⟩ := Sample.later.chain
    rw [first, first']
    decide
  have last : Sample.recent.last = Sample.history.last :=
    Sample.last_recent.trans Sample.last_history.symm
  exact @histories_agree Sample.platform Sample.history Sample.recent (by rw [last])
    (by rw [last]) (by rw [last]) order

end AnchoredExportCodec

end BoundedAuthority.V1
