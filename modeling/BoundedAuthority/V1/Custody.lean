import BoundedAuthority.V1.ArchiveReader
import BoundedAuthority.V1.ChainEvidence

/-!
# Custody of the keys

An accepted archive hands its chain from key to key.  The start anchor is signed by
the first key, each transition by the key before it for the key after it, the end
anchor by the last key, and every one of them inside the windows of its keys and after
the one before (`Custody`).

The checks are five recursions over the key list, the transitions and the expected
path.  Each has a lemma that says what it checks of the list as a whole.
-/

namespace BoundedAuthority.V1.AnchoredExportCodec

open Wire

variable {otp : Otp} {bounds : Bounds}

/-! ## Small checks -/

theorem anchorMatches_iff {parsed : ParsedAnchor} {expected : ExpectedAnchor} :
    anchorMatches parsed expected = true ↔ BoundaryAnchorCodec.Matches parsed expected := by
  simp only [anchorMatches, Bool.and_eq_true, decide_eq_true_eq, FixedBytes.equal_iff]
  constructor
  · rintro ⟨⟨⟨⟨⟨⟨anchorId, anchoredAt⟩, chainId⟩, sequence⟩, keyId⟩, chainHash⟩, keyFingerprint⟩
    exact ⟨anchorId, anchoredAt, chainId, sequence, keyId, chainHash, keyFingerprint⟩
  · rintro ⟨anchorId, anchoredAt, chainId, sequence, keyId, chainHash, keyFingerprint⟩
    exact ⟨⟨⟨⟨⟨⟨anchorId, anchoredAt⟩, chainId⟩, sequence⟩, keyId⟩, chainHash⟩, keyFingerprint⟩

theorem transitionMatches_iff {parsed : ParsedTransition} {expected : ExpectedKeyTransition} :
    transitionMatches parsed expected = true ↔ KeyTransitionCodec.Matches parsed expected := by
  simp only [transitionMatches, currentKeyMatches, Bool.and_eq_true, decide_eq_true_eq,
    FixedBytes.equal_iff]
  constructor
  · rintro ⟨⟨⟨⟨⟨transitionId, chainId⟩, effectiveAt⟩, currentKeyId, currentKeyFingerprint⟩,
      nextKeyId⟩, nextKeyFingerprint⟩
    exact ⟨transitionId, chainId, effectiveAt, currentKeyId, currentKeyFingerprint, nextKeyId,
      nextKeyFingerprint⟩
  · rintro ⟨transitionId, chainId, effectiveAt, currentKeyId, currentKeyFingerprint, nextKeyId,
      nextKeyFingerprint⟩
    exact ⟨⟨⟨⟨⟨transitionId, chainId⟩, effectiveAt⟩, currentKeyId, currentKeyFingerprint⟩,
      nextKeyId⟩, nextKeyFingerprint⟩

theorem fingerprintMember_iff {fingerprint : Bytes} {seen : List Bytes} :
    fingerprintMember fingerprint seen = true ↔ fingerprint ∈ seen := by
  simp [fingerprintMember]

theorem compareParsedTransitions_iff : ∀ {parsed : List ParsedTransition}
    {expected : List ExpectedKeyTransition}, compareParsedTransitions parsed expected = true ↔
      List.Forall₂ KeyTransitionCodec.Matches parsed expected
  | [], [] => by simp [compareParsedTransitions]
  | [], _ :: _ => by simp [compareParsedTransitions]
  | _ :: _, [] => by simp [compareParsedTransitions]
  | _ :: _, _ :: _ => by
      simp [compareParsedTransitions, transitionMatches_iff, compareParsedTransitions_iff]

/-! ## Keys -/

theorem validateHistoricalKeyShapes_iff {expectedCount : Nat} : ∀ {keys : List HistoricalPublicKey}
    {count : Nat}, validateHistoricalKeyShapes expectedCount bounds keys count = true ↔
      expectedCount = count + keys.length ∧
        ∀ key ∈ keys, ContextValidation.historicalKey key bounds = true
  | [], count => by simp [validateHistoricalKeyShapes]
  | key :: keys, count => by
      simp only [validateHistoricalKeyShapes, Bool.and_eq_true, decide_eq_true_eq,
        validateHistoricalKeyShapes_iff, List.length_cons, List.forall_mem_cons]
      constructor
      · rintro ⟨⟨_, shape⟩, length, shapes⟩
        exact ⟨by omega, shape, shapes⟩
      · rintro ⟨length, shape, shapes⟩
        exact ⟨⟨by omega, shape⟩, by omega, shapes⟩

/-- The thumbprints of a key list. -/
def thumbprints (otp : Otp) (keys : List HistoricalPublicKey) : List Bytes :=
  keys.map fun key => Jwk.thumbprintOf otp key.publicKey

/-- The key list has the expected length, and its thumbprints are distinct and new. -/
theorem validateKeyChain_iff {expectedCount : Int} : ∀ {keys : List HistoricalPublicKey}
    {seen : List Bytes} {count : Nat},
    validateKeyChain otp expectedCount bounds keys seen count = true ↔
      keys ≠ [] ∧ expectedCount = count + keys.length ∧
        (∀ key ∈ keys, key.publicKey.length = bounds .publicKeyBytes ∧
          Jwk.publicKeyThumbprintRaw otp key.publicKey bounds =
            some (Jwk.thumbprintOf otp key.publicKey)) ∧
        (thumbprints otp keys).Nodup ∧ ∀ fingerprint ∈ thumbprints otp keys, fingerprint ∉ seen
  | [], seen, count => by simp [validateKeyChain]
  | key :: keys, seen, count => by
      rw [validateKeyChain]
      cases found : Jwk.publicKeyThumbprintRaw otp key.publicKey bounds with
      | none =>
          simp only [Bool.and_false, Bool.false_eq_true, List.forall_mem_cons, found,
            reduceCtorEq, and_false, false_and]
      | some fingerprint =>
          obtain ⟨-, rfl⟩ := Jwk.publicKeyThumbprintRaw_spec found
          simp only [Bool.and_eq_true, Bool.or_eq_true, Bool.not_eq_true', decide_eq_true_eq,
            List.isEmpty_iff, validateKeyChain_iff, ← Bool.not_eq_true, fingerprintMember_iff]
          simp only [thumbprints, List.map_cons, List.nodup_cons, List.length_cons,
            List.forall_mem_cons, found]
          simp only [List.mem_cons, not_or, ne_eq, reduceCtorEq, not_false_eq_true, true_and,
            and_true]
          constructor
          · rintro ⟨⟨-, size⟩, unseen, ⟨rfl, last⟩ | ⟨-, length, keys, distinct, fresh⟩⟩
            · simpa [size, unseen] using last.symm
            · exact ⟨by omega, ⟨size, keys⟩, ⟨fun h => (fresh _ h).1 rfl, distinct⟩, unseen,
                fun _ h => (fresh _ h).2⟩
          · rintro ⟨length, ⟨size, sizes⟩, ⟨other, distinct⟩, unseen, fresh⟩
            refine ⟨⟨by omega, size⟩, unseen, ?_⟩
            by_cases last : keys = []
            · subst last
              exact .inl ⟨rfl, by simpa using length.symm⟩
            · exact .inr ⟨last, by omega, sizes, distinct,
                fun _ h => ⟨fun same => other (same ▸ h), fresh _ h⟩⟩

/-! ## Transitions -/

/-- A transition hands over from each key to the next. -/
def Handover (otp : Otp) : HistoricalPublicKey → List HistoricalPublicKey →
    List ParsedTransition → Prop
  | _, [], [] => True
  | current, next :: keys, transition :: transitions =>
      KeyTransitionCodec.Between otp transition current next ∧
        Handover otp next keys transitions
  | _, _, _ => False

/-- The times of a start and of the transitions behind it. -/
def times (start : Int) (transitions : List ParsedTransition) : List Int :=
  start :: transitions.map (·.effectiveAt)

/-- Verified transitions hand over from the first key to the last, each after the one before. -/
theorem verifyTransitions_spec : ∀ {compacts : List Bytes} {transitions : List ParsedTransition}
    {keys : List HistoricalPublicKey} {current final : HistoricalPublicKey}
    {expected : List ExpectedKeyTransition} {previousTime lastTime : Int} {count total : Nat},
    verifyTransitions otp bounds compacts keys current expected previousTime count =
      some (final, lastTime, total) →
    List.Forall₂ (fun compact transition =>
      KeyTransitionCodec.parse otp compact bounds = some transition) compacts transitions →
    Handover otp current keys transitions ∧ (times previousTime transitions).IsChain (· < ·) ∧
      (current :: keys).getLast? = some final ∧
      (times previousTime transitions).getLast? = some lastTime ∧
      total = count + transitions.length
  | [], _, [], current, final, [], previousTime, lastTime, count, total, h, .nil => by
      simp only [verifyTransitions, Option.some.injEq, Prod.mk.injEq] at h
      obtain ⟨rfl, rfl, rfl⟩ := h
      exact ⟨trivial, .singleton _, rfl, rfl, rfl⟩
  | compact :: compacts, transition :: transitions, next :: keys, current, final, expected :: rest,
      previousTime, lastTime, count, total, h, .cons parsed parsedRest => by
      simp only [verifyTransitions, Option.bind_eq_bind, Option.bind_eq_some_iff, guard_eq_some,
        exists_const] at h
      obtain ⟨after, facts, verified, later⟩ := h
      obtain ⟨-, -, -, found, again, -, -, matched, between, rfl⟩ :=
        (KeyTransitionCodec.verify_spec (Bounds.coerce_toLimits bounds)).mp verified
      obtain rfl : transition = found := Option.some.inj (parsed.symm.trans again)
      obtain ⟨handover, chronological, last, lastTime, rfl⟩ :=
        verifyTransitions_spec later parsedRest
      have first : previousTime < transition.effectiveAt := by
        have := of_decide_eq_true after
        rw [matched.effectiveAt]
        exact this
      refine ⟨⟨between, handover⟩, .cons_cons first chronological, ?_, ?_, ?_⟩
      · rw [List.getLast?_cons_cons, last]
      · exact lastTime
      · rw [List.length_cons]
        omega

/-! ## Archives -/

theorem readTransitionFrames_spec {σ : Type} {source : Source σ} : ∀ {remaining : Nat}
    {state final : σ} {compacts : List Bytes} {parsed : List ParsedTransition},
    readTransitionFrames otp source bounds remaining state = some ((compacts, parsed), final) →
      List.Forall₂ (fun compact transition =>
        KeyTransitionCodec.parse otp compact bounds = some transition) compacts parsed ∧
      parsed.length = remaining
  | 0, state, final, compacts, parsed, h => by
      simp only [readTransitionFrames, Option.some.injEq, Prod.mk.injEq] at h
      obtain ⟨⟨rfl, rfl⟩, -⟩ := h
      exact ⟨.nil, rfl⟩
  | remaining + 1, state, final, compacts, parsed, h => by
      simp only [readTransitionFrames, Option.bind_eq_bind, Option.bind_eq_some_iff, Prod.exists,
        Option.some.injEq, Prod.mk.injEq] at h
      obtain ⟨compact, next, -, transition, found, compacts, parsed, _, later, ⟨rfl, rfl⟩, -⟩ := h
      obtain ⟨rest, length⟩ := readTransitionFrames_spec later
      exact ⟨.cons found rest, congrArg (· + 1) length⟩

/-- What the parser of archives returns is parsed from the bytes beside it. -/
structure Coherent (otp : Otp) (bounds : Bounds) (archive : ParsedArchive) : Prop where
  startAnchor : BoundaryAnchorCodec.parse otp archive.startAnchor bounds =
    some archive.startAnchorParsed
  transitions : List.Forall₂ (fun compact transition =>
    KeyTransitionCodec.parse otp compact bounds = some transition) archive.transitions
      archive.transitionParsed
  transitionCount : archive.header.transitionCount.toNat = archive.transitionParsed.length
  endAnchor : BoundaryAnchorCodec.parse otp archive.endAnchor bounds = some archive.endAnchorParsed

theorem coherent_of_parseArchive {σ : Type} {source : Source σ} {state : σ}
    {archive : ParsedArchive} (h : parseArchive otp source state bounds = some archive) :
    Coherent otp bounds archive := by
  simp only [parseArchive, Option.bind_eq_bind, Option.bind_eq_some_iff, guard_eq_some,
    exists_const, Prod.exists, Option.some.injEq] at h
  obtain ⟨_, _, -, -, _, _, -, header, -, start, _, -, startParsed, startFound, compacts, parsed, _,
    transitions, rows, _, -, finish, _, -, endParsed, endFound, -, rfl⟩ := h
  obtain ⟨transitions, length⟩ := readTransitionFrames_spec transitions
  exact ⟨startFound, transitions, length.symm, endFound⟩

/-! ## Custody -/

/-- The chain from the start anchor to the end anchor, and who held it when. -/
structure Custody (otp : Otp) (bounds : Bounds) (keys : List HistoricalPublicKey)
    (archive : ParsedArchive) : Prop where
  transitionCount : archive.header.transitionCount = archive.transitionParsed.length
  keyCount : keys.length = archive.transitionParsed.length + 1
  distinct : (thumbprints otp keys).Nodup
  start : ∀ key ∈ keys.head?, BoundaryAnchorCodec.VerifiesUnder otp archive.startAnchorParsed key
  handover : ∀ i transition current next, archive.transitionParsed[i]? = some transition →
    keys[i]? = some current → keys[i + 1]? = some next →
      KeyTransitionCodec.Between otp transition current next
  chronological :
    (times archive.startAnchorParsed.anchoredAt archive.transitionParsed).Pairwise (· < ·)
  lastTime : ∀ time ∈ times archive.startAnchorParsed.anchoredAt archive.transitionParsed,
    time ≤ archive.endAnchorParsed.anchoredAt
  finish : ∀ key ∈ keys.getLast?, BoundaryAnchorCodec.VerifiesUnder otp archive.endAnchorParsed key
  rows : Linked.run (ConsumptionChain.rowStep otp bounds archive.startAnchorParsed.chainId)
    (archive.startAnchorParsed.sequence + 1) archive.startAnchorParsed.chainHash archive.rows =
      some archive.endAnchorParsed.chainHash
  rowCount : archive.startAnchorParsed.sequence + archive.rows.length =
    archive.endAnchorParsed.sequence

/-- A handover by places. -/
theorem Handover.between : ∀ {current : HistoricalPublicKey} {keys : List HistoricalPublicKey}
    {transitions : List ParsedTransition}, Handover otp current keys transitions →
    ∀ i transition before after, transitions[i]? = some transition →
      (current :: keys)[i]? = some before → (current :: keys)[i + 1]? = some after →
        KeyTransitionCodec.Between otp transition before after
  | current, next :: keys, first :: transitions, h, 0, _, _, _, rfl, rfl, rfl => h.1
  | current, next :: keys, first :: transitions, h, i + 1, transition, before, after, found,
      earlier, later => h.2.between i transition before after found earlier later
  | _, [], [], _, _, _, _, _, found, _, _ => by simp at found
  | _, [], _ :: _, h, _, _, _, _, _, _, _ => h.elim
  | _, _ :: _, [], h, _, _, _, _, _, _, _ => h.elim

/-- No time is after the last one. -/
theorem le_of_getLast? : ∀ {list : List Int} {last : Int}, list.Pairwise (· < ·) →
    list.getLast? = some last → ∀ time ∈ list, time ≤ last
  | list, last, sorted, h, time, member => by
      obtain ⟨init, rfl⟩ := List.getLast?_eq_some_iff.mp h
      rcases List.mem_append.mp member with earlier | same
      · exact le_of_lt ((List.pairwise_append.mp sorted).2.2 time earlier last (by simp))
      · exact le_of_eq (List.mem_singleton.mp same)

/-- **Custody.**  Whatever the verifier accepts was handed from key to key. -/
theorem custody_of_verify {archived : ArchivedObject} {keyChain : HistoricalKeyChain}
    {expected : ExpectedAnchoredExport} {facts : AnchoredExportFacts}
    (h : verify otp archived keyChain expected = some facts) :
    ∃ bounds archive, Bounds.coerce expected.bounds = some bounds ∧
      parseArchive otp Cursor.source ([], archived.chunks) bounds = some archive ∧
      Custody otp bounds keyChain.keys archive := by
  simp only [verify, Option.bind_eq_bind, Option.bind_eq_some_iff, guard_eq_some, exists_const,
    Prod.exists, Option.some.injEq] at h
  obtain ⟨bounds, coerced, _, context, shapes, -, _, _, -, -, archive, parsed, header, startMatches,
    endMatches, transitionsMatch, -, chain, first, rest, taken, startFacts, startVerified, endKey,
    lastTime, total, verified, endFacts, endVerified, chronological, _, accepted, boundaries, -⟩ :=
    h
  refine ⟨bounds, archive, coerced, parsed, ?_⟩
  have coherent := coherent_of_parseArchive parsed
  obtain ⟨length, -⟩ := validateHistoricalKeyShapes_iff.mp shapes
  obtain ⟨-, -, -, distinct, -⟩ := validateKeyChain_iff.mp chain
  have paths := compareParsedTransitions_iff.mp transitionsMatch
  obtain ⟨keys⟩ := keyChain
  cases keys with
  | nil => cases taken
  | cons key keys =>
      obtain ⟨rfl, rfl⟩ := Prod.mk.inj (Option.some.inj taken)
      obtain ⟨-, -, _, again, -, startMatch, startUnder, rfl⟩ :=
        (BoundaryAnchorCodec.verify_spec (Bounds.coerce_toLimits bounds)).mp startVerified
      obtain rfl := Option.some.inj (coherent.startAnchor.symm.trans again)
      obtain ⟨-, -, _, again, -, endMatch, endUnder, rfl⟩ :=
        (BoundaryAnchorCodec.verify_spec (Bounds.coerce_toLimits bounds)).mp endVerified
      obtain rfl := Option.some.inj (coherent.endAnchor.symm.trans again)
      obtain ⟨handover, order, last, lastAt, -⟩ :=
        verifyTransitions_spec verified coherent.transitions
      have sorted := List.isChain_iff_pairwise.mp order
      simp only [authenticatedBoundaries, Bool.and_eq_true, decide_eq_true_eq,
        FixedBytes.equal_iff] at boundaries
      simp only [BoundaryAnchorCodec.factsOf] at boundaries sorted lastAt chronological
      obtain ⟨⟨⟨⟨⟨startChain, -⟩, startSequence⟩, startHash⟩, endSequence⟩, endHash⟩ := boundaries
      obtain ⟨_, same, accepts, -⟩ := ConsumptionChain.check_eq_some.mp accepted
      obtain rfl := Option.some.inj ((Bounds.coerce_toLimits bounds).symm.trans same)
      obtain ⟨-, -, range⟩ := ConsumptionChain.expectedChain_count accepts.context
      have count := accepts.count
      have run := accepts.run
      simp only at range count run
      simp only [headerMatches, Bool.and_eq_true, decide_eq_true_eq] at header
      have pathLength := paths.length_eq
      have firstSequence :
          archive.startAnchorParsed.sequence + 1 = expected.chain.firstSequence := by
        omega
      exact
        { transitionCount := by omega
          keyCount := by
            rw [List.length_cons] at length ⊢
            omega
          distinct := distinct
          start := by
            rintro _ ⟨⟩
            exact startUnder
          handover := handover.between
          chronological := sorted
          lastTime := fun time member =>
            (le_of_getLast? sorted lastAt time member).trans (of_decide_eq_true chronological)
          finish := by
            rintro final found
            rw [last] at found
            obtain rfl := Option.some.inj found
            exact endUnder
          rows := by rw [startChain, startHash, endHash, firstSequence, run]
          rowCount := by omega }

/-- The custody of the sample archive. -/
theorem custody_of_verify_sample :
    ∃ bounds archive, Bounds.coerce Sample.expected.bounds = some bounds ∧
      parseArchive Sample.platform Cursor.source ([], Sample.chunks) bounds = some archive ∧
      Custody Sample.platform bounds Sample.keys.keys archive := by
  obtain ⟨facts, accepted⟩ := Option.isSome_iff_exists.mp Sample.accepted
  exact @custody_of_verify Sample.platform ⟨Sample.chunks, ascii "1"⟩ Sample.keys Sample.expected
    facts
    accepted

end BoundedAuthority.V1.AnchoredExportCodec
