import BoundedAuthority.V1.ChainProducer
import BoundedAuthority.V1.Custody

/-!
# What the writer frames is verified

Under the maximal bounds the reader takes the frames of the writer apart again
(`parseArchive_buildChunks`).  The path of keys the writer checks in its context is the
path the verifier walks with the keys themselves (`verifyTransitions_accepts`), so an
archive is verified as soon as its signatures are.
-/

namespace BoundedAuthority.V1.AnchoredExportCodec

open Wire JsonValue

variable {otp : Otp}

/-! ## The header -/

theorem ordered_headerMembers (chain : ExpectedChain) (transitionCount : Nat) :
    ClosedMap.Ordered (headerMembers chain transitionCount) where
  plain := by simp [headerMembers, ClosedMap.Plain]
  sorted := by
    have keys : headerKeys.Pairwise fun a b => Utf16.le (Utf16.units a) (Utf16.units b) = true := by
      decide
    exact keys

/-- The text of an object is not empty. -/
theorem length_encode_object {members : List (Bytes × JsonValue)} {bytes : Bytes} {bounds : Bounds}
    (h : Jcs.encode (object members) bounds = some bytes) : 0 < bytes.length := by
  obtain ⟨-, -, rfl⟩ := Jcs.encode_eq_some.mp h
  rw [Jcs.canon_object, List.length_cons]
  exact Nat.succ_pos _

/-- The header of a context. -/
def headerOf (chain : ExpectedChain) (transitionCount : Nat) : ArchiveHeader where
  chainId := chain.chainId
  firstSequence := chain.firstSequence
  lastSequence := chain.lastSequence
  rowCount := chain.rowCount
  transitionCount := transitionCount
  previousHash := chain.previousHash
  lastHash := chain.lastHash

/-- The written header is read back. -/
theorem parseHeader_headerMembers {chain : ExpectedChain} {transitionCount : Nat} {bytes : Bytes}
    (context : ContextValidation.expectedChain otp chain .maximum = true)
    (few : transitionCount ≤ Bounds.maximum .keyTransitions)
    (written : Jcs.encode (object (headerMembers chain transitionCount)) Bounds.maximum =
      some bytes) :
    parseHeader bytes .maximum = some (headerOf chain transitionCount) := by
  have read := ClosedMap.decode_encode (ordered_headerMembers chain transitionCount) written
  have closed : ClosedMap.closedMap (headerMembers chain transitionCount) headerKeys =
      some (headerMembers chain transitionCount).reverse := ClosedMap.closedMap_of_keys rfl
  have opened : openObject bytes headerKeys .maximum =
      some (headerMembers chain transitionCount).reverse := by
    simp only [openObject, read, closed, written, Option.bind_eq_bind, Option.bind_some, guard_true,
      Option.pure_def]
  simp only [ContextValidation.expectedChain, ContextValidation.validChainRange,
    ContextValidation.validChainCount, ContextValidation.validChainHashes, validPositiveSequence,
    Bool.and_eq_true, decide_eq_true_eq] at context
  obtain ⟨⟨⟨-, ⟨⟨firstPositive, firstFits⟩, lastPositive, lastFits⟩, order⟩,
    ⟨rowsPositive, rowsFit⟩, rowCount⟩, ⟨previousSize, lastSize⟩, -⟩ := context
  have previous := ConsumptionChain.decode_digest previousSize
  have last := ConsumptionChain.decode_digest lastSize
  have version : ClosedMap.integer (headerMembers chain transitionCount).reverse (ascii "v") =
      some 1 := rfl
  have chainId : ClosedMap.string (headerMembers chain transitionCount).reverse (ascii "chain_id") =
      some chain.chainId := rfl
  have first : ClosedMap.integer (headerMembers chain transitionCount).reverse
      (ascii "first_sequence") = some chain.firstSequence := rfl
  have final : ClosedMap.integer (headerMembers chain transitionCount).reverse
      (ascii "last_sequence") = some chain.lastSequence := rfl
  have rows : ClosedMap.integer (headerMembers chain transitionCount).reverse (ascii "row_count") =
      some chain.rowCount := rfl
  have transitions : ClosedMap.integer (headerMembers chain transitionCount).reverse
      (ascii "transition_count") = some (transitionCount : Int) := rfl
  have previousText : ClosedMap.digest (headerMembers chain transitionCount).reverse
      (ascii "previous_hash") .maximum = some chain.previousHash := previous
  have lastText : ClosedMap.digest (headerMembers chain transitionCount).reverse
      (ascii "last_hash") .maximum = some chain.lastHash := last
  have range : validHeaderRange chain.firstSequence chain.lastSequence chain.rowCount .maximum =
      true := by
    simp only [validHeaderRange, Bool.and_eq_true, decide_eq_true_eq]
    exact ⟨⟨⟨⟨⟨⟨firstPositive, firstFits⟩, order⟩, lastFits⟩, rowsPositive⟩, rowsFit⟩, rowCount⟩
  have count : (0 : Int) ≤ transitionCount ∧
      (transitionCount : Int) ≤ Bounds.maximum .keyTransitions := by
    exact ⟨Int.natCast_nonneg _, Int.ofNat_le.mpr few⟩
  have previousLength : chain.previousHash.length = Bounds.maximum .digestBytes :=
    of_decide_eq_true previousSize
  have lastLength : chain.lastHash.length = Bounds.maximum .digestBytes :=
    of_decide_eq_true lastSize
  simp only [parseHeader, opened, version, chainId, first, final, rows, transitions, previousText,
    lastText, range, count, previousLength, lastLength, Option.bind_eq_bind, Option.bind_some,
    guard_true, Option.pure_def, and_self]
  rfl

/-! ## Frames -/

/-- Every length the maximal bounds allow fits in four octets. -/
theorem small_of_le {n : Nat} {key : BoundKey} (h : n ≤ Bounds.maximum key)
    (small : key.maximum < 2 ^ 32) : n < 2 ^ 32 :=
  lt_of_le_of_lt h small

theorem readTransitionFrames_frames {compacts : List Bytes} {parsed : List ParsedTransition}
    (rest : Bytes) (h : List.Forall₂ (fun compact transition =>
      KeyTransitionCodec.parse otp compact .maximum = some transition) compacts parsed) :
    readTransitionFrames otp Source.plain .maximum parsed.length
        ((compacts.map frame).flatten ++ rest) = some ((compacts, parsed), rest) := by
  induction h with
  | nil => rfl
  | @cons compact transition compacts parsed found later ih =>
      obtain ⟨positive, fits⟩ := KeyTransitionCodec.length_of_parse found
      have first := readFrame_frame ((compacts.map frame).flatten ++ rest) positive fits
        (small_of_le fits (by decide))
      simp only [readTransitionFrames, List.length_cons, List.map_cons, List.flatten_cons,
        List.append_assoc, first, found, ih, Option.bind_eq_bind, Option.bind_some]

theorem readRowFrames_frames : ∀ {rows : List Bytes} (rest : Bytes),
    (∀ row ∈ rows, 0 < row.length ∧ row.length ≤ Bounds.maximum .chainRowBytes) →
    readRowFrames Source.plain .maximum rows.length ((rows.map frame).flatten ++ rest) =
      some (rows, rest)
  | [], _, _ => rfl
  | row :: rows, rest, h => by
      obtain ⟨⟨positive, fits⟩, later⟩ := List.forall_mem_cons.mp h
      have first := readFrame_frame ((rows.map frame).flatten ++ rest) positive fits
        (small_of_le fits (by decide))
      simp only [readRowFrames, List.length_cons, List.map_cons, List.flatten_cons,
        List.append_assoc, first, readRowFrames_frames rest later, Option.bind_eq_bind,
        Option.bind_some]

/-- The reader takes apart what the writer frames. -/
theorem parseArchive_buildChunks {header startAnchor endAnchor : Bytes}
    {transitions rows : List Bytes} {parsedHeader : ArchiveHeader}
    {startParsed endParsed : ParsedAnchor} {transitionParsed : List ParsedTransition}
    (headerPositive : 0 < header.length)
    (headerFits : header.length ≤ Bounds.maximum .archiveHeaderBytes)
    (headerParsed : parseHeader header .maximum = some parsedHeader)
    (startFound : BoundaryAnchorCodec.parse otp startAnchor .maximum = some startParsed)
    (transitionsFound : List.Forall₂ (fun compact transition =>
      KeyTransitionCodec.parse otp compact .maximum = some transition) transitions transitionParsed)
    (transitionCount : parsedHeader.transitionCount = transitionParsed.length)
    (rowsSized : ∀ row ∈ rows, 0 < row.length ∧ row.length ≤ Bounds.maximum .chainRowBytes)
    (rowCount : parsedHeader.rowCount = rows.length)
    (endFound : BoundaryAnchorCodec.parse otp endAnchor .maximum = some endParsed) :
    parseArchive otp Source.plain
      (buildChunks header startAnchor transitions rows endAnchor).flatten
        .maximum =
      some ⟨parsedHeader, startAnchor, startParsed, transitions, transitionParsed, rows, endAnchor,
        endParsed⟩ := by
  have layout : (buildChunks header startAnchor transitions rows endAnchor).flatten =
      archivePrefix ++ (frame header ++ (frame startAnchor ++ ((transitions.map frame).flatten ++
        ((rows.map frame).flatten ++ (frame endAnchor ++ []))))) := by
    simp [buildChunks]
  obtain ⟨startPositive, startFits⟩ := BoundaryAnchorCodec.length_of_parse startFound
  obtain ⟨endPositive, endFits⟩ := BoundaryAnchorCodec.length_of_parse endFound
  have transitionTotal : parsedHeader.transitionCount.toNat = transitionParsed.length := by omega
  have rowTotal : parsedHeader.rowCount.toNat = rows.length := by omega
  have atEnd : Source.plain.eof [] = true := rfl
  rw [layout, parseArchive]
  simp only [plain_readExact_append _ rfl,
    readFrame_frame _ headerPositive headerFits (small_of_le headerFits (by decide)),
    readFrame_frame _ startPositive startFits (small_of_le startFits (by decide)),
    readFrame_frame _ endPositive endFits (small_of_le endFits (by decide)),
    readTransitionFrames_frames _ transitionsFound, readRowFrames_frames _ rowsSized, headerParsed,
    startFound, endFound, transitionTotal, rowTotal, atEnd,
    Option.bind_eq_bind, Option.bind_some, guard_true, Option.pure_def]

/-! ## The path of keys -/

variable {bounds : Bounds}

/-- A transition is verified between each two adjacent keys. -/
def VerifiedBetween (otp : Otp) (keys : List HistoricalPublicKey) (compacts : List Bytes)
    (expected : List ExpectedKeyTransition) : Prop :=
  ∀ i compact before after transition, compacts[i]? = some compact → keys[i]? = some before →
    keys[i + 1]? = some after → expected[i]? = some transition →
      (KeyTransitionCodec.verify otp compact before after transition).isSome = true

theorem VerifiedBetween.head {current next : HistoricalPublicKey} {keys : List HistoricalPublicKey}
    {compact : Bytes} {compacts : List Bytes} {transition : ExpectedKeyTransition}
    {expected : List ExpectedKeyTransition}
    (h : VerifiedBetween otp (current :: next :: keys) (compact :: compacts)
      (transition :: expected)) :
    ∃ facts, KeyTransitionCodec.verify otp compact current next transition = some facts :=
  Option.isSome_iff_exists.mp (h 0 compact current next transition rfl rfl rfl rfl)

theorem VerifiedBetween.tail {current : HistoricalPublicKey} {keys : List HistoricalPublicKey}
    {compact : Bytes} {compacts : List Bytes} {transition : ExpectedKeyTransition}
    {expected : List ExpectedKeyTransition}
    (h : VerifiedBetween otp (current :: keys) (compact :: compacts) (transition :: expected)) :
    VerifiedBetween otp keys compacts expected := by
  intro i compact before after transition found earlier later known
  exact h (i + 1) compact before after transition found earlier later known

/-- Of the limits in a context a codec sees the bounds they coerce to. -/
theorem verify_transition_coerced {compact : Bytes} {current next : HistoricalPublicKey}
    {expected : ExpectedKeyTransition} (coerced : Bounds.coerce expected.bounds = some bounds) :
    KeyTransitionCodec.verify otp compact current next { expected with bounds } =
      KeyTransitionCodec.verify otp compact current next expected := by
  simp only [KeyTransitionCodec.verify, coerced, Bounds.coerce_toLimits, Option.bind_eq_bind,
    Option.bind_some]
  rfl

theorem verify_anchor_coerced {compact : Bytes} {key : HistoricalPublicKey}
    {expected : ExpectedAnchor} (coerced : Bounds.coerce expected.bounds = some bounds) :
    BoundaryAnchorCodec.verify otp compact key { expected with bounds } =
      BoundaryAnchorCodec.verify otp compact key expected := by
  simp only [BoundaryAnchorCodec.verify, coerced, Bounds.coerce_toLimits, Option.bind_eq_bind,
    Option.bind_some]
  rfl

/-- What verified transitions say of the keys behind the first. -/
theorem keys_of_verified : ∀ {expected : List ExpectedKeyTransition} {compacts : List Bytes}
    {keys : List HistoricalPublicKey} {current : HistoricalPublicKey},
    VerifiedBetween otp (current :: keys) compacts expected →
    compacts.length = expected.length → keys.length = expected.length →
    (∀ transition ∈ expected, Bounds.coerce transition.bounds = some bounds) →
    (∀ key ∈ keys, ContextValidation.historicalKey key bounds = true ∧
      Jwk.publicKeyThumbprintRaw otp key.publicKey bounds =
        some (Jwk.thumbprintOf otp key.publicKey)) ∧
      thumbprints otp keys = expected.map (·.nextKeyFingerprint)
  | [], compacts, keys, current, _, _, keyCount, _ => by
      obtain rfl := List.eq_nil_of_length_eq_zero keyCount
      simp [thumbprints]
  | transition :: expected, [], keys, current, _, compactCount, _, _ => by cases compactCount
  | transition :: expected, compact :: compacts, [], current, _, _, keyCount, _ => by cases keyCount
  | transition :: expected, compact :: compacts, next :: keys, current, verified, compactCount,
      keyCount, coerced => by
      obtain ⟨coercedHead, coercedTail⟩ := List.forall_mem_cons.mp coerced
      obtain ⟨facts, accepted⟩ := verified.head
      obtain ⟨-, shape, -, parsed, -, -, thumbprint, matched, between, -⟩ :=
        (KeyTransitionCodec.verify_spec coercedHead).mp accepted
      obtain ⟨shapes, fingerprints⟩ := keys_of_verified verified.tail (Nat.succ.inj compactCount)
        (Nat.succ.inj keyCount) coercedTail
      refine ⟨List.forall_mem_cons.mpr ⟨⟨shape, thumbprint⟩, shapes⟩, ?_⟩
      rw [List.map_cons, ← fingerprints, ← matched.nextKeyFingerprint, between.nextFingerprint]
      rfl

/-- The verifier walks the path of the context. -/
theorem verifyTransitions_accepts {endAnchor : ExpectedAnchor} :
    ∀ {expected : List ExpectedKeyTransition} {compacts : List Bytes}
    {keys : List HistoricalPublicKey} {current : HistoricalPublicKey} {keyId fingerprint : Bytes}
    {previousTime : Int} {seen : List Bytes} (count : Nat),
    VerifiedBetween otp (current :: keys) compacts expected →
    compacts.length = expected.length → keys.length = expected.length →
    (∀ transition ∈ expected, Bounds.coerce transition.bounds = some bounds) →
    validateExpectedKeyPathFrom endAnchor expected keyId fingerprint previousTime seen = true →
    ∃ final lastTime,
      verifyTransitions otp bounds compacts keys current expected previousTime count =
        some (final, lastTime, count + expected.length) ∧
      (current :: keys).getLast? = some final ∧ lastTime ≤ endAnchor.anchoredAt
  | [], compacts, keys, current, _, _, previousTime, _, count, _, compactCount, keyCount, _,
      path => by
      obtain rfl := List.eq_nil_of_length_eq_zero compactCount
      obtain rfl := List.eq_nil_of_length_eq_zero keyCount
      simp only [validateExpectedKeyPathFrom, Bool.and_eq_true] at path
      exact ⟨current, previousTime, rfl, rfl, of_decide_eq_true path.2⟩
  | transition :: expected, [], _, _, _, _, _, _, _, _, compactCount, _, _, _ => by
      cases compactCount
  | transition :: expected, compact :: compacts, [], _, _, _, _, _, _, _, _, keyCount, _, _ => by
      cases keyCount
  | transition :: expected, compact :: compacts, next :: keys, current, _, _, previousTime, _,
      count, verified, compactCount, keyCount, coerced, path => by
      simp only [validateExpectedKeyPathFrom, Bool.and_eq_true] at path
      obtain ⟨⟨⟨-, after⟩, -⟩, path⟩ := path
      obtain ⟨coercedHead, coercedTail⟩ := List.forall_mem_cons.mp coerced
      obtain ⟨facts, accepted⟩ := verified.head
      obtain ⟨-, -, -, parsed, -, -, -, matched, -, rfl⟩ :=
        (KeyTransitionCodec.verify_spec coercedHead).mp accepted
      obtain ⟨final, lastTime, walked, last, chronological⟩ :=
        verifyTransitions_accepts (count + 1) verified.tail (Nat.succ.inj compactCount)
          (Nat.succ.inj keyCount) coercedTail path
      refine ⟨final, lastTime, ?_, by rw [List.getLast?_cons_cons, last], chronological⟩
      have time : (KeyTransitionCodec.factsOf parsed).effectiveAt = transition.effectiveAt :=
        matched.effectiveAt
      have total : count + 1 + expected.length = count + (transition :: expected).length := by
        rw [List.length_cons]
        omega
      simp only [verifyTransitions, after, verify_transition_coerced coercedHead, accepted, time,
        walked, total, Option.bind_eq_bind, Option.bind_some, guard_true, Option.pure_def]

/-- The fingerprints on the path are new. -/
theorem fingerprints_of_path {endAnchor : ExpectedAnchor} :
    ∀ {expected : List ExpectedKeyTransition} {keyId fingerprint : Bytes} {previousTime : Int}
    {seen : List Bytes},
    validateExpectedKeyPathFrom endAnchor expected keyId fingerprint previousTime seen = true →
      (expected.map (·.nextKeyFingerprint)).Nodup ∧
        ∀ next ∈ expected.map (·.nextKeyFingerprint), next ∉ seen
  | [], _, _, _, _, _ => by simp
  | transition :: expected, _, _, _, seen, path => by
      simp only [validateExpectedKeyPathFrom, Bool.and_eq_true, Bool.not_eq_true',
        ← Bool.not_eq_true, fingerprintMember_iff] at path
      obtain ⟨⟨-, unseen⟩, path⟩ := path
      obtain ⟨distinct, fresh⟩ := fingerprints_of_path path
      simp only [List.mem_cons, not_or] at fresh
      rw [List.map_cons, List.nodup_cons, List.forall_mem_cons]
      exact ⟨⟨fun again => (fresh _ again).1 rfl, distinct⟩, unseen, fun next h => (fresh next h).2⟩

/-- A path without transitions is checked like any other. -/
theorem validateExpectedKeyPath_eq (startAnchor : ExpectedAnchor)
    (transitions : List ExpectedKeyTransition) (endAnchor : ExpectedAnchor) :
    validateExpectedKeyPath startAnchor transitions endAnchor =
      validateExpectedKeyPathFrom endAnchor transitions startAnchor.keyId startAnchor.keyFingerprint
        startAnchor.anchoredAt [startAnchor.keyFingerprint] := by
  cases transitions <;> rfl

/-! ## The writer -/

theorem validateExpectedTransitions_spec : ∀ {transitions : List ExpectedKeyTransition}
    {count total : Nat}, validateExpectedTransitions otp bounds transitions count = some total →
      (∀ transition ∈ transitions, Bounds.coerce transition.bounds = some bounds) ∧
        total = count + transitions.length
  | [], count, total, h => by
      obtain rfl := Option.some.inj h
      simp
  | transition :: rest, count, total, h => by
      simp only [validateExpectedTransitions, Option.bind_eq_bind, guard_bind_eq_some] at h
      obtain ⟨-, coerced, -, later⟩ := h
      obtain ⟨others, rfl⟩ := validateExpectedTransitions_spec later
      refine ⟨List.forall_mem_cons.mpr ⟨coerced, others⟩, ?_⟩
      rw [List.length_cons]
      omega

theorem parseExpectedTransitions_spec : ∀ {compacts : List Bytes}
    {expected : List ExpectedKeyTransition} {count : Nat} {parsed : List ParsedTransition},
    parseExpectedTransitions otp bounds compacts expected count = some parsed →
      List.Forall₂ (fun compact transition =>
        KeyTransitionCodec.parse otp compact bounds = some transition) compacts parsed ∧
      List.Forall₂ KeyTransitionCodec.Matches parsed expected
  | [], [], _, _, h => by
      obtain rfl := Option.some.inj h
      exact ⟨.nil, .nil⟩
  | [], _ :: _, _, _, h => by cases h
  | _ :: _, [], _, _, h => by cases h
  | compact :: compacts, transition :: expected, count, parsed, h => by
      simp only [parseExpectedTransitions, Option.bind_eq_bind, Option.bind_eq_some_iff,
        guard_eq_some, exists_const, Option.some.injEq, transitionMatches_iff] at h
      obtain ⟨-, first, found, matched, rest, later, rfl⟩ := h
      obtain ⟨compactsRest, expectedRest⟩ := parseExpectedTransitions_spec later
      exact ⟨.cons found compactsRest, .cons matched expectedRest⟩

/-- The facts of an archive with the expected content. -/
def factsOf (expected : ExpectedAnchoredExport) : AnchoredExportFacts where
  version := 1
  chainId := expected.chain.chainId
  firstSequence := expected.chain.firstSequence
  lastSequence := expected.chain.lastSequence
  rowCount := expected.chain.rowCount
  previousHash := expected.chain.previousHash
  lastHash := expected.chain.lastHash
  digest := expected.digest
  startAnchorId := expected.startAnchor.anchorId
  startAnchoredAt := expected.startAnchor.anchoredAt
  startKeyFingerprint := expected.startAnchor.keyFingerprint
  endAnchorId := expected.endAnchor.anchorId
  endAnchoredAt := expected.endAnchor.anchoredAt
  endKeyFingerprint := expected.endAnchor.keyFingerprint
  transitionCount := expected.transitions.length
  verification := .anchoredExport
  trust := .notEvaluated
  authorization := .notEvaluated

/-- **Round trip.**  Under the maximal bounds what the writer encodes is verified under
every key list under which its anchors and transitions are, with the facts of the context. -/
theorem verify_encoded {input : AnchoredExportInput} {expected : ExpectedExport}
    {encoded : EncodedAnchoredExport} {keys : List HistoricalPublicKey} {version : Bytes}
    (maximal : Bounds.coerce expected.bounds = some .maximum)
    (written : encode otp input expected = some encoded)
    (keyCount : keys.length = expected.transitions.length + 1)
    (start : ∀ key ∈ keys.head?,
      (BoundaryAnchorCodec.verify otp input.startAnchor key expected.startAnchor).isSome = true)
    (between : VerifiedBetween otp keys input.transitions expected.transitions)
    (finish : ∀ key ∈ keys.getLast?,
      (BoundaryAnchorCodec.verify otp input.endAnchor key expected.endAnchor).isSome = true)
    (versioned : version ≠ []) (fits : version.length ≤ Bounds.maximum .objectVersionBytes) :
    let context : ExpectedAnchoredExport :=
      ⟨expected.chain, expected.startAnchor, expected.transitions, expected.endAnchor,
        encoded.digest, version, expected.bounds⟩
    verify otp ⟨encoded.chunks, version⟩ ⟨keys⟩ context = some (factsOf context) := by
  intro context
  simp only [encode, maximal, Option.bind_eq_bind, Option.bind_some, Option.bind_eq_some_iff,
    guard_eq_some, exists_const, Prod.exists, Option.some.injEq, anchorMatches_iff] at written
  obtain ⟨_, valid, rowFacts, checked, startParsed, startFound, startMatches, endParsed, endFound,
    endMatches, transitionParsed, transitionsFound, -, path, header, headerWritten, headerFits,
    chunkCount, byteCount, chunksValid, rfl⟩ := written
  have valid' : validateExpectedExport otp ⟨expected.chain, expected.startAnchor,
      expected.transitions, expected.endAnchor, Bounds.maximum⟩ .maximum = some () := valid
  simp only [validateExpectedExport, Option.bind_eq_bind, Option.bind_eq_some_iff, guard_eq_some,
    exists_const, FixedBytes.equal_iff] at valid
  obtain ⟨chainCoerced, startCoerced, endCoerced, chainValid, -, -, total, transitionsValid, few, -,
    startChain, endChain, startSequence, startHash, endSequence, endHash⟩ := valid
  obtain ⟨coerced, rfl⟩ := validateExpectedTransitions_spec transitionsValid
  rw [Nat.zero_add] at few
  obtain ⟨compactsParsed, transitionsMatch⟩ := parseExpectedTransitions_spec transitionsFound
  have parsedCount : transitionParsed.length = expected.transitions.length :=
    transitionsMatch.length_eq
  have compactCount : input.transitions.length = expected.transitions.length :=
    compactsParsed.length_eq.trans parsedCount
  obtain ⟨_, same, accepts, rfl⟩ := ConsumptionChain.check_eq_some.mp checked
  obtain rfl := Option.some.inj ((Bounds.coerce_toLimits .maximum).symm.trans same)
  -- the keys
  rw [validateExpectedKeyPath_eq] at path
  obtain ⟨first, rest, rfl⟩ : ∃ first rest, keys = first :: rest := by
    cases keys with
    | nil => cases keyCount
    | cons first rest => exact ⟨first, rest, rfl⟩
  have restCount : rest.length = expected.transitions.length := Nat.succ.inj keyCount
  obtain ⟨startFacts, startVerified⟩ := Option.isSome_iff_exists.mp (start first rfl)
  obtain ⟨firstShape, -, _, again, firstThumbprint, -, startUnder, rfl⟩ :=
    (BoundaryAnchorCodec.verify_spec startCoerced).mp startVerified
  obtain rfl := Option.some.inj (startFound.symm.trans again)
  obtain ⟨shapes, fingerprints⟩ := keys_of_verified between compactCount restCount coerced
  obtain ⟨final, lastTime, walked, last, chronological⟩ :=
    verifyTransitions_accepts 0 between compactCount restCount coerced path
  obtain ⟨endFacts, endVerified⟩ := Option.isSome_iff_exists.mp (finish final last)
  obtain ⟨-, -, _, again, -, -, -, rfl⟩ :=
    (BoundaryAnchorCodec.verify_spec endCoerced).mp endVerified
  obtain rfl := Option.some.inj (endFound.symm.trans again)
  have keyShapes : validateHistoricalKeyShapes (expected.transitions.length + 1) .maximum
      (first :: rest) 0 = true := by
    refine validateHistoricalKeyShapes_iff.mpr ⟨by rw [List.length_cons]; omega, ?_⟩
    exact List.forall_mem_cons.mpr ⟨firstShape, fun key h => (shapes key h).1⟩
  have keyChain : validateKeyChain otp (expected.transitions.length + 1) .maximum (first :: rest) []
      0 = true := by
    have size : ∀ key, ContextValidation.historicalKey key .maximum = true →
        key.publicKey.length = Bounds.maximum .publicKeyBytes := by
      intro key shape
      simp only [ContextValidation.historicalKey, Bool.and_eq_true, decide_eq_true_eq] at shape
      exact shape.1.1.1.2
    obtain ⟨distinct, fresh⟩ := fingerprints_of_path path
    have head : Jwk.thumbprintOf otp first.publicKey = expected.startAnchor.keyFingerprint := by
      rw [← startUnder.fingerprint, startMatches.keyFingerprint]
    refine validateKeyChain_iff.mpr ⟨List.cons_ne_nil _ _, ?_, ?_, ?_, by simp⟩
    · rw [List.length_cons]
      omega
    · exact List.forall_mem_cons.mpr ⟨⟨size _ firstShape, firstThumbprint⟩,
        fun key h => ⟨size _ (shapes key h).1, (shapes key h).2⟩⟩
    · show (Jwk.thumbprintOf otp first.publicKey :: thumbprints otp rest).Nodup
      rw [fingerprints, head, List.nodup_cons]
      exact ⟨fun again => fresh _ again List.mem_cons_self, distinct⟩
  -- the archive
  obtain ⟨solid, -⟩ := validateChunks_eq_some.mp chunksValid
  have rowCount : expected.chain.rowCount = input.rows.length := accepts.count.symm
  have transitionCount : (headerOf expected.chain transitionParsed.length).transitionCount =
      transitionParsed.length := rfl
  have parsed := parseArchive_buildChunks (length_encode_object headerWritten) headerFits
    (parseHeader_headerMembers chainValid (by rw [parsedCount]; exact few) headerWritten)
    startFound compactsParsed transitionCount (ConsumptionChain.rows_sized accepts.run) rowCount
    endFound
  rw [← parseArchive_chunks solid, parsedCount] at parsed
  rw [parsedCount] at transitionCount
  have versions : validateObjectVersions version version .maximum = true := by
    simp only [validateObjectVersions, Bool.and_eq_true, decide_eq_true_eq, List.length_pos_iff]
    exact ⟨⟨⟨⟨versioned, fits⟩, versioned⟩, fits⟩, trivial⟩
  have headerEqual : headerMatches (headerOf expected.chain expected.transitions.length)
      expected.chain expected.transitions = true := by
    simp [headerMatches, headerOf]
  have digest : (hashChunks otp (buildChunks header input.startAnchor input.transitions input.rows
      input.endAnchor)).length = Bounds.maximum .digestBytes := otp.length_sha256 _
  have digestEqual : FixedBytes.equal (hashChunks otp (buildChunks header input.startAnchor
      input.transitions input.rows input.endAnchor)) (hashChunks otp (buildChunks header
        input.startAnchor input.transitions input.rows input.endAnchor)) = true :=
    FixedBytes.equal_iff.mpr rfl
  have startAt : (BoundaryAnchorCodec.factsOf startParsed).anchoredAt =
      expected.startAnchor.anchoredAt := startMatches.anchoredAt
  have afterLast : chronologicalEnd (BoundaryAnchorCodec.factsOf endParsed).anchoredAt lastTime =
      true := by
    have same :
        (BoundaryAnchorCodec.factsOf endParsed).anchoredAt = expected.endAnchor.anchoredAt :=
      endMatches.anchoredAt
    rw [same]
    exact decide_eq_true chronological
  have boundaries : authenticatedBoundaries (BoundaryAnchorCodec.factsOf startParsed)
      (BoundaryAnchorCodec.factsOf endParsed) expected.chain = true := by
    simp only [authenticatedBoundaries, Bool.and_eq_true, decide_eq_true_eq, FixedBytes.equal_iff]
    exact ⟨⟨⟨⟨⟨startMatches.chainId.trans startChain, endMatches.chainId.trans endChain⟩,
      startMatches.sequence.trans startSequence⟩, startMatches.chainHash.trans startHash⟩,
      endMatches.sequence.trans endSequence⟩, endMatches.chainHash.trans endHash⟩
  simp only [verify, context, maximal, validateExpectedAnchoredExport, valid', digest, keyShapes,
    versions, chunksValid, digestEqual, parsed, headerEqual, anchorMatches_iff.mpr startMatches,
    anchorMatches_iff.mpr endMatches, compareParsedTransitions_iff.mpr transitionsMatch,
    validateExpectedKeyPath_eq, path, transitionCount, keyChain, takeFirstKey,
    verify_anchor_coerced startCoerced, startVerified, startAt, walked,
    verify_anchor_coerced endCoerced, endVerified, afterLast, checked, boundaries,
    Option.bind_eq_bind, Option.bind_some, guard_true, Option.pure_def, Nat.zero_add]
  simp only [factsOf, BoundaryAnchorCodec.factsOf, startMatches.anchorId,
    startMatches.keyFingerprint, endMatches.anchorId, endMatches.anchoredAt,
    endMatches.keyFingerprint]

/-- The sample archive is encoded and verified. -/
theorem verify_encoded_sample :
    ∃ encoded, encode Sample.platform Sample.input Sample.expectedExport = some encoded ∧
      let context : ExpectedAnchoredExport :=
        ⟨Sample.chain, Sample.startAnchor, [Sample.transition], Sample.endAnchor, encoded.digest,
          ascii "1", []⟩
      verify Sample.platform ⟨encoded.chunks, ascii "1"⟩ Sample.keys context =
        some (factsOf context) := by
  obtain ⟨encoded, written⟩ := Option.isSome_iff_exists.mp
    (show (encode Sample.platform Sample.input Sample.expectedExport).isSome =
      true by decide +kernel)
  have start : (BoundaryAnchorCodec.verify Sample.platform Sample.input.startAnchor Sample.firstKey
      Sample.startAnchor).isSome = true := by decide +kernel
  have handover : (KeyTransitionCodec.verify Sample.platform
      (Sample.transitionMessage ++ ascii "." ++ Base64.encode Sample.transitionSignature)
      Sample.firstKey Sample.secondKey Sample.transition).isSome = true := by decide +kernel
  have finish : (BoundaryAnchorCodec.verify Sample.platform Sample.input.endAnchor Sample.secondKey
      Sample.endAnchor).isSome = true := by decide +kernel
  have between : VerifiedBetween Sample.platform [Sample.firstKey, Sample.secondKey]
      [Sample.transitionMessage ++ ascii "." ++ Base64.encode Sample.transitionSignature]
      [Sample.transition] := by
    rintro (_ | i) compact before after transition found earlier later known
    · obtain rfl := Option.some.inj found
      obtain rfl := Option.some.inj earlier
      obtain rfl := Option.some.inj later
      obtain rfl := Option.some.inj known
      exact handover
    · cases found
  exact ⟨encoded, written, @verify_encoded Sample.platform Sample.input Sample.expectedExport
    encoded [Sample.firstKey, Sample.secondKey] (ascii "1") Bounds.coerce_nil written rfl
    (by rintro _ ⟨⟩; exact start) between (by rintro _ ⟨⟩; exact finish) (by decide) (by decide)⟩

example : (verify Sample.platform ⟨[ascii "x"], ascii "1"⟩ Sample.keys Sample.expected).isSome =
    false := by
  decide +kernel

end BoundedAuthority.V1.AnchoredExportCodec
