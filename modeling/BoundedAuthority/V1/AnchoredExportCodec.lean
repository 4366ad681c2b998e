import BoundedAuthority.V1.ConsumptionChain
import BoundedAuthority.V1.KeyTransitionCodec
import BoundedAuthority.Wire.Framing

/-!
# Anchored exports

`lib/bounded_authority_protocol/v1/anchored_export_codec.ex`.

An archive is a prefix and then frames: a header, the start anchor, the key
transitions, the rows and the end anchor.  `frame/1` and `read_frame/2` are those of
`Wire.Framing`.  The reader takes its bytes from a cursor over the chunks of the
stored object; here it is written over any source, and `Cursor.source` is the one of
the code.

An accumulator that is reversed at the end is a list in order.  A list that no clause
matches is a failure.
-/

namespace BoundedAuthority.V1

open Wire JsonValue

/-- `%AnchoredExportInput{}` -/
structure AnchoredExportInput where
  rows : List Bytes
  startAnchor : Bytes
  transitions : List Bytes
  endAnchor : Bytes

/-- `%ExpectedExport{}` -/
structure ExpectedExport where
  chain : ExpectedChain
  startAnchor : ExpectedAnchor
  transitions : List ExpectedKeyTransition
  endAnchor : ExpectedAnchor
  bounds : Limits

/-- `%EncodedAnchoredExport{}` -/
structure EncodedAnchoredExport where
  chunks : List Bytes
  digest : Bytes
  byteCount : Nat
deriving DecidableEq

/-- `%ArchivedObject{}` -/
structure ArchivedObject where
  chunks : List Bytes
  version : Bytes

/-- `%HistoricalKeyChain{}` -/
structure HistoricalKeyChain where
  keys : List HistoricalPublicKey

/-- `%ExpectedAnchoredExport{}` -/
structure ExpectedAnchoredExport where
  chain : ExpectedChain
  startAnchor : ExpectedAnchor
  transitions : List ExpectedKeyTransition
  endAnchor : ExpectedAnchor
  digest : Bytes
  objectVersion : Bytes
  bounds : Limits

/-- `%AnchoredExportFacts{}` -/
structure AnchoredExportFacts where
  version : Nat
  chainId : Bytes
  firstSequence : Int
  lastSequence : Int
  rowCount : Int
  previousHash : Bytes
  lastHash : Bytes
  digest : Bytes
  startAnchorId : Bytes
  startAnchoredAt : Int
  startKeyFingerprint : Bytes
  endAnchorId : Bytes
  endAnchoredAt : Int
  endKeyFingerprint : Bytes
  transitionCount : Nat
  verification : Verification
  trust : Trust
  authorization : Trust
deriving DecidableEq

/-- The chunk that is read and the chunks behind it. -/
abbrev Cursor := Bytes × List Bytes

namespace Cursor

/-- `read_exact/3`.  A step takes a chunk off the list or uses up the current one. -/
def readExactLoop : (fuel : Nat) → Cursor → (count : Nat) → (accumulator : List Bytes) →
    Option (Bytes × Cursor)
  | 0, _, _, _ => none
  | fuel + 1, ([], (byte :: next) :: rest), count, accumulator =>
      readExactLoop fuel (byte :: next, rest) count accumulator
  | fuel + 1, (current, rest), count, accumulator =>
      if count ≤ current.length then
        some ((current.take count :: accumulator).reverse.flatten, (current.drop count, rest))
      else if 0 < current.length then
        readExactLoop fuel ([], rest) (count - current.length) (current :: accumulator)
      else none

/-- The steps a read can take. -/
def fuel (state : Cursor) : Nat := 2 * state.2.length + 2

/-- `read_exact/2` -/
def readExact (state : Cursor) (count : Nat) : Option (Bytes × Cursor) :=
  readExactLoop (fuel state) state count []

/-- `eof?/1` -/
def eof : Cursor → Bool
  | ([], []) => true
  | _ => false

/-- The source the archive is read from. -/
def source : Source Cursor := ⟨readExact, eof⟩

end Cursor

/-- The map `parse_header/2` returns. -/
structure ArchiveHeader where
  chainId : Bytes
  firstSequence : Int
  lastSequence : Int
  rowCount : Int
  transitionCount : Int
  previousHash : Bytes
  lastHash : Bytes
deriving DecidableEq

/-- The map `parse_archive/2` returns. -/
structure ParsedArchive where
  header : ArchiveHeader
  startAnchor : Bytes
  startAnchorParsed : ParsedAnchor
  transitions : List Bytes
  transitionParsed : List ParsedTransition
  rows : List Bytes
  endAnchor : Bytes
  endAnchorParsed : ParsedAnchor
deriving DecidableEq

namespace AnchoredExportCodec

/-- `@prefix` -/
def archivePrefix : Bytes := ascii "BAP1-ARCHIVE" ++ [0] ++ ascii "EXPORT" ++ [0]

/-- `@header_keys` -/
def headerKeys : List Bytes :=
  [ascii "chain_id", ascii "first_sequence", ascii "last_hash", ascii "last_sequence",
    ascii "previous_hash", ascii "row_count", ascii "transition_count", ascii "v"]

variable (otp : Otp)

/-! ## Small checks -/

/-- `fingerprint_member?/2` -/
def fingerprintMember (fingerprint : Bytes) (seen : List Bytes) : Bool :=
  seen.any fun candidate => FixedBytes.equal fingerprint candidate

/-- `current_key_matches?/4` -/
def currentKeyMatches (leftId leftFingerprint rightId rightFingerprint : Bytes) : Bool :=
  leftId = rightId && FixedBytes.equal leftFingerprint rightFingerprint

/-- `strictly_after?/2` -/
def strictlyAfter (value previous : Int) : Bool := previous < value

/-- `chronological_end?/2` -/
def chronologicalEnd (value previous : Int) : Bool := previous ≤ value

/-- `anchor_matches?/2` -/
def anchorMatches (parsed : ParsedAnchor) (expected : ExpectedAnchor) : Bool :=
  parsed.anchorId = expected.anchorId && parsed.anchoredAt = expected.anchoredAt &&
    parsed.chainId = expected.chainId && parsed.sequence = expected.sequence &&
    parsed.keyId = expected.keyId && FixedBytes.equal parsed.chainHash expected.chainHash &&
    FixedBytes.equal parsed.keyFingerprint expected.keyFingerprint

/-- `transition_matches?/2` -/
def transitionMatches (parsed : ParsedTransition) (expected : ExpectedKeyTransition) : Bool :=
  parsed.transitionId = expected.transitionId && parsed.chainId = expected.chainId &&
    parsed.effectiveAt = expected.effectiveAt &&
    currentKeyMatches parsed.currentKeyId parsed.currentKeyFingerprint expected.currentKeyId
      expected.currentKeyFingerprint &&
    parsed.nextKeyId = expected.nextKeyId &&
    FixedBytes.equal parsed.nextKeyFingerprint expected.nextKeyFingerprint

/-- `valid_header_range?/4` -/
def validHeaderRange (firstSequence lastSequence rowCount : Int) (bounds : Bounds) : Bool :=
  0 < firstSequence && firstSequence ≤ bounds .integerMagnitude && firstSequence ≤ lastSequence &&
    lastSequence ≤ bounds .integerMagnitude && 0 < rowCount && rowCount ≤ bounds .chainRows &&
    rowCount = lastSequence - firstSequence + 1

/-- `header_matches?/3` -/
def headerMatches (header : ArchiveHeader) (chain : ExpectedChain)
    (transitions : List ExpectedKeyTransition) : Bool :=
  header.chainId = chain.chainId && header.firstSequence = chain.firstSequence &&
    header.lastSequence = chain.lastSequence && header.rowCount = chain.rowCount &&
    header.transitionCount = transitions.length &&
    FixedBytes.equal header.previousHash chain.previousHash &&
    FixedBytes.equal header.lastHash chain.lastHash

/-- `authenticated_boundaries?/3` -/
def authenticatedBoundaries (startFacts endFacts : AnchorFacts) (chain : ExpectedChain) : Bool :=
  startFacts.chainId = chain.chainId && endFacts.chainId = chain.chainId &&
    startFacts.sequence = chain.firstSequence - 1 &&
    FixedBytes.equal startFacts.chainHash chain.previousHash &&
    endFacts.sequence = chain.lastSequence && FixedBytes.equal endFacts.chainHash chain.lastHash

/-- `validate_object_versions/3` -/
def validateObjectVersions (observed expected : Bytes) (bounds : Bounds) : Bool :=
  0 < observed.length && observed.length ≤ bounds .objectVersionBytes && 0 < expected.length &&
    expected.length ≤ bounds .objectVersionBytes && observed = expected

/-! ## Context -/

/-- `validate_expected_transitions/3` -/
def validateExpectedTransitions (bounds : Bounds) : List ExpectedKeyTransition → (count : Nat) →
    Option Nat
  | [], count => some count
  | transition :: rest, count => do
      guard (count < bounds .keyTransitions)
      guard (Bounds.coerce transition.bounds = some bounds)
      guard (ContextValidation.expectedTransition otp transition bounds)
      validateExpectedTransitions bounds rest (count + 1)

/-- `transitions_match_chain?/2` -/
def transitionsMatchChain (transitions : List ExpectedKeyTransition) (chainId : Bytes) : Bool :=
  transitions.all fun transition => transition.chainId = chainId

/-- `validate_expected_export/2` -/
def validateExpectedExport (expected : ExpectedExport) (bounds : Bounds) : Option Unit := do
  guard (Bounds.coerce expected.chain.bounds = some bounds)
  guard (Bounds.coerce expected.startAnchor.bounds = some bounds)
  guard (Bounds.coerce expected.endAnchor.bounds = some bounds)
  guard (ContextValidation.expectedChain otp expected.chain bounds)
  guard (ContextValidation.expectedAnchor otp expected.startAnchor bounds)
  guard (ContextValidation.expectedAnchor otp expected.endAnchor bounds)
  let transitionCount ← validateExpectedTransitions otp bounds expected.transitions 0
  guard (transitionCount ≤ bounds .keyTransitions)
  guard (transitionsMatchChain expected.transitions expected.chain.chainId)
  guard (expected.startAnchor.chainId = expected.chain.chainId)
  guard (expected.endAnchor.chainId = expected.chain.chainId)
  guard (expected.startAnchor.sequence = expected.chain.firstSequence - 1)
  guard (FixedBytes.equal expected.startAnchor.chainHash expected.chain.previousHash)
  guard (expected.endAnchor.sequence = expected.chain.lastSequence)
  guard (FixedBytes.equal expected.endAnchor.chainHash expected.chain.lastHash)

/-- `validate_expected_anchored_export/2` -/
def validateExpectedAnchoredExport (expected : ExpectedAnchoredExport) (bounds : Bounds) :
    Option Unit := do
  validateExpectedExport otp
    ⟨expected.chain, expected.startAnchor, expected.transitions, expected.endAnchor, bounds⟩ bounds
  guard (expected.digest.length = bounds .digestBytes)

/-- `validate_expected_key_path/6` -/
def validateExpectedKeyPathFrom (endAnchor : ExpectedAnchor) : List ExpectedKeyTransition →
    (currentKeyId currentFingerprint : Bytes) → (previousTime : Int) → (seen : List Bytes) → Bool
  | [], currentKeyId, currentFingerprint, previousTime, _ =>
      currentKeyId = endAnchor.keyId &&
        FixedBytes.equal currentFingerprint endAnchor.keyFingerprint &&
        chronologicalEnd endAnchor.anchoredAt previousTime
  | transition :: rest, currentKeyId, currentFingerprint, previousTime, seen =>
      currentKeyMatches transition.currentKeyId transition.currentKeyFingerprint currentKeyId
          currentFingerprint &&
        strictlyAfter transition.effectiveAt previousTime &&
        !fingerprintMember transition.nextKeyFingerprint seen &&
        validateExpectedKeyPathFrom endAnchor rest transition.nextKeyId
          transition.nextKeyFingerprint transition.effectiveAt
          (transition.nextKeyFingerprint :: seen)

/-- `validate_expected_key_path/3` -/
def validateExpectedKeyPath (startAnchor : ExpectedAnchor) :
    List ExpectedKeyTransition → (endAnchor : ExpectedAnchor) → Bool
  | [], endAnchor =>
      startAnchor.keyId = endAnchor.keyId &&
        FixedBytes.equal startAnchor.keyFingerprint endAnchor.keyFingerprint &&
        chronologicalEnd endAnchor.anchoredAt startAnchor.anchoredAt
  | transitions, endAnchor =>
      validateExpectedKeyPathFrom endAnchor transitions startAnchor.keyId
        startAnchor.keyFingerprint startAnchor.anchoredAt [startAnchor.keyFingerprint]

/-! ## Keys -/

/-- `validate_historical_key_shapes/4` -/
def validateHistoricalKeyShapes (expectedCount : Nat) (bounds : Bounds) :
    List HistoricalPublicKey → (count : Nat) → Bool
  | [], count => expectedCount = count
  | key :: rest, count =>
      count < expectedCount && ContextValidation.historicalKey key bounds &&
        validateHistoricalKeyShapes expectedCount bounds rest (count + 1)

/-- `validate_key_chain/5` and `validate_key_chain_tail/5`: the tail stops at the
expected count. -/
def validateKeyChain (expectedCount : Int) (bounds : Bounds) :
    List HistoricalPublicKey → (seen : List Bytes) → (count : Nat) → Bool
  | [], _, _ => false
  | key :: rest, seen, count =>
      count < expectedCount && key.publicKey.length = bounds .publicKeyBytes &&
        match Jwk.publicKeyThumbprintRaw otp key.publicKey bounds with
        | none => false
        | some fingerprint =>
            !fingerprintMember fingerprint seen &&
              (rest.isEmpty && ((count + 1 : Nat) : Int) = expectedCount ||
                validateKeyChain expectedCount bounds rest (fingerprint :: seen) (count + 1))

/-- `take_first_key/1` -/
def takeFirstKey : List HistoricalPublicKey →
    Option (HistoricalPublicKey × List HistoricalPublicKey)
  | first :: rest => some (first, rest)
  | [] => none

/-- `verify_transitions/7` -/
def verifyTransitions (bounds : Bounds) : (compacts : List Bytes) → List HistoricalPublicKey →
    (currentKey : HistoricalPublicKey) → List ExpectedKeyTransition → (previousTime : Int) →
      (count : Nat) → Option (HistoricalPublicKey × Int × Nat)
  | [], [], currentKey, [], previousTime, count => some (currentKey, previousTime, count)
  | compact :: compactRest, nextKey :: keyRest, currentKey, expected :: expectedRest, previousTime,
      count => do
      guard (strictlyAfter expected.effectiveAt previousTime)
      let facts ← KeyTransitionCodec.verify otp compact currentKey nextKey { expected with bounds }
      verifyTransitions bounds compactRest keyRest nextKey expectedRest facts.effectiveAt
        (count + 1)
  | _, _, _, _, _, _ => none

/-! ## Chunks -/

/-- `validate_chunks/4` -/
def validateChunks (bounds : Bounds) : List Bytes → (count bytes : Nat) → Option (Nat × Nat)
  | [], 0, _ => none
  | [], count, bytes => some (count, bytes)
  | chunk :: rest, count, bytes => do
      guard (0 < chunk.length ∧ count < bounds .archiveChunks ∧
        bytes + chunk.length ≤ bounds .archiveBytes)
      validateChunks bounds rest (count + 1) (bytes + chunk.length)

/-- `hash_chunks/1`; the updates of one context are the hash of the chunks in a row. -/
def hashChunks (chunks : List Bytes) : Bytes := otp.sha256 chunks.flatten

/-! ## The writer -/

/-- `parse_expected_transitions/5` -/
def parseExpectedTransitions (bounds : Bounds) : List Bytes → List ExpectedKeyTransition →
    (count : Nat) → Option (List ParsedTransition)
  | [], [], _ => some []
  | compact :: rest, expected :: expectedRest, count => do
      guard (count < bounds .keyTransitions)
      let parsed ← KeyTransitionCodec.parse otp compact bounds
      guard (transitionMatches parsed expected)
      let later ← parseExpectedTransitions bounds rest expectedRest (count + 1)
      some (parsed :: later)
  | _, _, _ => none

/-- `canonical_signatures/1` -/
def canonicalSignatures (signatures : List Bytes) : Bool := signatures.all Ed25519.signatureGate

/-- `header_json/2` -/
def headerMembers (chain : ExpectedChain) (transitionCount : Nat) : List (Bytes × JsonValue) :=
  [(ascii "chain_id", string chain.chainId),
    (ascii "first_sequence", integer chain.firstSequence),
    (ascii "last_hash", string (Base64.encode chain.lastHash)),
    (ascii "last_sequence", integer chain.lastSequence),
    (ascii "previous_hash", string (Base64.encode chain.previousHash)),
    (ascii "row_count", integer chain.rowCount),
    (ascii "transition_count", integer transitionCount),
    (ascii "v", integer 1)]

/-- `build_chunks/6` -/
def buildChunks (header startAnchor : Bytes) (transitions rows : List Bytes) (endAnchor : Bytes) :
    List Bytes :=
  [archivePrefix, frame header, frame startAnchor] ++ transitions.map frame ++ rows.map frame ++
    [frame endAnchor]

/-- `encode/2` -/
def encode (input : AnchoredExportInput) (expected : ExpectedExport) :
    Option EncodedAnchoredExport := do
  let bounds ← Bounds.coerce expected.bounds
  validateExpectedExport otp expected bounds
  let _ ← ConsumptionChain.check otp ⟨input.rows⟩ { expected.chain with bounds }
  let startParsed ← BoundaryAnchorCodec.parse otp input.startAnchor bounds
  guard (anchorMatches startParsed expected.startAnchor)
  let endParsed ← BoundaryAnchorCodec.parse otp input.endAnchor bounds
  guard (anchorMatches endParsed expected.endAnchor)
  let transitionParsed ← parseExpectedTransitions otp bounds input.transitions expected.transitions
    0
  guard (canonicalSignatures
    (startParsed.signature :: endParsed.signature :: transitionParsed.map (·.signature)))
  guard (validateExpectedKeyPath expected.startAnchor expected.transitions expected.endAnchor)
  let header ← Jcs.encode (object (headerMembers expected.chain transitionParsed.length)) bounds
  guard (header.length ≤ bounds .archiveHeaderBytes)
  let chunks := buildChunks header input.startAnchor input.transitions input.rows input.endAnchor
  let (_, byteCount) ← validateChunks bounds chunks 0 0
  some ⟨chunks, hashChunks otp chunks, byteCount⟩

/-! ## The reader -/

/-- `parse_header/2` -/
def parseHeader (bytes : Bytes) (bounds : Bounds) : Option ArchiveHeader := do
  let header ← openObject bytes headerKeys bounds
  guard (ClosedMap.integer header (ascii "v") = some 1)
  let chainId ← ClosedMap.string header (ascii "chain_id")
  let firstSequence ← ClosedMap.integer header (ascii "first_sequence")
  let lastSequence ← ClosedMap.integer header (ascii "last_sequence")
  let rowCount ← ClosedMap.integer header (ascii "row_count")
  let transitionCount ← ClosedMap.integer header (ascii "transition_count")
  let previousHash ← ClosedMap.digest header (ascii "previous_hash") bounds
  let lastHash ← ClosedMap.digest header (ascii "last_hash") bounds
  guard (validHeaderRange firstSequence lastSequence rowCount bounds)
  guard (0 ≤ transitionCount ∧ transitionCount ≤ bounds .keyTransitions)
  guard (previousHash.length = bounds .digestBytes)
  guard (lastHash.length = bounds .digestBytes)
  some ⟨chainId, firstSequence, lastSequence, rowCount, transitionCount, previousHash, lastHash⟩

section Reader

variable {σ : Type} (source : Source σ)

/-- `read_transition_frames/5` -/
def readTransitionFrames (bounds : Bounds) : (remaining : Nat) → σ →
    Option ((List Bytes × List ParsedTransition) × σ)
  | 0, state => some (([], []), state)
  | remaining + 1, state => do
      let (compact, nextState) ← readFrame source state (bounds .anchorBytes)
      let transition ← KeyTransitionCodec.parse otp compact bounds
      let ((compacts, parsed), final) ← readTransitionFrames bounds remaining nextState
      some ((compact :: compacts, transition :: parsed), final)

/-- `read_row_frames/4` -/
def readRowFrames (bounds : Bounds) : (remaining : Nat) → σ → Option (List Bytes × σ)
  | 0, state => some ([], state)
  | remaining + 1, state => do
      let (row, nextState) ← readFrame source state (bounds .chainRowBytes)
      let (rows, final) ← readRowFrames bounds remaining nextState
      some (row :: rows, final)

/-- `parse_archive/2` -/
def parseArchive (state : σ) (bounds : Bounds) : Option ParsedArchive := do
  let (start, state) ← source.readExact state archivePrefix.length
  guard (start = archivePrefix)
  let (headerBytes, state) ← readFrame source state (bounds .archiveHeaderBytes)
  let header ← parseHeader headerBytes bounds
  let (startAnchor, state) ← readFrame source state (bounds .anchorBytes)
  let startAnchorParsed ← BoundaryAnchorCodec.parse otp startAnchor bounds
  let ((transitions, transitionParsed), state) ←
    readTransitionFrames otp source bounds header.transitionCount.toNat state
  let (rows, state) ← readRowFrames source bounds header.rowCount.toNat state
  let (endAnchor, state) ← readFrame source state (bounds .anchorBytes)
  let endAnchorParsed ← BoundaryAnchorCodec.parse otp endAnchor bounds
  guard (source.eof state)
  some
    { header, startAnchor, startAnchorParsed, transitions, transitionParsed, rows, endAnchor,
      endAnchorParsed }

end Reader

/-- `compare_parsed_transitions/3` -/
def compareParsedTransitions : List ParsedTransition → List ExpectedKeyTransition → Bool
  | [], [] => true
  | parsed :: rest, expected :: expectedRest =>
      transitionMatches parsed expected && compareParsedTransitions rest expectedRest
  | _, _ => false

/-- `verify/3` -/
def verify (archived : ArchivedObject) (keyChain : HistoricalKeyChain)
    (expected : ExpectedAnchoredExport) : Option AnchoredExportFacts := do
  let bounds ← Bounds.coerce expected.bounds
  validateExpectedAnchoredExport otp expected bounds
  guard (validateHistoricalKeyShapes (expected.transitions.length + 1) bounds keyChain.keys 0)
  guard (validateObjectVersions archived.version expected.objectVersion bounds)
  let _ ← validateChunks bounds archived.chunks 0 0
  let digest := hashChunks otp archived.chunks
  guard (FixedBytes.equal digest expected.digest)
  let parsed ← parseArchive otp Cursor.source ([], archived.chunks) bounds
  guard (headerMatches parsed.header expected.chain expected.transitions)
  guard (anchorMatches parsed.startAnchorParsed expected.startAnchor)
  guard (anchorMatches parsed.endAnchorParsed expected.endAnchor)
  guard (compareParsedTransitions parsed.transitionParsed expected.transitions)
  guard (validateExpectedKeyPath expected.startAnchor expected.transitions expected.endAnchor)
  guard (validateKeyChain otp (parsed.header.transitionCount + 1) bounds keyChain.keys [] 0)
  let (startKey, remainingKeys) ← takeFirstKey keyChain.keys
  let startFacts ←
    BoundaryAnchorCodec.verify otp parsed.startAnchor startKey { expected.startAnchor with bounds }
  let (endKey, lastTransitionAt, transitionCount) ←
    verifyTransitions otp bounds parsed.transitions remainingKeys startKey expected.transitions
      startFacts.anchoredAt 0
  let endFacts ←
    BoundaryAnchorCodec.verify otp parsed.endAnchor endKey { expected.endAnchor with bounds }
  guard (chronologicalEnd endFacts.anchoredAt lastTransitionAt)
  let _ ← ConsumptionChain.check otp ⟨parsed.rows⟩ { expected.chain with bounds }
  guard (authenticatedBoundaries startFacts endFacts expected.chain)
  some
    { version := 1
      chainId := expected.chain.chainId
      firstSequence := expected.chain.firstSequence
      lastSequence := expected.chain.lastSequence
      rowCount := expected.chain.rowCount
      previousHash := expected.chain.previousHash
      lastHash := expected.chain.lastHash
      digest
      startAnchorId := startFacts.anchorId
      startAnchoredAt := startFacts.anchoredAt
      startKeyFingerprint := startFacts.keyFingerprint
      endAnchorId := endFacts.anchorId
      endAnchoredAt := endFacts.anchoredAt
      endKeyFingerprint := endFacts.keyFingerprint
      transitionCount
      verification := .anchoredExport
      trust := .notEvaluated
      authorization := .notEvaluated }

end AnchoredExportCodec

end BoundedAuthority.V1
