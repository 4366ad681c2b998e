import BoundedAuthority.V1.Bounds
import BoundedAuthority.V1.Ed25519
import BoundedAuthority.V1.StringOrUri

/-!
# Caller-supplied context

`lib/bounded_authority_protocol/v1/context_validation.ex` and the records it
checks.  The codecs of the archive hold copies of the field checks; here each
check is defined once.
-/

namespace BoundedAuthority.V1

open Wire

/-- `%ExpectedChain{}` -/
structure ExpectedChain where
  chainId : Bytes
  firstSequence : Int
  lastSequence : Int
  rowCount : Int
  previousHash : Bytes
  lastHash : Bytes
  bounds : Limits
deriving DecidableEq

/-- `%ExpectedAnchor{}` -/
structure ExpectedAnchor where
  anchorId : Bytes
  anchoredAt : Int
  chainId : Bytes
  sequence : Int
  chainHash : Bytes
  keyId : Bytes
  keyFingerprint : Bytes
  bounds : Limits
deriving DecidableEq

/-- `%ExpectedKeyTransition{}` -/
structure ExpectedKeyTransition where
  transitionId : Bytes
  chainId : Bytes
  effectiveAt : Int
  currentKeyId : Bytes
  currentKeyFingerprint : Bytes
  nextKeyId : Bytes
  nextKeyFingerprint : Bytes
  bounds : Limits
deriving DecidableEq

/-- `%HistoricalPublicKey{}`; `valid_before` is `none` for `:unbounded`. -/
structure HistoricalPublicKey where
  keyId : Bytes
  publicKey : Bytes
  validFrom : Int
  validBefore : Option Int
deriving DecidableEq

/-- The `verification` of the facts a codec returns. -/
inductive Verification
  | boundaryConsistent | signatureAndWindow | authenticatedTransition | anchoredExport
deriving DecidableEq

/-- The `trust` and `authorization` of the facts a codec returns. -/
inductive Trust
  | notEvaluated
deriving DecidableEq

/-! ## Fields -/

/-- `fixed_digest?/2` -/
def fixedDigest (value : Bytes) (bounds : Bounds) : Bool := value.length = bounds .digestBytes

/-- `valid_positive_sequence?/2`, also called `valid_sequence?/2` -/
def validPositiveSequence (value : Int) (bounds : Bounds) : Bool :=
  0 < value && value ≤ bounds .integerMagnitude

/-- `valid_anchor_sequence?/2` -/
def validAnchorSequence (value : Int) (bounds : Bounds) : Bool :=
  0 ≤ value && value ≤ bounds .integerMagnitude

/-- `valid_time?/2` -/
def validTime (value : Int) (bounds : Bounds) : Bool :=
  -(bounds .integerMagnitude : Int) ≤ value && value ≤ bounds .integerMagnitude

/-- `ascii_key_id?/1` -/
def asciiKeyId (value : Bytes) : Bool :=
  value.all fun byte => isAlnum byte || (ascii "-._~").contains byte

/-- `valid_key_id?/2` -/
def validKeyId (value : Bytes) (bounds : Bounds) : Bool :=
  1 ≤ value.length && value.length ≤ bounds .kidBytes && asciiKeyId value

/-- `valid_identifier?/2` -/
def validIdentifier (otp : Otp) (value : Bytes) (bounds : Bounds) : Bool :=
  1 ≤ value.length && value.length ≤ bounds .identifierBytes && Utf8.valid value &&
    StringOrUri.valid otp value

/-- `inside_window?/2` -/
def insideWindow (time : Int) (key : HistoricalPublicKey) : Bool :=
  key.validFrom ≤ time &&
    match key.validBefore with
    | none => true
    | some validBefore => time < validBefore

namespace ContextValidation

/-- `valid_before?/3` -/
def validBefore (value : Option Int) (validFrom : Int) (bounds : Bounds) : Bool :=
  match value with
  | none => true
  | some value => validTime value bounds && validFrom < value

/-- `valid_chain_range?/2` -/
def validChainRange (expected : ExpectedChain) (bounds : Bounds) : Bool :=
  validPositiveSequence expected.firstSequence bounds &&
    validPositiveSequence expected.lastSequence bounds &&
    expected.firstSequence ≤ expected.lastSequence

/-- `valid_chain_count?/2` -/
def validChainCount (expected : ExpectedChain) (bounds : Bounds) : Bool :=
  0 < expected.rowCount && expected.rowCount ≤ bounds .chainRows &&
    expected.rowCount = expected.lastSequence - expected.firstSequence + 1

/-- `valid_chain_hashes?/2` -/
def validChainHashes (expected : ExpectedChain) (bounds : Bounds) : Bool :=
  fixedDigest expected.previousHash bounds && fixedDigest expected.lastHash bounds &&
    (expected.firstSequence ≠ 1 || FixedBytes.equal expected.previousHash zeroHash)

/-- `expected_chain/2` -/
def expectedChain (otp : Otp) (expected : ExpectedChain) (bounds : Bounds) : Bool :=
  validIdentifier otp expected.chainId bounds && validChainRange expected bounds &&
    validChainCount expected bounds && validChainHashes expected bounds

/-- `valid_anchor_identity?/2` -/
def validAnchorIdentity (otp : Otp) (expected : ExpectedAnchor) (bounds : Bounds) : Bool :=
  validIdentifier otp expected.anchorId bounds && validTime expected.anchoredAt bounds &&
    validIdentifier otp expected.chainId bounds && validKeyId expected.keyId bounds

/-- `valid_anchor_binding?/2` -/
def validAnchorBinding (expected : ExpectedAnchor) (bounds : Bounds) : Bool :=
  validAnchorSequence expected.sequence bounds && fixedDigest expected.chainHash bounds &&
    fixedDigest expected.keyFingerprint bounds &&
    (expected.sequence ≠ 0 || FixedBytes.equal expected.chainHash zeroHash)

/-- `expected_anchor/2` -/
def expectedAnchor (otp : Otp) (expected : ExpectedAnchor) (bounds : Bounds) : Bool :=
  validAnchorIdentity otp expected bounds && validAnchorBinding expected bounds

/-- `distinct_fingerprints/3` -/
def distinctFingerprints (current next : Bytes) (bounds : Bounds) : Bool :=
  fixedDigest current bounds && fixedDigest next bounds && !FixedBytes.equal current next

/-- `expected_transition/2` -/
def expectedTransition (otp : Otp) (expected : ExpectedKeyTransition) (bounds : Bounds) : Bool :=
  validIdentifier otp expected.transitionId bounds && validIdentifier otp expected.chainId bounds &&
    validTime expected.effectiveAt bounds && validKeyId expected.currentKeyId bounds &&
    validKeyId expected.nextKeyId bounds &&
    distinctFingerprints expected.currentKeyFingerprint expected.nextKeyFingerprint bounds

/-- `historical_key/2` -/
def historicalKey (key : HistoricalPublicKey) (bounds : Bounds) : Bool :=
  validKeyId key.keyId bounds && key.publicKey.length = bounds .publicKeyBytes &&
    Ed25519.acceptablePublicKey key.publicKey && validTime key.validFrom bounds &&
    validBefore key.validBefore key.validFrom bounds

end ContextValidation

end BoundedAuthority.V1
