import BoundedAuthority.V1.Base64Url
import BoundedAuthority.V1.ClosedMap
import BoundedAuthority.V1.ContextValidation
import BoundedAuthority.Wire.Linked

/-!
# The consumption chain

`lib/bounded_authority_protocol/v1/consumption_chain.ex`.

A row is the canonical JSON of an entry.  It names the hash of the row before, and
its own hash is over its bytes behind a domain tag.
-/

namespace BoundedAuthority.V1

open Wire JsonValue

/-- `%ConsumptionEntry{}` -/
structure ConsumptionEntry where
  chainId : Bytes
  sequence : Int
  previousHash : Bytes
  commitment : Bytes
deriving DecidableEq

/-- `%EncodedConsumptionEntry{}` -/
structure EncodedConsumptionEntry where
  bytes : Bytes
  hash : Bytes
deriving DecidableEq

/-- `%ChainInput{}` -/
structure ChainInput where
  rows : List Bytes

/-- `%ChainFacts{}` -/
structure ChainFacts where
  version : Nat
  chainId : Bytes
  firstSequence : Int
  lastSequence : Int
  rowCount : Int
  previousHash : Bytes
  lastHash : Bytes
  verification : Verification
  trust : Trust
deriving DecidableEq

namespace ConsumptionChain

/-- `@domain` -/
def domain : Bytes := ascii "BAP1-CHAIN" ++ [0]

/-- `@row_keys` -/
def rowKeys : List Bytes :=
  [ascii "chain_id", ascii "commitment", ascii "previous", ascii "sequence", ascii "v"]

/-- `row_json/1` -/
def rowMembers (entry : ConsumptionEntry) : List (Bytes × JsonValue) :=
  [(ascii "chain_id", string entry.chainId),
    (ascii "commitment", string (Base64.encode entry.commitment)),
    (ascii "previous", string (Base64.encode entry.previousHash)),
    (ascii "sequence", integer entry.sequence),
    (ascii "v", integer 1)]

/-- `row_json/1` -/
def rowJson (entry : ConsumptionEntry) : JsonValue := object (rowMembers entry)

variable (otp : Otp)

/-- `validate_entry/2` -/
def validateEntry (entry : ConsumptionEntry) (bounds : Bounds) : Bool :=
  validIdentifier otp entry.chainId bounds && validPositiveSequence entry.sequence bounds &&
    fixedDigest entry.previousHash bounds && fixedDigest entry.commitment bounds &&
    (entry.sequence ≠ 1 || FixedBytes.equal entry.previousHash zeroHash)

/-- `encode/2` -/
def encode (entry : ConsumptionEntry) (limits : Limits) : Option EncodedConsumptionEntry := do
  let bounds ← Bounds.coerce limits
  guard (validateEntry otp entry bounds)
  let bytes ← Jcs.encode (rowJson entry) bounds
  guard (bytes.length ≤ bounds .chainRowBytes)
  some ⟨bytes, otp.sha256 (domain ++ bytes)⟩

/-- `parse_row/2` -/
def parseRow (bytes : Bytes) (bounds : Bounds) :
    Option (ConsumptionEntry × EncodedConsumptionEntry) := do
  guard (0 < bytes.length ∧ bytes.length ≤ bounds .chainRowBytes)
  let .object members ← Json.decode bytes bounds | none
  let row ← ClosedMap.closedMap members rowKeys
  guard (ClosedMap.integer row (ascii "v") = some 1)
  let chainId ← ClosedMap.string row (ascii "chain_id")
  let sequence ← ClosedMap.integer row (ascii "sequence")
  let previousEncoded ← ClosedMap.string row (ascii "previous")
  let previousHash ← Base64Url.decode previousEncoded bounds
  let commitmentEncoded ← ClosedMap.string row (ascii "commitment")
  let commitment ← Base64Url.decode commitmentEncoded bounds
  let entry : ConsumptionEntry := ⟨chainId, sequence, previousHash, commitment⟩
  let encoded ← encode otp entry bounds
  guard (encoded.bytes = bytes)
  some (entry, encoded)

/-- `check_rows/5`; a list that ends early matches no clause. -/
def checkRows (bounds : Bounds) (expected : ExpectedChain) :
    List Bytes → (nextSequence : Int) → (priorHash : Bytes) → Option Bytes
  | [], nextSequence, priorHash => do
      guard (nextSequence = expected.lastSequence + 1)
      some priorHash
  | bytes :: rest, sequence, priorHash => do
      let (entry, encoded) ← parseRow otp bytes bounds
      guard (entry.chainId = expected.chainId)
      guard (entry.sequence = sequence)
      guard (FixedBytes.equal entry.previousHash priorHash)
      checkRows bounds expected rest (sequence + 1) encoded.hash

/-- `validate_rows/3` -/
def validateRows (bounds : Bounds) : List Bytes → (count : Nat) → Option Nat
  | [], 0 => none
  | [], count => some count
  | row :: rest, count =>
      if 0 < row.length ∧ row.length ≤ bounds .chainRowBytes ∧ count < bounds .chainRows then
        validateRows bounds rest (count + 1)
      else none

/-- `check/2` -/
def check (input : ChainInput) (expected : ExpectedChain) : Option ChainFacts := do
  let bounds ← Bounds.coerce expected.bounds
  guard (ContextValidation.expectedChain otp expected bounds)
  let count ← validateRows bounds input.rows 0
  guard ((count : Int) = expected.rowCount)
  let finalHash ← checkRows otp bounds expected input.rows expected.firstSequence
    expected.previousHash
  guard (FixedBytes.equal finalHash expected.lastHash)
  some
    { version := 1
      chainId := expected.chainId
      firstSequence := expected.firstSequence
      lastSequence := expected.lastSequence
      rowCount := expected.rowCount
      previousHash := expected.previousHash
      lastHash := expected.lastHash
      verification := .boundaryConsistent
      trust := .notEvaluated }

end ConsumptionChain

end BoundedAuthority.V1
