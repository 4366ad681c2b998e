import BoundedAuthority.Go.Claims
import BoundedAuthority.Go.Jcs
import BoundedAuthority.Go.Json
import BoundedAuthority.V1.ConsumptionChain

/-!
# The consumption chain in the Go verifier

`sdks/go/chain.go`.

A row is decoded, its members are taken up one by one in the order in which they stand,
and the row is encoded again and compared with itself.  Positions are numbers of 64 bits.
-/

namespace BoundedAuthority.Go

open Wire V1 JsonValue

/-- `&b` of resolved bounds -/
def pointer (b : Bounds) : BoundsPointer := some fun key => b key

/-- `ExpectedChain` -/
structure ExpectedChain where
  chainID : Bytes
  firstSequence : Int64
  lastSequence : Int64
  previousHash : Bytes
  lastHash : Bytes
  rowCount : Int64
  bounds : BoundsPointer

/-- `ChainFacts` -/
structure ChainFacts where
  chainID : Bytes
  firstSequence : Int64
  lastSequence : Int64
  rowCount : Int64
  lastHash : Bytes
  checks : List Bytes
  trust : Trust

/-- `chainRowData` -/
structure ChainRowData where
  chainID : Bytes
  commitment : Bytes
  previous : Bytes
  sequence : Int

variable (sha256 : Bytes → Bytes) (numerals : Numerals)

/-- `chainDomainPrefix` -/
def chainDomainPrefix : Bytes := ascii "BAP1-CHAIN" ++ [0]

/-- `chainHash` -/
def chainHash (row : Bytes) : Bytes := sha256 (chainDomainPrefix ++ row)

/-! ## Rows -/

/-- The text of a member, or what stood there before. -/
def textOr (old : Bytes) : JsonValue → Bytes
  | .string s => s
  | _ => old

/-- What the loop of `parseCanonicalRow` has taken up. -/
structure RowFields where
  chainID : Bytes
  commitment : Bytes
  previous : Bytes
  sequence : Int

/-- One turn of the loop of `parseCanonicalRow`. -/
def rowField (b : Bounds) (out : RowFields) (m : Bytes × JsonValue) : Option RowFields :=
  if m.1 = ascii "v" then
    match m.2 with
    | .integer 1 => some out
    | _ => none
  else if m.1 = ascii "chain_id" then some { out with chainID := textOr out.chainID m.2 }
  else if m.1 = ascii "commitment" then some { out with commitment := textOr out.commitment m.2 }
  else if m.1 = ascii "previous" then some { out with previous := textOr out.previous m.2 }
  else if m.1 = ascii "sequence" then
    (integralTime m.2 b).map fun t => { out with sequence := t }
  else none

/-- `parseCanonicalRow` -/
def parseCanonicalRow (raw : Bytes) (b : Bounds) : Option ChainRowData := do
  guard ¬(raw.length = 0 ∨ raw.length > b .chainRowBytes)
  let .object obj ← jsonDecode numerals raw (pointer b) | none
  guard (obj.length = 5)
  let out ← obj.foldlM (rowField b) ⟨[], [], [], 0⟩
  guard (validStringOrURI out.chainID (b .identifierBytes))
  let commitment ← canonicalDigestString out.commitment
  let previous ← canonicalDigestString out.previous
  let reenc ← jcsEncode (.object obj) (pointer b)
  guard (reenc = raw)
  some ⟨out.chainID, commitment, previous, out.sequence⟩

/-! ## Ranges -/

/-- The loop over the rows, which `CheckChain`, `VerifyAnchoredExport` and
`EncodeAnchoredExport` share. -/
def checkRows (b : Bounds) (expected : ExpectedChain) (wantPrev : Bytes) :
    List Bytes → (i : Nat) → (lastHash : Bytes) → Option Bytes
  | [], _, lastHash => some lastHash
  | raw :: rest, i, lastHash => do
      let row ← parseCanonicalRow numerals raw b
      guard (row.chainID = expected.chainID)
      guard (row.sequence = (expected.firstSequence + Int64.ofNat i).toInt)
      guard (if i = 0 then ¬(row.sequence = 1 ∧ row.previous ≠ zeroHash) ∧ row.previous = wantPrev
        else row.previous = lastHash)
      checkRows b expected wantPrev rest (i + 1) (chainHash sha256 raw)

/-- The checks of the range, in `CheckChain` and `validateExpectedAnchoredExport`. -/
def validRange (expected : ExpectedChain) (b : Bounds) : Bool :=
  !(expected.firstSequence < 1 || expected.lastSequence < expected.firstSequence ||
      expected.rowCount < 1 || expected.rowCount > Int64.ofNat (b .chainRows)) &&
    expected.lastSequence - expected.firstSequence + 1 == expected.rowCount

/-- The `Checks` of the facts. -/
def chainChecks : List Bytes :=
  [ascii "canonical_rows", ascii "chain_identity", ascii "consecutive_sequence",
    ascii "predecessor_links", ascii "row_count", ascii "caller_boundaries"]

/-- `CheckChain` -/
def checkChain (rows : List Bytes) (expected : ExpectedChain) : Option ChainFacts := do
  let b ← resolveBounds expected.bounds
  guard (validStringOrURI expected.chainID (b .identifierBytes))
  guard (validRange expected b)
  let wantPrev ← canonicalDigestString expected.previousHash
  let wantHead ← canonicalDigestString expected.lastHash
  guard ¬(rows.length = 0 ∨ rows.length > b .chainRows)
  guard (Int64.ofNat rows.length = expected.rowCount)
  let lastHash ← checkRows sha256 numerals b expected wantPrev rows 0 zeroHash
  guard (lastHash = wantHead)
  some
    { chainID := expected.chainID
      firstSequence := expected.firstSequence
      lastSequence := expected.lastSequence
      rowCount := expected.rowCount
      lastHash := lastHash
      checks := chainChecks
      trust := .notEvaluated }

end BoundedAuthority.Go
