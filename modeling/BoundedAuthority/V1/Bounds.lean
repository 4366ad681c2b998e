import BoundedAuthority.Wire.Bytes

/-!
# Resource ceilings

`lib/bounded_authority_protocol/v1/bounds.ex`.

The profile fixes one maximum for each bound.  A caller may tighten a bound and
may not change a cryptographic width.  A `Bounds` is what `coerce` returns: it
carries the fact that no bound exceeds its maximum, so a function that is handed
one never checks that again, and coercing it a second time is the identity
(`Bounds.coerce_toLimits`).
-/

namespace BoundedAuthority.V1

/-- The keys of `%Bounds{}`. -/
inductive BoundKey
  | compactBytes | contentBytes | encodedSegmentBytes | decodedSegmentBytes | jsonBytes
  | depth | objectMembers | arrayItems | totalNodes | stringBytes | keyBytes
  | numberLexemeBytes | integerMagnitude | floatMagnitude | kidBytes | jcsBytes | uriBytes
  | identifierBytes | nonceBytes | methodBytes | operationBytes | audiences | operations
  | selectors | pathSegments | oneOfValues | publicKeyBytes | signatureBytes | digestBytes
  | clockSkew | proofMaxAge | chainRowBytes | chainRows | anchorBytes | archiveHeaderBytes
  | archiveChunks | archiveBytes | objectVersionBytes | keyTransitions
deriving DecidableEq, Repr

namespace BoundKey

/-- `@enforce_keys` -/
def all : List BoundKey :=
  [.compactBytes, .contentBytes, .encodedSegmentBytes, .decodedSegmentBytes, .jsonBytes,
    .depth, .objectMembers, .arrayItems, .totalNodes, .stringBytes, .keyBytes,
    .numberLexemeBytes, .integerMagnitude, .floatMagnitude, .kidBytes, .jcsBytes, .uriBytes,
    .identifierBytes, .nonceBytes, .methodBytes, .operationBytes, .audiences, .operations,
    .selectors, .pathSegments, .oneOfValues, .publicKeyBytes, .signatureBytes, .digestBytes,
    .clockSkew, .proofMaxAge, .chainRowBytes, .chainRows, .anchorBytes, .archiveHeaderBytes,
    .archiveChunks, .archiveBytes, .objectVersionBytes, .keyTransitions]

/-- `@maximum` -/
def maximum : BoundKey → Nat
  | compactBytes => 65536
  | contentBytes => 65536
  | encodedSegmentBytes => 32768
  | decodedSegmentBytes => 24576
  | jsonBytes => 65536
  | depth => 32
  | objectMembers => 64
  | arrayItems => 256
  | totalNodes => 4096
  | stringBytes => 8192
  | keyBytes => 128
  | numberLexemeBytes => 64
  | integerMagnitude => 9007199254740991
  | floatMagnitude => 9007199254740991
  | kidBytes => 128
  | jcsBytes => 65536
  | uriBytes => 8192
  | identifierBytes => 512
  | nonceBytes => 512
  | methodBytes => 32
  | operationBytes => 128
  | audiences => 64
  | operations => 64
  | selectors => 64
  | pathSegments => 32
  | oneOfValues => 256
  | publicKeyBytes => 32
  | signatureBytes => 64
  | digestBytes => 32
  | clockSkew => 60
  | proofMaxAge => 300
  | chainRowBytes => 4096
  | chainRows => 65536
  | anchorBytes => 8192
  | archiveHeaderBytes => 8192
  | archiveChunks => 65796
  | archiveBytes => 270820384
  | objectVersionBytes => 512
  | keyTransitions => 256

/-- `@fixed_width_keys` -/
def fixedWidth : BoundKey → Bool
  | digestBytes | publicKeyBytes | signatureBytes => true
  | _ => false

theorem mem_all (key : BoundKey) : key ∈ all := by
  cases key <;> decide

theorem maximum_pos (key : BoundKey) : 0 < key.maximum := by
  cases key <;> decide

end BoundKey

/-- Complete bounds: every ceiling is positive and at most its maximum, and the
fixed widths are the maxima. -/
@[ext] structure Bounds where
  limit : BoundKey → Nat
  positive : ∀ key, 0 < limit key
  tightens : ∀ key, limit key ≤ key.maximum
  fixed : ∀ key, key.fixedWidth = true → limit key = key.maximum

/-- Caller-supplied overrides as `Map.to_list/1` gives them; a key that names no
bound is `none`. -/
abbrev Limits := List (Option BoundKey × Int)

namespace Bounds

/-- `bounds.depth` is written `bounds .depth`. -/
instance : CoeFun Bounds fun _ => BoundKey → Nat := ⟨limit⟩

instance : DecidableEq Bounds := fun a b =>
  decidable_of_iff (∀ key ∈ BoundKey.all, a key = b key)
    ⟨fun h => Bounds.ext (funext fun key => h key key.mem_all), by rintro rfl; simp⟩

/-- `valid_override?/3` -/
def validOverride (key : BoundKey) (value : Int) : Bool :=
  if key.fixedWidth then value = key.maximum else 0 < value ∧ value ≤ key.maximum

/-- `valid_keys_and_values?/1` -/
def validKeysAndValues : Limits → Bool
  | [] => true
  | (some key, value) :: rest => validOverride key value && validKeysAndValues rest
  | (none, _) :: _ => false

/-- `Map.merge(@maximum, overrides)` -/
def merge (overrides : Limits) (key : BoundKey) : Int :=
  (overrides.lookup (some key)).getD key.maximum

theorem validOverride_merge {overrides : Limits} (h : validKeysAndValues overrides = true)
    (key : BoundKey) : validOverride key (merge overrides key) = true := by
  have own : validOverride key key.maximum = true := by
    have := key.maximum_pos
    simp only [validOverride]
    split <;> simp [this]
  induction overrides with
  | nil => exact own
  | cons entry rest ih =>
      obtain ⟨_ | found, value⟩ := entry
      · simp [validKeysAndValues] at h
      · simp only [validKeysAndValues, Bool.and_eq_true] at h
        by_cases same : key = found
        · simpa [merge, same] using h.1
        · simpa [merge, List.lookup_cons, beq_false_of_ne same] using ih h.2

theorem validOverride_iff {key : BoundKey} {value : Int} : validOverride key value = true ↔
    0 < value ∧ value ≤ key.maximum ∧ (key.fixedWidth = true → value = key.maximum) := by
  have := key.maximum_pos
  unfold validOverride
  cases key.fixedWidth <;> simp
  omega

/-- `new/1` -/
def new (overrides : Limits) : Option Bounds :=
  if h : validKeysAndValues overrides = true then
    some
      { limit := fun key => (merge overrides key).toNat
        positive := fun key => by
          have := validOverride_iff.mp (validOverride_merge h key)
          omega
        tightens := fun key => by
          have := validOverride_iff.mp (validOverride_merge h key)
          omega
        fixed := fun key wide => by
          have := (validOverride_iff.mp (validOverride_merge h key)).2.2 wide
          omega }
  else none

/-- `Map.from_struct/1` -/
def toLimits (bounds : Bounds) : Limits :=
  BoundKey.all.map fun key => (some key, (bounds key : Int))

instance : Coe Bounds Limits := ⟨toLimits⟩

/-- `coerce/1`; a struct is passed as the map of its fields. -/
def coerce (limits : Limits) : Option Bounds := new limits

/-- `maximum/0` -/
def maximum : Bounds where
  limit := BoundKey.maximum
  positive := BoundKey.maximum_pos
  tightens _ := Nat.le_refl _
  fixed _ _ := rfl

theorem validKeysAndValues_iff {overrides : Limits} : validKeysAndValues overrides = true ↔
    ∀ entry ∈ overrides, ∃ key, entry.1 = some key ∧ validOverride key entry.2 = true := by
  induction overrides with
  | nil => simp [validKeysAndValues]
  | cons entry rest ih =>
      obtain ⟨_ | key, value⟩ := entry <;> simp [validKeysAndValues, ih]

theorem lookup_map_some (f : BoundKey → Int) (key : BoundKey) :
    ∀ {keys : List BoundKey}, key ∈ keys →
      (keys.map fun k => (some k, f k)).lookup (some key) = some (f key)
  | k :: keys, h => by
      by_cases same : key = k
      · simp [same]
      · have : key ∈ keys := by simpa [same] using h
        simp [List.lookup_cons, beq_false_of_ne same, lookup_map_some f key this]

/-- Bounds that were coerced once are coerced to themselves. -/
@[simp] theorem coerce_toLimits (bounds : Bounds) : coerce bounds = some bounds := by
  have valid : validKeysAndValues bounds = true := by
    refine validKeysAndValues_iff.mpr fun entry h => ?_
    obtain ⟨key, _, rfl⟩ := List.mem_map.mp h
    refine ⟨key, rfl, validOverride_iff.mpr ⟨?_, ?_, fun wide => ?_⟩⟩
    · exact Int.natCast_pos.mpr (bounds.positive key)
    · exact Int.ofNat_le.mpr (bounds.tightens key)
    · exact congrArg Int.ofNat (bounds.fixed key wide)
  rw [coerce, new, dif_pos valid]
  congr 1
  ext key
  simp [merge, toLimits, lookup_map_some (fun k => (bounds k : Int)) key key.mem_all]

@[simp] theorem coerce_nil : coerce [] = some maximum := rfl

/-- The cryptographic widths are the same for every caller. -/
@[simp] theorem publicKeyBytes_eq (bounds : Bounds) : bounds .publicKeyBytes = 32 :=
  bounds.fixed .publicKeyBytes rfl

@[simp] theorem signatureBytes_eq (bounds : Bounds) : bounds .signatureBytes = 64 :=
  bounds.fixed .signatureBytes rfl

@[simp] theorem digestBytes_eq (bounds : Bounds) : bounds .digestBytes = 32 :=
  bounds.fixed .digestBytes rfl

@[simp] theorem maximum_apply (key : BoundKey) : maximum key = key.maximum := rfl

end Bounds

end BoundedAuthority.V1
