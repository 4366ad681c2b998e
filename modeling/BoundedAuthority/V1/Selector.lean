import BoundedAuthority.V1.Fields

/-!
# Selectors

`lib/bounded_authority_protocol/v1/selector.ex`, and the selector clauses of
`runtime.ex`.
-/

namespace BoundedAuthority.V1

open Wire JsonValue

/-- `Selector.t()` -/
inductive Selector
  | all
  | equals (path : List Bytes) (value : JsonValue)
  | oneOf (path : List Bytes) (values : List JsonValue)

namespace Selector

mutual

/-- `semantic_equal?/2`; floats are compared with their signs, as `===` does. -/
def semanticEqual : JsonValue → JsonValue → Bool
  | .null, .null => true
  | .boolean left, .boolean right => left == right
  | .integer left, .integer right => left == right
  | .float left, .float right => left == right
  | .string left, .string right => left == right
  | .array left, .array right => left.length == right.length && semanticEqualItems left right
  | .object left, .object right =>
      unique (left.map Prod.fst) && unique (right.map Prod.fst) && left.length == right.length &&
        semanticEqualMembers left right
  | _, _ => false

/-- `Enum.zip(left, right) |> Enum.all?/2` -/
def semanticEqualItems : List JsonValue → List JsonValue → Bool
  | value :: left, other :: right => semanticEqual value other && semanticEqualItems left right
  | _, _ => true

/-- Every member has its name on the right, with an equal value. -/
def semanticEqualMembers : List (Bytes × JsonValue) → List (Bytes × JsonValue) → Bool
  | [], _ => true
  | (key, value) :: left, right =>
      (match right.lookup key with
        | some other => semanticEqual value other
        | none => false) && semanticEqualMembers left right

end

/-- `traverse/2` -/
def traverse : JsonValue → List Bytes → Option JsonValue
  | value, [] => some value
  | .object members, key :: rest =>
      match members.lookup key with
      | some value => traverse value rest
      | none => none
  | _, _ => none

/-- `valid_json?/2` -/
def validJson (value : JsonValue) (bounds : Bounds) : Bool := (Jcs.encode value bounds).isSome

/-- `matches?/3` -/
def selects (selector : Selector) (arguments : JsonValue) (bounds : Bounds) : Bool :=
  match selector with
  | .all => true
  | .equals path expected =>
      validPath path bounds && validJson expected bounds &&
        match traverse arguments path with
        | some actual => semanticEqual actual expected
        | none => false
  | .oneOf path values =>
      validPath path bounds && nonemptyBounded values (bounds .oneOfValues) &&
        (values.all fun value => validJson value bounds) &&
        match traverse arguments path with
        | some actual => values.any fun value => semanticEqual actual value
        | none => false

/-! ## JSON -/

/-- `Enum.map(path, &{:string, &1})` -/
def pathJson (path : List Bytes) : JsonValue := .array (path.map .string)

/-- `encode_selector/2` -/
def encodeSelector (selector : Selector) (bounds : Bounds) : Option JsonValue :=
  match selector with
  | .all => some (.object [(ascii "kind", .string (ascii "all"))])
  | .equals path value => do
      guard (validPath path bounds)
      let _ ← Jcs.encode value bounds
      some (.object
        [(ascii "kind", .string (ascii "equals")), (ascii "path", pathJson path),
          (ascii "value", value)])
  | .oneOf path values => do
      guard (validPath path bounds)
      guard (nonemptyBounded values (bounds .oneOfValues))
      guard (values.all fun value => (Jcs.encode value bounds).isSome)
      some (.object
        [(ascii "kind", .string (ascii "one_of")), (ascii "path", pathJson path),
          (ascii "values", .array values)])

/-- The alternatives of `selector/2`. -/
def selectorKeys : List (List Bytes) :=
  [[ascii "kind"], [ascii "kind", ascii "path", ascii "value"],
    [ascii "kind", ascii "path", ascii "values"]]

/-- The path of a selector, read from its array. -/
def readPath (map : ClosedMap) (bounds : Bounds) : Option (List Bytes) := do
  let pathValues ← ClosedMap.array map (ascii "path")
  let path ← strings pathValues (bounds .pathSegments) (bounds .keyBytes)
  guard (path ≠ [])
  some path

/-- The `equals` clause of `selector/2`. -/
def readEquals (map : ClosedMap) (bounds : Bounds) : Option Selector := do
  let value ← map.lookup (ascii "value")
  let path ← readPath map bounds
  let _ ← Jcs.encode value bounds
  some (.equals path value)

/-- The `one_of` clause of `selector/2`. -/
def readOneOf (map : ClosedMap) (bounds : Bounds) : Option Selector := do
  let values ← ClosedMap.array map (ascii "values")
  let path ← readPath map bounds
  guard (nonemptyBounded values (bounds .oneOfValues))
  guard (values.all fun value => (Jcs.encode value bounds).isSome)
  some (.oneOf path values)

/-- The clauses of `selector/2`; a map pattern leaves other members alone, so `all`
may stand beside a path. -/
def readSelector (map : ClosedMap) (bounds : Bounds) : Option Selector := do
  let kind ← ClosedMap.string map (ascii "kind")
  if kind = ascii "all" then some .all
  else if kind = ascii "equals" then readEquals map bounds
  else if kind = ascii "one_of" then readOneOf map bounds
  else none

/-- `selector/2` -/
def selector (value : JsonValue) (bounds : Bounds) : Option Selector :=
  match value with
  | .object members => do
      let map ← ClosedMap.closedMapOneOf members selectorKeys
      readSelector map bounds
  | _ => none

end Selector

end BoundedAuthority.V1
