import BoundedAuthority.Wire.Binary64
import BoundedAuthority.Wire.Unicode

/-!
# Tagged JSON values

The values of a JSON text with the two kinds of numbers kept apart: a lexeme
without a fraction and an exponent is an integer, any other is a double.  A
string is its UTF-8 form, and an object keeps the order of its members.

A reader or a writer that limits its values counts `nodes` and `depth` and
checks every leaf and container against some `Ceilings`; `Within` is what those
checks amount to.
-/

namespace Wire

inductive JsonValue
  | null
  | boolean (value : Bool)
  | integer (value : Int)
  | float (value : F64)
  | string (value : Bytes)
  | array (values : List JsonValue)
  | object (members : List (Bytes × JsonValue))

namespace JsonValue

/-- A property of values holds of all of them when it passes from the elements
of a container to the container. -/
theorem induction {P : JsonValue → Prop} (null : P .null) (boolean : ∀ b, P (.boolean b))
    (integer : ∀ n, P (.integer n)) (float : ∀ x, P (.float x)) (string : ∀ s, P (.string s))
    (array : ∀ values, (∀ v ∈ values, P v) → P (.array values))
    (object : ∀ members, (∀ m ∈ members, P m.2) → P (.object members)) : ∀ v, P v
  | .null => null
  | .boolean b => boolean b
  | .integer n => integer n
  | .float x => float x
  | .string s => string s
  | .array values =>
      array values fun v _ => induction null boolean integer float string array object v
  | .object members =>
      object members fun m _ => induction null boolean integer float string array object m.2
termination_by v => sizeOf v
decreasing_by
  · next h =>
      have := List.sizeOf_lt_of_mem h
      simp only [JsonValue.array.sizeOf_spec]
      omega
  · next h =>
      obtain ⟨key, value⟩ := m
      have := List.sizeOf_lt_of_mem h
      simp only [JsonValue.object.sizeOf_spec, Prod.mk.sizeOf_spec] at this ⊢
      omega

/-! ## Counting -/

mutual

/-- The values in a value, itself included. -/
def nodes : JsonValue → Nat
  | array values => nodesItems values + 1
  | object members => nodesMembers members + 1
  | _ => 1

def nodesItems : List JsonValue → Nat
  | [] => 0
  | value :: rest => nodes value + nodesItems rest

def nodesMembers : List (Bytes × JsonValue) → Nat
  | [] => 0
  | (_, value) :: rest => nodes value + nodesMembers rest

end

mutual

/-- The containers on the longest way to a leaf. -/
def depth : JsonValue → Nat
  | array values => depthItems values + 1
  | object members => depthMembers members + 1
  | _ => 0

def depthItems : List JsonValue → Nat
  | [] => 0
  | value :: rest => max (depth value) (depthItems rest)

def depthMembers : List (Bytes × JsonValue) → Nat
  | [] => 0
  | (_, value) :: rest => max (depth value) (depthMembers rest)

end

theorem nodesItems_eq (values : List JsonValue) : nodesItems values = (values.map nodes).sum := by
  induction values with
  | nil => rfl
  | cons value rest ih => simp [nodesItems, ih]

theorem nodesMembers_eq (members : List (Bytes × JsonValue)) :
    nodesMembers members = (members.map fun m => nodes m.2).sum := by
  induction members with
  | nil => rfl
  | cons member rest ih => simp [nodesMembers, ih]

theorem depthItems_le {values : List JsonValue} {n : Nat} :
    depthItems values ≤ n ↔ ∀ v ∈ values, depth v ≤ n := by
  induction values with
  | nil => simp [depthItems]
  | cons value rest ih => simp [depthItems, ih]

theorem depthMembers_le {members : List (Bytes × JsonValue)} {n : Nat} :
    depthMembers members ≤ n ↔ ∀ m ∈ members, depth m.2 ≤ n := by
  induction members with
  | nil => simp [depthMembers]
  | cons member rest ih => simp [depthMembers, ih]

/-! ## Ceilings -/

/-- What a value is checked against. -/
structure Ceilings where
  arrayItems : Nat
  objectMembers : Nat
  stringBytes : Nat
  keyBytes : Nat
  integerMagnitude : Nat
  floatMagnitude : Nat

/-- The ceilings for a member name: its size and that it is well-formed. -/
def Ceilings.Name (c : Ceilings) (key : Bytes) : Prop :=
  key.length ≤ c.keyBytes ∧ Utf8.valid key = true

mutual

/-- A value under its ceilings, all of its strings well-formed and no name twice
in an object. -/
def Within (c : Ceilings) : JsonValue → Prop
  | null => True
  | boolean _ => True
  | integer n => -c.integerMagnitude ≤ n ∧ n ≤ c.integerMagnitude
  | float x => x.magnitudeAtMost c.floatMagnitude = true
  | string s => s.length ≤ c.stringBytes ∧ Utf8.valid s = true
  | array values => values.length ≤ c.arrayItems ∧ WithinItems c values
  | object members =>
      members.length ≤ c.objectMembers ∧ (members.map Prod.fst).Nodup ∧ WithinMembers c members

def WithinItems (c : Ceilings) : List JsonValue → Prop
  | [] => True
  | value :: rest => Within c value ∧ WithinItems c rest

def WithinMembers (c : Ceilings) : List (Bytes × JsonValue) → Prop
  | [] => True
  | (key, value) :: rest => c.Name key ∧ Within c value ∧ WithinMembers c rest

end

theorem withinItems_iff {c : Ceilings} {values : List JsonValue} :
    WithinItems c values ↔ ∀ v ∈ values, Within c v := by
  induction values with
  | nil => simp [WithinItems]
  | cons value rest ih => simp [WithinItems, ih]

theorem withinMembers_iff {c : Ceilings} {members : List (Bytes × JsonValue)} :
    WithinMembers c members ↔ ∀ m ∈ members, c.Name m.1 ∧ Within c m.2 := by
  induction members with
  | nil => simp [WithinMembers]
  | cons member rest ih => simp [WithinMembers, ih, and_assoc]

/-- Ceilings that are nowhere lower. -/
structure Ceilings.Le (c d : Ceilings) : Prop where
  arrayItems : c.arrayItems ≤ d.arrayItems
  objectMembers : c.objectMembers ≤ d.objectMembers
  stringBytes : c.stringBytes ≤ d.stringBytes
  keyBytes : c.keyBytes ≤ d.keyBytes
  integerMagnitude : c.integerMagnitude ≤ d.integerMagnitude
  floatMagnitude : c.floatMagnitude ≤ d.floatMagnitude

theorem F64.magnitudeAtMost_mono {x : F64} {m n : Nat} (le : m ≤ n)
    (h : x.magnitudeAtMost m = true) : x.magnitudeAtMost n = true := by
  simp only [F64.magnitudeAtMost, decide_eq_true_eq] at h ⊢
  exact Nat.le_trans h (Nat.mul_le_mul_right _ le)

/-- A value under some ceilings is under higher ones. -/
theorem Within.mono {c d : Ceilings} (le : c.Le d) {v : JsonValue} (h : Within c v) :
    Within d v := by
  induction v using JsonValue.induction with
  | null => trivial
  | boolean => trivial
  | integer n =>
      have := le.integerMagnitude
      simp only [Within] at h ⊢
      omega
  | float x => exact F64.magnitudeAtMost_mono le.floatMagnitude h
  | string s => exact ⟨Nat.le_trans h.1 le.stringBytes, h.2⟩
  | array values ih =>
      refine ⟨Nat.le_trans h.1 le.arrayItems, withinItems_iff.mpr fun v hv => ?_⟩
      exact ih v hv (withinItems_iff.mp h.2 v hv)
  | object members ih =>
      refine ⟨Nat.le_trans h.1 le.objectMembers, h.2.1, withinMembers_iff.mpr fun m hm => ?_⟩
      obtain ⟨⟨size, valid⟩, value⟩ := withinMembers_iff.mp h.2.2 m hm
      exact ⟨⟨Nat.le_trans size le.keyBytes, valid⟩, ih m hm value⟩

end JsonValue

end Wire
