import BoundedAuthority.Wire.Bytes

/-!
# How a call of the Python verifier ends

`sdks/python/src/bounded_authority_verifier/error.py`.

A function returns a value, raises `InvalidError`, or raises something else.  The
public functions turn `InvalidError` into `Err` and let everything else through
(`_trying`), so an outcome tells the three apart.  An outcome is `Closed` when nothing
but `InvalidError` is raised.
-/

namespace BoundedAuthority.Python

/-- What a call raises: `InvalidError`, or any other exception. -/
inductive Fault
  | invalid
  | raised
  deriving DecidableEq, Repr

/-- A value or what was raised. -/
abbrev Outcome := Except Fault

/-- `fail` -/
def fail {α : Type} : Outcome α := .error .invalid

/-- An exception other than `InvalidError`. -/
def raise {α : Type} : Outcome α := .error .raised

/-- `fail` unless the condition holds. -/
def require (p : Prop) [Decidable p] : Outcome Unit := if p then .ok () else fail

/-- A value or `fail`. -/
def expect {α : Type} : Option α → Outcome α
  | some a => .ok a
  | none => fail

/-! ## Outcomes that are values -/

section Values

variable {α β : Type}

@[simp] theorem ok_bind (a : α) (f : α → Outcome β) : (Except.ok a >>= f) = f a := rfl

@[simp] theorem fail_bind (f : α → Outcome β) : ((fail : Outcome α) >>= f) = fail := rfl

@[simp] theorem raise_bind (f : α → Outcome β) : ((raise : Outcome α) >>= f) = raise := rfl

theorem pure_eq_ok (a : α) : (pure a : Outcome α) = .ok a := rfl

/-- A sequence ends in a value when its first part does, and its second from there. -/
theorem bind_eq_ok {x : Outcome α} {f : α → Outcome β} {b : β} :
    (x >>= f) = .ok b ↔ ∃ a, x = .ok a ∧ f a = .ok b := by
  cases x with
  | error e => exact iff_of_false (by rintro ⟨⟩) (by rintro ⟨_, ⟨⟩, _⟩)
  | ok a =>
      constructor
      · intro h
        exact ⟨a, rfl, h⟩
      · rintro ⟨_, ⟨⟩, h⟩
        exact h

theorem map_eq_ok {x : Outcome α} {f : α → β} {b : β} :
    x.map f = .ok b ↔ ∃ a, x = .ok a ∧ f a = b := by
  cases x with
  | error e => exact iff_of_false (by rintro ⟨⟩) (by rintro ⟨_, ⟨⟩, _⟩)
  | ok a => simp [Except.map]

@[simp] theorem fail_ne_ok {a : α} : (fail : Outcome α) ≠ .ok a := by rintro ⟨⟩

@[simp] theorem raise_ne_ok {a : α} : (raise : Outcome α) ≠ .ok a := by rintro ⟨⟩

@[simp] theorem require_eq_ok {p : Prop} [Decidable p] {u : Unit} : require p = .ok u ↔ p := by
  unfold require
  split
  next h => simp [h]
  next h => simp [h]

theorem require_of {p : Prop} [Decidable p] (h : p) : require p = .ok () := require_eq_ok.mpr h

@[simp] theorem expect_eq_ok {x : Option α} {a : α} : expect x = .ok a ↔ x = some a := by
  cases x with
  | none => simp [expect]
  | some b => simp [expect]

@[simp] theorem expect_some (a : α) : expect (some a) = .ok a := rfl

end Values

/-! ## Closed outcomes -/

section Closed

variable {α β : Type}

/-- Nothing is raised but `InvalidError`. -/
def Closed (x : Outcome α) : Prop := x ≠ raise

theorem closed_ok (a : α) : Closed (.ok a : Outcome α) := by rintro ⟨⟩

theorem closed_fail : Closed (fail : Outcome α) := by rintro ⟨⟩

theorem closed_require (p : Prop) [Decidable p] : Closed (require p) := by
  unfold require
  split
  next => exact closed_ok ()
  next => exact closed_fail

theorem closed_expect (x : Option α) : Closed (expect x) := by
  cases x with
  | none => exact closed_fail
  | some a => exact closed_ok a

/-- A sequence is closed when its first part is, and its second from each value of it. -/
theorem Closed.bind {x : Outcome α} {f : α → Outcome β} (first : Closed x)
    (second : ∀ a, x = .ok a → Closed (f a)) : Closed (x >>= f) := by
  cases x with
  | ok a => exact second a rfl
  | error e =>
      cases e with
      | invalid => exact closed_fail
      | raised => exact absurd rfl first

theorem Closed.map {x : Outcome α} (f : α → β) (h : Closed x) : Closed (x.map f) := by
  cases x with
  | ok a => exact closed_ok _
  | error e =>
      cases e with
      | invalid => exact closed_fail
      | raised => exact absurd rfl h

end Closed

end BoundedAuthority.Python
