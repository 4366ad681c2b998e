import BoundedAuthority.Wire.Bytes

/-!
# Partial results in order

A partial result is below another one when the other one is the same wherever it
is defined.  The steps of a computation that may fail respect this order, so a
computation with a weaker check in one step is above the one with the stronger
check.
-/

namespace Wire

/-- The second result is the first one wherever that is defined. -/
def Below {α : Type} (x y : Option α) : Prop := ∀ a, x = some a → y = some a

namespace Below

variable {α β : Type}

theorem refl (x : Option α) : Below x x := fun _ h => h

theorem bind {x y : Option α} {f g : α → Option β} (first : Below x y)
    (next : ∀ a, x = some a → Below (f a) (g a)) : Below (x >>= f) (y >>= g) := by
  intro b h
  simp only [Option.bind_eq_bind, Option.bind_eq_some_iff] at h ⊢
  obtain ⟨a, found, later⟩ := h
  exact ⟨a, first a found, next a found b later⟩

/-- A guard followed by the rest of the computation. -/
theorem guard {p q : Prop} [Decidable p] [Decidable q] {x y : Option β} (weaker : p → q)
    (next : p → Below x y) : Below (do guard p; x) (do guard q; y) := by
  intro b h
  rw [Option.bind_eq_bind, guard_bind_eq_some] at h ⊢
  exact ⟨weaker h.1, next h.1 b h.2⟩

theorem map {x y : Option α} (f : α → β) (h : Below x y) : Below (x.map f) (y.map f) := by
  intro b found
  obtain ⟨a, defined, rfl⟩ := Option.map_eq_some_iff.mp found
  rw [h a defined, Option.map_some]

theorem mapM {f g : α → Option β} : ∀ {as : List α}, (∀ a ∈ as, Below (f a) (g a)) →
    Below (as.mapM f) (as.mapM g)
  | [], _ => refl _
  | a :: as, h => by
      rw [List.mapM_cons, List.mapM_cons]
      refine bind (h a List.mem_cons_self) fun b _ => ?_
      exact bind (mapM fun c hc => h c (List.mem_cons_of_mem _ hc)) fun _ _ => refl _

/-- What is defined on the left is defined on the right. -/
theorem isSome {x y : Option α} (h : Below x y) (defined : x.isSome = true) : y.isSome = true := by
  obtain ⟨a, found⟩ := Option.isSome_iff_exists.mp defined
  rw [h a found]
  rfl

/-- Results below one result agree. -/
theorem agree {x y z : Option α} (left : Below x z) (right : Below y z) {a b : α} (hx : x = some a)
    (hy : y = some b) : a = b := by
  have := left a hx
  rw [right b hy, Option.some.injEq] at this
  exact this.symm

end Below

end Wire
