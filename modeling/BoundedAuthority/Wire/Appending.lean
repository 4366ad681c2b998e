import BoundedAuthority.Wire.Bytes

/-!
# Writers that append to a buffer

A writer of this kind takes the bytes written so far and a count, appends what it
writes and counts on.  It may give up, on the count or on the size of the buffer, and
no later than when it is done.  `Appends` says when it succeeds and with what, and
`separated_eq_some` carries that over a loop that puts a separator between two parts.
-/

namespace Wire

/-- A writer of the values of a type. -/
abbrev Writer (α : Type) := α → (out : Bytes) → (count : Nat) → Option (Bytes × Nat)

namespace Writer

variable {α β : Type}

/-- The loop over some values, a separator in front of all but the first. -/
def separated (separator : UInt8) (write : Writer α) : (first : Bool) → Writer (List α)
  | _, [], out, count => some (out, count)
  | first, value :: rest, out, count => do
      let out := if first then out else out ++ [separator]
      let (out, count) ← write value out count
      separated separator write false rest out count

/-- Under a condition a writer appends one part and counts its size, as long as the
count is under the limit and the buffer fits. -/
def Appends (write : Writer α) (limit : Nat) (fits : Nat → Prop) (ok : α → Prop)
    (part : α → Bytes) (size : α → Nat) (value : α) : Prop :=
  ∀ out count out' count', count ≤ limit → (write value out count = some (out', count') ↔
    ok value ∧ count + size value ≤ limit ∧ fits (out ++ part value).length ∧
      out' = out ++ part value ∧ count' = count + size value)

/-- The parts of a list with separators, the first one preceded by one as well unless it
stands first. -/
def joined (separator : UInt8) (part : α → Bytes) : (first : Bool) → List α → Bytes
  | _, [] => []
  | first, value :: rest =>
      (if first then [] else [separator]) ++ part value ++ joined separator part false rest

theorem separated_map (separator : UInt8) (write : Writer β) (f : α → β) (values : List α) :
    ∀ first out count, separated separator write first (values.map f) out count =
      separated separator (fun value => write (f value)) first values out count := by
  induction values with
  | nil => intro first out count; rfl
  | cons value rest ih =>
      intro first out count
      rw [List.map_cons, separated, separated]
      cases write (f value) (if first then out else out ++ [separator]) count with
      | none => rfl
      | some written => exact ih ..

theorem joined_eq (separator : UInt8) (part : α → Bytes) (values : List α) :
    joined separator part true values = List.intercalate [separator] (values.map part) := by
  have rest : ∀ (value : α) (rest : List α), part value ++ joined separator part false rest =
      List.intercalate [separator] ((value :: rest).map part) := by
    intro value rest
    induction rest generalizing value with
    | nil => simp [joined]
    | cons next rest ih =>
        rw [joined, List.map_cons, List.map_cons, List.intercalate_cons_cons, ← List.map_cons,
          ← ih next, if_neg (by decide), List.append_assoc, List.append_assoc]
  cases values with
  | nil => rfl
  | cons value values => rw [joined, if_pos rfl, List.nil_append, rest]

/-- A loop of writers appends the parts of all values. -/
theorem separated_eq_some {separator : UInt8} {write : Writer α} {limit : Nat}
    {fits : Nat → Prop} {ok : α → Prop} {part : α → Bytes} {size : α → Nat}
    (shrinks : ∀ m n, m ≤ n → fits n → fits m) {values : List α}
    (appends : ∀ value ∈ values, Appends write limit fits ok part size value) :
    ∀ {first : Bool} {out : Bytes} {count : Nat} (out' : Bytes) (count' : Nat), count ≤ limit →
      (separated separator write first values out count = some (out', count') ↔
        (∀ value ∈ values, ok value) ∧ count + (values.map size).sum ≤ limit ∧
          (values = [] ∨ fits out'.length) ∧ out' = out ++ joined separator part first values ∧
          count' = count + (values.map size).sum) := by
  induction values with
  | nil =>
      intro first out count out' count' room
      simp only [separated, Option.some.injEq, Prod.mk.injEq, joined, List.append_nil, List.map_nil,
        List.sum_nil, Nat.add_zero, List.not_mem_nil, false_implies, implies_true, true_and,
        true_or, room]
      exact and_congr eq_comm eq_comm
  | cons value rest ih =>
      intro first out count out' count' room
      have head := appends value List.mem_cons_self
      have tail := @ih fun v hv => appends v (List.mem_cons_of_mem _ hv)
      have buffer : (if first then out else out ++ [separator]) ++ part value ++
          joined separator part false rest =
            out ++ joined separator part first (value :: rest) := by
        rw [joined]
        cases first <;> simp
      rw [separated, List.forall_mem_cons, List.map_cons, List.sum_cons, ← buffer]
      simp only [Option.bind_eq_bind, Option.bind_eq_some_iff, Prod.exists]
      constructor
      · rintro ⟨out₁, count₁, found, foundRest⟩
        obtain ⟨okHead, under, fit, rfl, rfl⟩ := (head _ _ _ _ room).mp found
        obtain ⟨okRest, underRest, fitRest, rfl, rfl⟩ := (tail _ _ under).mp foundRest
        refine ⟨⟨okHead, okRest⟩, by omega, .inr ?_, rfl, by omega⟩
        cases fitRest with
        | inl empty => simpa [empty, joined] using fit
        | inr fitRest => exact fitRest
      · rintro ⟨⟨okHead, okRest⟩, under, fit, rfl, rfl⟩
        have fit := fit.resolve_left (List.cons_ne_nil _ _)
        have fitHead := shrinks _ _ (List.sublist_append_left _ _).length_le fit
        exact ⟨_, _, (head _ _ _ _ room).mpr ⟨okHead, by omega, fitHead, rfl, rfl⟩,
          (tail _ _ (by omega)).mpr ⟨okRest, by omega, .inr fit, rfl, by omega⟩⟩

end Writer

end Wire
