import BoundedAuthority.Wire.Bytes

/-!
# Sources of bytes and frames

A source is read from the front, so many bytes at a time.  The plain source is the
bytes that are left.  A source that keeps them in another form refines it when a
relation between the two states is kept by every read (`Source.Refines`); then any
reader built from reads has the same outcome on both (`Agree.bind`).

A frame is a byte string behind its length in four octets.
-/

namespace Wire

/-- Something bytes are read from. -/
structure Source (σ : Type) where
  readExact : σ → (count : Nat) → Option (Bytes × σ)
  eof : σ → Bool

/-- The source that is the bytes that are left. -/
def Source.plain : Source Bytes where
  readExact bytes count :=
    if count ≤ bytes.length then some (bytes.take count, bytes.drop count) else none
  eof bytes := bytes.isEmpty

/-- Reads of the given sizes, one after the other. -/
def Source.readAll {σ : Type} (source : Source σ) : List Nat → σ → Option (List Bytes × σ)
  | [], state => some ([], state)
  | count :: counts, state =>
      (source.readExact state count).bind fun (part, next) =>
        (source.readAll counts next).bind fun (parts, final) => some (part :: parts, final)

/-! ## Agreement of two readers -/

section Agreement

variable {σ τ α β : Type} {R : σ → τ → Prop}

/-- Both readers fail, or both return the same value in related states. -/
def Agree (R : σ → τ → Prop) : Option (α × σ) → Option (α × τ) → Prop :=
  Option.Rel fun x y => x.1 = y.1 ∧ R x.2 y.2

theorem Agree.failed : Agree R (none : Option (α × σ)) none := Option.Rel.none

theorem Agree.returned {a : α} {s : σ} {t : τ} (h : R s t) :
    Agree R (some (a, s)) (some (a, t)) :=
  Option.Rel.some ⟨rfl, h⟩

/-- Readers in sequence agree. -/
theorem Agree.bind {x : Option (α × σ)} {y : Option (α × τ)} {f : α × σ → Option (β × σ)}
    {g : α × τ → Option (β × τ)} (h : Agree R x y)
    (next : ∀ a {s t}, R s t → Agree R (f (a, s)) (g (a, t))) : Agree R (x.bind f) (y.bind g) := by
  cases h with
  | none => exact Agree.failed
  | @some x y related =>
      obtain ⟨a, s⟩ := x
      obtain ⟨_, t⟩ := y
      obtain ⟨rfl, states⟩ := related
      exact next _ states

/-- A check between two reads. -/
theorem Agree.guarded {γ : Type} (check : Option γ) {f : γ → Option (β × σ)}
    {g : γ → Option (β × τ)} (next : ∀ c, Agree R (f c) (g c)) :
    Agree R (check.bind f) (check.bind g) := by
  cases check with
  | none => exact Agree.failed
  | some c => exact next c

/-- What is made of the value at the end is the same. -/
theorem Agree.bind_eq {x : Option (α × σ)} {y : Option (α × τ)} {f : α × σ → Option β}
    {g : α × τ → Option β} (h : Agree R x y)
    (next : ∀ a {s t}, R s t → f (a, s) = g (a, t)) : x.bind f = y.bind g := by
  cases h with
  | none => rfl
  | @some x y related =>
      obtain ⟨a, s⟩ := x
      obtain ⟨_, t⟩ := y
      obtain ⟨rfl, states⟩ := related
      exact next _ states

theorem Agree.map_fst {x : Option (α × σ)} {y : Option (α × τ)} (h : Agree R x y) :
    x.map Prod.fst = y.map Prod.fst := by
  cases h with
  | none => rfl
  | some related => exact congrArg some related.1

/-- A source whose states stand for states of another one. -/
structure Source.Refines (source : Source σ) (target : Source τ) (R : σ → τ → Prop) : Prop where
  readExact : ∀ {s t}, R s t → ∀ count, Agree R (source.readExact s count)
    (target.readExact t count)
  eof : ∀ {s t}, R s t → source.eof s = target.eof t

/-- Every run of reads agrees. -/
theorem Source.Refines.readAll {source : Source σ} {target : Source τ}
    (refines : source.Refines target R) : ∀ (counts : List Nat) {s t}, R s t →
      Agree R (source.readAll counts s) (target.readAll counts t)
  | [], _, _, h => Agree.returned h
  | count :: counts, _, _, h =>
      (refines.readExact h count).bind fun _ _ _ h' =>
        (refines.readAll counts h').bind fun _ _ _ h'' => Agree.returned h''

end Agreement

/-! ## The plain source -/

theorem plain_readExact_append {part : Bytes} (rest : Bytes) {count : Nat}
    (h : part.length = count) :
    Source.plain.readExact (part ++ rest) count = some (part, rest) := by
  subst h
  simp [Source.plain]

/-- A run of reads takes the bytes from the front. -/
theorem plain_readAll : ∀ {counts : List Nat} {bytes final : Bytes} {parts : List Bytes},
    Source.plain.readAll counts bytes = some (parts, final) →
      counts.sum ≤ bytes.length ∧ parts.flatten = bytes.take counts.sum ∧
        final = bytes.drop counts.sum
  | [], bytes, final, parts, h => by
      obtain ⟨rfl, rfl⟩ := Prod.mk.inj (Option.some.inj h)
      simp
  | count :: counts, bytes, final, parts, h => by
      simp only [Source.readAll, Option.bind_eq_some_iff, Prod.exists, Option.some.injEq,
        Prod.mk.injEq] at h
      obtain ⟨part, next, read, parts, _, later, rfl, rfl⟩ := h
      simp only [Source.plain, Option.ite_none_right_eq_some, Option.some.injEq,
        Prod.mk.injEq] at read
      obtain ⟨fits, rfl, rfl⟩ := read
      obtain ⟨total, flat, rfl⟩ := plain_readAll later
      rw [List.length_drop] at total
      refine ⟨by rw [List.sum_cons]; omega, ?_, ?_⟩
      · rw [List.flatten_cons, flat, List.sum_cons, List.take_add]
      · rw [List.sum_cons, List.drop_drop]

/-! ## Frames -/

/-- A byte string behind its length. -/
def frame (bytes : Bytes) : Bytes := bigEndian 4 bytes.length ++ bytes

variable {σ : Type} (source : Source σ)

/-- A frame that is not empty and at most as long as the maximum. -/
def readFrame (state : σ) (maximum : Nat) : Option (Bytes × σ) := do
  let (size, next) ← source.readExact state 4
  let length := fromBigEndian size
  guard (0 < length ∧ length ≤ maximum)
  source.readExact next length

/-- A frame is read back in front of whatever follows. -/
theorem readFrame_frame {bytes : Bytes} (rest : Bytes) {maximum : Nat} (positive : 0 < bytes.length)
    (fits : bytes.length ≤ maximum) (small : bytes.length < 2 ^ 32) :
    readFrame Source.plain (frame bytes ++ rest) maximum = some (bytes, rest) := by
  have size : Source.plain.readExact (frame bytes ++ rest) 4 =
      some (bigEndian 4 bytes.length, bytes ++ rest) := by
    rw [frame, List.append_assoc]
    exact plain_readExact_append _ (length_bigEndian 4 _)
  have length : fromBigEndian (bigEndian 4 bytes.length) = bytes.length :=
    fromBigEndian_bigEndian small
  simp only [readFrame, size, length, positive, fits, and_self, guard_true, Option.pure_def,
    Option.bind_eq_bind, Option.bind_some]
  exact plain_readExact_append _ rfl

/-- A frame is the same on a source that refines another. -/
theorem Source.Refines.readFrame {τ : Type} {source : Source σ} {target : Source τ}
    {R : σ → τ → Prop} (refines : source.Refines target R) {s : σ} {t : τ} (h : R s t)
    (maximum : Nat) : Agree R (Wire.readFrame source s maximum) (Wire.readFrame target t maximum) :=
  (refines.readExact h 4).bind fun _ _ _ h' =>
    Agree.guarded _ fun _ => refines.readExact h' _

end Wire
