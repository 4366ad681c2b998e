import BoundedAuthority.Wire.Segments

/-!
# What the removal of dot segments leaves

The removal goes over the segments with a list of what is left so far.  The segment `..`
takes the last of them out, and has nothing to take out when none is left (`climbs`).
What is left at the end (`kept`) is read off the input: a segment is the last one left
when all behind it cancels out (`Vanishes`, `kept_eq_append_iff`), and it is the first one
left when all before it does and nothing behind it climbs that far (`kept_eq_cons`).
-/

namespace Wire.Segments

/-- One segment more. -/
def push (output : List Bytes) (s : Bytes) : List Bytes :=
  if s = dot then output else if s = dots then output.dropLast else output ++ [s]

/-- The segments left, without the empty one that a final dot segment leaves. -/
def kept (input output : List Bytes) : List Bytes := input.foldl push output

/-- The last segment is `.` or `..`. -/
def EndsInDots (input : List Bytes) : Prop := input.getLast? = some dot ∨ input.getLast? = some dots

instance (input : List Bytes) : Decidable (EndsInDots input) := inferInstanceAs (Decidable (_ ∨ _))

/-- Some `..` finds no segment to take out. -/
def climbs : (input output : List Bytes) → Bool
  | [], _ => false
  | s :: rest, output => (s == dots && output.isEmpty) || climbs rest (push output s)

/-- Segments that cancel out: each `..` takes out one of them. -/
inductive Vanishes : List Bytes → Prop
  | nil : Vanishes []
  | dot {w : List Bytes} (h : Vanishes w) : Vanishes (w ++ [dot])
  | dots {w v : List Bytes} {s : Bytes} (h : Vanishes w) (isDot : s ≠ dot) (isDots : s ≠ dots)
      (later : Vanishes v) : Vanishes (w ++ s :: v ++ [dots])

@[simp] theorem push_dot (output : List Bytes) : push output dot = output := if_pos rfl

@[simp] theorem push_dots (output : List Bytes) : push output dots = output.dropLast :=
  (if_neg (by decide)).trans (if_pos rfl)

theorem push_of_ne {output : List Bytes} {s : Bytes} (isDot : s ≠ dot) (isDots : s ≠ dots) :
    push output s = output ++ [s] := by
  rw [push, if_neg isDot, if_neg isDots]

@[simp] theorem kept_nil (output : List Bytes) : kept [] output = output := rfl

@[simp] theorem kept_cons (s : Bytes) (rest output : List Bytes) :
    kept (s :: rest) output = kept rest (push output s) := rfl

theorem kept_append (a b output : List Bytes) : kept (a ++ b) output = kept b (kept a output) :=
  List.foldl_append

/-- The removal is what is left, and the empty segment behind a final dot segment. -/
theorem removeDots_eq : ∀ {input : List Bytes} (output : List Bytes), input ≠ [] →
    removeDots input output = kept input output ++ if EndsInDots input then [[]] else []
  | [s], output, _ => by
      rw [removeDots, kept_cons, kept_nil]
      split
      next isDot => rw [if_pos rfl, isDot, push_dot, if_pos (.inl rfl)]
      next isDot =>
        split
        next isDots => rw [if_pos rfl, isDots, push_dots, if_pos (.inr rfl)]
        next isDots =>
          have plain : ¬EndsInDots [s] := by
            rintro (last | last)
            · exact isDot (Option.some.inj last)
            · exact isDots (Option.some.inj last)
          rw [removeDots, push_of_ne isDot isDots, if_neg plain, List.append_nil]
  | s :: t :: rest, output, _ => by
      have more : t :: rest ≠ [] := List.cons_ne_nil _ _
      have last : EndsInDots (s :: t :: rest) ↔ EndsInDots (t :: rest) := by
        rw [EndsInDots, List.getLast?_cons_cons]
        rfl
      rw [removeDots, if_neg more, if_neg more, kept_cons]
      simp only [last]
      split
      next isDot => rw [removeDots_eq output more, isDot, push_dot]
      next isDot =>
        split
        next isDots => rw [removeDots_eq _ more, isDots, push_dots]
        next isDots => rw [removeDots_eq _ more, push_of_ne isDot isDots]

/-! ## Cancelling out -/

theorem Vanishes.kept {w : List Bytes} (h : Vanishes w) : ∀ output, kept w output = output := by
  induction h with
  | nil => exact fun _ => rfl
  | dot h ih =>
      intro output
      rw [kept_append, ih]
      exact push_dot output
  | dots h isDot isDots later ih ihLater =>
      intro output
      rw [kept_append, kept_append, ih, kept_cons, kept_cons, push_of_ne isDot isDots, ihLater,
        push_dots, kept_nil, List.dropLast_concat]

theorem Vanishes.endsInDots {w : List Bytes} (h : Vanishes w) (some_ : w ≠ []) : EndsInDots w := by
  cases h with
  | nil => exact (some_ rfl).elim
  | dot h => exact .inl List.getLast?_concat
  | dots h isDot isDots later => exact .inr List.getLast?_concat

theorem endsInDots_append (a : List Bytes) {b : List Bytes} (some_ : b ≠ []) :
    EndsInDots (a ++ b) ↔ EndsInDots b := by
  rw [EndsInDots, List.getLast?_append_of_ne_nil a some_]
  rfl

/-- The last segment left is followed by what cancels out. -/
theorem exists_of_kept_append : ∀ {n : Nat} {input q : List Bytes} {s : Bytes}, input.length ≤ n →
    kept input [] = q ++ [s] → ∃ pre w, input = pre ++ s :: w ∧ s ≠ dot ∧ s ≠ dots ∧ Vanishes w ∧
      kept pre [] = q
  | 0, input, q, s, short, h => by
      obtain rfl := List.eq_nil_of_length_eq_zero (Nat.le_zero.mp short)
      exact absurd h.symm (List.append_ne_nil_of_right_ne_nil q (List.cons_ne_nil s []))
  | n + 1, input, q, s, short, h => by
      rcases List.eq_nil_or_concat input with rfl | ⟨init, last, rfl⟩
      · exact absurd h.symm (List.append_ne_nil_of_right_ne_nil q (List.cons_ne_nil s []))
      rw [List.concat_eq_append] at short h ⊢
      rw [List.length_append, List.length_singleton] at short
      have bound : init.length ≤ n := Nat.le_of_succ_le_succ short
      rw [kept_append, kept_cons, kept_nil] at h
      by_cases isDot : last = dot
      · rw [isDot, push_dot] at h
        obtain ⟨pre, w, rfl, notDot, notDots, vanishes, left⟩ := exists_of_kept_append bound h
        refine ⟨pre, w ++ [dot], ?_, notDot, notDots, .dot vanishes, left⟩
        rw [isDot, List.append_assoc, List.cons_append]
      by_cases isDots : last = dots
      · -- what the last `..` takes out was left before it, and so was the segment before that
        rw [isDots, push_dots] at h
        have more : kept init [] ≠ [] := by
          intro none
          rw [none] at h
          exact absurd h.symm (List.append_ne_nil_of_right_ne_nil q (List.cons_ne_nil s []))
        have whole := List.dropLast_append_getLast more
        rw [h] at whole
        generalize (kept init []).getLast more = t at whole
        obtain ⟨pre, w, rfl, notDot, notDots, vanishes, left⟩ :=
          exists_of_kept_append bound whole.symm
        have shorter : pre.length ≤ n := by
          rw [List.length_append] at bound
          exact (Nat.le_add_right _ _).trans bound
        obtain ⟨pre', w', rfl, notDot', notDots', vanishes', left'⟩ :=
          exists_of_kept_append shorter left
        refine ⟨pre', w' ++ t :: w ++ [dots], ?_, notDot', notDots',
          .dots vanishes' notDot notDots vanishes, left'⟩
        rw [isDots]
        simp
      · rw [push_of_ne isDot isDots] at h
        obtain ⟨left, same⟩ := List.append_inj' h rfl
        obtain rfl := (List.cons.inj same).1
        exact ⟨init, [], rfl, isDot, isDots, .nil, left⟩

/-- A segment is the last one left exactly when all behind it cancels out. -/
theorem kept_eq_append_iff {input : List Bytes} {s : Bytes} :
    (∃ q, kept input [] = q ++ [s]) ↔
      ∃ pre w, input = pre ++ s :: w ∧ s ≠ dot ∧ s ≠ dots ∧ Vanishes w := by
  constructor
  · rintro ⟨q, h⟩
    obtain ⟨pre, w, same, notDot, notDots, vanishes, -⟩ := exists_of_kept_append le_rfl h
    exact ⟨pre, w, same, notDot, notDots, vanishes⟩
  · rintro ⟨pre, w, same, notDot, notDots, vanishes⟩
    refine ⟨kept pre [], ?_⟩
    rw [same, kept_append, kept_cons, push_of_ne notDot notDots, vanishes.kept]

/-! ## Climbing -/

theorem climbs_append (a b output : List Bytes) :
    climbs (a ++ b) output = (climbs a output || climbs b (kept a output)) := by
  induction a generalizing output with
  | nil => rfl
  | cons s a ih =>
      rw [List.cons_append, climbs, climbs, ih, kept_cons, Bool.or_assoc]

/-- Below the segments left so far nothing changes until a `..` has climbed to them. -/
theorem push_append {below output : List Bytes} {s : Bytes}
    (h : (s == dots && output.isEmpty) = false) :
    push (below ++ output) s = below ++ push output s := by
  unfold push
  split
  next => rfl
  next isDot =>
    split
    next isDots =>
      have more : output ≠ [] := by
        rintro rfl
        rw [isDots] at h
        cases h
      exact List.dropLast_append_of_ne_nil more
    next => exact List.append_assoc _ _ _

theorem kept_below {below : List Bytes} : ∀ {input output : List Bytes},
    climbs input output = false →
    kept input (below ++ output) = below ++ kept input output
  | [], _, _ => rfl
  | s :: rest, output, h => by
      rw [climbs, Bool.or_eq_false_iff] at h
      rw [kept_cons, push_append h.1, kept_below h.2, kept_cons]

theorem climbs_below {below : List Bytes} : ∀ {input output : List Bytes},
    climbs input output = false →
    climbs input (below ++ output) = false
  | [], _, _ => rfl
  | s :: rest, output, h => by
      rw [climbs, Bool.or_eq_false_iff] at h
      rw [climbs, push_append h.1, climbs_below h.2, Bool.or_false, Bool.and_eq_false_iff]
      rcases Bool.and_eq_false_iff.mp h.1 with other | more
      · exact .inl other
      · refine .inr ?_
        rw [List.isEmpty_eq_false_iff] at more ⊢
        exact List.append_ne_nil_of_right_ne_nil below more

/-- A single segment below is gone when a `..` has climbed to it, and else is still there. -/
theorem kept_under {s : Bytes} : ∀ {input output : List Bytes},
    kept input (s :: output) = (if climbs input output then [] else [s]) ++ kept input output
  | [], _ => rfl
  | t :: rest, output => by
      rw [kept_cons, kept_cons, climbs]
      cases climb : (t == dots && output.isEmpty) with
      | false =>
          have same : push ([s] ++ output) t = [s] ++ push output t := push_append climb
          rw [List.singleton_append] at same
          rw [same, List.singleton_append, kept_under, Bool.false_or]
      | true =>
          obtain ⟨isDots, none⟩ := Bool.and_eq_true_iff.mp climb
          rw [eq_of_beq isDots, List.isEmpty_iff.mp none, push_dots, push_dots, Bool.true_or,
            if_pos rfl]
          rfl

/-- The first segment left follows on what leaves nothing, and nothing climbs back to it. -/
theorem exists_of_kept_cons {input q : List Bytes} {s : Bytes} (h : kept input [] = s :: q) :
    ∃ pre post, input = pre ++ s :: post ∧ s ≠ dot ∧ s ≠ dots ∧ kept pre [] = [] ∧
      climbs post [] = false ∧ kept post [] = q := by
  induction input using List.reverseRecOn generalizing q with
  | nil => cases h
  | append_singleton init last ih =>
      rw [kept_append, kept_cons, kept_nil] at h
      by_cases isDot : last = dot
      · rw [isDot, push_dot] at h
        obtain ⟨pre, post, rfl, notDot, notDots, nothing, stays, left⟩ := ih h
        refine ⟨pre, post ++ [dot], ?_, notDot, notDots, nothing, ?_, ?_⟩
        · rw [isDot, List.append_assoc, List.cons_append]
        · rw [climbs_append, stays]
          rfl
        · rw [kept_append, left]
          exact push_dot q
      by_cases isDots : last = dots
      · rw [isDots, push_dots] at h
        have more : kept init [] ≠ [] := by
          intro none
          rw [none] at h
          cases h
        have whole := List.dropLast_append_getLast more
        rw [h, List.cons_append] at whole
        obtain ⟨pre, post, same, notDot, notDots, nothing, stays, left⟩ := ih whole.symm
        refine ⟨pre, post ++ [dots], ?_, notDot, notDots, nothing, ?_, ?_⟩
        · rw [isDots, same, List.append_assoc, List.cons_append]
        · rw [climbs_append, stays, left]
          simp [climbs]
        · rw [kept_append, left, kept_cons, push_dots, kept_nil, List.dropLast_concat]
      · rw [push_of_ne isDot isDots] at h
        cases first : kept init [] with
        | nil =>
            rw [first] at h
            obtain ⟨rfl, rfl⟩ := List.cons.inj h
            exact ⟨init, [], rfl, isDot, isDots, first, rfl, rfl⟩
        | cons t rest =>
            rw [first, List.cons_append] at h
            obtain ⟨rfl, rfl⟩ := List.cons.inj h
            obtain ⟨pre, post, rfl, notDot, notDots, nothing, stays, left⟩ := ih first
            refine ⟨pre, post ++ [last], ?_, notDot, notDots, nothing, ?_, ?_⟩
            · rw [List.append_assoc, List.cons_append]
            · rw [climbs_append, stays, climbs, climbs, Bool.or_false, Bool.false_or,
                Bool.and_eq_false_iff]
              exact .inl (beq_eq_false_iff_ne.mpr isDots)
            · rw [kept_append, left, kept_cons, push_of_ne isDot isDots, kept_nil]

theorem kept_of_cons {pre post : List Bytes} {s : Bytes} (isDot : s ≠ dot) (isDots : s ≠ dots)
    (nothing : kept pre [] = []) (stays : climbs post [] = false) :
    kept (pre ++ s :: post) [] = s :: kept post [] ∧
      climbs (pre ++ s :: post) [] = climbs pre [] := by
  have first : push [] s = [s] ++ [] := push_of_ne isDot isDots
  constructor
  · rw [kept_append, nothing, kept_cons, first, kept_below stays]
    rfl
  · have other : (s == dots && ([] : List Bytes).isEmpty) = false := by
      rw [beq_eq_false_iff_ne.mpr isDots]
      rfl
    rw [climbs_append, nothing, climbs, first, climbs_below stays, other]
    simp

end Wire.Segments
