import BoundedAuthority.Wire.Bytes

/-!
# Absolute paths

A path that starts with a slash is a list of segments without slashes, each behind a
slash (`join`, `exists_join`), and of one list only (`join_inj`).  RFC 3986, section
5.2.4, takes the segments `.` and `..` out of a path by rewriting an input and an output
buffer (`removeDotSegments`).  On a path that starts with a slash that is a function on
segments (`removeDots`), and what it leaves holds neither.
-/

namespace Wire.Segments

/-- Every segment behind a slash. -/
def join (segments : List Bytes) : Bytes := segments.flatMap fun s => 0x2F :: s

/-- Segments hold no slash. -/
def Plain (segments : List Bytes) : Prop := ∀ s ∈ segments, 0x2F ∉ s

/-- The segment `.` -/
def dot : Bytes := [0x2E]

/-- The segment `..` -/
def dots : Bytes := [0x2E, 0x2E]

/-- The segments of the output when those of the input are taken one by one. -/
def removeDots : (input output : List Bytes) → List Bytes
  | [], output => output
  | s :: rest, output =>
      if s = dot then if rest = [] then output ++ [[]] else removeDots rest output
      else if s = dots then
        if rest = [] then output.dropLast ++ [[]] else removeDots rest output.dropLast
      else removeDots rest (output ++ [s])

@[simp] theorem join_nil : join [] = [] := rfl

@[simp] theorem join_cons (s : Bytes) (rest : List Bytes) :
    join (s :: rest) = 0x2F :: s ++ join rest :=
  rfl

@[simp] theorem join_append (a b : List Bytes) : join (a ++ b) = join a ++ join b := by
  simp [join]

/-- A path that starts with a slash has segments. -/
theorem exists_join : ∀ (rest : Bytes), ∃ s segments, 0x2F :: rest = join (s :: segments) ∧
    Plain (s :: segments)
  | [] => ⟨[], [], rfl, by simp [Plain]⟩
  | b :: rest => by
      obtain ⟨s, segments, same, plain⟩ := exists_join rest
      obtain ⟨first, others⟩ := List.forall_mem_cons.mp plain
      by_cases slash : b = 0x2F
      · refine ⟨[], s :: segments, ?_, List.forall_mem_cons.mpr ⟨List.not_mem_nil, plain⟩⟩
        rw [slash, same]
        rfl
      · refine ⟨b :: s, segments, ?_, List.forall_mem_cons.mpr ⟨?_, others⟩⟩
        · have tail : rest = s ++ join segments := (List.cons.inj same).2
          rw [tail]
          rfl
        · rw [List.mem_cons, not_or]
          exact ⟨fun h => slash h.symm, first⟩

/-- The first segment ends at the first slash. -/
theorem append_join_inj : ∀ {s t u : Bytes} {rest : List Bytes}, 0x2F ∉ s → 0x2F ∉ t →
    s ++ join rest = t ++ 0x2F :: u → s = t ∧ join rest = 0x2F :: u
  | [], [], _, _, _, _, h => ⟨rfl, h⟩
  | [], b :: t, u, rest, _, ht, h => by
      cases rest with
      | nil => cases h
      | cons r rest =>
          have slash : (0x2F : UInt8) = b := (List.cons.inj h).1
          exact (ht (slash ▸ List.mem_cons_self)).elim
  | b :: s, [], _, _, hs, _, h => by
      have slash : b = 0x2F := (List.cons.inj h).1
      exact (hs (slash ▸ List.mem_cons_self)).elim
  | b :: s, c :: t, u, rest, hs, ht, h => by
      obtain ⟨rfl, tail⟩ := List.cons.inj h
      obtain ⟨rfl, later⟩ := append_join_inj (fun m => hs (List.mem_cons_of_mem _ m))
        (fun m => ht (List.mem_cons_of_mem _ m)) tail
      exact ⟨rfl, later⟩

theorem eq_of_append_join {s t : Bytes} {rest : List Bytes} (ht : 0x2F ∉ t)
    (h : s ++ join rest = t) : s = t ∧ rest = [] := by
  cases rest with
  | nil => exact ⟨by simpa using h, rfl⟩
  | cons r rest =>
      refine (ht ?_).elim
      rw [← h]
      simp

/-- A path has its segments only. -/
theorem join_inj : ∀ {a b : List Bytes}, Plain a → Plain b → join a = join b → a = b
  | [], [], _, _, _ => rfl
  | [], _ :: _, _, _, h => by cases h
  | _ :: _, [], _, _, h => by cases h
  | s :: a, t :: b, ha, hb, h => by
      obtain ⟨first, others⟩ := List.forall_mem_cons.mp ha
      obtain ⟨first', others'⟩ := List.forall_mem_cons.mp hb
      have behind : s ++ join a = t ++ join b := (List.cons.inj h).2
      cases b with
      | nil =>
          obtain ⟨rfl, rfl⟩ := eq_of_append_join first' (by simpa using behind)
          rfl
      | cons u b =>
          obtain ⟨rfl, later⟩ := append_join_inj first first' behind
          rw [join_inj others others' later]

/-- Nothing, or what starts with a slash. -/
def Absolute (path : Bytes) : Prop := ∀ b ∈ path.head?, b = 0x2F

theorem absolute_join (segments : List Bytes) : Absolute (join segments) := by
  intro b head
  cases segments with
  | nil => cases head
  | cons s segments =>
      cases head
      rfl

theorem absolute_drop (bs : Bytes) :
    Absolute (bs.drop (bs.takeWhile fun b => b != 0x2F).length) := by
  have whole : bs.takeWhile (fun b => b != 0x2F) ++ bs.dropWhile (fun b => b != 0x2F) = bs :=
    List.takeWhile_append_dropWhile
  have left :
      bs.drop (bs.takeWhile fun b => b != 0x2F).length = bs.dropWhile fun b => b != 0x2F := by
    conv_lhs => rw [← whole]
    exact List.drop_left' (by rw [whole])
  intro b head
  rw [left] at head
  have stopped := List.head?_dropWhile_not (fun b => b != 0x2F) bs
  rw [Option.mem_def.mp head] at stopped
  simpa using stopped

/-! ## Dot segments -/

/-- No segment is `.` or `..`. -/
def Dotless (segments : List Bytes) : Prop := ∀ s ∈ segments, s ≠ dot ∧ s ≠ dots

theorem dotless_removeDots : ∀ {input output : List Bytes}, Dotless output →
    Dotless (removeDots input output)
  | [], _, h => h
  | s :: rest, output, h => by
      have last : ∀ {segments : List Bytes}, Dotless segments → Dotless (segments ++ [[]]) := by
        intro segments h t member
        rcases List.mem_append.mp member with earlier | same
        · exact h t earlier
        · rw [List.mem_singleton.mp same]
          exact ⟨by decide, by decide⟩
      have shorter : Dotless output.dropLast :=
        fun t member => h t (List.mem_of_mem_dropLast member)
      rw [removeDots]
      split
      next =>
        split
        next => exact last h
        next => exact dotless_removeDots h
      next notDot =>
        split
        next =>
          split
          next => exact last shorter
          next => exact dotless_removeDots shorter
        next notDots =>
          refine dotless_removeDots fun t member => ?_
          rcases List.mem_append.mp member with earlier | same
          · exact h t earlier
          · rw [List.mem_singleton.mp same]
            exact ⟨notDot, notDots⟩

/-- Without dot segments nothing is taken out. -/
theorem removeDots_of_dotless : ∀ {input : List Bytes} (output : List Bytes), Dotless input →
    removeDots input output = output ++ input
  | [], output, _ => (List.append_nil output).symm
  | s :: rest, output, h => by
      obtain ⟨⟨notDot, notDots⟩, others⟩ := List.forall_mem_cons.mp h
      rw [removeDots, if_neg notDot, if_neg notDots, removeDots_of_dotless _ others]
      simp

/-- What is left comes from the input, from the output before or is the empty segment. -/
theorem mem_removeDots : ∀ {input output : List Bytes} {t : Bytes}, t ∈ removeDots input output →
    t ∈ input ∨ t ∈ output ∨ t = []
  | [], output, t, h => .inr (.inl h)
  | s :: rest, output, t, h => by
      have later : ∀ {segments : List Bytes}, (∀ u ∈ segments, u ∈ output ∨ u = s) →
          t ∈ removeDots rest segments → t ∈ s :: rest ∨ t ∈ output ∨ t = [] := by
        intro segments from_ found
        rcases mem_removeDots found with input | earlier | empty
        · exact .inl (List.mem_cons_of_mem _ input)
        · rcases from_ t earlier with before | same
          · exact .inr (.inl before)
          · exact .inl (same ▸ List.mem_cons_self)
        · exact .inr (.inr empty)
      have last : ∀ {segments : List Bytes}, (∀ u ∈ segments, u ∈ output) →
          t ∈ segments ++ [[]] → t ∈ s :: rest ∨ t ∈ output ∨ t = [] := by
        intro segments from_ found
        rcases List.mem_append.mp found with before | empty
        · exact .inr (.inl (from_ t before))
        · exact .inr (.inr (List.mem_singleton.mp empty))
      rw [removeDots] at h
      split at h
      next =>
        split at h
        next => exact last (fun _ m => m) h
        next => exact later (fun _ m => .inl m) h
      next =>
        split at h
        next =>
          split at h
          next => exact last (fun _ m => List.mem_of_mem_dropLast m) h
          next => exact later (fun _ m => .inl (List.mem_of_mem_dropLast m)) h
        next =>
          refine later (fun u m => ?_) h
          rcases List.mem_append.mp m with before | same
          · exact .inl before
          · exact .inr (List.mem_singleton.mp same)

/-- Something is left of every path. -/
theorem removeDots_ne_nil : ∀ {input output : List Bytes}, input ≠ [] ∨ output ≠ [] →
    removeDots input output ≠ []
  | [], output, h => h.resolve_left fun empty => empty rfl
  | s :: rest, output, _ => by
      rw [removeDots]
      split
      next =>
        split
        next => simp
        next more => exact removeDots_ne_nil (.inl more)
      next =>
        split
        next =>
          split
          next => simp
          next more => exact removeDots_ne_nil (.inl more)
        next => exact removeDots_ne_nil (.inr (by simp))

/-! ## The buffers -/

/-- The first segment, with its slash if it has one. -/
def firstSegment (input : Bytes) : Bytes :=
  input.take 1 ++ (input.drop 1).takeWhile fun b => b != 0x2F

/-- The output buffer without its last segment and the slash before that. -/
def withoutLast (output : Bytes) : Bytes :=
  ((output.reverse.dropWhile fun b => b != 0x2F).drop 1).reverse

/-- One round of the loop: the steps A to E, each taken when none before it applies. -/
def step (input output : Bytes) : Bytes × Bytes :=
  if (ascii "../").isPrefixOf input then (input.drop 3, output)
  else if (ascii "./").isPrefixOf input then (input.drop 2, output)
  else if (ascii "/./").isPrefixOf input then (0x2F :: input.drop 3, output)
  else if input = ascii "/." then ([0x2F], output)
  else if (ascii "/../").isPrefixOf input then (0x2F :: input.drop 4, withoutLast output)
  else if input = ascii "/.." then ([0x2F], withoutLast output)
  else if input = ascii "." ∨ input = ascii ".." then ([], output)
  else (input.drop (firstSegment input).length, output ++ firstSegment input)

theorem take_firstSegment (input : Bytes) :
    input.take (firstSegment input).length = firstSegment input := by
  have isPrefix : firstSegment input <+: input := by
    cases input with
    | nil => exact List.nil_prefix
    | cons b rest => exact (List.prefix_cons_inj b).mpr (List.takeWhile_prefix _)
  exact (List.prefix_iff_eq_take.mp isPrefix).symm

theorem length_of_isPrefixOf {part input : Bytes} (h : part.isPrefixOf input = true) :
    part.length ≤ input.length :=
  (List.isPrefixOf_iff_prefix.mp h).length_le

/-- Every round shortens the input. -/
theorem step_shorter {input : Bytes} (more : input ≠ []) (output : Bytes) :
    (step input output).1.length < input.length := by
  have two : (ascii "./").length = 2 := rfl
  have three : (ascii "../").length = 3 := rfl
  have three' : (ascii "/./").length = 3 := rfl
  have four : (ascii "/../").length = 4 := rfl
  unfold step
  split
  next isPrefix =>
    have := length_of_isPrefixOf isPrefix
    rw [List.length_drop]
    omega
  next =>
    split
    next isPrefix =>
      have := length_of_isPrefixOf isPrefix
      rw [List.length_drop]
      omega
    next =>
      split
      next isPrefix =>
        have := length_of_isPrefixOf isPrefix
        rw [List.length_cons, List.length_drop]
        omega
      next =>
        split
        next whole =>
          rw [whole]
          exact Nat.lt_succ_self 1
        next =>
          split
          next isPrefix =>
            have := length_of_isPrefixOf isPrefix
            rw [List.length_cons, List.length_drop]
            omega
          next =>
            split
            next whole =>
              rw [whole]
              exact Nat.lt_add_of_pos_right (n := 1) (k := 2) Nat.two_pos
            next =>
              split
              next => exact List.length_pos_iff.mpr more
              next =>
                obtain ⟨b, rest, rfl⟩ := List.exists_cons_of_ne_nil more
                have positive : 0 < (firstSegment (b :: rest)).length := Nat.succ_pos _
                rw [List.length_drop]
                simp only [List.length_cons]
                omega

/-- The output buffer at the end, when the input buffer is empty. -/
def removeDotSegments (input output : Bytes) : Bytes :=
  if input = [] then output
  else removeDotSegments (step input output).1 (step input output).2
termination_by input.length
decreasing_by exact step_shorter ‹_› output

@[simp] theorem removeDotSegments_nil (output : Bytes) : removeDotSegments [] output = output := by
  rw [removeDotSegments, if_pos rfl]

theorem removeDotSegments_step {input output input' output' : Bytes} (more : input ≠ [])
    (round : step input output = (input', output')) :
    removeDotSegments input output = removeDotSegments input' output' := by
  rw [removeDotSegments, if_neg more, round]

/-- The round of a single slash. -/
theorem removeDotSegments_slash (output : Bytes) :
    removeDotSegments [0x2F] output = output ++ [0x2F] := by
  have round : step [0x2F] output = ([], output ++ [0x2F]) := rfl
  rw [removeDotSegments_step (List.cons_ne_nil _ _) round, removeDotSegments_nil]

theorem withoutLast_join {segments : List Bytes} (plain : Plain segments) :
    withoutLast (join segments) = join segments.dropLast := by
  rcases List.eq_nil_or_concat segments with rfl | ⟨init, last, rfl⟩
  · rfl
  · have slashless : ∀ b ∈ last.reverse, (b != 0x2F) = true := by
      intro b member
      rw [bne_iff_ne]
      rintro rfl
      exact plain last (by simp) (List.mem_reverse.mp member)
    have reversed :
        (join (init ++ [last])).reverse = last.reverse ++ 0x2F :: (join init).reverse := by
      simp
    rw [List.concat_eq_append] at plain ⊢
    rw [withoutLast, reversed, List.dropWhile_append_of_pos slashless, List.dropLast_concat]
    simp

/-- Another segment is moved to the output. -/
theorem step_segment {s : Bytes} (rest : List Bytes) (output : Bytes) (first : 0x2F ∉ s)
    (isDot : s ≠ dot) (isDots : s ≠ dots) :
    step (join (s :: rest)) output = (join rest, output ++ 0x2F :: s) := by
  -- neither prefix fits, since the first segment ends at the first slash
  have noPrefix : ∀ {part : Bytes}, 0x2F ∉ part → s ≠ part →
      ¬(0x2F :: (part ++ [0x2F])).isPrefixOf (join (s :: rest)) = true := by
    intro part slashless other isPrefix
    obtain ⟨u, same⟩ := List.isPrefixOf_iff_prefix.mp isPrefix
    have tail : s ++ join rest = part ++ 0x2F :: u := by
      have behind : part ++ [0x2F] ++ u = s ++ join rest := (List.cons.inj same).2
      rw [← behind, List.append_assoc, List.singleton_append]
    exact other (append_join_inj first slashless tail).1
  have notWhole : ∀ {part : Bytes}, 0x2F ∉ part → s ≠ part →
      join (s :: rest) ≠ 0x2F :: part := by
    intro part slashless other same
    exact other (eq_of_append_join slashless (List.cons.inj same).2).1
  have dotFree : (0x2F : UInt8) ∉ dot := by decide
  have dotsFree : (0x2F : UInt8) ∉ dots := by decide
  have notDot : join (s :: rest) ≠ ascii "/." := notWhole dotFree isDot
  have notDots : join (s :: rest) ≠ ascii "/.." := notWhole dotsFree isDots
  have notDotSlash : ¬(ascii "/./").isPrefixOf (join (s :: rest)) = true := noPrefix dotFree isDot
  have notDotsSlash : ¬(ascii "/../").isPrefixOf (join (s :: rest)) = true :=
    noPrefix dotsFree isDots
  have relative : ¬(ascii "../").isPrefixOf (join (s :: rest)) = true := Bool.false_ne_true
  have relative' : ¬(ascii "./").isPrefixOf (join (s :: rest)) = true := Bool.false_ne_true
  have bare : ¬(join (s :: rest) = ascii "." ∨ join (s :: rest) = ascii "..") := by
    rintro (same | same) <;> cases same
  have stops : (join rest).takeWhile (fun b => b != 0x2F) = [] := by
    cases rest <;> rfl
  have plain : ∀ b ∈ s, (b != 0x2F) = true := by
    intro b member
    rw [bne_iff_ne]
    rintro rfl
    exact first member
  have moved : firstSegment (join (s :: rest)) = 0x2F :: s := by
    have whole : firstSegment (join (s :: rest)) =
        0x2F :: (s ++ join rest).takeWhile fun b => b != 0x2F := rfl
    rw [whole, List.takeWhile_append_of_pos plain, stops, List.append_nil]
  have left : (join (s :: rest)).drop (0x2F :: s).length = join rest := List.drop_left
  rw [step, if_neg relative, if_neg relative', if_neg notDotSlash, if_neg notDot,
    if_neg notDotsSlash, if_neg notDots, if_neg bare, moved, left]

/-- On a path that starts with a slash the buffers hold segments. -/
theorem removeDotSegments_join : ∀ {input output : List Bytes}, Plain input → Plain output →
    removeDotSegments (join input) (join output) = join (removeDots input output)
  | [], output, _, _ => removeDotSegments_nil _
  | s :: rest, output, plain, plain' => by
      obtain ⟨first, others⟩ := List.forall_mem_cons.mp plain
      have more : join (s :: rest) ≠ [] := List.cons_ne_nil _ _
      have plainLast : Plain output.dropLast := fun t h => plain' t (List.mem_of_mem_dropLast h)
      rw [removeDots]
      split
      next isDot =>
        subst isDot
        cases rest with
        | nil =>
            have round : step (join [dot]) (join output) = ([0x2F], join output) := rfl
            rw [removeDotSegments_step more round, removeDotSegments_slash, if_pos rfl, join_append]
            rfl
        | cons t rest =>
            have round : step (join (dot :: t :: rest)) (join output) =
                (join (t :: rest), join output) := rfl
            rw [removeDotSegments_step more round, if_neg (List.cons_ne_nil _ _)]
            exact removeDotSegments_join others plain'
      next isDot =>
        split
        next isDots =>
          subst isDots
          cases rest with
          | nil =>
              have round : step (join [dots]) (join output) = ([0x2F], withoutLast (join output)) :=
                rfl
              rw [removeDotSegments_step more round, removeDotSegments_slash, if_pos rfl,
                withoutLast_join plain', join_append]
              rfl
          | cons t rest =>
              have round : step (join (dots :: t :: rest)) (join output) =
                  (join (t :: rest), withoutLast (join output)) := rfl
              rw [removeDotSegments_step more round, if_neg (List.cons_ne_nil _ _),
                withoutLast_join plain']
              exact removeDotSegments_join others plainLast
        next isDots =>
          have plainOutput : Plain (output ++ [s]) := by
            intro t member
            rcases List.mem_append.mp member with earlier | same
            · exact plain' t earlier
            · exact List.mem_singleton.mp same ▸ first
          have output' : join output ++ 0x2F :: s = join (output ++ [s]) := by simp
          rw [removeDotSegments_step more (step_segment rest _ first isDot isDots), output']
          exact removeDotSegments_join others plainOutput

end Wire.Segments
