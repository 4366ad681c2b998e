import BoundedAuthority.Go.Uri
import BoundedAuthority.V1.UriNormal
import BoundedAuthority.Wire.DotSegments

/-!
# Dot segments in Go

`normalizePath` takes the escapes of a path apart as the reference does.  Its dot segments
go by a list that starts with the empty text before the leading slash: a `..` that finds no
segment takes that one out, and the slash is put back at the end if the result does not
start with one.  The slash of a final dot segment is written unless the result ends with
one already.  Both repairs miss when the segment next to the slash is empty, and only then
(`normalizePath_rfc_iff`).
-/

namespace BoundedAuthority.Go.Uri

open Wire Percent Segments

/-! ## Escapes -/

set_option maxRecDepth 4096 in
theorem hexVal_eq (c : UInt8) : hexVal c = if isHex c = true then (hexValue c : Int) else -1 :=
  byte_forall (P := fun c => hexVal c = if isHex c = true then (hexValue c : Int) else -1)
    (by decide) c

theorem hexVal_neg_iff {c : UInt8} : hexVal c < 0 ↔ isHex c = false := by
  rw [hexVal_eq]
  cases isHex c with
  | false => simp
  | true => simp

/-- The two halves of an octet, in capitals. -/
theorem upperHexDigit_halves : ∀ a b : Fin 16,
    upperHexDigit (UInt8.ofNat (a.val * 16 + b.val) >>> 4) = upperHexDigit (UInt8.ofNat a.val) ∧
      upperHexDigit (UInt8.ofNat (a.val * 16 + b.val) &&& 0xF) =
        upperHexDigit (UInt8.ofNat b.val) := by
  decide

set_option maxRecDepth 4096 in
theorem upperHexDigit_hexValue {c : UInt8} (h : isHex c = true) :
    upperHexDigit (UInt8.ofNat (hexValue c)) = upperHex c := by
  revert h
  exact byte_forall (P := fun c => isHex c = true → upperHexDigit (UInt8.ofNat (hexValue c)) =
    upperHex c) (by decide) c

/-- An escape is decoded to the octet of its digits, and written in capitals again. -/
theorem upperHexDigit_octet {high low : UInt8} (hHigh : isHex high = true)
    (hLow : isHex low = true) :
    upperHexDigit (octet high low >>> 4) = upperHex high ∧
      upperHexDigit (octet high low &&& 0xF) = upperHex low := by
  have halves := upperHexDigit_halves ⟨_, hexValue_lt hHigh⟩ ⟨_, hexValue_lt hLow⟩
  rw [upperHexDigit_hexValue hHigh, upperHexDigit_hexValue hLow] at halves
  exact halves

theorem decodeEscape_eq (high low : UInt8) :
    decodeEscape high low =
      if (isHex high && isHex low) = true then some (octet high low) else none := by
  have signs : hexVal high < 0 ∨ hexVal low < 0 ↔ ¬(isHex high && isHex low) = true := by
    rw [hexVal_neg_iff, hexVal_neg_iff, ← Bool.and_eq_false_iff, Bool.not_eq_true]
  rw [decodeEscape]
  simp only [signs]
  by_cases hex : (isHex high && isHex low) = true
  · obtain ⟨hHigh, hLow⟩ := Bool.and_eq_true_iff.mp hex
    have halves : hexValue high <<< 4 ||| hexValue low = hexValue high * 16 + hexValue low := by
      rw [← Nat.shiftLeft_add_eq_or_of_lt (hexValue_lt hLow), Nat.shiftLeft_eq]
    rw [if_neg (not_not.mpr hex), if_pos hex, hexVal_eq, hexVal_eq, if_pos hHigh, if_pos hLow,
      Int.toNat_natCast, Int.toNat_natCast, halves]
    rfl
  · rw [if_pos hex, if_neg hex]

/-- The loop over the escapes is the normal form. -/
theorem normalizeEscapes_eq (allowed : UInt8 → Bool) (write : UInt8 → UInt8) (bs : Bytes) :
    normalizeEscapes allowed write bs = Percent.normalize allowed write bs := by
  fun_induction normalizeEscapes allowed write bs with
  | case1 => rfl
  | case2 high low rest ih =>
      rw [decodeEscape_eq]
      by_cases hex : (isHex high && isHex low) = true
      · obtain ⟨hHigh, hLow⟩ := Bool.and_eq_true_iff.mp hex
        obtain ⟨first, second⟩ := upperHexDigit_octet hHigh hLow
        rw [if_pos hex, normalize_escape hex, ih, escaped, Option.bind_eq_bind, Option.bind_some,
          first, second]
        cases Percent.normalize allowed write rest with
        | none => rfl
        | some later => split <;> rfl
      · rw [if_neg hex, normalize_malformed hex]
        rfl
  | case3 rest short => exact (normalize_short short).symm
  | case4 c rest percent plain ih => rw [normalize_literal percent plain, ih]
  | case5 c rest percent refused => exact (normalize_refused percent refused).symm

theorem normalizePathBytes_eq (path : Bytes) :
    normalizeEscapes pathChar id path = V1.UriPath.normalizeBytes path := by
  have same : pathChar = V1.UriPath.pathByte := by
    funext c
    have marks : (ascii "/:@").contains c = (c == 0x2F || (ascii ":@").contains c) := rfl
    rw [pathChar, V1.UriPath.pathByte, marks]
    generalize (ascii ":@").contains c = mark
    cases c == 0x2F <;> cases isUnreserved c <;> cases isSubDelim c <;> rfl
  rw [same]
  exact normalizeEscapes_eq _ _ _

/-! ## Texts and segments -/

theorem cutLast_append {c : UInt8} (before : Bytes) {after : Bytes} (h : c ∉ after) :
    cutLast c (before ++ c :: after) = some (before, after) := by
  have reversed : (before ++ c :: after).reverse = after.reverse ++ c :: before.reverse := by simp
  have parts :
      cut [c] (after.reverse ++ c :: before.reverse) = some (after.reverse, before.reverse) :=
    cut_singleton_append before.reverse (by simpa using h)
  rw [cutLast, reversed, parts]
  simp

theorem cutLast_eq_none {c : UInt8} {s : Bytes} : cutLast c s = none ↔ c ∉ s := by
  rw [cutLast, Option.map_eq_none_iff, cut_singleton_eq_none, List.mem_reverse]

theorem hasSuffix_iff {s part : Bytes} : hasSuffix s part = true ↔ part <:+ s :=
  List.isSuffixOf_iff_suffix

/-- A text ends as its last segment does. -/
theorem isSuffix_iff {x t : Bytes} {segments : List Bytes} (first : 0x2F ∉ x)
    (plain : Plain segments)
    (slashless : 0x2F ∉ t) : 0x2F :: t <:+ x ++ join segments ↔ segments.getLast? = some t := by
  rcases List.eq_nil_or_concat segments with rfl | ⟨init, last, rfl⟩
  · constructor
    · rintro ⟨u, same⟩
      have member : (0x2F : UInt8) ∈ x ++ join [] := by
        rw [← same]
        simp
      rw [join_nil, List.append_nil] at member
      exact (first member).elim
    · intro none
      cases none
  · rw [List.concat_eq_append] at plain ⊢
    have lastPlain : 0x2F ∉ last := plain last (by simp)
    have whole : x ++ join (init ++ [last]) = (x ++ join init) ++ 0x2F :: last := by simp
    rw [List.getLast?_concat, whole]
    constructor
    · rintro ⟨u, same⟩
      have parts := cutLast_append u slashless
      rw [same, cutLast_append _ lastPlain] at parts
      exact congrArg (fun parts : Bytes × Bytes => some parts.2) (Option.some.inj parts)
    · intro same
      rw [Option.some.inj same]
      exact List.suffix_append _ _

theorem splitGlobal_append_join : ∀ {s : Bytes} {rest : List Bytes}, Plain (s :: rest) →
    splitGlobal (ascii "/") (s ++ join rest) = s :: rest
  | s, [], plain => by
      rw [join_nil, List.append_nil]
      exact splitGlobal_singleton (plain s List.mem_cons_self)
  | s, t :: rest, plain => by
      obtain ⟨first, others⟩ := List.forall_mem_cons.mp plain
      have parts := splitGlobal_singleton_append first (t ++ join rest)
      exact parts.trans (congrArg (s :: ·) (splitGlobal_append_join others))

/-- The loop starts with the empty text before the leading slash. -/
theorem splitGlobal_join {segments : List Bytes} (plain : Plain segments) :
    splitGlobal (ascii "/") (join segments) = [] :: segments :=
  splitGlobal_append_join (List.forall_mem_cons.mpr ⟨List.not_mem_nil, plain⟩)

theorem intercalate_cons : ∀ (s : Bytes) (rest : List Bytes),
    (ascii "/").intercalate (s :: rest) = s ++ join rest
  | s, [] => by rw [List.intercalate_singleton, join_nil, List.append_nil]
  | s, t :: rest => by
      rw [List.intercalate_cons_cons, intercalate_cons, List.append_assoc]
      rfl

theorem pushSegment_eq (output : List Bytes) (s : Bytes) :
    pushSegment output s = push output s := by
  have same : pushSegment output s = if s = dot then output
      else if s = dots then if output.length > 0 then output.dropLast else output
      else output ++ [s] := rfl
  rw [same, push]
  split
  next => rfl
  next =>
    split
    next =>
      cases output with
      | nil => rfl
      | cons t rest => exact if_pos (Nat.succ_pos _)
    next => rfl

theorem foldl_pushSegment (input output : List Bytes) :
    input.foldl pushSegment output = kept input output := by
  have same : pushSegment = push := by
    funext output s
    exact pushSegment_eq output s
  rw [same, kept]

theorem plain_kept {input : List Bytes} (plain : Plain input) : Plain (kept input []) := by
  intro t member
  cases input with
  | nil => cases member
  | cons s rest =>
      have left : t ∈ removeDots (s :: rest) [] := by
        rw [removeDots_eq [] (List.cons_ne_nil s rest)]
        exact List.mem_append_left _ member
      rcases mem_removeDots left with known | known | rfl
      · exact plain t known
      · cases known
      · exact List.not_mem_nil

/-- A last segment that is no dot segment is left. -/
theorem kept_ne_nil {input : List Bytes} (some_ : input ≠ []) (plainLast : ¬EndsInDots input) :
    kept input [] ≠ [] := by
  have whole := removeDots_eq [] some_
  rw [if_neg plainLast, List.append_nil] at whole
  rw [← whole]
  exact removeDots_ne_nil (.inl some_)

/-! ## The two repairs -/

/-- The slash that is put before a result without one. -/
def finish (out : Bytes) : Bytes :=
  let out := if out = [] then ascii "/" else out
  if out.head? = some 0x2F then out else 0x2F :: out

/-- The slash of a final dot segment, before the one in front. -/
def close (trailing : Bool) (res : Bytes) : Bytes :=
  if trailing then if hasSuffix res (ascii "/") then res else res ++ ascii "/" else res

theorem finish_join {segments : List Bytes} (some_ : segments ≠ []) :
    finish (join segments) = join segments := by
  cases segments with
  | nil => exact (some_ rfl).elim
  | cons s rest => rfl

theorem finish_cons {b : UInt8} {s : Bytes} (other : b ≠ 0x2F) :
    finish (b :: s) = 0x2F :: b :: s := by
  have notSlash : ¬some b = some (0x2F : UInt8) := fun same => other (Option.some.inj same)
  rw [finish, if_neg (List.cons_ne_nil b s), List.head?_cons, if_neg notSlash]

theorem normalizePath_cons {rest n : Bytes}
    (valid : V1.UriPath.normalizeBytes (0x2F :: rest) = some n) :
    normalizePath (0x2F :: rest) = some (finish (removeDotSegments n)) := by
  rw [normalizePath, if_neg (List.cons_ne_nil _ _), normalizePathBytes_eq, valid]
  rfl

/-- What the loop leaves, written out. -/
theorem removeDotSegments_eq {segments : List Bytes} (plain : Plain segments) :
    removeDotSegments (join segments) = close (decide (EndsInDots segments))
      ((ascii "/").intercalate ((if climbs segments [] then [] else [[]]) ++
        kept segments [])) := by
  have first : pushSegment [] [] = [([] : Bytes)] := rfl
  have notDot : join segments ≠ ascii "." := by
    cases segments with
    | nil => exact (List.cons_ne_nil _ _).symm
    | cons s rest => exact fun same => absurd (List.cons.inj same).1 (by decide)
  have notDots : join segments ≠ ascii ".." := by
    cases segments with
    | nil => exact (List.cons_ne_nil _ _).symm
    | cons s rest => exact fun same => absurd (List.cons.inj same).1 (by decide)
  have ends : ∀ {t : Bytes}, 0x2F ∉ t →
      (hasSuffix (join segments) (0x2F :: t) = true ↔ segments.getLast? = some t) := by
    intro t slashless
    rw [hasSuffix_iff]
    exact isSuffix_iff (x := []) List.not_mem_nil plain slashless
  have trailing : (hasSuffix (join segments) (ascii "/.") = true ∨
      hasSuffix (join segments) (ascii "/..") = true ∨ join segments = ascii "." ∨
        join segments = ascii "..") ↔ EndsInDots segments := by
    have one := ends (t := dot) (by decide)
    have two := ends (t := dots) (by decide)
    constructor
    · intro h
      rcases h with h | h | h | h
      · exact .inl (one.mp h)
      · exact .inr (two.mp h)
      · exact (notDot h).elim
      · exact (notDots h).elim
    · intro h
      rcases h with h | h
      · exact .inl (one.mpr h)
      · exact .inr (.inl (two.mpr h))
  rw [removeDotSegments, splitGlobal_join plain, List.foldl_cons, first, foldl_pushSegment,
    kept_under, close]
  simp only [trailing, decide_eq_true_eq]

theorem length_finish_le (out : Bytes) : (finish out).length ≤ out.length + 1 := by
  cases out with
  | nil => exact le_rfl
  | cons b s =>
      rw [finish, if_neg (List.cons_ne_nil b s)]
      split
      next => exact Nat.le_succ _
      next => exact le_rfl

/-- With the leading empty text still there, a final dot segment misses its slash when the
segment left before it is empty. -/
theorem finish_close_below {left : List Bytes} (plain : Plain left) {trailing : Bool}
    (more : trailing = false → left ≠ []) :
    finish (close trailing (join left)) = join (left ++ if trailing then [[]] else []) ↔
      ¬(trailing = true ∧ left.getLast? = some []) := by
  cases trailing with
  | false =>
      have same : left ++ (if false = true then [[]] else []) = left := List.append_nil left
      rw [same, close, if_neg Bool.false_ne_true, finish_join (more rfl)]
      simp
  | true =>
      have ends : hasSuffix (join left) (ascii "/") = true ↔ left.getLast? = some [] := by
        rw [hasSuffix_iff]
        exact isSuffix_iff (x := []) (t := []) List.not_mem_nil plain List.not_mem_nil
      have closed : join (left ++ [[]]) = join left ++ ascii "/" := join_append left [[]]
      rw [close, if_pos rfl, if_pos rfl, closed]
      by_cases empty : left.getLast? = some []
      · rw [if_pos (ends.mpr empty)]
        have some_ : left ≠ [] := by
          rintro rfl
          cases empty
        rw [finish_join some_]
        simp [empty, ascii]
      · rw [if_neg fun h => empty (ends.mp h), ← closed,
          finish_join (List.append_ne_nil_of_right_ne_nil left (List.cons_ne_nil _ _))]
        simp [empty]

/-- With the leading empty text gone, the slash in front is missed as well when the first
segment left is empty and something follows it. -/
theorem finish_close_climbed {left : List Bytes} (plain : Plain left) {trailing : Bool}
    (more : trailing = false → left ≠ []) :
    finish (close trailing ((ascii "/").intercalate left)) =
        join (left ++ if trailing then [[]] else []) ↔
      ¬((trailing = true ∧ left.getLast? = some []) ∨
        ∃ q, left = [] :: q ∧ (q ≠ [] ∨ trailing = true)) := by
  cases left with
  | nil =>
      cases trailing with
      | false => exact (more rfl rfl).elim
      | true => simp [close, finish, hasSuffix, ascii]
  | cons s rest =>
      obtain ⟨first, others⟩ := List.forall_mem_cons.mp plain
      have ends : hasSuffix (s ++ join rest) (ascii "/") = true ↔ rest.getLast? = some [] := by
        rw [hasSuffix_iff]
        exact isSuffix_iff (t := []) first others List.not_mem_nil
      rw [intercalate_cons]
      cases s with
      | nil =>
          -- an empty segment in front: the result starts with the slash behind it, if there is one
          rw [List.nil_append] at ends ⊢
          cases rest with
          | nil => cases trailing <;> simp [close, finish, hasSuffix, ascii]
          | cons t rest =>
              have short : (finish (close trailing (join (t :: rest)))).length <
                  (join ([] :: t :: rest ++ if trailing then [[]] else [])).length := by
                have absolute : finish (close trailing (join (t :: rest))) =
                    close trailing (join (t :: rest)) := by
                  cases trailing with
                  | false => rfl
                  | true =>
                      rw [close, if_pos rfl]
                      split <;> rfl
                rw [absolute, close]
                cases trailing with
                | false => simp
                | true =>
                    rw [if_pos rfl]
                    split <;> simp [ascii]
              constructor
              · intro same
                rw [same] at short
                exact (lt_irrefl _ short).elim
              · intro fine
                exact (fine (.inr ⟨_, rfl, .inl (List.cons_ne_nil t rest)⟩)).elim
      | cons b s =>
          have other : b ≠ 0x2F := fun same => first (same ▸ List.mem_cons_self)
          have notEmpty : ¬∃ q, (b :: s) :: rest = [] :: q ∧ (q ≠ [] ∨ trailing = true) := by
            rintro ⟨q, same, _⟩
            cases (List.cons.inj same).1
          have last : ((b :: s) :: rest).getLast? = some [] ↔ rest.getLast? = some [] := by
            cases rest with
            | nil => simp
            | cons t rest => rw [List.getLast?_cons_cons]
          rw [last, or_iff_left notEmpty]
          cases trailing with
          | false =>
              have same : finish (close false (b :: s ++ join rest)) = join ((b :: s) :: rest) :=
                finish_cons other
              have whole :
                  (b :: s) :: rest ++ (if false = true then [[]] else []) = (b :: s) :: rest :=
                List.append_nil _
              rw [whole, same]
              exact ⟨fun _ h => Bool.false_ne_true h.1, fun _ => rfl⟩
          | true =>
              have closed :
                  join ((b :: s) :: rest ++ [[]]) = 0x2F :: (b :: s ++ join rest) ++ ascii "/" :=
                join_append _ [[]]
              rw [close, if_pos rfl, if_pos rfl, closed]
              by_cases empty : rest.getLast? = some []
              · rw [if_pos (ends.mpr empty)]
                have short := length_finish_le (b :: s ++ join rest)
                have differ : finish (b :: s ++ join rest) ≠
                    0x2F :: (b :: s ++ join rest) ++ ascii "/" := by
                  intro same
                  rw [same] at short
                  simp [ascii] at short
                exact ⟨fun same => (differ same).elim, fun fine => (fine ⟨rfl, empty⟩).elim⟩
              · rw [if_neg fun h => empty (ends.mp h)]
                have same : finish (b :: s ++ join rest ++ ascii "/") =
                    0x2F :: (b :: s ++ join rest) ++ ascii "/" := finish_cons other
                rw [same]
                exact ⟨fun _ h => empty h.2, fun _ => rfl⟩

/-! ## The paths that are not normalized -/

/-- An empty segment with nothing but what cancels out behind it, up to the end. -/
def EmptyBeforeDots (segments : List Bytes) : Prop :=
  ∃ pre w, segments = pre ++ [] :: w ∧ w ≠ [] ∧ Vanishes w

/-- An empty segment that is not the last, with nothing left before it, where a `..` has
found no segment, and where none behind it climbs back. -/
def EmptyAfterClimb (segments : List Bytes) : Prop :=
  ∃ pre post, segments = pre ++ [] :: post ∧ post ≠ [] ∧ kept pre [] = [] ∧
    climbs pre [] = true ∧ climbs post [] = false

theorem emptyBeforeDots_iff (segments : List Bytes) : EmptyBeforeDots segments ↔
    EndsInDots segments ∧ (kept segments []).getLast? = some [] := by
  constructor
  · rintro ⟨pre, w, same, some_, vanishes⟩
    obtain ⟨q, left⟩ := kept_eq_append_iff.mpr ⟨pre, w, same, by decide, by decide, vanishes⟩
    have last : EndsInDots ([] :: w) := by
      rw [← List.singleton_append, endsInDots_append [[]] some_]
      exact vanishes.endsInDots some_
    refine ⟨?_, ?_⟩
    · rw [same, endsInDots_append pre (List.cons_ne_nil _ _)]
      exact last
    · rw [left]
      exact List.getLast?_concat
  · rintro ⟨ends, last⟩
    have left := List.getLast?_eq_some_iff.mp last
    obtain ⟨pre, w, same, -, -, vanishes⟩ := kept_eq_append_iff.mp left
    refine ⟨pre, w, same, ?_, vanishes⟩
    rintro rfl
    rw [same, EndsInDots, List.getLast?_concat] at ends
    rcases ends with h | h <;> exact absurd (Option.some.inj h) (by decide)

theorem emptyAfterClimb_iff (segments : List Bytes) : EmptyAfterClimb segments ↔
    climbs segments [] = true ∧
      ∃ q, kept segments [] = [] :: q ∧ (q ≠ [] ∨ EndsInDots segments) := by
  have ends : ∀ {pre post : List Bytes}, EndsInDots (pre ++ [] :: post) ↔
      post ≠ [] ∧ EndsInDots post := by
    intro pre post
    rw [endsInDots_append pre (List.cons_ne_nil _ _)]
    cases post with
    | nil =>
        have plain : ¬EndsInDots [([] : Bytes)] := by decide
        simp [plain]
    | cons s post =>
        rw [← List.singleton_append, endsInDots_append [[]] (List.cons_ne_nil _ _)]
        simp
  constructor
  · rintro ⟨pre, post, same, some_, nothing, climb, stays⟩
    obtain ⟨left, climb'⟩ := kept_of_cons (s := []) (by decide) (by decide) nothing stays
    rw [same]
    refine ⟨climb'.trans climb, _, left, ?_⟩
    rw [ends]
    by_cases plainLast : EndsInDots post
    · exact .inr ⟨some_, plainLast⟩
    · exact .inl (kept_ne_nil some_ plainLast)
  · rintro ⟨climb, q, left, more⟩
    obtain ⟨pre, post, same, isDot, isDots, nothing, stays, rest⟩ := exists_of_kept_cons left
    rw [same, (kept_of_cons isDot isDots nothing stays).2] at climb
    refine ⟨pre, post, same, ?_, nothing, climb, stays⟩
    rintro rfl
    rcases more with some_ | dots
    · exact some_ rest.symm
    · rw [same, ends] at dots
      exact dots.1 rfl

/-- A path that the reference takes is normalized to the same bytes, which are those of
RFC 3986, unless an empty segment ends up next to a slash that is put back. -/
theorem normalizePath_rfc_iff {rest n : Bytes}
    (valid : V1.UriPath.normalizeBytes (0x2F :: rest) = some n) :
    ∃ segments, n = join segments ∧ segments ≠ [] ∧ Plain segments ∧
      ((normalizePath (0x2F :: rest) = some (Segments.removeDotSegments n []) ∧
          normalizePath (0x2F :: rest) = V1.UriPath.normalize (0x2F :: rest)) ↔
        ¬(EmptyBeforeDots segments ∨ EmptyAfterClimb segments)) := by
  obtain ⟨segments, rfl, some_, plain, -⟩ := V1.UriPath.normalizeBytes_eq_some valid
  refine ⟨segments, rfl, some_, plain, ?_⟩
  have rfc : Segments.removeDotSegments (join segments) [] = join (removeDots segments []) :=
    Segments.removeDotSegments_join plain fun _ h => (List.not_mem_nil h).elim
  have reference : V1.UriPath.normalize (0x2F :: rest) =
      some (Segments.removeDotSegments (join segments) []) := by
    have removed : V1.UriPath.removeDotSegments (join segments).length (join segments) [] =
        Segments.removeDotSegments (join segments) [] :=
      V1.UriPath.removeDotSegments_eq (absolute_join segments) le_rfl
    have nonempty : join (removeDots segments []) ≠ [] := by
      obtain ⟨s, later, same⟩ := List.exists_cons_of_ne_nil (removeDots_ne_nil (.inl some_))
      rw [same]
      exact List.cons_ne_nil _ _
    simp only [V1.UriPath.normalize, valid, removed, rfc, nonempty, Option.bind_eq_bind,
      Option.bind_some, guard_true, Option.pure_def, ne_eq, not_false_eq_true]
  rw [reference, and_self_iff, normalizePath_cons valid, Option.some.injEq, rfc,
    removeDots_eq [] some_, removeDotSegments_eq plain, emptyBeforeDots_iff, emptyAfterClimb_iff]
  have left := plain_kept plain
  have more : decide (EndsInDots segments) = false → kept segments [] ≠ [] := fun h =>
    kept_ne_nil some_ (of_decide_eq_false h)
  cases climb : climbs segments [] with
  | false =>
      have below := finish_close_below left more
      have joined :
          (ascii "/").intercalate ((if false = true then [] else [[]]) ++ kept segments []) =
          join (kept segments []) := intercalate_cons [] _
      simp only [decide_eq_true_eq] at below
      rw [joined, below]
      simp
  | true =>
      have climbed := finish_close_climbed left more
      simp only [decide_eq_true_eq] at climbed
      rw [if_pos rfl, List.nil_append, climbed]
      simp

theorem normalizePath_rfc_iff_sample : ∃ segments, ascii "/a/b/../c" = join segments ∧
    segments ≠ [] ∧
    Plain segments ∧ ((normalizePath (ascii "/a/b/../c") =
          some (Segments.removeDotSegments (ascii "/a/b/../c") []) ∧
        normalizePath (ascii "/a/b/../c") = V1.UriPath.normalize (ascii "/a/b/../c")) ↔
      ¬(EmptyBeforeDots segments ∨ EmptyAfterClimb segments)) :=
  @normalizePath_rfc_iff (ascii "a/b/../c") _ (by decide +kernel)

/-- The slash behind an empty segment is taken for that of the final dot segment. -/
theorem trailing_empty_lost : ¬∀ rest n : Bytes, V1.UriPath.normalizeBytes (0x2F :: rest) = some n →
    normalizePath (0x2F :: rest) = V1.UriPath.normalize (0x2F :: rest) := by
  intro always
  have same := always (ascii "a//.") (ascii "/a//.") (by decide)
  revert same
  decide

end BoundedAuthority.Go.Uri
