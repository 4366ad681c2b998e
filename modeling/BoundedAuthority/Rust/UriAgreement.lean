import BoundedAuthority.Rust.Uri
import BoundedAuthority.V1.Ipv6
import BoundedAuthority.V1.UriNormal
import Mathlib.Data.List.TakeWhile

/-!
# The two readers of target URIs

Both follow one grammar but for two kinds of hosts.  An address in brackets that ends in
dotted decimal is an address to the first reader only, and a text of digits and dots that
is not four numbers is a registered name to the second only.  On every other URI the two
give the same bytes (`uriNormalize_agrees`).
-/

namespace BoundedAuthority.Rust.Uri

open Wire Percent Segments
open Ipv6 (elision cut_elision_cons)
open V1 (Bounds)
open V1.Uri (dottedDigits validIpv4Tail validIpv4Octet validIpv6Literal validIpLiteral
  validIpvFuture validHexGroup ipv6SideLength ipv6GroupsLength regNameByte splitHttps
  validIpv6Literal_iff)

/-! ## Slices -/

theorem position_eq_none {c : UInt8} {bs : Bytes} : position c bs = none ↔ c ∉ bs := by
  rw [position, List.findIdx?_eq_none_iff]
  constructor
  · intro none member
    have := none c member
    simp at this
  · intro notMem b member
    rw [beq_eq_false_iff_ne]
    rintro rfl
    exact notMem member

theorem position_append {c : UInt8} {before : Bytes} (after : Bytes) (h : c ∉ before) :
    position c (before ++ c :: after) = some before.length := by
  have none := position_eq_none.mpr h
  rw [position] at none ⊢
  rw [List.findIdx?_append, none]
  simp [List.findIdx?_cons]

/-- A byte is found where the text is cut. -/
theorem position_eq_some {c : UInt8} {bs : Bytes} {i : Nat} (h : position c bs = some i) :
    bs = bs.take i ++ c :: bs.drop (i + 1) ∧ c ∉ bs.take i := by
  rw [position, List.findIdx?_eq_some_iff_getElem] at h
  obtain ⟨bound, found, earlier⟩ := h
  rw [beq_iff_eq] at found
  constructor
  · rw [← found, ← List.drop_eq_getElem_cons bound, List.take_append_drop]
  · intro member
    obtain ⟨j, inside, same⟩ := List.mem_take_iff_getElem.mp member
    have := earlier j (by omega)
    rw [same] at this
    simp at this

theorem cut_eq_position (c : UInt8) (bs : Bytes) :
    cut [c] bs = (position c bs).map fun i => (bs.take i, bs.drop (i + 1)) := by
  cases found : position c bs with
  | none => exact cut_singleton_eq_none.mpr (position_eq_none.mp found)
  | some i =>
      obtain ⟨whole, first⟩ := position_eq_some found
      have parts := cut_singleton_append (bs.drop (i + 1)) first
      rw [← whole] at parts
      rw [parts]
      rfl

theorem split_eq (c : UInt8) (bs : Bytes) : split c bs = splitGlobal [c] bs := by
  induction bs with
  | nil => rfl
  | cons b rest ih =>
      have whole := splitGlobal_eq (List.cons_ne_nil c []) (b :: rest)
      have later := splitGlobal_eq (List.cons_ne_nil c []) rest
      rw [whole, split]
      by_cases same : b = c
      · rw [if_pos same, ih]
        simp [cut, same]
      · have search : cut [c] (b :: rest) =
            (cut [c] rest).map fun parts => (b :: parts.1, parts.2) := by
          have noPrefix : ¬List.isPrefixOf [c] (b :: rest) = true := by
            simp [List.isPrefixOf, Ne.symm same]
          rw [cut, if_neg noPrefix]
        rw [if_neg same, ih, later, search]
        cases cut [c] rest with
        | none => rfl
        | some parts => rfl

theorem split_ne_nil (c : UInt8) (bs : Bytes) : split c bs ≠ [] := by
  rw [split_eq]
  exact splitGlobal_ne_nil _ _

/-- A byte other than the separator is in a part. -/
theorem exists_part {c b : UInt8} (other : b ≠ c) : ∀ {bs : Bytes}, b ∈ bs →
    ∃ part ∈ split c bs, b ∈ part
  | [], member => by cases member
  | a :: rest, member => by
      rw [split]
      rcases List.mem_cons.mp member with rfl | later
      · rw [if_neg other]
        split
        · exact ⟨[b], by simp, by simp⟩
        next part parts _ => exact ⟨b :: part, by simp, by simp⟩
      · obtain ⟨part, known, inside⟩ := exists_part other later
        split
        · exact ⟨part, by simp [known], inside⟩
        · split
          next empty =>
            rw [empty] at known
            cases known
          next first parts same =>
            rw [same, List.mem_cons] at known
            rcases known with rfl | known
            · exact ⟨a :: part, by simp, by simp [inside]⟩
            · exact ⟨part, by simp [known], inside⟩

/-! ## Escapes -/

/-- The loop over the escapes is the normal form, since a percent sign stands for
nothing alone. -/
theorem normalizeEscapes_eq {allowed : UInt8 → Bool} {literal : UInt8 → UInt8}
    (rules : Rules allowed literal) (bs : Bytes) :
    normalizeEscapes allowed literal bs = Percent.normalize allowed literal bs := by
  fun_induction normalizeEscapes allowed literal bs with
  | case1 => rfl
  | case2 c rest plain ih => rw [normalize_literal (rules.ne_percent plain) plain, ih]
  | case3 h1 h2 rest hex plain =>
      rw [normalize_malformed]
      simp only [Bool.or_eq_true, Bool.not_eq_true'] at hex
      rcases hex with hex | hex <;> simp [hex]
  | case4 h1 h2 rest hex single plain ih =>
      simp only [Bool.or_eq_true, Bool.not_eq_true', not_or, Bool.not_eq_false] at hex
      rw [normalize_escape (by simp [hex]), ih, escaped, if_pos single]
      rfl
  | case5 h1 h2 rest hex reserved plain ih =>
      simp only [Bool.or_eq_true, Bool.not_eq_true', not_or, Bool.not_eq_false] at hex
      rw [normalize_escape (by simp [hex]), ih, escaped, if_neg reserved]
  | case6 rest short plain => exact (normalize_short short).symm
  | case7 c rest plain percent => exact (normalize_refused percent plain).symm

theorem normalizePathBytes_eq (path : Bytes) :
    normalizePathBytes path = V1.UriPath.normalizeBytes path := by
  have same : (fun c => isUnreserved c || isSubDelim c || c == 0x3A || c == 0x40 || c == 0x2F) =
      V1.UriPath.pathByte := by
    funext c
    have marks : ascii "/:@" = [0x2F, 0x3A, 0x40] := rfl
    have among : (ascii "/:@").contains c = (c == 0x2F || (c == 0x3A || c == 0x40)) := by
      rw [marks, List.contains_cons, List.contains_cons, List.contains_cons, List.contains_nil,
        Bool.or_false]
    rw [V1.UriPath.pathByte, among, Bool.or_assoc, Bool.or_assoc, Bool.or_assoc, ← Bool.or_assoc,
      Bool.or_comm (c == 0x2F), Bool.or_assoc (c == 0x3A)]
  rw [normalizePathBytes, same, normalizeEscapes_eq V1.UriPath.pathRules]
  rfl

theorem normalizeRegName_eq (s : Bytes) :
    normalizeRegName s = Percent.normalize regNameByte lower s :=
  normalizeEscapes_eq V1.Uri.regNameRules s

/-! ## Paths -/

theorem rposition_eq_none {c : UInt8} {bs : Bytes} (h : c ∉ bs) : rposition c bs = none := by
  rw [rposition, position_eq_none.mpr (by simpa using h)]
  rfl

theorem rposition_append {c : UInt8} (before : Bytes) {after : Bytes} (h : c ∉ after) :
    rposition c (before ++ c :: after) = some before.length := by
  have reversed : (before ++ c :: after).reverse = after.reverse ++ c :: before.reverse := by simp
  have found : position c (after.reverse ++ c :: before.reverse) = some after.reverse.length :=
    position_append before.reverse (by simpa using h)
  rw [rposition, reversed, found]
  simp

theorem popLastSegment_eq (output : Bytes) : popLastSegment output = withoutLast output := by
  have slashless : ∀ {bs : Bytes}, 0x2F ∉ bs → ∀ b ∈ bs.reverse, (b != 0x2F) = true := by
    intro bs free b member
    rw [bne_iff_ne]
    rintro rfl
    exact free (List.mem_reverse.mp member)
  by_cases free : 0x2F ∈ output
  · obtain ⟨after, before, reversed, last⟩ := List.eq_append_cons_of_mem (List.mem_reverse.mpr free)
    have whole : output = before.reverse ++ 0x2F :: after.reverse := by
      rw [← List.reverse_reverse output, reversed]
      simp
    have last' : 0x2F ∉ after.reverse := by simpa using last
    rw [popLastSegment, whole, rposition_append _ last', withoutLast, ← whole, reversed,
      List.dropWhile_append_of_pos (by simpa using slashless last')]
    simp [whole]
  · rw [popLastSegment, rposition_eq_none free, withoutLast,
      List.dropWhile_eq_nil_iff.mpr (slashless free)]
    rfl

/-- What the loop moves to the output is the first segment. -/
theorem length_firstSegment {input : Bytes} (more : input ≠ []) {start : Nat}
    (skip : start = if input.head? = some 0x2F then 1 else 0) :
    start + ((input.drop start).takeWhile fun b => b != 0x2F).length =
      (firstSegment input).length := by
  obtain ⟨b, rest, rfl⟩ := List.exists_cons_of_ne_nil more
  have segment : firstSegment (b :: rest) = b :: rest.takeWhile fun b => b != 0x2F := rfl
  by_cases slash : b = 0x2F
  · have one : start = 1 := skip.trans (if_pos (congrArg some slash))
    rw [one, segment, List.length_cons, Nat.add_comm]
    rfl
  · have own : (b :: rest).takeWhile (fun b => b != 0x2F) =
        b :: rest.takeWhile fun b => b != 0x2F := List.takeWhile_cons_of_pos (bne_iff_ne.mpr slash)
    have zero : start = 0 := skip.trans (if_neg fun same => slash (Option.some.inj same))
    rw [zero, List.drop_zero, own, segment, Nat.zero_add]

/-- Each turn of the loop is a round of the buffers. -/
theorem removeDotSegments_eq : ∀ {fuel : Nat} {input : Bytes} (output : Bytes),
    input.length ≤ fuel →
    removeDotSegments fuel input output = Segments.removeDotSegments input output
  | 0, input, output, enough => by
      rw [List.eq_nil_of_length_eq_zero (Nat.le_zero.mp enough), Segments.removeDotSegments_nil]
      rfl
  | fuel + 1, input, output, enough => by
      rw [removeDotSegments]
      split
      next empty => rw [empty, Segments.removeDotSegments_nil]
      next more =>
        have bound : (step input output).1.length ≤ fuel :=
          Nat.le_of_lt_succ ((step_shorter more output).trans_le enough)
        have slash : ∀ {part : Bytes}, (0x2F :: part).isPrefixOf input = true →
            input.take 1 = [0x2F] := by
          intro part isPrefix
          obtain ⟨rest, rfl⟩ := List.isPrefixOf_iff_prefix.mp isPrefix
          rfl
        have round : step input output = ((step input output).1, (step input output).2) := rfl
        rw [Segments.removeDotSegments_step more round, ← removeDotSegments_eq _ bound, step]
        split
        next => rfl
        next =>
          split
          next => rfl
          next =>
            split
            next dotSlash =>
              rw [slash dotSlash]
              rfl
            next =>
              split
              next => rfl
              next =>
                split
                next dotsSlash =>
                  rw [slash dotsSlash, popLastSegment_eq]
                  rfl
                next =>
                  split
                  next =>
                    rw [popLastSegment_eq]
                    rfl
                  next =>
                    split
                    next => cases fuel <;> rfl
                    next => simp only [length_firstSegment more rfl, take_firstSegment]

/-- A path is normalized by both in the same way. -/
theorem normalizePath_eq {path : Bytes} (absolute : Absolute path) :
    normalizePath path = V1.UriPath.normalize path := by
  cases path with
  | nil => rfl
  | cons b rest =>
      obtain rfl := absolute b rfl
      simp only [normalizePath, V1.UriPath.normalize, normalizePathBytes_eq, Option.bind_eq_bind,
        guard_true, Option.pure_def, Option.bind_some]
      cases percent : V1.UriPath.normalizeBytes (0x2F :: rest) with
      | none => rfl
      | some bytes =>
          obtain ⟨segments, rfl, nonempty, plain, -⟩ := V1.UriPath.normalizeBytes_eq_some percent
          have nothing : Plain [] := fun _ h => (List.not_mem_nil h).elim
          have removed : Segments.removeDotSegments (join segments) [] =
              join (removeDots segments []) := Segments.removeDotSegments_join plain nothing
          have some' : join (removeDots segments []) ≠ [] := by
            obtain ⟨s, rest, same⟩ :=
              List.exists_cons_of_ne_nil (removeDots_ne_nil (.inl nonempty))
            rw [same]
            exact List.cons_ne_nil _ _
          simp only [Option.bind_some, removeDotSegments_eq [] le_rfl,
            V1.UriPath.removeDotSegments_eq (absolute_join segments) le_rfl, removed, if_neg some',
            guard, if_pos some', Option.pure_def]

/-! ## IPv6 addresses -/

/-- A second elision is refused. -/
theorem elide_some : ∀ (i p : Nat) (bs : Bytes), elide i (some p) bs =
    if cut elision bs = none then some (some p) else none
  | i, p, [] => rfl
  | i, p, [a] => by
      rw [cut_elision_cons]
      simp [elide, cut, elision]
  | i, p, a :: b :: rest => by
      rw [elide, cut_elision_cons]
      by_cases colons : a = 0x3A ∧ b = 0x3A
      · simp [colons]
      · have apart : ¬(a = 0x3A ∧ (b :: rest).head? = some 0x3A) := by
          simpa using colons
        rw [if_neg colons, if_neg apart, elide_some (i + 1) p (b :: rest)]
        simp only [Option.map_eq_none_iff]

/-- The scan finds the first elision, with no colon and no second elision behind it. -/
theorem elide_none : ∀ (i : Nat) (bs : Bytes), elide i none bs =
    match cut elision bs with
    | none => some none
    | some (before, after) =>
        if after.head? = some 0x3A ∨ cut elision after ≠ none then none
        else some (some (i + before.length))
  | i, [] => rfl
  | i, [a] => by
      rw [cut_elision_cons]
      simp [elide, cut, elision]
  | i, a :: b :: rest => by
      rw [elide, cut_elision_cons]
      by_cases colons : a = 0x3A ∧ b = 0x3A
      · have apart : a = 0x3A ∧ (b :: rest).head? = some 0x3A := by simpa using colons
        rw [if_pos colons, if_pos apart, if_neg (by simp), elide_some]
        by_cases third : rest.head? = some 0x3A
        · simp [third]
        · by_cases again : cut elision rest = none <;> simp [third, again]
      · have apart : ¬(a = 0x3A ∧ (b :: rest).head? = some 0x3A) := by
          simpa using colons
        rw [if_neg colons, if_neg apart, elide_none (i + 1) (b :: rest)]
        cases cut elision (b :: rest) with
        | none => rfl
        | some parts =>
            simp only [Option.map_some, List.length_cons]
            split
            · rfl
            · rw [Nat.add_right_comm, Nat.add_assoc]

theorem isH16_eq (s : Bytes) : isH16 s = validHexGroup s := rfl

/-- A part that is a hextet. -/
theorem hextet_iff (h : Bytes) : (!(h.isEmpty || !isH16 h)) = validHexGroup h := by
  cases h with
  | nil => rfl
  | cons b h => simp [isH16_eq]

theorem dotless_of_hexGroup {group : Bytes} (h : validHexGroup group = true) : 0x2E ∉ group := by
  intro member
  simp only [validHexGroup, Bool.and_eq_true] at h
  have digit := List.all_eq_true.mp h.2 _ member
  revert digit
  decide

/-- Groups without dots are counted when they are all hexadecimal. -/
theorem ipv6GroupsLength_eq : ∀ {groups : List Bytes} {count : Nat}, groups ≠ [] →
    (∀ group ∈ groups, 0x2E ∉ group) → ipv6GroupsLength groups count =
      if groups.all validHexGroup then some (count + groups.length) else none
  | [], _, nonempty, _ => (nonempty rfl).elim
  | [group], count, _, dotless => by
      have plain : cut (ascii ".") group = none :=
        cut_singleton_eq_none.mpr (dotless group List.mem_cons_self)
      simp [ipv6GroupsLength, plain]
  | group :: next :: rest, count, _, dotless => by
      obtain ⟨_, others⟩ := List.forall_mem_cons.mp dotless
      have later := @ipv6GroupsLength_eq _ (count + 1) (List.cons_ne_nil next rest) others
      have length : count + 1 + (next :: rest).length = count + (group :: next :: rest).length := by
        simp only [List.length_cons]
        omega
      rw [ipv6GroupsLength, later, List.all_cons, length]
      · cases hex : validHexGroup group <;> simp [hex]
      · simp

theorem notMem_part {c b : UInt8} : ∀ {bs : Bytes}, b ∉ bs → ∀ part ∈ split c bs, b ∉ part
  | [], _, part, member => by
      rw [List.mem_singleton.mp member]
      exact List.not_mem_nil
  | a :: rest, free, part, member => by
      rw [List.mem_cons, not_or] at free
      rw [split] at member
      split at member
      · rcases List.mem_cons.mp member with rfl | later
        · exact List.not_mem_nil
        · exact notMem_part free.2 part later
      · split at member
        · rw [List.mem_singleton.mp member, List.mem_singleton]
          exact free.1
        next first parts same =>
          rcases List.mem_cons.mp member with rfl | later
          · rw [List.mem_cons, not_or]
            exact ⟨free.1, notMem_part free.2 first (same ▸ List.mem_cons_self)⟩
          · exact notMem_part free.2 part (same ▸ List.mem_cons_of_mem _ later)

/-- One side of an elision, when it has no dots. -/
theorem ipv6SideLength_eq {side : Bytes} (dotless : 0x2E ∉ side) : ipv6SideLength side =
    if (hextets side).all validHexGroup then some (hextets side).length else none := by
  rw [ipv6SideLength, hextets]
  split
  · rfl
  · have same : splitGlobal (ascii ":") side = split 0x3A side := (split_eq 0x3A side).symm
    rw [same, ipv6GroupsLength_eq (split_ne_nil _ _) (notMem_part dotless), Nat.zero_add]

theorem dotless_of_hextets {side : Bytes} (h : (hextets side).all validHexGroup = true) :
    0x2E ∉ side := by
  intro member
  rw [hextets] at h
  split at h
  next empty =>
    rw [empty] at member
    cases member
  next =>
    obtain ⟨part, known, inside⟩ := exists_part (by decide : (0x2E : UInt8) ≠ 0x3A) member
    exact dotless_of_hexGroup (List.all_eq_true.mp h part known) inside

/-- A side that starts with a colon has an empty group. -/
theorem ipv6SideLength_colon {side : Bytes} (h : side.head? = some 0x3A) :
    ipv6SideLength side = none := by
  cases side with
  | nil => cases h
  | cons b rest =>
      obtain rfl := Option.some.inj h
      have parts : splitGlobal (ascii ":") (0x3A :: rest) = [] :: splitGlobal (ascii ":") rest := by
        have colon : ascii ":" = [0x3A] := rfl
        rw [splitGlobal_eq (by decide)]
        simp [colon, cut, List.isPrefixOf]
      rw [ipv6SideLength, if_neg (List.cons_ne_nil _ _), parts]
      obtain ⟨next, later, same⟩ :=
        List.exists_cons_of_ne_nil (splitGlobal_ne_nil (ascii ":") rest)
      rw [same, ipv6GroupsLength]
      · rfl
      · simp

/-- What the second reader asks of an address. -/
theorem validateIpv6_iff (s : Bytes) : validateIpv6 s = some () ↔ s ≠ [] ∧
    match cut elision s with
    | none => (hextets s).all validHexGroup = true ∧ (hextets s).length = 8
    | some (left, right) => ¬(right.head? = some 0x3A ∨ cut elision right ≠ none) ∧
        (hextets left ++ hextets right).all validHexGroup = true ∧
          (hextets left ++ hextets right).length ≤ 7 := by
  have all : ∀ parts : List Bytes,
      (parts.all fun h => !(h.isEmpty || !isH16 h)) = parts.all validHexGroup := fun parts =>
    congrArg parts.all (funext hextet_iff)
  have whole : hextets ([] : Bytes) = [] := rfl
  simp only [validateIpv6, elide_none, all, Option.bind_eq_bind, Option.bind_eq_some_iff,
    guard_eq_some, exists_const]
  refine and_congr_right fun _ => ?_
  cases found : cut elision s with
  | none => simp [whole]
  | some around =>
      obtain ⟨left, right⟩ := around
      have parts := cut_eq_some found
      have before : s.take left.length = left := by
        rw [parts, List.append_assoc, List.take_left]
      have behind : s.drop (left.length + 2) = right := by
        rw [parts]
        exact List.drop_left' (by simp [elision])
      by_cases stop : right.head? = some 0x3A ∨ cut elision right ≠ none
      · simp [stop]
      · simp [stop, before, behind]

/-- An address in brackets is read by both unless it ends in dotted decimal. -/
theorem validateIpv6_eq_some (s : Bytes) :
    validateIpv6 s = some () ↔ validIpv6Literal s = true ∧ 0x2E ∉ s := by
  rw [validateIpv6_iff, validIpv6Literal_iff]
  cases found : cut elision s with
  | none =>
      constructor
      · rintro ⟨-, groups, eight⟩
        have dotless := dotless_of_hextets groups
        rw [ipv6SideLength_eq dotless, if_pos groups, eight]
        exact ⟨rfl, dotless⟩
      · rintro ⟨sideLength, dotless⟩
        have eight : ipv6SideLength s = some 8 := sideLength
        rw [ipv6SideLength_eq dotless] at eight
        split at eight
        next groups =>
          refine ⟨?_, groups, Option.some.inj eight⟩
          rintro rfl
          cases eight
        next => cases eight
  | some around =>
      obtain ⟨left, right⟩ := around
      have parts := cut_eq_some found
      have dotless : (0x2E : UInt8) ∉ elision := by decide
      simp only [List.all_append, Bool.and_eq_true, List.length_append]
      constructor
      · rintro ⟨-, alone, ⟨leftGroups, rightGroups⟩, seven⟩
        rw [not_or, not_not] at alone
        have leftDotless := dotless_of_hextets leftGroups
        have rightDotless := dotless_of_hextets rightGroups
        rw [ipv6SideLength_eq leftDotless, ipv6SideLength_eq rightDotless, if_pos leftGroups,
          if_pos rightGroups]
        refine ⟨⟨alone.2, _, rfl, _, rfl, by omega⟩, ?_⟩
        rw [parts, List.mem_append, List.mem_append, not_or, not_or]
        exact ⟨⟨leftDotless, dotless⟩, rightDotless⟩
      · rintro ⟨⟨single, l, leftLength, r, rightLength, fits⟩, dotless⟩
        rw [parts, List.mem_append, List.mem_append, not_or, not_or] at dotless
        rw [Option.mem_def, ipv6SideLength_eq dotless.1.1] at leftLength
        have noColon : right.head? ≠ some 0x3A := by
          intro colon
          rw [Option.mem_def, ipv6SideLength_colon colon] at rightLength
          cases rightLength
        rw [Option.mem_def, ipv6SideLength_eq dotless.2] at rightLength
        split at leftLength
        next leftGroups =>
          split at rightLength
          next rightGroups =>
            obtain rfl := Option.some.inj leftLength
            obtain rfl := Option.some.inj rightLength
            refine ⟨?_, ?_, ⟨leftGroups, rightGroups⟩, by omega⟩
            · rw [parts]
              exact fun empty => by simp [elision] at empty
            · rw [not_or, not_not]
              exact ⟨noColon, single⟩
          next => cases rightLength
        next => cases leftLength

/-! ## Addresses of later versions -/

/-- The shape and the grammar together are what the first reader asks. -/
theorem ipvfuture_eq (rest : Bytes) :
    (isIpvfutureShape (0x76 :: rest) && validateIpvfuture (0x76 :: rest)) =
      validIpvFuture rest := by
  have whole : rest.takeWhile isHex ++ rest.dropWhile isHex = rest :=
    List.takeWhile_append_dropWhile
  have hex : (rest.takeWhile isHex).all isHex = true := List.all_takeWhile
  have behind : (0x76 :: rest : Bytes).drop 1 = rest := rfl
  have dotted : ∀ {version : Bytes}, version.all isHex = true → 0x2E ∉ version := by
    intro version digits member
    have digit := List.all_eq_true.mp digits _ member
    revert digit
    decide
  rw [Bool.eq_iff_iff, isIpvfutureShape, validateIpvfuture, validIpvFuture, behind]
  constructor
  · intro accepted
    rw [Bool.and_eq_true] at accepted
    obtain ⟨shape, grammar⟩ := accepted
    split at shape
    · cases shape
    · simp only [Bool.and_eq_true, decide_eq_true_eq, beq_iff_eq] at shape grammar
      obtain ⟨tail, same⟩ : ∃ tail, rest.dropWhile isHex = 0x2E :: tail := by
        cases after : rest.dropWhile isHex with
        | nil => simp [after] at shape
        | cons b tail =>
            rw [after] at shape
            exact ⟨tail, congrArg (· :: tail) (Option.some.inj shape.2)⟩
      rw [same] at whole grammar
      have parts : cut (ascii ".") rest = some (rest.takeWhile isHex, tail) := by
        have found := cut_singleton_append tail (dotted hex)
        rwa [whole] at found
      have address : tail ≠ [] := by
        rintro rfl
        simp at grammar
      have version : rest.takeWhile isHex ≠ [] := by
        intro empty
        rw [empty] at shape
        simp at shape
      rw [parts]
      simpa [address, version, hex] using grammar.1
  · intro accepted
    split at accepted
    next version address found =>
      simp only [Bool.and_eq_true, decide_eq_true_eq] at accepted
      obtain ⟨⟨⟨version', address'⟩, digits⟩, allowed⟩ := accepted
      have parts : rest = version ++ 0x2E :: address := by
        rw [cut_eq_some found]
        simp [ascii]
      have allHex := List.all_eq_true.mp digits
      have taken : rest.takeWhile isHex = version := by
        rw [parts, List.takeWhile_append_of_pos allHex]
        simp [isHex, isDigit, within]
      have dropped : rest.dropWhile isHex = 0x2E :: address := by
        rw [parts, List.dropWhile_append_of_pos allHex]
        simp [isHex, isDigit, within]
      have long : 1 ≤ version.length := List.length_pos_iff.mpr version'
      have long' : 1 ≤ address.length := List.length_pos_iff.mpr address'
      have enough : 2 ≤ rest.length := by
        rw [parts]
        simp only [List.length_cons, List.length_append]
        omega
      simp [enough, taken, dropped, long, long', allowed]
    next => cases accepted

/-- Nothing but hexadecimal digits, colons and dots is in an address. -/
theorem validateIpv6_bytes {s : Bytes} (h : validateIpv6 s = some ()) :
    ∀ b ∈ s, isHex b = true ∨ b = 0x3A := by
  have sides : ∀ {side : Bytes}, (hextets side).all validHexGroup = true →
      ∀ b ∈ side, isHex b = true ∨ b = 0x3A := by
    intro side groups b member
    by_cases colon : b = 0x3A
    · exact .inr colon
    · rw [hextets] at groups
      split at groups
      next empty =>
        rw [empty] at member
        cases member
      next =>
        obtain ⟨part, known, inside⟩ := exists_part colon member
        have group := List.all_eq_true.mp groups part known
        simp only [validHexGroup, Bool.and_eq_true] at group
        exact .inl (List.all_eq_true.mp group.2 b inside)
  rw [validateIpv6_iff] at h
  obtain ⟨-, h⟩ := h
  cases found : cut elision s with
  | none =>
      rw [found] at h
      exact sides h.1
  | some around =>
      obtain ⟨left, right⟩ := around
      rw [found] at h
      simp only [List.all_append, Bool.and_eq_true] at h
      intro b member
      rw [cut_eq_some found, List.mem_append, List.mem_append] at member
      rcases member with (first | colons) | last
      · exact sides h.2.1.1 b first
      · refine .inr ?_
        revert colons
        simp [elision]
      · exact sides h.2.1.2 b last

/-! ## Addresses in brackets -/

/-- An address in brackets that is no address of a later version and holds a dot: its
last part is in dotted decimal, or it is malformed. -/
def embedded (address : Bytes) : Bool :=
  address.head? != some 0x76 && address.head? != some 0x56 && address.contains 0x2E

theorem embedded_eq_false {b : UInt8} {rest : Bytes} : embedded (b :: rest) = false ↔
    lower b = 0x76 ∨ 0x2E ∉ (b :: rest).map lower := by
  have future := V1.Uri.lower_eq_version b
  have image : 0x2E ∈ (b :: rest).map lower ↔ 0x2E ∈ b :: rest := by
    rw [List.mem_map]
    constructor
    · rintro ⟨c, member, same⟩
      exact (V1.Uri.lower_eq_dot c).mp same ▸ member
    · intro member
      exact ⟨0x2E, member, rfl⟩
  rw [future, image]
  by_cases dot : (0x2E : UInt8) ∈ b :: rest
  · have contains : (b :: rest).contains (0x2E : UInt8) = true := by simpa using dot
    rw [embedded, contains]
    simp [dot]
    tauto
  · have contains : (b :: rest).contains (0x2E : UInt8) = false := by simpa using dot
    rw [embedded, contains]
    simp [dot]

/-- The second reader takes the addresses of the first without embedded ones. -/
theorem validateIpLiteral_eq_some {content l : Bytes} : validateIpLiteral content = some l ↔
    validIpLiteral content = true ∧ embedded content = false ∧
      V1.Uri.asciiDowncase content = l := by
  cases content with
  | nil =>
      have refused : validateIpLiteral [] = none := rfl
      have malformed : validIpLiteral [] = false := rfl
      simp [refused, malformed]
  | cons b rest =>
      have never := V1.Uri.lower_ne_upper b
      rw [embedded_eq_false, ← V1.Uri.validIpLiteral_lower, validateIpLiteral,
        V1.Uri.asciiDowncase, List.map_cons]
      simp only [Option.bind_eq_bind, ne_eq, reduceCtorEq, not_false_eq_true, guard_true,
        Option.pure_def, Option.bind_some]
      generalize rest.map lower = rest
      revert never
      generalize lower b = b
      intro never
      by_cases version : b = 0x76
      · subst version
        have grammar := ipvfuture_eq rest
        have first : validIpLiteral (0x76 :: rest) = validIpvFuture rest := rfl
        rw [first, ← grammar]
        by_cases shape : isIpvfutureShape (0x76 :: rest) = true
        · simp [shape]
        · -- a version flag is no hexadecimal digit
          have refused : validateIpv6 (0x76 :: rest) = none := by
            rw [Option.eq_none_iff_forall_ne_some]
            rintro ⟨⟩ accepted
            have digit := validateIpv6_bytes accepted 0x76 List.mem_cons_self
            revert digit
            decide
          simp [shape, refused]
      · have shape : ¬isIpvfutureShape (b :: rest) = true := by
          simp [isIpvfutureShape, version]
        rw [if_neg shape, validIpLiteral, if_neg version, if_neg never, or_iff_right version,
          ← and_assoc, ← validateIpv6_eq_some, Option.bind_eq_some_iff]
        constructor
        · rintro ⟨⟨⟩, accepted, same⟩
          exact ⟨accepted, Option.some.inj same⟩
        · rintro ⟨accepted, rfl⟩
          exact ⟨(), accepted, rfl⟩

/-! ## Registered names -/

/-- A digit other than zero counts. -/
theorem leading_digit {b : UInt8} (h : isDigit b = true) :
    (within 0x31 0x39 b = true ↔ b ≠ 0x30) ∧ (b ≠ 0x30 → 1 ≤ Decimal.digitValue b) := by
  have zero : b = 0x30 ↔ b.toNat = 48 := UInt8.toNat_inj.symm
  simp only [isDigit, within, Bool.and_eq_true, decide_eq_true_eq, UInt8.le_iff_toNat_le] at h ⊢
  simp only [Decimal.digitValue, ne_eq, zero]
  simp at h ⊢
  omega

/-- Four numbers of at most three digits, without leading zeros and up to 255. -/
theorem isDecOctet_eq {part : Bytes} (nonempty : part ≠ []) (digits : part.all isDigit = true) :
    isDecOctet part = validIpv4Octet part := by
  have small : ∀ {b : UInt8}, isDigit b = true → Decimal.digitValue b < 10 := Decimal.digitValue_lt
  match part with
  | [] => exact (nonempty rfl).elim
  | [a] =>
      simp only [List.all_cons, List.all_nil, Bool.and_true] at digits
      have := small digits
      have bound : Decimal.value [a] ≤ 255 := by
        simp only [Decimal.value, List.foldl_cons, List.foldl_nil]
        omega
      simp [isDecOctet, validIpv4Octet, digits, bound]
  | [a, b] =>
      simp only [List.all_cons, List.all_nil, Bool.and_true, Bool.and_eq_true] at digits
      have first := small digits.1
      have second := small digits.2
      have bound : Decimal.value [a, b] ≤ 255 := by
        simp only [Decimal.value, List.foldl_cons, List.foldl_nil]
        omega
      have lead := (leading_digit digits.1).1
      rw [Bool.eq_iff_iff]
      simp [isDecOctet, validIpv4Octet, digits, bound, lead]
  | [a, b, c] =>
      simp only [List.all_cons, List.all_nil, Bool.and_true, Bool.and_eq_true] at digits
      have value : Decimal.value [a, b, c] = Decimal.digitValue a * 100 +
          Decimal.digitValue b * 10 + Decimal.digitValue c := by
        simp only [Decimal.value, List.foldl_cons, List.foldl_nil]
        omega
      by_cases zero : a = 0x30
      · simp [isDecOctet, validIpv4Octet, zero]
      · have long := (leading_digit digits.1).2 zero
        have hundred : 100 ≤ Decimal.digitValue a * 100 + Decimal.digitValue b * 10 +
            Decimal.digitValue c := by omega
        simp [isDecOctet, validIpv4Octet, digits, zero, value, hundred]
  | a :: b :: c :: d :: rest =>
      have tooLong : ¬(a :: b :: c :: d :: rest).length ≤ 3 := by
        simp only [List.length_cons]
        omega
      simp [isDecOctet, validIpv4Octet]

example : isDecOctet (ascii "255") = true ∧ isDecOctet (ascii "256") = false := by
  decide

theorem isIpv4Candidate_iff (host : Bytes) : isIpv4Candidate host = true ↔
    (split 0x2E host).length = 4 ∧
      ∀ part ∈ split 0x2E host, part ≠ [] ∧ part.all isDigit = true := by
  rw [isIpv4Candidate]
  by_cases empty : host = []
  · subst empty
    simp [split]
  · rw [if_neg empty]
    simp only [Bool.and_eq_true, beq_iff_eq, List.all_eq_true, Bool.not_eq_true',
      List.isEmpty_eq_false_iff]

theorem dotted_of_candidate {host : Bytes} (h : isIpv4Candidate host = true) :
    dottedDigits host = true := by
  obtain ⟨four, parts⟩ := (isIpv4Candidate_iff host).mp h
  have digits : ∀ b ∈ host, (isDigit b || b == 0x2E) = true := by
    intro b member
    by_cases dot : b = 0x2E
    · simp [dot]
    · obtain ⟨part, known, inside⟩ := exists_part dot member
      simp [List.all_eq_true.mp (parts part known).2 b inside]
  have dot : 0x2E ∈ host := by
    by_contra free
    rw [split_eq, splitGlobal_eq (by decide), cut_singleton_eq_none.mpr free] at four
    simp at four
  rw [dottedDigits, Bool.and_eq_true]
  exact ⟨List.all_eq_true.mpr digits, by simpa using dot⟩

theorem normalizeRegNameBytes_dotted {host : Bytes} (h : dottedDigits host = true) :
    V1.Uri.normalizeRegNameBytes host = host := by
  have digits := (Bool.and_eq_true_iff.mp h).1
  clear h
  induction host with
  | nil => rfl
  | cons b host ih =>
      rw [List.all_cons, Bool.and_eq_true] at digits
      have plain : b ≠ 0x25 ∧ lower b = b := by
        rcases Bool.or_eq_true_iff.mp digits.1 with digit | dot
        · exact ⟨fun same => absurd (same ▸ digit) (by decide), V1.Uri.lower_of_isDigit digit⟩
        · rw [beq_iff_eq.mp dot]
          exact ⟨by decide, rfl⟩
      rw [V1.Uri.normalizeRegNameBytes.eq_def]
      simp only [if_neg plain.1, plain.2, ih digits.2]

/-- The last part of an address is read by both in the same way. -/
theorem validIpv4Tail_candidate {host : Bytes} (h : isIpv4Candidate host = true) :
    validIpv4Tail host = (split 0x2E host).all isDecOctet := by
  obtain ⟨four, parts⟩ := (isIpv4Candidate_iff host).mp h
  have octets : (split 0x2E host).all isDecOctet = (split 0x2E host).all validIpv4Octet := by
    rw [Bool.eq_iff_iff, List.all_eq_true, List.all_eq_true]
    refine forall₂_congr fun part known => ?_
    rw [isDecOctet_eq (parts part known).1 (parts part known).2]
  have same : splitGlobal (ascii ".") host = split 0x2E host := (split_eq 0x2E host).symm
  rw [octets, validIpv4Tail, same]
  obtain ⟨a, b, c, d, shape⟩ := List.length_eq_four.mp four
  rw [shape]

theorem validIpv4Tail_other {host : Bytes} (h : ¬isIpv4Candidate host = true) :
    validIpv4Tail host = false := by
  rw [Bool.eq_false_iff]
  intro accepted
  have same : splitGlobal (ascii ".") host = split 0x2E host := (split_eq 0x2E host).symm
  rw [validIpv4Tail, same] at accepted
  refine h ((isIpv4Candidate_iff host).mpr ?_)
  split at accepted
  next a b c d parts =>
    rw [parts]
    refine ⟨rfl, fun part known => ?_⟩
    have octet := List.all_eq_true.mp accepted part known
    simp only [validIpv4Octet, Bool.and_eq_true, decide_eq_true_eq] at octet
    exact ⟨octet.1.1.1.1, octet.1.1.2⟩
  next => cases accepted

/-- Digits and dots that are not four numbers. -/
def dottedName (name : Bytes) : Bool := dottedDigits name && !isIpv4Candidate name

/-- Both take the same registered names, apart from digits and dots. -/
theorem parseName_eq {name : Bytes} (h : dottedName name = false) (port : Option Nat) :
    V1.Uri.normalizeRegisteredHost name port = (parseName name).map fun host => (host, port) := by
  by_cases empty : name = []
  · subst empty
    rfl
  simp only [V1.Uri.normalizeRegisteredHost, parseName, V1.Uri.validRegisteredHost, ne_eq, empty,
    not_false_eq_true, true_and, guard_true, Option.pure_def, Option.bind_eq_bind, Option.bind_some]
  by_cases candidate : isIpv4Candidate name = true
  · have dotted := dotted_of_candidate candidate
    rw [if_pos candidate, if_pos dotted, validIpv4Tail_candidate candidate,
      normalizeRegNameBytes_dotted dotted]
    by_cases octets : (split 0x2E name).all isDecOctet = true <;> simp [guard, octets]
  · have notDotted : ¬dottedDigits name = true := by
      simpa [dottedName, candidate] using h
    rw [if_neg candidate, if_neg notDotted, normalizeRegName_eq, V1.Uri.normalize_regName]
    by_cases valid : V1.Uri.validRegNameBytes name = true <;> simp [guard, valid]

/-- The first reader refuses the rest. -/
theorem normalizeRegisteredHost_dotted {name : Bytes} (h : dottedName name = true)
    (port : Option Nat) : V1.Uri.normalizeRegisteredHost name port = none := by
  simp only [dottedName, Bool.and_eq_true, Bool.not_eq_true'] at h
  have refused := validIpv4Tail_other (Bool.eq_false_iff.mp h.2)
  simp [V1.Uri.normalizeRegisteredHost, V1.Uri.validRegisteredHost, h.1, refused, guard]

/-! ## Ports -/

/-- The accumulation overflows when the number does not fit. -/
theorem portValue_eq : ∀ (digits : Bytes) (val : Nat), val < 2 ^ 64 → portValue digits val =
    checked (digits.foldl (fun v b => 10 * v + Decimal.digitValue b) val)
  | [], val, small => by
      rw [portValue, checked]
      exact (if_pos small).symm
  | c :: digits, val, small => by
      have grows : ∀ (digits : Bytes) (v : Nat),
          v ≤ digits.foldl (fun v b => 10 * v + Decimal.digitValue b) v := by
        intro digits
        induction digits with
        | nil => exact fun v => le_rfl
        | cons d digits ih =>
            intro v
            have later := ih (10 * v + Decimal.digitValue d)
            rw [List.foldl_cons]
            omega
      have bound := grows digits (10 * val + Decimal.digitValue c)
      rw [portValue, List.foldl_cons]
      by_cases product : val * 10 < 2 ^ 64
      · by_cases sum : val * 10 + Decimal.digitValue c < 2 ^ 64
        · have later := portValue_eq digits (val * 10 + Decimal.digitValue c) sum
          have read : checked (val * 10) = some (val * 10) := if_pos product
          have read' : checked (val * 10 + Decimal.digitValue c) =
              some (val * 10 + Decimal.digitValue c) := if_pos sum
          simp only [read, read', Option.bind_eq_bind, Option.bind_some, later]
          rw [Nat.mul_comm val 10]
        · have read : checked (val * 10) = some (val * 10) := if_pos product
          have overflow : checked (val * 10 + Decimal.digitValue c) = none := if_neg sum
          have result : ¬digits.foldl (fun v b => 10 * v + Decimal.digitValue b)
              (10 * val + Decimal.digitValue c) < 2 ^ 64 := by omega
          simp only [read, overflow, Option.bind_eq_bind, Option.bind_some, Option.bind_none]
          exact (if_neg result).symm
      · have overflow : checked (val * 10) = none := if_neg product
        have result : ¬digits.foldl (fun v b => 10 * v + Decimal.digitValue b)
            (10 * val + Decimal.digitValue c) < 2 ^ 64 := by omega
        simp only [overflow, Option.bind_eq_bind, Option.bind_none]
        exact (if_neg result).symm

/-- The digits of a port other than the default one. -/
def writtenPort (port : Nat) : Option Bytes :=
  if port = 443 then none else some (Decimal.ofNat port)

theorem parsePort_eq (digits : Bytes) :
    parsePort digits = (V1.Uri.parsePort digits).map writtenPort := by
  by_cases empty : digits = []
  · subst empty
    rfl
  by_cases all : digits.all isDigit = true
  · simp only [parsePort, V1.Uri.parsePort, empty, all, ne_eq, not_false_eq_true, and_self,
      guard_true, Option.pure_def, Option.bind_eq_bind, Option.bind_some]
    rw [portValue_eq digits 0 (by decide)]
    have value : digits.foldl (fun v b => 10 * v + Decimal.digitValue b) 0 = Decimal.value digits :=
      rfl
    rw [value, checked]
    by_cases range : 1 ≤ Decimal.value digits ∧ Decimal.value digits ≤ 65535
    · have small : Decimal.value digits < 2 ^ 64 := by omega
      have inside : ¬(Decimal.value digits = 0 ∨ 65535 < Decimal.value digits) := by omega
      have stripped := Decimal.dropWhile_zero_eq (List.all_eq_true.mp all) (by omega)
      have default : Decimal.ofNat (Decimal.value digits) = ascii "443" ↔
          Decimal.value digits = 443 := by
        constructor
        · intro same
          have read := congrArg Decimal.value same
          rw [Decimal.value_ofNat] at read
          exact read
        · intro same
          rw [same]
          decide
      have written := Decimal.ofNat_ne_nil (Decimal.value digits)
      simp only [small, if_true, Option.bind_some, inside, range, and_self, not_false_eq_true,
        guard_true, Option.pure_def, stripped, written, if_false, default, writtenPort,
        Option.map_some]
    · have outside : ¬¬(Decimal.value digits = 0 ∨ 65535 < Decimal.value digits) := by omega
      have refused :
          (if Decimal.value digits < 2 ^ 64 then some (Decimal.value digits) else none).bind
          (fun val => (guard ¬(val = 0 ∨ 65535 < val) : Option Unit).bind fun _ =>
            let stripped := digits.dropWhile fun c => c == 0x30
            let stripped := if stripped = [] then ascii "0" else stripped
            some (if stripped = ascii "443" then none else some stripped)) = none := by
        split
        · rw [Option.bind_some, guard, if_neg outside]
          rfl
        · rfl
      rw [guard, if_neg range]
      exact refused
  · simp [parsePort, V1.Uri.parsePort, empty, all, guard]

/-! ## Authorities -/

theorem parsePortAfterLiteral_eq (after : Bytes) : parsePortAfterLiteral after =
    (V1.Uri.parsePortSuffix after).map fun port => port.bind writtenPort := by
  cases after with
  | nil => rfl
  | cons b after =>
      rw [parsePortAfterLiteral, V1.Uri.parsePortSuffix]
      by_cases colon : b = 0x3A
      · rw [if_pos colon, parsePort_eq]
        cases V1.Uri.parsePort after <;> simp [colon, guard]
      · simp [colon, guard]

theorem position_cons {c b : UInt8} (other : b ≠ c) (rest : Bytes) :
    position c (b :: rest) = (position c rest).map (· + 1) := by
  rw [position, List.findIdx?_cons, if_neg (by simpa using other)]
  rfl

/-- The hosts on which the two readers differ. -/
def sharedHost (authority : Bytes) : Bool :=
  if authority.head? = some 0x5B then
    match cut (ascii "]") (authority.drop 1) with
    | some (address, _) => !embedded address
    | none => true
  else !dottedName (V1.Uri.registeredName authority)

/-- A result of the first reader as the second one gives it. -/
def written (result : Bytes × Option Nat) : Bytes × Option Bytes :=
  (result.1, result.2.bind writtenPort)

theorem parseAuthority_eq {authority : Bytes} (nonempty : authority ≠ [])
    (h : sharedHost authority = true) :
    parseAuthority authority = (V1.Uri.normalizeAuthority authority).map written := by
  have single : 0x40 ∉ authority ↔ cut (ascii "@") authority = none := cut_singleton_eq_none.symm
  rw [parseAuthority, V1.Uri.normalizeAuthority]
  simp only [nonempty, ne_eq, not_false_eq_true, guard_true, Option.pure_def, Option.bind_eq_bind,
    Option.bind_some, single]
  by_cases userless : cut (ascii "@") authority = none
  · simp only [userless, guard_true, Option.pure_def, Option.bind_some]
    rw [V1.Uri.parseHostPort]
    rw [sharedHost] at h
    by_cases bracket : authority.head? = some 0x5B
    · obtain ⟨rest, rfl⟩ : ∃ rest, authority = 0x5B :: rest := by
        cases authority with
        | nil => cases bracket
        | cons b rest => exact ⟨rest, congrArg (· :: rest) (Option.some.inj bracket)⟩
      have behind : (0x5B :: rest : Bytes).drop 1 = rest := rfl
      have close : cut (ascii "]") rest =
          (position 0x5D rest).map fun i => (rest.take i, rest.drop (i + 1)) :=
        cut_eq_position 0x5D rest
      rw [if_pos bracket, behind, close] at h
      rw [if_pos bracket, if_pos bracket, behind, close, position_cons (by decide)]
      cases found : position 0x5D rest with
      | none => rfl
      | some i =>
          rw [found] at h
          have content : ((0x5B :: rest).take (i + 1)).drop 1 = rest.take i := rfl
          have after : (0x5B :: rest).drop (i + 1 + 1) = rest.drop (i + 1) := rfl
          simp only [Option.map_some, Option.bind_eq_bind, Option.bind_some, content, after,
            parsePortAfterLiteral_eq] at h ⊢
          have shared : embedded (rest.take i) = false := by simpa using h
          by_cases valid : validIpLiteral (rest.take i) = true
          · have read : validateIpLiteral (rest.take i) =
                some (V1.Uri.asciiDowncase (rest.take i)) :=
              validateIpLiteral_eq_some.mpr ⟨valid, shared, rfl⟩
            simp only [read, valid, Option.bind_some, guard_true, Option.pure_def]
            cases V1.Uri.parsePortSuffix (rest.drop (i + 1)) <;> rfl
          · have refused : validateIpLiteral (rest.take i) = none := by
              rw [Option.eq_none_iff_forall_ne_some]
              exact fun l accepted => valid (validateIpLiteral_eq_some.mp accepted).1
            simp [refused, valid, guard]
    · have colon : cut (ascii ":") authority =
          (position 0x3A authority).map fun i => (authority.take i, authority.drop (i + 1)) :=
        cut_eq_position 0x3A authority
      rw [if_neg bracket, V1.Uri.registeredName, colon] at h
      rw [if_neg bracket, if_neg bracket, colon]
      cases found : position 0x3A authority with
      | none =>
          rw [found] at h
          have shared : dottedName authority = false := by simpa using h
          simp only [Option.map_none, parseName_eq shared]
          cases parseName authority <;> rfl
      | some i =>
          rw [found] at h
          have shared : dottedName (authority.take i) = false := by simpa using h
          simp only [Option.map_some, Option.bind_eq_bind, parsePort_eq]
          by_cases once : cut (ascii ":") (authority.drop (i + 1)) = none
          · simp only [once, guard_true, Option.pure_def, Option.bind_some]
            cases V1.Uri.parsePort (authority.drop (i + 1)) with
            | none => rfl
            | some port =>
                simp only [Option.map_some, Option.bind_some, parseName_eq shared]
                cases parseName (authority.take i) <;> rfl
          · -- a second colon is no digit of a port
            have notDigits : V1.Uri.parsePort (authority.drop (i + 1)) = none := by
              have colon : 0x3A ∈ authority.drop (i + 1) := by
                by_contra free
                exact once (cut_singleton_eq_none.mpr free)
              have digit : isDigit 0x3A = false := rfl
              have some' : ¬(authority.drop (i + 1)).all isDigit = true := fun digits => by
                rw [List.all_eq_true.mp digits _ colon] at digit
                cases digit
              simp [V1.Uri.parsePort, some', guard]
            simp [notDigits, once, guard]
  · simp [userless, guard]

/-! ## Visible bytes -/

/-- No name, path or escape is written with a space. -/
theorem space_refused : regNameByte 0x20 = false ∧ V1.UriPath.pathByte 0x20 = false ∧
    isHex 0x20 = false := by
  decide

theorem space_of_name {name host : Bytes} (h : parseName name = some host) : 0x20 ∉ name := by
  intro member
  rw [parseName] at h
  simp only [Option.bind_eq_bind, guard_bind_eq_some] at h
  obtain ⟨-, h⟩ := h
  split at h
  next candidate =>
    have dotted := (Bool.and_eq_true_iff.mp (dotted_of_candidate candidate)).1
    have character := List.all_eq_true.mp dotted _ member
    revert character
    decide
  next =>
    rw [normalizeRegName_eq] at h
    have character := mem_of_normalize h _ member
    simp [space_refused] at character

theorem space_of_port {digits : Bytes} {port : Option Bytes} (h : parsePort digits = some port) :
    0x20 ∉ digits := by
  intro member
  simp only [parsePort, Option.bind_eq_bind, guard_bind_eq_some] at h
  have digit := List.all_eq_true.mp h.2.1 _ member
  revert digit
  decide

theorem space_of_literal {content l : Bytes} (h : validateIpLiteral content = some l) :
    0x20 ∉ content := by
  have accepted := (validateIpLiteral_eq_some.mp h).1
  intro member
  have image : (0x20 : UInt8) ∈ content.map lower := List.mem_map.mpr ⟨0x20, member, rfl⟩
  simp only [validateIpLiteral, Option.bind_eq_bind, guard_bind_eq_some] at h
  obtain ⟨-, h⟩ := h
  split at h
  next shape =>
    split at h
    next grammar =>
      obtain ⟨rest, same⟩ : ∃ rest, content.map lower = 0x76 :: rest := by
        rw [isIpvfutureShape] at shape
        split at shape
        next => cases shape
        next start =>
          simp only [Bool.or_eq_true, decide_eq_true_eq, bne_iff_ne, ne_eq, not_or, not_not]
            at start
          cases lowered : content.map lower with
          | nil => simp [lowered] at start
          | cons b rest =>
              rw [lowered] at start
              exact ⟨rest, congrArg (· :: rest) (Option.some.inj start.2)⟩
      rw [same] at shape grammar image
      have future : validIpvFuture rest = true := by
        rw [← ipvfuture_eq, shape, grammar]
        rfl
      have inRest : (0x20 : UInt8) ∈ rest := by simpa using image
      rw [validIpvFuture] at future
      split at future
      next version address found =>
        simp only [Bool.and_eq_true] at future
        rw [cut_eq_some found, List.mem_append, List.mem_append] at inRest
        rcases inRest with (first | dot) | last
        · have hex := List.all_eq_true.mp future.1.2 _ first
          revert hex
          decide
        · revert dot
          decide
        · have allowed := List.all_eq_true.mp future.2 _ last
          revert allowed
          decide
      next => cases future
    next => cases h
  next =>
    obtain ⟨⟨⟩, address, -⟩ := Option.bind_eq_some_iff.mp h
    have character := validateIpv6_bytes address _ image
    revert character
    decide

/-- No blank gets past the authority. -/
theorem space_of_authority {authority : Bytes} {result : Bytes × Option Bytes}
    (h : parseAuthority authority = some result) : 0x20 ∉ authority := by
  simp only [parseAuthority, Option.bind_eq_bind, guard_bind_eq_some] at h
  obtain ⟨-, -, h⟩ := h
  split at h
  next bracket =>
    simp only [Option.bind_eq_some_iff] at h
    obtain ⟨close, found, content, literal, port, after, -⟩ := h
    obtain ⟨whole, -⟩ := position_eq_some found
    have inside := space_of_literal literal
    have behind : 0x20 ∉ authority.drop (close + 1) := by
      cases rest : authority.drop (close + 1) with
      | nil => exact List.not_mem_nil
      | cons b digits =>
          rw [rest, parsePortAfterLiteral] at after
          split at after
          next colon =>
            rw [colon, List.mem_cons, not_or]
            exact ⟨by decide, space_of_port after⟩
          next => cases after
    have front : 0x20 ∉ authority.take close := by
      obtain ⟨rest, rfl⟩ : ∃ rest, authority = 0x5B :: rest := by
        cases authority with
        | nil => cases bracket
        | cons b rest => exact ⟨rest, congrArg (· :: rest) (Option.some.inj bracket)⟩
      cases close with
      | zero => simp
      | succ close =>
          rw [List.take_succ_cons, List.mem_cons, not_or]
          exact ⟨by decide, inside⟩
    rw [whole, List.mem_append, List.mem_cons, not_or, not_or]
    exact ⟨front, by decide, behind⟩
  next =>
    split at h
    next =>
      simp only [Option.bind_some, Option.bind_eq_some_iff] at h
      obtain ⟨host, named, -⟩ := h
      exact space_of_name named
    next idx found =>
      simp only [Option.bind_some, Option.bind_eq_some_iff] at h
      obtain ⟨port, read, host, named, -⟩ := h
      obtain ⟨whole, -⟩ := position_eq_some found
      rw [whole, List.mem_append, List.mem_cons, not_or, not_or]
      exact ⟨space_of_name named, by decide, space_of_port read⟩

theorem space_of_path {path n : Bytes} (h : normalizePath path = some n) : 0x20 ∉ path := by
  intro member
  simp only [normalizePath, Option.bind_eq_bind, Option.bind_eq_some_iff] at h
  obtain ⟨bytes, percent, -⟩ := h
  rw [normalizePathBytes_eq] at percent
  have character := mem_of_normalize percent _ member
  simp [space_refused] at character

/-! ## Whole URIs -/

/-- `https://` in any case. -/
def Scheme (uri : Bytes) : Prop :=
  8 ≤ uri.length ∧ (uri.drop 5).take 3 = ascii "://" ∧ (uri.take 5).map lower = ascii "https"

instance (uri : Bytes) : Decidable (Scheme uri) := inferInstanceAs (Decidable (_ ∧ _))

set_option maxRecDepth 4096 in
/-- Letters of the scheme. -/
theorem scheme_bytes {scheme : Bytes} (h : scheme.map lower = ascii "https") :
    ∀ b ∈ scheme, isUpper b = true ∨ isLower b = true := by
  intro b member
  have image : lower b ∈ ascii "https" := h ▸ List.mem_map.mpr ⟨b, member, rfl⟩
  exact byte_forall (P := fun b => lower b ∈ ascii "https" → isUpper b = true ∨ isLower b = true)
    (by decide) b image

theorem scheme_whole {uri : Bytes} (h : Scheme uri) :
    uri = uri.take 5 ++ (ascii "://" ++ uri.drop 8) := by
  have later : uri.drop 5 = (uri.drop 5).take 3 ++ (uri.drop 5).drop 3 :=
    (List.take_append_drop 3 (uri.drop 5)).symm
  rw [h.2.1, List.drop_drop] at later
  calc uri = uri.take 5 ++ uri.drop 5 := (List.take_append_drop 5 uri).symm
    _ = uri.take 5 ++ (ascii "://" ++ uri.drop 8) := by rw [later]

/-- The scheme ends at the first place it can end at. -/
theorem cut_scheme {uri scheme rest : Bytes} :
    (cut (ascii "://") uri = some (scheme, rest) ∧ scheme.map lower = ascii "https") ↔
      Scheme uri ∧ scheme = uri.take 5 ∧ rest = uri.drop 8 := by
  constructor
  · rintro ⟨found, lowered⟩
    have whole := cut_eq_some found
    have five : scheme.length = 5 := by
      have length := congrArg List.length lowered
      rw [List.length_map] at length
      exact length
    have three : (ascii "://").length = 3 := rfl
    have first : uri.take 5 = scheme := by
      rw [whole, List.append_assoc]
      exact List.take_left' five
    have behind : uri.drop 5 = ascii "://" ++ rest := by
      rw [whole, List.append_assoc]
      exact List.drop_left' five
    have last : uri.drop 8 = rest := by
      have dropped := congrArg (List.drop 3) behind
      rw [List.drop_drop, List.drop_left' three] at dropped
      exact dropped
    refine ⟨⟨?_, ?_, ?_⟩, first.symm, last.symm⟩
    · rw [whole, List.length_append, List.length_append, five, three]
      omega
    · rw [behind]
      exact List.take_left' three
    · rw [first, lowered]
  · rintro ⟨scheme', rfl, rfl⟩
    have colonFree : 0x3A ∉ uri.take 5 := by
      intro member
      have letter := scheme_bytes scheme'.2.2 _ member
      revert letter
      decide
    have found : cut (ascii "://") (uri.take 5 ++ (ascii "://" ++ uri.drop 8)) =
        some (uri.take 5, uri.drop 8) := cut_append _ colonFree
    rw [← scheme_whole scheme'] at found
    exact ⟨found, scheme'.2.2⟩

/-- The authority and the path of the second reader. -/
def divide (rest : Bytes) : Bytes × Bytes :=
  match position 0x2F rest with
  | none => (rest, [])
  | some idx => (rest.take idx, rest.drop idx)

theorem divide_eq (rest : Bytes) : V1.Uri.splitAuthorityPath rest = divide rest := by
  have slash : cut (ascii "/") rest =
      (position 0x2F rest).map fun i => (rest.take i, rest.drop (i + 1)) :=
        cut_eq_position 0x2F rest
  rw [V1.Uri.splitAuthorityPath, slash, divide]
  cases found : position 0x2F rest with
  | none => rfl
  | some i =>
      obtain ⟨whole, first⟩ := position_eq_some found
      have bound : i < rest.length := by
        rw [position, List.findIdx?_eq_some_iff_getElem] at found
        exact found.1
      have behind : rest.drop i = 0x2F :: rest.drop (i + 1) := by
        have length : (rest.take i).length = i := List.length_take_of_le (Nat.le_of_lt bound)
        have dropped := congrArg (List.drop i) whole
        rw [List.drop_left' length] at dropped
        exact dropped
      simp only [Option.map_some, behind]

theorem divide_append (rest : Bytes) : (divide rest).1 ++ (divide rest).2 = rest := by
  rw [divide]
  split
  · exact List.append_nil _
  · exact List.take_append_drop _ _

theorem divide_absolute (rest : Bytes) : Absolute (divide rest).2 := by
  rw [← divide_eq, V1.Uri.splitAuthorityPath]
  split
  · rintro b ⟨⟩
    rfl
  · rintro b ⟨⟩

theorem splitHttps_iff {uri authority path : Bytes} : splitHttps uri = some (authority, path) ↔
    Scheme uri ∧ (0x3F ∉ uri.drop 8 ∧ 0x23 ∉ uri.drop 8) ∧ authority ≠ [] ∧
      divide (uri.drop 8) = (authority, path) := by
  have query : ∀ rest : Bytes, V1.Uri.containsAny rest (ascii "?#") = false ↔
      0x3F ∉ rest ∧ 0x23 ∉ rest := by
    intro rest
    have bytes : ascii "?#" = [0x3F, 0x23] := rfl
    simp only [V1.Uri.containsAny, bytes, List.any_cons, List.any_nil, Bool.or_eq_false_iff,
      Option.isSome_eq_false_iff, Option.isNone_iff_eq_none, cut_singleton_eq_none, and_true]
  simp only [splitHttps, Option.bind_eq_bind, Option.bind_eq_some_iff, guard_eq_some, exists_const,
    Option.some.injEq, Prod.exists]
  simp only [V1.Uri.asciiDowncase, query, divide_eq]
  constructor
  · rintro ⟨scheme, rest, found, lowered, free, nonempty, same⟩
    obtain ⟨header, rfl, rfl⟩ := cut_scheme.mp ⟨found, lowered⟩
    have first : (divide (uri.drop 8)).1 = authority := congrArg Prod.fst same
    exact ⟨header, free, first ▸ nonempty, same⟩
  · rintro ⟨header, free, nonempty, same⟩
    obtain ⟨found, lowered⟩ := cut_scheme.mpr ⟨header, rfl, rfl⟩
    have first : (divide (uri.drop 8)).1 = authority := congrArg Prod.fst same
    exact ⟨uri.take 5, uri.drop 8, found, lowered, free, first ▸ nonempty, same⟩

/-- What the second reader asks of a URI. -/
theorem uriNormalize_eq_some {uri n : Bytes} {bounds : Bounds} :
    uriNormalize uri bounds = some n ↔
      uri.length ≤ bounds .uriBytes ∧ uri.any refused = false ∧ Scheme uri ∧
        ∃ host port, parseAuthority (divide (uri.drop 8)).1 = some (host, port) ∧
          ∃ path, normalizePath (divide (uri.drop 8)).2 = some path ∧
            n.length ≤ bounds .uriBytes ∧
              ascii "https://" ++ host ++ (match port with
                | none => []
                | some p => 0x3A :: p) ++ path = n := by
  simp only [uriNormalize, Option.bind_eq_bind, Option.bind_eq_some_iff, guard_eq_some,
    exists_const, Option.some.injEq, Prod.exists]
  refine and_congr_right fun _ => and_congr_right fun _ => and_congr_right fun _ =>
    exists_congr fun host => exists_congr fun port => and_congr_right fun _ =>
      exists_congr fun path => and_congr_right fun _ => ?_
  constructor
  · rintro ⟨short, rfl⟩
    exact ⟨short, rfl⟩
  · rintro ⟨short, rfl⟩
    exact ⟨short, rfl⟩

/-- What the first reader asks of a URI. -/
theorem normalize_eq_some {uri n : Bytes} {bounds : Bounds} :
    V1.Uri.normalize uri bounds.toLimits = some n ↔
      uri.length ≤ bounds .uriBytes ∧ V1.Uri.asciiUri uri = true ∧
        ∃ authority rawPath, splitHttps uri = some (authority, rawPath) ∧
          ∃ host port, V1.Uri.normalizeAuthority authority = some (host, port) ∧
            ∃ path, V1.UriPath.normalize rawPath = some path ∧ n.length ≤ bounds .uriBytes ∧
              V1.Uri.buildUri host port path = n := by
  simp only [V1.Uri.normalize, Bounds.coerce_toLimits, Option.bind_eq_bind, Option.bind_some,
    Option.bind_eq_some_iff, guard_eq_some, exists_const, Option.some.injEq, Prod.exists]
  refine and_congr_right fun _ => and_congr_right fun _ =>
    exists_congr fun authority => exists_congr fun rawPath => and_congr_right fun _ =>
      exists_congr fun host => exists_congr fun port => and_congr_right fun _ =>
        exists_congr fun path => and_congr_right fun _ => ?_
  constructor
  · rintro ⟨short, rfl⟩
    exact ⟨short, rfl⟩
  · rintro ⟨short, rfl⟩
    exact ⟨short, rfl⟩

theorem portText_eq (port : Option Nat) : V1.Uri.portText port =
    match port.bind writtenPort with
    | none => []
    | some p => 0x3A :: p := by
  cases port with
  | none => rfl
  | some port =>
      simp only [V1.Uri.portText, Option.bind_some, writtenPort]
      split <;> rfl

set_option maxRecDepth 4096 in
/-- The bytes a URI is written in, but for the blank. -/
theorem printable_iff {uri : Bytes} (nonempty : uri ≠ []) :
    (uri.any refused = false ∧ 0x20 ∉ uri) ↔
      V1.Uri.asciiUri uri = true ∧ 0x3F ∉ uri ∧ 0x23 ∉ uri := by
  have byte : ∀ b : UInt8, refused b = false ∧ 0x20 ≠ b ↔
      within 0x21 0x7E b = true ∧ 0x3F ≠ b ∧ 0x23 ≠ b :=
    byte_forall (P := fun b => refused b = false ∧ 0x20 ≠ b ↔
      within 0x21 0x7E b = true ∧ 0x3F ≠ b ∧ 0x23 ≠ b) (by decide)
  have forallNe : ∀ c : UInt8, c ∉ uri ↔ ∀ b ∈ uri, c ≠ b := fun c =>
    ⟨fun free b member same => free (same ▸ member), fun all member => all c member rfl⟩
  simp only [V1.Uri.asciiUri, nonempty, ne_eq, not_false_eq_true, decide_true, Bool.true_and,
    List.any_eq_false, List.all_eq_true, forallNe, Bool.not_eq_true]
  rw [← forall₂_and, ← forall₂_and, ← forall₂_and]
  exact forall₂_congr fun b _ => byte b

/-- The host is an address in brackets with a dot, of no later version. -/
def EmbeddedIpv4 (uri : Bytes) : Prop :=
  ∃ authority ∈ (splitHttps uri).map Prod.fst, authority.head? = some 0x5B ∧
    ∃ address ∈ (cut (ascii "]") (authority.drop 1)).map Prod.fst, embedded address = true

/-- The host is digits and dots, but not four numbers. -/
def DottedName (uri : Bytes) : Prop :=
  ∃ authority ∈ (splitHttps uri).map Prod.fst, authority.head? ≠ some 0x5B ∧
    dottedName (V1.Uri.registeredName authority) = true

instance (uri : Bytes) : Decidable (EmbeddedIpv4 uri) := inferInstanceAs (Decidable (∃ _ ∈ _, _))

instance (uri : Bytes) : Decidable (DottedName uri) := inferInstanceAs (Decidable (∃ _ ∈ _, _))

theorem sharedHost_of_neither {uri authority path : Bytes}
    (split : splitHttps uri = some (authority, path)) (h : ¬EmbeddedIpv4 uri ∧ ¬DottedName uri) :
    sharedHost authority = true := by
  rw [sharedHost]
  split
  next bracket =>
    split
    next address suffix found =>
      rw [Bool.not_eq_true', Bool.eq_false_iff]
      exact fun dotted => h.1 ⟨authority, by rw [split]; rfl, bracket,
        address, by rw [found]; rfl, dotted⟩
    next => rfl
  next bracket =>
    rw [Bool.not_eq_true', Bool.eq_false_iff]
    exact fun dotted => h.2 ⟨authority, by rw [split]; rfl, bracket, dotted⟩

/-- No blank is in what both take apart and accept. -/
theorem space_of_parts {uri : Bytes} {result : Bytes × Option Bytes} {path : Bytes}
    (scheme : Scheme uri) (authority : parseAuthority (divide (uri.drop 8)).1 = some result)
    (rest : normalizePath (divide (uri.drop 8)).2 = some path) : 0x20 ∉ uri := by
  rw [scheme_whole scheme, ← divide_append (uri.drop 8)]
  simp only [List.mem_append, not_or]
  refine ⟨?_, by decide, space_of_authority authority, space_of_path rest⟩
  intro member
  have letter := scheme_bytes scheme.2.2 _ member
  revert letter
  decide

theorem agrees_of_shared {uri : Bytes} (bounds : Bounds) (h : ¬EmbeddedIpv4 uri ∧ ¬DottedName uri) :
    uriNormalize uri bounds = V1.Uri.normalize uri bounds.toLimits := by
  have build : ∀ (host path : Bytes) (port : Option Nat),
      ascii "https://" ++ host ++ (match port.bind writtenPort with
        | none => []
        | some p => 0x3A :: p) ++ path = V1.Uri.buildUri host port path := by
    intro host path port
    rw [V1.Uri.buildUri_eq, portText_eq]
    simp
  ext n
  rw [uriNormalize_eq_some, normalize_eq_some]
  refine and_congr_right fun _ => ?_
  constructor
  · rintro ⟨plain, scheme, host, port, authority, path, normal, short, rfl⟩
    have nonempty : uri ≠ [] := List.length_pos_iff.mp (Nat.lt_of_lt_of_le (by decide) scheme.1)
    obtain ⟨printable, query⟩ :=
      (printable_iff nonempty).mp ⟨plain, space_of_parts scheme authority normal⟩
    have named : (divide (uri.drop 8)).1 ≠ [] := by
      simp only [parseAuthority, Option.bind_eq_bind, guard_bind_eq_some] at authority
      exact authority.1
    have query' : 0x3F ∉ uri.drop 8 ∧ 0x23 ∉ uri.drop 8 :=
      ⟨fun member => query.1 (List.mem_of_mem_drop member),
        fun member => query.2 (List.mem_of_mem_drop member)⟩
    have split : splitHttps uri = some (divide (uri.drop 8)) :=
      splitHttps_iff.mpr ⟨scheme, query', named, rfl⟩
    rw [parseAuthority_eq named (sharedHost_of_neither split h)] at authority
    obtain ⟨⟨host', port'⟩, first, same⟩ := Option.map_eq_some_iff.mp authority
    cases same
    rw [normalizePath_eq (divide_absolute _)] at normal
    exact ⟨printable, _, _, split, host', port', first, path, normal, short, (build _ _ _).symm⟩
  · rintro ⟨printable, authority, rawPath, split, host, port, first, path, normal, short, rfl⟩
    obtain ⟨scheme, query, named, same⟩ := splitHttps_iff.mp split
    have nonempty : uri ≠ [] := List.length_pos_iff.mp (Nat.lt_of_lt_of_le (by decide) scheme.1)
    have front : ∀ c : UInt8, c ∉ uri.drop 8 → c ∉ ascii "://" →
        ¬(isUpper c = true ∨ isLower c = true) → c ∉ uri := by
      intro c behind middle noLetter
      rw [scheme_whole scheme, List.mem_append, List.mem_append, not_or, not_or]
      exact ⟨fun member => noLetter (scheme_bytes scheme.2.2 c member), middle, behind⟩
    obtain ⟨plain, -⟩ := (printable_iff nonempty).mpr
      ⟨printable, front _ query.1 (by decide) (by decide), front _ query.2 (by decide) (by decide)⟩
    have read : parseAuthority authority = some (host, port.bind writtenPort) := by
      rw [parseAuthority_eq named (sharedHost_of_neither split h), first]
      rfl
    have absolute : Absolute rawPath := by
      have := divide_absolute (uri.drop 8)
      rwa [same] at this
    rw [same]
    refine ⟨plain, scheme, host, port.bind writtenPort, read, path, ?_, short, build _ _ _⟩
    rw [normalizePath_eq absolute, normal]

theorem exists_snd {x : Option (Bytes × Bytes)} {a : Bytes} (h : a ∈ x.map Prod.fst) :
    ∃ b, x = some (a, b) := by
  obtain ⟨⟨_, b⟩, found, same⟩ := Option.map_eq_some_iff.mp h
  cases same
  exact ⟨b, found⟩

theorem uriNormalize_embedded {uri : Bytes} (bounds : Bounds) (h : EmbeddedIpv4 uri) :
    uriNormalize uri bounds = none := by
  obtain ⟨authority, divided, bracket, address, closed, dotted⟩ := h
  obtain ⟨path, split⟩ := exists_snd divided
  obtain ⟨suffix, found⟩ := exists_snd closed
  rw [Option.eq_none_iff_forall_ne_some]
  intro n accepted
  rw [uriNormalize_eq_some] at accepted
  obtain ⟨-, -, -, host, port, read, -⟩ := accepted
  obtain ⟨-, -, -, same⟩ := splitHttps_iff.mp split
  rw [same] at read
  obtain ⟨rest, rfl⟩ : ∃ rest, authority = 0x5B :: rest := by
    cases authority with
    | nil => cases bracket
    | cons b rest => exact ⟨rest, congrArg (· :: rest) (Option.some.inj bracket)⟩
  have close : cut (ascii "]") rest =
      (position 0x5D rest).map fun i => (rest.take i, rest.drop (i + 1)) :=
        cut_eq_position 0x5D rest
  have behind : (0x5B :: rest : Bytes).drop 1 = rest := rfl
  rw [behind, close] at found
  obtain ⟨i, at', same'⟩ := Option.map_eq_some_iff.mp found
  cases same'
  simp only [parseAuthority, Option.bind_eq_bind, if_pos bracket, Option.bind_eq_some_iff,
    guard_eq_some, exists_const] at read
  obtain ⟨-, -, close', position', content, literal, -⟩ := read
  rw [position_cons (by decide), at'] at position'
  cases position'
  have refused := (validateIpLiteral_eq_some.mp literal).2.1
  have inside : ((0x5B :: rest).take (i + 1)).drop 1 = rest.take i := rfl
  rw [inside, dotted] at refused
  cases refused

theorem normalize_dottedName {uri : Bytes} (bounds : Bounds) (h : DottedName uri) :
    V1.Uri.normalize uri bounds.toLimits = none := by
  obtain ⟨authority, divided, bracket, dotted⟩ := h
  obtain ⟨path, split⟩ := exists_snd divided
  rw [Option.eq_none_iff_forall_ne_some]
  intro n accepted
  rw [normalize_eq_some] at accepted
  obtain ⟨-, -, authority', path', split', host, port, read, -⟩ := accepted
  rw [split] at split'
  cases split'
  simp only [V1.Uri.normalizeAuthority, Option.bind_eq_bind, guard_bind_eq_some,
    V1.Uri.parseHostPort, if_neg bracket] at read
  rw [V1.Uri.registeredName] at dotted
  obtain ⟨-, read⟩ := read
  cases found : cut (ascii ":") authority with
  | none =>
      simp only [found] at dotted read
      rw [normalizeRegisteredHost_dotted dotted] at read
      cases read
  | some parts =>
      simp only [found, Option.bind_eq_some_iff] at dotted read
      obtain ⟨-, -, value, -, registered⟩ := read
      rw [normalizeRegisteredHost_dotted dotted] at registered
      cases registered

/-- The two readers give the same bytes but for two kinds of hosts.  An embedded address
in dotted decimal is refused by the second one, and digits and dots that are not four
numbers by the first. -/
theorem uriNormalize_agrees (uri : Bytes) (bounds : Bounds) :
    (¬EmbeddedIpv4 uri ∧ ¬DottedName uri →
      uriNormalize uri bounds = V1.Uri.normalize uri bounds.toLimits) ∧
      (EmbeddedIpv4 uri → uriNormalize uri bounds = none) ∧
      (DottedName uri → V1.Uri.normalize uri bounds.toLimits = none) :=
  ⟨agrees_of_shared bounds, uriNormalize_embedded bounds, normalize_dottedName bounds⟩

theorem uriNormalize_agrees_sample :
    uriNormalize (ascii "https://[::1]") .maximum =
        V1.Uri.normalize (ascii "https://[::1]") Bounds.maximum.toLimits ∧
      uriNormalize (ascii "https://[::1.2.3.4]") .maximum = none ∧
        V1.Uri.normalize (ascii "https://1.2/") Bounds.maximum.toLimits = none :=
  ⟨(uriNormalize_agrees (ascii "https://[::1]") .maximum).1 (by decide +kernel),
    (uriNormalize_agrees (ascii "https://[::1.2.3.4]") .maximum).2.1 (by decide +kernel),
    (uriNormalize_agrees (ascii "https://1.2/") .maximum).2.2 (by decide +kernel)⟩

/-- Two numbers are a name to the second reader and a wrong address to the first. -/
theorem uriNormalize_differs :
    ¬ ∀ (uri : Bytes) (bounds : Bounds),
      uriNormalize uri bounds = V1.Uri.normalize uri bounds.toLimits := by
  intro always
  have same := always (ascii "https://1.2/") .maximum
  revert same
  decide +kernel

end BoundedAuthority.Rust.Uri
