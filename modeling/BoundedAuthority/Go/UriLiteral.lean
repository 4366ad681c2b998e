import BoundedAuthority.Go.UriPath
import BoundedAuthority.V1.Ipv6
import BoundedAuthority.Wire.Ipv6Numbers

/-!
# Addresses in brackets in Go

`normalizeIPv6` and `normalizeIPvFuture` against the productions `IPv6address` and
`IPvFuture`.  An address is returned in small letters.  The code takes two other kinds of
texts for addresses: those with a dotted part before the elision, as long as a group
follows the elision, and those whose dotted part holds bytes that are no digits, since
`validIPv4` reads the value of a label from its bytes without looking what they are.
-/

namespace BoundedAuthority.Go.Uri

open Wire Percent Ipv6

/-! ## Dotted parts -/

theorem mem_of_mem_splitGlobal {c : UInt8} : ∀ {parts : List Bytes} {bs part : Bytes},
    splitGlobal [c] bs = parts → part ∈ parts → ∀ b ∈ part, b ∈ bs ∧ b ≠ c
  | [], bs, part, _, known => by cases known
  | first :: parts, bs, part, same, known => by
      obtain ⟨free, ⟨-, rfl⟩ | ⟨rest, rfl, later⟩⟩ := splitGlobal_singleton_cons same
      · intro b member
        rcases List.mem_cons.mp known with rfl | known
        · exact ⟨member, fun same => free (same ▸ member)⟩
        · cases parts with
          | nil => cases known
          | cons second parts =>
              rw [splitGlobal_singleton free] at same
              cases same
      · intro b member
        rcases List.mem_cons.mp known with rfl | known
        · exact ⟨List.mem_append_left _ member, fun same => free (same ▸ member)⟩
        · obtain ⟨inside, other⟩ := mem_of_mem_splitGlobal later known b member
          exact ⟨List.mem_append_right _ (List.mem_cons_of_mem _ inside), other⟩

theorem contains_iff {s : Bytes} {c : UInt8} : contains s [c] = true ↔ c ∈ s := by
  rw [contains, Option.isSome_iff_ne_none, ne_eq, cut_singleton_eq_none, not_not]

set_option maxRecDepth 4096 in
/-- Of digits the bytes have the value of the digits. -/
theorem labelValue_eq {p : Bytes} (digits : ∀ b ∈ p, isDigit b = true) :
    labelValue p = Decimal.value p := by
  refine List.foldl_ext _ _ _ fun v b member => ?_
  have same : (b - 0x30).toNat = Decimal.digitValue b := by
    have digit := digits b member
    revert digit
    exact byte_forall (P := fun b => isDigit b = true → (b - 0x30).toNat = Decimal.digitValue b)
      (by decide) b
  rw [same, Nat.mul_comm]

/-- Of digits a label is an octet. -/
theorem validLabel_iff {p : Bytes} (digits : ∀ b ∈ p, isDigit b = true) :
    validLabel p = true ↔ DecOctet p := by
  have all : p.all isDigit = true := List.all_eq_true.mpr digits
  rw [← V1.Uri.validIpv4Octet_iff, V1.Uri.validIpv4Octet, validLabel, labelValue_eq digits, all]
  cases p with
  | nil => simp
  | cons a tail =>
      cases tail with
      | nil => simp
      | cons b p =>
          simp
          omega

theorem validIPv4_iff {host : Bytes} (digits : ∀ b ∈ host, isDigit b = true ∨ b = 0x2E) :
    validIPv4 host = true ↔ Ipv4Address host := by
  have dots : ascii "." = [0x2E] := rfl
  rw [← V1.Uri.validIpv4Tail_iff, validIPv4, V1.Uri.validIpv4Tail, dots]
  have each : ∀ part ∈ splitGlobal [0x2E] host, validLabel part = V1.Uri.validIpv4Octet part := by
    intro part known
    have labels : ∀ b ∈ part, isDigit b = true := by
      intro b member
      obtain ⟨inside, other⟩ := mem_of_mem_splitGlobal rfl known b member
      exact (digits b inside).resolve_right other
    rw [Bool.eq_iff_iff, validLabel_iff labels, V1.Uri.validIpv4Octet_iff]
  rcases same : splitGlobal [0x2E] host with _ | ⟨a, _ | ⟨b, _ | ⟨c, _ | ⟨d, _ | ⟨e, rest⟩⟩⟩⟩⟩
  case cons.cons.cons.cons.nil =>
    rw [same] at each
    simp [each a, each b, each c, each d]
  all_goals simp

/-- A dotted part as the code takes it. -/
structure Dotted (tail : Bytes) : Prop where
  valid : validIPv4 tail = true
  colonFree : 0x3A ∉ tail

theorem Dotted.dot {tail : Bytes} (h : Dotted tail) : 0x2E ∈ tail := by
  by_contra free
  have dots : ascii "." = [0x2E] := rfl
  have valid := h.valid
  rw [validIPv4, dots, splitGlobal_singleton free] at valid
  cases valid

theorem Dotted.ne_nil {tail : Bytes} (h : Dotted tail) : tail ≠ [] := List.ne_nil_of_mem h.dot

theorem dotted_of_address {tail : Bytes} (h : Ipv4Address tail) : Dotted tail :=
  ⟨(validIPv4_iff h.bytes).mpr h, h.colonFree⟩

/-! ## Sides -/

/-- One side of an elision as the code takes it. -/
inductive LooseSide : (dotted : Bool) → (n : Nat) → Bytes → Prop
  | empty : LooseSide false 0 []
  | hex {n : Nat} {groups last : Bytes} (before : Groups n groups) (h : H16 last) :
      LooseSide false (n + 1) (groups ++ last)
  | dotted {n : Nat} {groups last : Bytes} (before : Groups n groups) (h : Dotted last) :
      LooseSide true (n + 2) (groups ++ last)

theorem looseSide_of_side {dotted : Bool} {n : Nat} {side : Bytes} (h : Side dotted n side) :
    LooseSide dotted n side := by
  cases h with
  | empty => exact .empty
  | hex before h => exact .hex before h
  | address before h => exact .dotted before (dotted_of_address h)

theorem side_of_looseSide {n : Nat} {side : Bytes} (h : LooseSide false n side) :
    Side false n side := by
  cases h with
  | empty => exact .empty
  | hex before h => exact .hex before h

theorem LooseSide.cut_elision {dotted : Bool} {n : Nat} {side : Bytes} (h : LooseSide dotted n side)
    (rest : Bytes) : cut elision (side ++ (elision ++ rest)) = some (side, rest) := by
  cases h with
  | empty => exact Side.empty.cut_elision rest
  | hex before h => exact (Side.hex before h).cut_elision rest
  | dotted before h =>
      have found : cut elision (elision ++ rest) = some ([], rest) := cut_elision_cons _ _
      rw [List.append_assoc, before.cut_elision h.ne_nil h.colonFree, found]
      simp

theorem LooseSide.cut_elision_none {dotted : Bool} {n : Nat} {side : Bytes}
    (h : LooseSide dotted n side) : cut elision side = none := by
  cases h with
  | empty => exact Side.empty.cut_elision_none
  | hex before h => exact (Side.hex before h).cut_elision_none
  | @dotted _ groups last before h =>
      have found := before.cut_elision h.ne_nil h.colonFree []
      have nothing : cut elision [] = none := rfl
      rwa [List.append_nil, nothing] at found

theorem hexGroup_iff (g : Bytes) : hexGroup g = true ↔ H16 g := by
  have hex : (g.all fun c => !(decide (hexVal c < 0))) = true ↔ ∀ b ∈ g, isHex b = true := by
    rw [List.all_eq_true]
    refine forall₂_congr fun b _ => ?_
    rw [Bool.not_eq_true', decide_eq_false_iff_not, hexVal_neg_iff, Bool.not_eq_false]
  rw [hexGroup, Bool.and_eq_true, Bool.and_eq_true, hex]
  constructor
  · rintro ⟨⟨some_, short⟩, digits⟩
    refine ⟨List.length_pos_iff.mpr (of_decide_eq_true some_), ?_, digits⟩
    simpa using short
  · intro h
    refine ⟨⟨decide_eq_true h.ne_nil, ?_⟩, h.hex⟩
    simpa using h.short

theorem all_hexGroup_iff {groups : List Bytes} :
    groups.all hexGroup = true ↔ ∀ g ∈ groups, H16 g := by
  rw [List.all_eq_true]
  exact forall₂_congr fun g _ => hexGroup_iff g

/-- The expansion of a dotted part. -/
def expand (last : Bytes) : List Bytes :=
  match (splitGlobal (ascii ".") last).map labelValue with
  | [a, b, c, d] => [sprintfHex (a <<< 8 ||| b), sprintfHex (c <<< 8 ||| d)]
  | _ => []

theorem isHex_sprintfHex (n : Nat) : ∀ b ∈ sprintfHex n, isHex b = true := by
  have digit : ∀ d : Fin 16, isHex (hexDigit d) = true := by decide
  induction n using Nat.strongRecOn with
  | ind n ih =>
      rw [sprintfHex]
      split
      next small =>
        intro b member
        rw [List.mem_singleton.mp member]
        exact digit ⟨n, small⟩
      next large =>
        intro b member
        rcases List.mem_append.mp member with front | last
        · exact ih (n / 16) (by omega) b front
        · rw [List.mem_singleton.mp last]
          exact digit ⟨n % 16, Nat.mod_lt n (by decide)⟩

/-- A dotted part is expanded to two groups without colons. -/
theorem Dotted.expand {last : Bytes} (h : Dotted last) : ∃ high low, expand last = [high, low] ∧
    0x3A ∉ high ∧ 0x3A ∉ low := by
  have free : ∀ n, 0x3A ∉ sprintfHex n := fun n m => absurd (isHex_sprintfHex n _ m) (by decide)
  have four : (splitGlobal (ascii ".") last).length = 4 := by
    have valid := h.valid
    rw [validIPv4, Bool.and_eq_true, beq_iff_eq] at valid
    exact valid.1
  match same : splitGlobal (ascii ".") last, four with
  | [a, b, c, d], _ =>
      have expanded : Uri.expand last = [sprintfHex (labelValue a <<< 8 ||| labelValue b),
          sprintfHex (labelValue c <<< 8 ||| labelValue d)] := by
        rw [Uri.expand, same]
        rfl
      exact ⟨_, _, expanded, free _, free _⟩

/-- What the code reads from groups and what follows their colons. -/
theorem parseSide_colons {groups : List Bytes} {last : Bytes} (hGroups : ∀ g ∈ groups, 0x3A ∉ g)
    (free : 0x3A ∉ last) (some_ : colons groups ++ last ≠ []) (allow : Bool) :
    parseSide (colons groups ++ last) allow =
      if groups.all hexGroup = true ∧ last ≠ [] then
        if 0x2E ∈ last then
          if allow = true ∧ validIPv4 last = true then some (groups ++ expand last) else none
        else if hexGroup last = true then some (groups ++ [last]) else none
      else none := by
  have colon : ascii ":" = [0x3A] := rfl
  have dot : ascii "." = [0x2E] := rfl
  have parts : (groups ++ [last]).getLast?.getD [] = last := by simp
  rw [parseSide, if_neg some_, colon, splitGlobal_colons hGroups free]
  simp only [parts, List.dropLast_concat, ← Bool.not_eq_true]
  by_cases hex : groups.all hexGroup = true
  · rw [if_neg (not_not.mpr hex)]
    by_cases empty : last = []
    · rw [if_pos empty, if_neg fun h => h.2 empty]
    · have front : groups.all hexGroup = true ∧ last ≠ [] := ⟨hex, empty⟩
      rw [if_neg empty, if_pos front, dot]
      simp only [contains_iff]
      by_cases inside : 0x2E ∈ last
      · rw [if_pos inside, if_pos inside]
        by_cases valid : allow = true ∧ validIPv4 last = true
        · have dotted : Dotted last := ⟨valid.2, free⟩
          obtain ⟨high, low, expanded, -, -⟩ := dotted.expand
          have refused : (!allow || !validIPv4 last) = false := by
            rw [valid.1, valid.2]
            rfl
          rw [if_pos valid, if_neg (by rw [refused]; exact Bool.false_ne_true)]
          rw [expand, dot] at expanded ⊢
          generalize (splitGlobal [0x2E] last).map labelValue = values at expanded ⊢
          split at expanded
          next => rfl
          next => cases expanded
        · have refused : (!allow || !validIPv4 last) = true := by
            rw [← Bool.not_and, Bool.not_eq_true', ← Bool.not_eq_true, Bool.and_eq_true]
            exact valid
          rw [if_neg valid, if_pos refused]
      · rw [if_neg inside, if_neg inside]
  · rw [if_pos hex, if_neg fun h => hex h.1]

/-- What is read is a side, with a dotted part only where one is allowed. -/
theorem looseSide_of_parseSide {side : Bytes} {allow : Bool} {groups : List Bytes}
    (h : parseSide side allow = some groups) :
    ∃ dotted, LooseSide dotted groups.length side ∧ (dotted = true → allow = true) := by
  by_cases empty : side = []
  · rw [empty, parseSide, if_pos rfl] at h
    rw [empty, ← Option.some.inj h]
    exact ⟨false, .empty, fun h => absurd h Bool.false_ne_true⟩
  obtain ⟨parts, last, hParts, free, rfl⟩ := exists_colons side
  rw [parseSide_colons hParts free empty] at h
  split at h
  next front =>
    have before : Groups parts.length (colons parts) :=
      groups_iff.mpr ⟨parts, rfl, all_hexGroup_iff.mp front.1, rfl⟩
    split at h
    next =>
      split at h
      next valid =>
        have dotted : Dotted last := ⟨valid.2, free⟩
        obtain ⟨high, low, expanded, -, -⟩ := dotted.expand
        rw [expanded] at h
        rw [← Option.some.inj h, List.length_append]
        exact ⟨true, .dotted before dotted, fun _ => valid.1⟩
      next => cases h
    next =>
      split at h
      next hex =>
        rw [← Option.some.inj h, List.length_append]
        exact ⟨false, .hex before ((hexGroup_iff last).mp hex),
          fun h => absurd h Bool.false_ne_true⟩
      next => cases h
  next => cases h

/-! ## Writing -/

theorem intercalate_colons : ∀ (groups : List Bytes) (last : Bytes),
    (ascii ":").intercalate (groups ++ [last]) = colons groups ++ last
  | [], last => List.intercalate_singleton
  | g :: groups, last => by
      have more : groups ++ [last] ≠ [] :=
        List.append_ne_nil_of_right_ne_nil _ (List.cons_ne_nil _ _)
      rw [List.cons_append, List.intercalate_cons_of_ne_nil more, intercalate_colons, colons_cons]
      simp only [List.append_assoc]
      rfl

theorem lowerHexStr_colons (groups : List Bytes) (last : Bytes) :
    lowerHexStr (colons groups ++ last) = colons (groups.map lowerHexStr) ++ lowerHexStr last := by
  rw [lowerHexStr, List.map_append, colons_map rfl]
  rfl

/-- The groups of a side are written between colons. -/
theorem intercalate_lowerHexStr (groups : List Bytes) (last : Bytes) :
    (ascii ":").intercalate ((groups ++ [last]).map lowerHexStr) =
      lowerHexStr (colons groups ++ last) := by
  rw [List.map_append, List.map_singleton, intercalate_colons, lowerHexStr_colons]

set_option maxRecDepth 4096 in
/-- On the bytes of an address the letters are the hexadecimal ones. -/
theorem lowerHexStr_eq {s : Bytes} (h : ∀ b ∈ s, AddressByte b) : lowerHexStr s = s.map lower := by
  refine List.map_congr_left fun b member => ?_
  rcases h b member with hex | rfl | rfl
  · revert hex
    exact byte_forall (P := fun b => isHex b = true → (if 0x41 ≤ b ∧ b ≤ 0x46 then b + 32 else b) =
      lower b)
      (by decide) b
  · rfl
  · rfl

set_option maxRecDepth 4096 in
theorem mem_lowerHexStr {s : Bytes} (free : 0x3A ∉ s) : 0x3A ∉ lowerHexStr s := by
  intro member
  obtain ⟨b, known, same⟩ := List.mem_map.mp member
  have own : (if 0x41 ≤ b ∧ b ≤ 0x46 then b + 32 else b) = 0x3A → b = 0x3A :=
    byte_forall (P := fun b => (if 0x41 ≤ b ∧ b ≤ 0x46 then b + 32 else b) = 0x3A → b = 0x3A)
      (by decide) b
  exact free (own same ▸ known)

/-- What the last two groups are cut back to. -/
theorem restoreIPv4_colons (x : Bytes) {high low dotted : Bytes} (some_ : dotted ≠ [])
    (freeHigh : 0x3A ∉ high) (freeLow : 0x3A ∉ low) :
    restoreIPv4 (x ++ 0x3A :: (high ++ 0x3A :: low)) dotted = x ++ 0x3A :: dotted := by
  have whole : x ++ 0x3A :: (high ++ 0x3A :: low) = (x ++ 0x3A :: high) ++ 0x3A :: low := by simp
  rw [restoreIPv4, if_neg some_, replaceLastTwoGroups, whole, cutLast_append _ freeLow,
    Option.bind_eq_bind, Option.bind_some]
  simp only [cutLast_append _ freeHigh, Option.bind_some, Option.getD_some]

theorem restoreIPv4_nil (out : Bytes) : restoreIPv4 out [] = out := if_pos rfl

/-- The dotted part of a side is what follows its last colon. -/
theorem dottedTail_colons {groups : List Bytes} {last : Bytes} (h : Dotted last) :
    dottedTail (colons groups ++ last) = last := by
  have dot : contains (colons groups ++ last) (ascii ".") = true :=
    contains_iff.mpr (List.mem_append_right _ h.dot)
  rw [dottedTail, if_pos dot]
  rcases List.eq_nil_or_concat groups with rfl | ⟨init, g, rfl⟩
  · have none : cutLast 0x3A (colons [] ++ last) = none := cutLast_eq_none.mpr h.colonFree
    rw [none]
    rfl
  · have whole : colons (init.concat g) ++ last = (colons init ++ g) ++ 0x3A :: last := by simp
    rw [whole, cutLast_append _ h.colonFree]

theorem dottedTail_dotless {side : Bytes} (free : 0x2E ∉ side) : dottedTail side = [] :=
  if_neg fun h => free (contains_iff.mp h)

/-- A side of hexadecimal groups is read as its groups. -/
theorem parseSide_hex {n : Nat} {side : Bytes} (h : Side false n side) (allow : Bool) :
    ∃ groups, parseSide side allow = some groups ∧ groups.length = n ∧
      (ascii ":").intercalate (groups.map lowerHexStr) = lowerHexStr side := by
  cases h with
  | empty => exact ⟨[], if_pos rfl, rfl, rfl⟩
  | hex before h =>
      obtain ⟨groups, rfl, hGroups, rfl⟩ := groups_iff.mp before
      have some_ : colons groups ++ _ ≠ [] := List.append_ne_nil_of_right_ne_nil _ h.ne_nil
      refine ⟨groups ++ [_], ?_, List.length_append, intercalate_lowerHexStr groups _⟩
      rw [parseSide_colons (fun g m => (hGroups g m).colonFree) h.colonFree some_,
        if_pos ⟨all_hexGroup_iff.mpr hGroups, h.ne_nil⟩, if_neg h.dotless,
        if_pos ((hexGroup_iff _).mpr h)]

/-- A side with a dotted part is read as its groups and the expansion. -/
theorem parseSide_dotted {n : Nat} {front last : Bytes} (before : Groups n front)
    (h : Dotted last) :
    ∃ groups high low, front = colons groups ∧ groups.length = n ∧ (∀ g ∈ groups, H16 g) ∧
      parseSide (front ++ last) true = some (groups ++ [high, low]) ∧ 0x3A ∉ high ∧ 0x3A ∉ low := by
  obtain ⟨groups, rfl, hGroups, rfl⟩ := groups_iff.mp before
  obtain ⟨high, low, expanded, freeHigh, freeLow⟩ := h.expand
  have some_ : colons groups ++ last ≠ [] := List.append_ne_nil_of_right_ne_nil _ h.ne_nil
  refine ⟨groups, high, low, rfl, rfl, hGroups, ?_, freeHigh, freeLow⟩
  rw [parseSide_colons (fun g m => (hGroups g m).colonFree) h.colonFree some_,
    if_pos ⟨all_hexGroup_iff.mpr hGroups, h.ne_nil⟩, if_pos h.dot, if_pos ⟨rfl, h.valid⟩, expanded]

/-- The expansion is written where the dotted part stood. -/
theorem intercalate_expanded (groups : List Bytes) (high low : Bytes) :
    (ascii ":").intercalate ((groups ++ [high, low]).map lowerHexStr) =
      lowerHexStr (colons groups) ++ (lowerHexStr high ++ 0x3A :: lowerHexStr low) := by
  have whole : groups ++ [high, low] = (groups ++ [high]) ++ [low] := by simp
  rw [whole, intercalate_lowerHexStr, colons_append, lowerHexStr, List.map_append, List.map_append]
  simp [lowerHexStr, colons]

/-! ## Addresses -/

/-- Without an elision the groups are eight. -/
theorem normalizeIPv6_whole {lit out : Bytes} (single : cut elision lit = none) :
    normalizeIPv6 lit = some out ↔ 0x3A ∈ lit ∧ ∃ groups, parseSide lit true = some groups ∧
      groups.length = 8 ∧ (lit.count 0x3A = 7 ∨ (0x2E ∈ lit ∧ lit.count 0x3A = 6)) ∧
        restoreIPv4 ((ascii ":").intercalate (groups.map lowerHexStr)) (dottedTail lit) = out := by
  have colon : contains lit (ascii ":") = true ↔ 0x3A ∈ lit := contains_iff
  have dot : contains lit (ascii ".") = true ↔ 0x2E ∈ lit := contains_iff
  have pattern : ascii "::" = elision := rfl
  have nothing : parseSide [] true = some [] := if_pos rfl
  have tail : dottedTail [] = [] := dottedTail_dotless List.not_mem_nil
  rw [normalizeIPv6, pattern, single]
  by_cases inside : 0x3A ∈ lit
  · have found : ¬contains lit (ascii ":") = false := by
      rw [colon.mpr inside]
      exact Bool.false_ne_true.symm
    rw [if_neg found]
    simp only [Option.bind_eq_bind, Option.bind_eq_some_iff, guard_eq_some, exists_const, nothing,
      tail, restoreIPv4_nil, Option.some.injEq, dot, Bool.false_eq_true, if_false, false_and,
      not_false_eq_true, true_and, Bool.not_false, Bool.true_or, exists_eq_left', List.length_nil,
      Nat.add_zero, List.map_nil, List.intercalate_nil, List.append_nil, inside]
    refine exists_congr fun groups => and_congr_right fun _ => ?_
    tauto
  · rw [if_pos (Bool.eq_false_iff.mpr fun h => inside (colon.mp h))]
    simp [inside]

/-- Around an elision the groups are fewer. -/
theorem normalizeIPv6_apart {lit out head tail : Bytes}
    (apart : cut elision lit = some (head, tail)) :
    normalizeIPv6 lit = some out ↔ cut elision tail = none ∧ ∃ headGroups tailGroups,
      parseSide head (decide (tail ≠ [])) = some headGroups ∧
        parseSide tail true = some tailGroups ∧
        headGroups.length + tailGroups.length < 8 ∧
          restoreIPv4 ((ascii ":").intercalate (headGroups.map lowerHexStr) ++ (elision ++
            (ascii ":").intercalate (tailGroups.map lowerHexStr))) (dottedTail tail) = out := by
  have colon : contains lit (ascii ":") = true := by
    refine (contains_iff (c := 0x3A)).mpr ?_
    rw [cut_eq_some apart]
    simp [elision]
  have second : contains tail elision = true ↔ ¬cut elision tail = none := by
    rw [contains, Option.isSome_iff_ne_none]
  have pattern : ascii "::" = elision := rfl
  rw [normalizeIPv6, pattern, apart, colon]
  simp only [Option.bind_eq_bind, Option.bind_eq_some_iff, guard_eq_some, exists_const, second,
    Bool.true_eq_false, if_false, if_true, true_and, not_not, Bool.not_true, Bool.false_or,
    Option.some.injEq, List.append_assoc]
  refine and_congr_right fun _ => ?_
  constructor
  · rintro ⟨headGroups, readHead, tailGroups, readTail, few, same⟩
    exact ⟨headGroups, tailGroups, readHead, readTail, by omega, same⟩
  · rintro ⟨headGroups, tailGroups, readHead, readTail, few, same⟩
    exact ⟨headGroups, readHead, tailGroups, readTail, by omega, same⟩

/-- What the code takes for an address. -/
def LooseAddress (lit : Bytes) : Prop :=
  (∃ dotted, LooseSide dotted 8 lit) ∨ ∃ left right dotted dotted' m n,
    lit = left ++ (elision ++ right) ∧ LooseSide dotted m left ∧ LooseSide dotted' n right ∧
      (dotted = true → right ≠ []) ∧ m + n < 8

theorem count_colons {groups : List Bytes} (h : ∀ g ∈ groups, 0x3A ∉ g) :
    (colons groups).count 0x3A = groups.length := by
  induction groups with
  | nil => rfl
  | cons g groups ih =>
      obtain ⟨first, others⟩ := List.forall_mem_cons.mp h
      rw [colons_cons, List.count_append, List.count_eq_zero_of_not_mem first, List.count_cons_self,
        ih others, List.length_cons, Nat.zero_add]

/-- The colons of eight groups: one fewer than groups, and one fewer again with a dotted
part. -/
theorem LooseSide.count {dotted : Bool} {lit : Bytes} (h : LooseSide dotted 8 lit) :
    lit.count 0x3A = 7 ∨ (0x2E ∈ lit ∧ lit.count 0x3A = 6) := by
  generalize eight : 8 = n at h
  cases h with
  | empty => cases eight
  | hex before h =>
      obtain ⟨groups, rfl, hGroups, rfl⟩ := groups_iff.mp before
      refine .inl ?_
      rw [List.count_append, count_colons fun g m => (hGroups g m).colonFree,
        List.count_eq_zero_of_not_mem h.colonFree]
      omega
  | dotted before h =>
      obtain ⟨groups, rfl, hGroups, rfl⟩ := groups_iff.mp before
      refine .inr ⟨List.mem_append_right _ h.dot, ?_⟩
      rw [List.count_append, count_colons fun g m => (hGroups g m).colonFree,
        List.count_eq_zero_of_not_mem h.colonFree]
      omega

/-- A side is read where a dotted part is allowed if it has one. -/
theorem LooseSide.parse {dotted : Bool} {n : Nat} {side : Bytes} (h : LooseSide dotted n side)
    (allow : Bool) (allowed : dotted = true → allow = true) :
    ∃ groups, parseSide side allow = some groups ∧ groups.length = n := by
  cases h with
  | empty => exact ⟨[], if_pos rfl, rfl⟩
  | hex before h =>
      obtain ⟨groups, read, count, -⟩ := parseSide_hex (.hex before h) allow
      exact ⟨groups, read, count⟩
  | dotted before h =>
      obtain ⟨groups, high, low, -, count, -, read, -, -⟩ := parseSide_dotted before h
      refine ⟨groups ++ [high, low], ?_, ?_⟩
      · rw [allowed rfl]
        exact read
      · rw [List.length_append, count]
        rfl

/-- The code returns something exactly for what it takes for an address. -/
theorem normalizeIPv6_iff (lit : Bytes) :
    (∃ out, normalizeIPv6 lit = some out) ↔ LooseAddress lit := by
  constructor
  · rintro ⟨out, h⟩
    cases found : cut elision lit with
    | none =>
        obtain ⟨-, groups, read, eight, -, -⟩ := (normalizeIPv6_whole found).mp h
        obtain ⟨dotted, side, -⟩ := looseSide_of_parseSide read
        exact .inl ⟨dotted, eight ▸ side⟩
    | some around =>
        obtain ⟨head, tail⟩ := around
        obtain ⟨-, headGroups, tailGroups, readHead, readTail, few, -⟩ :=
          (normalizeIPv6_apart found).mp h
        obtain ⟨dotted, left, allowed⟩ := looseSide_of_parseSide readHead
        obtain ⟨dotted', right, -⟩ := looseSide_of_parseSide readTail
        have parts := cut_eq_some found
        rw [List.append_assoc] at parts
        exact .inr ⟨head, tail, dotted, dotted', _, _, parts, left, right,
          fun h => of_decide_eq_true (allowed h), few⟩
  · intro h
    rcases h with ⟨dotted, side⟩ | ⟨left, right, dotted, dotted', m, n, rfl, hLeft, hRight, more,
      few⟩
    · obtain ⟨groups, read, eight⟩ := side.parse true fun _ => rfl
      have count := side.count
      have colon : 0x3A ∈ lit := by
        rw [← List.count_pos_iff]
        omega
      exact ⟨_, (normalizeIPv6_whole side.cut_elision_none).mpr
        ⟨colon, groups, read, eight, count, rfl⟩⟩
    · obtain ⟨headGroups, readHead, headCount⟩ := hLeft.parse (decide (right ≠ []))
        fun h => decide_eq_true (more h)
      obtain ⟨tailGroups, readTail, tailCount⟩ := hRight.parse true fun _ => rfl
      exact ⟨_, (normalizeIPv6_apart (hLeft.cut_elision right)).mpr
        ⟨hRight.cut_elision_none, headGroups,
        tailGroups, readHead, readTail, by omega, rfl⟩⟩

/-- An address is returned in small letters. -/
theorem normalizeIPv6_address {lit : Bytes} (proper : Address lit) :
    normalizeIPv6 lit = some (lit.map lower) := by
  have bytes := proper.bytes
  rw [← lowerHexStr_eq bytes]
  rcases (address_iff lit).mp proper with
    ⟨dotted, whole⟩ | ⟨left, right, dotted, m, n, rfl, hLeft, hRight, few⟩
  · have count := (looseSide_of_side whole).count
    have colon : 0x3A ∈ lit := by
      rw [← List.count_pos_iff]
      omega
    rw [normalizeIPv6_whole whole.cut_elision_none]
    refine ⟨colon, ?_⟩
    generalize eight : 8 = n at whole
    cases whole with
    | empty => cases eight
    | hex before h =>
        obtain ⟨groups, read, length, written⟩ := parseSide_hex (.hex before h) true
        refine ⟨groups, read, length, count, ?_⟩
        rw [written, dottedTail_dotless (Side.hex before h).dotless, restoreIPv4_nil]
    | @address k front last before h =>
        have dotted := dotted_of_address h
        obtain ⟨groups, high, low, same, length, -, read, freeHigh, freeLow⟩ :=
          parseSide_dotted before dotted
        refine ⟨_, read, ?_, count, ?_⟩
        · rw [List.length_append, length]
          rfl
        · -- six groups stand before the dotted part, so the last of their colons is kept
          obtain ⟨init, g, rfl⟩ : ∃ init g, groups = List.concat init g := by
            rcases List.eq_nil_or_concat groups with rfl | found
            · rw [List.length_nil] at length
              omega
            · exact found
          have own : lowerHexStr last = last := by
            rw [lowerHexStr_eq fun b m => bytes b (List.mem_append_right _ m), h.lower]
          have opened : lowerHexStr (colons (init.concat g)) =
              lowerHexStr (colons init ++ g) ++ [0x3A] := by
            simp [lowerHexStr]
          have front' : lowerHexStr (colons (init.concat g) ++ last) =
              lowerHexStr (colons (init.concat g)) ++ lowerHexStr last := List.map_append
          rw [intercalate_expanded, same, dottedTail_colons dotted, front', opened, own,
            List.append_assoc, List.singleton_append, restoreIPv4_colons _ dotted.ne_nil
              (mem_lowerHexStr freeHigh) (mem_lowerHexStr freeLow), List.append_assoc,
            List.singleton_append]
  · rw [normalizeIPv6_apart (hLeft.cut_elision right)]
    refine ⟨hRight.cut_elision_none, ?_⟩
    obtain ⟨headGroups, readHead, headCount, writtenHead⟩ :=
      parseSide_hex hLeft (decide (right ≠ []))
    have whole : lowerHexStr (left ++ (elision ++ right)) =
        lowerHexStr left ++ (elision ++ lowerHexStr right) := by
      simp [lowerHexStr, elision]
    cases dotted with
    | false =>
        obtain ⟨tailGroups, readTail, tailCount, writtenTail⟩ := parseSide_hex hRight true
        refine ⟨headGroups, tailGroups, readHead, readTail, by omega, ?_⟩
        rw [writtenHead, writtenTail, dottedTail_dotless hRight.dotless, restoreIPv4_nil, whole]
    | true =>
        cases hRight with
        | @address k front last before h =>
            have dotted := dotted_of_address h
            obtain ⟨groups, high, low, same, length, -, read, freeHigh, freeLow⟩ :=
              parseSide_dotted before dotted
            refine ⟨headGroups, _, readHead, read, ?_, ?_⟩
            · rw [List.length_append, length, headCount]
              exact few
            · -- a colon stands before the expansion: that of the last group or of the elision
              have own : lowerHexStr last = last := by
                rw [lowerHexStr_eq fun b m => bytes b (by simp [m]), h.lower]
              obtain ⟨x, opened⟩ : ∃ x, lowerHexStr left ++
                (elision ++ lowerHexStr (colons groups)) =
                  x ++ [0x3A] := by
                rcases List.eq_nil_or_concat groups with rfl | ⟨init, g, rfl⟩
                · exact ⟨lowerHexStr left ++ [0x3A], by simp [lowerHexStr, elision]⟩
                · exact ⟨lowerHexStr left ++ (elision ++ lowerHexStr (colons init ++ g)),
                    by simp [lowerHexStr]⟩
              have front' : lowerHexStr (front ++ last) = lowerHexStr (colons groups) ++ last := by
                rw [same, lowerHexStr, List.map_append, ← lowerHexStr, ← lowerHexStr, own]
              rw [writtenHead, intercalate_expanded, same, dottedTail_colons dotted,
                ← List.append_assoc, ← List.append_assoc, List.append_assoc (lowerHexStr left),
                opened, List.append_assoc, List.singleton_append, restoreIPv4_colons _ dotted.ne_nil
                (mem_lowerHexStr freeHigh)
                  (mem_lowerHexStr freeLow), ← same, whole, front', ← List.append_assoc,
                ← List.append_assoc, List.append_assoc (lowerHexStr left), opened]
              simp

/-! ## What is taken for an address -/

/-- A dotted part before the elision, with a group behind it. -/
def DottedBeforeElision (lit : Bytes) : Prop := ∃ left right dotted m n,
  lit = left ++ (elision ++ right) ∧ LooseSide true m left ∧ LooseSide dotted n right ∧
    right ≠ [] ∧ m + n < 8

/-- A dotted part at the end that is no IPv4 address, although `validIPv4` finds its labels
short and their values small. -/
def UncheckedOctets (lit : Bytes) : Prop := ∃ front tail,
  lit = front ++ tail ∧ Dotted tail ∧ ¬Ipv4Address tail ∧
    (Groups 6 front ∨ ∃ left groups m n, front = left ++ (elision ++ groups) ∧ Side false m left ∧
      Groups n groups ∧ m + n + 2 < 8)

theorem DottedBeforeElision.not_address {lit : Bytes} (h : DottedBeforeElision lit) :
    ¬Address lit := by
  obtain ⟨left, right, dotted, m, n, rfl, hLeft, -⟩ := h
  have found := hLeft.cut_elision right
  have dot : 0x2E ∈ left := by
    cases hLeft with
    | dotted before h => exact List.mem_append_right _ h.dot
  rw [address_iff]
  intro h
  rcases h with ⟨dotted, whole⟩ | ⟨left', right', dotted, m, n, same, hLeft', -⟩
  · rw [whole.cut_elision_none] at found
    cases found
  · rw [same, hLeft'.cut_elision] at found
    cases found
    exact hLeft'.dotless dot

theorem UncheckedOctets.not_address {lit : Bytes} (h : UncheckedOctets lit) : ¬Address lit := by
  obtain ⟨front, tail, rfl, dotted, wrong, shape⟩ := h
  intro h
  obtain ⟨front', last, same, free, ipv4⟩ := h.last
  have ends : ∃ x, front = x ++ [0x3A] := by
    have groups : ∀ {n : Nat} {text : Bytes}, Groups (n + 1) text → ∃ x, text = x ++ [0x3A] := by
      intro n text h
      obtain ⟨before, group, -, -, same⟩ := h.last
      exact ⟨before ++ group, by rw [same, List.append_assoc]⟩
    rcases shape with six | ⟨left, text, m, n, rfl, -, before, -⟩
    · exact groups six
    · cases n with
      | zero =>
          cases before
          exact ⟨left ++ [0x3A], by simp [elision]⟩
      | succ n =>
          obtain ⟨x, rfl⟩ := groups before
          exact ⟨left ++ (elision ++ x), by simp⟩
  obtain ⟨x, rfl⟩ := ends
  have parts := cutLast_append x dotted.colonFree
  rw [← List.singleton_append, ← List.append_assoc, same, cutLast_append front' free] at parts
  cases parts
  exact wrong (ipv4 dotted.dot)

/-- What the code takes for an address is one, or of the two other kinds. -/
theorem looseAddress_iff (lit : Bytes) :
    LooseAddress lit ↔ Address lit ∨ DottedBeforeElision lit ∨ UncheckedOctets lit := by
  constructor
  · intro h
    rcases h with ⟨dotted, whole⟩ | ⟨left, right, dotted, dotted', m, n, rfl, hLeft, hRight, more,
      few⟩
    · generalize eight : 8 = k at whole
      cases whole with
      | empty => cases eight
      | hex before h => exact .inl ((address_iff _).mpr (.inl ⟨false, eight ▸ .hex before h⟩))
      | @dotted k front last before h =>
          have six : k = 6 := by omega
          by_cases ipv4 : Ipv4Address last
          · exact .inl ((address_iff _).mpr (.inl ⟨true, eight ▸ .address before ipv4⟩))
          · exact .inr (.inr ⟨front, last, rfl, h, ipv4, .inl (six ▸ before)⟩)
    · cases dotted with
      | true => exact .inr (.inl ⟨left, right, dotted', m, n, rfl, hLeft, hRight, more rfl, few⟩)
      | false =>
          have left' := side_of_looseSide hLeft
          cases hRight with
          | empty =>
              exact .inl
                ((address_iff _).mpr (.inr ⟨left, _, _, m, 0, rfl, left', .empty, few⟩))
          | hex before h =>
              exact .inl
                ((address_iff _).mpr (.inr ⟨left, _, _, m, _, rfl, left', .hex before h, few⟩))
          | @dotted k front last before h =>
              by_cases ipv4 : Ipv4Address last
              · exact .inl ((address_iff _).mpr
                  (.inr ⟨left, _, _, m, _, rfl, left', .address before ipv4, few⟩))
              · exact .inr (.inr ⟨left ++ (elision ++ front), last, by simp, h, ipv4,
                  .inr ⟨left, front, m, k, rfl, left', before, few⟩⟩)
  · intro h
    rcases h with proper | ⟨left, right, dotted, m, n, same, hLeft, hRight, more, few⟩ |
      ⟨front, tail, same, dotted, -, shape⟩
    · rcases (address_iff lit).mp proper with ⟨dotted, whole⟩ |
        ⟨left, right, dotted, m, n, same, hLeft, hRight, few⟩
      · exact .inl ⟨dotted, looseSide_of_side whole⟩
      · exact .inr ⟨left, right, false, dotted, m, n, same, looseSide_of_side hLeft,
          looseSide_of_side hRight, fun h => absurd h Bool.false_ne_true, few⟩
    · exact .inr ⟨left, right, true, dotted, m, n, same, hLeft, hRight, fun _ => more, few⟩
    · rcases shape with six | ⟨left, groups, m, n, rfl, hLeft, before, few⟩
      · exact .inl ⟨true, same ▸ .dotted six dotted⟩
      · refine .inr ⟨left, groups ++ tail, false, true, m, n + 2, ?_, looseSide_of_side hLeft,
          .dotted before dotted, fun h => absurd h Bool.false_ne_true, few⟩
        rw [same]
        simp

/-! ## Literals -/

/-- `IPvFuture`, and how it is returned. -/
inductive IPvFuture : (lit norm : Bytes) → Prop
  | mk {v : UInt8} {version address : Bytes} (letter : v = 0x76 ∨ v = 0x56)
      (hVersion : version ≠ [])
      (hex : ∀ b ∈ version, isHex b = true) (hAddress : address ≠ [])
      (plain : ∀ b ∈ address, (isUnreserved b || (isSubDelim b || b == 0x3A)) = true) :
      IPvFuture (v :: (version ++ 0x2E :: address)) (0x76 :: version.map lower ++ 0x2E :: address)

/-- What stands in brackets, and how it is returned: an address with its own text in small
letters, which stands for the same numbers. -/
inductive Literal : (lit norm : Bytes) → Prop
  | address {lit : Bytes} (h : Address lit) (same : numbers (lit.map lower) = numbers lit) :
      Literal lit (lit.map lower)
  | future {lit norm : Bytes} (h : IPvFuture lit norm) : Literal lit norm

theorem normalizeIPvFuture_iff (lit norm : Bytes) :
    normalizeIPvFuture lit = some norm ↔ IPvFuture lit norm := by
  have dot : ascii "." = [0x2E] := rfl
  have small : ∀ {version : Bytes}, (∀ b ∈ version, isHex b = true) →
      lowerHexStr version = version.map lower := fun hex =>
    lowerHexStr_eq fun b member => .inl (hex b member)
  have digits : ∀ {version : Bytes}, (version.all fun c => !(decide (hexVal c < 0))) = true ↔
      ∀ b ∈ version, isHex b = true := by
    intro version
    rw [List.all_eq_true]
    refine forall₂_congr fun b _ => ?_
    rw [Bool.not_eq_true', decide_eq_false_iff_not, hexVal_neg_iff, Bool.not_eq_false]
  simp only [normalizeIPvFuture, dot, Option.bind_eq_bind, Option.bind_eq_some_iff, guard_eq_some,
    exists_const, Prod.exists, Option.some.injEq, digits, List.all_eq_true]
  constructor
  · rintro ⟨shape, before, address, found, some_, hex, plain, same⟩
    rw [not_or, not_or, not_and_or, not_not, not_not] at shape
    obtain ⟨-, letter, -⟩ := shape
    rw [not_or] at some_
    have free := cut_singleton_notMem found
    have whole := cut_eq_some found
    cases before with
    | nil =>
        rw [whole] at letter
        rcases letter with letter | letter <;> exact absurd (Option.some.inj letter) (by decide)
    | cons v version =>
        have first : v = 0x76 ∨ v = 0x56 := by
          rw [whole] at letter
          exact letter.imp Option.some.inj Option.some.inj
        have lit' : lit = v :: (version ++ 0x2E :: address) := by
          rw [whole]
          simp
        have hex' : ∀ b ∈ version, isHex b = true := hex
        have same' : 0x76 :: version.map lower ++ 0x2E :: address = norm := by
          rw [← small hex']
          exact same
        rw [lit', ← same']
        exact .mk first some_.1 hex some_.2 plain
  · intro h
    cases h with
    | @mk v version address letter hVersion hex hAddress plain =>
        have noDot : ∀ b ∈ version, b ≠ 0x2E := by
          intro b member same
          exact absurd (hex b member) (by rw [same]; decide)
        have free : 0x2E ∉ v :: version := by
          rw [List.mem_cons, not_or]
          refine ⟨?_, fun member => noDot _ member rfl⟩
          rcases letter with rfl | rfl <;> decide
        refine ⟨?_, v :: version, address, cut_singleton_append address free, ?_, hex, plain, ?_⟩
        · rw [not_or, not_or, not_and_or, not_not, not_not]
          refine ⟨by simp, letter.imp (congrArg some) (congrArg some), ?_⟩
          obtain ⟨b, later, rfl⟩ := List.exists_cons_of_ne_nil hVersion
          intro second
          exact noDot b List.mem_cons_self (Option.some.inj second)
        · rw [not_or]
          exact ⟨hVersion, hAddress⟩
        · rw [List.drop_one, List.tail_cons, small hex]

/-- What the code takes for an address without a letter `v` in front, and is none. -/
structure MisreadLiteral (lit : Bytes) : Prop where
  first : ∀ b ∈ lit.head?, b ≠ 0x76 ∧ b ≠ 0x56
  kind : DottedBeforeElision lit ∨ UncheckedOctets lit

theorem not_future {lit : Bytes} (first : ∀ b ∈ lit.head?, b ≠ 0x76 ∧ b ≠ 0x56) :
    ¬(lit.head? = some 0x76 ∨ lit.head? = some 0x56) := by
  intro h
  rcases h with h | h
  · exact (first 0x76 h).1 rfl
  · exact (first 0x56 h).2 rfl

theorem Literal.normalize {lit norm : Bytes} (h : Literal lit norm) :
    lit ≠ [] ∧ normalizeLiteral lit = some norm := by
  cases h with
  | address h same =>
      obtain ⟨front, last, whole, -⟩ := h.last
      refine ⟨?_, ?_⟩
      · rw [whole]
        exact List.append_ne_nil_of_right_ne_nil front (List.cons_ne_nil _ _)
      · have first : ∀ b ∈ lit.head?, b ≠ 0x76 ∧ b ≠ 0x56 := by
          intro b head
          have member := h.bytes b (List.mem_of_mem_head? head)
          constructor
          · rintro rfl
            rcases member with hex | colon | dot
            · exact absurd hex (by decide)
            · exact absurd colon (by decide)
            · exact absurd dot (by decide)
          · rintro rfl
            rcases member with hex | colon | dot
            · exact absurd hex (by decide)
            · exact absurd colon (by decide)
            · exact absurd dot (by decide)
        rw [normalizeLiteral, if_neg (not_future first), normalizeIPv6_address h]
  | future h =>
      have read := (normalizeIPvFuture_iff lit norm).mpr h
      cases h with
      | @mk v version address letter hVersion hex hAddress plain =>
          refine ⟨List.cons_ne_nil _ _, ?_⟩
          have first : (v :: (version ++ 0x2E :: address)).head? = some 0x76 ∨
              (v :: (version ++ 0x2E :: address)).head? = some 0x56 :=
            letter.imp (congrArg some) (congrArg some)
          rw [normalizeLiteral, if_pos first, read]

/-- What is returned for a literal is its normal form, unless the literal is misread. -/
theorem normalizeLiteral_cases {lit norm : Bytes} (h : normalizeLiteral lit = some norm) :
    Literal lit norm ∨ MisreadLiteral lit := by
  rw [normalizeLiteral] at h
  split at h
  next => exact .inl (.future ((normalizeIPvFuture_iff lit norm).mp h))
  next first =>
    rcases (looseAddress_iff lit).mp ((normalizeIPv6_iff lit).mp ⟨norm, h⟩) with proper | kind
    · rw [normalizeIPv6_address proper] at h
      cases h
      exact .inl (.address proper proper.numbers_lower)
    · refine .inr ⟨fun b head => ?_, kind⟩
      rw [not_or] at first
      constructor
      · rintro rfl
        exact first.1 head
      · rintro rfl
        exact first.2 head

theorem MisreadLiteral.normalize {lit : Bytes} (h : MisreadLiteral lit) :
    lit ≠ [] ∧ ∃ norm, normalizeLiteral lit = some norm := by
  obtain ⟨out, read⟩ := (normalizeIPv6_iff lit).mpr ((looseAddress_iff lit).mpr (.inr h.kind))
  refine ⟨?_, out, ?_⟩
  · rintro rfl
    cases read
  · rw [normalizeLiteral, if_neg (not_future h.first), read]

theorem MisreadLiteral.not_literal {lit norm : Bytes} (h : MisreadLiteral lit) :
    ¬Literal lit norm := by
  intro proper
  cases proper with
  | address proper same =>
      rcases h.kind with kind | kind
      · exact kind.not_address proper
      · exact kind.not_address proper
  | future proper =>
      cases proper with
      | @mk v version address letter _ _ _ _ =>
          obtain ⟨small, capital⟩ := h.first v rfl
          exact letter.elim small capital

end BoundedAuthority.Go.Uri
