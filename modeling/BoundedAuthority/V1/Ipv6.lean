import BoundedAuthority.V1.Uri
import BoundedAuthority.Wire.Ipv6

/-!
# Addresses in brackets

`valid_ipv6_literal?` against the production `IPv6address`.  The code counts the groups
on each side of the elision and lets either side end in an IPv4 address, where the
production has one only at the end of the text.  On the texts with one before the elision
the two differ, and on no others (`validIpv6Literal_exact`).
-/

namespace BoundedAuthority.V1.Uri

open Wire Ipv6

/-! ## Octets and groups -/

theorem octet_iff {b : UInt8} (low high : UInt8) : within low high b = true ↔
    low.toNat ≤ b.toNat ∧ b.toNat ≤ high.toNat := by
  simp only [within, Bool.and_eq_true, decide_eq_true_eq, UInt8.le_iff_toNat_le]

theorem isDigit_iff {b : UInt8} : isDigit b = true ↔ 48 ≤ b.toNat ∧ b.toNat ≤ 57 :=
  octet_iff 0x30 0x39

theorem value_three (a b c : UInt8) : Decimal.value [a, b, c] =
    (a.toNat - 48) * 100 + (b.toNat - 48) * 10 + (c.toNat - 48) := by
  simp only [Decimal.value, Decimal.digitValue, List.foldl_cons, List.foldl_nil]
  norm_num
  omega

/-- One to three digits without leading zeros, up to 255. -/
theorem validIpv4Octet_iff (octet : Bytes) : validIpv4Octet octet = true ↔ DecOctet octet := by
  have parts : validIpv4Octet octet = true ↔ octet ≠ [] ∧ octet.length ≤ 3 ∧
      (∀ b ∈ octet, isDigit b = true) ∧ (octet.length = 1 ∨ octet.head? ≠ some 0x30) ∧
        Decimal.value octet ≤ 255 := by
    simp only [validIpv4Octet, Bool.and_eq_true, Bool.or_eq_true, decide_eq_true_eq,
      List.all_eq_true, and_assoc]
  rw [parts]
  constructor
  · rintro ⟨some_, short, digits, lead, bound⟩
    have nonzero : ∀ {a b : UInt8} {rest : Bytes}, octet = a :: b :: rest → a.toNat ≠ 48 := by
      rintro a b rest rfl same
      have zero : a = 0x30 := UInt8.toNat_inj.mp same
      simp [zero] at lead
    match octet with
    | [] => exact (some_ rfl).elim
    | [a] => exact .units (digits a (by simp))
    | [a, b] =>
        have first := isDigit_iff.mp (digits a (by simp))
        have positive : 49 ≤ a.toNat := Nat.lt_of_le_of_ne first.1 (nonzero rfl).symm
        exact .tens ((octet_iff _ _).mpr ⟨positive, first.2⟩) (digits b (by simp))
    | [a, b, c] =>
        have first := isDigit_iff.mp (digits a (by simp))
        have second := isDigit_iff.mp (digits b (by simp))
        have third := isDigit_iff.mp (digits c (by simp))
        have positive := nonzero rfl
        rw [value_three] at bound
        rcases (by omega : a.toNat = 49 ∨ a.toNat = 50) with one | two
        · obtain rfl : a = 0x31 := UInt8.toNat_inj.mp one
          exact .hundred (digits b (by simp)) (digits c (by simp))
        · obtain rfl : a = 0x32 := UInt8.toNat_inj.mp two
          rw [two] at bound
          rcases (by omega : b.toNat ≤ 52 ∨ b.toNat = 53) with small | five
          · exact .twoHundred ((octet_iff _ _).mpr ⟨second.1, small⟩) (digits c (by simp))
          · obtain rfl : b = 0x35 := UInt8.toNat_inj.mp five
            have small : c.toNat ≤ 53 := by omega
            exact .fifty ((octet_iff _ _).mpr ⟨third.1, small⟩)
    | a :: b :: c :: d :: rest =>
        simp only [List.length_cons] at short
        omega
  · intro h
    refine ⟨h.ne_nil, ?_, h.digits, ?_, ?_⟩
    · cases h <;> simp
    · cases h with
      | units => exact .inl rfl
      | @tens a b ha hb =>
          refine .inr fun zero => ?_
          rw [Option.some.inj zero] at ha
          exact absurd ha (by decide)
      | hundred => exact .inr (by simp)
      | twoHundred => exact .inr (by simp)
      | fifty => exact .inr (by simp)
    · have digits := h.digits
      cases h with
      | @units a ha =>
          have := isDigit_iff.mp ha
          simp only [Decimal.value, Decimal.digitValue, List.foldl_cons, List.foldl_nil]
          omega
      | @tens a b ha hb =>
          have first := (octet_iff _ _).mp ha
          have second := isDigit_iff.mp hb
          simp only [Decimal.value, Decimal.digitValue, List.foldl_cons, List.foldl_nil]
          simp only [UInt8.reduceToNat] at first
          omega
      | @hundred a b ha hb =>
          have first := isDigit_iff.mp ha
          have second := isDigit_iff.mp hb
          rw [value_three]
          simp only [UInt8.reduceToNat]
          omega
      | @twoHundred a b ha hb =>
          have first := (octet_iff _ _).mp ha
          have second := isDigit_iff.mp hb
          simp only [UInt8.reduceToNat] at first
          rw [value_three]
          simp only [UInt8.reduceToNat]
          omega
      | @fifty a ha =>
          have first := (octet_iff _ _).mp ha
          simp only [UInt8.reduceToNat] at first
          rw [value_three]
          simp only [UInt8.reduceToNat]
          omega

/-- Four octets between dots. -/
theorem validIpv4Tail_iff (tail : Bytes) : validIpv4Tail tail = true ↔ Ipv4Address tail := by
  have dots : ascii "." = [0x2E] := rfl
  rw [validIpv4Tail, dots]
  constructor
  · intro h
    split at h
    next a b c d four =>
      simp only [List.all_cons, List.all_nil, Bool.and_true, Bool.and_eq_true,
        validIpv4Octet_iff] at h
      obtain ⟨ha, hb, hc, hd⟩ := h
      rcases (splitGlobal_singleton_cons four).2 with ⟨none, -⟩ | ⟨rest, rfl, three⟩
      · cases none
      · rcases (splitGlobal_singleton_cons three).2 with ⟨none, -⟩ | ⟨rest, rfl, two⟩
        · cases none
        · rcases (splitGlobal_singleton_cons two).2 with ⟨none, -⟩ | ⟨rest, rfl, one⟩
          · cases none
          · rcases (splitGlobal_singleton_cons one).2 with ⟨-, rfl⟩ | ⟨rest, rfl, zero⟩
            · exact .dotted ha hb hc hd
            · exact (splitGlobal_ne_nil _ _ zero).elim
    next => cases h
  · rintro ⟨ha, hb, hc, hd⟩
    have dot : isDigit 0x2E = false := by decide
    rw [splitGlobal_singleton_append (ha.free dot), splitGlobal_singleton_append (hb.free dot),
      splitGlobal_singleton_append (hc.free dot), splitGlobal_singleton (hd.free dot)]
    simp only [List.all_cons, List.all_nil, Bool.and_true, Bool.and_eq_true, validIpv4Octet_iff]
    exact ⟨ha, hb, hc, hd⟩

theorem validHexGroup_iff (group : Bytes) : validHexGroup group = true ↔ H16 group := by
  rw [validHexGroup, Bool.and_eq_true, Bool.and_eq_true, decide_eq_true_eq, decide_eq_true_eq,
    List.all_eq_true]
  exact ⟨fun h => ⟨h.1.1, h.1.2, h.2⟩, fun h => ⟨⟨h.nonempty, h.short⟩, h.hex⟩⟩

/-! ## Sides -/

/-- The last group is hexadecimal, or holds a dot and is an IPv4 address. -/
theorem ipv6GroupsLength_last (group : Bytes) (count : Nat) : ipv6GroupsLength [group] count =
    if 0x2E ∈ group then (if validIpv4Tail group then some (count + 2) else none)
    else if validHexGroup group then some (count + 1) else none := by
  have plain : cut (ascii ".") group = none ↔ 0x2E ∉ group := cut_singleton_eq_none
  rw [ipv6GroupsLength]
  simp only [plain, ite_not]

theorem ipv6GroupsLength_more (group next : Bytes) (rest : List Bytes) (count : Nat) :
    ipv6GroupsLength (group :: next :: rest) count =
      if validHexGroup group then ipv6GroupsLength (next :: rest) (count + 1) else none := by
  rw [ipv6GroupsLength]
  exact fun h => List.cons_ne_nil _ _ h

/-- What the code counts is a side. -/
theorem side_of_groupsLength : ∀ {parts : List Bytes} {side : Bytes} {count length : Nat},
    splitGlobal [0x3A] side = parts → ipv6GroupsLength parts count = some length →
      side ≠ [] ∧ ∃ dotted n, Side dotted n side ∧ length = count + n
  | [], _, _, _, same, _ => (splitGlobal_ne_nil _ _ same).elim
  | [group], side, count, length, same, h => by
      obtain ⟨-, ⟨-, rfl⟩ | ⟨rest, -, none⟩⟩ := splitGlobal_singleton_cons same
      · rw [ipv6GroupsLength_last] at h
        split at h
        next dot =>
          refine ⟨List.ne_nil_of_mem dot, true, 2, ?_⟩
          split at h
          next tail =>
            exact ⟨.address .none ((validIpv4Tail_iff side).mp tail), (Option.some.inj h).symm⟩
          next => cases h
        next =>
          split at h
          next hex =>
            have group := (validHexGroup_iff side).mp hex
            exact ⟨group.ne_nil, false, 1, .hex .none group, (Option.some.inj h).symm⟩
          next => cases h
      · exact (splitGlobal_ne_nil _ _ none).elim
  | group :: next :: rest, side, count, length, same, h => by
      obtain ⟨-, ⟨none, -⟩ | ⟨later, rfl, parts⟩⟩ := splitGlobal_singleton_cons same
      · cases none
      · rw [ipv6GroupsLength_more] at h
        split at h
        next hex =>
          obtain ⟨more, dotted, n, side, total⟩ := side_of_groupsLength parts h
          refine ⟨by simp, dotted, n + 1, side.cons ((validHexGroup_iff group).mp hex) more, ?_⟩
          omega
        next => cases h

/-- Groups in front of others are counted one by one. -/
theorem groupsLength_of_groups {n : Nat} {groups last : Bytes} (h : Groups n groups)
    (free : 0x3A ∉ last) (count : Nat) :
    ipv6GroupsLength (splitGlobal [0x3A] (groups ++ last)) count =
      ipv6GroupsLength [last] (count + n) := by
  induction h generalizing count with
  | none => rw [List.nil_append, splitGlobal_singleton free, Nat.add_zero]
  | @more n group rest first later ih =>
      have parts : splitGlobal [0x3A] (group ++ 0x3A :: rest ++ last) =
          group :: splitGlobal [0x3A] (rest ++ last) := by
        rw [List.append_assoc]
        exact splitGlobal_singleton_append first.colonFree _
      obtain ⟨next, others, same⟩ :=
        List.exists_cons_of_ne_nil (splitGlobal_ne_nil [0x3A] (rest ++ last))
      rw [parts, same, ipv6GroupsLength_more, if_pos ((validHexGroup_iff group).mpr first), ← same,
        ih, Nat.add_right_comm, Nat.add_assoc]

/-- The code's count of a side. -/
theorem ipv6SideLength_iff (side : Bytes) (n : Nat) :
    ipv6SideLength side = some n ↔ ∃ dotted, Side dotted n side := by
  have colon : ascii ":" = [0x3A] := rfl
  rw [ipv6SideLength, colon]
  constructor
  · intro h
    split at h
    next empty =>
      rw [empty, ← Option.some.inj h]
      exact ⟨false, .empty⟩
    next =>
      obtain ⟨-, dotted, m, side, total⟩ := side_of_groupsLength rfl h
      rw [Nat.zero_add] at total
      exact ⟨dotted, total ▸ side⟩
  · rintro ⟨dotted, side⟩
    cases side with
    | empty => rfl
    | hex before h =>
        rw [if_neg fun empty => h.ne_nil (List.append_eq_nil_iff.mp empty).2,
          groupsLength_of_groups before h.colonFree, ipv6GroupsLength_last, if_neg h.dotless,
          if_pos ((validHexGroup_iff _).mpr h), Nat.zero_add]
    | address before h =>
        rw [if_neg fun empty => h.ne_nil (List.append_eq_nil_iff.mp empty).2,
          groupsLength_of_groups before h.colonFree, ipv6GroupsLength_last, if_pos h.dot,
          if_pos ((validIpv4Tail_iff _).mpr h), Nat.zero_add]

/-! ## Addresses -/

/-- What the code asks of an address. -/
theorem validIpv6Literal_iff (s : Bytes) : validIpv6Literal s = true ↔
    match cut elision s with
    | none => ipv6SideLength s = some 8
    | some (left, right) => cut elision right = none ∧
        ∃ l ∈ ipv6SideLength left, ∃ r ∈ ipv6SideLength right, l + r < 8 := by
  have pattern : ascii "::" = elision := rfl
  have some_ : elision ≠ [] := List.cons_ne_nil _ _
  rw [validIpv6Literal, pattern, splitGlobal_eq some_]
  cases cut elision s with
  | none => simp
  | some around =>
      obtain ⟨left, right⟩ := around
      simp only [splitGlobal_eq some_ right]
      cases cut elision right with
      | none =>
          cases leftLength : ipv6SideLength left with
          | none => simp [leftLength]
          | some l =>
              cases rightLength : ipv6SideLength right with
              | none => simp [leftLength, rightLength]
              | some r => simp [leftLength, rightLength]
      | some around =>
          obtain ⟨third, later⟩ := around
          obtain ⟨part, parts, same⟩ := List.exists_cons_of_ne_nil
            (splitGlobal_ne_nil elision later)
          simp [same]

/-- Eight groups, or two sides of an elision with fewer, each of which may end in an IPv4
address. -/
theorem validIpv6Literal_sides (s : Bytes) : validIpv6Literal s = true ↔
    (∃ dotted, Side dotted 8 s) ∨ ∃ left right dotted dotted' m n,
      s = left ++ (elision ++ right) ∧ Side dotted m left ∧ Side dotted' n right ∧ m + n < 8 := by
  rw [validIpv6Literal_iff]
  constructor
  · intro h
    split at h
    next => exact .inl ((ipv6SideLength_iff s 8).mp h)
    next left right found =>
      obtain ⟨-, l, hl, r, hr, fits⟩ := h
      obtain ⟨dotted, hLeft⟩ := (ipv6SideLength_iff left l).mp hl
      obtain ⟨dotted', hRight⟩ := (ipv6SideLength_iff right r).mp hr
      have parts := cut_eq_some found
      rw [List.append_assoc] at parts
      exact .inr ⟨left, right, dotted, dotted', l, r, parts, hLeft, hRight, fits⟩
  · rintro (⟨dotted, whole⟩ | ⟨left, right, dotted, dotted', m, n, rfl, hLeft, hRight, fits⟩)
    · rw [whole.cut_elision_none]
      exact (ipv6SideLength_iff s 8).mpr ⟨dotted, whole⟩
    · rw [hLeft.cut_elision]
      exact ⟨hRight.cut_elision_none, m, (ipv6SideLength_iff left m).mpr ⟨dotted, hLeft⟩, n,
        (ipv6SideLength_iff right n).mpr ⟨dotted', hRight⟩, fits⟩

/-- An IPv4 address before the elision, in a text that is otherwise an address: groups
that end in one, the elision, and groups that may end in one, fewer than eight together. -/
def TailBeforeElision (s : Bytes) : Prop := ∃ left right dotted m n,
  s = left ++ (elision ++ right) ∧ Side true m left ∧ Side dotted n right ∧ m + n < 8

/-- The code accepts the addresses and nothing else, but for an IPv4 address before the
elision. -/
theorem validIpv6Literal_exact (s : Bytes) :
    (validIpv6Literal s = true ↔ Address s) ↔ ¬TailBeforeElision s := by
  rw [validIpv6Literal_sides]
  constructor
  · rintro exactly ⟨left, right, dotted, m, n, rfl, hLeft, hRight, fits⟩
    exact not_address hLeft right
      (exactly.mp (.inr ⟨left, right, true, dotted, m, n, rfl, hLeft, hRight, fits⟩))
  · intro proper
    rw [address_iff]
    refine or_congr_right ⟨?_, ?_⟩
    · rintro ⟨left, right, dotted, dotted', m, n, same, hLeft, hRight, fits⟩
      cases dotted with
      | true => exact (proper ⟨left, right, dotted', m, n, same, hLeft, hRight, fits⟩).elim
      | false => exact ⟨left, right, dotted', m, n, same, hLeft, hRight, fits⟩
    · rintro ⟨left, right, dotted, m, n, same, hLeft, hRight, fits⟩
      exact ⟨left, right, false, dotted, m, n, same, hLeft, hRight, fits⟩

/-- An IPv4 address before the elision is accepted. -/
theorem tail_before_elision_accepted : validIpv6Literal (ascii "1.2.3.4::") = true ∧
    ¬Address (ascii "1.2.3.4::") := by
  have accepted : validIpv6Literal (ascii "1.2.3.4::") = true := by decide
  refine ⟨accepted, ?_⟩
  have one : ∀ a : UInt8, isDigit a = true → DecOctet [a] := fun a ha => .units ha
  have tail : Side true 2 (ascii "1.2.3.4") :=
    .address .none (.dotted (one 0x31 (by decide)) (one 0x32 (by decide)) (one 0x33 (by decide))
      (one 0x34 (by decide)))
  exact not_address tail []

end BoundedAuthority.V1.Uri
