import BoundedAuthority.Wire.Decimal
import BoundedAuthority.Wire.Ipv6
import BoundedAuthority.Wire.Percent

/-!
# What an IPv6 address stands for

The eight numbers of sixteen bits that a text stands for (`numbers`), with zeros for the
groups that the elision leaves out.  A text is a row of groups, each but the last with its
colon (`colons`), so the groups are found again where the text is split at its colons.
-/

namespace Wire.Ipv6

open Percent

/-! ## Groups between colons -/

/-- Groups, each in front of a colon. -/
def colons (groups : List Bytes) : Bytes := groups.flatMap fun g => g ++ [0x3A]

@[simp] theorem colons_nil : colons [] = [] := rfl

@[simp] theorem colons_cons (g : Bytes) (groups : List Bytes) :
    colons (g :: groups) = g ++ 0x3A :: colons groups := by
  simp [colons]

@[simp] theorem colons_append (a b : List Bytes) : colons (a ++ b) = colons a ++ colons b :=
  List.flatMap_append

/-- The groups are the parts between the colons. -/
theorem splitGlobal_colons : ∀ {groups : List Bytes} {last : Bytes}, (∀ g ∈ groups, 0x3A ∉ g) →
    0x3A ∉ last → splitGlobal [0x3A] (colons groups ++ last) = groups ++ [last]
  | [], last, _, free => splitGlobal_singleton free
  | g :: groups, last, h, free => by
      obtain ⟨first, others⟩ := List.forall_mem_cons.mp h
      rw [colons_cons, List.append_assoc, List.cons_append, splitGlobal_singleton_append first,
        splitGlobal_colons others free, List.cons_append]

/-- Every text is some groups and what follows their colons. -/
theorem exists_colons : ∀ (s : Bytes), ∃ groups last, (∀ g ∈ groups, 0x3A ∉ g) ∧ 0x3A ∉ last ∧
    s = colons groups ++ last
  | [] => ⟨[], [], fun _ h => (List.not_mem_nil h).elim, List.not_mem_nil, rfl⟩
  | b :: s => by
      obtain ⟨groups, last, h, free, rfl⟩ := exists_colons s
      by_cases colon : b = 0x3A
      · refine ⟨[] :: groups, last, List.forall_mem_cons.mpr ⟨List.not_mem_nil, h⟩, free, ?_⟩
        rw [colon]
        simp
      · cases groups with
        | nil =>
            refine ⟨[], b :: last, h, ?_, rfl⟩
            rw [List.mem_cons, not_or]
            exact ⟨Ne.symm colon, free⟩
        | cons g groups =>
            obtain ⟨first, others⟩ := List.forall_mem_cons.mp h
            refine ⟨(b :: g) :: groups, last, List.forall_mem_cons.mpr ⟨?_, others⟩, free, by simp⟩
            rw [List.mem_cons, not_or]
            exact ⟨Ne.symm colon, first⟩

/-- `n( h16 ":" )` are `n` groups. -/
theorem groups_iff {n : Nat} {text : Bytes} : Groups n text ↔
    ∃ groups, groups.length = n ∧ (∀ g ∈ groups, H16 g) ∧ text = colons groups := by
  constructor
  · intro h
    induction h with
    | none => exact ⟨[], rfl, fun _ h => (List.not_mem_nil h).elim, rfl⟩
    | @more n group rest first later ih =>
        obtain ⟨groups, rfl, h, rfl⟩ := ih
        exact ⟨group :: groups, rfl, List.forall_mem_cons.mpr ⟨first, h⟩, (colons_cons _ _).symm⟩
  · rintro ⟨groups, count, h, same⟩
    induction groups generalizing n text with
    | nil =>
        rw [← count, same]
        exact .none
    | cons g groups ih =>
        obtain ⟨first, others⟩ := List.forall_mem_cons.mp h
        rw [← count, same, colons_cons]
        exact .more first (ih rfl others rfl)

/-! ## Bytes -/

/-- A byte of an address. -/
def AddressByte (b : UInt8) : Prop := isHex b = true ∨ b = 0x3A ∨ b = 0x2E

theorem isHex_of_isDigit {b : UInt8} (h : isDigit b = true) : isHex b = true := by
  rw [isHex, h]
  rfl

theorem Groups.bytes {n : Nat} {groups : Bytes} (h : Groups n groups) :
    ∀ b ∈ groups, AddressByte b := by
  induction h with
  | none => exact fun _ h => (List.not_mem_nil h).elim
  | more first later ih =>
      intro b member
      rcases List.mem_append.mp member with group | rest
      · exact .inl (first.hex b group)
      · rcases List.mem_cons.mp rest with colon | later
        · exact .inr (.inl colon)
        · exact ih b later

theorem Ipv4Address.bytes {address : Bytes} (h : Ipv4Address address) :
    ∀ b ∈ address, isDigit b = true ∨ b = 0x2E := by
  cases h with
  | dotted ha hb hc hd =>
      intro b member
      simp only [List.mem_append, List.mem_cons] at member
      rcases member with m | m | m | m | m | m | m
      · exact .inl (ha.digits b m)
      · exact .inr m
      · exact .inl (hb.digits b m)
      · exact .inr m
      · exact .inl (hc.digits b m)
      · exact .inr m
      · exact .inl (hd.digits b m)

theorem Side.bytes {dotted : Bool} {n : Nat} {side : Bytes} (h : Side dotted n side) :
    ∀ b ∈ side, AddressByte b := by
  cases h with
  | empty => exact fun _ h => (List.not_mem_nil h).elim
  | hex before h =>
      intro b member
      rcases List.mem_append.mp member with front | last
      · exact before.bytes b front
      · exact .inl (h.hex b last)
  | address before h =>
      intro b member
      rcases List.mem_append.mp member with front | last
      · exact before.bytes b front
      · rcases h.bytes b last with digit | dot
        · exact .inl (isHex_of_isDigit digit)
        · exact .inr (.inr dot)

theorem Address.bytes {s : Bytes} (h : Address s) : ∀ b ∈ s, AddressByte b := by
  rcases (address_iff s).mp h with ⟨dotted, whole⟩ | ⟨left, right, dotted, m, n, rfl, hLeft, hRight,
    -⟩
  · exact whole.bytes
  · intro b member
    rcases List.mem_append.mp member with first | later
    · exact hLeft.bytes b first
    · rcases List.mem_append.mp later with colon | last
      · refine .inr (.inl ?_)
        simpa [elision] using colon
      · exact hRight.bytes b last

/-- The last group of an address follows a colon, and is an IPv4 address if it has a dot. -/
theorem Address.last {s : Bytes} (h : Address s) : ∃ front last, s = front ++ 0x3A :: last ∧
    0x3A ∉ last ∧ (0x2E ∈ last → Ipv4Address last) := by
  have side : ∀ {dotted : Bool} {n : Nat} {side : Bytes}, Side dotted n side →
      ∃ groups last, side = colons groups ++ last ∧ 0x3A ∉ last ∧ (0x2E ∈ last → Ipv4Address last) ∧
        n ≤ groups.length + 2 := by
    intro dotted n side h
    cases h with
    | empty => exact ⟨[], [], rfl, List.not_mem_nil, fun h => (List.not_mem_nil h).elim, by simp⟩
    | hex before h =>
        obtain ⟨groups, rfl, -, rfl⟩ := groups_iff.mp before
        exact ⟨groups, _, rfl, h.colonFree, fun dot => (h.dotless dot).elim, by omega⟩
    | address before h =>
        obtain ⟨groups, rfl, -, rfl⟩ := groups_iff.mp before
        exact ⟨groups, _, rfl, h.colonFree, fun _ => h, le_rfl⟩
  have behind : ∀ (groups : List Bytes) (x : Bytes), (∃ y, x = y ++ [0x3A]) ∨ groups ≠ [] →
      ∃ front, x ++ colons groups = front ++ [0x3A] := by
    intro groups x some_
    rcases List.eq_nil_or_concat groups with rfl | ⟨init, g, rfl⟩
    · rcases some_ with ⟨y, same⟩ | none
      · exact ⟨y, by rw [same, colons_nil, List.append_nil]⟩
      · exact (none rfl).elim
    · exact ⟨x ++ (colons init ++ g), by simp⟩
  rcases (address_iff s).mp h with ⟨dotted, whole⟩ | ⟨left, right, dotted, m, n, rfl, -, hRight, -⟩
  · obtain ⟨groups, last, rfl, free, ipv4, count⟩ := side whole
    have some_ : groups ≠ [] := by
      rintro rfl
      exact absurd count (by decide)
    obtain ⟨front, same⟩ := behind groups [] (.inr some_)
    rw [List.nil_append] at same
    exact ⟨front, last, by rw [same, List.append_assoc, List.singleton_append], free, ipv4⟩
  · obtain ⟨groups, last, rfl, free, ipv4, -⟩ := side hRight
    obtain ⟨front, same⟩ := behind groups (left ++ elision)
      (.inl ⟨left ++ [0x3A], by simp [elision]⟩)
    refine ⟨front, last, ?_, free, ipv4⟩
    rw [← List.append_assoc, ← List.append_assoc, same, List.append_assoc, List.singleton_append]

/-! ## Numbers -/

/-- The number of a group of hexadecimal digits. -/
def groupNumber (group : Bytes) : Nat := group.foldl (fun v b => v * 16 + hexValue b) 0

/-- The numbers of a group, two of them for an IPv4 address. -/
def groupNumbers (group : Bytes) : List Nat :=
  if 0x2E ∈ group then
    match (splitGlobal [0x2E] group).map Decimal.value with
    | [a, b, c, d] => [a * 256 + b, c * 256 + d]
    | _ => []
  else [groupNumber group]

/-- The numbers on one side of an elision. -/
def sideNumbers (side : Bytes) : List Nat :=
  if side = [] then [] else (splitGlobal [0x3A] side).flatMap groupNumbers

/-- The numbers of an address. -/
def numbers (s : Bytes) : List Nat :=
  match cut elision s with
  | none => sideNumbers s
  | some (left, right) =>
      sideNumbers left ++
        (List.replicate (8 - (sideNumbers left).length - (sideNumbers right).length) 0 ++
          sideNumbers right)

theorem groupNumbers_hex {group : Bytes} (h : H16 group) :
    groupNumbers group = [groupNumber group] :=
  if_neg h.dotless

theorem length_groupNumbers_address {address : Bytes} (h : Ipv4Address address) :
    (groupNumbers address).length = 2 := by
  rw [groupNumbers, if_pos h.dot]
  cases h with
  | dotted ha hb hc hd =>
      have dot : isDigit 0x2E = false := by decide
      rw [splitGlobal_singleton_append (ha.free dot), splitGlobal_singleton_append (hb.free dot),
        splitGlobal_singleton_append (hc.free dot), splitGlobal_singleton (hd.free dot)]
      rfl

/-- The numbers of some groups and of what follows them. -/
theorem sideNumbers_colons {groups : List Bytes} {last : Bytes} (h : ∀ g ∈ groups, H16 g)
    (some_ : last ≠ []) (free : 0x3A ∉ last) :
    sideNumbers (colons groups ++ last) = groups.map groupNumber ++ groupNumbers last := by
  have whole : colons groups ++ last ≠ [] := List.append_ne_nil_of_right_ne_nil _ some_
  rw [sideNumbers, if_neg whole, splitGlobal_colons (fun g m => (h g m).colonFree) free,
    List.flatMap_append, List.flatMap_singleton]
  congr 1
  induction groups with
  | nil => rfl
  | cons g groups ih =>
      obtain ⟨first, others⟩ := List.forall_mem_cons.mp h
      rw [List.flatMap_cons, groupNumbers_hex first, List.map_cons, List.singleton_append,
        ih others (List.append_ne_nil_of_right_ne_nil _ some_)]

theorem Side.length_numbers {dotted : Bool} {n : Nat} {side : Bytes} (h : Side dotted n side) :
    (sideNumbers side).length = n := by
  cases h with
  | empty => rfl
  | hex before h =>
      obtain ⟨groups, rfl, hGroups, rfl⟩ := groups_iff.mp before
      rw [sideNumbers_colons hGroups h.ne_nil h.colonFree, groupNumbers_hex h, List.length_append,
        List.length_map, List.length_singleton]
  | address before h =>
      obtain ⟨groups, rfl, hGroups, rfl⟩ := groups_iff.mp before
      rw [sideNumbers_colons hGroups h.ne_nil h.colonFree, List.length_append, List.length_map,
        length_groupNumbers_address h]

/-- An address stands for eight numbers. -/
theorem Address.length_numbers {s : Bytes} (h : Address s) : (numbers s).length = 8 := by
  rcases (address_iff s).mp h with ⟨dotted, whole⟩ | ⟨left, right, dotted, m, n, rfl, hLeft, hRight,
    fit⟩
  · rw [numbers, whole.cut_elision_none]
    exact whole.length_numbers
  · rw [numbers, hLeft.cut_elision]
    simp only [List.length_append, List.length_replicate, hLeft.length_numbers,
      hRight.length_numbers]
    omega

/-! ## Letters -/

set_option maxRecDepth 4096 in
/-- A byte other than a letter is not lower-cased, and none becomes one. -/
theorem lower_eq_iff {p : UInt8} (h : p = 0x3A ∨ p = 0x2E ∨ p = 0x5D) (b : UInt8) :
    lower b = p ↔ b = p := by
  rcases h with rfl | rfl | rfl
  · exact byte_forall (P := fun b => lower b = 0x3A ↔ b = 0x3A) (by decide) b
  · exact byte_forall (P := fun b => lower b = 0x2E ↔ b = 0x2E) (by decide) b
  · exact byte_forall (P := fun b => lower b = 0x5D ↔ b = 0x5D) (by decide) b

set_option maxRecDepth 4096 in
theorem hexValue_lower {b : UInt8} (h : isHex b = true) : hexValue (lower b) = hexValue b := by
  revert h
  exact byte_forall (P := fun b => isHex b = true → hexValue (lower b) = hexValue b)
    (by decide) b

set_option maxRecDepth 4096 in
theorem lower_of_isDigit {b : UInt8} (h : isDigit b = true) : lower b = b := by
  revert h
  exact byte_forall (P := fun b => isDigit b = true → lower b = b) (by decide) b

theorem H16.lower {group : Bytes} (h : H16 group) : H16 (group.map Percent.lower) where
  nonempty := by
    rw [List.length_map]
    exact h.nonempty
  short := by
    rw [List.length_map]
    exact h.short
  hex := by
    intro b member
    obtain ⟨a, known, rfl⟩ := List.mem_map.mp member
    rw [isHex_lower]
    exact h.hex a known

theorem H16.number_lower {group : Bytes} (h : H16 group) :
    groupNumber (group.map Percent.lower) = groupNumber group := by
  rw [groupNumber, List.foldl_map, groupNumber]
  refine List.foldl_ext _ _ _ fun v b member => ?_
  rw [hexValue_lower (h.hex b member)]

theorem Ipv4Address.lower {address : Bytes} (h : Ipv4Address address) :
    address.map Percent.lower = address := by
  refine (List.map_congr_left fun b member => ?_).trans (List.map_id address)
  rcases h.bytes b member with digit | dot
  · exact lower_of_isDigit digit
  · rw [dot]
    rfl

/-- A map that keeps the colon maps the groups. -/
theorem colons_map {f : UInt8 → UInt8} (own : f 0x3A = 0x3A) (groups : List Bytes) :
    (colons groups).map f = colons (groups.map (List.map f)) := by
  induction groups with
  | nil => rfl
  | cons g groups ih =>
      rw [colons_cons, List.map_append, List.map_cons, ih, own, List.map_cons, colons_cons]

theorem Side.numbers_lower {dotted : Bool} {n : Nat} {side : Bytes} (h : Side dotted n side) :
    sideNumbers (side.map lower) = sideNumbers side := by
  have each : ∀ {groups : List Bytes}, (∀ g ∈ groups, H16 g) →
      (∀ g ∈ groups.map (List.map lower), H16 g) ∧
        (groups.map (List.map lower)).map groupNumber = groups.map groupNumber := by
    intro groups h
    refine ⟨?_, ?_⟩
    · rw [List.forall_mem_map]
      exact fun g member => (h g member).lower
    · rw [List.map_map]
      exact List.map_congr_left fun g member => (h g member).number_lower
  cases h with
  | empty => rfl
  | hex before h =>
      obtain ⟨groups, -, hGroups, rfl⟩ := groups_iff.mp before
      obtain ⟨lowered, same⟩ := each hGroups
      rw [List.map_append, colons_map rfl,
        sideNumbers_colons lowered h.lower.ne_nil h.lower.colonFree,
        sideNumbers_colons hGroups h.ne_nil h.colonFree, same, groupNumbers_hex h,
        groupNumbers_hex h.lower, h.number_lower]
  | address before h =>
      obtain ⟨groups, -, hGroups, rfl⟩ := groups_iff.mp before
      obtain ⟨lowered, same⟩ := each hGroups
      rw [List.map_append, colons_map rfl, h.lower, sideNumbers_colons lowered h.ne_nil h.colonFree,
        sideNumbers_colons hGroups h.ne_nil h.colonFree, same]

/-- An address stands for the same numbers in small letters. -/
theorem Address.numbers_lower {s : Bytes} (h : Address s) : numbers (s.map lower) = numbers s := by
  have own : ∀ p ∈ elision, ∀ b, lower b = p ↔ b = p := by
    intro p member b
    exact lower_eq_iff (.inl (by simpa [elision] using member)) b
  rw [numbers, cut_map own]
  rcases (address_iff s).mp h with ⟨dotted, whole⟩ | ⟨left, right, dotted, m, n, rfl, hLeft, hRight,
    -⟩
  · rw [whole.cut_elision_none, numbers, whole.cut_elision_none]
    exact whole.numbers_lower
  · rw [numbers, hLeft.cut_elision]
    simp only [Option.map_some, hLeft.numbers_lower, hRight.numbers_lower]

end Wire.Ipv6
