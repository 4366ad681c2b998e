import BoundedAuthority.Wire.Bytes

/-!
# IPv6 addresses

The production `IPv6address` of RFC 3986, section 3.2.2, with the productions it is made
of, each as the texts it derives.

The nine alternatives of the production say one thing: groups of sixteen bits between
colons, an IPv4 address as the last two, and at most one elision for at least one group
(`address_iff`).  `Side` is one side of an elision in these words.  Its groups are never
empty, so the first `::` of an address is the elision (`Side.cut_elision`).
-/

namespace Wire.Ipv6

/-! ## Productions -/

/-- `dec-octet` -/
inductive DecOctet : Bytes → Prop
  | units {a : UInt8} (ha : isDigit a = true) : DecOctet [a]
  | tens {a b : UInt8} (ha : within 0x31 0x39 a = true) (hb : isDigit b = true) : DecOctet [a, b]
  | hundred {a b : UInt8} (ha : isDigit a = true) (hb : isDigit b = true) : DecOctet [0x31, a, b]
  | twoHundred {a b : UInt8} (ha : within 0x30 0x34 a = true) (hb : isDigit b = true) :
      DecOctet [0x32, a, b]
  | fifty {a : UInt8} (ha : within 0x30 0x35 a = true) : DecOctet [0x32, 0x35, a]

/-- `IPv4address` -/
inductive Ipv4Address : Bytes → Prop
  | dotted {a b c d : Bytes} (ha : DecOctet a) (hb : DecOctet b) (hc : DecOctet c)
      (hd : DecOctet d) : Ipv4Address (a ++ 0x2E :: (b ++ 0x2E :: (c ++ 0x2E :: d)))

/-- `h16` -/
structure H16 (group : Bytes) : Prop where
  nonempty : 1 ≤ group.length
  short : group.length ≤ 4
  hex : ∀ b ∈ group, isHex b = true

/-- `n( h16 ":" )` -/
inductive Groups : (n : Nat) → Bytes → Prop
  | none : Groups 0 []
  | more {n : Nat} {group rest : Bytes} (first : H16 group) (later : Groups n rest) :
      Groups (n + 1) (group ++ 0x3A :: rest)

/-- `ls32` -/
inductive Ls32 : Bytes → Prop
  | pair {high low : Bytes} (hHigh : H16 high) (hLow : H16 low) : Ls32 (high ++ 0x3A :: low)
  | dotted {address : Bytes} (h : Ipv4Address address) : Ls32 address

/-- `[ *n( h16 ":" ) h16 ]` -/
inductive Lead (n : Nat) : Bytes → Prop
  | absent : Lead n []
  | present {m : Nat} {groups last : Bytes} (few : m ≤ n) (before : Groups m groups)
      (h : H16 last) : Lead n (groups ++ last)

/-- The elision, `"::"`. -/
def elision : Bytes := [0x3A, 0x3A]

/-- `IPv6address` -/
inductive Address : Bytes → Prop
  | whole {groups last : Bytes} (h : Groups 6 groups) (hLast : Ls32 last) : Address (groups ++ last)
  | after {groups last : Bytes} (h : Groups 5 groups) (hLast : Ls32 last) :
      Address (elision ++ (groups ++ last))
  | after0 {lead groups last : Bytes} (hLead : Lead 0 lead) (h : Groups 4 groups)
      (hLast : Ls32 last) : Address (lead ++ (elision ++ (groups ++ last)))
  | after1 {lead groups last : Bytes} (hLead : Lead 1 lead) (h : Groups 3 groups)
      (hLast : Ls32 last) : Address (lead ++ (elision ++ (groups ++ last)))
  | after2 {lead groups last : Bytes} (hLead : Lead 2 lead) (h : Groups 2 groups)
      (hLast : Ls32 last) : Address (lead ++ (elision ++ (groups ++ last)))
  | after3 {lead groups last : Bytes} (hLead : Lead 3 lead) (h : Groups 1 groups)
      (hLast : Ls32 last) : Address (lead ++ (elision ++ (groups ++ last)))
  | after4 {lead last : Bytes} (hLead : Lead 4 lead) (hLast : Ls32 last) :
      Address (lead ++ (elision ++ last))
  | after5 {lead last : Bytes} (hLead : Lead 5 lead) (hLast : H16 last) :
      Address (lead ++ (elision ++ last))
  | after6 {lead : Bytes} (hLead : Lead 6 lead) : Address (lead ++ elision)

/-! ## Sides -/

/-- Groups between colons that stand for `n` times sixteen bits, the last two of them as
an IPv4 address if it is `dotted`. -/
inductive Side : (dotted : Bool) → (n : Nat) → Bytes → Prop
  | empty : Side false 0 []
  | hex {n : Nat} {groups last : Bytes} (before : Groups n groups) (h : H16 last) :
      Side false (n + 1) (groups ++ last)
  | address {n : Nat} {groups last : Bytes} (before : Groups n groups) (h : Ipv4Address last) :
      Side true (n + 2) (groups ++ last)

/-- A group in front of a side. -/
theorem Side.cons {dotted : Bool} {n : Nat} {group rest : Bytes} (first : H16 group)
    (side : Side dotted n rest) (more : rest ≠ []) :
    Side dotted (n + 1) (group ++ 0x3A :: rest) := by
  cases side with
  | empty => exact (more rfl).elim
  | hex before h =>
      have side := Side.hex (.more first before) h
      rwa [List.append_assoc] at side
  | address before h =>
      have side := Side.address (.more first before) h
      rwa [List.append_assoc] at side

/-- The last of some groups. -/
theorem Groups.last : ∀ {n : Nat} {groups : Bytes}, Groups (n + 1) groups →
    ∃ before group, Groups n before ∧ H16 group ∧ groups = before ++ (group ++ [0x3A])
  | 0, _, .more first .none => ⟨[], _, .none, first, rfl⟩
  | n + 1, _, .more first later => by
      obtain ⟨before, group, h, hGroup, rfl⟩ := Groups.last later
      exact ⟨_, group, .more first h, hGroup, by simp⟩

theorem Groups.dotless {n : Nat} {groups : Bytes} (h : Groups n groups) : 0x2E ∉ groups := by
  induction h with
  | none => exact List.not_mem_nil
  | more first later ih =>
      rw [List.mem_append, List.mem_cons, not_or, not_or]
      exact ⟨fun m => absurd (first.hex _ m) (by decide), by decide, ih⟩

theorem H16.dotless {group : Bytes} (h : H16 group) : 0x2E ∉ group :=
  fun m => absurd (h.hex _ m) (by decide)

theorem Side.dotless {n : Nat} {side : Bytes} (h : Side false n side) : 0x2E ∉ side := by
  cases h with
  | empty => exact List.not_mem_nil
  | hex before h =>
      rw [List.mem_append, not_or]
      exact ⟨before.dotless, h.dotless⟩

/-- `ls32` is a side of two groups. -/
theorem Ls32.side {n : Nat} {groups last : Bytes} (before : Groups n groups) (h : Ls32 last) :
    ∃ dotted, Side dotted (n + 2) (groups ++ last) := by
  cases h with
  | @pair high low hHigh hLow =>
      refine ⟨false, ?_⟩
      have more : Groups (n + 1) (groups ++ (high ++ [0x3A])) := by
        clear hLow
        induction before with
        | none => exact .more hHigh .none
        | more first later ih =>
            have := Groups.more first ih
            rwa [List.append_assoc]
      have side := Side.hex more hLow
      simpa using side
  | dotted h => exact ⟨true, .address before h⟩

theorem Side.ls32 {dotted : Bool} {n : Nat} {side : Bytes} (h : Side dotted (n + 2) side) :
    ∃ groups last, Groups n groups ∧ Ls32 last ∧ side = groups ++ last := by
  cases h with
  | hex before h =>
      obtain ⟨groups, group, hGroups, hGroup, rfl⟩ := before.last
      exact ⟨groups, _, hGroups, .pair hGroup h, by simp⟩
  | address before h => exact ⟨_, _, before, .dotted h, rfl⟩

theorem Side.h16 {dotted : Bool} {side : Bytes} (h : Side dotted 1 side) : H16 side := by
  cases h with
  | hex before h =>
      cases before
      exact h

theorem Side.eq_nil {dotted : Bool} {side : Bytes} (h : Side dotted 0 side) : side = [] := by
  cases h
  rfl

theorem Lead.side {n : Nat} {lead : Bytes} (h : Lead n lead) :
    ∃ m, m ≤ n + 1 ∧ Side false m lead := by
  cases h with
  | absent => exact ⟨0, Nat.zero_le _, .empty⟩
  | present few before h => exact ⟨_, Nat.succ_le_succ few, .hex before h⟩

theorem Side.lead {m n : Nat} {lead : Bytes} (h : Side false m lead) (few : m ≤ n + 1) :
    Lead n lead := by
  cases h with
  | empty => exact .absent
  | hex before h => exact .present (Nat.le_of_succ_le_succ few) before h

/-- An address is eight groups, or two sides of an elision with fewer. -/
theorem address_iff (s : Bytes) : Address s ↔ (∃ dotted, Side dotted 8 s) ∨
    ∃ left right dotted m n, s = left ++ (elision ++ right) ∧ Side false m left ∧
      Side dotted n right ∧ m + n < 8 := by
  constructor
  · intro h
    have apart : ∀ {k n : Nat} {lead groups last : Bytes}, k + n = 4 → Lead k lead →
        Groups n groups → Ls32 last → ∃ left right dotted m n,
          lead ++ (elision ++ (groups ++ last)) = left ++ (elision ++ right) ∧ Side false m left ∧
            Side dotted n right ∧ m + n < 8 := by
      intro k n lead groups last fit hLead h hLast
      obtain ⟨m, few, left⟩ := hLead.side
      obtain ⟨dotted, right⟩ := hLast.side h
      exact ⟨_, _, dotted, m, _, rfl, left, right, by omega⟩
    cases h with
    | whole h hLast => exact .inl (hLast.side h)
    | after h hLast =>
        obtain ⟨dotted, right⟩ := hLast.side h
        exact .inr ⟨[], _, dotted, 0, _, rfl, .empty, right, by omega⟩
    | after0 hLead h hLast => exact .inr (apart rfl hLead h hLast)
    | after1 hLead h hLast => exact .inr (apart rfl hLead h hLast)
    | after2 hLead h hLast => exact .inr (apart rfl hLead h hLast)
    | after3 hLead h hLast => exact .inr (apart rfl hLead h hLast)
    | after4 hLead hLast => exact .inr (apart rfl hLead .none hLast)
    | after5 hLead hLast =>
        obtain ⟨m, few, left⟩ := hLead.side
        exact .inr ⟨_, _, false, m, _, rfl, left, .hex .none hLast, by omega⟩
    | after6 hLead =>
        obtain ⟨m, few, left⟩ := hLead.side
        exact .inr ⟨_, [], false, m, 0, by simp, left, .empty, by omega⟩
  · rintro (⟨dotted, whole⟩ | ⟨left, right, dotted, m, n, rfl, hLeft, hRight, fits⟩)
    · obtain ⟨groups, last, h, hLast, rfl⟩ := whole.ls32
      exact .whole h hLast
    · match n, hRight with
      | 0, hRight =>
          rw [hRight.eq_nil, List.append_nil]
          exact .after6 (hLeft.lead (by omega))
      | 1, hRight => exact .after5 (hLeft.lead (by omega)) hRight.h16
      | n + 2, hRight =>
          obtain ⟨groups, last, h, hLast, rfl⟩ := hRight.ls32
          match n, h with
          | 0, .none => exact .after4 (hLeft.lead (by omega)) hLast
          | 1, h => exact .after3 (hLeft.lead (by omega)) h hLast
          | 2, h => exact .after2 (hLeft.lead (by omega)) h hLast
          | 3, h => exact .after1 (hLeft.lead (by omega)) h hLast
          | 4, h => exact .after0 (hLeft.lead (by omega)) h hLast
          | 5, h =>
              obtain rfl : m = 0 := by omega
              rw [hLeft.eq_nil]
              exact .after h hLast
          | n + 6, _ => omega

/-! ## The elision -/

/-- An elision starts at a byte, or is found behind it. -/
theorem cut_elision_cons (a : UInt8) (bs : Bytes) : cut elision (a :: bs) =
    if a = 0x3A ∧ bs.head? = some 0x3A then some ([], bs.drop 1)
    else (cut elision bs).map fun (before, after) => (a :: before, after) := by
  cases bs with
  | nil => simp [cut, elision, List.isPrefixOf]
  | cons b rest =>
      have isPrefix : List.isPrefixOf elision (a :: b :: rest) = true ↔
          a = 0x3A ∧ (b :: rest).head? = some 0x3A := by
        simp only [elision, List.isPrefixOf, Bool.and_true, Bool.and_eq_true, beq_iff_eq,
          List.head?_cons, Option.some.injEq]
        exact ⟨fun h => ⟨h.1.symm, h.2.symm⟩, fun h => ⟨h.1.symm, h.2.symm⟩⟩
      rw [cut]
      simp only [isPrefix]
      rfl

/-- No elision starts in a text without colons. -/
theorem cut_elision_append {part : Bytes} (free : 0x3A ∉ part) (bs : Bytes) :
    cut elision (part ++ bs) = (cut elision bs).map fun (before, after) =>
      (part ++ before, after) := by
  induction part with
  | nil =>
      rw [List.nil_append]
      cases cut elision bs <;> rfl
  | cons a part ih =>
      rw [List.mem_cons, not_or] at free
      have apart : ¬(a = 0x3A ∧ (part ++ bs).head? = some 0x3A) := fun h => free.1 h.1.symm
      rw [List.cons_append, cut_elision_cons, if_neg apart, ih free.2, Option.map_map]
      rfl

theorem H16.colonFree {group : Bytes} (h : H16 group) : 0x3A ∉ group :=
  fun m => absurd (h.hex _ m) (by decide)

theorem H16.ne_nil {group : Bytes} (h : H16 group) : group ≠ [] := by
  rintro rfl
  exact absurd h.nonempty (by decide)

theorem DecOctet.digits {octet : Bytes} (h : DecOctet octet) : ∀ b ∈ octet, isDigit b = true := by
  have digit : ∀ {low high b : UInt8}, 0x30 ≤ low → high ≤ 0x39 → within low high b = true →
      isDigit b = true := by
    intro low high b hLow hHigh
    simp only [isDigit, within, Bool.and_eq_true, decide_eq_true_eq]
    exact fun h => ⟨UInt8.le_trans hLow h.1, UInt8.le_trans h.2 hHigh⟩
  have one : isDigit 0x31 = true := by decide
  have two : isDigit 0x32 = true := by decide
  have five : isDigit 0x35 = true := by decide
  cases h with
  | units ha => simp [ha]
  | tens ha hb => simp [digit (by decide) (by decide) ha, hb]
  | hundred ha hb => simp [one, ha, hb]
  | twoHundred ha hb => simp [two, digit (by decide) (by decide) ha, hb]
  | fifty ha => simp [two, five, digit (by decide) (by decide) ha]

theorem DecOctet.ne_nil {octet : Bytes} (h : DecOctet octet) : octet ≠ [] := by
  rintro rfl
  cases h

theorem DecOctet.free {octet : Bytes} (h : DecOctet octet) {b : UInt8} (other : isDigit b = false) :
    b ∉ octet := by
  intro member
  rw [h.digits b member] at other
  cases other

theorem Ipv4Address.colonFree {address : Bytes} (h : Ipv4Address address) : 0x3A ∉ address := by
  cases h with
  | dotted ha hb hc hd =>
      have colon : isDigit 0x3A = false := by decide
      simp [ha.free colon, hb.free colon, hc.free colon, hd.free colon]

theorem Ipv4Address.dot {address : Bytes} (h : Ipv4Address address) : 0x2E ∈ address := by
  cases h with
  | dotted ha hb hc hd => simp

theorem Ipv4Address.ne_nil {address : Bytes} (h : Ipv4Address address) : address ≠ [] :=
  List.ne_nil_of_mem h.dot

/-- Groups and what follows them do not start with a colon. -/
theorem Groups.head {n : Nat} {groups last : Bytes} (h : Groups n groups) (some_ : last ≠ [])
    (free : 0x3A ∉ last) (rest : Bytes) : (groups ++ (last ++ rest)).head? ≠ some 0x3A := by
  have starts : ∀ {part : Bytes} (rest : Bytes), part ≠ [] → 0x3A ∉ part →
      (part ++ rest).head? ≠ some 0x3A := by
    intro part rest more free colon
    obtain ⟨b, part, rfl⟩ := List.exists_cons_of_ne_nil more
    exact free (Option.some.inj colon ▸ List.mem_cons_self)
  cases h with
  | none => exact starts rest some_ free
  | more first later =>
      rw [List.append_assoc]
      exact starts _ first.ne_nil first.colonFree

/-- No elision starts in groups with something behind them. -/
theorem Groups.cut_elision {n : Nat} {groups last : Bytes} (h : Groups n groups)
    (some_ : last ≠ []) (free : 0x3A ∉ last) (rest : Bytes) :
    cut elision (groups ++ (last ++ rest)) =
      (cut elision rest).map fun (before, after) => (groups ++ (last ++ before), after) := by
  induction h with
  | none => exact cut_elision_append free rest
  | @more n group later' first later ih =>
      have apart : ¬((0x3A : UInt8) = 0x3A ∧ (later' ++ (last ++ rest)).head? = some 0x3A) :=
        fun h => later.head some_ free rest h.2
      rw [List.append_assoc, cut_elision_append first.colonFree, List.cons_append, cut_elision_cons,
        if_neg apart, ih, Option.map_map, Option.map_map]
      simp [Function.comp_def]

/-- Behind a side the first elision is found. -/
theorem Side.cut_elision {dotted : Bool} {n : Nat} {side : Bytes} (h : Side dotted n side)
    (rest : Bytes) : cut elision (side ++ (elision ++ rest)) = some (side, rest) := by
  have found : cut elision (elision ++ rest) = some ([], rest) := cut_elision_cons _ _
  cases h with
  | empty => exact found
  | hex before h =>
      rw [List.append_assoc, before.cut_elision h.ne_nil h.colonFree, found]
      simp
  | address before h =>
      rw [List.append_assoc, before.cut_elision h.ne_nil h.colonFree, found]
      simp

theorem Side.cut_elision_none {dotted : Bool} {n : Nat} {side : Bytes} (h : Side dotted n side) :
    cut elision side = none := by
  have nothing : cut elision [] = none := rfl
  cases h with
  | empty => exact nothing
  | @hex _ groups last before h =>
      have := before.cut_elision h.ne_nil h.colonFree []
      rwa [List.append_nil, nothing] at this
  | @address _ groups last before h =>
      have := before.cut_elision h.ne_nil h.colonFree []
      rwa [List.append_nil, nothing] at this

/-- With an IPv4 address before its elision a text is no address. -/
theorem not_address {n : Nat} {left : Bytes} (h : Side true n left) (right : Bytes) :
    ¬Address (left ++ (elision ++ right)) := by
  have dot : 0x2E ∈ left := by
    cases h with
    | address before h => exact List.mem_append_right _ h.dot
  have found := h.cut_elision right
  rw [address_iff]
  rintro (⟨dotted, whole⟩ | ⟨left', right', dotted, m, k, same, hLeft, -⟩)
  · rw [whole.cut_elision_none] at found
    cases found
  · rw [same, hLeft.cut_elision right'] at found
    cases found
    exact hLeft.dotless dot

end Wire.Ipv6
