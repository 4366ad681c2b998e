import Mathlib.Tactic
import Mathlib.Data.List.Sort

/-!
# Byte strings

The vocabulary every format below is written in: a byte string is a list of
octets, and a reader is a function to `Option`, where `none` is the one closed
failure.

*Searching.*  `cut` splits at the first occurrence of a pattern, and
`splitGlobal` at every occurrence from left to right.

*Numbers.*  `bigEndian` writes a number in a fixed number of octets.

*Order.*  `leBytes` is the order of byte strings by their first difference, a
proper prefix first.  It is total, which is what a stable sort by a byte key
needs.
-/

namespace Wire

/-- A byte string. -/
abbrev Bytes := List UInt8

/-- Membership in a list of byte strings is decided by their equality. -/
instance Bytes.lawfulBEq : LawfulBEq Bytes := inferInstance

/-- The bytes of an ASCII literal. -/
def ascii (s : String) : Bytes := s.toList.map fun c => UInt8.ofNat c.toNat

/-- A byte in a closed range. -/
def within (low high b : UInt8) : Bool := low ≤ b && b ≤ high

/-- `0`-`9` -/
def isDigit (b : UInt8) : Bool := within 0x30 0x39 b

/-- `A`-`Z` -/
def isUpper (b : UInt8) : Bool := within 0x41 0x5A b

/-- `a`-`z` -/
def isLower (b : UInt8) : Bool := within 0x61 0x7A b

/-- An ASCII letter or digit. -/
def isAlnum (b : UInt8) : Bool := isUpper b || isLower b || isDigit b

/-- A hexadecimal digit of either case. -/
def isHex (b : UInt8) : Bool := isDigit b || within 0x41 0x46 b || within 0x61 0x66 b

/-- The value of a hexadecimal digit. -/
def hexValue (b : UInt8) : Nat :=
  if isDigit b then b.toNat - 0x30
  else if within 0x41 0x46 b then b.toNat - 0x41 + 10
  else b.toNat - 0x61 + 10

/-- A property of octets holds of all of them when it holds of each of the 256. -/
theorem byte_forall {P : UInt8 → Prop} (h : ∀ n : Fin 256, P (UInt8.ofFin n)) (b : UInt8) : P b :=
  h b.toFin

set_option maxRecDepth 4096 in
theorem hexValue_lt {c : UInt8} (hex : isHex c = true) : hexValue c < 16 := by
  revert hex
  exact byte_forall (P := fun c => isHex c = true → hexValue c < 16) (by decide) c

/-! ## The failure monad -/

/-- A guarded reader succeeds exactly when the guard holds and the rest succeeds. -/
@[simp] theorem guard_bind_eq_some {α : Type} {p : Prop} [Decidable p] {f : Unit → Option α}
    {x : α} : ((guard p : Option Unit).bind f) = some x ↔ p ∧ f () = some x := by
  by_cases h : p <;> simp [guard, h]

/-- A reader that ends in a guard. -/
@[simp] theorem guard_eq_some {p : Prop} [Decidable p] {u : Unit} :
    (guard p : Option Unit) = some u ↔ p := by
  by_cases h : p <;> simp [guard, h]

/-! ## Searching -/

/-- The parts before and after the first occurrence of a pattern. -/
def cut (pattern : Bytes) : Bytes → Option (Bytes × Bytes)
  | [] => if pattern = [] then some ([], []) else none
  | b :: rest =>
      if pattern.isPrefixOf (b :: rest) then some ([], (b :: rest).drop pattern.length)
      else (cut pattern rest).map fun (before, after) => (b :: before, after)

/-- The parts between the occurrences of a pattern, the first `n` of them. -/
def splitUpTo (pattern : Bytes) : Nat → Bytes → List Bytes
  | 0, bs => [bs]
  | n + 1, bs =>
      match cut pattern bs with
      | none => [bs]
      | some (before, after) => before :: splitUpTo pattern n after

/-- The parts between all occurrences of a pattern, from left to right.  Each
occurrence takes at least one byte, so the length of the input bounds them. -/
def splitGlobal (pattern bs : Bytes) : List Bytes := splitUpTo pattern bs.length bs

/-- What `cut` returns is the input with one pattern taken out. -/
theorem cut_eq_some {pattern : Bytes} :
    ∀ {bs before after : Bytes}, cut pattern bs = some (before, after) →
      bs = before ++ pattern ++ after
  | [], before, after, h => by
      simp only [cut] at h
      split at h
      next empty => cases h; simp [empty]
      next => cases h
  | b :: rest, before, after, h => by
      simp only [cut] at h
      split at h
      next isPrefix =>
        obtain ⟨tail, htail⟩ := List.isPrefixOf_iff_prefix.mp isPrefix
        cases h
        rw [← htail]
        simp
      next =>
        obtain ⟨⟨before', after'⟩, found, same⟩ := Option.map_eq_some_iff.mp h
        cases same
        rw [cut_eq_some found]
        simp

/-- A byte that does not occur is not found. -/
theorem cut_singleton_eq_none {sep : UInt8} :
    ∀ {s : Bytes}, cut [sep] s = none ↔ sep ∉ s
  | [] => by simp [cut]
  | b :: rest => by
      by_cases h : sep = b
      · simp [cut, h]
      · simp [cut, h, cut_singleton_eq_none (s := rest)]

/-- A byte is found at its first occurrence. -/
theorem cut_singleton_append {sep : UInt8} {before : Bytes} (after : Bytes) (h : sep ∉ before) :
    cut [sep] (before ++ sep :: after) = some (before, after) := by
  induction before with
  | nil => simp [cut]
  | cons b rest ih =>
      simp only [List.mem_cons, not_or] at h
      simp [cut, h.1, ih h.2]

/-- A pattern is found where its first byte first occurs. -/
theorem cut_append {c : UInt8} {pattern before : Bytes} (after : Bytes) (h : c ∉ before) :
    cut (c :: pattern) (before ++ (c :: pattern ++ after)) = some (before, after) := by
  induction before with
  | nil =>
      have isPrefix : (c :: pattern).isPrefixOf (c :: (pattern ++ after)) = true :=
        List.isPrefixOf_iff_prefix.mpr ⟨after, rfl⟩
      rw [List.nil_append, List.cons_append, cut, if_pos isPrefix]
      simp
  | cons b rest ih =>
      simp only [List.mem_cons, not_or] at h
      have noPrefix :
          ¬(c :: pattern).isPrefixOf (b :: (rest ++ (c :: pattern ++ after))) = true := by
        simp [List.isPrefixOf, h.1]
      rw [List.cons_append, cut, if_neg noPrefix, ih h.2]
      rfl

/-- The part before the first occurrence of a byte does not hold that byte. -/
theorem cut_singleton_notMem {sep : UInt8} :
    ∀ {bs before after : Bytes}, cut [sep] bs = some (before, after) → sep ∉ before
  | [], _, _, h => by simp [cut] at h
  | b :: rest, before, after, h => by
      by_cases hb : sep = b
      · simp [cut, hb] at h
        simp [h.1]
      · simp [cut, hb] at h
        obtain ⟨before', found, rfl⟩ := h
        simp [hb, cut_singleton_notMem found]

/-- A part is as long as the input at most, without the pattern behind it. -/
theorem length_cut {pattern bs before after : Bytes} (h : cut pattern bs = some (before, after)) :
    before.length + pattern.length + after.length = bs.length := by
  rw [cut_eq_some h, List.length_append, List.length_append]

theorem splitUpTo_eq {pattern : Bytes} (nonempty : pattern ≠ []) : ∀ {n m : Nat} {bs : Bytes},
    bs.length ≤ n → bs.length ≤ m → splitUpTo pattern n bs = splitUpTo pattern m bs
  | 0, 0, _, _, _ => rfl
  | 0, m + 1, bs, short, _ => by
      obtain rfl := List.length_eq_zero_iff.mp (Nat.le_zero.mp short)
      simp [splitUpTo, cut, nonempty]
  | n + 1, 0, bs, _, short => by
      obtain rfl := List.length_eq_zero_iff.mp (Nat.le_zero.mp short)
      simp [splitUpTo, cut, nonempty]
  | n + 1, m + 1, bs, hn, hm => by
      rw [splitUpTo, splitUpTo]
      split
      · rfl
      next before after found =>
        have shorter := length_cut found
        have pos := List.length_pos_iff.mpr nonempty
        have same : splitUpTo pattern n after = splitUpTo pattern m after :=
          splitUpTo_eq nonempty (by omega) (by omega)
        rw [same]

/-- The first part ends at the first occurrence. -/
theorem splitGlobal_eq {pattern : Bytes} (nonempty : pattern ≠ []) (bs : Bytes) :
    splitGlobal pattern bs = match cut pattern bs with
      | none => [bs]
      | some (before, after) => before :: splitGlobal pattern after := by
  cases bs with
  | nil => simp [splitGlobal, splitUpTo, cut, nonempty]
  | cons b rest =>
      rw [splitGlobal, List.length_cons, splitUpTo]
      cases found : cut pattern (b :: rest) with
      | none => rfl
      | some parts =>
        obtain ⟨before, after⟩ := parts
        have shorter := length_cut found
        have pos := List.length_pos_iff.mpr nonempty
        rw [List.length_cons] at shorter
        have same : splitUpTo pattern rest.length after = splitUpTo pattern after.length after :=
          splitUpTo_eq nonempty (by omega) le_rfl
        exact congrArg (before :: ·) same

theorem splitGlobal_ne_nil (pattern bs : Bytes) : splitGlobal pattern bs ≠ [] := by
  rw [splitGlobal]
  cases bs.length with
  | zero => exact List.cons_ne_nil _ _
  | succ n =>
      rw [splitUpTo]
      split <;> exact List.cons_ne_nil _ _

/-- Without the separator there is one part. -/
theorem splitGlobal_singleton {sep : UInt8} {part : Bytes} (h : sep ∉ part) :
    splitGlobal [sep] part = [part] := by
  rw [splitGlobal_eq (List.cons_ne_nil _ _), cut_singleton_eq_none.mpr h]

/-- A part ends at the separator. -/
theorem splitGlobal_singleton_append {sep : UInt8} {part : Bytes} (h : sep ∉ part) (rest : Bytes) :
    splitGlobal [sep] (part ++ sep :: rest) = part :: splitGlobal [sep] rest := by
  rw [splitGlobal_eq (List.cons_ne_nil _ _), cut_singleton_append rest h]

/-- The first part is all there is, or the separator and the other parts follow it. -/
theorem splitGlobal_singleton_cons {sep : UInt8} {bs part : Bytes} {parts : List Bytes}
    (h : splitGlobal [sep] bs = part :: parts) :
    sep ∉ part ∧ (parts = [] ∧ bs = part ∨
      ∃ rest, bs = part ++ sep :: rest ∧ splitGlobal [sep] rest = parts) := by
  rw [splitGlobal_eq (List.cons_ne_nil _ _)] at h
  cases found : cut [sep] bs with
  | none =>
      rw [found] at h
      obtain ⟨rfl, rfl⟩ := List.cons.inj h
      exact ⟨cut_singleton_eq_none.mp found, .inl ⟨rfl, rfl⟩⟩
  | some around =>
      obtain ⟨before, after⟩ := around
      rw [found] at h
      obtain ⟨rfl, rfl⟩ := List.cons.inj h
      refine ⟨cut_singleton_notMem found, .inr ⟨after, ?_, rfl⟩⟩
      rw [cut_eq_some found, List.append_assoc]
      rfl

/-! ## Mapped bytes -/

section Map

variable {f : UInt8 → UInt8} {pattern : Bytes} (own : ∀ p ∈ pattern, ∀ b, f b = p ↔ b = p)

include own

theorem isPrefixOf_map : ∀ (bs : Bytes), pattern.isPrefixOf (bs.map f) = pattern.isPrefixOf bs := by
  intro bs
  induction pattern generalizing bs with
  | nil => rfl
  | cons p pattern ih =>
      obtain ⟨first, later⟩ := List.forall_mem_cons.mp own
      cases bs with
      | nil => rfl
      | cons b bs =>
          have same : (p == f b) = (p == b) := by
            rw [Bool.eq_iff_iff, beq_iff_eq, beq_iff_eq, eq_comm, first, eq_comm]
          rw [List.map_cons, List.isPrefixOf, same, ih later, List.isPrefixOf]

/-- A search is not misled by a map that keeps the pattern apart. -/
theorem cut_map : ∀ (bs : Bytes), cut pattern (bs.map f) =
    (cut pattern bs).map fun (before, after) => (before.map f, after.map f)
  | [] => by
      simp only [List.map_nil, cut]
      split <;> rfl
  | b :: rest => by
      have prefixes := isPrefixOf_map own (b :: rest)
      rw [List.map_cons] at prefixes ⊢
      rw [cut, cut, prefixes, cut_map rest]
      split
      · simp
      · cases cut pattern rest <;> rfl

theorem splitGlobal_map (bs : Bytes) :
    splitGlobal pattern (bs.map f) = (splitGlobal pattern bs).map (List.map f) := by
  have upTo : ∀ (n : Nat) (bs : Bytes),
      splitUpTo pattern n (bs.map f) = (splitUpTo pattern n bs).map (List.map f) := by
    intro n
    induction n with
    | zero => intro bs; rfl
    | succ n ih =>
        intro bs
        rw [splitUpTo, splitUpTo, cut_map own]
        cases cut pattern bs with
        | none => rfl
        | some found => simp [ih]
  rw [splitGlobal, List.length_map, upTo, splitGlobal]

end Map

/-! ## Partial maps -/

/-- A partial map succeeds on a list when it does on every element. -/
theorem mapM_eq_some {α β : Type} {f : α → Option β} : ∀ {as : List α} {bs : List β},
    as.mapM f = some bs ↔ List.Forall₂ (fun a b => f a = some b) as bs
  | [], bs => by
      rw [List.mapM_nil, List.forall₂_nil_left_iff]
      exact ⟨fun h => (Option.some.inj h).symm, fun h => congrArg some h.symm⟩
  | a :: as, bs => by
      simp only [List.mapM_cons, Option.bind_eq_bind, Option.bind_eq_some_iff, mapM_eq_some,
        Option.pure_def, Option.some.injEq, List.forall₂_cons_left_iff]
      constructor
      · rintro ⟨b, first, rest, later, rfl⟩
        exact ⟨b, rest, first, later, rfl⟩
      · rintro ⟨b, rest, first, later, rfl⟩
        exact ⟨b, first, rest, later, rfl⟩

/-- What a partial map returns comes from the list. -/
theorem exists_of_mem_mapM {α β : Type} {f : α → Option β} {as : List α} {bs : List β}
    (h : as.mapM f = some bs) {b : β} (member : b ∈ bs) : ∃ a ∈ as, f a = some b := by
  have pairs := mapM_eq_some.mp h
  clear h
  induction pairs with
  | nil => cases member
  | @cons a c as bs found _ ih =>
      rcases List.mem_cons.mp member with rfl | later
      · exact ⟨a, List.mem_cons_self, found⟩
      · obtain ⟨a', member', found'⟩ := ih later
        exact ⟨a', List.mem_cons_of_mem _ member', found'⟩

/-- A partial map that succeeds has mapped every element. -/
theorem exists_of_mapM {α β : Type} {f : α → Option β} {as : List α} {bs : List β}
    (h : as.mapM f = some bs) {a : α} (member : a ∈ as) : ∃ b, f a = some b := by
  have pairs := mapM_eq_some.mp h
  clear h
  induction pairs with
  | nil => cases member
  | @cons c b as bs found _ ih =>
      rcases List.mem_cons.mp member with rfl | later
      · exact ⟨b, found⟩
      · exact ih later

/-! ## Big-endian numbers -/

/-- The big-endian octets of a number. -/
def bigEndian (size n : Nat) : Bytes :=
  (List.range size).map fun i => UInt8.ofNat (n / 256 ^ (size - 1 - i))

/-- The number of big-endian octets. -/
def fromBigEndian (bytes : Bytes) : Nat := bytes.foldl (fun n b => n * 256 + b.toNat) 0

@[simp] theorem length_bigEndian (size n : Nat) : (bigEndian size n).length = size := by
  simp [bigEndian]

theorem bigEndian_succ (size n : Nat) :
    bigEndian (size + 1) n = bigEndian size (n / 256) ++ [UInt8.ofNat n] := by
  have shift : ∀ i ∈ List.range size, UInt8.ofNat (n / 256 ^ (size + 1 - 1 - i)) =
      UInt8.ofNat (n / 256 / 256 ^ (size - 1 - i)) := by
    intro i hi
    have position : size + 1 - 1 - i = size - 1 - i + 1 := by
      have := List.mem_range.mp hi
      omega
    rw [position, Nat.pow_succ', Nat.div_div_eq_div_mul]
  rw [bigEndian, List.range_succ, List.map_append, List.map_congr_left shift]
  simp [bigEndian]

/-- A number that fits is read back. -/
theorem fromBigEndian_bigEndian : ∀ {size n : Nat}, n < 256 ^ size →
    fromBigEndian (bigEndian size n) = n
  | 0, n, h => by
      have : n = 0 := by simpa using h
      simp [this, bigEndian, fromBigEndian]
  | size + 1, n, h => by
      have high : n / 256 < 256 ^ size := by
        rw [Nat.pow_succ] at h
        omega
      have ih := fromBigEndian_bigEndian high
      rw [fromBigEndian] at ih
      rw [bigEndian_succ, fromBigEndian, List.foldl_append, ih]
      simp only [List.foldl_cons, List.foldl_nil, UInt8.toNat_ofNat']
      omega

theorem fromBigEndian_append_singleton (bytes : Bytes) (b : UInt8) :
    fromBigEndian (bytes ++ [b]) = fromBigEndian bytes * 256 + b.toNat := by
  rw [fromBigEndian, fromBigEndian, List.foldl_append]
  rfl

/-- The octet in front weighs most. -/
theorem fromBigEndian_cons (b : UInt8) (rest : Bytes) :
    fromBigEndian (b :: rest) = b.toNat * 256 ^ rest.length + fromBigEndian rest := by
  induction rest using List.reverseRecOn with
  | nil => simp [fromBigEndian]
  | append_singleton rest c ih =>
      rw [← List.cons_append, fromBigEndian_append_singleton, ih, fromBigEndian_append_singleton,
        List.length_append, List.length_singleton, pow_succ]
      ring

theorem fromBigEndian_lt (bytes : Bytes) : fromBigEndian bytes < 256 ^ bytes.length := by
  induction bytes using List.reverseRecOn with
  | nil => simp [fromBigEndian]
  | append_singleton bytes b ih =>
      have small := b.toNat_lt
      rw [fromBigEndian_append_singleton, List.length_append, List.length_singleton, pow_succ]
      omega

/-- Octets are those of the number they are. -/
theorem bigEndian_fromBigEndian (bytes : Bytes) :
    bigEndian bytes.length (fromBigEndian bytes) = bytes := by
  induction bytes using List.reverseRecOn with
  | nil => rfl
  | append_singleton bytes b ih =>
      have small := b.toNat_lt
      have high : (fromBigEndian bytes * 256 + b.toNat) / 256 = fromBigEndian bytes := by omega
      have low : UInt8.ofNat (fromBigEndian bytes * 256 + b.toNat) = b := by
        apply UInt8.toNat.inj
        rw [UInt8.toNat_ofNat']
        omega
      rw [fromBigEndian_append_singleton, List.length_append, List.length_singleton,
        bigEndian_succ, high, low, ih]

/-! ## The order of byte strings -/

/-- Byte strings ordered by their first difference, a proper prefix first. -/
def leBytes : Bytes → Bytes → Bool
  | [], _ => true
  | _ :: _, [] => false
  | a :: as, b :: bs => if a < b then true else if b < a then false else leBytes as bs

theorem leBytes_refl : ∀ a : Bytes, leBytes a a = true
  | [] => rfl
  | a :: as => by simp [leBytes, leBytes_refl as]

theorem leBytes_total : ∀ a b : Bytes, leBytes a b = true ∨ leBytes b a = true
  | [], _ => .inl rfl
  | _ :: _, [] => .inr rfl
  | a :: as, b :: bs => by
      have := leBytes_total as bs
      simp only [leBytes]
      split <;> split <;> simp_all

theorem leBytes_trans : ∀ {a b c : Bytes}, leBytes a b = true → leBytes b c = true →
    leBytes a c = true
  | [], _, _, _, _ => rfl
  | _ :: _, [], _, h, _ => by simp [leBytes] at h
  | _ :: _, _ :: _, [], _, h => by simp [leBytes] at h
  | a :: as, b :: bs, c :: cs, hab, hbc => by
      have ih := leBytes_trans (a := as) (b := bs) (c := cs)
      simp only [leBytes] at hab hbc ⊢
      grind

theorem leBytes_antisymm : ∀ {a b : Bytes}, leBytes a b = true → leBytes b a = true → a = b
  | [], [], _, _ => rfl
  | [], _ :: _, _, h => by simp [leBytes] at h
  | _ :: _, [], h, _ => by simp [leBytes] at h
  | a :: as, b :: bs, hab, hba => by
      have ih := leBytes_antisymm (a := as) (b := bs)
      simp only [leBytes] at hab hba
      grind

end Wire
