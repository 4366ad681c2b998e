import Mathlib.Data.List.Basic

/-!
# Linked lists of records

A list of records is checked by a fold: a partial step takes the position, the
link left by the record before and the record, and returns the link this record
leaves.  When a link determines the record that left it and the link before,
apart from a clash of two records, the last link determines the whole list
(`run_determines`).

Records may also name the link of the record before themselves, and carry a rank that
grows by one.  Then two lists that start at one rank and end in one link need not be
known to be of one length (`Naming.determines`).
-/

namespace Wire.Linked

variable {α σ : Type} (step : Int → σ → α → Option σ)

/-- The link the last record leaves. -/
def run : Int → σ → List α → Option σ
  | _, link, [] => some link
  | n, link, a :: as => (step n link a).bind fun link' => run (n + 1) link' as

variable {step}

@[simp] theorem run_nil {n : Int} {link : σ} : run step n link [] = some link := rfl

theorem run_cons_eq_some {n : Int} {link last : σ} {a : α} {as : List α} :
    run step n link (a :: as) = some last ↔
      ∃ link', step n link a = some link' ∧ run step (n + 1) link' as = some last :=
  Option.bind_eq_some_iff

/-- Lists of one length with one last link are the same and start from the same
link, or two of their records clash. -/
theorem run_determines {Clash : α → α → Prop} :
    ∀ {as bs : List α} {n : Int} {s t last : σ}, as.length = bs.length →
      run step n s as = some last → run step n t bs = some last →
      (∀ {n s t a b link}, step n s a = some link → step n t b = some link →
        a = b ∧ s = t ∨ Clash a b) →
      as = bs ∧ s = t ∨ ∃ a ∈ as, ∃ b ∈ bs, Clash a b
  | [], [], n, s, t, last, _, hs, ht, _ => .inl ⟨rfl, Option.some.inj (hs.trans ht.symm)⟩
  | a :: as, b :: bs, n, s, t, last, length, hs, ht, back => by
      obtain ⟨s', stepA, runA⟩ := run_cons_eq_some.mp hs
      obtain ⟨t', stepB, runB⟩ := run_cons_eq_some.mp ht
      rcases run_determines (Nat.succ.inj length) runA runB back with ⟨rfl, rfl⟩ | clash
      · rcases back stepA stepB with ⟨rfl, rfl⟩ | clash
        · exact .inl ⟨rfl, rfl⟩
        · exact .inr ⟨a, List.mem_cons_self, b, List.mem_cons_self, clash⟩
      · obtain ⟨c, hc, d, hd, clash⟩ := clash
        exact .inr ⟨c, List.mem_cons_of_mem _ hc, d, List.mem_cons_of_mem _ hd, clash⟩

/-- A run over two lists is a run over the second one behind the first. -/
theorem run_append {as bs : List α} {n : Int} {link last : σ} :
    run step n link (as ++ bs) = some last ↔
      ∃ middle, run step n link as = some middle ∧
        run step (n + as.length) middle bs = some last := by
  induction as generalizing n link with
  | nil => simp
  | cons a as ih =>
    have place : n + ((a :: as).length : Int) = n + 1 + as.length := by
      rw [List.length_cons]
      omega
    simp only [List.cons_append, run_cons_eq_some, ih, place]
    constructor
    · rintro ⟨link', stepped, middle, first, second⟩
      exact ⟨middle, ⟨link', stepped, first⟩, second⟩
    · rintro ⟨middle, ⟨link', stepped, first⟩, second⟩
      exact ⟨link', stepped, middle, first, second⟩

/-- Of two runs that end in one place with one link the shorter list is the end of the
longer one, which was linked to it at its start, or two records clash. -/
theorem run_suffix {Clash : α → α → Prop} {as bs : List α} {m n : Int} {s t last : σ}
    (runA : run step m s as = some last) (runB : run step n t bs = some last)
    (place : m + as.length = n + bs.length) (shorter : as.length ≤ bs.length)
    (back : ∀ {n s t a b link}, step n s a = some link → step n t b = some link →
      a = b ∧ s = t ∨ Clash a b) :
    (∃ older, bs = older ++ as ∧ run step n t older = some s) ∨
      ∃ a ∈ as, ∃ b ∈ bs, Clash a b := by
  obtain ⟨older, tail, rfl, length⟩ : ∃ older tail, bs = older ++ tail ∧
      as.length = tail.length := by
    refine ⟨bs.take (bs.length - as.length), bs.drop (bs.length - as.length),
      (List.take_append_drop _ bs).symm, ?_⟩
    rw [List.length_drop]
    omega
  obtain ⟨middle, first, second⟩ := run_append.mp runB
  have start : n + (older.length : Int) = m := by
    rw [List.length_append] at place
    omega
  rw [start] at second
  cases run_determines length runA second back with
  | inl same =>
    obtain ⟨rfl, rfl⟩ := same
    exact .inl ⟨older, rfl, first⟩
  | inr clash =>
    obtain ⟨a, ha, b, hb, clash⟩ := clash
    exact .inr ⟨a, ha, b, List.mem_append_right older hb, clash⟩

/-! ## Records that name their predecessor -/

/-- The link a record leaves, the link it names, its rank, and all it holds. -/
structure Naming (α σ κ : Type) where
  link : α → σ
  prior : α → σ
  rank : α → Int
  content : α → κ

namespace Naming

variable {σ κ : Type} (naming : Naming α σ κ) {first : Int}

/-- A record names the one before it. -/
def Follows (a b : α) : Prop := naming.prior b = naming.link a ∧ naming.rank b = naming.rank a + 1

/-- Records that follow one another from a first rank, the newest in front. -/
inductive Lineage (first : Int) : List α → Prop
  | one (a : α) : naming.rank a = first → Lineage first [a]
  | next (a b : α) (as : List α) :
      naming.Follows a b → Lineage first (a :: as) → Lineage first (b :: a :: as)

variable {naming}

theorem Lineage.first_le {a : α} {as : List α} (h : naming.Lineage first (a :: as)) :
    first ≤ naming.rank a := by
  induction as generalizing a with
  | nil =>
      cases h with
      | one _ rank => exact Int.le_of_eq rank.symm
  | cons b as ih =>
      cases h with
      | next _ _ _ follows rest =>
          have := ih rest
          rw [follows.2]
          omega

/-- A list in order extends a lineage. -/
theorem Lineage.extend : ∀ {as : List α} {a : α} {older : List α},
    naming.Lineage first (a :: older) → (a :: as).IsChain naming.Follows →
      naming.Lineage first (as.reverse ++ a :: older)
  | [], _, _, h, _ => h
  | b :: as, a, older, h, chain => by
      obtain ⟨follows, rest⟩ := List.isChain_cons_cons.mp chain
      have extended := Lineage.extend (.next a b older follows h) rest
      rwa [List.reverse_cons, List.append_assoc, List.singleton_append]

theorem lineage_reverse {a : α} {as : List α} (chain : (a :: as).IsChain naming.Follows)
    (rank : naming.rank a = first) : naming.Lineage first (a :: as).reverse := by
  rw [List.reverse_cons]
  exact Lineage.extend (.one a rank) chain

/-- Backwards from one link, two lineages hold the same records, and the ranks let
them end only together. -/
theorem Lineage.determines {Clash : α → α → Prop}
    (same : ∀ {a b}, naming.link a = naming.link b →
      naming.content a = naming.content b ∨ Clash a b)
    (read : ∀ {a b}, naming.content a = naming.content b →
      naming.prior a = naming.prior b ∧ naming.rank a = naming.rank b) :
    ∀ {a b : α} {as bs : List α}, naming.Lineage first (a :: as) → naming.Lineage first (b :: bs) →
      naming.link a = naming.link b →
      (a :: as).map naming.content = (b :: bs).map naming.content ∨
        ∃ c ∈ a :: as, ∃ d ∈ b :: bs, Clash c d := by
  intro a b as
  induction as generalizing a b with
  | nil =>
      intro bs left right link
      rcases same link with content | clash
      · cases left with
        | one _ rank =>
            cases right with
            | one => exact .inl (by simp [content])
            | next c _ _ follows rest =>
                have := rest.first_le
                have := (read content).2
                have := follows.2
                omega
      · exact .inr ⟨a, List.mem_cons_self, b, List.mem_cons_self, clash⟩
  | cons c as ih =>
      intro bs left right link
      rcases same link with content | clash
      · cases left with
        | next _ _ _ follows rest =>
            cases right with
            | one _ rank =>
                have := rest.first_le
                have := (read content).2
                have := follows.2
                omega
            | next d _ ds follows' rest' =>
                have prior : naming.link c = naming.link d := by
                  rw [← follows.1, ← follows'.1, (read content).1]
                rcases ih rest rest' prior with agree | ⟨e, he, f, hf, clash⟩
                · exact .inl (by rw [List.map_cons, content, agree]; rfl)
                · exact .inr ⟨e, List.mem_cons_of_mem _ he, f, List.mem_cons_of_mem _ hf, clash⟩
      · exact .inr ⟨a, List.mem_cons_self, b, List.mem_cons_self, clash⟩

/-- Two lists of records that start at one rank and end in one link hold the same
records, or two of them clash. -/
theorem determines {Clash : α → α → Prop}
    (same : ∀ {a b}, naming.link a = naming.link b →
      naming.content a = naming.content b ∨ Clash a b)
    (read : ∀ {a b}, naming.content a = naming.content b →
      naming.prior a = naming.prior b ∧ naming.rank a = naming.rank b)
    {as bs : List α} (chain : as.IsChain naming.Follows) (chain' : bs.IsChain naming.Follows)
    (start : as.head?.map naming.rank = some first) (start' : bs.head?.map naming.rank = some first)
    (last : as.getLast?.map naming.link = bs.getLast?.map naming.link) :
    as.map naming.content = bs.map naming.content ∨ ∃ a ∈ as, ∃ b ∈ bs, Clash a b := by
  cases as with
  | nil => cases start
  | cons a as =>
      cases bs with
      | nil => cases start'
      | cons b bs =>
          have left := lineage_reverse chain (Option.some.inj start)
          have right := lineage_reverse chain' (Option.some.inj start')
          rw [← List.head?_reverse, ← List.head?_reverse] at last
          obtain ⟨c, cs, hc⟩ := List.exists_cons_of_ne_nil
            (List.reverse_ne_nil_iff.mpr (List.cons_ne_nil a as))
          obtain ⟨d, ds, hd⟩ := List.exists_cons_of_ne_nil
            (List.reverse_ne_nil_iff.mpr (List.cons_ne_nil b bs))
          rw [hc] at left last
          rw [hd] at right last
          rcases left.determines same read right (Option.some.inj last) with agree |
            ⟨e, he, f, hf, clash⟩
          · rw [← hc, ← hd, List.map_reverse, List.map_reverse] at agree
            exact .inl (List.reverse_injective agree)
          · rw [← hc, List.mem_reverse] at he
            rw [← hd, List.mem_reverse] at hf
            exact .inr ⟨e, he, f, hf, clash⟩

end Naming

end Wire.Linked
