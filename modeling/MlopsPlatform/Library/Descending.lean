import Mathlib.Data.List.Pairwise
import Mathlib.Data.List.Sort

/-!
# Queries that order their rows

`ORDER BY key DESC` says in which order rows with different keys come, and nothing about rows with
equal ones: two such queries may return the same rows in different orders. A `Descending` is one way
to answer them. What every way has in common are the facts about its first row (`LIMIT 1`) and its
first `n` rows (`LIMIT n`); `Descending.prefer` is the way that puts a given row first among those
with its key.
-/

universe u v w

/-- A way to put rows in descending order of a key. -/
structure Descending {α : Type u} {κ : Type v} [LinearOrder κ] (key : α → κ) where
  /-- The rows in their order. -/
  sort : List α → List α
  /-- No row is lost, and none is repeated. -/
  perm : ∀ rows, (sort rows).Perm rows
  /-- The keys do not go up. -/
  sorted : ∀ rows, (sort rows).Pairwise fun a b => key b ≤ key a

namespace Descending

variable {α : Type u} {κ : Type v} [LinearOrder κ] {key : α → κ}

/-- `ORDER BY key DESC LIMIT 1`. -/
def first (d : Descending key) (rows : List α) : Option α := (d.sort rows).head?

/-- `ORDER BY key DESC LIMIT n`. -/
def top (d : Descending key) (n : ℕ) (rows : List α) : List α := (d.sort rows).take n

variable {d : Descending key} {rows : List α}

/-- The rows in their order are the rows. -/
theorem mem_sort {a : α} : a ∈ d.sort rows ↔ a ∈ rows := (d.perm rows).mem_iff

/-- There is a first row unless there are none. -/
theorem first_eq_none : d.first rows = none ↔ rows = [] := by
  rw [first, List.head?_eq_none_iff]
  constructor
  · intro h
    exact List.perm_nil.mp (h ▸ (d.perm rows).symm)
  · rintro rfl
    exact List.perm_nil.mp (d.perm [])

/-- The first row is one of the rows, and no row has a greater key. -/
theorem first_spec {a : α} (h : d.first rows = some a) :
    a ∈ rows ∧ ∀ b ∈ rows, key b ≤ key a := by
  obtain ⟨rest, hsort⟩ := List.head?_eq_some_iff.mp h
  have hsorted := d.sorted rows
  rw [hsort] at hsorted
  refine ⟨mem_sort.mp (hsort ▸ List.mem_cons_self), fun b hb => ?_⟩
  have hmem : b ∈ a :: rest := hsort ▸ mem_sort.mpr hb
  rcases List.mem_cons.mp hmem with rfl | hrest
  · exact le_rfl
  · exact List.rel_of_pairwise_cons hsorted hrest

/-- Two ways to answer a query begin with rows of the same key. -/
theorem key_first (d d' : Descending key) (rows : List α) :
    (d.first rows).map key = (d'.first rows).map key := by
  cases h : d.first rows with
  | none =>
    obtain rfl := first_eq_none.mp h
    rw [first_eq_none.mpr rfl]
  | some a =>
    cases h' : d'.first rows with
    | none =>
      obtain rfl := first_eq_none.mp h'
      rw [first_eq_none.mpr rfl] at h
      exact absurd h (by simp)
    | some b =>
      obtain ⟨ha, hmaxa⟩ := first_spec h
      obtain ⟨hb, hmaxb⟩ := first_spec h'
      exact congrArg some (le_antisymm (hmaxb a ha) (hmaxa b hb))

/-- There are as many first rows as are asked for, if there are so many. -/
theorem length_top (n : ℕ) : (d.top n rows).length = min n rows.length := by
  rw [top, List.length_take, (d.perm rows).length_eq]

/-- The first rows are among the rows. -/
theorem mem_of_mem_top {n : ℕ} {a : α} (h : a ∈ d.top n rows) : a ∈ rows :=
  mem_sort.mp (List.mem_of_mem_take h)

/-- The first rows are in descending order. -/
theorem sorted_top (n : ℕ) : (d.top n rows).Pairwise fun a b => key b ≤ key a :=
  (d.sorted rows).sublist (List.take_sublist n _)

/-- The first rows of distinct rows are distinct. -/
theorem nodup_top (h : rows.Nodup) (n : ℕ) : (d.top n rows).Nodup :=
  ((d.perm rows).nodup_iff.mpr h).sublist (List.take_sublist n _)

/-- A row that is not among the first ones has no greater key than any of them. -/
theorem le_of_not_mem_top {n : ℕ} {a b : α} (ha : a ∈ rows) (hout : a ∉ d.top n rows)
    (hb : b ∈ d.top n rows) : key a ≤ key b := by
  have hsorted := d.sorted rows
  rw [← List.take_append_drop n (d.sort rows), List.pairwise_append] at hsorted
  refine hsorted.2.2 b hb a ?_
  have hmem : a ∈ (d.sort rows).take n ++ (d.sort rows).drop n :=
    (List.take_append_drop n (d.sort rows)).symm ▸ mem_sort.mpr ha
  exact (List.mem_append.mp hmem).resolve_left hout

/-- The first of the first rows has the key of the first row. -/
theorem key_head?_top (d d' : Descending key) {n : ℕ} (hn : 1 ≤ n) (rows : List α) :
    (d.top n rows).head?.map key = (d'.first rows).map key := by
  rw [← key_first d d' rows, top, first, List.head?_take, if_neg (by omega)]

/-! ## A row that comes first -/

/-- In descending order of a key, where the rows that `p` holds of come before others with their
key. -/
def Before (key : α → κ) (p : α → Bool) (a b : α) : Prop :=
  key b < key a ∨ (key b = key a ∧ (p a = true ∨ p b = false))

instance (key : α → κ) (p : α → Bool) : DecidableRel (Before key p) := fun _ _ =>
  inferInstanceAs (Decidable (_ ∨ (_ ∧ (_ ∨ _))))

instance (key : α → κ) (p : α → Bool) : Std.Total (Before key p) := ⟨fun a b => by
  rcases lt_trichotomy (key a) (key b) with h | h | h
  · exact Or.inr (Or.inl h)
  · cases hp : p a with
    | false => exact Or.inr (Or.inr ⟨h, Or.inr hp⟩)
    | true => exact Or.inl (Or.inr ⟨h.symm, Or.inl hp⟩)
  · exact Or.inl (Or.inl h)⟩

instance (key : α → κ) (p : α → Bool) : IsTrans α (Before key p) := ⟨fun a b c hab hbc => by
  rcases hab with hab | ⟨hab, hp⟩
  · rcases hbc with hbc | ⟨hbc, -⟩
    · exact Or.inl (hbc.trans hab)
    · exact Or.inl (hbc.trans_lt hab)
  · rcases hbc with hbc | ⟨hbc, hq⟩
    · exact Or.inl (hbc.trans_eq hab)
    · refine Or.inr ⟨hbc.trans hab, ?_⟩
      rcases hp with hp | hp
      · exact Or.inl hp
      · exact Or.inr (hq.resolve_left (by simp [hp]))⟩

/-- Put rows in descending order, and those that `p` holds of before others with their key. -/
def prefer (key : α → κ) (p : α → Bool) : Descending key where
  sort rows := rows.insertionSort (Before key p)
  perm rows := List.perm_insertionSort _ rows
  sorted rows := (List.pairwise_insertionSort (Before key p) rows).imp fun h =>
    h.elim le_of_lt fun h => h.1.le

/-- Of the rows with the greatest key, the only one that is preferred comes first. -/
theorem first_prefer {p : α → Bool} {a : α} (ha : a ∈ rows) (hmax : ∀ b ∈ rows, key b ≤ key a)
    (hp : p a = true) (honly : ∀ b ∈ rows, p b = true → b = a) :
    (prefer key p).first rows = some a := by
  cases hfirst : (prefer key p).first rows with
  | none =>
    rw [first_eq_none] at hfirst
    exact absurd ha (hfirst ▸ List.not_mem_nil)
  | some b =>
    obtain ⟨hb, hmaxb⟩ := first_spec hfirst
    obtain ⟨rest, hsort⟩ := List.head?_eq_some_iff.mp hfirst
    have hmem : a ∈ b :: rest := hsort ▸ mem_sort.mpr ha
    rcases List.mem_cons.mp hmem with rfl | hrest
    · rfl
    · -- What comes first is preferred too, so it is the same row.
      have hsorted := List.pairwise_insertionSort (Before key p) rows
      have hbefore : Before key p b a := by
        refine List.rel_of_pairwise_cons (l := rest) ?_ hrest
        exact hsort ▸ hsorted
      rcases hbefore with hlt | ⟨-, hpb | hpa⟩
      · exact absurd (hmax b hb) (not_le.mpr hlt)
      · rw [honly b hb hpb]
      · exact absurd hp (by simp [hpa])

end Descending

/-- A way to put rows in ascending order of a key. -/
abbrev Ascending {α : Type u} {κ : Type v} [LinearOrder κ] (key : α → κ) :=
  Descending fun a => OrderDual.toDual (key a)

namespace Ascending

variable {α : Type u} {κ : Type v} {ι : Type w} [LinearOrder κ] [LinearOrder ι]
variable {key : α → κ} {f : α → ι} {rows : List α}

/-- What holds of rows in the order in which they are listed holds of any two of them. -/
theorem of_pairwise {R : α → α → Prop} (h : rows.Pairwise fun a b => f a < f b ∧ R a b) {a b : α}
    (ha : a ∈ rows) (hb : b ∈ rows) : (f a < f b ∧ R a b) ∨ a = b ∨ (f b < f a ∧ R b a) := by
  by_cases hab : a = b
  · exact Or.inr (Or.inl hab)
  · have : Std.Symm fun a b => (f a < f b ∧ R a b) ∨ (f b < f a ∧ R b a) := ⟨fun _ _ => Or.symm⟩
    have hall : rows.Pairwise fun a b => (f a < f b ∧ R a b) ∨ (f b < f a ∧ R b a) :=
      h.imp Or.inl
    exact (hall.forall ha hb hab).imp_right Or.inr

/-- Rows come in the order of `f`, whichever way they are put in ascending order of a key, exactly
if the key goes up with `f`. -/
theorem pairwise_sort_iff (h : rows.Pairwise fun a b => f a < f b) :
    (∀ order : Ascending key, (order.sort rows).Pairwise fun a b => f a < f b) ↔
      ∀ a ∈ rows, ∀ b ∈ rows, f a < f b → key a < key b := by
  constructor
  · intro hall a ha b hb hab
    -- Of rows with the same key, let `b` come first.
    have hsort := (Descending.perm _ rows).eq_of_pairwise
      (fun x y _ _ hxy hyx => absurd hxy (lt_asymm hyx))
      (hall (Descending.prefer _ fun x => decide (f x = f b))) h
    have hbefore := List.pairwise_insertionSort
      (Descending.Before (fun a => OrderDual.toDual (key a)) fun x => decide (f x = f b)) rows
    rw [show rows.insertionSort _ = rows from hsort] at hbefore
    rcases of_pairwise (h.and hbefore) ha hb with ⟨-, hlt | ⟨-, hpa | hpb⟩⟩ | rfl | ⟨hba, -⟩
    · exact hlt
    · exact absurd (of_decide_eq_true hpa) hab.ne
    · exact absurd rfl (of_decide_eq_false hpb)
    · exact absurd hab (lt_irrefl _)
    · exact absurd hab (lt_asymm hba)
  · intro hkey order
    have hsort : order.sort rows = rows := by
      refine (order.perm rows).eq_of_pairwise ?_ (order.sorted rows)
        (h.imp_of_mem fun ha hb hab => le_of_lt (hkey _ ha _ hb hab))
      intro a b ha hb hab hba
      rcases of_pairwise (h.imp fun hab => ⟨hab, trivial⟩) (Descending.mem_sort.mp ha) hb with
        ⟨hlt, -⟩ | rfl | ⟨hlt, -⟩
      · exact absurd (hkey _ (Descending.mem_sort.mp ha) _ hb hlt) (not_lt.mpr hba)
      · rfl
      · exact absurd (hkey _ hb _ (Descending.mem_sort.mp ha) hlt) (not_lt.mpr hab)
    rw [hsort]
    exact h

end Ascending
