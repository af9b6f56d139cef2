import Mathlib.Data.List.Basic
import Mathlib.Data.Nat.Basic

/-!
# Tables with time-ordered primary keys

A table is a list of rows in the order of their keys, with the next key that its key source will
hand out. Both facts are fields, so a primary key names at most one row of any table that can be
built, `ORDER BY key LIMIT 1` is the first matching row, and `ORDER BY key DESC LIMIT 1` is the
last.
-/

universe u

/-- Rows in the order of their keys, and the next key, which is above them all. -/
structure Table {α : Type u} (key : α → ℕ) where
  /-- The rows, in the order in which they were inserted. -/
  rows : List α
  /-- The key of the next row to be inserted. -/
  next : ℕ
  /-- The rows are in the order of their keys. -/
  sorted : rows.Pairwise fun a b => key a < key b
  /-- Every key was handed out before the next one. -/
  lt_next : ∀ a ∈ rows, key a < next

namespace Table

variable {α : Type u} {key : α → ℕ}

/-- The table without rows. -/
def empty : Table key := ⟨[], 1, List.Pairwise.nil, by simp⟩

instance : Membership α (Table key) := ⟨fun t a => a ∈ t.rows⟩

/-- Membership in a table is membership in its list of rows. -/
theorem mem_rows {t : Table key} {a : α} : a ∈ t.rows ↔ a ∈ t := Iff.rfl

/-- The empty table has no rows. -/
@[simp]
theorem not_mem_empty (a : α) : a ∉ (empty : Table key) := by
  rw [← mem_rows]
  simp [empty]

/-- Two rows with the same key are the same row. -/
theorem eq_of_key_eq (t : Table key) {a b : α} (ha : a ∈ t) (hb : b ∈ t) (h : key a = key b) :
    a = b := by
  obtain ⟨i, hi, rfl⟩ := List.mem_iff_getElem.mp ha
  obtain ⟨j, hj, rfl⟩ := List.mem_iff_getElem.mp hb
  -- Of two places the later one has the greater key, so there is one place only.
  rcases lt_trichotomy i j with hij | rfl | hij
  · have := List.pairwise_iff_getElem.mp t.sorted i j hi hj hij
    omega
  · rfl
  · have := List.pairwise_iff_getElem.mp t.sorted j i hj hi hij
    omega

/-! ## Lookup by key -/

/-- The row with a key, if there is one. -/
def get? (t : Table key) (k : ℕ) : Option α := t.rows.find? fun a => key a = k

/-- A lookup returns the row with that key. -/
theorem get?_eq_some {t : Table key} {k : ℕ} {a : α} : t.get? k = some a ↔ a ∈ t ∧ key a = k := by
  constructor
  · intro h
    exact ⟨List.mem_of_find?_eq_some h, by simpa using List.find?_some h⟩
  · rintro ⟨ha, hk⟩
    -- The lookup finds a row with this key, and there is only one.
    have hsome : (t.get? k).isSome := by
      rw [get?, List.find?_isSome]
      exact ⟨a, ha, by simpa using hk⟩
    obtain ⟨b, hb⟩ := Option.isSome_iff_exists.mp hsome
    have hkb : key b = k := by simpa using List.find?_some hb
    rw [hb, t.eq_of_key_eq (List.mem_of_find?_eq_some hb) ha (by rw [hkb, hk])]

/-- A stored row is the one that its own key finds. -/
theorem get?_key {t : Table key} {a : α} (h : a ∈ t) : t.get? (key a) = some a :=
  get?_eq_some.mpr ⟨h, rfl⟩

/-- A lookup that finds nothing says that no row has that key. -/
theorem get?_eq_none {t : Table key} {k : ℕ} : t.get? k = none ↔ ∀ a ∈ t, key a ≠ k := by
  simp [get?, mem_rows]

/-! ## Writing -/

/-- A row that has every column but its key, which the insert draws. -/
abbrev Draft (key : α → ℕ) := { mk : ℕ → α // ∀ n, key (mk n) = n }

/-- Insert a draft under the next key. -/
def insert (t : Table key) (d : Draft key) : Table key where
  rows := t.rows ++ [d.1 t.next]
  next := t.next + 1
  sorted := by
    rw [List.pairwise_append]
    refine ⟨t.sorted, List.pairwise_singleton _ _, ?_⟩
    intro a ha b hb
    rw [List.mem_singleton.mp hb, d.2]
    exact t.lt_next a ha
  lt_next := by
    intro a ha
    rcases List.mem_append.mp ha with ha | ha
    · have hlt := t.lt_next a ha
      omega
    · rw [List.mem_singleton.mp ha, d.2]
      omega

/-- Rewrite every row by a function that keeps its key. -/
def mapRows (t : Table key) (f : α → α) (hf : ∀ a, key (f a) = key a) : Table key where
  rows := t.rows.map f
  next := t.next
  sorted := by
    rw [List.pairwise_map]
    exact t.sorted.imp fun h => by rw [hf, hf]; exact h
  lt_next := by
    intro a ha
    obtain ⟨b, hb, rfl⟩ := List.mem_map.mp ha
    rw [hf]
    exact t.lt_next b hb

/-- Tables with the same rows and the same next key are the same. -/
theorem ext_rows {t t' : Table key} (hrows : t.rows = t'.rows) (hnext : t.next = t'.next) :
    t = t' := by
  cases t
  cases t'
  obtain rfl := hrows
  obtain rfl := hnext
  rfl

/-- Rewrite a draft by a function that keeps its key. -/
def Draft.map (d : Draft key) (f : α → α) (hf : ∀ a, key (f a) = key a) : Draft key :=
  ⟨fun n => f (d.1 n), fun n => (hf (d.1 n)).trans (d.2 n)⟩

/-- A rewrite after an insert is an insert of the rewritten draft after the rewrite. -/
theorem mapRows_insert {t : Table key} {d : Draft key} {f : α → α}
    {hf : ∀ a, key (f a) = key a} :
    (t.insert d).mapRows f hf = (t.mapRows f hf).insert (d.map f hf) := by
  refine ext_rows ?_ rfl
  simp [insert, mapRows, Draft.map]

/-- Rewrites that agree on the stored rows give the same table. -/
theorem mapRows_comm {t : Table key} {f g f' g' : α → α} {hf : ∀ a, key (f a) = key a}
    {hg : ∀ a, key (g a) = key a} {hf' : ∀ a, key (f' a) = key a} {hg' : ∀ a, key (g' a) = key a}
    (h : ∀ a ∈ t, g (f a) = g' (f' a)) :
    (t.mapRows f hf).mapRows g hg = (t.mapRows f' hf').mapRows g' hg' := by
  refine ext_rows ?_ rfl
  simp only [mapRows, List.map_map]
  exact List.map_congr_left h

/-- The key of the last row. -/
def lastKey (t : Table key) : ℕ := (t.rows.getLast?.map key).getD 0

/-- The last row after an insert is the new one. -/
@[simp]
theorem lastKey_insert {t : Table key} {d : Draft key} : (t.insert d).lastKey = t.next := by
  simp [lastKey, insert, d.2]

/-- Insert drafts one after the other. -/
def insertAll (t : Table key) (ds : List (Draft key)) : Table key := ds.foldl insert t

/-- Inserts are done one after the other. -/
theorem insertAll_append {t : Table key} {ds es : List (Draft key)} :
    t.insertAll (ds ++ es) = (t.insertAll ds).insertAll es := List.foldl_append

/-- Each insert takes a key. -/
theorem next_insertAll {t : Table key} {ds : List (Draft key)} :
    (t.insertAll ds).next = t.next + ds.length := by
  induction ds generalizing t with
  | nil => rfl
  | cons d ds ih =>
    have hrest : (t.insertAll (d :: ds)).next = t.next + 1 + ds.length := ih (t := t.insert d)
    rw [hrest, List.length_cons]
    omega

/-- Each insert adds a row. -/
theorem length_insertAll {t : Table key} {ds : List (Draft key)} :
    (t.insertAll ds).rows.length = t.rows.length + ds.length := by
  induction ds generalizing t with
  | nil => rfl
  | cons d ds ih =>
    have hrest : (t.insertAll (d :: ds)).rows.length =
        (t.rows ++ [d.1 t.next]).length + ds.length := ih (t := t.insert d)
    rw [hrest, List.length_append, List.length_singleton, List.length_cons]
    omega

/-- The old rows come first. -/
theorem prefix_insertAll {t : Table key} {ds : List (Draft key)} :
    t.rows <+: (t.insertAll ds).rows := by
  induction ds generalizing t with
  | nil => exact List.prefix_rfl
  | cons d ds ih => exact (List.prefix_append t.rows _).trans (ih (t := t.insert d))

/-- A column of the rows after an insert, where it does not depend on the key. -/
theorem map_rows_insertAll {β : Type u} {t : Table key} {ds : List (Draft key)} {f : α → β}
    (hf : ∀ d ∈ ds, ∀ n m, f (d.1 n) = f (d.1 m)) :
    (t.insertAll ds).rows.map f = t.rows.map f ++ ds.map fun d => f (d.1 0) := by
  induction ds generalizing t with
  | nil => exact (List.append_nil _).symm
  | cons d ds ih =>
    have hrest : (t.insertAll (d :: ds)).rows.map f =
        (t.insert d).rows.map f ++ ds.map fun d => f (d.1 0) :=
      ih fun e he => hf e (List.mem_cons_of_mem _ he)
    rw [hrest, insert, List.map_append, List.append_assoc, List.map_cons]
    simp only [List.map_cons, List.map_nil, List.singleton_append]
    rw [hf d List.mem_cons_self t.next 0]

/-- A rewrite after inserts is inserts of the rewritten drafts after the rewrite. -/
theorem mapRows_insertAll {t : Table key} {ds : List (Draft key)} {f : α → α}
    {hf : ∀ a, key (f a) = key a} :
    (t.insertAll ds).mapRows f hf = (t.mapRows f hf).insertAll (ds.map fun d => d.map f hf) := by
  induction ds generalizing t with
  | nil => rfl
  | cons d ds ih =>
    have hrest := ih (t := t.insert d)
    rw [mapRows_insert] at hrest
    exact hrest

/-- The rows after an insert are the old rows and the new one. -/
theorem mem_insert {t : Table key} {d : Draft key} {a : α} :
    a ∈ t.insert d ↔ a ∈ t ∨ a = d.1 t.next := by
  simp [← mem_rows, insert]

/-- The rows after a rewrite are the rewritten rows. -/
theorem mem_mapRows {t : Table key} {f : α → α} {hf : ∀ a, key (f a) = key a} {b : α} :
    b ∈ t.mapRows f hf ↔ ∃ a ∈ t, f a = b := by
  simp [← mem_rows, mapRows]

/-- A row stays in the table when drafts are inserted. -/
theorem mem_insertAll_of_mem {a : α} {ds : List (Draft key)} {t : Table key} (h : a ∈ t) :
    a ∈ t.insertAll ds := by
  induction ds generalizing t with
  | nil => exact h
  | cons d ds ih => exact ih (mem_insert.mpr (Or.inl h))

/-- A row after an insert of drafts is an old row or comes from a draft, under a key that the table
had not handed out before. -/
theorem mem_insertAll {a : α} {ds : List (Draft key)} {t : Table key} (h : a ∈ t.insertAll ds) :
    a ∈ t ∨ ∃ d ∈ ds, ∃ n, t.next ≤ n ∧ a = d.1 n := by
  induction ds generalizing t with
  | nil => exact Or.inl h
  | cons d ds ih =>
    -- The head goes under the key `t.next`, and the later drafts under greater ones.
    rcases ih h with h | ⟨e, he, n, hn, rfl⟩
    · rcases mem_insert.mp h with h | rfl
      · exact Or.inl h
      · exact Or.inr ⟨d, List.mem_cons_self, t.next, le_rfl, rfl⟩
    · have hle : t.next + 1 ≤ n := hn
      exact Or.inr ⟨e, List.mem_cons_of_mem _ he, n, by omega, rfl⟩

/-- A row after inserts is an old one, or that of a draft under the key that was its turn. -/
theorem mem_insertAll_iff {a : α} {ds : List (Draft key)} {t : Table key} :
    a ∈ t.insertAll ds ↔
      a ∈ t ∨ ∃ (i : ℕ) (d : Draft key), ds[i]? = some d ∧ a = d.1 (t.next + i) := by
  induction ds generalizing t with
  | nil => simp [insertAll]
  | cons d ds ih =>
    have hrest : a ∈ t.insertAll (d :: ds) ↔
        a ∈ t.insert d ∨ ∃ (i : ℕ) (e : Draft key), ds[i]? = some e ∧ a = e.1 (t.next + 1 + i) := ih
    rw [hrest, mem_insert, or_assoc]
    refine or_congr_right ⟨?_, ?_⟩
    · rintro (rfl | ⟨i, e, he, rfl⟩)
      · exact ⟨0, d, rfl, rfl⟩
      · exact ⟨i + 1, e, he, by rw [Nat.add_right_comm, Nat.add_assoc]⟩
    · rintro ⟨i, e, he, rfl⟩
      cases i with
      | zero =>
        obtain rfl := Option.some.inj he
        exact Or.inl rfl
      | succ i => exact Or.inr ⟨i, e, he, by rw [Nat.add_right_comm, Nat.add_assoc]⟩

/-- The key of a stored row was handed out before the next one. -/
theorem key_lt_next {t : Table key} {a : α} (h : a ∈ t) : key a < t.next := t.lt_next a h

/-- An insert counts a new row in if it matches. -/
theorem countP_insert {t : Table key} {d : Draft key} {p : α → Bool} :
    (t.insert d).rows.countP p = t.rows.countP p + if p (d.1 t.next) = true then 1 else 0 := by
  rw [insert, List.countP_append, List.countP_singleton]

/-- Drafts that do not match, under whichever key, are not counted in. -/
theorem countP_insertAll {ds : List (Draft key)} {p : α → Bool} {t : Table key}
    (h : ∀ d ∈ ds, ∀ n, p (d.1 n) = false) : (t.insertAll ds).rows.countP p = t.rows.countP p := by
  induction ds generalizing t with
  | nil => rfl
  | cons d ds ih =>
    have hrest : (t.insertAll (d :: ds)).rows.countP p = (t.insert d).rows.countP p :=
      ih fun e he => h e (List.mem_cons_of_mem _ he)
    rw [hrest, countP_insert, h d List.mem_cons_self]
    rfl

/-- A lookup that found a row finds it again after an insert. -/
theorem get?_insert_of_eq_some {t : Table key} {d : Draft key} {k : ℕ} {a : α}
    (h : t.get? k = some a) : (t.insert d).get? k = some a := by
  obtain ⟨ha, hka⟩ := get?_eq_some.mp h
  exact get?_eq_some.mpr ⟨mem_insert.mpr (Or.inl ha), hka⟩

/-- A lookup after a rewrite returns the rewritten row. -/
theorem get?_mapRows {t : Table key} {f : α → α} {hf : ∀ a, key (f a) = key a} (k : ℕ) :
    (t.mapRows f hf).get? k = (t.get? k).map f := by
  cases h : t.get? k with
  | none =>
    refine get?_eq_none.mpr fun b hb hk => ?_
    obtain ⟨a, ha, rfl⟩ := mem_mapRows.mp hb
    exact get?_eq_none.mp h a ha (by rw [← hf, hk])
  | some a =>
    obtain ⟨ha, hk⟩ := get?_eq_some.mp h
    exact get?_eq_some.mpr ⟨mem_mapRows.mpr ⟨a, ha, rfl⟩, by rw [hf, hk]⟩

/-! ## Queries -/

/-- `WHERE p ORDER BY key LIMIT 1`. -/
def first? (t : Table key) (p : α → Bool) : Option α := t.rows.find? p

/-- `WHERE p ORDER BY key DESC LIMIT 1`. -/
def last? (t : Table key) (p : α → Bool) : Option α := t.rows.reverse.find? p

/-- `WHERE p`, in the order of the keys. -/
def select (t : Table key) (p : α → Bool) : List α := t.rows.filter p

/-- The rows of a query are the matching rows. -/
theorem mem_select {t : Table key} {p : α → Bool} {a : α} :
    a ∈ t.select p ↔ a ∈ t ∧ p a = true := by
  simp [select, mem_rows]

/-- No row is repeated. -/
theorem nodup_rows (t : Table key) : t.rows.Nodup := by
  refine t.sorted.imp fun {a b} hlt => ?_
  rintro rfl
  exact absurd hlt (Nat.lt_irrefl _)

/-- No row of a query is repeated. -/
theorem nodup_select (t : Table key) (p : α → Bool) : (t.select p).Nodup :=
  t.nodup_rows.filter p

/-- At most one row has a key. -/
theorem select_key {t : Table key} (k : ℕ) :
    (t.select fun a => k = key a) = (t.get? k).toList := by
  have hsorted : (t.select fun a => k = key a).Pairwise fun a b => key a < key b :=
    t.sorted.filter _
  have hkey : ∀ a ∈ t.select fun a => k = key a, k = key a := fun a ha =>
    of_decide_eq_true (mem_select.mp ha).2
  have hmem : ∀ a, a ∈ (t.select fun a => k = key a) ↔ t.get? k = some a := by
    intro a
    rw [mem_select, get?_eq_some, decide_eq_true_eq, eq_comm]
  rcases hrows : t.select fun a => k = key a with _ | ⟨a, _ | ⟨b, rest⟩⟩
  · rw [hrows] at hmem
    cases hget : t.get? k with
    | none => rfl
    | some a => exact absurd ((hmem a).mpr hget) List.not_mem_nil
  · rw [hrows] at hmem
    rw [(hmem a).mp List.mem_cons_self]
    rfl
  · -- Of two rows the second has a greater key.
    rw [hrows] at hsorted hkey
    have hlt := List.rel_of_pairwise_cons hsorted List.mem_cons_self
    have ha := hkey a List.mem_cons_self
    have hb := hkey b (List.mem_cons_of_mem _ List.mem_cons_self)
    omega

/-- A new row is the last one of the queries that it matches. -/
theorem select_insert {t : Table key} {d : Draft key} {p : α → Bool} :
    (t.insert d).select p = t.select p ++ if p (d.1 t.next) then [d.1 t.next] else [] := by
  rw [select, insert, List.filter_append, select, List.filter_singleton]
  cases p (d.1 t.next) <;> rfl

/-- New rows that do not match, under whichever key, are not in the query. -/
theorem select_insertAll {ds : List (Draft key)} {p : α → Bool} {t : Table key}
    (h : ∀ d ∈ ds, ∀ n, p (d.1 n) = false) : (t.insertAll ds).select p = t.select p := by
  induction ds generalizing t with
  | nil => rfl
  | cons d ds ih =>
    have hrest : (t.insertAll (d :: ds)).select p = (t.insert d).select p :=
      ih fun e he => h e (List.mem_cons_of_mem _ he)
    rw [hrest, select_insert, h d List.mem_cons_self]
    exact List.append_nil _

/-- A column of the rows of a query after inserts, where neither depends on the key. -/
theorem map_select_insertAll {β : Type u} {ds : List (Draft key)} {p : α → Bool} {f : α → β}
    {t : Table key} (hp : ∀ d ∈ ds, ∀ n m, p (d.1 n) = p (d.1 m))
    (hf : ∀ d ∈ ds, ∀ n m, f (d.1 n) = f (d.1 m)) :
    ((t.insertAll ds).select p).map f =
      (t.select p).map f ++ (ds.filter fun d => p (d.1 0)).map fun d => f (d.1 0) := by
  induction ds generalizing t with
  | nil => exact (List.append_nil _).symm
  | cons d ds ih =>
    have hrest : ((t.insertAll (d :: ds)).select p).map f =
        ((t.insert d).select p).map f ++ (ds.filter fun d => p (d.1 0)).map fun d => f (d.1 0) :=
      ih (fun e he => hp e (List.mem_cons_of_mem _ he))
        fun e he => hf e (List.mem_cons_of_mem _ he)
    rw [hrest, select_insert, List.map_append, List.append_assoc, List.filter_cons,
      hp d List.mem_cons_self t.next 0]
    cases p (d.1 0) with
    | false => simp
    | true => simp [hf d List.mem_cons_self t.next 0]

/-- The first matching row is the matching row with the least key. -/
theorem first?_eq_some {t : Table key} {p : α → Bool} {a : α} :
    t.first? p = some a ↔ a ∈ t ∧ p a = true ∧ ∀ b ∈ t, p b = true → key a ≤ key b := by
  constructor
  · intro h
    refine ⟨List.mem_of_find?_eq_some h, List.find?_some h, fun b hb hpb => ?_⟩
    -- Nothing before the row that is found matches, and what comes after it has a greater key.
    obtain ⟨-, as, bs, hrows, has⟩ := List.find?_eq_some_iff_append.mp h
    have hsorted := t.sorted
    rw [← mem_rows, hrows] at hb
    rw [hrows, List.pairwise_append] at hsorted
    rcases List.mem_append.mp hb with hb | hb
    · simpa [hpb] using has b hb
    · rcases List.mem_cons.mp hb with rfl | hb
      · exact le_rfl
      · have hlt := List.rel_of_pairwise_cons hsorted.2.1 hb
        omega
  · rintro ⟨ha, hpa, hmin⟩
    -- Some row is found. It does not come before `a`, which matches, and not after it either.
    have hsome : (t.first? p).isSome := List.find?_isSome.mpr ⟨a, ha, hpa⟩
    obtain ⟨b, hb⟩ := Option.isSome_iff_exists.mp hsome
    obtain ⟨-, as, bs, hrows, has⟩ := List.find?_eq_some_iff_append.mp hb
    have hbm : b ∈ t := List.mem_of_find?_eq_some hb
    have hsorted := t.sorted
    have ha' : a ∈ as ++ b :: bs := by rw [← hrows]; exact ha
    rw [hrows, List.pairwise_append] at hsorted
    rw [hb]
    rcases List.mem_append.mp ha' with h | h
    · exact absurd hpa (by simpa using has a h)
    · rcases List.mem_cons.mp h with rfl | h
      · rfl
      · have hlt := List.rel_of_pairwise_cons hsorted.2.1 h
        have hle := hmin b hbm (List.find?_some hb)
        omega

/-- No row is returned exactly when no row matches. -/
theorem first?_eq_none {t : Table key} {p : α → Bool} :
    t.first? p = none ↔ ∀ a ∈ t, p a = false := by
  simp [first?, mem_rows]

/-- The last matching row is the matching row with the greatest key. -/
theorem last?_eq_some {t : Table key} {p : α → Bool} {a : α} :
    t.last? p = some a ↔ a ∈ t ∧ p a = true ∧ ∀ b ∈ t, p b = true → key b ≤ key a := by
  -- The first match of the reversed rows, whose keys go down.
  have hrev : t.rows.reverse.Pairwise fun a b => key b < key a :=
    List.pairwise_reverse.mpr t.sorted
  have hle : ∀ {c}, t.last? p = some c → ∀ b ∈ t, p b = true → key b ≤ key c := by
    intro c h b hb hpb
    obtain ⟨-, as, bs, hrows, has⟩ := List.find?_eq_some_iff_append.mp h
    have hb' : b ∈ as ++ c :: bs := by rw [← hrows]; exact List.mem_reverse.mpr hb
    rw [hrows, List.pairwise_append] at hrev
    rcases List.mem_append.mp hb' with hb' | hb'
    · simpa [hpb] using has b hb'
    · rcases List.mem_cons.mp hb' with rfl | hb'
      · exact le_rfl
      · have hlt := List.rel_of_pairwise_cons hrev.2.1 hb'
        omega
  have hmem : ∀ {c}, t.last? p = some c → c ∈ t := fun h =>
    List.mem_reverse.mp (List.mem_of_find?_eq_some h)
  constructor
  · intro h
    exact ⟨hmem h, List.find?_some h, hle h⟩
  · rintro ⟨ha, hpa, hmax⟩
    have hsome : (t.last? p).isSome :=
      List.find?_isSome.mpr ⟨a, List.mem_reverse.mpr ha, hpa⟩
    obtain ⟨b, hb⟩ := Option.isSome_iff_exists.mp hsome
    have h1 := hle hb a ha hpa
    have h2 := hmax b (hmem hb) (List.find?_some hb)
    rw [hb, t.eq_of_key_eq (hmem hb) ha (by omega)]

/-- No last row is returned exactly when no row matches. -/
theorem last?_eq_none {t : Table key} {p : α → Bool} :
    t.last? p = none ↔ ∀ a ∈ t, p a = false := by
  simp [last?, mem_rows]

/-- Drafts that do not match, under whichever key, do not change the last matching row. -/
theorem last?_insertAll {ds : List (Draft key)} {p : α → Bool} {t : Table key}
    (h : ∀ d ∈ ds, ∀ n, p (d.1 n) = false) : (t.insertAll ds).last? p = t.last? p := by
  -- The matching rows are the same.
  have hold : ∀ a ∈ t.insertAll ds, p a = true → a ∈ t := by
    intro a ha hpa
    rcases mem_insertAll ha with ha | ⟨d, hd, n, -, rfl⟩
    · exact ha
    · rw [h d hd n] at hpa
      exact absurd hpa Bool.false_ne_true
  cases hlast : t.last? p with
  | none =>
    refine last?_eq_none.mpr fun a ha => ?_
    cases hpa : p a with
    | false => rfl
    | true => exact absurd (last?_eq_none.mp hlast a (hold a ha hpa)) (by simp [hpa])
  | some a =>
    obtain ⟨ha, hpa, hmax⟩ := last?_eq_some.mp hlast
    exact last?_eq_some.mpr
      ⟨mem_insertAll_of_mem ha, hpa, fun b hb hpb => hmax b (hold b hb hpb) hpb⟩

/-- A draft is stored under a key that the table had not handed out before. -/
theorem exists_mem_insertAll {d : Draft key} {ds : List (Draft key)} {t : Table key} (h : d ∈ ds) :
    ∃ n, t.next ≤ n ∧ d.1 n ∈ t.insertAll ds := by
  induction ds generalizing t with
  | nil => exact absurd h List.not_mem_nil
  | cons e ds ih =>
    rcases List.mem_cons.mp h with rfl | h
    · have hin : d.1 t.next ∈ t.insert d := mem_insert.mpr (Or.inr rfl)
      have hkept : d.1 t.next ∈ (t.insert d).insertAll ds := mem_insertAll_of_mem hin
      exact ⟨t.next, Nat.le_refl _, hkept⟩
    · obtain ⟨n, hn, hmem⟩ := ih (t := t.insert e) h
      exact ⟨n, Nat.le_of_succ_le hn, hmem⟩

/-- If a draft matches, then the last matching row after the insert comes from a draft. -/
theorem last?_insertAll_of_mem {d : Draft key} {ds : List (Draft key)} {p : α → Bool}
    {t : Table key} (hd : d ∈ ds) (hp : ∀ n, p (d.1 n) = true) :
    ∃ e ∈ ds, ∃ n, p (e.1 n) = true ∧ (t.insertAll ds).last? p = some (e.1 n) := by
  obtain ⟨m, hm, hmem⟩ := exists_mem_insertAll (t := t) hd
  cases hlast : (t.insertAll ds).last? p with
  | none => exact absurd (last?_eq_none.mp hlast _ hmem) (by simp [hp])
  | some a =>
    obtain ⟨ha, hpa, hmax⟩ := last?_eq_some.mp hlast
    rcases mem_insertAll ha with hold | ⟨e, he, n, -, rfl⟩
    · -- An old row has a smaller key than the draft.
      have hle := hmax _ hmem (hp m)
      have hlt := key_lt_next hold
      rw [d.2] at hle
      omega
    · exact ⟨e, he, n, hpa, rfl⟩

/-- A symmetric relation that holds between any two rows listed one after the other holds between
any two rows with different keys, and conversely. -/
theorem pairwise_iff {t : Table key} {R : α → α → Prop} (hR : ∀ a b, R a b → R b a) :
    t.rows.Pairwise R ↔ ∀ a ∈ t, ∀ b ∈ t, key a ≠ key b → R a b := by
  rw [List.pairwise_iff_getElem]
  constructor
  · intro h a ha b hb hab
    obtain ⟨i, hi, rfl⟩ := List.mem_iff_getElem.mp ha
    obtain ⟨j, hj, rfl⟩ := List.mem_iff_getElem.mp hb
    -- The list relates the rows in one order, and symmetry gives the other.
    rcases lt_trichotomy i j with hij | rfl | hij
    · exact h i j hi hj hij
    · exact absurd rfl hab
    · exact hR _ _ (h j i hj hi hij)
  · intro h i j hi hj hij
    have hlt := List.pairwise_iff_getElem.mp t.sorted i j hi hj hij
    exact h _ (List.getElem_mem hi) _ (List.getElem_mem hj) (by omega)

end Table
