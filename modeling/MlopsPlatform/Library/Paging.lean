import Mathlib.Data.List.Infix

/-!
# Reading a growing list page by page

A client reads a list in pages of a fixed size, at growing offsets, until the offset of the next
page reaches the length that came with the last one. Between two pages the list may grow, at its
front: every row moves to a greater position, and rows that come in front move into the pages that
were read before (`Grows`). So a row may be read twice, but none that was there at the start is
missed (`mem_of_read`), also where the rows change and only their keys stay (`exists_received`), and
a client that the list does not outrun comes to the end (`exists_read`). One page that was read of
it is a later page of what it has become (`exists_shift_of_suffix`). A list that grows at its end is
received as it is at the last fetch (`received_of_appends`).
-/

universe u v

namespace Paging

variable {α : Type u} {β : Type v}

/-- The client's loop from page `k` on, with the fetches it may still make: it stops at the first
page whose end reaches the total that came with it. -/
def read (size : ℕ) (fetch : ℕ → List α × ℕ) : ℕ → ℕ → Option (List (List α × ℕ))
  | 0, _ => none
  | fetches + 1, k =>
    if (fetch k).2 ≤ k * size + size then some [fetch k]
    else (read size fetch fetches (k + 1)).map fun pages => fetch k :: pages

/-- The rows of all pages, in the order in which they were received. -/
def received (pages : List (List α × ℕ)) : List α := pages.flatMap fun page => page.1

/-- Page `k` is cut out of the rows as they are at that fetch, and its total is their number. -/
def Cuts (size : ℕ) (rows : ℕ → List α) (fetch : ℕ → List α × ℕ) : Prop :=
  ∀ k, fetch k = (((rows k).drop (k * size)).take size, (rows k).length)

/-- Between two fetches rows come in front of the others only. -/
def Grows (rows : ℕ → List α) : Prop := ∀ k, rows k <:+ rows (k + 1)

/-- Between two fetches rows come behind the others only. -/
def Appends (rows : ℕ → List α) : Prop := ∀ k, rows k <+: rows (k + 1)

variable {size : ℕ} {rows : ℕ → List α} {fetch : ℕ → List α × ℕ}

/-- A row that is still to be read is still to be read when rows have come in front of it. -/
theorem mem_drop_of_suffix {as bs : List α} (h : as <:+ bs) {n : ℕ} {a : α} (ha : a ∈ as.drop n) :
    a ∈ bs.drop n := by
  obtain ⟨front, rfl⟩ := h
  rw [List.drop_append]
  refine List.mem_append_right _ ?_
  -- The rows in front shift it by their number.
  have hle : n - front.length ≤ n := Nat.sub_le n front.length
  exact List.drop_subset_drop_left as hle ha

/-- What a client that stops has received: every row that was still to be read. -/
theorem mem_of_read (hcuts : Cuts size rows fetch) (hgrows : Grows rows) {fetches k : ℕ}
    {pages : List (List α × ℕ)} (h : read size fetch fetches k = some pages) {a : α}
    (ha : a ∈ (rows k).drop (k * size)) : a ∈ received pages := by
  induction fetches generalizing k pages with
  | zero => exact absurd h (by simp [read])
  | succ fetches ih =>
    -- The row is on this page or after it.
    rw [← List.take_append_drop size ((rows k).drop (k * size)), List.drop_drop,
      List.mem_append] at ha
    rw [read] at h
    split_ifs at h with hlast
    · obtain rfl := Option.some.inj h
      have hnone : (rows k).drop (k * size + size) = [] := by
        rw [hcuts k] at hlast
        exact List.drop_eq_nil_of_le hlast
      rw [hnone] at ha
      have hpage : a ∈ (fetch k).1 := by
        rw [hcuts k]
        exact ha.resolve_right List.not_mem_nil
      exact List.mem_flatMap.mpr ⟨fetch k, List.mem_singleton_self _, hpage⟩
    · obtain ⟨rest, hrest, rfl⟩ := Option.map_eq_some_iff.mp h
      rcases ha with ha | ha
      · have hpage : a ∈ (fetch k).1 := by
          rw [hcuts k]
          exact ha
        exact List.mem_flatMap.mpr ⟨fetch k, List.mem_cons_self, hpage⟩
      · have hnext : a ∈ (rows (k + 1)).drop ((k + 1) * size) := by
          rw [Nat.succ_mul]
          exact mem_drop_of_suffix (hgrows k) ha
        obtain ⟨page, hpage, hmem⟩ := List.mem_flatMap.mp (ih hrest hnext)
        exact List.mem_flatMap.mpr ⟨page, List.mem_cons_of_mem _ hpage, hmem⟩

/-- A client that would reach the total within so many fetches more stops. -/
theorem exists_read {k : ℕ} (n : ℕ) (h : (fetch (k + n)).2 ≤ (k + n) * size + size) :
    ∃ pages, read size fetch (n + 1) k = some pages := by
  induction n generalizing k with
  | zero => exact ⟨[fetch k], if_pos h⟩
  | succ n ih =>
    rw [read]
    split_ifs with hlast
    · exact ⟨_, rfl⟩
    · have hshift : k + (n + 1) = k + 1 + n := by omega
      rw [hshift] at h
      obtain ⟨pages, hpages⟩ := ih h
      rw [hpages]
      exact ⟨_, rfl⟩

/-- Where no rows come in between, the client receives the rows that were still to be read, in their
order, each once, and every page has the same total. -/
theorem read_of_constant {all : List α} (hcuts : Cuts size rows fetch) (hall : ∀ k, rows k = all)
    {fetches k : ℕ} {pages : List (List α × ℕ)} (h : read size fetch fetches k = some pages) :
    received pages = all.drop (k * size) ∧ ∀ page ∈ pages, page.2 = all.length := by
  induction fetches generalizing k pages with
  | zero => exact absurd h (by simp [read])
  | succ fetches ih =>
    have hfetch : fetch k = ((all.drop (k * size)).take size, all.length) := by
      rw [hcuts k, hall k]
    rw [read, hfetch] at h
    split_ifs at h with hlast
    · obtain rfl := Option.some.inj h
      refine ⟨?_, fun page hpage => by rw [List.mem_singleton.mp hpage]⟩
      have hshort : (all.drop (k * size)).length ≤ size := by
        rw [List.length_drop]
        have hlast' : all.length ≤ k * size + size := hlast
        omega
      rw [received, List.flatMap_singleton, List.take_of_length_le hshort]
    · obtain ⟨rest, hrest, rfl⟩ := Option.map_eq_some_iff.mp h
      obtain ⟨hrows, htotals⟩ := ih hrest
      constructor
      · show (all.drop (k * size)).take size ++ received rest = _
        rw [hrows, Nat.succ_mul, ← List.drop_drop, List.take_append_drop]
      · intro page hpage
        rcases List.mem_cons.mp hpage with rfl | hpage
        · rfl
        · exact htotals page hpage

/-- A part of a list that is full is the same part of a longer list. -/
theorem take_drop_of_prefix {as bs : List α} (h : as <+: bs) {m n : ℕ}
    (hlength : m + n ≤ as.length) : (as.drop m).take n = (bs.drop m).take n := by
  obtain ⟨back, rfl⟩ := h
  have hm : m ≤ as.length := Nat.le_trans (Nat.le_add_right m n) hlength
  have hn : n ≤ (as.drop m).length := by
    rw [List.length_drop]
    omega
  rw [List.drop_append_of_le_length hm, List.take_append_of_le_length hn]

/-- What a client that stops has received of a list that grows at its end: what it had still to
read of the list as it is at the last fetch, in its order, each once. -/
theorem received_of_appends (hcuts : Cuts size rows fetch) (happends : Appends rows)
    {fetches k : ℕ} {pages : List (List α × ℕ)} (h : read size fetch fetches k = some pages) :
    ∃ last, k + pages.length = last + 1 ∧ rows k <+: rows last ∧
      received pages = (rows last).drop (k * size) := by
  induction fetches generalizing k pages with
  | zero => exact absurd h (by simp [read])
  | succ fetches ih =>
    rw [read] at h
    split_ifs at h with hlast
    · obtain rfl := Option.some.inj h
      refine ⟨k, rfl, List.prefix_rfl, ?_⟩
      rw [hcuts k] at hlast ⊢
      have hshort : ((rows k).drop (k * size)).length ≤ size := by
        rw [List.length_drop]
        have hle : (rows k).length ≤ k * size + size := hlast
        omega
      rw [received, List.flatMap_singleton, List.take_of_length_le hshort]
    · obtain ⟨rest, hrest, rfl⟩ := Option.map_eq_some_iff.mp h
      obtain ⟨last, hlength, hprefix, hrows⟩ := ih hrest
      have hgrown : rows k <+: rows last := (happends k).trans hprefix
      refine ⟨last, by rw [List.length_cons]; omega, hgrown, ?_⟩
      -- The page was full, so it is still the same part of the list.
      have hfull : k * size + size ≤ (rows k).length := by
        rw [hcuts k] at hlast
        have hlt : ¬(rows k).length ≤ k * size + size := hlast
        omega
      have hpage : (fetch k).1 = ((rows last).drop (k * size)).take size := by
        rw [hcuts k]
        exact take_drop_of_prefix hgrown hfull
      show (fetch k).1 ++ received rest = _
      rw [hrows, hpage, Nat.succ_mul, ← List.drop_drop, List.take_append_drop]

/-- A page of a list is a page of the list that has grown at its front: it begins as many rows
later as have come in front. -/
theorem exists_shift_of_suffix {as bs : List α} (h : as <:+ bs) (m n : ℕ) :
    ∃ front, as.length + front = bs.length ∧
      (as.drop m).take n = (bs.drop (m + front)).take n := by
  obtain ⟨front, rfl⟩ := h
  refine ⟨front.length, by rw [List.length_append, Nat.add_comm], ?_⟩
  rw [Nat.add_comm m, ← List.drop_drop, List.drop_left]

/-- A row of a sorted list is on the first page, or that page is full of rows before it. -/
theorem mem_take_or {R : α → α → Prop} {as : List α} (h : as.Pairwise R) {a : α} (ha : a ∈ as)
    (n : ℕ) : a ∈ as.take n ∨ (as.take n).length = n ∧ ∀ b ∈ as.take n, R b a := by
  rw [← List.take_append_drop n as] at h ha
  obtain ⟨-, -, hbefore⟩ := List.pairwise_append.mp h
  refine (List.mem_append.mp ha).imp_right fun hafter => ⟨?_, fun b hb => hbefore b hb a hafter⟩
  have hlt : n < as.length := by
    by_contra hle
    rw [List.drop_eq_nil_of_le (Nat.le_of_not_lt hle)] at hafter
    exact absurd hafter List.not_mem_nil
  exact List.length_take_of_le hlt.le

/-! ## Rows that change -/

/-- A page of a column. -/
def column (f : α → β) (page : List α × ℕ) : List β × ℕ := (page.1.map f, page.2)

/-- The loop looks at the totals only, so that reading a column is reading. -/
theorem read_column (f : α → β) (fetches k : ℕ) :
    read size (fun k => column f (fetch k)) fetches k =
      (read size fetch fetches k).map (List.map (column f)) := by
  induction fetches generalizing k with
  | zero => rfl
  | succ fetches ih =>
    rw [read, read, ih]
    have htotal : (column f (fetch k)).2 = (fetch k).2 := rfl
    rw [htotal]
    split_ifs
    · rfl
    · rw [Option.map_map, Option.map_map]
      rfl

/-- What is received of a column is the column of what is received. -/
theorem received_column (f : α → β) (pages : List (List α × ℕ)) :
    received (pages.map (column f)) = (received pages).map f := by
  rw [received, received, List.flatMap_map, List.map_flatMap]
  rfl

/-- A client that stops has received every row of the start, as it is at one of the fetches, if the
keys of the rows stay and only come in front of each other. -/
theorem exists_received {f : α → β} (hcuts : Cuts size rows fetch)
    (hgrows : Grows fun k => (rows k).map f) {fetches : ℕ} {pages : List (List α × ℕ)}
    (h : read size fetch fetches 0 = some pages) {a : α} (ha : a ∈ rows 0) :
    ∃ b ∈ received pages, f b = f a := by
  have hcolumn : Cuts size (fun k => (rows k).map f) fun k => column f (fetch k) := by
    intro k
    show column f (fetch k) =
      ((((rows k).map f).drop (k * size)).take size, ((rows k).map f).length)
    rw [hcuts k, column, List.length_map, ← List.map_drop, ← List.map_take]
  have hread : read size (fun k => column f (fetch k)) fetches 0 =
      some (pages.map (column f)) := by
    rw [read_column, h, Option.map_some]
  have hstart : f a ∈ ((rows 0).map f).drop (0 * size) := by
    rw [Nat.zero_mul, List.drop_zero]
    exact List.mem_map_of_mem ha
  have hmem := mem_of_read hcolumn hgrows hread hstart
  rw [received_column] at hmem
  exact List.mem_map.mp hmem

end Paging
