import MlopsPlatform.Library.Paging
import MlopsPlatform.Registry.Keys
import MlopsPlatform.Services.Listing

/-!
# Paging through the registry

A client calls `list_models` at offsets `0`, `L`, `2L`, … while others register models between its
calls. Models are listed newest first, so that each new one moves the others to later positions
(`registry_grows`): the client may receive a model twice, and misses none that was registered when
it began.
-/

namespace MlopsPlatform

open Like (CaseFold)

/-- The model is listed by a search, or there is no search. -/
def searched (f : CaseFold) (q : Option String) (m : Model) : Bool :=
  match searchText q with
  | some q => modelCond f ("%" ++ q ++ "%") m
  | none => true

/-- `list_models` cuts a page out of the models that the search lists. -/
theorem listModels_eq (f : CaseFold) (db : Db) (limit offset : ℕ) (q : Option String) :
    listModels f db limit offset q = page (db.models.select (searched f q)) limit offset := by
  unfold listModels
  cases hq : searchText q with
  | some text =>
    have hcond : searched f q = modelCond f ("%" ++ text ++ "%") := by
      funext m
      rw [searched, hq]
    rw [hcond]
  | none =>
    have hcond : searched f q = fun _ => true := by
      funext m
      rw [searched, hq]
    rw [hcond, Table.select, List.filter_true]

section

variable (lower : String → String)

/-- The registry at the client's fetches: `creations k` is called between fetch `k` and the next
one. -/
def registryAt (db : Db) (creations : ℕ → List (Uuid × ModelCreate)) : ℕ → Db
  | 0 => db
  | k + 1 =>
    let before := registryAt db creations k
    -- `create_model` does not fail (`createModels_spec`).
    (createModels lower before (creations k)).getD before

/-- Page `k` of `list_models`, as the client receives it. -/
def fetchPage (f : CaseFold) (q : Option String) (size : ℕ) (db : Db)
    (creations : ℕ → List (Uuid × ModelCreate)) (k : ℕ) : List Model × ℕ :=
  listModels f (registryAt lower db creations k) size (k * size) q

/-- A client that fetches `list_models` at offsets `0`, `size`, `2 * size`, … and stops at the first
page with `offset + size >= total`, if it may make so many fetches. -/
def readModels (f : CaseFold) (q : Option String) (size : ℕ) (db : Db)
    (creations : ℕ → List (Uuid × ModelCreate)) (fetches : ℕ) : Option (List (List Model × ℕ)) :=
  Paging.read size (fetchPage lower f q size db creations) fetches 0

/-- The models that the search lists at fetch `k`, newest first. -/
def listedAt (f : CaseFold) (q : Option String) (db : Db)
    (creations : ℕ → List (Uuid × ModelCreate)) (k : ℕ) : List Model :=
  ((registryAt lower db creations k).models.select (searched f q)).reverse

end

variable {lower : String → String}

/-- Calls of `create_model` append models to the table. -/
theorem createModels_rows {db db' : Db} {calls : List (Uuid × ModelCreate)}
    (h : createModels lower db calls = some db') :
    ∃ new, db'.models.rows = db.models.rows ++ new := by
  induction calls generalizing db with
  | nil =>
    obtain rfl := Option.some.inj h
    exact ⟨[], (List.append_nil _).symm⟩
  | cons call calls ih =>
    obtain ⟨actorId, data⟩ := call
    obtain ⟨model, hcreate, -⟩ := createModel_fresh lower db actorId data
    rw [createModels, hcreate] at h
    obtain ⟨new, hnew⟩ := ih h
    refine ⟨model.1 db.models.next :: new, ?_⟩
    have hrows : (db.write (.insertModel model)).models.rows =
        db.models.rows ++ [model.1 db.models.next] := rfl
    rw [hnew, hrows, List.append_assoc, List.singleton_append]

/-- Between two fetches models come in front of the listed ones. -/
theorem registry_grows (f : CaseFold) (q : Option String) (db : Db)
    (creations : ℕ → List (Uuid × ModelCreate)) :
    Paging.Grows (listedAt lower f q db creations) := by
  intro k
  obtain ⟨db', hrun, -, -⟩ :=
    createModels_spec lower (registryAt lower db creations k) (creations k)
  obtain ⟨new, hnew⟩ := createModels_rows hrun
  have hnext : registryAt lower db creations (k + 1) = db' := by
    rw [registryAt, hrun]
    rfl
  refine ⟨(new.filter (searched f q)).reverse, ?_⟩
  unfold listedAt Table.select
  rw [hnext, hnew, List.filter_append, List.reverse_append]

/-- The client's pages are cut out of the listed models. -/
theorem cuts_fetchPage (f : CaseFold) (q : Option String) (size : ℕ) (db : Db)
    (creations : ℕ → List (Uuid × ModelCreate)) :
    Paging.Cuts size (listedAt lower f q db creations)
      (fetchPage lower f q size db creations) := by
  intro k
  rw [fetchPage, listModels_eq, page, listedAt, List.length_reverse]

/-- Without calls the registry stays as it is. -/
theorem registryAt_of_quiet {db : Db} {creations : ℕ → List (Uuid × ModelCreate)} {n : ℕ}
    (h : ∀ k, n ≤ k → creations k = []) (k : ℕ) :
    registryAt lower db creations (n + k) = registryAt lower db creations n := by
  induction k with
  | zero => rfl
  | succ k ih =>
    show registryAt lower db creations (n + k + 1) = _
    rw [registryAt, h (n + k) (by omega), ih]
    rfl

/-- A listed model is stored and matches the search. -/
theorem mem_listedAt {f : CaseFold} {q : Option String} {db : Db}
    {creations : ℕ → List (Uuid × ModelCreate)} {m : Model} :
    m ∈ listedAt lower f q db creations 0 ↔ m ∈ db.models ∧ searched f q m = true := by
  rw [listedAt, List.mem_reverse, Table.mem_select]
  rfl

section

variable {f : CaseFold} {q : Option String} {size : ℕ} {db : Db}
variable {creations : ℕ → List (Uuid × ModelCreate)} {fetches : ℕ} {pages : List (List Model × ℕ)}

/-- A client that stops has received every model that matched when it began. -/
theorem exists_page_of_mem (h : readModels lower f q size db creations fetches = some pages)
    {m : Model} (hm : m ∈ db.models) (hmatch : searched f q m = true) :
    ∃ page ∈ pages, m ∈ page.1 := by
  have hcuts : Paging.Cuts size (listedAt lower f q db creations)
      (fetchPage lower f q size db creations) := cuts_fetchPage f q size db creations
  have hgrows : Paging.Grows (listedAt lower f q db creations) := registry_grows f q db creations
  have hstart : m ∈ (listedAt lower f q db creations 0).drop (0 * size) := by
    rw [Nat.zero_mul, List.drop_zero]
    exact mem_listedAt.mpr ⟨hm, hmatch⟩
  exact List.mem_flatMap.mp (Paging.mem_of_read hcuts hgrows h hstart)

/-- It stops as soon as the total of a fetch is not beyond the page. -/
theorem exists_pages {k : ℕ}
    (h : (fetchPage lower f q size db creations k).2 ≤ k * size + size) :
    ∃ pages, readModels lower f q size db creations (k + 1) = some pages := by
  refine Paging.exists_read k ?_
  rw [Nat.zero_add]
  exact h

/-- It stops if the calls come to an end: from then on the total stays, and the offset grows with
each page. -/
theorem exists_pages_of_quiet (hsize : 1 ≤ size) {n : ℕ} (h : ∀ k, n ≤ k → creations k = []) :
    ∃ fetches pages, readModels lower f q size db creations fetches = some pages := by
  generalize htotal : (listedAt lower f q db creations n).length = total
  have hreached : (fetchPage lower f q size db creations (n + total)).2 ≤
      (n + total) * size + size := by
    rw [cuts_fetchPage f q size db creations (n + total), listedAt, registryAt_of_quiet h]
    show (listedAt lower f q db creations n).length ≤ _
    calc (listedAt lower f q db creations n).length = total := htotal
      _ ≤ n + total := Nat.le_add_left _ _
      _ = (n + total) * 1 := (Nat.mul_one _).symm
      _ ≤ (n + total) * size := Nat.mul_le_mul_left _ hsize
      _ ≤ (n + total) * size + size := Nat.le_add_right _ _
  obtain ⟨pages, hpages⟩ := exists_pages hreached
  exact ⟨_, pages, hpages⟩

/-- Without calls it receives what is listed at the start, and the total of every page is the number
of what it receives. -/
theorem received_of_quiet (hnone : ∀ k, creations k = [])
    (h : readModels lower f q size db creations fetches = some pages) :
    Paging.received pages = listedAt lower f q db creations 0 ∧
      ∀ page ∈ pages, page.2 = (Paging.received pages).length := by
  have hconstant : ∀ k, listedAt lower f q db creations k =
      listedAt lower f q db creations 0 := by
    intro k
    have hquiet : registryAt lower db creations (0 + k) = registryAt lower db creations 0 :=
      registryAt_of_quiet (fun j _ => hnone j) k
    rw [Nat.zero_add] at hquiet
    unfold listedAt
    rw [hquiet]
  obtain ⟨hrows, htotals⟩ :=
    Paging.read_of_constant (cuts_fetchPage f q size db creations) hconstant h
  rw [Nat.zero_mul, List.drop_zero] at hrows
  rw [hrows]
  exact ⟨rfl, htotals⟩

/-- What is listed is in strictly descending order of the ids. -/
theorem pairwise_listedAt (k : ℕ) :
    (listedAt lower f q db creations k).Pairwise fun a b => b.id < a.id := by
  rw [listedAt, List.pairwise_reverse]
  exact (registryAt lower db creations k).models.sorted.filter _

end

/-- Paging through the registry misses nothing. For every registry, every query or none, every page
size from 1 on, and all calls of `create_model` between the fetches: a client that stops has
received every model that matched when it began. It does stop, as soon as the total of a fetch is
not beyond the page, and in any case if the calls come to an end. If there are none, it has received
the models that matched each once, newest first, and their number is the total of every page. -/
theorem readModels_complete (f : CaseFold) (q : Option String) {size : ℕ} (hsize : 1 ≤ size)
    (db : Db) (creations : ℕ → List (Uuid × ModelCreate)) :
    (∀ fetches pages, readModels lower f q size db creations fetches = some pages →
      ∀ m ∈ db.models, searched f q m = true → ∃ page ∈ pages, m ∈ page.1) ∧
      (∀ k, (fetchPage lower f q size db creations k).2 ≤ k * size + size →
        ∃ pages, readModels lower f q size db creations (k + 1) = some pages) ∧
      ((∃ n, ∀ k, n ≤ k → creations k = []) →
        ∃ fetches pages, readModels lower f q size db creations fetches = some pages) ∧
      ((∀ k, creations k = []) →
        ∀ fetches pages, readModels lower f q size db creations fetches = some pages →
          ((Paging.received pages).Pairwise fun a b => b.id < a.id) ∧
          (∀ m, m ∈ Paging.received pages ↔ m ∈ db.models ∧ searched f q m = true) ∧
          ∀ page ∈ pages, page.2 = (Paging.received pages).length) := by
  refine ⟨fun fetches pages hread m hm hmatch => exists_page_of_mem hread hm hmatch,
    fun k hk => exists_pages hk, ?_, ?_⟩
  · rintro ⟨n, hquiet⟩
    exact exists_pages_of_quiet hsize hquiet
  · intro hnone fetches pages hread
    obtain ⟨hrows, htotals⟩ := received_of_quiet hnone hread
    refine ⟨?_, ?_, htotals⟩
    · rw [hrows]
      exact pairwise_listedAt 0
    · intro m
      rw [hrows]
      exact mem_listedAt

/-- A registry with two pumps and a valve. -/
def twoPumps : Db :=
  let calls := [(9, ⟨"pump", "ops", .pytorch, []⟩), (9, ⟨"valve", "ops", .keras, []⟩),
    (9, ⟨"pump", "ops", .pytorch, []⟩)]
  (createModels id .empty calls).getD .empty

/-- One pump is registered between the first fetch and the second. -/
def oneBetween (k : ℕ) : List (Uuid × ModelCreate) :=
  if k = 0 then [(9, ⟨"pump", "ops", .onnx, []⟩)] else []

/-- Pages of one pump: the third fetch reaches the total, which has grown from two to three. The
client has received the pumps that were there when it began. -/
theorem readModels_complete_two :
    ∃ pages, readModels id .ascii (some "PUMP") 1 twoPumps oneBetween 3 = some pages ∧
      (twoPumps.models.rows.filter (searched .ascii (some "PUMP"))).map Model.id = [1, 3] ∧
      ∀ m ∈ twoPumps.models, searched .ascii (some "PUMP") m = true →
        ∃ page ∈ pages, m ∈ page.1 := by
  obtain ⟨hmisses, hstop, -, -⟩ :=
    @readModels_complete id .ascii (some "PUMP") 1 (Nat.le_refl 1) twoPumps oneBetween
  obtain ⟨pages, hpages⟩ := hstop 2 (by decide +kernel)
  exact ⟨pages, hpages, by decide +kernel, hmisses 3 pages hpages⟩

end MlopsPlatform
