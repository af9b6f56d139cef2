import MlopsPlatform.Library.Like
import MlopsPlatform.Services.ModelService

/-!
# Listings

`list_models` and `list_versions` of `services/model_service.py`, and `list_deployments` of
`services/deployment_service.py`: a page of rows, newest first, and how many rows match. The text of
a search is put between two `%` as it is.
-/

namespace MlopsPlatform

open Like (CaseFold)

/-- `ORDER BY id DESC OFFSET … LIMIT …`, and `count(*)`, of rows in the order of their ids. -/
def page {α : Type} (rows : List α) (limit offset : ℕ) : List α × ℕ :=
  ((rows.reverse.drop offset).take limit, rows.length)

/-- `if q`: an empty search is no search. -/
def searchText : Option String → Option String
  | some q => if q = "" then none else some q
  | none => none

/-- `column.ilike(pattern)`. -/
def ilike (f : CaseFold) (column pattern : String) : Bool := f.ilike pattern.toList column.toList

/-- The condition of a search for models. -/
def modelCond (f : CaseFold) (pattern : String) (m : Model) : Bool :=
  ilike f m.name pattern || ilike f m.key pattern || ilike f m.owner pattern ||
    ilike f m.framework pattern

/-- A page of models, and the total matching count, newest first. `q` filters across name, key,
owner and framework. -/
def listModels (f : CaseFold) (db : Db) (limit offset : ℕ) (q : Option String) :
    List Model × ℕ :=
  match searchText q with
  | some q => page (db.models.select (modelCond f ("%" ++ q ++ "%"))) limit offset
  | none => page db.models.rows limit offset

/-- A page of the versions of a model, and their total, newest first. -/
def listVersions (db : Db) (modelId : Uuid) (limit offset : ℕ) :
    Except DomainError (List ModelVersion × ℕ) := do
  let _ ← getModel db modelId
  .ok (page (db.versions.select fun v => v.modelId = modelId) limit offset)

/-- `JOIN models ON deployments.model_id = models.id`, and `JOIN model_versions ON
deployments.model_version_id = model_versions.id`. -/
def joined (db : Db) : List (Deployment × Model × ModelVersion) :=
  db.deployments.rows.flatMap fun d =>
    (db.models.select fun m => d.modelId = m.id).flatMap fun m =>
      (db.versions.select fun v => d.modelVersionId = v.id).map fun v => (d, m, v)

/-- The condition of a search for deployments, on a row of the joins. -/
def deploymentCond (f : CaseFold) (pattern : String) : Deployment × Model × ModelVersion → Bool
  | (d, m, v) =>
    ilike f m.key pattern || ilike f m.name pattern || ilike f v.version pattern ||
      ilike f d.environment.value pattern || ilike f d.status.value pattern

/-- A page of deployments, and the total, newest first. `q` filters across model key and name,
version, environment and status. -/
def listDeployments (f : CaseFold) (db : Db) (limit offset : ℕ) (q : Option String) :
    List Deployment × ℕ :=
  match searchText q with
  | some q =>
    let rows := (joined db).filter (deploymentCond f ("%" ++ q ++ "%"))
    page (rows.map fun x => x.1) limit offset
  | none => page db.deployments.rows limit offset

/-! ## What a page shows -/

/-- A page is cut out of the rows that meet a condition: all of them, newest first, each once. -/
def Lists {α : Type} {key : α → ℕ} (t : Table key) (P : α → Prop) (limit offset : ℕ)
    (p : List α × ℕ) : Prop :=
  ∃ rows : List α, (rows.Pairwise fun a b => key b < key a) ∧ (∀ a, a ∈ rows ↔ a ∈ t ∧ P a) ∧
    p = ((rows.drop offset).take limit, rows.length)

/-- A page of rows in the order of their keys lists these rows. -/
theorem lists_page {α : Type} {key : α → ℕ} {t : Table key} {P : α → Prop} {rows : List α}
    (hsorted : rows.Pairwise fun a b => key a < key b) (hmem : ∀ a, a ∈ rows ↔ a ∈ t ∧ P a)
    (limit offset : ℕ) : Lists t P limit offset (page rows limit offset) := by
  refine ⟨rows.reverse, List.pairwise_reverse.mpr hsorted, fun a => ?_, ?_⟩
  · rw [List.mem_reverse, hmem]
  · rw [page, List.length_reverse]

/-- What a page shows meets the condition. -/
theorem Lists.of_mem {α : Type} {key : α → ℕ} {t : Table key} {P : α → Prop} {limit offset : ℕ}
    {p : List α × ℕ} (h : Lists t P limit offset p) {a : α} (ha : a ∈ p.1) : P a := by
  obtain ⟨rows, -, hmem, rfl⟩ := h
  exact ((hmem a).mp (List.mem_of_mem_drop (List.mem_of_mem_take ha))).2

/-- A page that is long enough shows every row. -/
theorem mem_page {α : Type} {rows : List α} {a : α} (h : a ∈ rows) :
    a ∈ (page rows rows.length 0).1 := by
  have hall : rows.reverse.length ≤ rows.length := List.length_reverse.le
  rw [page, List.drop_zero, List.take_of_length_le hall]
  exact List.mem_reverse.mpr h

/-- What a page shows is among its rows. -/
theorem mem_of_mem_page {α : Type} {rows : List α} {limit offset : ℕ} {a : α}
    (h : a ∈ (page rows limit offset).1) : a ∈ rows :=
  List.mem_reverse.mp (List.mem_of_mem_drop (List.mem_of_mem_take h))

/-- The models on a page are stored. -/
theorem mem_of_listModels {f : CaseFold} {db : Db} {limit offset : ℕ} {q : Option String}
    {m : Model} (h : m ∈ (listModels f db limit offset q).1) : m ∈ db.models := by
  unfold listModels at h
  split at h
  · exact (Table.mem_select.mp (mem_of_mem_page h)).1
  · exact mem_of_mem_page h

/-- The versions on a page are stored, and are versions of the model. -/
theorem listVersions_eq_ok {db : Db} {modelId : Uuid} {limit offset : ℕ}
    {p : List ModelVersion × ℕ} (h : listVersions db modelId limit offset = .ok p) :
    ∀ v ∈ p.1, v ∈ db.versions ∧ v.modelId = modelId := by
  obtain ⟨m, -, hp⟩ := bind_eq_ok.mp h
  obtain rfl := Except.ok.inj hp
  intro v hv
  obtain ⟨hmem, hmodel⟩ := Table.mem_select.mp (mem_of_mem_page hv)
  exact ⟨hmem, of_decide_eq_true hmodel⟩

/-- The pattern of a search has the text between two `%`. -/
theorem ilike_pattern (f : CaseFold) (column q : String) :
    ilike f column ("%" ++ q ++ "%") = f.ilike (Like.around q.toList) column.toList := by
  simp [ilike, Like.around]

/-- A search for a text that is not empty. -/
theorem searchText_some {q : String} (h : q ≠ "") : searchText (some q) = some q := if_neg h

end MlopsPlatform
