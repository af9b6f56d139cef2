import MlopsPlatform.Registry.AuditTrail
import MlopsPlatform.Requests.Paging
import MlopsPlatform.Requests.VersionPaths

/-!
# Reading a listing while the platform runs

A client reads a listing of the API page by page while calls, workers and reapers run in between.
No step takes a row out of a listing or moves two rows past each other: rows come behind the others
in the order of the ids (`Db.Extends`), though the rows themselves change. So the client misses
nothing in the listings that begin with the newest row, and it receives the events of a version,
which are listed chronologically, as they are at its last fetch (`listings_complete`).
-/

namespace MlopsPlatform

open Transition
open Like (CaseFold)

variable {lower : String → String}

/-! ## What a step does to the listings -/

/-- Versions of a model, by their ids. -/
def Db.versionIds (db : Db) (modelId : Uuid) : List Uuid :=
  (db.versions.select fun v => v.modelId = modelId).map ModelVersion.id

/-- In every listing, rows come behind the others only. -/
structure Db.Extends (db db' : Db) : Prop where
  models : db.models.rows <+: db'.models.rows
  versions : ∀ modelId, db.versionIds modelId <+: db'.versionIds modelId
  events : ∀ versionId, db.trail versionId <+: db'.trail versionId
  deployments : db.deployments.rows.map Deployment.id <+: db'.deployments.rows.map Deployment.id

/-- A database extends itself. -/
theorem Db.Extends.refl (db : Db) : db.Extends db :=
  ⟨List.prefix_rfl, fun _ => List.prefix_rfl, fun _ => List.prefix_rfl, List.prefix_rfl⟩

/-- What extends twice extends. -/
theorem Db.Extends.trans {db db' db'' : Db} (h : db.Extends db') (h' : db'.Extends db'') :
    db.Extends db'' :=
  ⟨h.models.trans h'.models, fun id => (h.versions id).trans (h'.versions id),
    fun id => (h.events id).trans (h'.events id), h.deployments.trans h'.deployments⟩

/-- An insert comes behind the rows of every query. -/
theorem prefix_select_insert {α : Type} {key : α → ℕ} (t : Table key) (d : Table.Draft key)
    (p : α → Bool) : t.select p <+: (t.insert d).select p := by
  rw [Table.select_insert]
  exact List.prefix_append _ _

/-- An update of versions leaves the ids of a model's versions as they are. -/
theorem versionIds_mapRows {t : Table ModelVersion.id} (u : UnitOfWork) (modelId : Uuid) :
    (((t.mapRows u.onVersion u.onVersion_id).select fun v => v.modelId = modelId).map
        ModelVersion.id) = (t.select fun v => v.modelId = modelId).map ModelVersion.id := by
  have hcond : ((fun v : ModelVersion => decide (v.modelId = modelId)) ∘ u.onVersion) =
      fun v => decide (v.modelId = modelId) := by
    funext v
    rw [Function.comp_apply, u.onVersion_modelId]
  have hids : ModelVersion.id ∘ u.onVersion = ModelVersion.id := by
    funext v
    exact u.onVersion_id v
  show ((t.rows.map u.onVersion).filter _).map _ = _
  rw [List.filter_map, hcond, List.map_map, hids]
  rfl

/-- A write extends every listing. -/
theorem Db.extends_write (db : Db) (u : UnitOfWork) : db.Extends (db.write u) := by
  cases u with
  | insertModel model =>
    exact ⟨List.prefix_append _ _, fun _ => List.prefix_rfl, fun _ => List.prefix_rfl,
      List.prefix_rfl⟩
  | insertVersion version event =>
    refine ⟨List.prefix_rfl, fun modelId => ?_, fun versionId => ?_, List.prefix_rfl⟩
    · exact (prefix_select_insert db.versions version _).map ModelVersion.id
    · exact prefix_select_insert db.versionEvents _ _
  | updateVersion loaded assigned event =>
    refine ⟨List.prefix_rfl, fun modelId => ?_, fun versionId => ?_, List.prefix_rfl⟩
    · have hids : (db.write (.updateVersion loaded assigned event)).versionIds modelId =
          db.versionIds modelId := versionIds_mapRows _ modelId
      rw [hids]
    · exact prefix_select_insert db.versionEvents _ _
  | insertDeployment deployment event =>
    refine ⟨List.prefix_rfl, fun _ => List.prefix_rfl, fun _ => List.prefix_rfl, ?_⟩
    exact (List.prefix_append db.deployments.rows _).map Deployment.id
  | updateDeployments dirty events =>
    refine ⟨List.prefix_rfl, fun _ => List.prefix_rfl, fun _ => List.prefix_rfl, ?_⟩
    have hids : Deployment.id ∘ (UnitOfWork.updateDeployments dirty events).onDeployment =
        Deployment.id := by
      funext d
      exact UnitOfWork.onDeployment_id _ d
    show _ <+: (db.deployments.rows.map
      (UnitOfWork.updateDeployments dirty events).onDeployment).map Deployment.id
    rw [List.map_map, hids]

/-- So does a run. -/
theorem extends_of_reach {ok : State → ℕ × Action → Prop} {s t : State}
    (h : Reach (step lower) ok s t) : s.shared.Extends t.shared := by
  refine h.rel (R := fun s t => s.shared.Extends t.shared) (fun s => .refl s.shared)
    (fun _ _ _ h₁ h₂ => h₁.trans h₂) ?_
  rintro s ⟨i, a⟩ s' - - hstep
  rcases step_cases hstep with ⟨l, -, -, rfl⟩ | ⟨writer, u, l, -, -, rfl⟩
  · exact .refl _
  · exact s.shared.extends_write u

/-! ## Reading while the platform runs -/

section

variable {ok : State → ℕ × Action → Prop} {states : ℕ → State} {size : ℕ}

/-- Fetches in a run see listings that extend one another. -/
theorem extends_of_le (hrun : ∀ k, Reach (step lower) ok (states k) (states (k + 1))) (k : ℕ) :
    (states 0).shared.Extends (states k).shared := by
  induction k with
  | zero => exact .refl _
  | succ k ih => exact ih.trans (extends_of_reach (hrun k))

/-- A page of rows that are listed newest first is cut out of them. -/
theorem cuts_page {α : Type} (rows : ℕ → List α) :
    Paging.Cuts size (fun k => (rows k).reverse) fun k => page (rows k) size (k * size) := by
  intro k
  show page (rows k) size (k * size) = _
  rw [page, List.length_reverse]

/-- What is listed newest first grows at its front. -/
theorem grows_reverse {α β : Type} {rows : ℕ → List α} {f : α → β}
    (h : ∀ k, (rows k).map f <+: (rows (k + 1)).map f) :
    Paging.Grows fun k => ((rows k).reverse).map f := by
  intro k
  show ((rows k).reverse).map f <:+ ((rows (k + 1)).reverse).map f
  rw [List.map_reverse, List.map_reverse]
  exact List.reverse_suffix.mpr (h k)

/-- A client that stops has received every row of a listing that begins with the newest one. -/
theorem exists_received_of_page {α β : Type} {rows : ℕ → List α} {f : α → β}
    (h : ∀ k, (rows k).map f <+: (rows (k + 1)).map f) {fetches : ℕ} {pages : List (List α × ℕ)}
    (hread : Paging.read size (fun k => page (rows k) size (k * size)) fetches 0 = some pages)
    {a : α} (ha : a ∈ rows 0) : ∃ b ∈ Paging.received pages, f b = f a :=
  Paging.exists_received (cuts_page rows) (grows_reverse h) hread (List.mem_reverse.mpr ha)

/-- The versions of a model that exists are listed. -/
theorem listVersions_of_mem {db : Db} {modelId : Uuid} (h : ∃ m ∈ db.models, m.id = modelId)
    (limit offset : ℕ) : listVersions db modelId limit offset =
      .ok (page (db.versions.select fun v => v.modelId = modelId) limit offset) := by
  obtain ⟨m, hm, rfl⟩ := h
  have hget : getModel db m.id = .ok m := by
    unfold getModel
    rw [Table.get?_key hm]
  unfold listVersions
  rw [hget]
  rfl

/-- The events of a version that exists are listed. -/
theorem listVersionEvents_of_mem {db : Db} {versionId : Uuid} {v : ModelVersion}
    (h : db.versions.get? versionId = some v) (limit offset : ℕ) :
    listVersionEvents db versionId limit offset =
      .ok (((db.trail versionId).drop offset).take limit, (db.trail versionId).length) := by
  unfold listVersionEvents
  rw [getVersion_eq_ok.mpr h]
  rfl

/-- Reading a listing page by page misses nothing, whatever steps the platform takes between the
fetches. A client that stops has received, at least once, every model that the search listed when it
began, every deployment and every version of a model that was stored then; and it has received the
events of a version exactly as they are stored at its last fetch, each once, in their order. No
fetch of the versions of a model, or of the events of a version, fails if the first one did not. A
fetch reads one state, its count and its page alike, and ids follow the order of the commits. -/
theorem listings_complete (hrun : ∀ k, Reach (step lower) ok (states k) (states (k + 1)))
    (f : CaseFold) (q : Option String) (size : ℕ) :
    (∀ fetches pages,
        Paging.read size (fun k => listModels f (states k).shared size (k * size) q) fetches 0 =
          some pages →
        ∀ m ∈ (states 0).shared.models, searched f q m = true → m ∈ Paging.received pages) ∧
      (∀ fetches pages,
        Paging.read size (fun k => listDeployments f (states k).shared size (k * size) none)
          fetches 0 = some pages →
        ∀ d ∈ (states 0).shared.deployments, ∃ d' ∈ Paging.received pages, d'.id = d.id) ∧
      (∀ modelId, (∃ m ∈ (states 0).shared.models, m.id = modelId) →
        ∃ fetch, (∀ k, listVersions (states k).shared modelId size (k * size) = .ok (fetch k)) ∧
          ∀ fetches pages, Paging.read size fetch fetches 0 = some pages →
            ∀ v ∈ (states 0).shared.versions, v.modelId = modelId →
              ∃ v' ∈ Paging.received pages, v'.id = v.id) ∧
      ∀ versionId, (∃ v, (states 0).shared.versions.get? versionId = some v) →
        ∃ fetch, (∀ k, listVersionEvents (states k).shared versionId size (k * size) =
            .ok (fetch k)) ∧
          ∀ fetches pages, Paging.read size fetch fetches 0 = some pages →
            ∃ last, pages.length = last + 1 ∧
              Paging.received pages = (states last).shared.trail versionId := by
  have hnext : ∀ k, (states k).shared.Extends (states (k + 1)).shared := fun k =>
    extends_of_reach (hrun k)
  refine ⟨fun fetches pages hread m hm hmatch => ?_, fun fetches pages hread d hd => ?_,
    fun modelId hmodel => ?_, fun versionId hversion => ?_⟩
  · have hlisted : ∀ k, ((states k).shared.models.select (searched f q)).map id <+:
        ((states (k + 1)).shared.models.select (searched f q)).map id := fun k =>
      ((hnext k).models.filter _).map id
    have hfetch : (fun k => listModels f (states k).shared size (k * size) q) =
        fun k => page ((states k).shared.models.select (searched f q)) size (k * size) :=
      funext fun k => listModels_eq f (states k).shared size (k * size) q
    rw [hfetch] at hread
    obtain ⟨m', hm', rfl⟩ :=
      exists_received_of_page hlisted hread (Table.mem_select.mpr ⟨hm, hmatch⟩)
    exact hm'
  · exact exists_received_of_page (fun k => (hnext k).deployments) hread hd
  · have hstays : ∀ k, ∃ m ∈ (states k).shared.models, m.id = modelId := by
      intro k
      obtain ⟨m, hm, hid⟩ := hmodel
      exact ⟨m, (extends_of_le hrun k).models.subset hm, hid⟩
    refine ⟨_, fun k => listVersions_of_mem (hstays k) size (k * size), ?_⟩
    intro fetches pages hread v hv hof
    exact exists_received_of_page (fun k => (hnext k).versions modelId) hread
      (Table.mem_select.mpr ⟨hv, decide_eq_true hof⟩)
  · have hstays : ∀ k, ∃ v, (states k).shared.versions.get? versionId = some v := by
      intro k
      induction k with
      | zero => exact hversion
      | succ k ih =>
        obtain ⟨v, hv⟩ := ih
        obtain ⟨w, hw, -⟩ := modelId_of_reach (hrun k) hv
        exact ⟨w, hw⟩
    refine ⟨_, fun k => listVersionEvents_of_mem (hstays k).choose_spec size (k * size), ?_⟩
    intro fetches pages hread
    have hcuts : Paging.Cuts size (fun k => (states k).shared.trail versionId) fun k =>
        ((((states k).shared.trail versionId).drop (k * size)).take size,
          ((states k).shared.trail versionId).length) := fun _ => rfl
    obtain ⟨last, hlast, -, hrows⟩ :=
      Paging.received_of_appends hcuts (fun k => (hnext k).events versionId) hread
    rw [Nat.zero_mul, List.drop_zero] at hrows
    exact ⟨last, by omega, hrows⟩

end

/-- Two models, two versions of the first, and two deployments of one of them. -/
def listedAtFirst : State :=
  exec (step id) (fun _ _ => True) secondModel
    [(0, request 1 .development false), (0, .call (.approveVersion 9 none 1 5)),
      (0, request 1 .staging false)]

/-- A third model, a third version, a job that is done, and a promotion. -/
def betweenFetches : List (ℕ × Action) :=
  [(0, .call (.createModel 9 { name := "fan", owner := "ops", framework := .keras })),
    (0, .call (.createVersion 9 none 1 { version := "3.0", artifactUri := "s3://pump/3" }))] ++
    executeJob 1 "worker-1" 10 ++ [(0, .call (.transitionVersion 9 none 1 .staging))]

/-- The platform at the fetches of a client: all that happens, happens between the first fetch and
the second. -/
def registeredBetween : ℕ → State
  | 0 => listedAtFirst
  | _ + 1 => exec (step id) (fun _ _ => True) listedAtFirst betweenFetches

/-- The clients read pages of one row. They receive both models, both deployments, and both versions
that were there when they began, and the events of version 1 with the promotion in the meantime. -/
theorem listings_complete_registeredBetween :
    (∃ pages, Paging.read 1 (fun k => listModels .ascii (registeredBetween k).shared 1 (k * 1) none)
        3 0 = some pages ∧
      ∀ m ∈ listedAtFirst.shared.models, m ∈ Paging.received pages) ∧
    (∃ pages, Paging.read 1 (fun k => listDeployments .ascii (registeredBetween k).shared 1 (k * 1)
        none) 2 0 = some pages ∧
      ∀ d ∈ listedAtFirst.shared.deployments, ∃ d' ∈ Paging.received pages, d'.id = d.id) ∧
    (∃ fetch pages, (∀ k, listVersions (registeredBetween k).shared 1 1 (k * 1) = .ok (fetch k)) ∧
      Paging.read 1 fetch 3 0 = some pages ∧
      ∀ v ∈ listedAtFirst.shared.versions, v.modelId = 1 →
        ∃ v' ∈ Paging.received pages, v'.id = v.id) ∧
    ∃ fetch pages, (∀ k, listVersionEvents (registeredBetween k).shared 1 1 (k * 1) =
        .ok (fetch k)) ∧
      Paging.read 1 fetch 4 0 = some pages ∧
      (Paging.received pages).map ModelVersionEvent.event =
        ["created", "validated", "approved", "promoted"] := by
  have hrun : ∀ k, Reach (step id) (fun _ _ => True) (registeredBetween k)
      (registeredBetween (k + 1)) := by
    intro k
    cases k with
    | zero => exact exec_reach _ _ _ _
    | succ k => exact .refl
  obtain ⟨hmodels, hdeployments, hversions, hevents⟩ := listings_complete hrun .ascii none 1
  refine ⟨?_, ?_, ?_, ?_⟩
  · have hread : (Paging.read 1 (fun k => listModels .ascii (registeredBetween k).shared 1 (k * 1)
        none) 3 0).isSome = true := by decide +kernel
    obtain ⟨pages, hpages⟩ := Option.isSome_iff_exists.mp hread
    exact ⟨pages, hpages, fun m hm => hmodels 3 pages hpages m hm rfl⟩
  · have hread : (Paging.read 1 (fun k => listDeployments .ascii (registeredBetween k).shared 1
        (k * 1) none) 2 0).isSome = true := by decide +kernel
    obtain ⟨pages, hpages⟩ := Option.isSome_iff_exists.mp hread
    exact ⟨pages, hpages, hdeployments 2 pages hpages⟩
  · obtain ⟨fetch, hfetch, hcomplete⟩ := hversions 1 (by decide +kernel)
    have hsame : fetch = fun k =>
        ((listVersions (registeredBetween k).shared 1 1 (k * 1)).toOption).getD ([], 0) :=
      funext fun k => by rw [hfetch]; rfl
    have hread : (Paging.read 1 fetch 3 0).isSome = true := by
      rw [hsame]
      decide +kernel
    obtain ⟨pages, hpages⟩ := Option.isSome_iff_exists.mp hread
    exact ⟨fetch, pages, hfetch, hpages, hcomplete 3 pages hpages⟩
  · obtain ⟨fetch, hfetch, hcomplete⟩ := hevents 1 ⟨_, rfl⟩
    have hsame : fetch = fun k =>
        ((listVersionEvents (registeredBetween k).shared 1 1 (k * 1)).toOption).getD ([], 0) :=
      funext fun k => by rw [hfetch]; rfl
    have hread : (Paging.read 1 fetch 4 0).map List.length = some 4 := by
      rw [hsame]
      decide +kernel
    obtain ⟨pages, hpages, hlength⟩ := Option.map_eq_some_iff.mp hread
    obtain ⟨last, hlast, hreceived⟩ := hcomplete 4 pages hpages
    obtain rfl : last = 3 := by omega
    refine ⟨fetch, pages, hfetch, hpages, ?_⟩
    rw [hreceived]
    decide +kernel

end MlopsPlatform
