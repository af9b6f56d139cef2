import MlopsPlatform.Requests.TimelineOrder

/-!
# References between rows

Rows refer to each other by id, and what a row says of the rows that it refers to is true of them: a
deployment has the model of its version, it was rolled back to a deployment of its model in its
environment, and a metric has the model, the version string and the environment of its version and
of its deployment. The API checks some of this when it reads, the seeder none of it; the database
checks only that an id is there. `integrity_of_reach` says that it holds in every state that
sessions and seeders reach, however they are interleaved and whatever is in the files. What is
referred to is never deleted or renamed (`Grows`), so that it can be relied on from the reads of a
session to its commit.
-/

namespace MlopsPlatform

open Transition Transaction Seeding

/-! ## What is referred to -/

namespace SampleStore

/-- There is a model with the id. -/
def HasModel (s : SampleStore) (id : Uuid) : Prop := ∃ m ∈ s.db.models, m.id = id

/-- There is a version with the id, of the model and with the version string. -/
def HasVersion (s : SampleStore) (id modelId : Uuid) (version : String) : Prop :=
  ∃ v ∈ s.db.versions, v.id = id ∧ v.modelId = modelId ∧ v.version = version

/-- There is a deployment with the id, of the version of the model, in the environment. -/
def HasDeployment (s : SampleStore) (id modelId modelVersionId : Uuid) (environment : Environment) :
    Prop :=
  ∃ d ∈ s.db.deployments, d.id = id ∧ d.modelId = modelId ∧ d.modelVersionId = modelVersionId ∧
    d.environment = environment

/-- What a deployment refers to is there, and is as the deployment says. -/
structure RelatedDeployment (s : SampleStore) (d : Deployment) : Prop where
  version : ∃ text, s.HasVersion d.modelVersionId d.modelId text
  fallback : ∀ id ∈ d.rolledBackToId, ∃ versionId,
    s.HasDeployment id d.modelId versionId d.environment

/-- What a metric refers to is there, and is as the metric says. -/
structure RelatedMetric (s : SampleStore) (m : Metric) : Prop where
  model : s.HasModel m.modelId
  version : ∀ id ∈ m.modelVersionId, s.HasVersion id m.modelId m.version
  deployment : ∀ id ∈ m.deploymentId, ∃ versionId, m.modelVersionId = some versionId ∧
    s.HasDeployment id m.modelId versionId m.environment

/-- What every row refers to is there, and is as the row says. -/
structure Related (s : SampleStore) : Prop where
  versions : ∀ v ∈ s.db.versions, s.HasModel v.modelId
  versionEvents : ∀ e ∈ s.db.versionEvents, ∃ modelId text,
    s.HasVersion e.modelVersionId modelId text
  deployments : ∀ d ∈ s.db.deployments, s.RelatedDeployment d
  deploymentEvents : ∀ e ∈ s.db.deploymentEvents, ∃ modelId versionId environment,
    s.HasDeployment e.deploymentId modelId versionId environment
  metrics : ∀ m ∈ s.metrics, s.RelatedMetric m

/-- What there is in one store is there in another. -/
structure Grows (s t : SampleStore) : Prop where
  models : ∀ m ∈ s.db.models, m ∈ t.db.models
  version : ∀ id modelId text, s.HasVersion id modelId text → t.HasVersion id modelId text
  deployment : ∀ id modelId versionId environment,
    s.HasDeployment id modelId versionId environment →
      t.HasDeployment id modelId versionId environment

variable {s t r : SampleStore}

/-- A store has what it has. -/
theorem Grows.refl (s : SampleStore) : s.Grows s :=
  ⟨fun _ h => h, fun _ _ _ h => h, fun _ _ _ _ h => h⟩

/-- What stays through two changes stays. -/
theorem Grows.trans (h : s.Grows t) (h' : t.Grows r) : s.Grows r :=
  ⟨fun _ hm => h'.models _ (h.models _ hm), fun _ _ _ hv => h'.version _ _ _ (h.version _ _ _ hv),
    fun _ _ _ _ hd => h'.deployment _ _ _ _ (h.deployment _ _ _ _ hd)⟩

/-- A model stays there. -/
theorem Grows.model (h : s.Grows t) {id : Uuid} (hmodel : s.HasModel id) : t.HasModel id := by
  obtain ⟨m, hm, hid⟩ := hmodel
  exact ⟨m, h.models m hm, hid⟩

/-- A deployment stays related. -/
theorem RelatedDeployment.grow {d : Deployment} (h : s.RelatedDeployment d) (hgrows : s.Grows t) :
    t.RelatedDeployment d := by
  obtain ⟨text, hversion⟩ := h.version
  refine ⟨⟨text, hgrows.version _ _ _ hversion⟩, fun id hid => ?_⟩
  obtain ⟨versionId, hdeployment⟩ := h.fallback id hid
  exact ⟨versionId, hgrows.deployment _ _ _ _ hdeployment⟩

/-- A metric stays related. -/
theorem RelatedMetric.grow {m : Metric} (h : s.RelatedMetric m) (hgrows : s.Grows t) :
    t.RelatedMetric m := by
  refine ⟨hgrows.model h.model, fun id hid => hgrows.version _ _ _ (h.version id hid), ?_⟩
  intro id hid
  obtain ⟨versionId, hversion, hdeployment⟩ := h.deployment id hid
  exact ⟨versionId, hversion, hgrows.deployment _ _ _ _ hdeployment⟩

/-- No two versions have the same id. -/
theorem HasVersion.unique {id modelId modelId' : Uuid} {text text' : String}
    (h : s.HasVersion id modelId text) (h' : s.HasVersion id modelId' text') :
    modelId = modelId' := by
  obtain ⟨v, hv, hid, rfl, -⟩ := h
  obtain ⟨w, hw, hid', rfl, -⟩ := h'
  rw [Table.eq_of_key_eq _ hv hw (hid.trans hid'.symm)]

/-- Every row of a store that has grown is one that was related before, or is related now. -/
theorem Related.grow (h : s.Related) (hgrows : s.Grows t)
    (hversions : ∀ v ∈ t.db.versions, s.HasModel v.modelId ∨ t.HasModel v.modelId)
    (hversionEvents : ∀ e ∈ t.db.versionEvents, e ∈ s.db.versionEvents ∨
      ∃ modelId text, t.HasVersion e.modelVersionId modelId text)
    (hdeployments : ∀ d ∈ t.db.deployments, d ∈ s.db.deployments ∨ t.RelatedDeployment d)
    (hdeploymentEvents : ∀ e ∈ t.db.deploymentEvents, e ∈ s.db.deploymentEvents ∨
      ∃ modelId versionId environment, t.HasDeployment e.deploymentId modelId versionId environment)
    (hmetrics : ∀ m ∈ t.metrics, m ∈ s.metrics ∨ t.RelatedMetric m) : t.Related := by
  refine ⟨fun v hv => ?_, fun e he => ?_, fun d hd => ?_, fun e he => ?_, fun m hm => ?_⟩
  · exact (hversions v hv).elim hgrows.model fun hmodel => hmodel
  · rcases hversionEvents e he with hold | hnew
    · obtain ⟨modelId, text, hversion⟩ := h.versionEvents e hold
      exact ⟨modelId, text, hgrows.version _ _ _ hversion⟩
    · exact hnew
  · exact (hdeployments d hd).elim (fun hold => (h.deployments d hold).grow hgrows) fun hnew => hnew
  · rcases hdeploymentEvents e he with hold | hnew
    · obtain ⟨modelId, versionId, environment, hdeployment⟩ := h.deploymentEvents e hold
      exact ⟨modelId, versionId, environment, hgrows.deployment _ _ _ _ hdeployment⟩
    · exact hnew
  · exact (hmetrics m hm).elim (fun hold => (h.metrics m hold).grow hgrows) fun hnew => hnew

end SampleStore

/-! ## The platform -/

/-- What a staged unit of work refers to is there. -/
def UnitOfWork.Relates (s : SampleStore) : UnitOfWork → Prop
  | insertModel _ => True
  | insertVersion version event => (∀ n, s.HasModel (version.1 n).modelId) ∧
      ∀ n m, ((event n).1 m).modelVersionId = n
  | updateVersion _ _ event => ∀ n, ∃ modelId text,
      s.HasVersion (event.1 n).modelVersionId modelId text
  | insertDeployment deployment event => (∀ n, s.RelatedDeployment (deployment.1 n)) ∧
      ∀ n m, ((event n).1 m).deploymentId = n
  | updateDeployments dirty events =>
    (∀ x ∈ dirty, x.assigned.rolledBackToId = x.loaded.rolledBackToId ∨
      s.HasDeployment x.loaded.id x.loaded.modelId x.loaded.modelVersionId x.loaded.environment ∧
        ∀ id ∈ x.assigned.rolledBackToId, ∃ versionId,
          s.HasDeployment id x.loaded.modelId versionId x.loaded.environment) ∧
      ∀ e ∈ events, ∀ n, ∃ modelId versionId environment,
        s.HasDeployment (e.1 n).deploymentId modelId versionId environment

section

variable {s t : SampleStore} {u : UnitOfWork}

/-- What a staged unit of work refers to stays there. -/
theorem UnitOfWork.Relates.grow (h : u.Relates s) (hgrows : s.Grows t) : u.Relates t := by
  cases u with
  | insertModel model => trivial
  | insertVersion version event => exact ⟨fun n => hgrows.model (h.1 n), h.2⟩
  | updateVersion loaded assigned event =>
    intro n
    obtain ⟨modelId, text, hversion⟩ := h n
    exact ⟨modelId, text, hgrows.version _ _ _ hversion⟩
  | insertDeployment deployment event => exact ⟨fun n => (h.1 n).grow hgrows, h.2⟩
  | updateDeployments dirty events =>
    refine ⟨fun x hx => (h.1 x hx).imp_right ?_, fun e he n => ?_⟩
    · rintro ⟨hloaded, hassigned⟩
      refine ⟨hgrows.deployment _ _ _ _ hloaded, fun id hid => ?_⟩
      obtain ⟨versionId, hdeployment⟩ := hassigned id hid
      exact ⟨versionId, hgrows.deployment _ _ _ _ hdeployment⟩
    · obtain ⟨modelId, versionId, environment, hdeployment⟩ := h.2 e he n
      exact ⟨modelId, versionId, environment, hgrows.deployment _ _ _ _ hdeployment⟩

/-- A stored deployment is there. -/
theorem SampleStore.hasDeployment_of_mem {d : Deployment} (hd : d ∈ s.db.deployments) :
    s.HasDeployment d.id d.modelId d.modelVersionId d.environment :=
  ⟨d, hd, rfl, rfl, rfl, rfl⟩

/-- An update of a deployment that is there, with one event, that assigns no other fallback. -/
theorem relates_single {d assigned : Deployment} {name : String} {message actor : Option String}
    (hd : d ∈ s.db.deployments) (hid : assigned.id = d.id)
    (hassigned : assigned.rolledBackToId = d.rolledBackToId ∨
      ∀ id ∈ assigned.rolledBackToId, ∃ versionId,
        s.HasDeployment id d.modelId versionId d.environment) :
    (UnitOfWork.updateDeployments [⟨d, assigned⟩]
      [recordEvent assigned name message actor]).Relates s := by
  have hhas := SampleStore.hasDeployment_of_mem hd
  refine ⟨fun x hx => ?_, fun e he n => ?_⟩
  · obtain rfl := List.mem_singleton.mp hx
    exact hassigned.imp_right fun h => ⟨hhas, h⟩
  · obtain rfl := List.mem_singleton.mp he
    have hevent : ((recordEvent assigned name message actor).1 n).deploymentId = d.id := hid
    rw [hevent]
    exact ⟨_, _, _, hhas⟩

/-- What reads of a related store stage refers to what is there. -/
theorem Staged.relates {lower : String → String} {w : Writer} (h : Staged lower s.db w u) :
    u.Relates s := by
  have hversion : ∀ {id : Uuid} {v : ModelVersion}, s.db.versions.get? id = some v →
      s.HasVersion id v.modelId v.version := fun hv =>
    ⟨_, (Table.get?_eq_some.mp hv).1, (Table.get?_eq_some.mp hv).2, rfl, rfl⟩
  cases h with
  | @call call u hc =>
    cases call with
    | createModel actorId data =>
      obtain ⟨key, -, rfl⟩ := Option.map_eq_some_iff.mp (Call.stage_eq_ok hc)
      trivial
    | createVersion actorId correlationId modelId data =>
      obtain ⟨hmodel, -, rfl⟩ := createVersion_eq_ok.mp (Call.stage_eq_ok hc)
      obtain ⟨m, hm⟩ := Option.isSome_iff_exists.mp hmodel
      exact ⟨fun n => ⟨m, Table.get?_eq_some.mp hm⟩, fun n m => rfl⟩
    | approveVersion actorId correlationId versionId now =>
      obtain ⟨v, hv, -, rfl⟩ := approveVersion_eq_ok.mp (Call.stage_eq_ok hc)
      obtain rfl := (Table.get?_eq_some.mp hv).2
      exact fun n => ⟨_, _, hversion hv⟩
    | transitionVersion actorId correlationId versionId target =>
      obtain ⟨v, hv, -, -, rfl⟩ := transitionVersion_eq_ok.mp (Call.stage_eq_ok hc)
      obtain rfl := (Table.get?_eq_some.mp hv).2
      exact fun n => ⟨_, _, hversion hv⟩
    | requestDeployment actorId correlationId data =>
      obtain ⟨v, deployment, event, -, hv, -, rfl, hrow⟩ :=
        requestDeployment_eq_staged (Call.stage_eq_ok hc)
      refine ⟨fun n => ?_, fun n m => ?_⟩
      · rw [(hrow n).1]
        exact ⟨⟨_, hversion hv⟩, fun id hid => absurd hid (by simp)⟩
      · rw [(hrow n).2]
        exact deployment.2 n
    | retryDeployment actorId deploymentId =>
      obtain ⟨d, hd, -, rfl⟩ := retryDeployment_eq_ok.mp (Call.stage_eq_ok hc)
      exact relates_single (Table.get?_eq_some.mp hd).1 rfl (Or.inl rfl)
    | rollbackDeployment actorId deploymentId =>
      obtain ⟨d, t, hd, -, ht, rfl⟩ := rollbackDeployment_eq_ok.mp (Call.stage_eq_ok hc)
      refine relates_single (Table.get?_eq_some.mp hd).1 rfl (Or.inr fun id hid => ?_)
      -- The target is of the same model, in the same environment.
      obtain ⟨hmem, ⟨henvironment, -, hmodel, -, -⟩, -⟩ := rollbackTarget_eq_some.mp ht
      obtain rfl := Option.some.inj hid
      exact ⟨_, t, hmem, rfl, hmodel, rfl, henvironment⟩
  | claim hx =>
    obtain ⟨-, -, -, -, hassigned⟩ := claimOne_eq_some.mp hx
    refine ⟨fun y hy => Or.inl ?_, fun e he => absurd he List.not_mem_nil⟩
    obtain rfl := List.mem_singleton.mp hy
    rw [hassigned]
  | segment hs =>
    obtain ⟨d, assigned, event, message, hd, hwrite, rfl⟩ := processDeployment_eq_some hs
    have hsame : assigned.id = d.id ∧ assigned.rolledBackToId = d.rolledBackToId := by
      cases hwrite <;> exact ⟨rfl, rfl⟩
    exact relates_single (Table.get?_eq_some.mp hd).1 hsame.1 (Or.inl hsame.2)
  | reap hr =>
    obtain ⟨stuck, hstuck, rfl⟩ := reapStuck_eq_some hr
    refine ⟨fun y hy => Or.inl ?_, fun e he n => ?_⟩
    · obtain ⟨d, -, rfl⟩ := List.mem_map.mp hy
      show (reaped d).rolledBackToId = d.rolledBackToId
      unfold reaped
      split_ifs
      · rfl
      · rfl
    · obtain ⟨d, hd, rfl⟩ := List.mem_map.mp he
      rw [(reapEvent_status d n).1]
      exact ⟨_, _, _, SampleStore.hasDeployment_of_mem ((hstuck d).mp hd).1⟩

/-- The first commit of `process_deployment` tells of the job that was claimed. -/
theorem relates_startValidation {d e : Deployment} (hd : d ∈ s.db.deployments) (hid : e.id = d.id) :
    (startValidation e).Relates s := by
  refine ⟨fun x hx => absurd hx List.not_mem_nil, fun x hx n => ?_⟩
  obtain rfl := List.mem_singleton.mp hx
  have hevent : ((recordEvent e "validation_started" none (some "worker")).1 n).deploymentId =
      d.id := hid
  rw [hevent]
  exact ⟨_, _, _, SampleStore.hasDeployment_of_mem hd⟩

/-- A write takes nothing away. -/
theorem grows_write (s : SampleStore) (u : UnitOfWork) : s.Grows { s with db := s.db.write u } := by
  refine ⟨fun m hm => ?_, ?_, ?_⟩
  · cases u with
    | insertModel model => exact Table.mem_insert.mpr (Or.inl hm)
    | _ => exact hm
  · rintro id modelId text ⟨v, hv, rfl, rfl, rfl⟩
    obtain ⟨hv', -⟩ := Table.get?_eq_some.mp (Db.get?_versions_write u (Table.get?_key hv))
    exact ⟨_, hv', u.onVersion_id v, u.onVersion_modelId v, u.onVersion_version v⟩
  · rintro id modelId versionId environment ⟨d, hd, rfl, rfl, rfl, rfl⟩
    obtain ⟨hmodel, hversion, henvironment⟩ := u.onDeployment_frame d
    exact ⟨_, Db.onDeployment_mem_write u hd, u.onDeployment_id d, hmodel, hversion, henvironment⟩

/-- A deployment is related after a write, as the write left it. -/
theorem SampleStore.RelatedDeployment.onDeployment {d : Deployment} (h : s.RelatedDeployment d)
    (hd : d ∈ s.db.deployments) (hu : u.Relates s) : s.RelatedDeployment (u.onDeployment d) := by
  obtain ⟨hmodel, hversion, henvironment⟩ := u.onDeployment_frame d
  obtain ⟨text, htext⟩ := h.version
  refine ⟨⟨text, ?_⟩, ?_⟩
  · rw [hmodel, hversion]
    exact htext
  rw [hmodel, henvironment]
  rcases u.onDeployment_cases d with hsame | ⟨dirty, events, x, rfl, hx, hid, hflush⟩
  · rw [hsame]
    exact h.fallback
  · rw [hflush]
    show ∀ id ∈ flushColumn x.loaded.rolledBackToId x.assigned.rolledBackToId d.rolledBackToId, _
    rcases flushColumn_cases x.loaded.rolledBackToId x.assigned.rolledBackToId d.rolledBackToId with
      ⟨-, hkeep⟩ | ⟨hne, hassign⟩
    · rw [hkeep]
      exact h.fallback
    · -- The loaded row is an older state of the stored one.
      obtain ⟨⟨e, he, heid, hemodel, -, heenvironment⟩, hassigned⟩ := (hu.1 x hx).resolve_left hne
      obtain rfl := Table.eq_of_key_eq _ he hd (heid.trans hid)
      rw [hassign, hemodel, heenvironment]
      exact hassigned

/-- A write keeps the rows related. -/
theorem SampleStore.Related.write (h : s.Related) (hu : u.Relates s) :
    SampleStore.Related { s with db := s.db.write u } := by
  have hgrows := grows_write s u
  refine h.grow hgrows (fun v hv => ?_) (fun e he => ?_) (fun d hd => ?_) (fun e he => ?_)
    fun m hm => Or.inl hm
  · rcases Db.mem_versions_write hv with ⟨w, hw, rfl⟩ | ⟨version, event, rfl, rfl⟩
    · rw [u.onVersion_modelId]
      exact Or.inl (h.versions w hw)
    · exact Or.inl (hu.1 _)
  · cases u with
    | insertVersion version event =>
      refine (Table.mem_insert.mp he).imp_right ?_
      rintro rfl
      rw [hu.2]
      exact ⟨_, _, _, Table.mem_insert.mpr (Or.inr rfl), version.2 _, rfl, rfl⟩
    | updateVersion loaded assigned event =>
      refine (Table.mem_insert.mp he).imp_right ?_
      rintro rfl
      obtain ⟨modelId, text, hversion⟩ := hu s.db.versionEvents.next
      exact ⟨modelId, text, hgrows.version _ _ _ hversion⟩
    | _ => exact Or.inl he
  · rcases Db.mem_deployments_write hd with ⟨e, he, rfl⟩ | ⟨deployment, event, rfl, rfl⟩
    · exact Or.inr (((h.deployments e he).onDeployment he hu).grow hgrows)
    · exact Or.inr ((hu.1 _).grow hgrows)
  · cases u with
    | insertDeployment deployment event =>
      refine (Table.mem_insert.mp he).imp_right ?_
      rintro rfl
      rw [hu.2]
      exact ⟨_, _, _, _, Table.mem_insert.mpr (Or.inr rfl), deployment.2 _, rfl, rfl, rfl⟩
    | updateDeployments dirty events =>
      refine (Table.mem_insertAll he).imp_right ?_
      rintro ⟨x, hx, n, -, rfl⟩
      obtain ⟨modelId, versionId, environment, hdeployment⟩ := hu.2 x hx n
      exact ⟨modelId, versionId, environment, hgrows.deployment _ _ _ _ hdeployment⟩
    | _ => exact Or.inl he

end

/-! ## The seeder -/

/-- What a new row of the sample refers to is there. -/
def SampleRow.Relates (s : SampleStore) : SampleRow → Prop
  | model _ => True
  | version draft => s.HasModel (draft.1 s.db.versions.next).modelId
  | versionEvent draft => ∃ modelId text,
      s.HasVersion (draft.1 s.db.versionEvents.next).modelVersionId modelId text
  | deployment draft => s.RelatedDeployment (draft.1 s.db.deployments.next)
  | deploymentEvent draft => ∃ modelId versionId environment,
      s.HasDeployment (draft.1 s.db.deploymentEvents.next).deploymentId modelId versionId
        environment
  | metric draft => s.RelatedMetric (draft.1 s.metrics.next)

/-- An insert takes nothing away. -/
theorem SampleStore.grows_insert (s : SampleStore) (row : SampleRow) : s.Grows (s.insert row) := by
  refine ⟨fun m hm => ?_, ?_, ?_⟩
  · cases row with
    | model draft => exact Table.mem_insert.mpr (Or.inl hm)
    | _ => exact hm
  · rintro id modelId text ⟨v, hv, hversion⟩
    cases row with
    | version draft => exact ⟨v, Table.mem_insert.mpr (Or.inl hv), hversion⟩
    | _ => exact ⟨v, hv, hversion⟩
  · rintro id modelId versionId environment ⟨d, hd, hdeployment⟩
    cases row with
    | deployment draft => exact ⟨d, Table.mem_insert.mpr (Or.inl hd), hdeployment⟩
    | _ => exact ⟨d, hd, hdeployment⟩

/-- An insert of a row whose references are there keeps the rows related. -/
theorem SampleStore.Related.insert {s : SampleStore} {row : SampleRow} (h : s.Related)
    (hrow : row.Relates s) : (s.insert row).Related := by
  have hgrows := s.grows_insert row
  refine h.grow hgrows (fun v hv => ?_) (fun e he => ?_) (fun d hd => ?_) (fun e he => ?_)
    fun m hm => ?_
  · cases row with
    | version draft =>
      rcases Table.mem_insert.mp hv with hold | rfl
      · exact Or.inl (h.versions v hold)
      · exact Or.inl hrow
    | _ => exact Or.inl (h.versions v hv)
  · cases row with
    | versionEvent draft =>
      refine (Table.mem_insert.mp he).imp_right ?_
      rintro rfl
      exact hrow
    | _ => exact Or.inl he
  · cases row with
    | deployment draft =>
      refine (Table.mem_insert.mp hd).imp_right ?_
      rintro rfl
      exact RelatedDeployment.grow hrow hgrows
    | _ => exact Or.inl hd
  · cases row with
    | deploymentEvent draft =>
      refine (Table.mem_insert.mp he).imp_right ?_
      rintro rfl
      exact hrow
    | _ => exact Or.inl he
  · cases row with
    | metric draft =>
      refine (Table.mem_insert.mp hm).imp_right ?_
      rintro rfl
      exact RelatedMetric.grow hrow hgrows
    | _ => exact Or.inl hm

/-- Inserts of rows whose references are there, and stay there, keep the rows related. -/
theorem SampleStore.Related.insertAll {s : SampleStore} {rows : List SampleRow} (h : s.Related)
    (hrows : ∀ row ∈ rows, ∀ t, s.Grows t → row.Relates t) :
    s.Grows (rows.foldl SampleStore.insert s) ∧ (rows.foldl SampleStore.insert s).Related := by
  induction rows generalizing s with
  | nil => exact ⟨.refl s, h⟩
  | cons row rows ih =>
    have hgrows := s.grows_insert row
    have hrow := hrows row List.mem_cons_self s (.refl s)
    obtain ⟨hrest, hrelated⟩ := ih (h.insert hrow) fun row' hrow' t ht =>
      hrows row' (List.mem_cons_of_mem _ hrow') t (hgrows.trans ht)
    exact ⟨hgrows.trans hrest, hrelated⟩

namespace Seeding

/-- What the dictionaries of the registry lead to is there. -/
structure Registry.Points (ctx : SeedContext) (registry : Registry) (s : SampleStore) : Prop where
  models : ∀ k m, registry.model? k = some m →
    m ∈ s.db.models ∧ ctx.columnText k.json = some m.key
  versions : ∀ k k' v, registry.version? k k' = some v →
    (∃ text, ctx.columnText k'.json = some text ∧ s.HasVersion v.id v.modelId text) ∧
      ∃ m, registry.model? k = some m ∧ m.id = v.modelId

/-- What the dictionary of deployments leads to is there. -/
def Deployments.Points (state : Deployments) (s : SampleStore) : Prop :=
  ∀ versionId environment d, state.deploymentsByCombo.lookup (versionId, environment) = some d →
    ∃ modelId text, s.HasVersion versionId modelId text ∧
      s.HasDeployment d.id modelId versionId environment

/-- The part of the seeder takes nothing away, keeps the rows related, and returns what it says. -/
def Extends {α : Type} (postgresql : Bool) (s : SampleStore) (p : Seeding α)
    (Ret : α → SampleStore → Prop) : Prop :=
  s.Related → Loads (seedBackend postgresql) s p (fun a t => s.Grows t ∧ t.Related ∧ Ret a t) True

section

variable {α β : Type} {ctx : SeedContext} {postgresql : Bool} {s t : SampleStore}
variable {registry : Registry} {state : Deployments} {Ret : α → SampleStore → Prop}

/-- What the registry leads to stays there. -/
theorem Registry.Points.grow (h : registry.Points ctx s) (hgrows : s.Grows t) :
    registry.Points ctx t := by
  refine ⟨fun k m hm => ?_, fun k k' v hv => ?_⟩
  · obtain ⟨hmem, hkey⟩ := h.models k m hm
    exact ⟨hgrows.models m hmem, hkey⟩
  · obtain ⟨⟨text, htext, hversion⟩, hmodel⟩ := h.versions k k' v hv
    exact ⟨⟨text, htext, hgrows.version _ _ _ hversion⟩, hmodel⟩

/-- What the deployments lead to stays there. -/
theorem Deployments.Points.grow (h : state.Points s) (hgrows : s.Grows t) : state.Points t := by
  intro versionId environment d hd
  obtain ⟨modelId, text, hversion, hdeployment⟩ := h versionId environment d hd
  exact ⟨modelId, text, hgrows.version _ _ _ hversion, hgrows.deployment _ _ _ _ hdeployment⟩

/-- The rule of consequence. -/
theorem Extends.weaken {p : Seeding α} {Ret' : α → SampleStore → Prop}
    (h : Extends postgresql s p Ret') (hret : ∀ a t, Ret' a t → Ret a t) :
    Extends postgresql s p Ret :=
  fun hs => (h hs).weaken (fun a t ht => ⟨ht.1, ht.2.1, hret a t ht.2.2⟩) id

/-- Returning. -/
theorem extends_pure {a : α} (h : Ret a s) : Extends postgresql s (pure a) Ret :=
  fun hs => .pure ⟨.refl s, hs, h⟩

/-- Reading a file. -/
theorem extends_read {o : Option β} {f : β → Seeding α}
    (h : ∀ b, o = some b → Extends postgresql s (f b) Ret) :
    Extends postgresql s (read o >>= f) Ret :=
  fun hs => loads_read (fun b hb => h b hb hs) fun _ => trivial

/-- One part after another. -/
theorem extends_bind {p : Seeding β} {f : β → Seeding α} {Mid : β → SampleStore → Prop}
    (hp : Extends postgresql s p Mid)
    (hf : ∀ b t, s.Grows t → Mid b t → Extends postgresql t (f b) Ret) :
    Extends postgresql s (p >>= f) Ret := by
  refine fun hs => .bind _ (hp hs) ?_
  rintro b t ⟨hgrows, ht, hmid⟩
  refine (hf b t hgrows hmid ht).weaken ?_ id
  rintro a r ⟨hgrows', hr, hret⟩
  exact ⟨hgrows.trans hgrows', hr, hret⟩

/-- A loop. -/
theorem extends_foldlM {f : α → β → Seeding α}
    (h : ∀ acc x t, s.Grows t → Ret acc t → Extends postgresql t (f acc x) Ret) (xs : List β)
    (acc : α) (hacc : Ret acc s) : Extends postgresql s (xs.foldlM f acc) Ret := by
  induction xs generalizing s acc with
  | nil => exact extends_pure hacc
  | cons x xs ih =>
    rw [List.foldlM_cons]
    refine extends_bind (h acc x s (.refl s) hacc) fun acc' t hgrows hacc' => ?_
    exact ih (fun acc x r hr hret => h acc x r (hgrows.trans hr) hret) acc' hacc'

/-- A row that is flushed. -/
theorem extends_addFlush {row : SampleRow} {key : SampleStore → β} {f : β → Seeding α}
    (hrow : row.Relates s) (h : (s.insert row).accepted postgresql = true →
      Extends postgresql (s.insert row) (f (key (s.insert row))) Ret) :
    Extends postgresql s (addFlush .rejected row key >>= f) Ret := by
  refine fun hs => .addFlush (fun haccepted => ?_) fun _ => trivial
  refine (h haccepted (hs.insert hrow)).weaken ?_ id
  rintro a t ⟨hgrows, ht, hret⟩
  exact ⟨(s.grows_insert row).trans hgrows, ht, hret⟩

/-- Rows that are staged. -/
theorem extends_addAll {rows : List SampleRow} {f : Unit → Seeding α}
    (hrows : ∀ row ∈ rows, ∀ t, s.Grows t → row.Relates t)
    (h : ∀ t, s.Grows t → Extends postgresql t (f ()) Ret) :
    Extends postgresql s (addAll rows >>= f) Ret := by
  intro hs
  obtain ⟨hgrows, hrelated⟩ := hs.insertAll hrows
  refine .addAll ((h _ hgrows hrelated).weaken ?_ id)
  rintro a t ⟨hgrows', ht, hret⟩
  exact ⟨hgrows.trans hgrows', ht, hret⟩

/-- A row that is staged. -/
theorem extends_stage {row : SampleRow} {f : Unit → Seeding α} (hrow : row.Relates s)
    (h : Extends postgresql (s.insert row) (f ()) Ret) :
    Extends postgresql s ((stage fun staged => staged ++ [row]) >>= f) Ret := by
  refine fun hs => .stage ((h (hs.insert hrow)).weaken ?_ id)
  rintro a t ⟨hgrows, ht, hret⟩
  exact ⟨(s.grows_insert row).trans hgrows, ht, hret⟩

/-! ## The loops of the seeder -/

/-- `_make_deployment` makes a deployment of the version. -/
theorem extends_makeDeployment {model : Model} {version : ModelVersion} {text : String}
    (hversion : s.HasVersion version.id model.id text) (environment : Environment)
    (status : DeploymentStatus) (error : ErrorTexts) (actorId : Option Uuid) :
    Extends postgresql s (makeDeployment model version environment status error actorId)
      fun d t => t.HasDeployment d.id model.id version.id environment := by
  refine extends_addFlush ⟨⟨text, hversion⟩, fun id hid => absurd hid (by simp [newDeployment,
    deploymentRow])⟩ fun _ => ?_
  have hkey : (s.insert (.deployment (newDeployment model.id version.id environment status
      error.error actorId))).db.deployments.lastKey = s.db.deployments.next := Table.lastKey_insert
  have hhas : (s.insert (.deployment (newDeployment model.id version.id environment status
      error.error actorId))).HasDeployment s.db.deployments.next model.id version.id environment :=
    ⟨_, Table.mem_insert.mpr (Or.inr rfl), deploymentRow_id _ _ _ _ _ _ _, rfl, rfl, rfl⟩
  rw [hkey]
  refine extends_addAll (fun row hrow t hgrows => ?_) fun t hgrows =>
    extends_pure (hgrows.deployment _ _ _ _ hhas)
  obtain ⟨step, -, rfl⟩ := List.mem_map.mp hrow
  exact ⟨_, _, _, hgrows.deployment _ _ _ _ hhas⟩

/-- A version of the registry. -/
theorem extends_seedVersion {k : Json.Key} {model : Model} (h : registry.Points ctx s)
    (hmodel : registry.model? k = some model) (vspec : Json) :
    Extends postgresql s (seedVersion ctx k model registry vspec) fun registry' t =>
      registry'.Points ctx t ∧ registry'.model? k = some model := by
  refine extends_read fun stage _ => extends_read fun approved _ => extends_read fun text htext =>
    extends_read fun artifactUri _ => ?_
  refine extends_addFlush ⟨model, (h.models _ _ hmodel).1, rfl⟩ fun _ => ?_
  generalize ctx.utcnow registry.counts.versions = now
  have hkey : (s.insert (.version ⟨versionRow ctx model.id text stage artifactUri
      (approved.truthy ctx.isZero) now, versionRow_id _ _ _ _ _ _ _⟩)).db.versions.lastKey =
        s.db.versions.next := Table.lastKey_insert
  have hhas : (s.insert (.version ⟨versionRow ctx model.id text stage artifactUri
      (approved.truthy ctx.isZero) now, versionRow_id _ _ _ _ _ _ _⟩)).HasVersion
        s.db.versions.next model.id text :=
    ⟨_, Table.mem_insert.mpr (Or.inr rfl), rfl, rfl, rfl⟩
  rw [hkey]
  refine extends_read fun k' hk' => extends_addAll (fun row hrow t hgrows => ?_)
    fun t hgrows => extends_pure ⟨⟨?_, ?_⟩, hmodel⟩
  · obtain ⟨draft, hdraft, rfl⟩ := List.mem_map.mp hrow
    refine ⟨model.id, text, ?_⟩
    rw [modelVersionId_lifecycle hdraft]
    exact hgrows.version _ _ _ hhas
  · exact (h.grow ((s.grows_insert _).trans hgrows)).models
  · intro i i' v hv
    rw [Registry.version?, List.lookup_cons] at hv
    split at hv
    · next hsame =>
      obtain ⟨rfl, rfl⟩ := Prod.mk.inj (eq_of_beq hsame)
      obtain rfl := Option.some.inj hv
      rw [item_of_key hk', Option.bind_some] at htext
      exact ⟨⟨text, htext, hgrows.version _ _ _ hhas⟩, model, hmodel, rfl⟩
    · exact (h.grow ((s.grows_insert _).trans hgrows)).versions i i' v hv

/-- A model of the registry. -/
theorem extends_seedModel (h : registry.Points ctx s) (spec : Json) :
    Extends postgresql s (seedModel ctx registry spec) fun registry' t =>
      registry'.Points ctx t := by
  refine extends_read fun key hkey => extends_read fun name _ => extends_read fun owner _ =>
    extends_read fun framework _ => extends_addFlush trivial fun haccepted => ?_
  have hlast : (s.insert (.model ⟨modelRow ctx key name owner framework,
      modelRow_id _ _ _ _ _⟩)).db.models.lastKey = s.db.models.next := Table.lastKey_insert
  have hgrows := s.grows_insert (.model ⟨modelRow ctx key name owner framework,
    modelRow_id _ _ _ _ _⟩)
  have hnew : ∀ m ∈ s.db.models, m.key ≠ key := fun m hm => key_ne_of_accepted haccepted hm
  rw [hlast]
  refine extends_read fun k hk => extends_read fun vspecs _ => ?_
  rw [item_of_key hk, Option.bind_some] at hkey
  refine (extends_foldlM (fun registry vspec t _ hr => extends_seedVersion hr.1 hr.2 vspec) vspecs _
    ⟨⟨fun i m hm => ?_, fun i i' v hv => ?_⟩, ?_⟩).weaken fun registry' t hr => hr.1
  · rw [Registry.model?, List.lookup_cons] at hm
    split at hm
    · next hsame =>
      obtain rfl := eq_of_beq hsame
      obtain rfl := Option.some.inj hm
      exact ⟨Table.mem_insert.mpr (Or.inr rfl), hkey⟩
    · exact (h.grow hgrows).models i m hm
  · obtain ⟨⟨text, htext, hversion⟩, m, hm, hid⟩ := h.versions i i' v hv
    refine ⟨⟨text, htext, hgrows.version _ _ _ hversion⟩, m, ?_, hid⟩
    -- The key of the new model is not that of an older one.
    obtain ⟨hmem, hstored⟩ := h.models i m hm
    have hne : i ≠ k := by
      rintro rfl
      exact hnew m hmem (Option.some.inj (hstored.symm.trans hkey))
    rw [Registry.model?, List.lookup_cons, beq_eq_false_iff_ne.mpr hne]
    exact hm
  · exact List.lookup_cons_self

/-- The version that a row of `metrics.csv` is of. -/
theorem Registry.Points.versionOf (h : registry.Points ctx s) {row : CsvRow} {v : ModelVersion}
    (hv : registry.versionOf row = some (some v)) :
    ∃ text, row.text "version" = some text ∧ s.HasVersion v.id v.modelId text ∧
      ∃ m, (row.key "model_id").bind registry.model? = some m ∧ m ∈ s.db.models ∧
        m.id = v.modelId := by
  obtain ⟨k, k', hk, hk', hlookup⟩ := versionOf_eq_some.mp hv
  obtain ⟨⟨text, htext, hhas⟩, m, hm, hid⟩ := h.versions k k' v hlookup
  refine ⟨text, (text_of_key hk' htext).1, hhas, m, ?_, (h.models k m hm).1, hid⟩
  rw [hk, Option.bind_some, hm]

/-- The deployment of a version and an environment is there, or it is made. -/
theorem extends_deploymentFor {row : CsvRow} {v : ModelVersion} (h : registry.Points ctx s)
    (hstate : state.Points s) (hv : registry.versionOf row = some (some v))
    (environment : Environment) :
    Extends postgresql s (deploymentFor ctx registry state row v environment) fun p t =>
      p.2.Points t ∧ t.HasDeployment p.1.id v.modelId v.id environment := by
  obtain ⟨text, -, hversion, m, hm, -, hid⟩ := h.versionOf hv
  unfold deploymentFor
  cases hlookup : state.deploymentsByCombo.lookup (v.id, environment) with
  | some deployment =>
    obtain ⟨modelId, text', hversion', hdeployment⟩ := hstate _ _ _ hlookup
    obtain rfl := hversion.unique hversion'
    exact extends_pure ⟨hstate, hdeployment⟩
  | none =>
    refine extends_read fun model hmodel => ?_
    obtain rfl := Option.some.inj (hm.symm.trans hmodel)
    rw [← hid] at hversion
    refine extends_bind (extends_makeDeployment hversion environment _ _ _) fun d t hgrows hd =>
      extends_pure ⟨fun versionId environment' d' hd' => ?_, hid ▸ hd⟩
    rw [List.lookup_cons] at hd'
    split at hd'
    · next hsame =>
      obtain ⟨rfl, rfl⟩ := Prod.mk.inj (eq_of_beq hsame)
      obtain rfl := Option.some.inj hd'
      exact ⟨_, text, hgrows.version _ _ _ hversion, hd⟩
    · exact hstate.grow hgrows _ _ _ hd'

/-- A row of `metrics.csv`. -/
theorem extends_seedMetric (h : registry.Points ctx s) (hstate : state.Points s)
    (row : Option CsvRow) :
    Extends postgresql s (seedMetric ctx registry state row) fun state' t => state'.Points t := by
  refine extends_read fun row _ => extends_read fun version hversion => ?_
  cases version with
  | none => exact extends_pure hstate
  | some v =>
    obtain ⟨text, htext, hhas, m, -, hm, hid⟩ := h.versionOf hversion
    refine extends_read fun environment _ => extends_bind (extends_deploymentFor h hstate hversion
      environment) fun p t hgrows hp => extends_read fun text' htext' => extends_read fun r _ => ?_
    obtain rfl := Option.some.inj (htext.symm.trans htext')
    obtain ⟨deployment, state'⟩ := p
    have hrow : (SampleRow.metric (newMetric v deployment.id text environment r)).Relates t := by
      refine ⟨hgrows.model ⟨m, hm, hid⟩, fun id hid => ?_, fun id hid => ?_⟩
      · obtain rfl := Option.some.inj hid
        exact hgrows.version _ _ _ hhas
      · obtain rfl := Option.some.inj hid
        exact ⟨v.id, rfl, hp.2⟩
    exact extends_stage hrow (extends_pure (hp.1.grow (t.grows_insert _)))

/-- An entry of `deployment_events.json`. -/
theorem extends_seedFailed (h : registry.Points ctx s) (counts : SeedCounts) (e : Json) :
    Extends postgresql s (seedFailed ctx registry counts e) fun _ _ => True := by
  refine extends_read fun status _ => ?_
  split_ifs
  · exact extends_pure trivial
  refine extends_read fun modelId _ => extends_read fun version _ => ?_
  cases hmodel : registry.model? modelId with
  | none => exact extends_pure trivial
  | some model =>
    cases hv : registry.version? modelId version with
    | none => exact extends_pure trivial
    | some v =>
      obtain ⟨⟨text, -, hhas⟩, m, hm, hid⟩ := h.versions modelId version v hv
      obtain rfl := Option.some.inj (hm.symm.trans hmodel)
      rw [← hid] at hhas
      exact extends_read fun environment _ => extends_read fun status _ =>
        extends_read fun error _ => extends_bind (extends_makeDeployment hhas environment status
          error _) fun d t _ _ => extends_pure trivial

/-- All rows of the sample. -/
theorem extends_seedRows (ctx : SeedContext) (files : SampleFiles) (s : SampleStore) :
    Extends postgresql s (seedRows ctx files) fun _ _ => True := by
  have hempty : Registry.Points ctx ⟨[], [], .zero⟩ s :=
    ⟨fun _ _ h => absurd h (by simp [Registry.model?]),
      fun _ _ _ h => absurd h (by simp [Registry.version?])⟩
  have hmodels : Extends postgresql s (seedModels ctx files) fun registry t =>
      registry.Points ctx t :=
    extends_read fun specs _ =>
      extends_foldlM (fun registry spec t _ hr => extends_seedModel hr spec) specs _ hempty
  refine extends_bind hmodels fun registry t _ hregistry => ?_
  have hmetrics : Extends postgresql t (files.metrics.foldlM (seedMetric ctx registry)
      ⟨[], registry.counts⟩) fun state r => state.Points r :=
    extends_foldlM (fun state row r hgrows hstate =>
      extends_seedMetric (hregistry.grow hgrows) hstate row) files.metrics _
        fun _ _ _ h => absurd h (by simp)
  refine extends_bind hmetrics fun state r hgrows _ => ?_
  unfold seedEvents
  cases files.deploymentEvents with
  | none => exact extends_pure trivial
  | some json =>
    exact extends_read fun entries _ => extends_foldlM (fun counts e r' hgrows' _ =>
      extends_seedFailed (hregistry.grow (hgrows.trans hgrows')) counts e) entries _ trivial

/-- The transaction of the seeder takes nothing away and keeps the rows related. -/
theorem related_seedsTo (ctx : SeedContext) (postgresql : Bool) (files : SampleFiles)
    {s : SampleStore} (h : s.Related) :
    s.Grows (seedsTo ctx postgresql files s) ∧ (seedsTo ctx postgresql files s).Related := by
  have hextends : Extends postgresql s (seedRows ctx files) fun _ _ => True :=
    extends_seedRows ctx files s
  have hrun := (hextends h).commit .rejected (.start s) rfl rfl
  have hsolo : seedsTo ctx postgresql files s = ((seedRows ctx files >>= fun counts =>
      commitExcept (raise .rejected) >>= fun _ => pure counts).solo (seedBackend postgresql)
        (.start s)).2.committed := rfl
  rw [hsolo]
  revert hrun
  generalize (seedRows ctx files >>= fun counts =>
    commitExcept (raise .rejected) >>= fun _ => pure counts).solo (seedBackend postgresql)
      (.start s) = r
  rcases r with ⟨e | counts, tx⟩
  · rintro ⟨hunchanged, -⟩
    dsimp only
    rw [hunchanged]
    exact ⟨.refl s, h⟩
  · exact fun hrun => ⟨hrun.1.1, hrun.1.2.1⟩

end

end Seeding

/-! ## Runs -/

namespace Clocked

variable {lower : String → String} {postgresql : Bool} {s s' : Clocked}

/-- What holds in every state that is reached: the rows are related, and what a session has staged
refers to what is there. -/
structure Intact (s : Clocked) : Prop where
  related : s.store.Related
  held : ∀ i w u, (s.platform.locals i).held = some (w, u) → u.Relates s.store

/-- At first there is nothing. -/
theorem intact_init : init.Intact := by
  refine ⟨⟨?_, ?_, ?_, ?_, ?_⟩, State.init_holds fun _ _ u => u.Relates init.store⟩
  · exact fun _ h => absurd h (Table.not_mem_empty _)
  · exact fun _ h => absurd h (Table.not_mem_empty _)
  · exact fun _ h => absurd h (Table.not_mem_empty _)
  · exact fun _ h => absurd h (Table.not_mem_empty _)
  · exact fun _ h => absurd h (Table.not_mem_empty _)

/-- What a step of the platform writes refers to what is there. -/
theorem Intact.written (h : s.Intact) {p : ℕ × Action} {w : Writer} {u : UnitOfWork}
    (hwritten : written lower s.platform p = some (w, u)) : u.Relates s.store :=
  (committed_cases (written_eq_some.mp hwritten).1).elim (h.held _ _ _) fun hreads =>
    hreads.staged.relates

/-- After a commit a session has staged nothing, or the first event of the job that it has claimed.
-/
theorem relates_of_commit {t : SampleStore} {l l' : Session} {a : Action} {w w' : Writer}
    {u v : UnitOfWork} (h : Planned lower t.db l a (.commit w u l'))
    (hv : l'.held = some (w', v)) : v.Relates { t with db := t.db.write u } := by
  cases h with
  | @claim workerId now locked x hx =>
    obtain ⟨hmem, -, -, -, hassigned⟩ := claimOne_eq_some.mp hx
    obtain ⟨-, rfl⟩ := Prod.mk.inj (Option.some.inj hv)
    obtain ⟨d, hd, hid⟩ := t.db.exists_deployment_write (.updateDeployments [x] []) x.loaded hmem
    refine relates_startValidation hd ?_
    rw [hid, hassigned]
  | work hs => exact absurd hv (by simp)
  | commitWork => exact absurd hv (by simp)
  | call hu => exact absurd hv (by simp [Session.held])
  | reap hu => exact absurd hv (by simp [Session.held])
  | commitCall => exact absurd hv (by simp [Session.held])
  | commitReap => exact absurd hv (by simp [Session.held])

/-- A step of the platform keeps it, and takes nothing away. -/
theorem Intact.platform (h : s.Intact) {i : ℕ} {a : Action} {platform : State}
    {createdAt : Uuid → Time} (hstep : MlopsPlatform.step lower s.platform (i, a) = some platform) :
    Intact { s with platform, createdAt } ∧
      s.store.Grows (store { s with platform, createdAt }) := by
  rcases step_cases hstep with ⟨l, -, hplan, rfl⟩ | ⟨w, u, l, hwritten, hplan, rfl⟩
  · refine ⟨⟨h.related, fun j w v hv => ?_⟩, .refl s.store⟩
    rcases s.platform.locals_update s.db i j l with ⟨-, hl⟩ | ⟨-, hl⟩
    · have hstaged : Staged lower s.store.db w v := (hplan.keep_cases (hl ▸ hv)).2.staged
      exact hstaged.relates
    · exact h.held j w v (hl ▸ hv)
  · have hgrows : s.store.Grows { s.store with db := s.store.db.write u } := grows_write s.store u
    have hplanned : Planned lower s.store.db (s.platform.locals i) a (.commit w u l) := hplan
    refine ⟨⟨h.related.write (h.written hwritten), fun j w' v hv => ?_⟩, hgrows⟩
    rcases s.platform.locals_update (s.db.write u) i j l with ⟨-, hl⟩ | ⟨-, hl⟩
    · exact relates_of_commit hplanned (hl ▸ hv)
    · exact (h.held j w' v (hl ▸ hv)).grow hgrows

/-- A step keeps it, and takes nothing away. -/
theorem Intact.step (h : s.Intact) {x : Time × Deed}
    (hstep : step lower postgresql s x = some s') : s'.Intact ∧ s.store.Grows s'.store := by
  obtain ⟨now, p | i | ⟨i, ctx, files⟩⟩ := x
  · obtain ⟨platform, hplatform, rfl⟩ := Option.map_eq_some_iff.mp hstep
    exact h.platform hplatform
  · obtain rfl := Option.some.inj hstep
    exact ⟨⟨h.related, h.held⟩, .refl s.store⟩
  · simp only [Clocked.step] at hstep
    split_ifs at hstep
    obtain rfl := Option.some.inj hstep
    obtain ⟨hgrows, hrelated⟩ := related_seedsTo ctx postgresql files h.related
    exact ⟨⟨hrelated, fun j w u hu => (h.held j w u hu).grow hgrows⟩, hgrows⟩

/-- In every state that sessions and seeders reach, whatever is in the files, every row refers to
rows that are there and is right about them; and these are there in every later state. -/
theorem integrity_of_reach {ok : Clocked → Time × Deed → Prop}
    (h : Reach (Clocked.step lower postgresql) ok init s)
    (h' : Reach (Clocked.step lower postgresql) ok s s') :
    s.store.Related ∧ s.store.Grows s'.store := by
  have hintact : s.Intact :=
    h.invariant intact_init fun _ _ _ _ hs _ hstep => (hs.step hstep).1
  have hlater : s'.Intact ∧ s.store.Grows s'.store := by
    refine h'.invariant (I := fun t => t.Intact ∧ s.store.Grows t.store) ⟨hintact, .refl s.store⟩ ?_
    intro t x t' _ ht _ hstep
    obtain ⟨hkept, hgrows⟩ := ht.1.step hstep
    exact ⟨hkept, ht.2.trans hgrows⟩
  exact ⟨hintact.related, hlater.2⟩

/-- A seeder looks at the registry, and then a session registers a model. -/
def overtakenRun : List (Time × Deed) :=
  (0, .countModels 5) :: registration.map fun p => (1, .platform p)

/-- The seeder adds its sample, and the version of the session is deployed. -/
def seedBesideRun : List (Time × Deed) :=
  [(2, .seed 5 pumpContext pumpFiles), (3, .platform (0, request 1 .development false))]

/-- The sample is seeded beside a model that the seeder does not know of: a second model is added,
and metrics of a version and of a deployment of this model. -/
theorem integrity_of_reach_overtakenRun :
    (exec (Clocked.step id true) (fun _ _ => True) init overtakenRun).store.Related ∧
      (exec (Clocked.step id true) (fun _ _ => True) init overtakenRun).store.Grows
        (exec (Clocked.step id true) (fun _ _ => True)
          (exec (Clocked.step id true) (fun _ _ => True) init overtakenRun) seedBesideRun).store ∧
      (exec (Clocked.step id true) (fun _ _ => True)
          (exec (Clocked.step id true) (fun _ _ => True) init overtakenRun)
          seedBesideRun).store.metrics.rows.map
        (fun m => (m.modelId, m.modelVersionId, m.deploymentId)) =
          [(2, some 3, some 1), (2, some 3, some 1)] := by
  obtain ⟨hrelated, hgrows⟩ :=
    integrity_of_reach (exec_reach (Clocked.step id true) (fun _ _ => True) init overtakenRun)
      (exec_reach (Clocked.step id true) (fun _ _ => True) _ seedBesideRun)
  exact ⟨hrelated, hgrows, by decide +kernel⟩

end Clocked

end MlopsPlatform
