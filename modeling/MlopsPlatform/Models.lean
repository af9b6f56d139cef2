import MlopsPlatform.Core
import MlopsPlatform.Library.Table

/-!
# Rows, tables, and the unit of work

The ORM classes of `models/`, the database that holds them, and what `db.commit()` does with the
objects that a session has staged. SQLAlchemy compares each attribute with the value it loaded and
sends `UPDATE … SET` the changed columns only, `WHERE id = …` only; under READ COMMITTED the update
lands on whatever row is stored by then. `flushColumn` is that rule for one column, and the `flush`
of a row applies it to every column that some service or worker assigns. Inserts draw their ids
when they are flushed. Rows are never deleted.
-/

namespace MlopsPlatform

/-! ## Rows -/

/-- A JSON value. -/
inductive Json
  | null
  | bool (value : Bool)
  | number (digits : String)
  | string (value : String)
  | array (values : List Json)
  | object (members : List (String × Json))

/-- The members of a JSON object, as a `tags` column stores it. -/
abbrev Tags := List (String × Json)

/-- A registered model. -/
structure Model where
  id : Uuid
  /-- Business identifier (slug), unique. -/
  key : String
  name : String
  owner : String
  framework : String
  tags : Tags
  createdBy : Option Uuid

/-- A version of a model. -/
structure ModelVersion where
  id : Uuid
  modelId : Uuid
  version : String
  stage : LifecycleStage
  algorithm : Option String
  artifactUri : String
  trainingDataRef : Option String
  tags : Tags
  approvedBy : Option Uuid
  approvedAt : Option Time
  createdBy : Option Uuid

/-- The derived `approved` flag. -/
def ModelVersion.approved (v : ModelVersion) : Bool := v.approvedAt.isSome

/-- The service functions that record lifecycle events. -/
inductive VersionOperation
  | createVersion | approveVersion | transitionVersion
  deriving DecidableEq

/-- An entry of a version's audit trail. -/
structure ModelVersionEvent where
  id : Uuid
  modelVersionId : Uuid
  event : String
  fromStage : Option LifecycleStage
  toStage : LifecycleStage
  actorId : Option Uuid
  correlationId : Option String
  /-- Which service function recorded the event. It is not a column: it is kept here so that results
  about runs can tell an approval from a promotion. -/
  recordedBy : VersionOperation

/-- A deployment, which is also its own entry in the work queue. -/
structure Deployment where
  id : Uuid
  /-- Denormalized from the version. -/
  modelId : Uuid
  modelVersionId : Uuid
  environment : Environment
  status : DeploymentStatus
  idempotencyKey : Option String
  workerId : Option String
  lockedAt : Option Time
  attempts : ℕ
  error : Option String
  simulateFailure : Bool
  correlationId : Option String
  rolledBackToId : Option Uuid
  createdBy : Option Uuid
  deriving DecidableEq

/-- An entry of a deployment's timeline. -/
structure DeploymentEvent where
  id : Uuid
  deploymentId : Uuid
  status : DeploymentStatus
  event : String
  message : Option String
  actor : Option String
  correlationId : Option String

/-- The in-flight statuses, over which `uq_active_deployment` is partial. -/
def Deployment.inFlight (d : Deployment) : Bool :=
  d.status = .requested || d.status = .validating || d.status = .deploying

/-- The transient statuses in which a worker holds a job (`STUCK_STATES`). -/
def Deployment.running (d : Deployment) : Bool := d.status = .validating || d.status = .deploying

/-- The job is over: it SUCCEEDED, and may have been rolled back since. -/
def Deployment.finished (d : Deployment) : Bool := d.status = .succeeded || d.status = .rolledBack

/-- A running job has neither FAILED nor been rolled back. -/
theorem Deployment.status_of_running {d : Deployment} (h : d.running = true) :
    d.status ≠ .failed ∧ d.status ≠ .rolledBack := by
  constructor
  · intro hs
    simp [running, hs] at h
  · intro hs
    simp [running, hs] at h

/-- A running job is in flight. -/
theorem Deployment.inFlight_of_running {d : Deployment} (h : d.running = true) :
    d.inFlight = true := by
  simp only [running, inFlight, Bool.or_eq_true] at h ⊢
  rcases h with hs | hs
  · exact Or.inl (Or.inr hs)
  · exact Or.inr hs

/-- A running job is not finished. -/
theorem Deployment.not_finished_of_running {d : Deployment} (h : d.running = true) :
    ¬d.finished = true := by
  simp only [running, finished, Bool.or_eq_true, decide_eq_true_eq] at h ⊢
  rcases h with hs | hs <;> simp [hs]

/-! ## Flushing changed columns -/

/-- What an `UPDATE` leaves in a column: the assigned value where it differs from the loaded one,
and otherwise what is stored. -/
def flushColumn {α : Type} [DecidableEq α] (loaded assigned stored : α) : α :=
  if assigned = loaded then stored else assigned

/-- A column that was not assigned keeps the stored value. -/
@[simp]
theorem flushColumn_unchanged {α : Type} [DecidableEq α] (loaded stored : α) :
    flushColumn loaded loaded stored = stored := if_pos rfl

/-- Flushing onto the value that was loaded stores what was assigned. -/
@[simp]
theorem flushColumn_loaded {α : Type} [DecidableEq α] (loaded assigned : α) :
    flushColumn loaded assigned loaded = assigned := by
  unfold flushColumn
  split_ifs with h
  · exact h.symm
  · rfl

/-- A column holds the stored value or the assigned one after a flush. -/
theorem flushColumn_cases {α : Type} [DecidableEq α] (loaded assigned stored : α) :
    (assigned = loaded ∧ flushColumn loaded assigned stored = stored) ∨
      (assigned ≠ loaded ∧ flushColumn loaded assigned stored = assigned) := by
  unfold flushColumn
  split_ifs with h
  · exact Or.inl ⟨h, rfl⟩
  · exact Or.inr ⟨h, rfl⟩

/-- Flush the columns of a version that the services assign. -/
def ModelVersion.flush (loaded assigned stored : ModelVersion) : ModelVersion :=
  { stored with
    stage := flushColumn loaded.stage assigned.stage stored.stage
    approvedBy := flushColumn loaded.approvedBy assigned.approvedBy stored.approvedBy
    approvedAt := flushColumn loaded.approvedAt assigned.approvedAt stored.approvedAt }

/-- Flush the columns of a deployment that the services, the worker, and the reaper assign. -/
def Deployment.flush (loaded assigned stored : Deployment) : Deployment :=
  { stored with
    status := flushColumn loaded.status assigned.status stored.status
    workerId := flushColumn loaded.workerId assigned.workerId stored.workerId
    lockedAt := flushColumn loaded.lockedAt assigned.lockedAt stored.lockedAt
    attempts := flushColumn loaded.attempts assigned.attempts stored.attempts
    error := flushColumn loaded.error assigned.error stored.error
    rolledBackToId :=
      flushColumn loaded.rolledBackToId assigned.rolledBackToId stored.rolledBackToId }

/-! ## The database and the unit of work -/

/-- The tables. -/
structure Db where
  models : Table Model.id
  versions : Table ModelVersion.id
  versionEvents : Table ModelVersionEvent.id
  deployments : Table Deployment.id
  deploymentEvents : Table DeploymentEvent.id

/-- The database without rows. -/
def Db.empty : Db := ⟨.empty, .empty, .empty, .empty, .empty⟩

/-- A deployment that a session has loaded and then assigned to. -/
structure DirtyDeployment where
  loaded : Deployment
  assigned : Deployment

/-- What a session has staged when it reaches its `db.commit()`. -/
inductive UnitOfWork
  /-- A new model. -/
  | insertModel (model : Table.Draft Model.id)
  /-- A new version, and the event for it once it has an id. -/
  | insertVersion (version : Table.Draft ModelVersion.id)
    (event : Uuid → Table.Draft ModelVersionEvent.id)
  /-- A loaded version that was assigned to, and its event. -/
  | updateVersion (loaded assigned : ModelVersion) (event : Table.Draft ModelVersionEvent.id)
  /-- A new deployment, and the event for it once it has an id. -/
  | insertDeployment (deployment : Table.Draft Deployment.id)
    (event : Uuid → Table.Draft DeploymentEvent.id)
  /-- Loaded deployments that were assigned to, and the events recorded with them. -/
  | updateDeployments (dirty : List DirtyDeployment)
    (events : List (Table.Draft DeploymentEvent.id))

namespace UnitOfWork

/-- What a unit of work makes of a stored version. -/
def onVersion (u : UnitOfWork) (v : ModelVersion) : ModelVersion :=
  match u with
  | updateVersion loaded assigned _ => if loaded.id = v.id then loaded.flush assigned v else v
  | _ => v

/-- The object that a unit of work flushes onto the deployment with an id. The session's identity
map holds at most one for a row. -/
def dirtyFor (u : UnitOfWork) (deploymentId : Uuid) : Option DirtyDeployment :=
  match u with
  | updateDeployments dirty _ => dirty.find? fun x => x.loaded.id = deploymentId
  | _ => none

/-- What a unit of work makes of a stored deployment. -/
def onDeployment (u : UnitOfWork) (d : Deployment) : Deployment :=
  match u.dirtyFor d.id with
  | some x => x.loaded.flush x.assigned d
  | none => d

/-- A unit of work keeps the id of a version. -/
theorem onVersion_id (u : UnitOfWork) (v : ModelVersion) : (u.onVersion v).id = v.id := by
  unfold onVersion
  split
  · split_ifs <;> rfl
  · rfl

/-- A unit of work keeps a version with its model. -/
theorem onVersion_modelId (u : UnitOfWork) (v : ModelVersion) :
    (u.onVersion v).modelId = v.modelId := by
  unfold onVersion
  split
  · split_ifs <;> rfl
  · rfl

/-- A unit of work keeps the version string of a version. -/
theorem onVersion_version (u : UnitOfWork) (v : ModelVersion) :
    (u.onVersion v).version = v.version := by
  unfold onVersion
  split
  · split_ifs <;> rfl
  · rfl

/-- A unit of work keeps the id of a deployment. -/
theorem onDeployment_id (u : UnitOfWork) (d : Deployment) : (u.onDeployment d).id = d.id := by
  unfold onDeployment
  split
  · rfl
  · rfl

end UnitOfWork

/-- The tables after the flush of a unit of work, whether or not the constraints accept them. -/
def Db.write (db : Db) (u : UnitOfWork) : Db :=
  match u with
  | .insertModel model => { db with models := db.models.insert model }
  | .insertVersion version event =>
    { db with
      versions := db.versions.insert version
      -- The insert has drawn the id that the event refers to.
      versionEvents := db.versionEvents.insert (event db.versions.next) }
  | .updateVersion _ _ event =>
    { db with
      versions := db.versions.mapRows u.onVersion u.onVersion_id
      versionEvents := db.versionEvents.insert event }
  | .insertDeployment deployment event =>
    { db with
      deployments := db.deployments.insert deployment
      deploymentEvents := db.deploymentEvents.insert (event db.deployments.next) }
  | .updateDeployments _ events =>
    { db with
      -- `UPDATE … WHERE id = …`: whatever has become of the rows since they were loaded.
      deployments := db.deployments.mapRows u.onDeployment u.onDeployment_id
      deploymentEvents := db.deploymentEvents.insertAll events }

/-! ## What a write does to a row -/

/-- The unit of work writes to the versions and their trails. -/
def UnitOfWork.writesVersions : UnitOfWork → Bool
  | insertVersion _ _ => true
  | updateVersion _ _ _ => true
  | _ => false

/-- A unit of work that does not write to the versions leaves them and their trails as they are. -/
theorem UnitOfWork.write_of_not_writesVersions {u : UnitOfWork} (h : u.writesVersions = false)
    (db : Db) : (db.write u).versions = db.versions ∧
      (db.write u).versionEvents = db.versionEvents ∧ ∀ v, u.onVersion v = v := by
  cases u with
  | insertVersion version event => exact absurd h (by simp [writesVersions])
  | updateVersion loaded assigned event => exact absurd h (by simp [writesVersions])
  | insertModel model => exact ⟨rfl, rfl, fun _ => rfl⟩
  | insertDeployment deployment event => exact ⟨rfl, rfl, fun _ => rfl⟩
  | updateDeployments dirty events => exact ⟨rfl, rfl, fun _ => rfl⟩

/-- A version found by its id is found again after a write, as the write left it. -/
theorem Db.get?_versions_write {db : Db} {id : Uuid} {v : ModelVersion} (u : UnitOfWork)
    (h : db.versions.get? id = some v) : (db.write u).versions.get? id = some (u.onVersion v) := by
  cases u with
  | insertVersion version event => exact Table.get?_insert_of_eq_some h
  | updateVersion loaded assigned event => simp only [write, Table.get?_mapRows, h, Option.map_some]
  | insertModel model => exact h
  | insertDeployment deployment event => exact h
  | updateDeployments dirty events => exact h

/-- A version after a write is an old one, as the write left it, or the inserted one. -/
theorem Db.mem_versions_write {db : Db} {u : UnitOfWork} {v : ModelVersion}
    (h : v ∈ (db.write u).versions) :
    (∃ w ∈ db.versions, v = u.onVersion w) ∨
      ∃ version event, u = .insertVersion version event ∧ v = version.1 db.versions.next := by
  cases u with
  | insertVersion version event =>
    rcases Table.mem_insert.mp h with h | rfl
    · exact Or.inl ⟨v, h, rfl⟩
    · exact Or.inr ⟨version, event, rfl, rfl⟩
  | updateVersion loaded assigned event =>
    -- An update rewrites the rows where they are.
    have hmap : v ∈ db.versions.mapRows _ (UnitOfWork.onVersion_id _) := h
    obtain ⟨w, hw, rfl⟩ := Table.mem_mapRows.mp hmap
    exact Or.inl ⟨w, hw, rfl⟩
  | insertModel model => exact Or.inl ⟨v, h, rfl⟩
  | insertDeployment deployment event => exact Or.inl ⟨v, h, rfl⟩
  | updateDeployments dirty events => exact Or.inl ⟨v, h, rfl⟩

/-- A deployment found by its id is found again after a write, as the write left it. -/
theorem Db.get?_deployments_write {db : Db} {id : Uuid} {d : Deployment} (u : UnitOfWork)
    (h : db.deployments.get? id = some d) :
    (db.write u).deployments.get? id = some (u.onDeployment d) := by
  cases u with
  | insertDeployment deployment event => exact Table.get?_insert_of_eq_some h
  | updateDeployments dirty events => simp only [write, Table.get?_mapRows, h, Option.map_some]
  | insertModel model => exact h
  | insertVersion version event => exact h
  | updateVersion loaded assigned event => exact h

/-- A stored deployment is stored after a write, as the write left it. -/
theorem Db.onDeployment_mem_write {db : Db} {d : Deployment} (u : UnitOfWork)
    (h : d ∈ db.deployments) : u.onDeployment d ∈ (db.write u).deployments :=
  (Table.get?_eq_some.mp (Db.get?_deployments_write u (Table.get?_key h))).1

/-- A deployment after a write is an old one, as the write left it, or the inserted one. -/
theorem Db.mem_deployments_write {db : Db} {u : UnitOfWork} {d : Deployment}
    (h : d ∈ (db.write u).deployments) :
    (∃ e ∈ db.deployments, d = u.onDeployment e) ∨
      ∃ deployment event, u = .insertDeployment deployment event ∧
        d = deployment.1 db.deployments.next := by
  cases u with
  | insertDeployment deployment event =>
    rcases Table.mem_insert.mp h with h | rfl
    · exact Or.inl ⟨d, h, rfl⟩
    · exact Or.inr ⟨deployment, event, rfl, rfl⟩
  | updateDeployments dirty events =>
    have hmap : d ∈ db.deployments.mapRows _ (UnitOfWork.onDeployment_id _) := h
    obtain ⟨e, he, rfl⟩ := Table.mem_mapRows.mp hmap
    exact Or.inl ⟨e, he, rfl⟩
  | insertModel model => exact Or.inl ⟨d, h, rfl⟩
  | insertVersion version event => exact Or.inl ⟨d, h, rfl⟩
  | updateVersion loaded assigned event => exact Or.inl ⟨d, h, rfl⟩

/-- The deployments after an update are the old ones as it left them. -/
theorem Db.mem_deployments_update {db : Db} {dirty : List DirtyDeployment}
    {events : List (Table.Draft DeploymentEvent.id)} {d : Deployment} :
    d ∈ (db.write (.updateDeployments dirty events)).deployments ↔
      ∃ e ∈ db.deployments, (UnitOfWork.updateDeployments dirty events).onDeployment e = d := by
  simp only [Db.write, Table.mem_mapRows]

/-- The audit trail is append-only. -/
theorem Db.mem_versionEvents_write {db : Db} {e : ModelVersionEvent} (u : UnitOfWork)
    (h : e ∈ db.versionEvents) : e ∈ (db.write u).versionEvents := by
  cases u with
  | insertVersion version event => exact Table.mem_insert.mpr (Or.inl h)
  | updateVersion loaded assigned event => exact Table.mem_insert.mpr (Or.inl h)
  | insertModel model => exact h
  | insertDeployment deployment event => exact h
  | updateDeployments dirty events => exact h

/-- A unit of work records an entry of a deployment's timeline. -/
def UnitOfWork.Records (u : UnitOfWork) (x : Table.Draft DeploymentEvent.id) : Prop :=
  match u with
  | insertDeployment _ event => ∃ id, event id = x
  | updateDeployments _ events => x ∈ events
  | _ => False

/-- The unit of work writes to the deployments and their timelines. -/
def UnitOfWork.writesDeployments : UnitOfWork → Bool
  | insertDeployment _ _ => true
  | updateDeployments _ _ => true
  | _ => false

/-- A unit of work that does not write to the deployments records no timeline entry. -/
theorem UnitOfWork.not_records {u : UnitOfWork} (h : u.writesDeployments = false)
    (x : Table.Draft DeploymentEvent.id) : ¬u.Records x := by
  cases u with
  | insertDeployment deployment event => exact absurd h (by simp [writesDeployments])
  | updateDeployments dirty events => exact absurd h (by simp [writesDeployments])
  | insertModel model => exact not_false
  | insertVersion version event => exact not_false
  | updateVersion loaded assigned event => exact not_false

/-- A unit of work that does not write to the deployments leaves them and their timelines as they
are. -/
theorem UnitOfWork.write_of_not_writesDeployments {u : UnitOfWork}
    (h : u.writesDeployments = false) (db : Db) : (db.write u).deployments = db.deployments ∧
      (db.write u).deploymentEvents = db.deploymentEvents ∧ ∀ id, u.dirtyFor id = none := by
  cases u with
  | insertDeployment deployment event => exact absurd h (by simp [writesDeployments])
  | updateDeployments dirty events => exact absurd h (by simp [writesDeployments])
  | insertModel model => exact ⟨rfl, rfl, fun _ => rfl⟩
  | insertVersion version event => exact ⟨rfl, rfl, fun _ => rfl⟩
  | updateVersion loaded assigned event => exact ⟨rfl, rfl, fun _ => rfl⟩

/-- A timeline entry after a write is an old one, or one that the unit of work records. -/
theorem Db.mem_deploymentEvents_write {db : Db} {u : UnitOfWork} {e : DeploymentEvent}
    (h : e ∈ (db.write u).deploymentEvents) :
    e ∈ db.deploymentEvents ∨ ∃ x n, u.Records x ∧ e = x.1 n := by
  cases u with
  | insertDeployment deployment event =>
    rcases Table.mem_insert.mp h with hold | rfl
    · exact Or.inl hold
    · exact Or.inr ⟨_, _, ⟨_, rfl⟩, rfl⟩
  | updateDeployments dirty events =>
    rcases Table.mem_insertAll h with hold | ⟨x, hx, n, -, rfl⟩
    · exact Or.inl hold
    · exact Or.inr ⟨x, n, hx, rfl⟩
  | insertModel model => exact Or.inl h
  | insertVersion version event => exact Or.inl h
  | updateVersion loaded assigned event => exact Or.inl h

/-- Entries that do not match are not counted in. -/
theorem Db.countP_deploymentEvents_write {db : Db} {u : UnitOfWork} {p : DeploymentEvent → Bool}
    (h : ∀ x, u.Records x → ∀ n, p (x.1 n) = false) :
    (db.write u).deploymentEvents.rows.countP p = db.deploymentEvents.rows.countP p := by
  cases u with
  | insertDeployment deployment event =>
    have hrows : (db.write (.insertDeployment deployment event)).deploymentEvents.rows.countP p =
        (db.deploymentEvents.insert (event db.deployments.next)).rows.countP p := rfl
    rw [hrows, Table.countP_insert, h _ ⟨_, rfl⟩]
    rfl
  | updateDeployments dirty events => exact Table.countP_insertAll h
  | insertModel model => rfl
  | insertVersion version event => rfl
  | updateVersion loaded assigned event => rfl

/-- An update that records one event adds that event under the next key, and no other. -/
theorem Db.new_deploymentEvent_iff {db : Db} {dirty : List DirtyDeployment}
    {x : Table.Draft DeploymentEvent.id} {e : DeploymentEvent} :
    (e ∈ (db.write (.updateDeployments dirty [x])).deploymentEvents ∧ e ∉ db.deploymentEvents) ↔
      e = x.1 db.deploymentEvents.next := by
  have hmem : e ∈ (db.write (.updateDeployments dirty [x])).deploymentEvents ↔
      e ∈ db.deploymentEvents ∨ e = x.1 db.deploymentEvents.next := Table.mem_insert
  rw [hmem]
  constructor
  · rintro ⟨hold | hnew, hnot⟩
    · exact absurd hold hnot
    · exact hnew
  · rintro rfl
    refine ⟨Or.inr rfl, fun hold => ?_⟩
    -- The next key is not that of a stored event.
    have hlt := Table.key_lt_next hold
    rw [x.2] at hlt
    exact absurd hlt (Nat.lt_irrefl _)

/-- A timeline is append-only. -/
theorem Db.mem_deploymentEvents_of_mem {db : Db} {e : DeploymentEvent} (u : UnitOfWork)
    (h : e ∈ db.deploymentEvents) : e ∈ (db.write u).deploymentEvents := by
  cases u with
  | insertDeployment deployment event => exact Table.mem_insert.mpr (Or.inl h)
  | updateDeployments dirty events => exact Table.mem_insertAll_of_mem h
  | insertModel model => exact h
  | insertVersion version event => exact h
  | updateVersion loaded assigned event => exact h

/-- A unit of work with one object flushes it onto the row that it was loaded from. -/
theorem UnitOfWork.dirtyFor_single {x : DirtyDeployment}
    {events : List (Table.Draft DeploymentEvent.id)} {id : Uuid} :
    (updateDeployments [x] events).dirtyFor id = if x.loaded.id = id then some x else none := by
  simp only [dirtyFor, List.find?_cons, List.find?_nil]
  split_ifs with h <;> simp [h]

/-- The object that is flushed onto a deployment is one of the unit of work, loaded from that row.
-/
theorem UnitOfWork.dirtyFor_eq_some {u : UnitOfWork} {id : Uuid} {x : DirtyDeployment}
    (h : u.dirtyFor id = some x) :
    ∃ dirty events, u = updateDeployments dirty events ∧ x ∈ dirty ∧ x.loaded.id = id := by
  cases u with
  | updateDeployments dirty events =>
    exact ⟨dirty, events, rfl, List.mem_of_find?_eq_some h, by simpa using List.find?_some h⟩
  | insertModel model => exact absurd h (by simp [dirtyFor])
  | insertVersion version event => exact absurd h (by simp [dirtyFor])
  | updateVersion loaded assigned event => exact absurd h (by simp [dirtyFor])
  | insertDeployment deployment event => exact absurd h (by simp [dirtyFor])

/-- The object of an update that is flushed onto a deployment is one of the update's. -/
theorem UnitOfWork.mem_of_dirtyFor {dirty : List DirtyDeployment}
    {events : List (Table.Draft DeploymentEvent.id)} {id : Uuid} {x : DirtyDeployment}
    (h : (updateDeployments dirty events).dirtyFor id = some x) :
    x ∈ dirty ∧ x.loaded.id = id := by
  obtain ⟨dirty', events', hu, hmem, hid⟩ := dirtyFor_eq_some h
  obtain ⟨rfl, -⟩ := updateDeployments.inj hu
  exact ⟨hmem, hid⟩

/-- A unit of work flushes one of its objects onto a deployment, or leaves the row as it is. -/
theorem UnitOfWork.onDeployment_cases (u : UnitOfWork) (d : Deployment) :
    u.onDeployment d = d ∨ ∃ dirty events x, u = updateDeployments dirty events ∧ x ∈ dirty ∧
      x.loaded.id = d.id ∧ u.onDeployment d = x.loaded.flush x.assigned d := by
  unfold onDeployment
  split
  · rename_i x hx
    obtain ⟨dirty, events, hu, hmem, hid⟩ := dirtyFor_eq_some hx
    exact Or.inr ⟨dirty, events, x, hu, hmem, hid, rfl⟩
  · exact Or.inl rfl

/-- A unit of work that has no object for a deployment leaves it as it is. -/
theorem UnitOfWork.onDeployment_of_dirtyFor {u : UnitOfWork} {d : Deployment}
    (h : u.dirtyFor d.id = none) : u.onDeployment d = d := by
  rw [onDeployment, h]

/-- The status that an object leaves its row in. -/
theorem UnitOfWork.onDeployment_status {u : UnitOfWork} {d : Deployment} {x : DirtyDeployment}
    (h : u.dirtyFor d.id = some x) :
    (u.onDeployment d).status = flushColumn x.loaded.status x.assigned.status d.status := by
  rw [onDeployment, h]
  rfl

/-- No write changes what a deployment deploys, or where. -/
theorem UnitOfWork.onDeployment_frame (u : UnitOfWork) (d : Deployment) :
    (u.onDeployment d).modelId = d.modelId ∧ (u.onDeployment d).modelVersionId = d.modelVersionId ∧
      (u.onDeployment d).environment = d.environment := by
  rcases u.onDeployment_cases d with h | ⟨dirty, events, x, -, -, -, h⟩
  · rw [h]
    exact ⟨rfl, rfl, rfl⟩
  · rw [h]
    exact ⟨rfl, rfl, rfl⟩

/-- No write changes the idempotency key of a deployment. -/
theorem UnitOfWork.onDeployment_idempotencyKey (u : UnitOfWork) (d : Deployment) :
    (u.onDeployment d).idempotencyKey = d.idempotencyKey := by
  unfold onDeployment
  split <;> rfl

/-- A column that is set stays set when the assignment did not clear it. -/
theorem flushColumn_isSome {α : Type} [DecidableEq α] {loaded assigned stored : Option α}
    (ha : assigned = loaded ∨ assigned.isSome = true) (hs : stored.isSome = true) :
    (flushColumn loaded assigned stored).isSome = true := by
  rcases flushColumn_cases loaded assigned stored with ⟨-, h⟩ | ⟨hne, h⟩
  · rw [h]; exact hs
  · rw [h]; exact ha.resolve_left hne

/-! ## Constraints -/

/-- `models.key` is unique. -/
def Db.UniqueModelKey (db : Db) : Prop := db.models.rows.Pairwise fun a b => a.key ≠ b.key

/-- `uq_model_version`: a model has each version string once. -/
def Db.UniqueModelVersion (db : Db) : Prop :=
  db.versions.rows.Pairwise fun a b => ¬(a.modelId = b.modelId ∧ a.version = b.version)

/-- `deployments.idempotency_key` is unique, where nulls differ from each other. -/
def Db.UniqueIdempotencyKey (db : Db) : Prop :=
  db.deployments.rows.Pairwise fun a b =>
    ¬(a.idempotencyKey.isSome ∧ a.idempotencyKey = b.idempotencyKey)

/-- `uq_active_deployment`: at most one in-flight deployment for a `model_id` and environment. -/
def Db.UniqueActiveDeployment (db : Db) : Prop :=
  db.deployments.rows.Pairwise fun a b =>
    ¬(a.inFlight ∧ b.inFlight ∧ a.modelId = b.modelId ∧ a.environment = b.environment)

/-- The unique constraints and indexes of the schema. -/
def Db.Constraints (db : Db) : Prop :=
  db.UniqueModelKey ∧ db.UniqueModelVersion ∧ db.UniqueIdempotencyKey ∧ db.UniqueActiveDeployment

instance (db : Db) : Decidable db.UniqueModelKey :=
  inferInstanceAs (Decidable (db.models.rows.Pairwise _))

instance (db : Db) : Decidable db.UniqueModelVersion :=
  inferInstanceAs (Decidable (db.versions.rows.Pairwise _))

instance (db : Db) : Decidable db.UniqueIdempotencyKey :=
  inferInstanceAs (Decidable (db.deployments.rows.Pairwise _))

instance (db : Db) : Decidable db.UniqueActiveDeployment :=
  inferInstanceAs (Decidable (db.deployments.rows.Pairwise _))

instance (db : Db) : Decidable db.Constraints := inferInstanceAs (Decidable (_ ∧ _ ∧ _ ∧ _))

/-- Flush and commit a unit of work; `none` is the `IntegrityError` of a constraint, after which the
transaction is rolled back. -/
def Db.commit (db : Db) (u : UnitOfWork) : Option Db :=
  if (db.write u).Constraints then some (db.write u) else none

/-- A commit that succeeds wrote the unit of work, and the constraints accept the result. -/
theorem Db.commit_eq_some {db db' : Db} {u : UnitOfWork} :
    db.commit u = some db' ↔ (db.write u).Constraints ∧ db.write u = db' := by
  simp [Db.commit]

end MlopsPlatform
