import MlopsPlatform.Services.DeploymentService

/-!
# Schema bounds and column widths

The bounds that the request schemas check before a service runs, the widths that the columns
declare, and a database that rejects a value that is longer than its column, as PostgreSQL does and
SQLite does not. The message and the actor of a deployment event hold primary keys, whose text is 36
characters long in the source; they fit their columns, and are left out.
-/

namespace MlopsPlatform

/-! ## The bounds of the schemas -/

/-- The bounds of `ModelCreate`. -/
structure ModelCreate.Admissible (data : ModelCreate) : Prop where
  name : 1 ≤ data.name.length ∧ data.name.length ≤ 255
  owner : 1 ≤ data.owner.length ∧ data.owner.length ≤ 255

/-- The bounds of `ModelVersionCreate`. -/
structure ModelVersionCreate.Admissible (data : ModelVersionCreate) : Prop where
  version : 1 ≤ data.version.length ∧ data.version.length ≤ 64
  artifactUri : 1 ≤ data.artifactUri.length ∧ data.artifactUri.length ≤ 512
  algorithm : ∀ s ∈ data.algorithm, s.length ≤ 128
  trainingDataRef : ∀ s ∈ data.trainingDataRef, s.length ≤ 512

/-- The bounds of `DeploymentCreate`. -/
structure DeploymentCreate.Admissible (data : DeploymentCreate) : Prop where
  idempotencyKey : ∀ s ∈ data.idempotencyKey, s.length ≤ 128

/-! ## The widths of the columns -/

/-- A text fits into a column of a width. -/
def fitsColumn (width : ℕ) (s : String) : Bool := s.length ≤ width

/-- A text that is there and fits, or null, fits. -/
theorem all_fitsColumn {width : ℕ} {o : Option String} (h : ∀ s ∈ o, s.length ≤ width) :
    o.all (fitsColumn width) = true := by
  cases o with
  | none => rfl
  | some s => exact decide_eq_true (h s rfl)

/-- The columns of `models`. -/
def Model.fits (m : Model) : Bool :=
  fitsColumn 128 m.key && fitsColumn 255 m.name && fitsColumn 255 m.owner &&
    fitsColumn 64 m.framework

/-- The columns of `model_versions`. -/
def ModelVersion.fits (v : ModelVersion) : Bool :=
  fitsColumn 64 v.version && fitsColumn 32 v.stage.value &&
    v.algorithm.all (fitsColumn 128) && fitsColumn 512 v.artifactUri &&
    v.trainingDataRef.all (fitsColumn 512)

/-- The columns of `model_version_events`. -/
def ModelVersionEvent.fits (e : ModelVersionEvent) : Bool :=
  fitsColumn 64 e.event && e.fromStage.all (fun s => fitsColumn 32 s.value) &&
    fitsColumn 32 e.toStage.value && e.correlationId.all (fitsColumn 64)

/-- The columns of `deployments`. -/
def Deployment.fits (d : Deployment) : Bool :=
  fitsColumn 32 d.environment.value && fitsColumn 32 d.status.value &&
    d.idempotencyKey.all (fitsColumn 128) && d.workerId.all (fitsColumn 64) &&
    d.error.all (fitsColumn 255) && d.correlationId.all (fitsColumn 64)

/-- The columns of `deployment_events`. -/
def DeploymentEvent.fits (e : DeploymentEvent) : Bool :=
  fitsColumn 32 e.status.value && fitsColumn 64 e.event &&
    e.correlationId.all (fitsColumn 64)

namespace UnitOfWork

/-- The rows that a unit of work inserts or assigns to fit. -/
def rowsFit (db : Db) : UnitOfWork → Bool
  | insertModel model => (model.1 db.models.next).fits
  | insertVersion version _ => (version.1 db.versions.next).fits
  -- An `UPDATE` sends the columns that were assigned to.
  | updateVersion _ assigned _ => fitsColumn 32 assigned.stage.value
  | insertDeployment deployment _ => (deployment.1 db.deployments.next).fits
  | updateDeployments dirty _ => dirty.all fun x =>
    fitsColumn 32 x.assigned.status.value && x.assigned.workerId.all (fitsColumn 64) &&
      x.assigned.error.all (fitsColumn 255)

/-- The events that a unit of work records fit. -/
def eventsFit (db : Db) : UnitOfWork → Bool
  | insertModel _ => true
  | insertVersion _ event => ((event db.versions.next).1 db.versionEvents.next).fits
  | updateVersion _ _ event => (event.1 db.versionEvents.next).fits
  | insertDeployment _ event => ((event db.deployments.next).1 db.deploymentEvents.next).fits
  | updateDeployments _ events => events.all fun x => (x.1 db.deploymentEvents.next).fits

end UnitOfWork

/-! ## A database that checks widths -/

/-- Why a database rejects a unit of work. -/
inductive DbError
  /-- A value is too long for its column. -/
  | dataError
  /-- A constraint is violated. -/
  | integrityError

/-- Flush and commit a unit of work to a database that checks widths. The rows are written before
the events that refer to them, and a value is checked before the row is put into an index. -/
def Db.commitStrict (db : Db) (u : UnitOfWork) : Except DbError Db :=
  if !u.rowsFit db then .error .dataError
  else
    match db.commit u with
    | none => .error .integrityError
    | some db' => if !u.eventsFit db then .error .dataError else .ok db'

/-- A commit succeeds if everything fits and the constraints accept the result. -/
theorem Db.commitStrict_eq_ok {db db' : Db} {u : UnitOfWork} :
    db.commitStrict u = .ok db' ↔
      u.rowsFit db = true ∧ u.eventsFit db = true ∧ (db.write u).Constraints ∧
        db.write u = db' := by
  unfold commitStrict commit
  cases u.rowsFit db with
  | false => simp
  | true =>
    by_cases hcons : (db.write u).Constraints
    · cases u.eventsFit db with
      | false => simp [hcons]
      | true => simp [hcons]
    · simp [hcons]

/-- The names of stages fit. -/
theorem LifecycleStage.fitsColumn_value (s : LifecycleStage) : fitsColumn 32 s.value = true := by
  cases s <;> rfl

/-- The names of statuses fit. -/
theorem DeploymentStatus.fitsColumn_value (s : DeploymentStatus) :
    fitsColumn 32 s.value = true := by
  cases s <;> rfl

/-- The names of environments fit. -/
theorem Environment.fitsColumn_value (e : Environment) : fitsColumn 32 e.value = true := by
  cases e <;> rfl

/-- The names of frameworks fit. -/
theorem Framework.fitsColumn_value (f : Framework) : fitsColumn 64 f.value = true := by
  cases f <;> rfl

/-- The names of lifecycle events fit. -/
theorem fitsColumn_eventName (fromStage : Option LifecycleStage) (toStage : LifecycleStage) :
    fitsColumn 64 (eventName fromStage toStage) = true := by
  unfold eventName
  split_ifs <;> rfl

end MlopsPlatform
