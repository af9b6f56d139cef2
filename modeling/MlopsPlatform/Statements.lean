import MlopsPlatform.Library.Transaction
import MlopsPlatform.Answers

/-!
# The service functions, statement by statement

The service functions that can raise a `DomainError`, as programs of the statements that they take
in their SQLAlchemy session: what they load, each attribute that they assign, what they add, where
they flush and commit, and the `IntegrityError`s that they catch. The sessions do not autoflush.
`Call.ends` is what the whole call comes to in the rest of this development; a program that nobody
interferes with comes to the same (`Call.ends_statements`).
-/

namespace MlopsPlatform

open Transaction

/-! ## The session -/

/-- What a session has staged: an object that was added, or one that was loaded and assigned to. -/
inductive Change
  /-- A new version. -/
  | version (draft : Table.Draft ModelVersion.id)
  /-- A new deployment. -/
  | deployment (draft : Table.Draft Deployment.id)
  /-- A new event of a version. If the version is new, the event takes its id. -/
  | versionEvent (event : Uuid → Table.Draft ModelVersionEvent.id)
  /-- A new event of a deployment. If the deployment is new, the event takes its id. -/
  | deploymentEvent (event : Uuid → Table.Draft DeploymentEvent.id)
  /-- A loaded version that was assigned to. -/
  | dirtyVersion (loaded assigned : ModelVersion)
  /-- A loaded deployment that was assigned to. -/
  | dirtyDeployment (loaded assigned : Deployment)

/-- The flush of a change. -/
def Change.write (db : Db) : Change → Db
  | version draft => { db with versions := db.versions.insert draft }
  | deployment draft => { db with deployments := db.deployments.insert draft }
  -- The version or the deployment that a session has added is the last row that it sees.
  | versionEvent event =>
    { db with versionEvents := db.versionEvents.insert (event db.versions.lastKey) }
  | deploymentEvent event =>
    { db with deploymentEvents := db.deploymentEvents.insert (event db.deployments.lastKey) }
  | dirtyVersion loaded assigned =>
    { db with
      versions := db.versions.mapRows
        (fun v => if loaded.id = v.id then loaded.flush assigned v else v)
        fun v => by split_ifs <;> rfl }
  | dirtyDeployment loaded assigned =>
    { db with
      deployments := db.deployments.mapRows
        (UnitOfWork.updateDeployments [⟨loaded, assigned⟩] []).onDeployment
        (UnitOfWork.onDeployment_id _) }

/-- The changes are about one loaded object, of which the identity map holds one for a row. -/
def Change.sameObject : Change → Change → Bool
  | dirtyVersion loaded _, dirtyVersion loaded' _ => loaded.id = loaded'.id
  | dirtyDeployment loaded _, dirtyDeployment loaded' _ => loaded.id = loaded'.id
  | _, _ => false

/-- An exception that leaves a service function. -/
inductive Raised
  | domainError (e : DomainError)
  /-- A constraint has rejected a flush, and the service does not catch it. -/
  | integrityError
  /-- A statement after a rejected flush that was not rolled back. -/
  | pendingRollback
  /-- The row of an expired object is gone. -/
  | objectDeleted

/-- The exception is a domain error. -/
def Raised.IsDomainError (e : Raised) : Prop := ∃ d, e = .domainError d

/-- The database of the services. -/
def backend : Backend Db Change Raised := ⟨Change.write, fun db => db.Constraints, .pendingRollback⟩

/-- The statements of a service function. What it returns is left out. -/
abbrev Statements (α : Type) := Program Db Change Raised α

namespace Statements

/-- Go on with the result of a function of the services, or raise its error. -/
def lift {α : Type} : Except DomainError α → Statements α
  | .ok a => pure a
  | .error e => raise (.domainError e)

/-- `db.add(…)`. -/
def add (change : Change) : Statements Unit := stage fun staged => staged ++ [change]

/-- An assignment to an attribute of a loaded object, with what it makes of the object. -/
def assign (change : Change) : Statements Unit :=
  stage fun staged => (staged.filter fun x => !x.sameObject change) ++ [change]

/-- `db.refresh(…)`. -/
def refresh : Statements Unit := do
  let _ ← query

/-- An attribute of a deployment after a rollback, which has expired the object: the row is read
again. -/
def expired (deploymentId : Uuid) : Statements Deployment := do
  match (← query).deployments.get? deploymentId with
  | some deployment => pure deployment
  | none => raise .objectDeleted

/-- `db.flush()` or `db.commit()` without a handler. -/
def uncaught : Statements Unit := raise .integrityError

/-- Signal workers that new work exists (PostgreSQL only). `NOTIFY` writes to no table. -/
def notify (postgresql : Bool) : Statements Unit :=
  if postgresql then commitExcept uncaught else pure ()

/-! ## Versions -/

/-- `ModelVersion(…)` of `create_version`, with the id that its insert draws. -/
def versionRow (actorId modelId : Uuid) (data : ModelVersionCreate) (id : Uuid) : ModelVersion :=
  { id, modelId, version := data.version, stage := .draft, algorithm := data.algorithm
    artifactUri := data.artifactUri, trainingDataRef := data.trainingDataRef
    tags := data.tags, approvedBy := none, approvedAt := none, createdBy := some actorId }

/-- The row has the id that was drawn. -/
theorem versionRow_id (actorId modelId : Uuid) (data : ModelVersionCreate) (id : Uuid) :
    (versionRow actorId modelId data id).id = id := rfl

/-- The version that `create_version` adds. -/
def newVersion (actorId modelId : Uuid) (data : ModelVersionCreate) :
    Table.Draft ModelVersion.id :=
  ⟨versionRow actorId modelId data, versionRow_id actorId modelId data⟩

/-- Register a version of a model, in stage DRAFT. -/
def createVersion (actorId : Uuid) (correlationId : Option String) (modelId : Uuid)
    (data : ModelVersionCreate) : Statements Unit := do
  let _ ← lift (getModel (← query) modelId)
  let dup := (← query).versions.first? fun v => v.modelId = modelId && v.version = data.version
  raiseIf (dup.isSome)
    (.domainError (.conflictError s!"Version '{data.version}' already exists for this model"))
  add (.version (newVersion actorId modelId data))
  flushExcept uncaught
  add (.versionEvent fun id =>
    recordVersionEvent id none .draft actorId correlationId .createVersion)
  commitExcept uncaught
  refresh

/-- Approve a version (VALIDATED -> APPROVED), recording the approver. -/
def approveVersion (actorId : Uuid) (correlationId : Option String) (versionId : Uuid)
    (now : Time) : Statements Unit := do
  let version ← lift (getVersion (← query) versionId)
  let fromStage := version.stage
  lift (validateTransition fromStage .approved true)
  let assigned := { version with approvedAt := some now }
  assign (.dirtyVersion version assigned)
  let assigned := { assigned with approvedBy := some actorId }
  assign (.dirtyVersion version assigned)
  let assigned := { assigned with stage := .approved }
  assign (.dirtyVersion version assigned)
  add (.versionEvent fun _ =>
    recordVersionEvent version.id fromStage .approved actorId correlationId .approveVersion)
  commitExcept uncaught
  refresh

/-- Move a version to `target`, enforcing legality and the approval gate. -/
def transitionVersion (actorId : Uuid) (correlationId : Option String) (versionId : Uuid)
    (target : LifecycleStage) : Statements Unit := do
  let version ← lift (getVersion (← query) versionId)
  let fromStage := version.stage
  lift (validateTransition fromStage target version.approved)
  assign (.dirtyVersion version { version with stage := target })
  add (.versionEvent fun _ =>
    recordVersionEvent version.id fromStage target actorId correlationId .transitionVersion)
  commitExcept uncaught
  refresh

/-! ## Deployments -/

/-- The deployment that carries the key of a request. An empty key is not looked up. -/
def findByKey : Option String → Statements (Option Deployment)
  | some key => do
    if key = "" then pure none
    else pure ((← query).deployments.first? fun d => d.idempotencyKey = some key)
  | none => pure none

/-- The version that a request is for. -/
def requestedVersion (versionId : Uuid) : Statements ModelVersion := do
  match (← query).versions.get? versionId with
  | some version => pure version
  | none => raise (.domainError (.notFoundError s!"Model version {versionId} not found"))

/-- `Deployment(…)` of `request_deployment`, with the id that its insert draws. -/
def deploymentRow (actorId : Uuid) (correlationId : Option String) (data : DeploymentCreate)
    (version : ModelVersion) (id : Uuid) : Deployment :=
  { id
    modelId := version.modelId
    modelVersionId := data.modelVersionId
    environment := data.environment
    status := .requested
    idempotencyKey := data.idempotencyKey
    workerId := none
    lockedAt := none
    attempts := 0
    error := none
    simulateFailure := data.simulateFailure
    correlationId
    rolledBackToId := none
    createdBy := some actorId }

/-- The row has the id that was drawn. -/
theorem deploymentRow_id (actorId : Uuid) (correlationId : Option String)
    (data : DeploymentCreate) (version : ModelVersion) (id : Uuid) :
    (deploymentRow actorId correlationId data version id).id = id := rfl

/-- The deployment that `request_deployment` adds. -/
def newDeployment (actorId : Uuid) (correlationId : Option String) (data : DeploymentCreate)
    (version : ModelVersion) : Table.Draft Deployment.id :=
  ⟨deploymentRow actorId correlationId data version,
    deploymentRow_id actorId correlationId data version⟩

/-- What a request does if its key is new. -/
def insertRequested (postgresql : Bool) (actorId : Uuid) (correlationId : Option String)
    (data : DeploymentCreate) : Statements Unit := do
  let version ← requestedVersion data.modelVersionId
  lift (assertDeployable version data.environment)
  let deployment := newDeployment actorId correlationId data version
  add (.deployment deployment)
  -- The insert draws the id, and is where the constraints reject the request.
  flushExcept do
    rollback
    raise (.domainError (.conflictError (requestInProgress data.environment)))
  add (.deploymentEvent fun id =>
    recordEvent (deployment.1 id) "requested" none (some (toString actorId)))
  commitExcept uncaught
  refresh
  notify postgresql

/-- Create a deployment (REQUESTED), unless its idempotency key matches an existing one. -/
def requestDeployment (postgresql : Bool) (actorId : Uuid) (correlationId : Option String)
    (data : DeploymentCreate) : Statements Unit := do
  match ← findByKey data.idempotencyKey with
  | some _ => pure ()
  | none => insertRequested postgresql actorId correlationId data

/-- Re-queue a FAILED deployment. -/
def retryDeployment (postgresql : Bool) (actorId : Uuid) (deploymentId : Uuid) :
    Statements Unit := do
  let deployment ← lift (getDeployment (← query) deploymentId)
  raiseIf (deployment.status ≠ .failed) (.domainError (.conflictError
    s!"Only FAILED deployments can be retried (status is {deployment.status.value})"))
  let assigned := { deployment with status := .requested }
  assign (.dirtyDeployment deployment assigned)
  let assigned := { assigned with error := none }
  assign (.dirtyDeployment deployment assigned)
  let assigned := { assigned with workerId := none }
  assign (.dirtyDeployment deployment assigned)
  let assigned := { assigned with lockedAt := none }
  assign (.dirtyDeployment deployment assigned)
  add (.deploymentEvent fun _ =>
    recordEvent assigned "retry_requested" none (some (toString actorId)))
  commitExcept do
    rollback
    let deployment ← expired deployment.id
    raise (.domainError (.conflictError (retryInProgress deployment.environment)))
  refresh
  notify postgresql

/-- Roll back a SUCCEEDED deployment to the previous good one in the same environment. -/
def rollbackDeployment (actorId : Uuid) (deploymentId : Uuid) : Statements Unit := do
  let deployment ← lift (getDeployment (← query) deploymentId)
  raiseIf (deployment.status ≠ .succeeded) (.domainError (.conflictError
    s!"Only SUCCEEDED deployments can be rolled back (status is {deployment.status.value})"))
  let db ← query
  let target ← lift <|
    match rollbackTarget db deployment with
    | some target => .ok target
    | none => .error (.conflictError "No previous successful deployment to roll back to")
  let assigned := { deployment with status := .rolledBack }
  assign (.dirtyDeployment deployment assigned)
  let assigned := { assigned with rolledBackToId := some target.id }
  assign (.dirtyDeployment deployment assigned)
  add (.deploymentEvent fun _ =>
    recordEvent assigned "rolled_back" (some s!"rolled back to deployment {target.id}")
      (some (toString actorId)))
  commitExcept uncaught
  refresh

end Statements

/-- The statements of a call. A `create_model` raises no domain error and is left out. -/
def Call.statements (postgresql : Bool) : Call → Option (Statements Unit)
  | createModel _ _ => none
  | createVersion actorId correlationId modelId data =>
    some (Statements.createVersion actorId correlationId modelId data)
  | approveVersion actorId correlationId versionId now =>
    some (Statements.approveVersion actorId correlationId versionId now)
  | transitionVersion actorId correlationId versionId target =>
    some (Statements.transitionVersion actorId correlationId versionId target)
  | requestDeployment actorId correlationId data =>
    some (Statements.requestDeployment postgresql actorId correlationId data)
  | retryDeployment actorId deploymentId =>
    some (Statements.retryDeployment postgresql actorId deploymentId)
  | rollbackDeployment actorId deploymentId =>
    some (Statements.rollbackDeployment actorId deploymentId)

/-! ## A call that nobody interferes with -/

/-- How a call ends, and the database then. -/
def Call.ends (lower : String → String) (db : Db) (call : Call) : Except Raised Unit × Db :=
  match call.stage lower db with
  | .error e => (.error (.domainError e), db)
  | .ok none => (.ok (), db)
  | .ok (some u) =>
    match db.commit u with
    | some db' => (.ok (), db')
    | none =>
      match call.rejected u with
      | .raised e => (.error (.domainError e), db)
      | _ => (.error .integrityError, db)

namespace Statements

/-- How statements end, and the database then, in a session that has it for itself. -/
def ends {α : Type} (p : Statements α) (db : Db) : Except Raised α × Db :=
  ((p.solo backend (.start db)).1, (p.solo backend (.start db)).2.committed)

/-- The database accepts what meets the constraints. -/
@[simp]
theorem accepts_backend (db : Db) : backend.accepts db = decide db.Constraints := rfl

/-- A result of a service function is gone on with. -/
@[simp]
theorem lift_ok {α : Type} (a : α) : (lift (.ok a) : Statements α) = pure a := rfl

/-- An error of a service function is raised. -/
@[simp]
theorem lift_error {α : Type} (e : DomainError) :
    (lift (.error e) : Statements α) = raise (.domainError e) := rfl

/-- A refresh changes nothing. -/
@[simp]
theorem solo_refresh {db : Db} {flushed staged written : List Change} :
    refresh.solo backend ⟨db, flushed, staged, written, true⟩ =
      (.ok (), ⟨db, flushed, staged, written, true⟩) := by
  simp [refresh]

/-- The commit of `notify` has nothing to write. -/
@[simp]
theorem solo_notify {postgresql : Bool} {db : Db} {written : List Change} (h : db.Constraints) :
    (notify postgresql).solo backend ⟨db, [], [], written, true⟩ =
      (.ok (), ⟨db, [], [], written, true⟩) := by
  cases postgresql <;> simp [notify, h]

/-- The changes of an update of a deployment are its unit of work. -/
@[simp]
theorem write_deployment (db : Db) (loaded assigned : Deployment)
    (event : Table.Draft DeploymentEvent.id) :
    backend.write (backend.write db (.dirtyDeployment loaded assigned))
        (.deploymentEvent fun _ => event) =
      db.write (.updateDeployments [⟨loaded, assigned⟩] [event]) := rfl

/-- The changes of an update of a version are its unit of work. -/
@[simp]
theorem write_version (db : Db) (loaded assigned : ModelVersion)
    (event : Table.Draft ModelVersionEvent.id) :
    backend.write (backend.write db (.dirtyVersion loaded assigned))
        (.versionEvent fun _ => event) = db.write (.updateVersion loaded assigned event) := rfl

/-- The changes of a new deployment are its unit of work. -/
@[simp]
theorem write_newDeployment (db : Db) (draft : Table.Draft Deployment.id)
    (event : Uuid → Table.Draft DeploymentEvent.id) :
    backend.write (backend.write db (.deployment draft)) (.deploymentEvent event) =
      db.write (.insertDeployment draft event) := by
  simp [backend, Change.write, Db.write]

/-- The changes of a new version are its unit of work. -/
@[simp]
theorem write_newVersion (db : Db) (draft : Table.Draft ModelVersion.id)
    (event : Uuid → Table.Draft ModelVersionEvent.id) :
    backend.write (backend.write db (.version draft)) (.versionEvent event) =
      db.write (.insertVersion draft event) := by
  simp [backend, Change.write, Db.write]

/-- A flush of a new version is where its unit of work can be rejected. -/
theorem constraints_newVersion (db : Db) (draft : Table.Draft ModelVersion.id)
    (event : Uuid → Table.Draft ModelVersionEvent.id) :
    (db.write (.insertVersion draft event)).Constraints ↔
      (backend.write db (.version draft)).Constraints := Iff.rfl

/-- A flush of a new deployment is where its unit of work can be rejected. -/
theorem constraints_newDeployment (db : Db) (draft : Table.Draft Deployment.id)
    (event : Uuid → Table.Draft DeploymentEvent.id) :
    (db.write (.insertDeployment draft event)).Constraints ↔
      (backend.write db (.deployment draft)).Constraints := Iff.rfl

/-- The service goes on with what it has read. -/
@[simp]
theorem ok_bind {α β : Type} (a : α) (f : α → Except DomainError β) : (.ok a >>= f) = f a := rfl

/-- The service ends with an error. -/
@[simp]
theorem error_bind {α β : Type} (e : DomainError) (f : α → Except DomainError β) :
    (.error e >>= f) = .error e := rfl

variable {lower : String → String}

/-- `create_version`. -/
theorem ends_createVersion (db : Db) (actorId : Uuid) (correlationId : Option String)
    (modelId : Uuid) (data : ModelVersionCreate) :
    (createVersion actorId correlationId modelId data).ends db =
      (Call.createVersion actorId correlationId modelId data).ends lower db := by
  simp only [ends, createVersion, Tx.start, Call.ends, Call.stage]
  cases hget : getModel db modelId with
  | error e => simp [MlopsPlatform.createVersion, hget, Except.map]
  | ok model =>
    cases hdup : db.versions.first? fun v => v.modelId = modelId && v.version = data.version with
    | some v => simp [MlopsPlatform.createVersion, hget, hdup, raiseIf, Except.map]
    | none =>
      have hstage : MlopsPlatform.createVersion db actorId correlationId modelId data =
          .ok (.insertVersion (newVersion actorId modelId data) fun id =>
            recordVersionEvent id none .draft actorId correlationId .createVersion) := by
        simp only [MlopsPlatform.createVersion, hget, hdup, ok_bind]
        rfl
      by_cases hcons : (backend.write db (.version (newVersion actorId modelId data))).Constraints
      · simp [hget, hdup, hstage, raiseIf, add, Except.map, Db.commit, constraints_newVersion,
          hcons]
      · simp [hget, hdup, hstage, raiseIf, add, uncaught, Except.map, Db.commit, Call.rejected,
          constraints_newVersion, hcons]

/-- `approve_version`. -/
theorem ends_approveVersion (db : Db) (actorId : Uuid) (correlationId : Option String)
    (versionId : Uuid) (now : Time) :
    (approveVersion actorId correlationId versionId now).ends db =
      (Call.approveVersion actorId correlationId versionId now).ends lower db := by
  simp only [ends, approveVersion, Tx.start, Call.ends, Call.stage, MlopsPlatform.approveVersion]
  cases hget : getVersion db versionId with
  | error e => simp [hget, Except.map]
  | ok v =>
    cases hvalid : validateTransition v.stage .approved true with
    | error e => simp [hget, hvalid, Except.map]
    | ok _ =>
      simp [hget, hvalid, assign, add, Change.sameObject, uncaught, Except.map, Db.commit,
        Call.rejected]
      split_ifs
      · simp
      · simp

/-- `transition_version`. -/
theorem ends_transitionVersion (db : Db) (actorId : Uuid) (correlationId : Option String)
    (versionId : Uuid) (target : LifecycleStage) :
    (transitionVersion actorId correlationId versionId target).ends db =
      (Call.transitionVersion actorId correlationId versionId target).ends lower db := by
  simp only [ends, transitionVersion, Tx.start, Call.ends, Call.stage,
    MlopsPlatform.transitionVersion]
  cases hget : getVersion db versionId with
  | error e => simp [hget, Except.map]
  | ok v =>
    cases hvalid : validateTransition v.stage target v.approved with
    | error e => simp [hget, hvalid, Except.map]
    | ok _ =>
      simp [hget, hvalid, assign, add, uncaught, Except.map, Db.commit, Call.rejected]
      split_ifs
      · simp
      · simp

/-- The lookup of a key. -/
theorem solo_findByKey (db : Db) (key : Option String) :
    (findByKey key).solo backend ⟨db, [], [], [], true⟩ =
      (.ok (MlopsPlatform.findByKey db key), ⟨db, [], [], [], true⟩) := by
  simp only [findByKey, MlopsPlatform.findByKey]
  cases key with
  | none => rfl
  | some key =>
    dsimp only
    split_ifs
    · rfl
    · simp

/-- `request_deployment`. -/
theorem ends_requestDeployment (postgresql : Bool) (db : Db) (actorId : Uuid)
    (correlationId : Option String) (data : DeploymentCreate) :
    (requestDeployment postgresql actorId correlationId data).ends db =
      (Call.requestDeployment actorId correlationId data).ends lower db := by
  simp only [ends, requestDeployment, insertRequested, requestedVersion, Tx.start, Call.ends,
    Call.stage, Program.solo_bind, solo_findByKey]
  cases hkey : MlopsPlatform.findByKey db data.idempotencyKey with
  | some d => simp [MlopsPlatform.requestDeployment, hkey, Except.map]
  | none =>
    cases hversion : db.versions.get? data.modelVersionId with
    | none => simp [MlopsPlatform.requestDeployment, hkey, hversion, Except.map]
    | some v =>
      cases hgate : assertDeployable v data.environment with
      | error e => simp [MlopsPlatform.requestDeployment, hkey, hversion, hgate, Except.map]
      | ok _ =>
        have hstage : MlopsPlatform.requestDeployment db actorId correlationId data =
            .ok (.staged (.insertDeployment (newDeployment actorId correlationId data v)
              fun id => recordEvent ((newDeployment actorId correlationId data v).1 id) "requested"
                none (some (toString actorId)))) := by
          simp only [MlopsPlatform.requestDeployment, hkey, hversion, hgate, ok_bind]
          rfl
        by_cases hcons : (backend.write db
            (.deployment (newDeployment actorId correlationId data v))).Constraints
        · simp [hversion, hgate, hstage, add, Except.map, Db.commit, constraints_newDeployment,
            hcons]
        · simp [hversion, hgate, hstage, add, Except.map, Db.commit, Call.rejected,
            constraints_newDeployment, hcons]

/-- `retry_deployment`. -/
theorem ends_retryDeployment (postgresql : Bool) (db : Db) (actorId deploymentId : Uuid) :
    (retryDeployment postgresql actorId deploymentId).ends db =
      (Call.retryDeployment actorId deploymentId).ends lower db := by
  simp only [ends, retryDeployment, Tx.start, Call.ends, Call.stage, MlopsPlatform.retryDeployment]
  cases hget : getDeployment db deploymentId with
  | error e => simp [hget, Except.map]
  | ok d =>
    obtain ⟨-, hid⟩ := Table.get?_eq_some.mp (getDeployment_eq_ok.mp hget)
    by_cases hs : d.status = .failed
    · simp [hget, raiseIf, hs, assign, add, Change.sameObject, expired, hid,
        getDeployment_eq_ok.mp hget, Except.map, Db.commit, Call.rejected]
      split_ifs with hcons
      · simp [hcons]
      · simp
    · simp [hget, raiseIf, hs, Except.map]

/-- `rollback_deployment`. -/
theorem ends_rollbackDeployment (db : Db) (actorId deploymentId : Uuid) :
    (rollbackDeployment actorId deploymentId).ends db =
      (Call.rollbackDeployment actorId deploymentId).ends lower db := by
  simp only [ends, rollbackDeployment, Tx.start, Call.ends, Call.stage,
    MlopsPlatform.rollbackDeployment]
  cases hget : getDeployment db deploymentId with
  | error e => simp [hget, Except.map]
  | ok d =>
    by_cases hs : d.status = .succeeded
    · cases ht : rollbackTarget db d with
      | none => simp [hget, raiseIf, hs, ht, Except.map]
      | some t =>
        simp [hget, raiseIf, hs, ht, assign, add, Change.sameObject, uncaught, Except.map,
          Db.commit, Call.rejected]
        split_ifs
        · simp
        · simp
    · simp [hget, raiseIf, hs, Except.map]

end Statements

/-- The statements of a call that nobody interferes with come to what the call comes to. -/
theorem Call.ends_statements {lower : String → String} {postgresql : Bool} {call : Call}
    {p : Statements Unit} (h : call.statements postgresql = some p) (db : Db) :
    p.ends db = call.ends lower db := by
  cases call with
  | createModel actorId data => exact absurd h (by simp [statements])
  | createVersion actorId correlationId modelId data =>
    obtain rfl := Option.some.inj h
    exact Statements.ends_createVersion db actorId correlationId modelId data
  | approveVersion actorId correlationId versionId now =>
    obtain rfl := Option.some.inj h
    exact Statements.ends_approveVersion db actorId correlationId versionId now
  | transitionVersion actorId correlationId versionId target =>
    obtain rfl := Option.some.inj h
    exact Statements.ends_transitionVersion db actorId correlationId versionId target
  | requestDeployment actorId correlationId data =>
    obtain rfl := Option.some.inj h
    exact Statements.ends_requestDeployment postgresql db actorId correlationId data
  | retryDeployment actorId deploymentId =>
    obtain rfl := Option.some.inj h
    exact Statements.ends_retryDeployment postgresql db actorId deploymentId
  | rollbackDeployment actorId deploymentId =>
    obtain rfl := Option.some.inj h
    exact Statements.ends_rollbackDeployment db actorId deploymentId

end MlopsPlatform
