import MlopsPlatform.Services.ModelService
import MlopsPlatform.Worker.Queue

/-!
# Deployment service

`services/deployment_service.py`: request, retry, and rollback, each from its first query to its
commit.
-/

namespace MlopsPlatform

/-- The deployment with an id. -/
def getDeployment (db : Db) (deploymentId : Uuid) : Except DomainError Deployment :=
  match db.deployments.get? deploymentId with
  | some deployment => .ok deployment
  | none => .error (.notFoundError s!"Deployment {deploymentId} not found")

/-- The body of `POST /deployments`. -/
structure DeploymentCreate where
  modelVersionId : Uuid
  environment : Environment
  idempotencyKey : Option String
  simulateFailure : Bool
  deriving DecidableEq

/-- Governance gate: the version's lifecycle stage must allow the environment. -/
def assertDeployable (version : ModelVersion) (environment : Environment) :
    Except DomainError Unit :=
  if !isDeployable version.stage environment then
    .error (.conflictError
      s!"A {version.stage.value} version cannot be deployed to {environment.value}")
  else .ok ()

/-- How a request goes on after its reads. -/
inductive RequestOutcome
  /-- The idempotency key is stored: that deployment is returned and nothing is written. -/
  | existing (deployment : Deployment)
  /-- A new deployment is inserted. -/
  | staged (u : UnitOfWork)

/-- The deployment that carries the key of a request. An empty key is not looked up. -/
def findByKey (db : Db) : Option String → Option Deployment
  | some key =>
    if key = "" then none else db.deployments.first? fun d => d.idempotencyKey = some key
  | none => none

/-- Create a deployment (REQUESTED), unless its idempotency key matches an existing one. -/
def requestDeployment (db : Db) (actorId : Uuid) (correlationId : Option String)
    (data : DeploymentCreate) : Except DomainError RequestOutcome :=
  match findByKey db data.idempotencyKey with
  | some deployment => .ok (.existing deployment)
  | none =>
    match db.versions.get? data.modelVersionId with
    | none => .error (.notFoundError s!"Model version {data.modelVersionId} not found")
    | some version => do
      assertDeployable version data.environment
      let deployment : Table.Draft Deployment.id :=
        ⟨fun id =>
          { id
            modelId := version.modelId
            modelVersionId := data.modelVersionId
            environment := data.environment
            status := .requested
            idempotencyKey := data.idempotencyKey
            workerId := none
            lockedAt := none
            attempts := 0
            error := none
            simulateFailure := data.simulateFailure
            correlationId
            rolledBackToId := none
            createdBy := some actorId }, fun _ => rfl⟩
      .ok (.staged (.insertDeployment deployment
        fun id => recordEvent (deployment.1 id) "requested" none (some (toString actorId))))

/-- Re-queue a FAILED deployment. -/
def retryDeployment (db : Db) (actorId : Uuid) (deploymentId : Uuid) :
    Except DomainError UnitOfWork := do
  let deployment ← getDeployment db deploymentId
  if deployment.status ≠ .failed then
    .error (.conflictError
      s!"Only FAILED deployments can be retried (status is {deployment.status.value})")
  else
    -- `attempts` is not reset.
    let assigned :=
      { deployment with status := .requested, error := none, workerId := none, lockedAt := none }
    .ok (.updateDeployments [⟨deployment, assigned⟩]
      [recordEvent assigned "retry_requested" none (some (toString actorId))])

/-- The deployment that a rollback falls back to: the last one by id, before the given one, that
SUCCEEDED in its environment with another version of its model. -/
def rollbackTarget (db : Db) (deployment : Deployment) : Option Deployment :=
  db.deployments.last? fun d =>
    d.environment = deployment.environment && d.status = .succeeded &&
      d.modelId = deployment.modelId && d.modelVersionId ≠ deployment.modelVersionId &&
      d.id < deployment.id

/-- Roll back a SUCCEEDED deployment to the previous good one in the same environment. -/
def rollbackDeployment (db : Db) (actorId : Uuid) (deploymentId : Uuid) :
    Except DomainError UnitOfWork := do
  let deployment ← getDeployment db deploymentId
  if deployment.status ≠ .succeeded then
    .error (.conflictError
      s!"Only SUCCEEDED deployments can be rolled back (status is {deployment.status.value})")
  else
    match rollbackTarget db deployment with
    | none => .error (.conflictError "No previous successful deployment to roll back to")
    | some target =>
      -- The stage of the target's version is not read.
      let assigned := { deployment with status := .rolledBack, rolledBackToId := some target.id }
      .ok (.updateDeployments [⟨deployment, assigned⟩]
        [recordEvent assigned "rolled_back" (some s!"rolled back to deployment {target.id}")
          (some (toString actorId))])

/-! ## What the reads of a call allow it to stage -/

/-- `getDeployment` returns the stored deployment. -/
theorem getDeployment_eq_ok {db : Db} {deploymentId : Uuid} {d : Deployment} :
    getDeployment db deploymentId = .ok d ↔ db.deployments.get? deploymentId = some d := by
  unfold getDeployment
  split <;> simp_all

/-- A request returns a stored deployment exactly when the lookup of its key finds that one. -/
theorem requestDeployment_eq_existing {db : Db} {actorId : Uuid} {correlationId : Option String}
    {data : DeploymentCreate} {d : Deployment} :
    requestDeployment db actorId correlationId data = .ok (.existing d) ↔
      findByKey db data.idempotencyKey = some d := by
  unfold requestDeployment
  cases hk : findByKey db data.idempotencyKey with
  | some e => simp
  | none =>
    cases hv : db.versions.get? data.modelVersionId with
    | none => simp
    | some v => simp [bind_eq_ok]

/-- A request stages a REQUESTED row for an existing version that is deployable to the
environment, with the version's model. -/
theorem requestDeployment_eq_staged {db : Db} {actorId : Uuid} {correlationId : Option String}
    {data : DeploymentCreate} {u : UnitOfWork}
    (h : requestDeployment db actorId correlationId data = .ok (.staged u)) :
    ∃ v deployment event, findByKey db data.idempotencyKey = none ∧
      db.versions.get? data.modelVersionId = some v ∧
      isDeployable v.stage data.environment = true ∧ u = .insertDeployment deployment event ∧
      ∀ id, deployment.1 id =
        { id
          modelId := v.modelId
          modelVersionId := data.modelVersionId
          environment := data.environment
          status := .requested
          idempotencyKey := data.idempotencyKey
          workerId := none
          lockedAt := none
          attempts := 0
          error := none
          simulateFailure := data.simulateFailure
          correlationId
          rolledBackToId := none
          createdBy := some actorId } ∧
        event id = recordEvent (deployment.1 id) "requested" none (some (toString actorId)) := by
  unfold requestDeployment at h
  -- Past the key, the version and the gate, the insert is staged as it is written.
  cases hk : findByKey db data.idempotencyKey with
  | some d => simp [hk] at h
  | none =>
    cases hv : db.versions.get? data.modelVersionId with
    | none => simp [hk, hv] at h
    | some v =>
      simp only [hk, hv, bind_eq_ok, Except.ok.injEq, RequestOutcome.staged.injEq] at h
      obtain ⟨r, hgate, rfl⟩ := h
      refine ⟨v, _, _, rfl, rfl, ?_, rfl, fun _ => ⟨rfl, rfl⟩⟩
      unfold assertDeployable at hgate
      split at hgate
      · simp at hgate
      · simp_all

/-- A retry stages REQUESTED for a row that it loaded as FAILED. -/
theorem retryDeployment_eq_ok {db : Db} {actorId deploymentId : Uuid} {u : UnitOfWork} :
    retryDeployment db actorId deploymentId = .ok u ↔
      ∃ d, db.deployments.get? deploymentId = some d ∧ d.status = .failed ∧
        u = .updateDeployments
          [⟨d, { d with status := .requested, error := none, workerId := none, lockedAt := none }⟩]
          [recordEvent { d with
            status := .requested, error := none, workerId := none, lockedAt := none }
            "retry_requested" none (some (toString actorId))] := by
  unfold retryDeployment
  simp only [bind_eq_ok, getDeployment_eq_ok]
  constructor
  · rintro ⟨d, hd, h⟩
    split_ifs at h with hs
    exact ⟨d, hd, not_not.mp hs, (Except.ok.inj h).symm⟩
  · rintro ⟨d, hd, hs, rfl⟩
    exact ⟨d, hd, by rw [if_neg (not_not.mpr hs)]⟩

/-- A rollback of `d` may fall back to `t`: it is an earlier deployment that SUCCEEDED in the same
environment with another version of the model. -/
def Deployment.FallsBackTo (d t : Deployment) : Prop :=
  t.environment = d.environment ∧ t.status = .succeeded ∧ t.modelId = d.modelId ∧
    t.modelVersionId ≠ d.modelVersionId ∧ t.id < d.id

/-- The target of a rollback is the candidate with the greatest id. -/
theorem rollbackTarget_eq_some {db : Db} {d t : Deployment} :
    rollbackTarget db d = some t ↔ t ∈ db.deployments ∧ d.FallsBackTo t ∧
      ∀ e ∈ db.deployments, d.FallsBackTo e → e.id ≤ t.id := by
  simp only [rollbackTarget, Table.last?_eq_some, Deployment.FallsBackTo, Bool.and_eq_true,
    decide_eq_true_eq, and_assoc]

/-- A rollback finds a target if there is a deployment that it may fall back to. -/
theorem exists_rollbackTarget {db : Db} {d t : Deployment} (ht : t ∈ db.deployments)
    (hfalls : d.FallsBackTo t) : ∃ t', rollbackTarget db d = some t' := by
  cases hquery : rollbackTarget db d with
  | some t' => exact ⟨t', rfl⟩
  | none =>
    -- The query that finds nothing has passed over `t`, which matches.
    obtain ⟨henvironment, hstatus, hmodel, hversion, hlt⟩ := hfalls
    have hmiss := Table.last?_eq_none.mp hquery t ht
    simp [henvironment, hstatus, hmodel, hversion, hlt] at hmiss

/-- A rollback stages ROLLED_BACK, and the target, for a row that it loaded as SUCCEEDED. -/
theorem rollbackDeployment_eq_ok {db : Db} {actorId deploymentId : Uuid} {u : UnitOfWork} :
    rollbackDeployment db actorId deploymentId = .ok u ↔
      ∃ d t, db.deployments.get? deploymentId = some d ∧ d.status = .succeeded ∧
        rollbackTarget db d = some t ∧
        u = .updateDeployments
          [⟨d, { d with status := .rolledBack, rolledBackToId := some t.id }⟩]
          [recordEvent { d with status := .rolledBack, rolledBackToId := some t.id } "rolled_back"
            (some s!"rolled back to deployment {t.id}") (some (toString actorId))] := by
  unfold rollbackDeployment
  simp only [bind_eq_ok, getDeployment_eq_ok]
  constructor
  · rintro ⟨d, hd, h⟩
    split_ifs at h with hs
    cases ht : rollbackTarget db d with
    | none => simp [ht] at h
    | some t =>
      simp only [ht] at h
      exact ⟨d, t, hd, not_not.mp hs, ht, (Except.ok.inj h).symm⟩
  · rintro ⟨d, t, hd, hs, ht, rfl⟩
    exact ⟨d, hd, by simp only [ht]; rw [if_neg (not_not.mpr hs)]⟩

end MlopsPlatform
