import MlopsPlatform.Worker.Queue
import MlopsPlatform.Services.Lifecycle

/-!
# Execution of a claimed deployment

`worker/executor.py`. `process_deployment` commits up to three times. Its first commit uses the row
as the claim refreshed it; before each of the others the commit that precedes it has expired the
session's objects, so that the row (and the version) is loaded again. A `Phase` is a point between
two commits, and each segment returns what it commits and the phase after it.
-/

namespace MlopsPlatform

/-- Where `process_deployment` is between two commits. -/
inductive Phase
  /-- After `validation_started`: the version's eligibility is checked next. -/
  | check
  /-- After `deployment_started`: the rollout is finished next. -/
  | rollout
  deriving DecidableEq

/-- `_fail`: the deployment goes to FAILED with the event as its error. -/
def fail (deployment : Deployment) (event message : String) : UnitOfWork :=
  let assigned := { deployment with status := .failed, error := some event, lockedAt := none }
  .updateDeployments [⟨deployment, assigned⟩]
    [recordEvent assigned event (some message) (some "worker")]

/-- The first commit: the validation event, and no column of the row. -/
def startValidation (deployment : Deployment) : UnitOfWork :=
  .updateDeployments [] [recordEvent deployment "validation_started" none (some "worker")]

/-- Whether the version that a deployment refers to exists and may deploy to its environment. -/
def versionDeployable (db : Db) (deployment : Deployment) : Bool :=
  match db.versions.get? deployment.modelVersionId with
  | some version => isDeployable version.stage deployment.environment
  | none => false

/-- The second commit: DEPLOYING if the version is deployable, and otherwise FAILED. -/
def checkEligibility (db : Db) (deployment : Deployment) : UnitOfWork × Option Phase :=
  if !versionDeployable db deployment then
    (fail deployment "approval_validation_failed" "version not deployable", none)
  else
    let assigned := { deployment with status := .deploying }
    (.updateDeployments [⟨deployment, assigned⟩]
      [recordEvent assigned "deployment_started" none (some "worker")], some .rollout)

/-- The third commit: SUCCEEDED, or FAILED when a failure is simulated. -/
def finishRollout (deployment : Deployment) : UnitOfWork × Option Phase :=
  if deployment.simulateFailure then
    (fail deployment "runtime_timeout" "simulated failure", none)
  else
    -- The worker id stays on the row.
    let assigned := { deployment with status := .succeeded, error := none, lockedAt := none }
    (.updateDeployments [⟨deployment, assigned⟩]
      [recordEvent assigned "deployment_completed" none (some "worker")], none)

/-- The segment of `process_deployment` from a phase to its next commit, with the reload of the
row. -/
def processDeployment (db : Db) (deploymentId : Uuid) (phase : Phase) :
    Option (UnitOfWork × Option Phase) :=
  (db.deployments.get? deploymentId).map fun deployment =>
    -- The row is what is stored now: its status and its worker are not looked at.
    match phase with
    | .check => checkEligibility db deployment
    | .rollout => finishRollout deployment

/-- What a worker assigns to the row that it loaded, with the event and the message it records:
DEPLOYING when the version is deployable, SUCCEEDED after the rollout, or FAILED. -/
inductive WorkerWrite (db : Db) (d : Deployment) :
    Phase → Deployment → String → Option String → Option Phase → Prop
  /-- The version is deployable and the rollout starts. -/
  | deploy (h : versionDeployable db d = true) :
    WorkerWrite db d .check { d with status := .deploying } "deployment_started" none
      (some .rollout)
  /-- The version is not deployable. -/
  | reject (h : versionDeployable db d = false) :
    WorkerWrite db d .check
      { d with status := .failed, error := some "approval_validation_failed", lockedAt := none }
      "approval_validation_failed" (some "version not deployable") none
  /-- The rollout fails. -/
  | timeout (h : d.simulateFailure = true) :
    WorkerWrite db d .rollout
      { d with status := .failed, error := some "runtime_timeout", lockedAt := none }
      "runtime_timeout" (some "simulated failure") none
  /-- The rollout completes. -/
  | complete (h : d.simulateFailure = false) :
    WorkerWrite db d .rollout { d with status := .succeeded, error := none, lockedAt := none }
      "deployment_completed" none none

/-- A segment of `process_deployment` loads the row, assigns to it as `WorkerWrite` says, and
records one event with the assigned status. -/
theorem processDeployment_eq_some {db : Db} {deploymentId : Uuid} {phase : Phase} {u : UnitOfWork}
    {next : Option Phase} (h : processDeployment db deploymentId phase = some (u, next)) :
    ∃ d assigned event message, db.deployments.get? deploymentId = some d ∧
      WorkerWrite db d phase assigned event message next ∧
      u = .updateDeployments [⟨d, assigned⟩]
        [recordEvent assigned event message (some "worker")] := by
  obtain ⟨d, hd, hu⟩ := Option.map_eq_some_iff.mp h
  cases phase with
  | check =>
    simp only [checkEligibility] at hu
    split_ifs at hu with hv
    · obtain ⟨rfl, rfl⟩ := Prod.mk.inj hu
      exact ⟨d, _, _, _, hd, .reject (by simpa using hv), rfl⟩
    · obtain ⟨rfl, rfl⟩ := Prod.mk.inj hu
      exact ⟨d, _, _, _, hd, .deploy (by simpa using hv), rfl⟩
  | rollout =>
    simp only [finishRollout] at hu
    split_ifs at hu with hf
    · obtain ⟨rfl, rfl⟩ := Prod.mk.inj hu
      exact ⟨d, _, _, _, hd, .timeout hf, rfl⟩
    · obtain ⟨rfl, rfl⟩ := Prod.mk.inj hu
      exact ⟨d, _, _, _, hd, .complete (by simpa using hf), rfl⟩

end MlopsPlatform
