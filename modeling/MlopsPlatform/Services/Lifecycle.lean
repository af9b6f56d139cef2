import MlopsPlatform.Core

/-!
# Lifecycle state machine and deployment policy

`services/lifecycle.py` and `services/deployment_policy.py`: pure functions over the stages.
-/

namespace MlopsPlatform

/-! ## Lifecycle -/

/-- Forward-only lifecycle: a version is promoted one step at a time, or archived from any stage. -/
def allowedTransitions : LifecycleStage → List LifecycleStage
  | .draft => [.validated, .archived]
  | .validated => [.approved, .archived]
  | .approved => [.staging, .archived]
  | .staging => [.production, .archived]
  | .production => [.archived]
  | .archived => []

/-- Stages that may only be entered by an approved version. -/
def requiresApproval : List LifecycleStage := [.approved, .staging, .production]

/-- Whether a transition is in the table. -/
def canTransition (current target : LifecycleStage) : Bool := target ∈ allowedTransitions current

/-- Raise if moving `current` to `target` is illegal or approval is missing. -/
def validateTransition (current target : LifecycleStage) (approved : Bool) :
    Except DomainError Unit :=
  if current = target then
    .error (.invalidStateTransition s!"Version is already in stage {target.value}")
  else if !canTransition current target then
    .error (.invalidStateTransition s!"Illegal transition {current.value} -> {target.value}")
  else if target ∈ requiresApproval ∧ !approved then
    .error (.approvalRequired s!"Version must be approved before entering {target.value}")
  else .ok ()

/-- No stage leads to itself. -/
theorem canTransition_self (stage : LifecycleStage) : canTransition stage stage = false := by
  cases stage <;> decide

/-- A validated move is in the table, and enters a stage that requires approval only when the
version is approved. -/
theorem validateTransition_eq_ok {current target : LifecycleStage} {approved : Bool} {r : Unit} :
    validateTransition current target approved = .ok r ↔
      canTransition current target = true ∧ (target ∈ requiresApproval → approved = true) := by
  unfold validateTransition
  -- The first test only has a message of its own, since no stage leads to itself.
  by_cases hsame : current = target
  · subst hsame
    simp [canTransition_self]
  · rw [if_neg hsame]
    cases hc : canTransition current target
    · simp
    · by_cases hreq : target ∈ requiresApproval <;> cases approved <;> simp [hreq]

/-! ## Deployment policy -/

/-- The stages that may deploy to an environment. -/
def deployableStages : Environment → List LifecycleStage
  | .development => [.validated, .approved, .staging, .production]
  | .staging => [.staging, .production]
  | .production => [.production]

/-- Whether a stage may deploy to an environment. -/
def isDeployable (stage : LifecycleStage) (environment : Environment) : Bool :=
  stage ∈ deployableStages environment

/-- A stage that may deploy to staging or production requires approval. -/
theorem requiresApproval_of_isDeployable {stage : LifecycleStage} {environment : Environment}
    (h : isDeployable stage environment = true) (he : environment ≠ .development) :
    stage ∈ requiresApproval := by
  revert h he
  cases environment <;> cases stage <;> decide

/-- Eligibility survives every transition but retirement. -/
theorem isDeployable_of_canTransition {current target : LifecycleStage} {environment : Environment}
    (h : isDeployable current environment = true) (ht : canTransition current target = true) :
    target = .archived ∨ isDeployable target environment = true := by
  revert h ht
  cases environment <;> cases current <;> cases target <;> decide

end MlopsPlatform
