import Mathlib.Data.Nat.Basic

/-!
# Domain enumerations and errors

`core/enums.py` and `core/exceptions.py`. An enumeration's `value` is the string that the source
stores and prints for the member.
-/

namespace MlopsPlatform

/-- A primary key. The source draws UUIDv7s, which are ordered by the time they were drawn. -/
abbrev Uuid := ℕ

/-- A point in time. -/
abbrev Time := ℤ

/-- Supported ML frameworks. -/
inductive Framework
  | scikitLearn | pytorch | tensorflow | keras | xgboost | lightgbm | onnx | transformers | other

/-- The canonical framework names. -/
def Framework.value : Framework → String
  | scikitLearn => "scikit-learn"
  | pytorch => "pytorch"
  | tensorflow => "tensorflow"
  | keras => "keras"
  | xgboost => "xgboost"
  | lightgbm => "lightgbm"
  | onnx => "onnx"
  | transformers => "transformers"
  | other => "other"

/-- Model-version lifecycle stages. -/
inductive LifecycleStage
  | draft | validated | approved | staging | production | archived
  deriving DecidableEq

/-- The stage as it is stored and printed. -/
def LifecycleStage.value : LifecycleStage → String
  | draft => "DRAFT"
  | validated => "VALIDATED"
  | approved => "APPROVED"
  | staging => "STAGING"
  | production => "PRODUCTION"
  | archived => "ARCHIVED"

/-- Deployment target environments. -/
inductive Environment
  | development | staging | production
  deriving DecidableEq

/-- The environment as it is stored and printed. -/
def Environment.value : Environment → String
  | development => "DEVELOPMENT"
  | staging => "STAGING"
  | production => "PRODUCTION"

/-- Deployment execution states. -/
inductive DeploymentStatus
  | requested | validating | deploying | succeeded | failed | rolledBack
  deriving DecidableEq

/-- The status as it is stored and printed. -/
def DeploymentStatus.value : DeploymentStatus → String
  | requested => "REQUESTED"
  | validating => "VALIDATING"
  | deploying => "DEPLOYING"
  | succeeded => "SUCCEEDED"
  | failed => "FAILED"
  | rolledBack => "ROLLED_BACK"

/-- The domain errors that the services raise, each with its message. -/
inductive DomainError
  /-- A requested resource does not exist (404). -/
  | notFoundError (message : String)
  /-- A uniqueness or idempotency conflict (409). -/
  | conflictError (message : String)
  /-- An illegal lifecycle transition was requested (409). -/
  | invalidStateTransition (message : String)
  /-- An action requires an approved version but it is not approved (409). -/
  | approvalRequired (message : String)

/-- A sequence of fallible steps succeeds through a success of the first. -/
theorem bind_eq_ok {ε α β : Type} {x : Except ε α} {f : α → Except ε β} {b : β} :
    (x >>= f) = .ok b ↔ ∃ a, x = .ok a ∧ f a = .ok b := by
  cases x with
  | error e => simp [bind, Except.bind]
  | ok a => simp [bind, Except.bind]

end MlopsPlatform
