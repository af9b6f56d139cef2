import MlopsPlatform.System

/-!
# Workers that drain the queue

`_drain_all` of `worker/runner.py`: claim a job and process it, until there is none. A worker here
is the loop with its count; what it does in its database session is what a session of the platform
does (`plan`). `claim_one` is one step, so that no row is locked when another worker claims.
-/

namespace MlopsPlatform

open Transition

/-- Nothing is in progress in the session. -/
def Session.isIdle : Session → Bool
  | idle => true
  | _ => false

/-- A session is idle only if it is `idle`. -/
@[simp]
theorem Session.isIdle_iff {l : Session} : l.isIdle = true ↔ l = .idle := by
  cases l <;> simp [isIdle]

/-- Where a worker is in `_drain_all`. -/
inductive Drain
  /-- In the loop, with the session of the current pass. -/
  | looping (session : Session)
  /-- `claim_one` has found nothing, and the count is returned. -/
  | returned
  /-- A commit was rejected, and the exception has left the loop. -/
  | raised

/-- A worker that runs `_drain_all`. -/
structure Worker where
  workerId : String
  /-- The jobs processed so far. -/
  processed : ℕ
  drain : Drain

/-- What a worker does in one step. -/
inductive DrainAction
  /-- `claim_one`. -/
  | claim (now : Time)
  /-- The reads of a segment of `process_deployment`. -/
  | load
  /-- The commit of a segment. -/
  | commit
  /-- A segment with its reads and its commit at once. -/
  | work

/-- What the worker does in its session. -/
def DrainAction.onSession (workerId : String) : DrainAction → Action
  | claim now => .claim workerId now []
  | load => .load
  | commit => .commit
  | work => .work

section

variable (lower : String → String)

/-- One step of `_drain_all`. -/
def Worker.act (db : Db) (worker : Worker) (a : DrainAction) : Option (Db × Worker) :=
  match worker.drain with
  | .looping session =>
    (plan lower db session (a.onSession worker.workerId)).map fun p =>
      match p with
      | .keep .idle => (db, { worker with drain := .returned })
      | .keep after => (db, { worker with drain := .looping after })
      | .commit _ u after =>
        match db.commit u with
        | some db' =>
          -- The session is idle again once `process_deployment` has returned.
          (db', { worker with
            processed := worker.processed + if after.isIdle then 1 else 0
            drain := .looping after })
        | none => (db, { worker with drain := .raised })
  | _ => none

/-- The database and the workers. -/
abbrev Workers (ι : Type) := Config ι Db Worker

/-- All workers are about to enter the loop. -/
def Workers.start {ι : Type} (workerId : ι → String) (db : Db) : Workers ι :=
  ⟨db, fun i => ⟨workerId i, 0, .looping .idle⟩⟩

/-- A step of one of the workers. -/
abbrev drainStep {ι : Type} [DecidableEq ι] : Workers ι → ι × DrainAction → Option (Workers ι) :=
  Config.step (Worker.act lower)

end

end MlopsPlatform
