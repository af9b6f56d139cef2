import Mathlib.Algebra.Order.BigOperators.Group.List
import Mathlib.Algebra.Order.Group.Nat
import MlopsPlatform.Queue.Attempts

/-!
# No job waits forever

`claim_one` takes the oldest REQUESTED job whose row is not locked. A job that is re-queued or
retried keeps its id, and so its place in front of the younger ones: it may be claimed again while a
younger job waits. But it is claimed `MAX_ATTEMPTS` times and once more for every retry, and no
oftener. So a waiting job is passed over a bounded number of times (`passedOver_of_trace`), whatever
else is requested, crashes, or is recovered in the meantime.
-/

namespace MlopsPlatform

open Transition

variable {lower : String → String}

/-- The step is a `claim_one` that finds a deployment in the queue, its row not locked. -/
def finds (id : Uuid) (x : State × (ℕ × Action)) : Bool :=
  match x.2.2 with
  | .claim _ _ locked =>
    (x.1.shared.deployments.get? id).any (fun d => d.status = .requested) && !(id ∈ locked)
  | _ => false

/-- The deployments that were requested before a deployment. -/
def Db.older (db : Db) (id : Uuid) : List Deployment :=
  db.deployments.rows.filter fun d => d.id < id

/-- A claim that finds a deployment in the queue takes it, or an older one. -/
theorem claims_of_finds {s s' : State} {p : ℕ × Action} {id : Uuid}
    (hcons : s.shared.Constraints) (hstep : step lower s p = some s')
    (hfinds : finds id (s, p) = true) : ∃ taken ≤ id, claims lower taken (s, p) = true := by
  obtain ⟨i, a⟩ := p
  cases a with
  | claim workerId now locked =>
    obtain ⟨hqueued, hunlocked⟩ := Bool.and_eq_true_iff.mp hfinds
    obtain ⟨d, hd, hstatus⟩ := (Option.any_eq_true _ _).mp hqueued
    obtain ⟨hmem, rfl⟩ := Table.get?_eq_some.mp hd
    cases hx : claimOne s.shared workerId now locked with
    | none =>
      have hnone := Table.first?_eq_none.mp (Option.map_eq_none_iff.mp hx) d hmem
      rw [hstatus, hunlocked] at hnone
      exact absurd hnone (by simp)
    | some x =>
      obtain ⟨-, -, -, holdest, -⟩ := claimOne_eq_some.mp hx
      have hle := holdest d hmem (of_decide_eq_true hstatus) (by simpa using hunlocked)
      have hatomic : AtomicWrite lower s.shared .worker (.updateDeployments [x] []) := .claim hx
      -- The session was idle, and the constraints accept what it commits.
      have hwritten : written lower s (i, .claim workerId now locked) =
          some (.worker, .updateDeployments [x] []) := by
        refine written_eq_some.mpr ⟨?_, hatomic.accepted rfl hcons⟩
        obtain ⟨db, l, hact, -⟩ := Config.step_eq_some.mp hstep
        cases hl : s.locals i with
        | idle => simp [committed, plan, hx]
        | _ => simp [act, hl, plan] at hact
      refine ⟨x.loaded.id, hle, ?_⟩
      simp [claims, Action.isClaim, hwritten, UnitOfWork.dirtyFor_single]
  | _ => exact absurd hfinds (by simp [finds])

/-- No job waits forever. In every run of atomic steps from an empty deployments table, with workers
that crash at any point, the claims that find a job in the queue take the job itself, or one of the
jobs that were requested before it; and each of these at most `MAX_ATTEMPTS` times, and once more
for each of its retries. -/
theorem passedOver_of_trace {s₀ s : State} {steps : List (State × (ℕ × Action))}
    (hempty : ∀ d, d ∉ s₀.shared.deployments) (hidle : ∀ i, s₀.locals i = .idle)
    (hcons : s₀.shared.Constraints) (h : Trace (step lower) AtomicSteps s₀ steps s) (id : Uuid) :
    steps.countP (finds id) ≤ steps.countP (claims lower id) +
      ((s.shared.older id).map fun d => maxAttempts + steps.countP (retries lower d.id)).sum := by
  have hattempts : ∀ id, s.shared.attempts id = steps.countP (claims lower id) := by
    intro id
    refine h.countP_eq (f := fun s => s.shared.attempts id) ?_
      fun s p s' hreach hok hstep => attempts_step hidle hreach hok hstep id
    show s₀.shared.attempts id = 0
    rw [Db.attempts, Table.get?_eq_none.mpr fun e he => absurd he (hempty e)]
    rfl
  have hcharged : steps.countP (finds id) ≤
      ((id :: (s.shared.older id).map Deployment.id).map fun id =>
        steps.countP (claims lower id)).sum := by
    refine countP_le_sum fun x hx hfinds => ?_
    obtain ⟨hreach, -, t, hstep, -⟩ := h.of_mem hx
    obtain ⟨taken, hle, hclaims⟩ :=
      claims_of_finds (constraints_of_reach hcons hreach) hstep hfinds
    refine ⟨taken, ?_, hclaims⟩
    rcases Nat.eq_or_lt_of_le hle with rfl | hlt
    · exact List.mem_cons_self
    · -- What was claimed is still stored.
      have hpos : 0 < s.shared.attempts taken := by
        rw [hattempts]
        exact List.countP_pos_iff.mpr ⟨x, hx, hclaims⟩
      cases hd : s.shared.deployments.get? taken with
      | none => simp [Db.attempts, hd] at hpos
      | some d =>
        obtain ⟨hmem, rfl⟩ := Table.get?_eq_some.mp hd
        exact List.mem_cons_of_mem _ (List.mem_map.mpr
          ⟨d, List.mem_filter.mpr ⟨hmem, decide_eq_true hlt⟩, rfl⟩)
  rw [List.map_cons, List.sum_cons, List.map_map] at hcharged
  refine Nat.le_trans hcharged (Nat.add_le_add_left (List.sum_le_sum fun d hd => ?_) _)
  have hmem : d ∈ s.shared.deployments := (List.mem_filter.mp hd).1
  have hbounded := (bounded_of_trace hempty hidle h d hmem).attempts
  show steps.countP (claims lower d.id) ≤ _
  rw [← hattempts, Db.attempts, Table.get?_key hmem]
  exact hbounded

/-- Three workers crash with a job one after the other, while a younger one waits; a fourth worker
claims the younger one. -/
def patientRun : List (ℕ × Action) :=
  [(0, .call (.approveVersion 8 none 1 5)), (0, .call (.transitionVersion 8 none 1 .staging)),
    (0, request 1 .development false), (0, request 1 .staging false), (1, .claim "a" 10 []),
    (1, .crash), (9, .reap 200 120), (2, .claim "b" 210 []), (2, .crash), (9, .reap 400 120),
    (3, .claim "c" 410 []), (3, .crash), (9, .reap 600 120), (4, .claim "d" 610 [])]

/-- The younger job of `patientRun` is found four times and passed over three times. -/
theorem passedOver_of_trace_patientRun :
    (execSteps (step id) AtomicSteps registered patientRun).countP (finds 2) = 4 ∧
      (execSteps (step id) AtomicSteps registered patientRun).countP (finds 2) ≤
        (execSteps (step id) AtomicSteps registered patientRun).countP (claims id 2) +
          (((exec (step id) AtomicSteps registered patientRun).shared.older 2).map fun d =>
            maxAttempts + (execSteps (step id) AtomicSteps registered patientRun).countP
              (retries id d.id)).sum := by
  have hempty : ∀ d, d ∉ registered.shared.deployments := fun d => List.not_mem_nil (a := d)
  have hcons : registered.shared.Constraints := by decide
  exact ⟨by decide, passedOver_of_trace hempty (fun _ => rfl) hcons
    (exec_trace (step id) AtomicSteps registered patientRun) 2⟩

end MlopsPlatform
