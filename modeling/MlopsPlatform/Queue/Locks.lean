import MlopsPlatform.Queue.Attempts

/-!
# Who holds a lock

`claim_one` sets `locked_at`, and a job leaves the running states in five ways. The worker clears
the lock when the job completes or fails, the reaper when it re-queues the job, and a retry once
more. The fifth way does not: a job that the reaper fails with `worker_lost` keeps its lock. So in a
run of atomic steps only running jobs hold a lock exactly as long as no pass of the reaper finds a
stuck job whose attempts are exhausted (`locksReleased_iff_of_trace`).
-/

namespace MlopsPlatform

open Transition

variable {lower : String → String}

/-- A deployment holds a lock only while it is running. -/
def Deployment.LockReleased (d : Deployment) : Prop := d.running = false → d.lockedAt = none

/-- Only running deployments hold a lock. -/
def Db.LocksReleased (db : Db) : Prop := ∀ d ∈ db.deployments, d.LockReleased

instance (d : Deployment) : Decidable d.LockReleased :=
  inferInstanceAs (Decidable (_ = _ → _ = _))

/-- The step is a pass of the reaper, and a stuck job has no attempts left. -/
def exhausts (x : State × (ℕ × Action)) : Bool :=
  match x.2.2 with
  | .reap now timeoutSeconds => x.1.shared.deployments.rows.any fun d =>
      isStuck (now - timeoutSeconds) d && decide (maxAttempts ≤ d.attempts)
  | _ => false

/-- Calls and workers release the lock of a job that they end or put back into the queue. -/
theorem RowStep.lockReleased {db : Db} {w : Writer} {d d' : Deployment} (h : RowStep db w d d')
    (hw : w ≠ .reaper) (hd : d.LockReleased) : d'.LockReleased := by
  cases h with
  | same => exact hd
  | claim workerId now hs => exact fun hrun => absurd hrun (by simp [Deployment.running])
  | work hrun hwrite =>
    cases hwrite with
    | deploy hv => exact fun hrun' => absurd hrun' (by simp [Deployment.running])
    | reject hv => exact fun _ => rfl
    | timeout hf => exact fun _ => rfl
    | complete hf => exact fun _ => rfl
  | reap hrun => exact absurd rfl hw
  | retry actorId hs => exact fun _ => rfl
  | rollback actorId hs ht =>
    -- A job that SUCCEEDED has released its lock.
    intro _
    exact hd (by simp [Deployment.running, hs])

/-- The reaper releases the lock of a job that it puts back into the queue, and only then. -/
theorem lockReleased_reaped {d : Deployment} (hlock : d.lockedAt.isSome = true) :
    (reaped d).LockReleased ↔ d.attempts < maxAttempts := by
  unfold reaped
  constructor
  · intro h
    by_contra hmax
    rw [if_pos (Nat.le_of_not_lt hmax)] at h
    have hnone : d.lockedAt = none := h rfl
    rw [hnone] at hlock
    exact absurd hlock Bool.false_ne_true
  · intro hlt
    rw [if_neg (Nat.not_le_of_lt hlt)]
    exact fun _ => rfl

/-- A stuck row has a lock. -/
theorem lockedAt_of_isStuck {cutoff : Time} {d : Deployment} (h : isStuck cutoff d = true) :
    d.lockedAt.isSome = true := by
  cases hlock : d.lockedAt with
  | some t => rfl
  | none => simp [isStuck, hlock] at h

/-- A step of a run keeps the locks released unless it is a pass of the reaper that finds a job
without attempts left. -/
theorem locksReleased_step {s s' : State} {i : ℕ} {a : Action}
    (hreach : Reach (step lower) AtomicSteps .init s) (hok : AtomicSteps s (i, a))
    (hstep : step lower s (i, a) = some s') (hgood : ¬exhausts (s, (i, a)) = true)
    (hs : s.shared.LocksReleased) : s'.shared.LocksReleased := by
  have hheld := holdsValidations_of_reach (fun _ => rfl) hreach
  rcases step_cases hstep with ⟨l, -, -, rfl⟩ | ⟨w, u, l, hwritten, hplan, rfl⟩
  · exact hs
  have hatomic := hheld.committed hok (written_eq_some.mp hwritten).1
  intro d hd
  rcases hatomic.mem_deployments hd with ⟨e, he, hrow, rfl⟩ | ⟨deployment, event, rfl, rfl⟩
  · by_cases hw : w = .reaper
    · -- Of the atomic steps only a whole pass commits for the reaper.
      subst hw
      have hheld_i := hheld i .reaper u
      generalize s.locals i = l₀ at hplan hheld_i
      cases hplan with
      | commitReap => exact absurd (hheld_i rfl).1 (by simp)
      | @reap now timeoutSeconds u hu =>
        rw [onDeployment_reapStuck hu he]
        split_ifs with hstuck
        · rw [lockReleased_reaped (lockedAt_of_isStuck hstuck)]
          by_contra hmax
          refine hgood (List.any_eq_true.mpr ⟨e, he, ?_⟩)
          rw [hstuck, decide_eq_true (Nat.le_of_not_lt hmax)]
          rfl
        · exact hs e he
    · exact hrow.lockReleased hw (hs e he)
  · -- A request inserts a row without a lock.
    obtain ⟨actorId, correlationId, data, v, -, -, -, hrow⟩ := hatomic.insert
    rw [hrow]
    exact fun _ => rfl

/-- A pass of the reaper that finds a job without attempts left leaves it FAILED with its lock. -/
theorem not_locksReleased_step {s s' : State} {i : ℕ} {a : Action}
    (hcons : s.shared.Constraints) (hstep : step lower s (i, a) = some s')
    (hbad : exhausts (s, (i, a)) = true) : ¬s'.shared.LocksReleased := by
  intro hreleased
  cases a with
  | reap now timeoutSeconds =>
    obtain ⟨d, hd, hfound⟩ := List.any_eq_true.mp hbad
    simp only [Bool.and_eq_true, decide_eq_true_eq] at hfound
    obtain ⟨hstuck, hmax⟩ := hfound
    have hstored := get?_of_reap hcons hstep hd hstuck
    have hlt := (lockReleased_reaped (lockedAt_of_isStuck hstuck)).mp
      (hreleased _ (Table.get?_eq_some.mp hstored).1)
    omega
  | _ => exact absurd hbad Bool.false_ne_true

/-- Only running jobs hold a lock. In every run of atomic steps, with workers that crash at any
point, this holds in all states on the way exactly when no step is a pass of the reaper that finds a
stuck job with `MAX_ATTEMPTS` attempts. -/
theorem locksReleased_iff_of_trace {steps : List (State × (ℕ × Action))} {s : State}
    (h : Trace (step lower) AtomicSteps .init steps s) :
    ((∀ x ∈ steps, x.1.shared.LocksReleased) ∧ s.shared.LocksReleased) ↔
      ∀ x ∈ steps, ¬exhausts x = true := by
  refine h.forall_iff (P := fun s => s.shared.LocksReleased) ?_ ?_ ?_
  · intro d hd
    exact absurd hd (Table.not_mem_empty d)
  · rintro s ⟨i, a⟩ s' hreach hok hstep hgood hs
    exact locksReleased_step hreach hok hstep hgood hs
  · rintro s ⟨i, a⟩ s' hreach - hstep hbad
    exact not_locksReleased_step (reach_constraints hreach) hstep hbad

/-- Three workers crash with a job one after the other, and the reaper then fails it. -/
def exhaustedRun : List (ℕ × Action) :=
  registration ++ [(0, request 1 .development false), (1, .claim "a" 10 []), (1, .crash),
    (9, .reap 200 120), (2, .claim "b" 210 []), (2, .crash), (9, .reap 400 120),
    (3, .claim "c" 410 []), (3, .crash), (9, .reap 600 120)]

/-- Not only running jobs hold a lock: the job of `exhaustedRun` is FAILED and looks locked. -/
theorem not_locksReleased_of_reach :
    ¬∀ s, Reach (step id) AtomicSteps .init s → s.shared.LocksReleased := by
  intro h
  have hreach := exec_reach (step id) AtomicSteps .init exhaustedRun
  have hall : ∀ d ∈ (exec (step id) AtomicSteps .init exhaustedRun).shared.deployments.rows,
      d.LockReleased := h _ hreach
  revert hall
  decide

/-- The locks on the way of `exhaustedRun`. -/
theorem locksReleased_iff_of_trace_exhaustedRun :
    ∃ steps s, Trace (step id) AtomicSteps .init steps s ∧
      (s.shared.deployments.rows.map fun d => (d.status, d.error, d.lockedAt)) =
        [(.failed, some "worker_lost", some 410)] ∧
      (((∀ x ∈ steps, x.1.shared.LocksReleased) ∧ s.shared.LocksReleased) ↔
        ∀ x ∈ steps, ¬exhausts x = true) := by
  have htrace := exec_trace (step id) AtomicSteps .init exhaustedRun
  exact ⟨_, _, htrace, by decide, locksReleased_iff_of_trace htrace⟩

end MlopsPlatform
