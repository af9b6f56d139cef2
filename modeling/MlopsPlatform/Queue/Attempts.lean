import MlopsPlatform.Queue.Exclusivity

/-!
# Crash recovery is bounded

`claim_one` counts `attempts` up, `reap_stuck` fails a job for good once it has `MAX_ATTEMPTS` of
them, and `retry_deployment` does not reset them. So a job is claimed `MAX_ATTEMPTS` times and once
more for every retry, wherever its workers crash. A queued job is one claim short of that bound
(`Deployment.Bounded`): the reaper re-queues below the bound, and a retry raises it by one.
-/

namespace MlopsPlatform

open Transition

variable {lower : String → String}

/-! ## Counting claims and retries -/

/-- The action is `claim_one`. -/
def Action.isClaim : Action → Bool
  | claim _ _ _ => true
  | _ => false

/-- The writer is a retry of a deployment. -/
def Writer.retries (id : Uuid) : Writer → Bool
  | api (.retryDeployment _ deploymentId) => deploymentId = id
  | _ => false

/-- The step is a `claim_one` that takes a deployment. -/
def claims (lower : String → String) (id : Uuid) (x : State × (ℕ × Action)) : Bool :=
  x.2.2.isClaim && (written lower x.1 x.2).any fun y => (y.2.dirtyFor id).isSome

/-- The step is that of a retry of a deployment, and it succeeds. -/
def retries (lower : String → String) (id : Uuid) (x : State × (ℕ × Action)) : Bool :=
  (written lower x.1 x.2).any fun y => y.1.retries id

/-- The `attempts` of a deployment, which are zero before it exists. -/
def Db.attempts (db : Db) (id : Uuid) : ℕ :=
  ((db.deployments.get? id).map Deployment.attempts).getD 0

/-- A commit of an atomic step that is not a worker's leaves `attempts` alone. -/
theorem RowStep.attempts {db : Db} {w : Writer} {d d' : Deployment} (h : RowStep db w d d')
    (hw : w ≠ .worker) : d'.attempts = d.attempts := by
  cases h with
  | same => rfl
  | claim workerId now hs => exact absurd rfl hw
  | work hrun hwrite => exact absurd rfl hw
  | reap hrun => exact reaped_attempts d
  | retry actorId hs => rfl
  | rollback actorId hs ht => rfl

/-- The commit of an atomic step counts the `attempts` of a row up by one when it claims it, and
leaves them alone otherwise. -/
theorem attempts_onDeployment {s : State} {i : ℕ} {a : Action} {w : Writer} {u : UnitOfWork}
    {l : Session} (hheld : s.HoldsValidations)
    (hplan : Planned lower s.shared (s.locals i) a (.commit w u l))
    (hatomic : AtomicWrite lower s.shared w u) {d : Deployment} (hd : d ∈ s.shared.deployments) :
    (u.onDeployment d).attempts =
      d.attempts + if (a.isClaim && (u.dirtyFor d.id).isSome) = true then 1 else 0 := by
  have hheld_i := hheld i w u
  generalize s.locals i = l₀ at hplan hheld_i
  cases hplan with
  | call hu => exact (hatomic.rowStep hd).attempts (by simp)
  | reap hu => exact (hatomic.rowStep hd).attempts (by simp)
  | commitCall => exact absurd (hheld_i rfl).1 (by simp)
  | commitReap => exact absurd (hheld_i rfl).1 (by simp)
  | commitWork =>
    obtain ⟨-, e, rfl⟩ := hheld_i rfl
    rfl
  | @work claim phase u next hu =>
    obtain ⟨e, assigned, event, message, he, hwrite, rfl⟩ := processDeployment_eq_some hu
    rcases onDeployment_single (Table.get?_eq_some.mp he).1 hd with hsame | ⟨rfl, hflush⟩
    · rw [hsame]
      rfl
    · rw [hflush, hwrite.flush_self]
      exact hwrite.attempts
  | @claim workerId now locked x hx =>
    obtain ⟨hmem, -, -, -, hassigned⟩ := claimOne_eq_some.mp hx
    simp only [Action.isClaim, Bool.true_and, UnitOfWork.dirtyFor_single]
    by_cases hid : x.loaded.id = d.id
    · -- The row that is claimed is the one that was read.
      obtain rfl := s.shared.deployments.eq_of_key_eq hmem hd hid
      rw [onDeployment_claimed hx, hassigned, if_pos hid]
      rfl
    · rw [UnitOfWork.onDeployment_of_dirtyFor, if_neg hid]
      · rfl
      · rw [UnitOfWork.dirtyFor_single, if_neg hid]

/-- A step of a run counts the `attempts` of a deployment up by one when it claims it. -/
theorem attempts_step {s₀ s s' : State} {i : ℕ} {a : Action} (hidle : ∀ i, s₀.locals i = .idle)
    (h : Reach (step lower) AtomicSteps s₀ s) (hok : AtomicSteps s (i, a))
    (hstep : step lower s (i, a) = some s') (id : Uuid) :
    s'.shared.attempts id =
      s.shared.attempts id + if claims lower id (s, (i, a)) = true then 1 else 0 := by
  have hheld := holdsValidations_of_reach hidle h
  rcases step_cases hstep with ⟨l, hwritten, -, rfl⟩ | ⟨w, u, l, hwritten, hplan, rfl⟩
  · simp [claims, hwritten]
  · have hatomic := hheld.committed hok (written_eq_some.mp hwritten).1
    simp only [claims, hwritten, Option.any_some, Db.attempts]
    cases hd : s.shared.deployments.get? id with
    | some d =>
      obtain ⟨hmem, rfl⟩ := Table.get?_eq_some.mp hd
      rw [Db.get?_deployments_write u hd]
      exact attempts_onDeployment hheld hplan hatomic hmem
    | none =>
      -- No claim takes a row that is not stored, and a new row has no attempts.
      have hnotClaimed : (u.dirtyFor id).isSome = false := by
        cases hx : u.dirtyFor id with
        | none => rfl
        | some x =>
          obtain ⟨hmem, hid⟩ := hatomic.dirtyFor_mem hx
          exact absurd hid (Table.get?_eq_none.mp hd _ hmem)
      rw [hnotClaimed, Bool.and_false]
      cases hd' : (s.shared.write u).deployments.get? id with
      | none => rfl
      | some d' =>
        obtain ⟨deployment, event, rfl, rfl⟩ := hatomic.inserted hd hd'
        obtain ⟨actorId, correlationId, data, v, -, -, -, hrow⟩ := hatomic.insert
        rw [hrow]
        rfl

/-! ## The bound -/

/-- A job that has been retried `retries` times has been claimed at most `MAX_ATTEMPTS` times and
once more for each retry, and a queued job once less. -/
structure Deployment.Bounded (retries : ℕ) (d : Deployment) : Prop where
  /-- Every job. -/
  attempts : d.attempts ≤ maxAttempts + retries
  /-- A queued job. -/
  requested : d.status = .requested → d.attempts ≤ maxAttempts - 1 + retries

/-- The commit of an atomic step keeps the attempts of a row bounded, where a retry raises the
bound. -/
theorem RowStep.bounded {db : Db} {w : Writer} {d d' : Deployment} {n : ℕ} (h : RowStep db w d d')
    (hd : d.Bounded n) : d'.Bounded (n + if w.retries d.id = true then 1 else 0) := by
  have hmax : maxAttempts = 3 := rfl
  obtain ⟨hattempts, hrequested⟩ := hd
  generalize hm : (n + if w.retries d.id = true then 1 else 0) = m
  have hle : n ≤ m := by omega
  cases h with
  | same =>
    refine ⟨by omega, fun hs => ?_⟩
    have hqueued := hrequested hs
    omega
  | claim workerId now hs =>
    have hqueued := hrequested hs
    exact ⟨by dsimp only; omega, fun hs' => absurd hs' (by simp)⟩
  | work hrun hwrite =>
    refine ⟨by rw [hwrite.attempts]; omega, fun hs => ?_⟩
    cases hwrite <;> exact absurd hs (by simp)
  | reap hrun =>
    unfold reaped
    split_ifs
    · exact ⟨by dsimp only; omega, fun hs => absurd hs (by simp)⟩
    · exact ⟨by dsimp only; omega, fun _ => by dsimp only; omega⟩
  | retry actorId hs =>
    -- The bound goes up, and the attempts do not.
    simp only [Writer.retries, decide_true, if_true] at hm
    exact ⟨by dsimp only; omega, fun _ => by dsimp only; omega⟩
  | rollback actorId hs ht => exact ⟨by dsimp only; omega, fun hs' => absurd hs' (by simp)⟩

/-- In every run of atomic steps the attempts of every job are bounded by its retries. -/
theorem bounded_of_trace {s₀ s : State} {steps : List (State × (ℕ × Action))}
    (hempty : ∀ d, d ∉ s₀.shared.deployments) (hidle : ∀ i, s₀.locals i = .idle)
    (h : Trace (step lower) AtomicSteps s₀ steps s) :
    ∀ d ∈ s.shared.deployments, d.Bounded (steps.countP (retries lower d.id)) := by
  induction h with
  | nil => exact fun d hd => absurd hd (hempty d)
  | @snoc steps s s' p htrace hok hstep ih =>
    obtain ⟨i, a⟩ := p
    have hheld := holdsValidations_of_reach hidle htrace.reach
    intro d hd
    rw [List.countP_append, List.countP_singleton]
    rcases step_cases hstep with ⟨l, hwritten, -, rfl⟩ | ⟨w, u, l, hwritten, -, rfl⟩
    · simp only [retries, hwritten, Option.any_none, Bool.false_eq_true, if_false]
      exact ih d hd
    · have hatomic := hheld.committed hok (written_eq_some.mp hwritten).1
      simp only [retries, hwritten, Option.any_some]
      rcases hatomic.mem_deployments hd with ⟨e, he, hrow, rfl⟩ | ⟨deployment, event, rfl, rfl⟩
      · rw [u.onDeployment_id]
        exact hrow.bounded (ih e he)
      · obtain ⟨actorId, correlationId, data, v, -, -, -, hrow⟩ := hatomic.insert
        rw [hrow]
        exact ⟨Nat.zero_le _, fun _ => Nat.zero_le _⟩

/-! ## The reaper's last word -/

/-- A pass of the reaper stores what it assigns to a stuck job. -/
theorem get?_of_reap {s s' : State} {i : ℕ} {now timeoutSeconds : Time}
    (hcons : s.shared.Constraints) (hstep : step lower s (i, .reap now timeoutSeconds) = some s')
    {d : Deployment} (hd : d ∈ s.shared.deployments)
    (hstuck : isStuck (now - timeoutSeconds) d = true) :
    s'.shared.deployments.get? d.id = some (reaped d) := by
  obtain ⟨u, hu, hdirty⟩ := reapStuck_of_isStuck hd hstuck
  have hatomic : AtomicWrite lower s.shared .reaper u := .reap hu
  have haccepted := hatomic.accepted rfl hcons
  -- The session was idle, and the constraints accept what it commits.
  have hshared : s'.shared = s.shared.write u := by
    refine step_of_accepted hstep (w := .reaper) ?_ haccepted
    obtain ⟨db, l, hact, -⟩ := Config.step_eq_some.mp hstep
    cases hl : s.locals i with
    | idle => simp [committed, plan, hu]
    | _ => simp [act, hl, plan] at hact
  rw [hshared, Db.get?_deployments_write u (Table.get?_key hd), UnitOfWork.onDeployment, hdirty]
  exact congrArg some (flush_reaped d)

/-- A pass of the reaper fails every stuck job whose attempts are exhausted. -/
theorem failed_of_reap {s s' : State} {i : ℕ} {now timeoutSeconds : Time}
    (hcons : s.shared.Constraints) (hstep : step lower s (i, .reap now timeoutSeconds) = some s')
    {d : Deployment} (hd : d ∈ s.shared.deployments)
    (hstuck : isStuck (now - timeoutSeconds) d = true) (hmax : maxAttempts ≤ d.attempts) :
    ∃ d', s'.shared.deployments.get? d.id = some d' ∧ d'.status = .failed ∧
      d'.error = some "worker_lost" := by
  refine ⟨reaped d, get?_of_reap hcons hstep hd hstuck, ?_⟩
  unfold reaped
  rw [if_pos hmax]
  exact ⟨rfl, rfl⟩

/-- Crash recovery is bounded. In every run of atomic steps from an empty deployments table, with
workers that crash at any point, the number of times a deployment was claimed equals its `attempts`
and is at most `MAX_ATTEMPTS` plus the number of its retries, a REQUESTED deployment is one below
that, and the next pass of the reaper fails every timed-out job with `MAX_ATTEMPTS` attempts. -/
theorem recovery_bounded_of_trace {s₀ s : State} {steps : List (State × (ℕ × Action))}
    (hempty : ∀ d, d ∉ s₀.shared.deployments) (hidle : ∀ i, s₀.locals i = .idle)
    (hcons : s₀.shared.Constraints) (h : Trace (step lower) AtomicSteps s₀ steps s) :
    (∀ d ∈ s.shared.deployments,
      steps.countP (claims lower d.id) = d.attempts ∧
      d.attempts ≤ maxAttempts + steps.countP (retries lower d.id) ∧
      (d.status = .requested →
        d.attempts ≤ maxAttempts - 1 + steps.countP (retries lower d.id))) ∧
    ∀ i now timeoutSeconds s', step lower s (i, .reap now timeoutSeconds) = some s' →
      ∀ d ∈ s.shared.deployments, isStuck (now - timeoutSeconds) d = true →
        maxAttempts ≤ d.attempts → ∃ d', s'.shared.deployments.get? d.id = some d' ∧
          d'.status = .failed ∧ d'.error = some "worker_lost" := by
  refine ⟨fun d hd => ?_, fun i now timeoutSeconds s' hstep d hd hstuck hmax =>
    failed_of_reap (constraints_of_reach hcons h.reach) hstep hd hstuck hmax⟩
  have hbounded := bounded_of_trace hempty hidle h d hd
  refine ⟨?_, hbounded.attempts, hbounded.requested⟩
  -- Attempts start at zero, and go up with each claim.
  have hstart : s₀.shared.attempts d.id = 0 := by
    rw [Db.attempts, Table.get?_eq_none.mpr fun e he => absurd he (hempty e)]
    rfl
  have hcount := h.countP_eq (f := fun s => s.shared.attempts d.id) hstart
    fun s p s' hreach hok hstep => attempts_step hidle hreach hok hstep d.id
  rw [← hcount, Db.attempts, Table.get?_key hd]
  rfl

/-- Three workers crash with a job one after the other, and the reaper then fails it; after a retry
a fourth worker claims it. -/
def crashingRun : List (ℕ × Action) :=
  [(0, request 1 .development false), (1, .claim "a" 10 []), (1, .crash), (9, .reap 200 120),
    (2, .claim "b" 210 []), (2, .commit), (2, .crash), (9, .reap 400 120), (3, .claim "c" 410 []),
    (3, .crash), (9, .reap 600 120), (0, .call (.retryDeployment 7 1)), (4, .claim "d" 610 [])]

/-- The claims of `crashingRun`. -/
theorem recovery_bounded_of_trace_crashingRun :
    ∃ s₀ steps s, (∀ d, d ∉ s₀.shared.deployments) ∧ (∀ i, s₀.locals i = .idle) ∧
      s₀.shared.Constraints ∧ Trace (step id) AtomicSteps s₀ steps s ∧
      s.shared.deployments.rows.map (fun d => (d.status, d.attempts)) = [(.validating, 4)] ∧
      (∀ d ∈ s.shared.deployments,
        steps.countP (claims id d.id) = d.attempts ∧
        d.attempts ≤ maxAttempts + steps.countP (retries id d.id) ∧
        (d.status = .requested →
          d.attempts ≤ maxAttempts - 1 + steps.countP (retries id d.id))) ∧
      ∀ i now timeoutSeconds s', step id s (i, .reap now timeoutSeconds) = some s' →
        ∀ d ∈ s.shared.deployments, isStuck (now - timeoutSeconds) d = true →
          maxAttempts ≤ d.attempts → ∃ d', s'.shared.deployments.get? d.id = some d' ∧
            d'.status = .failed ∧ d'.error = some "worker_lost" := by
  have hempty : ∀ d, d ∉ registered.shared.deployments := fun d => List.not_mem_nil (a := d)
  have hcons : registered.shared.Constraints := by decide
  obtain ⟨steps, htrace⟩ := (exec_reach (step id) AtomicSteps registered crashingRun).exists_trace
  obtain ⟨hrows, hreap⟩ := recovery_bounded_of_trace hempty (fun _ => rfl) hcons htrace
  exact ⟨registered, steps, _, hempty, fun _ => rfl, hcons, htrace, by decide, hrows, hreap⟩

end MlopsPlatform
