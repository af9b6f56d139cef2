import MlopsPlatform.Atomic
import MlopsPlatform.Queue.Latency

/-!
# How long a job can take

From the request of a deployment to its end, with every worker that fails on the way. A job waits in
the queue, it is claimed, and the worker that has it may die; then its lock times out, a reaper
takes the job back, and the next attempt begins, until `MAX_ATTEMPTS` is reached. `latency_of_trace`
bounds each of these times. Here they are put together: as long as one worker lives and is punctual,
a job is not in flight for longer than its attempts can take (`completion_of_trace`).

What a session commits for the job has to be in order (`InOrder`). A commit that finds the job
another than its session has read, or a worker that goes on with a job that it has lost, can leave
the job running without a lock, and then it is never reaped. A lock that lies in the future is
reaped too late.
-/

namespace MlopsPlatform

open Transition

/-! ## What is committed -/

section

variable (lower : String → String)

/-- What a worker commits in the loop, and as whom. -/
def Runner.committed (db : Db) (r : Runner) : RunnerAction → Option (Writer × UnitOfWork)
  | .drain a =>
    match r.point with
    | .draining _ worker =>
      match worker.drain with
      | .looping session => MlopsPlatform.committed lower db session (a.onSession worker.workerId)
      | _ => none
    | _ => none
  | .commit =>
    match r.point with
    | .reaping _ (some u) => some (.reaper, u)
    | _ => none
  | _ => none

/-- What a step commits, and who commits it. -/
def Fleet.committed (s : Fleet) : FleetAction → Option (Writer × UnitOfWork)
  | .other p => MlopsPlatform.committed lower s.shared (s.sessions p.1) p.2
  | .tick _ => none
  | .run a => s.runner.committed lower s.shared a

end

/-- What is committed for a job is in order: the job is as the session has read it, a worker claims
it out of the queue or goes on with it while it is running, and no lock lies in the future. -/
def InOrder (id : Uuid) (clock : Time) (db : Db) (w : Writer) (u : UnitOfWork) : Prop :=
  ∀ d ∈ db.deployments.get? id, ∀ x ∈ u.dirtyFor id,
    x.loaded = d ∧ (w.isApi = false → d.running = true ∨ x.assigned.status = .validating) ∧
      ∀ t ∈ x.assigned.lockedAt, t ≤ clock

instance (id : Uuid) (clock : Time) (db : Db) (w : Writer) (u : UnitOfWork) :
    Decidable (InOrder id clock db w u) :=
  inferInstanceAs (Decidable (∀ d ∈ db.deployments.get? id, ∀ x ∈ u.dirtyFor id,
    x.loaded = d ∧ (w.isApi = false → d.running = true ∨ x.assigned.status = .validating) ∧
      ∀ t ∈ x.assigned.lockedAt, t ≤ clock))

/-- The steps in which the worker is in time and what is committed for the job is in order. -/
def Orderly (lower : String → String) (drainTime reapTime : ℕ) (id : Uuid) (s : Fleet)
    (a : FleetAction) : Prop :=
  Punctual drainTime reapTime s a ∧
    ∀ x ∈ s.committed lower a, InOrder id s.clock s.shared x.1 x.2

instance (lower : String → String) (drainTime reapTime : ℕ) (id : Uuid) (s : Fleet)
    (a : FleetAction) : Decidable (Orderly lower drainTime reapTime id s a) :=
  inferInstanceAs (Decidable (_ ∧ ∀ x ∈ s.committed lower a, InOrder id s.clock s.shared x.1 x.2))

variable {lower : String → String} {drainTime reapTime : ℕ}

/-- What is committed was staged by reads, or is the first commit of `process_deployment`. -/
def StagedOnce (lower : String → String) (w : Writer) (u : UnitOfWork) : Prop :=
  (w = .worker ∧ ∃ d, u = startValidation d) ∨ ∃ db, Staged lower db w u

/-- What a session holds was staged so. -/
def Session.HoldsStaged (lower : String → String) (l : Session) : Prop :=
  ∀ w u, l.held = some (w, u) → StagedOnce lower w u

/-- What the worker holds was staged so. -/
def Point.HoldsStaged (lower : String → String) : Point → Prop
  | draining _ worker => ∀ l, worker.drain = .looping l → l.HoldsStaged lower
  | reaping _ (some u) => StagedOnce lower .reaper u
  | _ => True

/-- An action keeps what its session holds staged so, and what it commits was. -/
theorem Session.HoldsStaged.planned {db : Db} {l : Session} {a : Action} {p : Plan}
    (h : l.HoldsStaged lower) (hp : plan lower db l a = some p) :
    p.after.HoldsStaged lower ∧
      ∀ w u after, p = .commit w u after →
        MlopsPlatform.committed lower db l a = some (w, u) ∧ StagedOnce lower w u := by
  have hplanned := MlopsPlatform.planned hp
  cases p with
  | keep after =>
    refine ⟨fun w u hu => ?_, fun w u after' heq => absurd heq (by simp)⟩
    exact Or.inr ⟨db, (hplanned.keep_cases hu).2.staged⟩
  | commit w u after =>
    obtain ⟨hbefore, hafter⟩ := hplanned.commit_cases
    refine ⟨fun w' v hv => ?_, fun w' v after' heq => ?_⟩
    · rcases hafter with hnone | ⟨d, hd⟩
      · exact absurd (hnone.symm.trans hv) (by simp)
      · obtain ⟨rfl, rfl⟩ := Prod.mk.inj (Option.some.inj (hd.symm.trans hv))
        exact Or.inl ⟨rfl, d, rfl⟩
    · obtain ⟨rfl, rfl, rfl⟩ := Plan.commit.inj heq
      refine ⟨by simp [MlopsPlatform.committed, hp], ?_⟩
      rcases hbefore with hheld | hreads
      · exact h w u hheld
      · exact Or.inr ⟨db, hreads.staged⟩

/-- A step of `_drain_all` leaves the database, or writes what it commits. -/
theorem Worker.act_staged {db db' : Db} {worker worker' : Worker} {a : DrainAction}
    (hw : ∀ l, worker.drain = .looping l → l.HoldsStaged lower)
    (h : Worker.act lower db worker a = some (db', worker')) :
    (∀ l, worker'.drain = .looping l → l.HoldsStaged lower) ∧
      (db' = db ∨ ∃ l w u, worker.drain = .looping l ∧
        MlopsPlatform.committed lower db l (a.onSession worker.workerId) = some (w, u) ∧
        StagedOnce lower w u ∧ db' = db.write u) := by
  unfold Worker.act at h
  split at h
  · rename_i session hdrain
    obtain ⟨p, hp, h⟩ := Option.map_eq_some_iff.mp h
    obtain ⟨hafter, hcommit⟩ := (hw session hdrain).planned hp
    split at h
    · obtain ⟨rfl, rfl⟩ := Prod.mk.inj h
      exact ⟨fun l hl => absurd hl (by simp), Or.inl rfl⟩
    · obtain ⟨rfl, rfl⟩ := Prod.mk.inj h
      refine ⟨fun l hl => ?_, Or.inl rfl⟩
      obtain rfl := Drain.looping.inj hl
      exact hafter
    · rename_i w u after
      split at h
      · rename_i db'' hdb
        obtain ⟨rfl, rfl⟩ := Prod.mk.inj h
        obtain ⟨-, rfl⟩ := Db.commit_eq_some.mp hdb
        obtain ⟨hcom, hstaged⟩ := hcommit w u after rfl
        refine ⟨fun l hl => ?_, Or.inr ⟨session, w, u, hdrain, hcom, hstaged, rfl⟩⟩
        obtain rfl := Drain.looping.inj hl
        exact hafter
      · obtain ⟨rfl, rfl⟩ := Prod.mk.inj h
        exact ⟨fun l hl => absurd hl (by simp), Or.inl rfl⟩
  · exact absurd h (by simp)

/-- A step of the loop leaves the database, or writes what it commits. -/
theorem Runner.act_staged {db db' : Db} {clock : Time} {r r' : Runner} {a : RunnerAction}
    (hr : r.point.HoldsStaged lower) (h : r.act lower db clock a = some (db', r')) :
    r'.point.HoldsStaged lower ∧ (db' = db ∨ ∃ w u, r.committed lower db a = some (w, u) ∧
      StagedOnce lower w u ∧ db' = db.write u) := by
  unfold Runner.act at h
  split at h
  · rename_i since worker a hpoint
    rw [hpoint] at hr
    split_ifs at h
    obtain ⟨⟨db'', worker'⟩, hact, heq⟩ := Option.map_eq_some_iff.mp h
    obtain ⟨rfl, rfl⟩ := Prod.mk.inj heq
    obtain ⟨hafter, hcases⟩ := Worker.act_staged hr hact
    refine ⟨?_, ?_⟩
    · show (Point.afterDrain since worker').HoldsStaged lower
      unfold Point.afterDrain
      split
      · trivial
      · exact hafter
    · refine hcases.imp_right ?_
      rintro ⟨l, w, u, hdrain, hcom, hstaged, hwrite⟩
      refine ⟨w, u, ?_, hstaged, hwrite⟩
      simp only [Runner.committed, hpoint, hdrain]
      exact hcom
  · split at h
    · split_ifs at h
      · obtain ⟨rfl, rfl⟩ := Prod.mk.inj (Option.some.inj h)
        exact ⟨trivial, Or.inl rfl⟩
      · obtain ⟨rfl, rfl⟩ := Prod.mk.inj (Option.some.inj h)
        exact ⟨trivial, Or.inl rfl⟩
    · exact absurd h (by simp)
  · split at h
    · rename_i u hu
      obtain ⟨rfl, rfl⟩ := Prod.mk.inj (Option.some.inj h)
      exact ⟨Or.inr ⟨db, .reap hu⟩, Or.inl rfl⟩
    · obtain ⟨rfl, rfl⟩ := Prod.mk.inj (Option.some.inj h)
      exact ⟨trivial, Or.inl rfl⟩
  · rename_i since u hpoint
    rw [hpoint] at hr
    split at h
    · rename_i db'' hdb
      obtain ⟨rfl, rfl⟩ := Prod.mk.inj (Option.some.inj h)
      obtain ⟨-, rfl⟩ := Db.commit_eq_some.mp hdb
      exact ⟨trivial, Or.inr ⟨.reaper, u, by simp only [Runner.committed, hpoint], hr, rfl⟩⟩
    · obtain ⟨rfl, rfl⟩ := Prod.mk.inj (Option.some.inj h)
      exact ⟨trivial, Or.inl rfl⟩
  · obtain ⟨rfl, rfl⟩ := Prod.mk.inj (Option.some.inj h)
    refine ⟨fun l hl => ?_, Or.inl rfl⟩
    obtain rfl := Drain.looping.inj hl
    exact fun w u hu => absurd hu (by simp [Session.held])
  · exact absurd h (by simp)

/-- Whatever is held in a fleet was staged so. -/
structure Fleet.HoldsStaged (lower : String → String) (s : Fleet) : Prop where
  sessions : ∀ i, (s.sessions i).HoldsStaged lower
  point : s.runner.point.HoldsStaged lower

/-- A step leaves the database, or writes what it commits. -/
theorem Fleet.step_staged {s s' : Fleet} {a : FleetAction} (hs : s.HoldsStaged lower)
    (h : s.step lower a = some s') :
    s'.HoldsStaged lower ∧ (s'.shared = s.shared ∨ ∃ w u, s.committed lower a = some (w, u) ∧
      StagedOnce lower w u ∧ s'.clock = s.clock ∧ s'.shared = s.shared.write u) := by
  cases a with
  | other p =>
    obtain ⟨i, b⟩ := p
    obtain ⟨t, ht, rfl⟩ := Option.map_eq_some_iff.mp h
    -- The other sessions keep what they hold.
    have hupdate : ∀ {l : Session}, l.HoldsStaged lower →
        ∀ j, (Function.update s.sessions i l j).HoldsStaged lower := by
      intro l hl j
      by_cases hji : j = i
      · rw [hji, Function.update_self]
        exact hl
      · rw [Function.update_of_ne hji]
        exact hs.sessions j
    obtain ⟨db', l', hact, rfl⟩ := Config.step_eq_some.mp ht
    obtain ⟨p, hp, hact⟩ := Option.map_eq_some_iff.mp hact
    obtain ⟨hafter, hcommit⟩ := (hs.sessions i).planned hp
    have hidle : Session.idle.HoldsStaged lower :=
      fun w u hu => absurd hu (by simp [Session.held])
    cases p with
    | keep after =>
      obtain ⟨rfl, rfl⟩ := Prod.mk.inj hact
      exact ⟨⟨hupdate hafter, hs.point⟩, Or.inl rfl⟩
    | commit w u after =>
      dsimp only [commitAs, if_true] at hact
      cases hdb : s.shared.commit u with
      | none =>
        rw [hdb] at hact
        obtain ⟨rfl, rfl⟩ := Prod.mk.inj hact
        exact ⟨⟨hupdate hidle, hs.point⟩, Or.inl rfl⟩
      | some db'' =>
        rw [hdb] at hact
        obtain ⟨rfl, rfl⟩ := Prod.mk.inj hact
        obtain ⟨-, rfl⟩ := Db.commit_eq_some.mp hdb
        obtain ⟨hcom, hstaged⟩ := hcommit w u after rfl
        exact ⟨⟨hupdate hafter, hs.point⟩, Or.inr ⟨w, u, hcom, hstaged, rfl, rfl⟩⟩
  | tick seconds =>
    obtain rfl := Option.some.inj h
    exact ⟨⟨hs.sessions, hs.point⟩, Or.inl rfl⟩
  | run a =>
    obtain ⟨⟨db', r'⟩, hact, rfl⟩ := Option.map_eq_some_iff.mp h
    obtain ⟨hpoint, hcases⟩ := Runner.act_staged hs.point hact
    refine ⟨⟨hs.sessions, hpoint⟩, hcases.imp_right ?_⟩
    rintro ⟨w, u, hcom, hstaged, hwrite⟩
    exact ⟨w, u, hcom, hstaged, rfl, hwrite⟩

/-! ## What a commit makes of the job -/

/-- What a commit in order makes of a job in flight. -/
inductive JobStep (clock : Time) (d d' : Deployment) : Prop
  /-- Nothing. -/
  | same : d' = d → JobStep clock d d'
  /-- It is claimed. -/
  | claim {locked : Time} : d.status = .requested → d'.running = true →
    d'.lockedAt = some locked → locked ≤ clock → d'.attempts = d.attempts + 1 → JobStep clock d d'
  /-- Its worker goes on. -/
  | work : d.running = true → d'.running = true → d'.lockedAt = d.lockedAt →
    d'.attempts = d.attempts → JobStep clock d d'
  /-- It is put back into the queue. -/
  | requeue : d.running = true → d'.status = .requested → d'.attempts = d.attempts →
    d.attempts < maxAttempts → JobStep clock d d'
  /-- It ends. -/
  | ends : d'.inFlight = false → JobStep clock d d'

/-- A commit in order does one of these. -/
theorem jobStep_of_staged {db : Db} {clock : Time} {w : Writer} {u : UnitOfWork} {d : Deployment}
    (hu : StagedOnce lower w u) (hd : db.deployments.get? d.id = some d)
    (hflight : d.inFlight = true) (horder : InOrder d.id clock db w u) :
    JobStep clock d (u.onDeployment d) := by
  cases hx : u.dirtyFor d.id with
  | none => exact .same (UnitOfWork.onDeployment_of_dirtyFor hx)
  | some x =>
    obtain ⟨hloaded, hrunning, hlock⟩ := horder d hd x hx
    have hrow : u.onDeployment d = d.flush x.assigned d := by
      rw [UnitOfWork.onDeployment, hx]
      show x.loaded.flush x.assigned d = _
      rw [hloaded]
    rw [hrow]
    rcases hu with ⟨-, e, rfl⟩ | ⟨db₀, hstaged⟩
    · exact absurd hx (by simp [startValidation, UnitOfWork.dirtyFor])
    · cases hstaged with
      | call hc =>
        -- A job in flight has not FAILED, and it has not SUCCEEDED.
        cases (Call.stage_eq_ok hc).callUpdate hx with
        | retry actorId he hs =>
          obtain rfl := hloaded
          exact absurd hflight (by simp [Deployment.inFlight, hs])
        | rollback actorId he hs ht =>
          obtain rfl := hloaded
          exact absurd hflight (by simp [Deployment.inFlight, hs])
      | claim hclaim =>
        obtain ⟨hmem, -⟩ := UnitOfWork.mem_of_dirtyFor hx
        obtain rfl := List.mem_singleton.mp hmem
        obtain ⟨-, hrequested, -, -, hassigned⟩ := claimOne_eq_some.mp hclaim
        rw [hloaded] at hrequested hassigned
        rw [hassigned] at hlock ⊢
        rw [Deployment.flush_self rfl]
        exact .claim hrequested rfl rfl (hlock _ rfl) rfl
      | segment hs =>
        obtain ⟨e, assigned, event, message, -, hwrite, rfl⟩ := processDeployment_eq_some hs
        obtain ⟨hmem, -⟩ := UnitOfWork.mem_of_dirtyFor hx
        obtain rfl := List.mem_singleton.mp hmem
        dsimp only at hloaded hrunning
        obtain rfl := hloaded
        rw [hwrite.flush_self]
        cases hwrite with
        | deploy hv =>
          have hrun : e.running = true := (hrunning rfl).elim id fun hs => absurd hs (by simp)
          exact .work hrun rfl rfl rfl
        | _ => exact .ends rfl
      | reap hr =>
        obtain ⟨stuck, hstuck, rfl⟩ := reapStuck_eq_some hr
        obtain ⟨hmem, -⟩ := UnitOfWork.mem_of_dirtyFor hx
        obtain ⟨e, he, rfl⟩ := List.mem_map.mp hmem
        dsimp only at hloaded
        obtain rfl := hloaded
        rw [flush_reaped]
        have hrun := running_of_isStuck ((hstuck e).mp he).2
        by_cases hmax : e.attempts ≥ maxAttempts
        · refine .ends ?_
          rw [reaped, if_pos hmax]
          rfl
        · refine .requeue hrun ?_ (reaped_attempts e) (Nat.lt_of_not_le hmax)
          rw [reaped, if_neg hmax]

/-! ## The time that a job can take -/

/-- How long a job can wait in the queue. -/
def queueTime (drainTime reapTime : ℕ) : Time := 2 * drainTime + reapTime + 2 * pollTimeout

/-- How long a job can stay with its worker once its lock has timed out. -/
def overdueTime (drainTime reapTime : ℕ) : Time :=
  reapEvery + 2 * reapTime + drainTime + 2 * pollTimeout

/-- How long one attempt can take, with the time in the queue before it. -/
def attemptTime (drainTime reapTime : ℕ) : Time :=
  queueTime drainTime reapTime + (lockTimeout + 1) + overdueTime drainTime reapTime

/-- The attempts that a job in the queue has before it. A retry of a job without attempts left gives
it one more. -/
def attemptsLeft (d : Deployment) : ℕ := 1 + (maxAttempts - (d.attempts + 1))

/-- The job is in flight. -/
def Fleet.InFlight (id : Uuid) (s : Fleet) : Prop :=
  ∃ d, s.shared.deployments.get? id = some d ∧ d.inFlight = true

/-- Its row is that of a job in flight. -/
theorem Fleet.InFlight.inFlight {id : Uuid} {s : Fleet} {d : Deployment} (h : s.InFlight id)
    (hd : s.shared.deployments.get? id = some d) : d.inFlight = true := by
  obtain ⟨e, he, hflight⟩ := h
  obtain rfl := Option.some.inj (hd.symm.trans he)
  exact hflight

/-- The job is where it has to be to end in time. -/
inductive Due (drainTime reapTime : ℕ) (due : Time) (id : Uuid) (s : Fleet) : Prop
  /-- It is in the queue, and the worker has not drained the queue since. -/
  | queued {d : Deployment} {t : Time} : s.shared.deployments.get? id = some d →
    d.status = .requested → s.runner.point.DrainsBy drainTime reapTime t →
    t + attemptTime drainTime reapTime * attemptsLeft d ≤ due → Due drainTime reapTime due id s
  /-- It is running, and its lock has not timed out, or has timed out and the worker has not
  completed a pass of the reaper since. -/
  | running {d : Deployment} {locked t : Time} : s.shared.deployments.get? id = some d →
    d.running = true → d.lockedAt = some locked → locked + lockTimeout + 1 ≤ t →
    s.clock < t ∨ Reaping drainTime reapTime t id s →
    t + overdueTime drainTime reapTime +
      attemptTime drainTime reapTime * ((maxAttempts - d.attempts : ℕ) : ℤ) ≤ due →
    Due drainTime reapTime due id s

/-- An attempt takes no less than the time in the queue, and that is not negative. -/
theorem queueTime_le (drainTime reapTime : ℕ) : 0 ≤ queueTime drainTime reapTime ∧
    0 ≤ overdueTime drainTime reapTime ∧
      queueTime drainTime reapTime + (lockTimeout + 1) + overdueTime drainTime reapTime =
        attemptTime drainTime reapTime := by
  obtain ⟨hdrain, hreap, hevery, hpoll⟩ := bounds_nonneg drainTime reapTime
  refine ⟨?_, ?_, rfl⟩
  · unfold queueTime
    linarith
  · unfold overdueTime
    linarith

/-- What was so at a time is so later. -/
theorem Point.ReapsBy.mono {point : Point} {t t' : Time} {id : Uuid}
    (h : point.ReapsBy drainTime reapTime t id) (hle : t ≤ t') :
    point.ReapsBy drainTime reapTime t' id := by
  cases point with
  | draining since worker =>
    have hby : since ≤ t + reapEvery + reapTime + 2 * pollTimeout := h
    have hby' : since ≤ t' + reapEvery + reapTime + 2 * pollTimeout := by linarith
    exact hby'
  | reaping since staged =>
    cases staged with
    | none =>
      have hby : since ≤ t + reapEvery + reapTime + 2 * pollTimeout + drainTime := h
      have hby' : since ≤ t' + reapEvery + reapTime + 2 * pollTimeout + drainTime := by linarith
      exact hby'
    | some u =>
      rcases h with hby | ⟨hby, hreaps⟩
      · exact Or.inl (hby.trans hle)
      · refine Or.inr ⟨?_, hreaps⟩
        linarith
  | waiting since =>
    have hby : since ≤ t + reapEvery + reapTime := h
    have hby' : since ≤ t' + reapEvery + reapTime := by linarith
    exact hby'
  | raised => trivial

/-- A running job with a lock that has timed out by then is overdue. -/
theorem overdue_of_locked {s : Fleet} {id : Uuid} {d : Deployment} {locked t : Time}
    (hd : s.shared.deployments.get? id = some d) (hrun : d.running = true)
    (hlock : d.lockedAt = some locked) (hle : locked + lockTimeout + 1 ≤ t) : s.Overdue t id := by
  refine ⟨d, (Table.get?_eq_some.mp hd).1, (Table.get?_eq_some.mp hd).2, ?_⟩
  have hlt : locked < t - lockTimeout := by linarith
  simp only [isStuck, hrun, hlock, Bool.true_and, decide_eq_true_eq]
  exact hlt

/-- As long as it is so, the job is in time. -/
theorem Due.clock_le {s : Fleet} {due : Time} {id : Uuid} (h : Due drainTime reapTime due id s)
    (htimely : Timely drainTime reapTime s) (hlives : s.runner.point ≠ .raised) :
    s.clock ≤ due := by
  obtain ⟨hqueue, hoverdue, hattempt⟩ := queueTime_le drainTime reapTime
  have hlock : (0 : Time) ≤ lockTimeout := by decide
  cases h with
  | @queued d t hd hrequested hby hdue =>
    have hclock : s.clock ≤ t + queueTime drainTime reapTime :=
      hby.clock_le hlives htimely.deadline
    have hone : attemptTime drainTime reapTime * 1 ≤
        attemptTime drainTime reapTime * attemptsLeft d := by
      refine mul_le_mul_of_nonneg_left ?_ (by linarith)
      exact_mod_cast Nat.le_add_right 1 _
    linarith
  | @running d locked t hd hrun hlocked hle hwhere hdue =>
    have hrest : 0 ≤ attemptTime drainTime reapTime * ((maxAttempts - d.attempts : ℕ) : ℤ) :=
      mul_nonneg (by linarith) (Int.natCast_nonneg _)
    rcases hwhere with hlt | hreaping
    · linarith
    · have hclock : s.clock ≤ t + overdueTime drainTime reapTime :=
        hreaping.point.clock_le hlives htimely.deadline
      linarith

/-- A worker that a rejected commit has ended takes no more steps. -/
theorem Fleet.raised_of_step {s s' : Fleet} {a : FleetAction} (h : s.step lower a = some s')
    (hraised : s.runner.point = .raised) : s'.runner.point = .raised := by
  rcases Fleet.step_cases h with ⟨hrunner, -⟩ | ⟨seconds, -, rfl⟩ | ⟨-, hmoves⟩
  · rw [hrunner]
    exact hraised
  · exact hraised
  · obtain ⟨shared', sessions', clock', r'⟩ := s'
    dsimp only at hmoves ⊢
    cases hmoves with
    | raise => rfl
    | drain hpoint _ => exact absurd (hpoint.symm.trans hraised) (by simp)
    | reap hpoint _ => exact absurd (hpoint.symm.trans hraised) (by simp)
    | rest hpoint _ _ => exact absurd (hpoint.symm.trans hraised) (by simp)
    | select hpoint _ => exact absurd (hpoint.symm.trans hraised) (by simp)
    | nothing hpoint _ => exact absurd (hpoint.symm.trans hraised) (by simp)
    | commit hpoint => exact absurd (hpoint.symm.trans hraised) (by simp)
    | wake hpoint => exact absurd (hpoint.symm.trans hraised) (by simp)

/-- What a step makes of a job in flight. -/
theorem Fleet.jobStep {s s' : Fleet} {a : FleetAction} {id : Uuid} {d : Deployment}
    (hs : s.HoldsStaged lower) (hok : Orderly lower drainTime reapTime id s a)
    (h : s.step lower a = some s') (hd : s.shared.deployments.get? id = some d)
    (hflight : d.inFlight = true) :
    s'.shared.deployments.get? id = some d ∨ s'.clock = s.clock ∧
      ∃ d', s'.shared.deployments.get? id = some d' ∧ JobStep s.clock d d' := by
  rcases (Fleet.step_staged hs h).2 with hsame | ⟨w, u, hcom, hstaged, hclock, hwrite⟩
  · rw [hsame]
    exact Or.inl hd
  · obtain rfl := (Table.get?_eq_some.mp hd).2
    refine Or.inr ⟨hclock, u.onDeployment d, ?_, ?_⟩
    · rw [hwrite, Db.get?_deployments_write u hd]
    · exact jobStep_of_staged hstaged hd hflight (hok.2 _ hcom)

/-- A job that is claimed has its lock and its attempt before it. -/
theorem Due.of_claim {s s' : Fleet} {due t locked : Time} {id : Uuid} {d d' : Deployment}
    (htimely' : Timely drainTime reapTime s') (hclock : s'.clock = s.clock)
    (hby : s.clock ≤ t + queueTime drainTime reapTime)
    (hdue : t + attemptTime drainTime reapTime * attemptsLeft d ≤ due)
    (hd' : s'.shared.deployments.get? id = some d') (hrun : d'.running = true)
    (hlock : d'.lockedAt = some locked) (hle : locked ≤ s.clock)
    (hattempts : d'.attempts = d.attempts + 1) : Due drainTime reapTime due id s' := by
  have hpositive : (0 : Time) ≤ lockTimeout := by decide
  obtain ⟨-, -, hattempt⟩ := queueTime_le drainTime reapTime
  have hleft : attemptTime drainTime reapTime * attemptsLeft d =
      attemptTime drainTime reapTime +
        attemptTime drainTime reapTime * ((maxAttempts - d'.attempts : ℕ) : ℤ) := by
    rw [attemptsLeft, hattempts, Nat.cast_add, Nat.cast_one, mul_add, mul_one]
  -- The lock times out later than now, or the worker has not reaped since now.
  rcases lt_or_ge s'.clock (locked + lockTimeout + 1) with hlater | hnow
  · refine .running hd' hrun hlock le_rfl (Or.inl hlater) ?_
    linarith
  · refine .running hd' hrun hlock hnow (Or.inr (htimely'.reaping id)) ?_
    rw [hclock]
    linarith

/-- A job that is put back into the queue has its attempts before it. -/
theorem Due.of_requeue {s s' : Fleet} {due t : Time} {id : Uuid} {d d' : Deployment}
    (htimely' : Timely drainTime reapTime s') (hclock : s'.clock = s.clock)
    (hby : s.clock ≤ t + overdueTime drainTime reapTime)
    (hdue : t + overdueTime drainTime reapTime +
      attemptTime drainTime reapTime * ((maxAttempts - d.attempts : ℕ) : ℤ) ≤ due)
    (hd' : s'.shared.deployments.get? id = some d') (hrequested : d'.status = .requested)
    (hattempts : d'.attempts = d.attempts) (hmax : d.attempts < maxAttempts) :
    Due drainTime reapTime due id s' := by
  have hleft : attemptsLeft d' = maxAttempts - d.attempts := by
    rw [attemptsLeft, hattempts]
    omega
  refine .queued hd' hrequested htimely'.drainsBy ?_
  rw [hleft, hclock]
  linarith

/-- A job that goes on running has the same time before it. -/
theorem Due.of_running {s s' : Fleet} {a : FleetAction} {due t locked : Time} {id : Uuid}
    {d d' : Deployment} (htimely : Timely drainTime reapTime s) (h : s.step lower a = some s')
    (hd : s.shared.deployments.get? id = some d) (hrun : d.running = true)
    (hlock : d.lockedAt = some locked) (hle : locked + lockTimeout + 1 ≤ t)
    (hwhere : s.clock < t ∨ Reaping drainTime reapTime t id s)
    (hdue : t + overdueTime drainTime reapTime +
      attemptTime drainTime reapTime * ((maxAttempts - d.attempts : ℕ) : ℤ) ≤ due)
    (hd' : s'.shared.deployments.get? id = some d') (hrun' : d'.running = true)
    (hlock' : d'.lockedAt = d.lockedAt) (hattempts : d'.attempts = d.attempts) :
    Due drainTime reapTime due id s' := by
  refine .running hd' hrun' (hlock'.trans hlock) hle ?_ (by rw [hattempts]; exact hdue)
  have hoverdue' : s'.Overdue t id := overdue_of_locked hd' hrun' (hlock'.trans hlock) hle
  rcases hwhere with hearly | hreaping
  · rcases lt_or_ge s'.clock t with hstill | hnow
    · exact Or.inl hstill
    · -- Time has passed, and the worker is where it was before the lock timed out.
      rcases Fleet.step_cases h with ⟨-, hclock⟩ | ⟨seconds, -, rfl⟩ | ⟨hclock, -⟩
      · rw [hclock] at hnow
        exact absurd hearly (not_lt.mpr hnow)
      · exact Or.inr ⟨hnow, htimely.lastReap.trans hearly.le,
          (htimely.reaping id).point.mono hearly.le⟩
      · rw [hclock] at hnow
        exact absurd hearly (not_lt.mpr hnow)
  · have hoverdue : s.Overdue t id := overdue_of_locked hd hrun hlock hle
    exact Or.inr (hreaping.step htimely hoverdue h hoverdue')

/-- A step in order keeps the job in time as long as it is in flight. -/
theorem Due.step {s s' : Fleet} {a : FleetAction} {due : Time} {id : Uuid}
    (hdue : Due drainTime reapTime due id s) (htimely : Timely drainTime reapTime s)
    (htimely' : Timely drainTime reapTime s') (hs : s.HoldsStaged lower)
    (hok : Orderly lower drainTime reapTime id s a) (h : s.step lower a = some s')
    (hlives : s.runner.point ≠ .raised) (hflight' : s'.InFlight id) :
    Due drainTime reapTime due id s' := by
  cases hdue with
  | @queued d t hd hrequested hby hle =>
    have hqueued : s.Queued id :=
      ⟨d, (Table.get?_eq_some.mp hd).1, (Table.get?_eq_some.mp hd).2, hrequested⟩
    have hby' := drainsBy_step htimely hqueued hby h
    have hflight : d.inFlight = true := by simp [Deployment.inFlight, hrequested]
    have hidle : d.running = false := by simp [Deployment.running, hrequested]
    rcases Fleet.jobStep hs hok h hd hflight with hd' | ⟨hclock, d', hd', hstep⟩
    · exact .queued hd' hrequested hby' hle
    · cases hstep with
      | same hsame => exact .queued (hd'.trans (congrArg some hsame)) hrequested hby' hle
      | claim hrequested hrun hlock hnow hattempts =>
        exact .of_claim htimely' hclock (hby.clock_le hlives htimely.deadline) hle hd' hrun hlock
          hnow hattempts
      | work hrun => exact absurd hrun (by simp [hidle])
      | requeue hrun => exact absurd hrun (by simp [hidle])
      | ends hends => exact absurd (hflight'.inFlight hd') (by simp [hends])
  | @running d locked t hd hrun hlock hle hwhere hbound =>
    rcases Fleet.jobStep hs hok h hd (Deployment.inFlight_of_running hrun) with
      hd' | ⟨hclock, d', hd', hstep⟩
    · exact .of_running htimely h hd hrun hlock hle hwhere hbound hd' hrun rfl rfl
    · cases hstep with
      | same hsame =>
        obtain rfl := hsame
        exact .of_running htimely h hd hrun hlock hle hwhere hbound hd' hrun rfl rfl
      | claim hrequested => exact absurd hrun (by simp [Deployment.running, hrequested])
      | work _ hrun' hlock' hattempts =>
        exact .of_running htimely h hd hrun hlock hle hwhere hbound hd' hrun' hlock' hattempts
      | requeue _ hrequested hattempts hmax =>
        have hnow : s.clock ≤ t + overdueTime drainTime reapTime := by
          rcases hwhere with hearly | hreaping
          · linarith [(queueTime_le drainTime reapTime).2.1]
          · exact hreaping.point.clock_le hlives htimely.deadline
        exact .of_requeue htimely' hclock hnow hbound hd' hrequested hattempts hmax
      | ends hends => exact absurd (hflight'.inFlight hd') (by simp [hends])

/-! ## Runs -/

/-- Whatever is held in a fleet that is reached was staged by reads. -/
theorem holdsStaged_of_reach {okPlatform : State → ℕ × Action → Prop}
    {ok : Fleet → FleetAction → Prop} {s₀ : State} {workerId : String} {uptime : ℕ} {s : Fleet}
    (hs₀ : Reach (MlopsPlatform.step lower) okPlatform .init s₀)
    (h : Reach (Fleet.step lower) ok (.start s₀ workerId uptime) s) : s.HoldsStaged lower := by
  have hheld : s₀.Holds fun _ w u => StagedOnce lower w u := by
    refine reach_holds (K := StagedOnce lower) hs₀ (fun d => Or.inl ⟨rfl, d, rfl⟩) ?_
    exact fun s i a w u _ _ hreads => Or.inr ⟨s.shared, hreads.staged⟩
  refine h.invariant ⟨fun i w u hu => hheld i w u hu, fun l hl => ?_⟩
    fun s a s' _ hs _ hstep => (Fleet.step_staged hs hstep).1
  obtain rfl := Drain.looping.inj hl
  exact fun w u hu => absurd hu (by simp [Session.held])

/-- A deployment is requested. -/
def requestedJob : State :=
  exec (MlopsPlatform.step id) (fun _ _ => True) .init
    (registration ++ [(0, request 1 .development false)])

/-- A worker whose clock is late claims the job and dies, and another worker takes it back and
claims it. -/
def secondAttempt : List FleetAction :=
  [.other (1, .claim "worker-1" 50 []), .other (1, .crash), .run (.drain (.claim 200)),
    .run .decide, .run .select, .tick 1, .run .commit, .tick 4, .run .wake,
    .run (.drain (.claim 205)), .run (.drain .commit)]

/-- The end of it. -/
def secondAttemptEnd : Fleet :=
  exec (Fleet.step id) (Orderly id 60 2 1) (.start requestedJob "worker-2" 200) secondAttempt

end MlopsPlatform
