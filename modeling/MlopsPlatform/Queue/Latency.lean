import MlopsPlatform.Worker.Runner
import Mathlib.Tactic.Linarith

/-!
# How long a job can wait

`run` of `worker/runner.py` is a loop: drain the queue, reap if the last pass was more than thirty
seconds ago, and wait for a notification or for the poll timeout. A notification may be lost, and a
worker may die with its jobs. What helps then is that some other worker polls and reaps.

`Fleet` is one worker in this loop beside any number of other sessions, with a clock. The others do
what they like: they may be slow, they may crash, and their clocks may be wrong. The worker is held
to two bounds, the time that a drain takes and the time that a pass of the reaper takes
(`Punctual`). `latency_of_trace` bounds how long a job stays in the queue, and how long a lock stays
once it has timed out. The bound on the drain is needed: the worker reaps only after `_drain_all`
has found the queue empty, so a queue that never gets empty keeps it from reaping.
-/

namespace MlopsPlatform

open Transition

/-! ## The loop -/

/-- `POLL_TIMEOUT_SECONDS`. -/
def pollTimeout : Time := 5

/-- `REAP_EVERY_SECONDS`. -/
def reapEvery : Time := 30

/-- The `timeout_seconds` that `reap_stuck` has if none is given. -/
def lockTimeout : Time := 120

/-- Where a worker is in the loop, and since when. -/
inductive Point
  /-- In `_drain_all`. -/
  | draining (since : Time) (worker : Worker)
  /-- In `reap_stuck`, with what its SELECT has staged. -/
  | reaping (since : Time) (staged : Option UnitOfWork)
  /-- In `_wait_for_notify`. -/
  | waiting (since : Time)
  /-- A commit was rejected, and the exception has ended the process. -/
  | raised

/-- A worker that runs the loop. -/
structure Runner where
  workerId : String
  lastReap : Time
  point : Point

/-- What a worker does in the loop. -/
inductive RunnerAction
  /-- A step of `_drain_all`. -/
  | drain (a : DrainAction)
  /-- `if now - last_reap > REAP_EVERY_SECONDS`. -/
  | decide
  /-- The SELECT of `reap_stuck`. -/
  | select
  /-- The commit of `reap_stuck`. -/
  | commit
  /-- `_wait_for_notify` returns. -/
  | wake

/-- A claim is made at a time. -/
def DrainAction.isAt (clock : Time) : DrainAction → Bool
  | claim now => now = clock
  | _ => true

/-- The worker enters `_drain_all`. -/
def Runner.enter (r : Runner) (clock : Time) : Runner :=
  { r with point := .draining clock ⟨r.workerId, 0, .looping .idle⟩ }

/-- The worker waits. -/
def Runner.wait (r : Runner) (clock : Time) : Runner := { r with point := .waiting clock }

/-- The worker has reaped, and waits. -/
def Runner.afterReap (r : Runner) (since clock : Time) : Runner :=
  { r with lastReap := since, point := .waiting clock }

/-- A step of `_drain_all` has ended with the worker. -/
def Point.afterDrain (since : Time) (worker : Worker) : Point :=
  match worker.drain with
  | .raised => .raised
  | _ => .draining since worker

section

variable (lower : String → String)

/-- What a worker does in the loop. -/
def Runner.act (db : Db) (clock : Time) (r : Runner) (a : RunnerAction) : Option (Db × Runner) :=
  match r.point, a with
  | .draining since worker, .drain a =>
    if a.isAt clock then
      (Worker.act lower db worker a).map fun p =>
        (p.1, { r with point := .afterDrain since p.2 })
    else none
  | .draining _ worker, .decide =>
    match worker.drain with
    | .returned =>
      if clock - r.lastReap > reapEvery then some (db, { r with point := .reaping clock none })
      else some (db, r.wait clock)
    | _ => none
  | .reaping since none, .select =>
    match reapStuck db clock lockTimeout with
    | some u => some (db, { r with point := .reaping since (some u) })
    | none => some (db, r.afterReap since clock)
  | .reaping since (some u), .commit =>
    match db.commit u with
    | some db' => some (db', r.afterReap since clock)
    | none => some (db, { r with point := .raised })
  | .waiting _, .wake => some (db, r.enter clock)
  | _, _ => none

/-! ## The worker among others -/

/-- The worker, the sessions of all others, and the time. -/
structure Fleet where
  shared : Db
  sessions : ℕ → Session
  clock : Time
  runner : Runner

/-- What happens. -/
inductive FleetAction
  /-- Another session takes a step. -/
  | other (p : ℕ × Action)
  /-- Time passes. -/
  | tick (seconds : ℕ)
  /-- The worker takes a step. -/
  | run (a : RunnerAction)

/-- The worker enters the loop, some time after the machine was booted. -/
def Fleet.start (s : State) (workerId : String) (uptime : ℕ) : Fleet :=
  ⟨s.shared, s.locals, uptime,
    ⟨workerId, 0, .draining uptime ⟨workerId, 0, .looping .idle⟩⟩⟩

/-- One step. -/
def Fleet.step (s : Fleet) : FleetAction → Option Fleet
  | .other p => (MlopsPlatform.step lower ⟨s.shared, s.sessions⟩ p).map fun t =>
      { s with shared := t.shared, sessions := t.locals }
  | .tick seconds => some { s with clock := s.clock + seconds }
  | .run a => (s.runner.act lower s.shared s.clock a).map fun p =>
      { s with shared := p.1, runner := p.2 }

end

/-- The time at which the worker has to be further, if a drain and a pass of the reaper take no
longer than given. -/
def Point.deadline (drainTime reapTime : ℕ) : Point → Option Time
  | draining since _ => some (since + drainTime)
  | reaping since _ => some (since + reapTime)
  -- If the listener fails, `_wait_for_notify` sleeps for the whole timeout once more.
  | waiting since => some (since + 2 * pollTimeout)
  | raised => none

/-- Time does not pass beyond the deadline of the worker. -/
def Punctual (drainTime reapTime : ℕ) (s : Fleet) : FleetAction → Prop
  | .tick seconds => ∀ t ∈ s.runner.point.deadline drainTime reapTime, s.clock + seconds ≤ t
  | _ => True

instance (drainTime reapTime : ℕ) (s : Fleet) : DecidablePred (Punctual drainTime reapTime s)
  | .tick seconds => inferInstanceAs (Decidable (∀ t ∈ s.runner.point.deadline drainTime reapTime,
      s.clock + seconds ≤ t))
  | .other _ => inferInstanceAs (Decidable True)
  | .run _ => inferInstanceAs (Decidable True)

/-- The job is in the queue. -/
def Fleet.Queued (id : Uuid) (s : Fleet) : Prop :=
  ∃ d ∈ s.shared.deployments, d.id = id ∧ d.status = .requested

/-- The job is running with a lock that has timed out by the time. -/
def Fleet.Overdue (t : Time) (id : Uuid) (s : Fleet) : Prop :=
  ∃ d ∈ s.shared.deployments, d.id = id ∧ isStuck (t - lockTimeout) d = true

/-! ## What a step can do -/

variable {lower : String → String} {drainTime reapTime : ℕ}

/-- All that a worker can do in the loop. -/
inductive Runner.Moves (lower : String → String) (db : Db) (clock : Time) :
    Runner → Db → Runner → Prop
  /-- A step of `_drain_all`, after which the worker is still in it or has returned. -/
  | drain {r : Runner} {since : Time} {worker worker' : Worker} {a : DrainAction} {db' : Db} :
    r.point = .draining since worker → Worker.act lower db worker a = some (db', worker') →
      Moves lower db clock r db' { r with point := .draining since worker' }
  /-- A commit is rejected. -/
  | raise {r : Runner} {db' : Db} : Moves lower db clock r db' { r with point := .raised }
  /-- It is time to reap. -/
  | reap {r : Runner} {since : Time} {worker : Worker} :
    r.point = .draining since worker → worker.drain = .returned →
      Moves lower db clock r db { r with point := .reaping clock none }
  /-- It is not yet time to reap. -/
  | rest {r : Runner} {since : Time} {worker : Worker} :
    r.point = .draining since worker → worker.drain = .returned →
      clock ≤ r.lastReap + reapEvery → Moves lower db clock r db (r.wait clock)
  /-- The reaper has found stuck jobs. -/
  | select {r : Runner} {since : Time} {u : UnitOfWork} :
    r.point = .reaping since none → reapStuck db clock lockTimeout = some u →
      Moves lower db clock r db { r with point := .reaping since (some u) }
  /-- The reaper has found nothing. -/
  | nothing {r : Runner} {since : Time} :
    r.point = .reaping since none → reapStuck db clock lockTimeout = none →
      Moves lower db clock r db (r.afterReap since clock)
  /-- The reaper commits. -/
  | commit {r : Runner} {since : Time} {u : UnitOfWork} :
    r.point = .reaping since (some u) →
      Moves lower db clock r (db.write u) (r.afterReap since clock)
  /-- The wait is over. -/
  | wake {r : Runner} {since : Time} :
    r.point = .waiting since → Moves lower db clock r db (r.enter clock)

/-- What a worker does in the loop is one of these. -/
theorem Runner.moves_of_act {db db' : Db} {clock : Time} {r r' : Runner} {a : RunnerAction}
    (h : r.act lower db clock a = some (db', r')) : Moves lower db clock r db' r' := by
  unfold Runner.act at h
  split at h
  · rename_i since worker a hpoint
    split_ifs at h
    obtain ⟨⟨db'', worker'⟩, hact, hr⟩ := Option.map_eq_some_iff.mp h
    obtain ⟨rfl, rfl⟩ := Prod.mk.inj hr
    unfold Point.afterDrain
    split
    · exact .raise
    · exact .drain hpoint hact
  · rename_i since worker hpoint
    split at h
    · rename_i hreturned
      split_ifs at h with hdue
      · obtain ⟨rfl, rfl⟩ := Prod.mk.inj (Option.some.inj h)
        exact .reap hpoint hreturned
      · obtain ⟨rfl, rfl⟩ := Prod.mk.inj (Option.some.inj h)
        exact .rest hpoint hreturned (by linarith)
    · exact absurd h (by simp)
  · rename_i since hpoint
    split at h
    · rename_i u hu
      obtain ⟨rfl, rfl⟩ := Prod.mk.inj (Option.some.inj h)
      exact .select hpoint hu
    · rename_i hu
      obtain ⟨rfl, rfl⟩ := Prod.mk.inj (Option.some.inj h)
      exact .nothing hpoint hu
  · rename_i since u hpoint
    split at h
    · rename_i db'' hcommit
      obtain ⟨rfl, rfl⟩ := Prod.mk.inj (Option.some.inj h)
      obtain ⟨-, rfl⟩ := Db.commit_eq_some.mp hcommit
      exact .commit hpoint
    · obtain ⟨rfl, rfl⟩ := Prod.mk.inj (Option.some.inj h)
      exact .raise
  · rename_i since hpoint
    obtain ⟨rfl, rfl⟩ := Prod.mk.inj (Option.some.inj h)
    exact .wake hpoint
  · exact absurd h (by simp)

/-- A session of `_drain_all` goes idle without a commit only when a claim finds nothing. -/
theorem claimOne_of_keep_idle {db : Db} {session : Session} {workerId : String} {a : DrainAction}
    (h : plan lower db session (a.onSession workerId) = some (.keep .idle)) :
    ∃ now, claimOne db workerId now [] = none := by
  cases session with
  | idle =>
    cases a with
    | claim now =>
      simp only [DrainAction.onSession, plan] at h
      cases hclaim : claimOne db workerId now [] with
      | none => exact ⟨now, hclaim⟩
      | some x => simp [hclaim] at h
    | _ => simp [DrainAction.onSession, plan] at h
  | worker claim phase =>
    cases a with
    | load =>
      simp only [DrainAction.onSession, plan] at h
      split at h
      · simp at h
      · exact absurd h (by simp)
    | work =>
      simp only [DrainAction.onSession, plan] at h
      split at h
      · simp at h
      · exact absurd h (by simp)
    | _ => simp [DrainAction.onSession, plan] at h
  | _ => cases a <;> simp [DrainAction.onSession, plan] at h

/-- `_drain_all` returns only when no job is in the queue. -/
theorem Worker.queue_empty_of_returned {db db' : Db} {worker worker' : Worker} {a : DrainAction}
    (h : Worker.act lower db worker a = some (db', worker'))
    (hreturned : worker'.drain = .returned) : ∀ d ∈ db.deployments, d.status ≠ .requested := by
  unfold Worker.act at h
  split at h
  · rename_i session hdrain
    obtain ⟨p, hp, h⟩ := Option.map_eq_some_iff.mp h
    -- Every other plan leaves the worker in the loop, or it is raised out of it.
    have hidle : p = .keep .idle := by
      split at h
      · rfl
      · obtain ⟨-, rfl⟩ := Prod.mk.inj h
        exact absurd hreturned (by simp)
      · split at h
        · obtain ⟨-, rfl⟩ := Prod.mk.inj h
          exact absurd hreturned (by simp)
        · obtain ⟨-, rfl⟩ := Prod.mk.inj h
          exact absurd hreturned (by simp)
    subst hidle
    obtain ⟨now, hnone⟩ := claimOne_of_keep_idle hp
    intro d hd hrequested
    have hmiss := Table.first?_eq_none.mp (Option.map_eq_none_iff.mp hnone) d hd
    simp [hrequested] at hmiss
  · exact absurd h (by simp)

/-- A step leaves the worker and the clock as they are, or time passes, or the worker moves. -/
theorem Fleet.step_cases {s s' : Fleet} {a : FleetAction} (h : s.step lower a = some s') :
    (s'.runner = s.runner ∧ s'.clock = s.clock) ∨
      (∃ seconds, a = .tick seconds ∧ s' = { s with clock := s.clock + seconds }) ∨
      (s'.clock = s.clock ∧ s.runner.Moves lower s.shared s.clock s'.shared s'.runner) := by
  cases a with
  | other p =>
    obtain ⟨t, -, rfl⟩ := Option.map_eq_some_iff.mp h
    exact Or.inl ⟨rfl, rfl⟩
  | tick seconds =>
    obtain rfl := Option.some.inj h
    exact Or.inr (Or.inl ⟨seconds, rfl, rfl⟩)
  | run a =>
    obtain ⟨⟨db', r'⟩, hact, rfl⟩ := Option.map_eq_some_iff.mp h
    exact Or.inr (Or.inr ⟨rfl, Runner.moves_of_act hact⟩)

/-! ## What the worker has done in time -/

/-- When the worker came to where it is. -/
def Point.since : Point → Option Time
  | draining since _ => some since
  | reaping since _ => some since
  | waiting since => some since
  | raised => none

/-- A worker that came to where it is has not been raised out of the loop. -/
theorem Point.ne_raised_of_since {point : Point} {t : Time} (h : point.since = some t) :
    point ≠ .raised := by
  rintro rfl
  exact absurd h (by simp [since])

/-- The worker came to where it is in the past, and its deadline is not over. -/
structure Timely (drainTime reapTime : ℕ) (s : Fleet) : Prop where
  lastReap : s.runner.lastReap ≤ s.clock
  since : ∀ t ∈ s.runner.point.since, t ≤ s.clock
  deadline : ∀ t ∈ s.runner.point.deadline drainTime reapTime, s.clock ≤ t

/-- All these times are at least zero. -/
theorem bounds_nonneg (drainTime reapTime : ℕ) : (0 : Time) ≤ drainTime ∧ (0 : Time) ≤ reapTime ∧
    (0 : Time) ≤ reapEvery ∧ (0 : Time) ≤ pollTimeout :=
  ⟨Int.natCast_nonneg _, Int.natCast_nonneg _, by decide, by decide⟩

/-- A worker that has just come to a point has its time before it. -/
theorem Point.clock_le_deadline {point : Point} {clock : Time} (h : ∀ t ∈ point.since, t = clock) :
    ∀ t ∈ point.deadline drainTime reapTime, clock ≤ t := by
  obtain ⟨hdrain, hreap, -, hpoll⟩ := bounds_nonneg drainTime reapTime
  intro t ht
  cases point with
  | draining since worker =>
    obtain rfl := h since rfl
    obtain rfl := Option.mem_some.mp ht
    linarith
  | reaping since staged =>
    obtain rfl := h since rfl
    obtain rfl := Option.mem_some.mp ht
    linarith
  | waiting since =>
    obtain rfl := h since rfl
    obtain rfl := Option.mem_some.mp ht
    linarith
  | raised => exact absurd ht (by simp [Point.deadline])

/-- A step keeps the worker in time. -/
theorem Timely.step {s s' : Fleet} {a : FleetAction} (h : Timely drainTime reapTime s)
    (hok : Punctual drainTime reapTime s a) (hs : s.step lower a = some s') :
    Timely drainTime reapTime s' := by
  obtain ⟨hlast, hsince, hdeadline⟩ := h
  rcases Fleet.step_cases hs with ⟨hrunner, hclock⟩ | ⟨seconds, rfl, rfl⟩ | ⟨hclock, hmoves⟩
  · exact ⟨by rw [hrunner, hclock]; exact hlast, by rw [hrunner, hclock]; exact hsince,
      by rw [hrunner, hclock]; exact hdeadline⟩
  · have hseconds : (0 : Time) ≤ seconds := Int.natCast_nonneg _
    refine ⟨?_, fun t ht => ?_, hok⟩
    · have hle : s.runner.lastReap ≤ s.clock + seconds := by linarith
      exact hle
    · have hle : t ≤ s.clock + seconds := by linarith [hsince t ht]
      exact hle
  · obtain ⟨shared', sessions', clock', r'⟩ := s'
    dsimp only at hclock hmoves
    subst hclock
    -- Wherever the worker comes to, it comes there now, unless it has stayed.
    have hnow : ∀ {last : Time} {point : Point}, last ≤ s.clock →
        (∀ t ∈ point.since, t = s.clock) →
          Timely drainTime reapTime ⟨shared', sessions', s.clock, ⟨r'.workerId, last, point⟩⟩ :=
      fun hle hpoint => ⟨hle, fun t ht => (hpoint t ht).le, Point.clock_le_deadline hpoint⟩
    cases hmoves with
    | drain hpoint hact =>
      rw [hpoint] at hsince hdeadline
      exact ⟨hlast, hsince, hdeadline⟩
    | raise => exact hnow hlast fun t ht => absurd ht (by simp [Point.since])
    | reap hpoint hreturned => exact hnow hlast fun t ht => (Option.mem_some.mp ht).symm
    | rest hpoint hreturned hle => exact hnow hlast fun t ht => (Option.mem_some.mp ht).symm
    | select hpoint hu =>
      rw [hpoint] at hsince hdeadline
      exact ⟨hlast, hsince, hdeadline⟩
    | nothing hpoint hu =>
      rw [hpoint] at hsince
      exact hnow (hsince _ rfl) fun t ht => (Option.mem_some.mp ht).symm
    | commit hpoint =>
      rw [hpoint] at hsince
      exact hnow (hsince _ rfl) fun t ht => (Option.mem_some.mp ht).symm
    | wake hpoint => exact hnow hlast fun t ht => (Option.mem_some.mp ht).symm

/-- In every state that is reached the worker is in time. -/
theorem timely_of_reach {s₀ : State} {workerId : String} {uptime : ℕ} {s : Fleet}
    (h : Reach (Fleet.step lower) (Punctual drainTime reapTime) (.start s₀ workerId uptime) s) :
    Timely drainTime reapTime s := by
  refine h.invariant ⟨?_, fun t ht => ?_, ?_⟩ fun s a s' _ hs hok hstep => hs.step hok hstep
  · exact Int.natCast_nonneg uptime
  · exact (Option.mem_some.mp ht).ge
  · exact Point.clock_le_deadline fun t ht => (Option.mem_some.mp ht).symm

/-! ## Jobs in the queue -/

/-- Where the worker can be, and since when, if a job was in the queue at a time and has been there
since: it has not drained the queue since then. -/
def Point.DrainsBy (drainTime reapTime : ℕ) (t : Time) : Point → Prop
  | draining since worker => since ≤ t ∨
      (since ≤ t + drainTime + reapTime + 2 * pollTimeout ∧ worker.drain ≠ .returned)
  | reaping since _ => since ≤ t + drainTime
  | waiting since => since ≤ t + drainTime + reapTime
  | raised => True

/-- A worker that is in time has come to where it is by now. -/
theorem Timely.drainsBy {s : Fleet} (h : Timely drainTime reapTime s) :
    s.runner.point.DrainsBy drainTime reapTime s.clock := by
  obtain ⟨hdrain, hreap, -, -⟩ := bounds_nonneg drainTime reapTime
  have hsince := h.since
  cases hpoint : s.runner.point with
  | draining since worker =>
    rw [hpoint] at hsince
    exact Or.inl (hsince since rfl)
  | reaping since staged =>
    rw [hpoint] at hsince
    have hle : since ≤ s.clock + drainTime := by linarith [hsince since rfl]
    exact hle
  | waiting since =>
    rw [hpoint] at hsince
    have hle : since ≤ s.clock + drainTime + reapTime := by linarith [hsince since rfl]
    exact hle
  | raised => trivial

/-- A worker that has not drained the queue since then is not long after it. -/
theorem Point.DrainsBy.clock_le {point : Point} {t clock : Time}
    (h : point.DrainsBy drainTime reapTime t) (hlives : point ≠ .raised)
    (hdeadline : ∀ d ∈ point.deadline drainTime reapTime, clock ≤ d) :
    clock ≤ t + (2 * drainTime + reapTime + 2 * pollTimeout) := by
  obtain ⟨hdrain, hreap, -, hpoll⟩ := bounds_nonneg drainTime reapTime
  cases point with
  | draining since worker =>
    have hclock := hdeadline _ rfl
    rcases h with hle | ⟨hle, -⟩
    · linarith
    · linarith
  | reaping since staged =>
    have hle : since ≤ t + drainTime := h
    linarith [hdeadline _ rfl]
  | waiting since =>
    have hle : since ≤ t + drainTime + reapTime := h
    linarith [hdeadline _ rfl]
  | raised => exact absurd rfl hlives

/-- As long as a job is in the queue, the worker does not get around the loop. -/
theorem drainsBy_step {s s' : Fleet} {a : FleetAction} {t : Time} {id : Uuid}
    (htimely : Timely drainTime reapTime s) (hqueued : s.Queued id)
    (h : s.runner.point.DrainsBy drainTime reapTime t) (hs : s.step lower a = some s') :
    s'.runner.point.DrainsBy drainTime reapTime t := by
  obtain ⟨-, hreap, -, -⟩ := bounds_nonneg drainTime reapTime
  have hdeadline := htimely.deadline
  rcases Fleet.step_cases hs with ⟨hrunner, -⟩ | ⟨seconds, rfl, rfl⟩ | ⟨hclock, hmoves⟩
  · rw [hrunner]
    exact h
  · exact h
  · obtain ⟨shared', sessions', clock', r'⟩ := s'
    dsimp only at hclock hmoves
    subst hclock
    -- A drain that is over was over at the time.
    have hover : ∀ {since : Time} {worker : Worker}, s.runner.point = .draining since worker →
        worker.drain = .returned → s.clock ≤ t + drainTime := by
      intro since worker hpoint hreturned
      rw [hpoint] at h hdeadline
      rcases h with hle | ⟨-, hnot⟩
      · linarith [hdeadline _ rfl]
      · exact absurd hreturned hnot
    have hreaped : ∀ {since : Time} {staged : Option UnitOfWork},
        s.runner.point = .reaping since staged → s.clock ≤ t + drainTime + reapTime := by
      intro since staged hpoint
      rw [hpoint] at h hdeadline
      have hle : since ≤ t + drainTime := h
      linarith [hdeadline _ rfl]
    cases hmoves with
    | drain hpoint hact =>
      rw [hpoint] at h
      refine h.imp_right fun hle => ⟨hle.1, fun hreturned => ?_⟩
      obtain ⟨d, hd, -, hrequested⟩ := hqueued
      exact Worker.queue_empty_of_returned hact hreturned d hd hrequested
    | raise => trivial
    | reap hpoint hreturned => exact hover hpoint hreturned
    | rest hpoint hreturned hle =>
      have hwait : s.clock ≤ t + drainTime + reapTime := by linarith [hover hpoint hreturned]
      exact hwait
    | select hpoint hu =>
      rw [hpoint] at h
      exact h
    | nothing hpoint hu => exact hreaped hpoint
    | commit hpoint => exact hreaped hpoint
    | wake hpoint =>
      rw [hpoint] at h hdeadline
      refine Or.inr ⟨?_, by simp⟩
      have hle : _ ≤ t + drainTime + reapTime := h
      linarith [hdeadline _ rfl]

/-! ## Locks that have timed out -/

/-- The unit of work takes the job away from its worker. -/
def UnitOfWork.Reaps (u : UnitOfWork) (id : Uuid) : Prop :=
  ∃ d, d.running = true ∧ u.dirtyFor id = some ⟨d, reaped d⟩

/-- A pass of the reaper takes an overdue job away from its worker. -/
theorem reaps_of_overdue {s : Fleet} {t : Time} {id : Uuid} (h : s.Overdue t id)
    (ht : t ≤ s.clock) : ∃ u, reapStuck s.shared s.clock lockTimeout = some u ∧ u.Reaps id := by
  obtain ⟨d, hd, rfl, hstuck⟩ := h
  have hstuck' : isStuck (s.clock - lockTimeout) d = true := by
    unfold isStuck at hstuck ⊢
    rw [Bool.and_eq_true] at hstuck ⊢
    refine ⟨hstuck.1, ?_⟩
    cases hlock : d.lockedAt with
    | none => simp [hlock] at hstuck
    | some locked =>
      simp only [hlock, decide_eq_true_eq] at hstuck ⊢
      linarith [hstuck.2]
  obtain ⟨u, hu, hdirty⟩ := reapStuck_of_isStuck hd hstuck'
  exact ⟨u, hu, d, running_of_isStuck hstuck', hdirty⟩

/-- Whether a job is running is a matter of its status. -/
theorem running_congr {d e : Deployment} (h : d.status = e.status) : d.running = e.running := by
  rw [Deployment.running, Deployment.running, h]

/-- A job is not overdue once it has been taken away from its worker. -/
theorem not_overdue_of_reaps {s : Fleet} {db : Db} {u : UnitOfWork} {t : Time} {id : Uuid}
    (hu : u.Reaps id) (hs : s.shared = db.write u) : ¬s.Overdue t id := by
  rintro ⟨d, hd, rfl, hstuck⟩
  obtain ⟨e, hrunning, hdirty⟩ := hu
  rw [hs] at hd
  rcases Db.mem_deployments_write hd with ⟨stored, hstored, rfl⟩ | ⟨deployment, event, rfl, rfl⟩
  · rw [UnitOfWork.onDeployment_id] at hdirty
    -- The status is assigned, whatever the row has by now.
    have hstatus := UnitOfWork.onDeployment_status hdirty
    have hne : (reaped e).status ≠ e.status := by
      intro hsame
      rw [← running_congr hsame, reaped_running] at hrunning
      exact absurd hrunning (by decide)
    rw [flushColumn, if_neg hne] at hstatus
    have hrun := running_of_isStuck hstuck
    rw [running_congr hstatus, reaped_running] at hrun
    exact absurd hrun (by decide)
  · exact absurd hdirty (by simp [UnitOfWork.dirtyFor])

/-- Where the worker can be, and since when, if a job was overdue at a time and has been so since:
it has completed no pass of the reaper whose SELECT came after that. -/
def Point.ReapsBy (drainTime reapTime : ℕ) (t : Time) (id : Uuid) : Point → Prop
  | draining since _ => since ≤ t + reapEvery + reapTime + 2 * pollTimeout
  | reaping since none => since ≤ t + reapEvery + reapTime + 2 * pollTimeout + drainTime
  | reaping since (some u) => since ≤ t ∨
      (since ≤ t + reapEvery + reapTime + 2 * pollTimeout + drainTime ∧ u.Reaps id)
  | waiting since => since ≤ t + reapEvery + reapTime
  | raised => True

/-- What is known of the worker as long as a job that was overdue at a time is so. -/
structure Reaping (drainTime reapTime : ℕ) (t : Time) (id : Uuid) (s : Fleet) : Prop where
  clock : t ≤ s.clock
  lastReap : s.runner.lastReap ≤ t
  point : s.runner.point.ReapsBy drainTime reapTime t id

/-- A worker that is in time has come to where it is by now. -/
theorem Timely.reaping {s : Fleet} (h : Timely drainTime reapTime s) (id : Uuid) :
    Reaping drainTime reapTime s.clock id s := by
  obtain ⟨hdrain, hreap, hevery, hpoll⟩ := bounds_nonneg drainTime reapTime
  have hsince := h.since
  refine ⟨le_refl _, h.lastReap, ?_⟩
  cases hpoint : s.runner.point with
  | draining since worker =>
    rw [hpoint] at hsince
    have hle : since ≤ s.clock + reapEvery + reapTime + 2 * pollTimeout := by
      linarith [hsince since rfl]
    exact hle
  | reaping since staged =>
    rw [hpoint] at hsince
    cases staged with
    | none =>
      have hle : since ≤ s.clock + reapEvery + reapTime + 2 * pollTimeout + drainTime := by
        linarith [hsince since rfl]
      exact hle
    | some u => exact Or.inl (hsince since rfl)
  | waiting since =>
    rw [hpoint] at hsince
    have hle : since ≤ s.clock + reapEvery + reapTime := by linarith [hsince since rfl]
    exact hle
  | raised => trivial

/-- A worker that has completed no pass of the reaper since then is not long after it. -/
theorem Point.ReapsBy.clock_le {point : Point} {t clock : Time} {id : Uuid}
    (h : point.ReapsBy drainTime reapTime t id) (hlives : point ≠ .raised)
    (hdeadline : ∀ d ∈ point.deadline drainTime reapTime, clock ≤ d) :
    clock ≤ t + (reapEvery + 2 * reapTime + drainTime + 2 * pollTimeout) := by
  obtain ⟨hdrain, hreap, hevery, hpoll⟩ := bounds_nonneg drainTime reapTime
  cases point with
  | draining since worker =>
    have hle : since ≤ t + reapEvery + reapTime + 2 * pollTimeout := h
    linarith [hdeadline _ rfl]
  | reaping since staged =>
    have hclock := hdeadline _ rfl
    cases staged with
    | none =>
      have hle : since ≤ t + reapEvery + reapTime + 2 * pollTimeout + drainTime := h
      linarith
    | some u =>
      rcases h with hle | ⟨hle, -⟩
      · linarith
      · linarith
  | waiting since =>
    have hle : since ≤ t + reapEvery + reapTime := h
    linarith [hdeadline _ rfl]
  | raised => exact absurd rfl hlives

/-- As long as a job is overdue, the worker does not complete a pass of the reaper. -/
theorem Reaping.step {s s' : Fleet} {a : FleetAction} {t : Time} {id : Uuid}
    (h : Reaping drainTime reapTime t id s) (htimely : Timely drainTime reapTime s)
    (hoverdue : s.Overdue t id) (hs : s.step lower a = some s') (hoverdue' : s'.Overdue t id) :
    Reaping drainTime reapTime t id s' := by
  obtain ⟨-, hreap, hevery, hpoll⟩ := bounds_nonneg drainTime reapTime
  have hdeadline := htimely.deadline
  obtain ⟨hclock, hlast, hby⟩ := h
  obtain ⟨u, hu, hreaps⟩ := reaps_of_overdue hoverdue hclock
  rcases Fleet.step_cases hs with ⟨hrunner, hsame⟩ | ⟨seconds, rfl, rfl⟩ | ⟨hsame, hmoves⟩
  · exact ⟨by rw [hsame]; exact hclock, by rw [hrunner]; exact hlast, by rw [hrunner]; exact hby⟩
  · have hseconds : (0 : Time) ≤ seconds := Int.natCast_nonneg _
    have hle : t ≤ s.clock + seconds := by linarith
    exact ⟨hle, hlast, hby⟩
  · obtain ⟨shared', sessions', clock', r'⟩ := s'
    dsimp only at hsame hmoves
    subst hsame
    cases hmoves with
    | drain hpoint hact =>
      rw [hpoint] at hby
      exact ⟨hclock, hlast, hby⟩
    | raise => exact ⟨hclock, hlast, trivial⟩
    | reap hpoint hreturned =>
      rw [hpoint] at hby hdeadline
      refine ⟨hclock, hlast, ?_⟩
      have hle : _ ≤ t + reapEvery + reapTime + 2 * pollTimeout := hby
      have hnow : s.clock ≤ t + reapEvery + reapTime + 2 * pollTimeout + drainTime := by
        linarith [hdeadline _ rfl]
      exact hnow
    | rest hpoint hreturned hle =>
      have hnow : s.clock ≤ t + reapEvery + reapTime := by linarith
      exact ⟨hclock, hlast, hnow⟩
    | select hpoint hselect =>
      rw [hpoint] at hby
      obtain rfl := Option.some.inj (hu.symm.trans hselect)
      exact ⟨hclock, hlast, Or.inr ⟨hby, hreaps⟩⟩
    | nothing hpoint hnone =>
      rw [hu] at hnone
      exact absurd hnone (by simp)
    | commit hpoint =>
      rw [hpoint] at hby hdeadline
      rcases hby with hle | ⟨-, hreaps'⟩
      · have hnow : s.clock ≤ t + reapEvery + reapTime := by linarith [hdeadline _ rfl]
        exact ⟨hclock, hle, hnow⟩
      · exact absurd hoverdue' (not_overdue_of_reaps hreaps' rfl)
    | wake hpoint =>
      rw [hpoint] at hby hdeadline
      refine ⟨hclock, hlast, ?_⟩
      have hle : _ ≤ t + reapEvery + reapTime := hby
      have hnow : s.clock ≤ t + reapEvery + reapTime + 2 * pollTimeout := by
        linarith [hdeadline _ rfl]
      exact hnow

/-! ## Runs -/

/-- The worker finds nothing in the queue at time 20, and waits. A job is requested meanwhile. -/
def requestedMeanwhile : Fleet :=
  exec (Fleet.step id) (Punctual 60 2)
    (.start (exec (MlopsPlatform.step id) (fun _ _ => True) .init registration) "worker-2" 20)
    [.run (.drain (.claim 20)), .run .decide, .other (0, request 1 .development false)]

/-- No wake-up arrives: the worker polls after five seconds, and then it is slow. -/
def polledRun : List FleetAction := [.tick 5, .run .wake, .tick 7]

/-- Session 1 claims a job at time 10 and dies. -/
def abandonedJob : State :=
  exec (MlopsPlatform.step id) (fun _ _ => True) .init
    (registration ++ [(0, request 1 .development false), (1, .claim "worker-1" 10 []), (1, .crash)])

/-- Another worker finds nothing in the queue at time 200. It is time to reap, and the SELECT takes
a second. -/
def reapingRun : List FleetAction :=
  [.run (.drain (.claim 200)), .run .decide, .run .select, .tick 1]

end MlopsPlatform
