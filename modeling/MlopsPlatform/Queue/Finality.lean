import MlopsPlatform.Queue.Fencing

/-!
# Success is final

A worker assigns the status of the row it has loaded without a look at the current one, and the
reaper decides on rows that it read earlier; the `UPDATE` of either is by primary key. A commit that
finds its row finished is late (`InTime` excludes it). Two things make a commit late: the reaper has
taken the job from a worker that is still at work on it, or the job has ended between the reaper's
SELECT and its commit, in which case the reaper re-queues the finished job
(`reaper_requeues_succeeded`). In the runs in which neither happens (`ReapsStopped`) a deployment
that SUCCEEDED stays so until it is rolled back. Everything else respects the finished statuses:
`claim_one` takes REQUESTED rows, `retry_deployment` FAILED ones, and `rollback_deployment` goes
from SUCCEEDED to ROLLED_BACK.
-/

namespace MlopsPlatform

open Transition

variable {lower : String → String}

/-! ## Late commits -/

/-- No worker or reaper is late: none of the rows that it updates has been finished. -/
def InTime (db : Db) (w : Writer) (u : UnitOfWork) : Prop :=
  w.isApi = false → ∀ d ∈ db.deployments.rows, d.finished = true → u.dirtyFor d.id = none

instance (db : Db) (w : Writer) (u : UnitOfWork) : Decidable (InTime db w u) :=
  inferInstanceAs (Decidable (w.isApi = false → ∀ d ∈ db.deployments.rows, d.finished = true →
    u.dirtyFor d.id = none))

/-- The steps of runs in which calls of the API are atomic and no worker or reaper is late. -/
def InTimeSteps (lower : String → String) (s : State) (p : ℕ × Action) : Prop :=
  AtomicCalls s p ∧ CommitMeets lower InTime s p

instance (s : State) (p : ℕ × Action) : Decidable (InTimeSteps lower s p) :=
  inferInstanceAs (Decidable (_ ∧ _))

/-- The steps of runs in which calls of the API are atomic and the reaper takes a job only from
workers that have stopped: no session is at work on it at the reaper's commit, and no worker has
ended it since the reaper's SELECT. -/
structure ReapsStopped (lower : String → String) (s : State) (p : ℕ × Action) : Prop where
  /-- Calls read and commit at once. -/
  atomicCalls : AtomicCalls s p
  /-- A reaper commits no job that a session is at work on. -/
  abandoned : ∀ u, committed lower s.shared (s.locals p.1) p.2 = some (.reaper, u) →
    ∀ id, (u.dirtyFor id).isSome = true → s.Abandoned id
  /-- A session that makes its last commit for a job, makes it while no reaper that has read the job
  is still to commit. -/
  unread : ∀ claim u, (s.locals p.1).claim? = some claim →
    plan lower s.shared (s.locals p.1) p.2 = some (.commit .worker u .idle) →
      ∀ j v, (s.locals j).selected? = some v → v.dirtyFor claim.deploymentId = none

/-- What a worker assigns is not ROLLED_BACK, and what a reaper assigns is not SUCCEEDED either, and
not the status that it read. -/
def Reassigns (w : Writer) (u : UnitOfWork) : Prop :=
  w.isApi = false → ∀ id, ∀ x ∈ u.dirtyFor id, x.assigned.status ≠ .rolledBack ∧
    (w = .reaper → x.assigned.status ≠ .succeeded ∧ x.assigned.status ≠ x.loaded.status)

/-- Workers and reapers assign such statuses. -/
theorem Reassigns.of_staged {db : Db} {w : Writer} {u : UnitOfWork} (h : Staged lower db w u) :
    Reassigns w u := by
  intro hw id x hx
  cases h with
  | call hc => exact absurd hw (by simp [Writer.isApi])
  | @claim workerId now locked y hy =>
    obtain ⟨-, -, -, -, hassigned⟩ := claimOne_eq_some.mp hy
    obtain ⟨hmem, -⟩ := UnitOfWork.mem_of_dirtyFor hx
    obtain rfl := List.mem_singleton.mp hmem
    rw [hassigned]
    exact ⟨by simp, fun hreaper => absurd hreaper (by simp)⟩
  | segment hs =>
    obtain ⟨d, assigned, event, message, -, hwrite, rfl⟩ := processDeployment_eq_some hs
    obtain ⟨hmem, -⟩ := UnitOfWork.mem_of_dirtyFor hx
    obtain rfl := List.mem_singleton.mp hmem
    refine ⟨?_, fun hreaper => absurd hreaper (by simp)⟩
    cases hwrite <;> simp
  | @reap now timeoutSeconds u hr =>
    obtain ⟨stuck, hstuck, rfl⟩ := reapStuck_eq_some hr
    obtain ⟨hmem, -⟩ := UnitOfWork.mem_of_dirtyFor hx
    obtain ⟨d, hd, rfl⟩ := List.mem_map.mp hmem
    -- The row was read as VALIDATING or DEPLOYING, and goes to FAILED or REQUESTED.
    have hrun := running_of_isStuck ((hstuck d).mp hd).2
    obtain ⟨hnotSucceeded, hnotRolledBack⟩ := reaped_status d
    refine ⟨hnotRolledBack, fun _ => ⟨hnotSucceeded, fun hsame => ?_⟩⟩
    have hrun' := reaped_running d
    rw [Deployment.running, hsame, ← Deployment.running, hrun] at hrun'
    exact absurd hrun' (by decide)

/-- A late commit changes the status of the finished row, unless it is that of a worker that leaves
the status as it had loaded it, or that completes a SUCCEEDED deployment once more. -/
theorem Reassigns.late {w : Writer} {u : UnitOfWork} (h : Reassigns w u) (hw : w.isApi = false)
    {d : Deployment} (hfin : d.finished = true) {x : DirtyDeployment}
    (hx : u.dirtyFor d.id = some x) :
    (u.onDeployment d).status ≠ d.status ∨ (w = .worker ∧
      (x.assigned.status = x.loaded.status ∨
        (x.assigned.status = .succeeded ∧ d.status = .succeeded))) := by
  obtain ⟨hback, hreaper⟩ := h hw d.id x hx
  rw [UnitOfWork.onDeployment_status hx]
  rcases flushColumn_cases x.loaded.status x.assigned.status d.status with
    ⟨hsame, -⟩ | ⟨-, hassigned⟩
  · cases w with
    | api call => exact absurd hw (by simp [Writer.isApi])
    | worker => exact Or.inr ⟨rfl, Or.inl hsame⟩
    | reaper => exact absurd hsame (hreaper rfl).2
  · rw [hassigned]
    by_cases heq : x.assigned.status = d.status
    · -- A finished row with the assigned status is SUCCEEDED.
      have hs : d.status = .succeeded := by
        rw [heq] at hback
        simpa [Deployment.finished, hback] using hfin
      cases w with
      | api call => exact absurd hw (by simp [Writer.isApi])
      | worker => exact Or.inr ⟨rfl, Or.inr ⟨heq.trans hs, hs⟩⟩
      | reaper => exact absurd (heq.trans hs) (hreaper rfl).1
    · exact Or.inl heq

/-! ## What a commit makes of a finished row -/

/-- What a commit may make of a finished row: its status stays, or a rollback of this row takes it
from SUCCEEDED to ROLLED_BACK. -/
def FinishedStep (w : Writer) (d d' : Deployment) : Prop :=
  d'.status = d.status ∨
    (d.status = .succeeded ∧ d'.status = .rolledBack ∧
      ∃ actorId, w = .api (.rollbackDeployment actorId d.id))

/-- An atomic call of the API respects a finished row. -/
theorem finishedStep_of_returns {db : Db} {call : Call} {u : UnitOfWork}
    (hc : call.Returns lower db u) {d : Deployment} (hd : d ∈ db.deployments)
    (hfin : d.finished = true) : FinishedStep (.api call) d (u.onDeployment d) := by
  have hrow := (AtomicWrite.call hc).rowStep hd
  generalize u.onDeployment d = d' at hrow
  cases hrow with
  | same => exact Or.inl rfl
  | retry actorId hs =>
    -- Only a FAILED row is retried.
    rw [Deployment.finished, hs] at hfin
    exact absurd hfin (by decide)
  | rollback actorId hs ht => exact Or.inr ⟨hs, rfl, actorId, rfl⟩

/-- In a run of steps in time, every commit respects every finished row. -/
theorem finishedStep_of_reach {s : State} (h : Reach (step lower) (InTimeSteps lower) .init s)
    {i : ℕ} {a : Action} {w : Writer} {u : UnitOfWork} (hok : InTimeSteps lower s (i, a))
    (hcom : committed lower s.shared (s.locals i) a = some (w, u)) {d : Deployment}
    (hd : d ∈ s.shared.deployments) (hfin : d.finished = true) :
    FinishedStep w d (u.onDeployment d) := by
  cases hw : w.isApi with
  | false =>
    have hnone := hok.2 (w, u) hcom hw d hd hfin
    rw [UnitOfWork.onDeployment_of_dirtyFor hnone]
    exact Or.inl rfl
  | true =>
    cases w with
    | api call =>
      have hheld := reach_notApi (fun _ _ h => h.1) h
      rcases hheld.committed hcom with hfalse | hreads
      · exact absurd hfalse (by simp [hw])
      · exact finishedStep_of_returns hreads.returns hd hfin
    | worker => exact absurd hw (by decide)
    | reaper => exact absurd hw (by decide)

/-- Finished deployments stay finished, and rolled back ones rolled back. -/
def Db.KeepsFinished (db db' : Db) : Prop :=
  ∀ id d, db.deployments.get? id = some d → d.finished = true →
    ∃ d', db'.deployments.get? id = some d' ∧ d'.finished = true ∧
      (d.status = .rolledBack → d'.status = .rolledBack)

/-- In a run of steps in time, finished deployments stay finished from one state to a later one. -/
theorem keepsFinished_of_reach {s t : State}
    (hs : Reach (step lower) (InTimeSteps lower) .init s)
    (ht : Reach (step lower) (InTimeSteps lower) s t) : s.shared.KeepsFinished t.shared := by
  refine ht.rel (R := fun s t => s.shared.KeepsFinished t.shared) ?_ ?_ ?_
  · intro s id d hd hfin
    exact ⟨d, hd, hfin, fun h => h⟩
  · intro a b c hab hbc id d hd hfin
    obtain ⟨d', hd', hfin', hback⟩ := hab id d hd hfin
    obtain ⟨d'', hd'', hfin'', hback'⟩ := hbc id d' hd' hfin'
    exact ⟨d'', hd'', hfin'', fun h => hback' (hback h)⟩
  · rintro a ⟨i, action⟩ b hsa hok hstep id d hd hfin
    rcases stepWith_cases hstep with hdb | ⟨w, u, hcom, hdb, -⟩
    · rw [hdb]
      exact ⟨d, hd, hfin, fun h => h⟩
    · rw [hdb]
      refine ⟨u.onDeployment d, Db.get?_deployments_write u hd, ?_⟩
      rcases finishedStep_of_reach (hs.trans hsa) hok hcom (Table.get?_eq_some.mp hd).1 hfin with
        hkeep | ⟨hs', hback, -⟩
      · rw [Deployment.finished, hkeep]
        exact ⟨hfin, fun h => h⟩
      · rw [Deployment.finished, hback]
        exact ⟨by decide, fun _ => rfl⟩

/-- In every run, what sessions hold for workers and reapers assigns such statuses. -/
theorem reach_reassigns {ok : State → ℕ × Action → Prop} {s : State}
    (h : Reach (step lower) ok .init s) : s.Holds fun _ w u => Reassigns w u := by
  refine reach_holds (K := Reassigns) h ?_ ?_
  · intro d _ id x hx
    exact absurd hx (by simp [startValidation, UnitOfWork.dirtyFor])
  · intro s i a w u _ _ hreads
    exact .of_staged hreads.staged

/-! ## What makes a commit late -/

/-- In such a run, every job is fenced. -/
theorem fenced_of_reapsStopped {s : State}
    (h : Reach (step lower) (ReapsStopped lower) .init s) (id : Uuid) : s.Fenced id :=
  fenced_reach (h.mono fun _ _ hok => ⟨hok.atomicCalls, fun u hcom => hok.abandoned u hcom id⟩)

/-- The commit of `process_deployment` that assigns a finished status is the last one for its
claim. -/
theorem UnitOfWork.IsSegment.last {claim : Claim} {u : UnitOfWork} {next : Option Phase}
    (h : u.IsSegment claim next) {id : Uuid} {x : DirtyDeployment} (hx : u.dirtyFor id = some x)
    (hfin : x.assigned.finished = true) : claim.deploymentId = id ∧ next = none := by
  have hid : claim.deploymentId = id := by
    by_contra hne
    rw [h.dirtyFor hne] at hx
    exact absurd hx (by simp)
  refine ⟨hid, ?_⟩
  rcases h with ⟨d, rfl⟩ | ⟨db, d, phase, assigned, event, message, -, hwrite, rfl⟩
  · exact absurd hx (by simp [startValidation, UnitOfWork.dirtyFor])
  · obtain rfl := List.mem_singleton.mp (UnitOfWork.mem_of_dirtyFor hx).1
    cases hwrite with
    | deploy hv => exact absurd hfin (by simp [Deployment.finished])
    | reject hv => rfl
    | timeout hf => rfl
    | complete hf => rfl

/-- A worker that assigns a finished status makes its last commit for the job. -/
theorem last_of_assigns_finished {db : Db} {l : Session} {a : Action} {u : UnitOfWork}
    (hseg : l.StagesSegment) (hcom : committed lower db l a = some (.worker, u)) {id : Uuid}
    {x : DirtyDeployment} (hx : u.dirtyFor id = some x) (hfin : x.assigned.finished = true) :
    ∃ claim, l.claim? = some claim ∧ claim.deploymentId = id ∧
      plan lower db l a = some (.commit .worker u .idle) := by
  unfold committed at hcom
  split at hcom
  · rename_i w v after hp
    obtain ⟨rfl, rfl⟩ := Prod.mk.inj (Option.some.inj hcom)
    rw [hp]
    cases planned hp with
    | claim hy =>
      obtain ⟨-, -, -, -, hassigned⟩ := claimOne_eq_some.mp hy
      obtain rfl := List.mem_singleton.mp (UnitOfWork.mem_of_dirtyFor hx).1
      rw [hassigned] at hfin
      exact absurd hfin (by simp [Deployment.finished])
    | work hu =>
      obtain ⟨hid, rfl⟩ := (UnitOfWork.IsSegment.of_processDeployment hu).last hx hfin
      exact ⟨_, rfl, hid, rfl⟩
    | commitWork =>
      obtain ⟨hid, rfl⟩ := UnitOfWork.IsSegment.last hseg hx hfin
      exact ⟨_, rfl, hid, rfl⟩
  · exact absurd hcom (by simp)

/-- A commit that finishes a row assigns a finished status to it. -/
theorem assigned_of_finished {u : UnitOfWork} {d : Deployment} (hd : d.finished = false)
    (hfin : (u.onDeployment d).finished = true) :
    ∃ x, u.dirtyFor d.id = some x ∧ x.assigned.finished = true := by
  cases hx : u.dirtyFor d.id with
  | none =>
    rw [UnitOfWork.onDeployment_of_dirtyFor hx, hd] at hfin
    exact absurd hfin Bool.false_ne_true
  | some x =>
    refine ⟨x, rfl, ?_⟩
    rw [Deployment.finished, UnitOfWork.onDeployment_status hx] at hfin
    rcases flushColumn_cases x.loaded.status x.assigned.status d.status with ⟨-, hs⟩ | ⟨-, hs⟩
    · rw [hs, ← Deployment.finished, hd] at hfin
      exact absurd hfin Bool.false_ne_true
    · rwa [hs] at hfin

/-- In such a run only the last commit of a worker finishes a row. -/
theorem last_of_finishes {s : State} (h : Reach (step lower) (ReapsStopped lower) .init s) {i : ℕ}
    {a : Action} {w : Writer} {u : UnitOfWork}
    (hcom : committed lower s.shared (s.locals i) a = some (w, u)) {d : Deployment}
    (hd : d ∈ s.shared.deployments) (hopen : d.finished = false)
    (hfin : (u.onDeployment d).finished = true) :
    ∃ claim, (s.locals i).claim? = some claim ∧ claim.deploymentId = d.id ∧
      plan lower s.shared (s.locals i) a = some (.commit .worker u .idle) := by
  obtain ⟨x, hx, hassigned⟩ := assigned_of_finished hopen hfin
  cases w with
  | worker =>
    exact last_of_assigns_finished ((fenced_of_reapsStopped h d.id).segment i) hcom hx hassigned
  | api call =>
    -- A call that finishes a row rolls back one that has SUCCEEDED.
    rcases (reach_notApi (fun _ _ hok => hok.atomicCalls) h).committed hcom with hfalse | hreads
    · exact absurd hfalse (by simp [Writer.isApi])
    · have hrow := (AtomicWrite.call hreads.returns).rowStep hd
      generalize u.onDeployment d = d' at hrow hfin
      cases hrow with
      | same => exact absurd (hopen.symm.trans hfin) Bool.false_ne_true
      | retry actorId hs => exact absurd hfin (by simp [Deployment.finished])
      | rollback actorId hs ht => exact absurd hopen (by simp [Deployment.finished, hs])
  | reaper =>
    have hreassigns : Reassigns .reaper u := by
      rcases (reach_reassigns h).committed hcom with hheld | hreads
      · exact hheld
      · exact .of_staged hreads.staged
    obtain ⟨hback, hreaper⟩ := hreassigns rfl d.id x hx
    exact absurd hassigned (by simp [Deployment.finished, hback, (hreaper rfl).1])

/-- The rows that reads stage for insertion are not finished. -/
theorem unfinished_of_staged {db : Db} {w : Writer} {deployment : Table.Draft Deployment.id}
    {event : Uuid → Table.Draft DeploymentEvent.id}
    (h : Staged lower db w (.insertDeployment deployment event)) (id : Uuid) :
    (deployment.1 id).finished = false := by
  cases h with
  | call hc =>
    obtain ⟨actorId, correlationId, data, -, hr⟩ := (Call.stage_eq_ok hc).of_insertDeployment
    obtain ⟨v, draft, event', -, -, -, hu, hrow⟩ := requestDeployment_eq_staged hr
    obtain ⟨rfl, -⟩ := UnitOfWork.insertDeployment.inj hu
    rw [(hrow id).1]
    rfl
  | segment hs =>
    obtain ⟨d, assigned, event, message, -, -, hu⟩ := processDeployment_eq_some hs
    exact absurd hu (by simp)
  | reap hr =>
    obtain ⟨stuck, -, hu⟩ := reapStuck_eq_some hr
    exact absurd hu (by simp)

/-- In a run, no finished row is inserted. -/
theorem unfinished_of_inserted {ok : State → ℕ × Action → Prop} {s : State}
    (h : Reach (step lower) ok .init s) {i : ℕ} {a : Action} {w : Writer}
    {deployment : Table.Draft Deployment.id} {event : Uuid → Table.Draft DeploymentEvent.id}
    (hcom : committed lower s.shared (s.locals i) a = some (w, .insertDeployment deployment event))
    (id : Uuid) : (deployment.1 id).finished = false := by
  have hheld : s.Holds fun _ _ u => ∀ deployment event, u = .insertDeployment deployment event →
      ∀ id, (deployment.1 id).finished = false := by
    refine reach_holds (K := fun _ u => ∀ deployment event, u = .insertDeployment deployment event →
      ∀ id, (deployment.1 id).finished = false) h (fun d deployment event hu => by cases hu) ?_
    rintro s i a w _ - - hreads deployment event rfl
    exact unfinished_of_staged hreads.staged
  rcases hheld.committed hcom with hu | hreads
  · exact hu deployment event rfl id
  · exact unfinished_of_staged hreads.staged id

/-- What a reaper has read and is still to commit is not finished. -/
def State.ReadsUnfinished (s : State) : Prop :=
  ∀ j v, (s.locals j).selected? = some v →
    ∀ d ∈ s.shared.deployments, d.finished = true → v.dirtyFor d.id = none

/-- A pass of the reaper selects no finished row. -/
theorem dirtyFor_of_reapStuck {db : Db} {now timeoutSeconds : Time} {u : UnitOfWork}
    (h : reapStuck db now timeoutSeconds = some u) {d : Deployment} (hd : d ∈ db.deployments)
    (hfin : d.finished = true) : u.dirtyFor d.id = none := by
  obtain ⟨stuck, hstuck, rfl⟩ := reapStuck_eq_some h
  rw [Option.eq_none_iff_forall_ne_some]
  intro x hx
  obtain ⟨hmem, hid⟩ := UnitOfWork.mem_of_dirtyFor hx
  obtain ⟨e, he, rfl⟩ := List.mem_map.mp hmem
  obtain ⟨hmem, hselected⟩ := (hstuck e).mp he
  obtain rfl : e = d := db.deployments.eq_of_key_eq hmem hd hid
  exact absurd hfin (by simp [Deployment.not_finished_of_running (running_of_isStuck hselected)])

/-- In such a run, what reapers have read stays unfinished until they commit. -/
theorem readsUnfinished_of_reach {s : State}
    (h : Reach (step lower) (ReapsStopped lower) .init s) : s.ReadsUnfinished := by
  refine h.invariant (fun j v hv => absurd hv (by simp [State.init, Session.selected?])) ?_
  rintro s ⟨i, a⟩ s' hreach hunfinished hok hstep j v hv d' hd' hfin
  obtain ⟨db, l, hact, rfl⟩ := Config.step_eq_some.mp hstep
  rcases act_planned hact with ⟨rfl, hplan⟩ | ⟨w, u, hcom, hplan, rfl, -⟩
  · rcases s.locals_update s.shared i j l with ⟨rfl, hl⟩ | ⟨hne, hl⟩
    · -- The session has just selected, or it holds nothing of a reaper.
      rw [hl] at hv
      generalize s.locals j = l₀ at hplan
      cases hplan with
      | select hu =>
        obtain rfl := Option.some.inj hv
        exact dirtyFor_of_reapStuck hu hd' hfin
      | _ => exact absurd hv (by simp [Session.selected?])
    · rw [hl] at hv
      exact hunfinished j v hv d' hd' hfin
  · have hsame : (s.locals j).selected? = some v := by
      rcases s.locals_update (s.shared.write u) i j l with ⟨rfl, hl⟩ | ⟨hne, hl⟩
      · rw [hl] at hv
        generalize s.locals j = l₀ at hplan
        cases hplan with
        | @work claim phase u next hu =>
          cases next <;> exact absurd hv (by simp [Session.afterCommit, Session.selected?])
        | @commitWork claim u next =>
          cases next <;> exact absurd hv (by simp [Session.afterCommit, Session.selected?])
        | _ => exact absurd hv (by simp [Session.selected?])
      · rwa [hl] at hv
    rcases Db.mem_deployments_write hd' with ⟨d, hd, rfl⟩ | ⟨deployment, event, rfl, rfl⟩
    · rw [UnitOfWork.onDeployment_id]
      cases hopen : d.finished with
      | true => exact hunfinished j v hsame d hd hopen
      | false =>
        obtain ⟨claim, hclaim, hid, hplan'⟩ := last_of_finishes hreach hcom hd hopen hfin
        rw [← hid]
        exact hok.unread claim u hclaim hplan' j v hsame
    · rw [unfinished_of_inserted hreach hcom] at hfin
      exact absurd hfin Bool.false_ne_true

/-- In such a run, no commit is late. -/
theorem inTime_of_committed {s : State} (h : Reach (step lower) (ReapsStopped lower) .init s)
    {i : ℕ} {a : Action} {w : Writer} {u : UnitOfWork}
    (hcom : committed lower s.shared (s.locals i) a = some (w, u)) : InTime s.shared w u := by
  intro hw d hd hfin
  cases w with
  | api call => exact absurd hw (by simp [Writer.isApi])
  | worker =>
    rw [Option.eq_none_iff_forall_ne_some]
    intro x hx
    rcases updated_by_worker (fenced_of_reapsStopped h) hcom hd hx with ⟨hs, -⟩ | hrun
    · exact absurd hfin (by simp [Deployment.finished, hs])
    · exact absurd hfin (by simp [Deployment.not_finished_of_running hrun])
  | reaper =>
    rcases committed_cases hcom with hheld | hreads
    · refine readsUnfinished_of_reach h i u ?_ d hd hfin
      generalize s.locals i = l at hheld
      cases l with
      | reaper v =>
        obtain ⟨-, rfl⟩ := Prod.mk.inj (Option.some.inj hheld)
        rfl
      | api call v => exact absurd (Prod.mk.inj (Option.some.inj hheld)).1 (by simp)
      | workerCommit claim v next =>
        exact absurd (Prod.mk.inj (Option.some.inj hheld)).1 (by simp)
      | idle => exact absurd hheld (by simp [Session.held])
      | worker claim phase => exact absurd hheld (by simp [Session.held])
    · generalize s.locals i = l at hreads
      cases hreads with
      | select hu => exact dirtyFor_of_reapStuck hu hd hfin
      | reap hu => exact dirtyFor_of_reapStuck hu hd hfin

/-- A run in which the reaper takes jobs from stopped workers only is a run of steps in time. -/
theorem inTimeSteps_of_reach {s t : State} (hs : Reach (step lower) (ReapsStopped lower) .init s)
    (ht : Reach (step lower) (ReapsStopped lower) s t) :
    Reach (step lower) (InTimeSteps lower) s t :=
  ht.mono_of_reach fun _ _ ht' _ hok =>
    ⟨hok.atomicCalls, fun _ hcom => inTime_of_committed (hs.trans ht') hcom⟩

/-- Success is final from a state to a later one. -/
structure SuccessFinal (lower : String → String) (s t : State) : Prop where
  /-- No step from the later state changes the status of a finished row, but for a rollback of the
  row itself. -/
  next : ∀ i a w u, ReapsStopped lower t (i, a) →
    committed lower t.shared (t.locals i) a = some (w, u) →
    ∀ d ∈ t.shared.deployments, d.finished = true → (u.onDeployment d).status ≠ d.status →
      d.status = .succeeded ∧ (u.onDeployment d).status = .rolledBack ∧
        ∃ actorId, w = .api (.rollbackDeployment actorId d.id)
  /-- A deployment that SUCCEEDED has stayed SUCCEEDED or become ROLLED_BACK and stayed so, and
  `claim_one` does not take it. -/
  kept : ∀ id d, s.shared.deployments.get? id = some d → d.finished = true →
    (∃ d', t.shared.deployments.get? id = some d' ∧ d'.finished = true ∧
      (d.status = .rolledBack → d'.status = .rolledBack)) ∧
    ∀ workerId now locked x, claimOne t.shared workerId now locked = some x → x.loaded.id ≠ id
  /-- A commit of a worker or a reaper that is late does change the status of the finished row,
  unless it is that of a worker that leaves the status as it had loaded it, or that completes a
  SUCCEEDED deployment once more. -/
  late : ∀ i a w u, committed lower t.shared (t.locals i) a = some (w, u) → w.isApi = false →
    ∀ d ∈ t.shared.deployments, d.finished = true → ∀ x, u.dirtyFor d.id = some x →
      (u.onDeployment d).status ≠ d.status ∨ (w = .worker ∧
        (x.assigned.status = x.loaded.status ∨
          (x.assigned.status = .succeeded ∧ d.status = .succeeded)))

/-- Success is final as far as the reaper takes jobs from stopped workers only. After any run of
such steps, no such step changes the status of a finished row, but for a rollback of the row itself.
Over such runs, a deployment that SUCCEEDED stays SUCCEEDED or becomes ROLLED_BACK and then stays
so, and `claim_one` never takes it again. A commit that is late all the same does change the status
of the finished row, unless it is that of a worker that leaves the status as it had loaded it, or
that completes a SUCCEEDED deployment once more. -/
theorem finality_of_reach {s t : State} (hs : Reach (step lower) (ReapsStopped lower) .init s)
    (ht : Reach (step lower) (ReapsStopped lower) s t) : SuccessFinal lower s t := by
  have hs' := inTimeSteps_of_reach .refl hs
  have ht' := inTimeSteps_of_reach hs ht
  refine ⟨?_, ?_, ?_⟩
  · intro i a w u hok hcom d hd hfin hne
    have hok' : InTimeSteps lower t (i, a) :=
      ⟨hok.atomicCalls, fun _ hcom => inTime_of_committed (hs.trans ht) hcom⟩
    rcases finishedStep_of_reach (hs'.trans ht') hok' hcom hd hfin with hkeep | hback
    · exact absurd hkeep hne
    · exact hback
  · intro id d hd hfin
    obtain ⟨d', hd', hfin', hback⟩ := keepsFinished_of_reach hs' ht' id d hd hfin
    refine ⟨⟨d', hd', hfin', hback⟩, ?_⟩
    intro workerId now locked x hx hid
    -- A claim takes a REQUESTED row, and the row with this id is finished.
    obtain ⟨hmem, hrequested, -⟩ := claimOne_eq_some.mp hx
    have hsame : x.loaded = d' := by
      have hget := Table.get?_key hmem
      rw [hid, hd'] at hget
      exact (Option.some.inj hget).symm
    rw [← hsame, Deployment.finished, hrequested] at hfin'
    exact absurd hfin' (by decide)
  · intro i a w u hcom hw d _ hfin x hx
    have hreassigns : Reassigns w u := by
      rcases (reach_reassigns (hs.trans ht)).committed hcom with hheld | hreads
      · exact hheld
      · exact .of_staged hreads.staged
    exact hreassigns.late hw hfin hx

/-- Runs in which sessions take turns on each job are such runs. -/
theorem reapsStopped_of_takesTurns {n : ℕ} {s : State} {p : ℕ × Action}
    (hs : Reach (step lower) (TakesTurns lower n) .init s) (h : TakesTurns lower n s p) :
    ReapsStopped lower s p := by
  refine ⟨h.2.1, fun u hcom => sparesWorkers_of_takesTurns hs h .reaper u hcom rfl, ?_⟩
  intro claim u hclaim _ j v hv
  rcases Nat.lt_or_ge j n with hlt | hge
  · exact Option.isNone_iff_eq_none.mp (h.2.2.2 claim hclaim j hlt v hv)
  · rw [idle_of_takesTurns hs hge] at hv
    exact absurd hv (by simp [Session.selected?])

/-- The second deployment is rolled back, and a worker crashes with a third one, which the reaper
re-queues. -/
def rollbackRun : List (ℕ × Action) :=
  [(0, .call (.rollbackDeployment 9 2)), (0, request 2 .development false), (1, .claim "a" 30 []),
    (1, .commit), (1, .crash), (2, .select 200 120), (2, .commit)]

/-- The two finished deployments over `rollbackRun`. -/
theorem finality_of_reach_rollbackRun :
    ∃ s t, Reach (step id) (ReapsStopped id) .init s ∧ Reach (step id) (ReapsStopped id) s t ∧
      s.shared.deployments.rows.map Deployment.status = [.succeeded, .succeeded] ∧
      t.shared.deployments.rows.map Deployment.status = [.succeeded, .rolledBack, .requested] ∧
      SuccessFinal id s t := by
  have hrun := exec_reach (step id) (TakesTurns id 3) .init twoDeployments
  have hs : Reach (step id) (ReapsStopped id) .init
      (exec (step id) (TakesTurns id 3) .init twoDeployments) :=
    hrun.mono_of_reach fun _ _ hs _ hok => reapsStopped_of_takesTurns hs hok
  have ht : Reach (step id) (ReapsStopped id)
      (exec (step id) (TakesTurns id 3) .init twoDeployments)
      (exec (step id) (TakesTurns id 3)
        (exec (step id) (TakesTurns id 3) .init twoDeployments) rollbackRun) :=
    (exec_reach (step id) (TakesTurns id 3) _ rollbackRun).mono_of_reach
      fun _ _ ht _ hok => reapsStopped_of_takesTurns (hrun.trans ht) hok
  exact ⟨_, _, hs, ht, by decide, by decide, finality_of_reach hs ht⟩

/-- The reaper of session 2 reads deployment 1 as stuck in DEPLOYING, and then its worker
finishes. -/
def lateReaperRun : List (ℕ × Action) :=
  registration ++ [(0, request 1 .development false), (1, .claim "a" 10 []), (1, .commit),
    (1, .work), (2, .select 200 120), (1, .work)]

/-- The reaper then commits, and the deployment that SUCCEEDED is REQUESTED again and can be
claimed. -/
theorem reaper_requeues_succeeded :
    ∃ s s', Reach (step id) AtomicCalls .init s ∧ step id s (2, .commit) = some s' ∧
      s.shared.deployments.rows.map Deployment.status = [.succeeded] ∧
      s'.shared.deployments.rows.map Deployment.status = [.requested] ∧
      (claimOne s'.shared "b" 300 []).map (fun x => x.loaded.id) = some 1 := by
  have hreach := exec_reach (step id) AtomicCalls .init lateReaperRun
  have hcommit : ((step id (exec (step id) AtomicCalls .init lateReaperRun) (2, .commit)).map
      fun s' => (s'.shared.deployments.rows.map Deployment.status,
        (claimOne s'.shared "b" 300 []).map fun x => x.loaded.id)) =
      some ([.requested], some 1) := by decide
  obtain ⟨s', hs', hafter⟩ := Option.map_eq_some_iff.mp hcommit
  obtain ⟨hstatus, hclaim⟩ := Prod.mk.inj hafter
  exact ⟨_, s', hreach, hs', by decide, hstatus, hclaim⟩

end MlopsPlatform
