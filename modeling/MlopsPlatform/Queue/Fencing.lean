import MlopsPlatform.Atomic

/-!
# Reclaimed jobs are not fenced

Nothing in `process_deployment` compares the row with the claim that the worker made, and its
`UPDATE` is by primary key: execution is at least once. A worker that stalls past the visibility
timeout therefore goes on with a job that the reaper has handed to someone else
(`stale_worker_deploys`). What the claim does give is this. As long as the reaper takes a job back
only from workers that have stopped for good (`ReapsAbandoned`), one worker at a time works on it,
and every status that worker writes finds the row with the worker's claim (`fenced_of_reach`).
-/

namespace MlopsPlatform

open Transition

variable {lower : String → String}

/-! ## The claim of a session -/

/-- The claim that a session works on. -/
def Session.claim? : Session → Option Claim
  | worker claim _ => some claim
  | workerCommit claim _ _ => some claim
  | _ => none

/-- The writer is a worker. -/
def Writer.isWorker : Writer → Bool
  | worker => true
  | _ => false

/-- No session works on a job. -/
def State.Abandoned (s : State) (id : Uuid) : Prop :=
  ∀ j claim, (s.locals j).claim? = some claim → claim.deploymentId ≠ id

/-- What a worker has staged is a commit of `process_deployment` on the row of its claim. -/
def UnitOfWork.IsSegment (claim : Claim) (u : UnitOfWork) (next : Option Phase) : Prop :=
  (∃ d, u = startValidation d) ∨
    ∃ db d phase assigned event message, d.id = claim.deploymentId ∧
      WorkerWrite db d phase assigned event message next ∧
      u = .updateDeployments [⟨d, assigned⟩] [recordEvent assigned event message (some "worker")]

/-- What a session has staged for its claim is a commit of `process_deployment`. -/
def Session.StagesSegment : Session → Prop
  | workerCommit claim u next => u.IsSegment claim next
  | _ => True

/-- A segment of `process_deployment` is one for the claim that it was loaded for. -/
theorem UnitOfWork.IsSegment.of_processDeployment {db : Db} {claim : Claim} {phase : Phase}
    {u : UnitOfWork} {next : Option Phase}
    (h : processDeployment db claim.deploymentId phase = some (u, next)) :
    u.IsSegment claim next := by
  obtain ⟨d, assigned, event, message, hd, hwrite, rfl⟩ := processDeployment_eq_some h
  exact Or.inr ⟨db, d, phase, assigned, event, message, (Table.get?_eq_some.mp hd).2, hwrite, rfl⟩

/-- A commit of `process_deployment` updates no row but that of its claim. -/
theorem UnitOfWork.IsSegment.dirtyFor {claim : Claim} {u : UnitOfWork} {next : Option Phase}
    (h : u.IsSegment claim next) {id : Uuid} (hid : claim.deploymentId ≠ id) :
    u.dirtyFor id = none := by
  rcases h with ⟨d, rfl⟩ | ⟨db, d, phase, assigned, event, message, hd, -, rfl⟩
  · rfl
  · rw [← hd] at hid
    simp [UnitOfWork.dirtyFor, hid]

/-- After a commit of `process_deployment` that is not the last, the row still carries the claim
that it carried before. -/
theorem UnitOfWork.IsSegment.carries {claim : Claim} {u : UnitOfWork} {phase : Phase}
    (h : u.IsSegment claim (some phase)) {d : Deployment} (hd : d.carries claim = true) :
    (u.onDeployment d).carries claim = true := by
  rcases h with ⟨e, rfl⟩ | ⟨db, e, phase', assigned, event, message, -, hwrite, rfl⟩
  · exact hd
  · cases hwrite with
    | deploy hv =>
      rcases UnitOfWork.onDeployment_cases
        (.updateDeployments [⟨e, { e with status := .deploying }⟩]
          [recordEvent { e with status := .deploying } "deployment_started" none (some "worker")])
        d with heq | ⟨dirty, events, x, hu, hx, -, heq⟩
      · rw [heq]
        exact hd
      · obtain ⟨rfl, rfl⟩ := UnitOfWork.updateDeployments.inj hu
        obtain rfl := List.mem_singleton.mp hx
        rw [heq]
        simp only [Deployment.carries, Deployment.running, Bool.and_eq_true, Bool.or_eq_true,
          decide_eq_true_eq] at hd ⊢
        obtain ⟨⟨hrun, hworker⟩, hattempts⟩ := hd
        refine ⟨⟨?_, ?_⟩, ?_⟩
        · -- Either DEPLOYING is stored, or the row was loaded as DEPLOYING and keeps its status.
          rcases flushColumn_cases e.status .deploying d.status with ⟨-, hs⟩ | ⟨-, hs⟩
          · show flushColumn e.status .deploying d.status = _ ∨
              flushColumn e.status .deploying d.status = _
            rw [hs]
            exact hrun
          · exact Or.inr hs
        · exact (flushColumn_unchanged _ _).trans hworker
        · exact (flushColumn_unchanged _ _).trans hattempts

/-! ## One worker at a time -/

/-- The steps of runs in which calls of the API are atomic, and the reaper takes a job back only
when no worker is left that works on it. -/
def ReapsAbandoned (lower : String → String) (id : Uuid) (s : State) (p : ℕ × Action) : Prop :=
  AtomicCalls s p ∧
    ∀ u, committed lower s.shared (s.locals p.1) p.2 = some (.reaper, u) →
      (u.dirtyFor id).isSome = true →
        ∀ j claim, (s.locals j).claim? = some claim → claim.deploymentId ≠ id

/-- A job is fenced: at most one session works on it, and the row carries that session's claim. -/
structure State.Fenced (id : Uuid) (s : State) : Prop where
  /-- The row carries the claim of a session that works on it. -/
  carries : ∀ i claim, (s.locals i).claim? = some claim → claim.deploymentId = id →
    ∃ d, s.shared.deployments.get? id = some d ∧ d.carries claim = true
  /-- At most one session works on the row. -/
  unique : ∀ i j claim claim', (s.locals i).claim? = some claim →
    (s.locals j).claim? = some claim' → claim.deploymentId = id → claim'.deploymentId = id → i = j
  /-- What a session has staged for its claim is a commit of `process_deployment`. -/
  segment : ∀ i, (s.locals i).StagesSegment

/-- A job that a call of the API finds running is not changed by it. -/
theorem onDeployment_of_returns {db : Db} {call : Call} {u : UnitOfWork}
    (hc : call.Returns lower db u) {d : Deployment} (hd : d ∈ db.deployments)
    (hrun : d.running = true) : u.onDeployment d = d := by
  have hrow := (AtomicWrite.call hc).rowStep hd
  generalize u.onDeployment d = d' at hrow ⊢
  cases hrow with
  | same => rfl
  | retry actorId hs =>
    rw [Deployment.running, hs] at hrun
    exact absurd hrun (by decide)
  | rollback actorId hs ht =>
    rw [Deployment.running, hs] at hrun
    exact absurd hrun (by decide)

/-- A step of one session keeps a job fenced if the row carries the claims of the other sessions on
the job afterwards, and its own claim if it has one then, in which case it is the only one. -/
theorem State.Fenced.update {id : Uuid} {s : State} (h : s.Fenced id) {i : ℕ} {db : Db}
    {l : Session}
    (hothers : ∀ j claim, j ≠ i → (s.locals j).claim? = some claim → claim.deploymentId = id →
      ∃ d, db.deployments.get? id = some d ∧ d.carries claim = true)
    (hown : ∀ claim, l.claim? = some claim → claim.deploymentId = id →
      (∃ d, db.deployments.get? id = some d ∧ d.carries claim = true) ∧
        ∀ j claim', j ≠ i → (s.locals j).claim? = some claim' → claim'.deploymentId ≠ id)
    (hsegment : l.StagesSegment) : State.Fenced id ⟨db, Function.update s.locals i l⟩ := by
  -- Session `i` is in `l` after the step, and the others are as before.
  have hat := fun j => s.locals_update db i j l
  refine ⟨fun j claim hj hid => ?_, fun j k claim claim' hj hk hid hid' => ?_, fun j => ?_⟩
  · -- `carries`
    rcases hat j with ⟨rfl, hl⟩ | ⟨hne, hl⟩
    · rw [hl] at hj
      exact (hown claim hj hid).1
    · rw [hl] at hj
      exact hothers j claim hne hj hid
  · -- `unique`: a session that shares the job with session `i` is that session itself.
    rcases hat j with ⟨rfl, hl⟩ | ⟨hne, hl⟩
    · rcases hat k with ⟨rfl, -⟩ | ⟨hne', hl'⟩
      · rfl
      · rw [hl] at hj
        rw [hl'] at hk
        exact absurd hid' ((hown claim hj hid).2 k claim' hne' hk)
    · rcases hat k with ⟨rfl, hl'⟩ | ⟨hne', hl'⟩
      · rw [hl] at hj
        rw [hl'] at hk
        exact absurd hid ((hown claim' hk hid').2 j claim hne hj)
      · rw [hl] at hj
        rw [hl'] at hk
        exact h.unique j k claim claim' hj hk hid hid'
  · -- `segment`
    rcases hat j with ⟨-, hl⟩ | ⟨-, hl⟩
    · rw [hl]
      exact hsegment
    · rw [hl]
      exact h.segment j

/-- The row that a claim takes carries the claim afterwards. -/
theorem carries_of_claimOne {db : Db} {workerId : String} {now : Time} {locked : List Uuid}
    {x : DirtyDeployment} (hx : claimOne db workerId now locked = some x) :
    ∃ d, (db.write (.updateDeployments [x] [])).deployments.get? x.loaded.id = some d ∧
      d.carries (.ofClaimed workerId x) = true := by
  obtain ⟨-, -, -, -, hassigned⟩ := claimOne_eq_some.mp hx
  refine ⟨_, get?_write_claimOne hx, ?_⟩
  simp [Deployment.carries, Deployment.running, Claim.ofClaimed, hassigned]

/-- A commit that changes no row of a fenced job keeps it fenced, if its session gives up its claim
or goes on with it. -/
theorem State.Fenced.commit {id : Uuid} {s : State} (h : s.Fenced id) {i : ℕ} {u : UnitOfWork}
    {l : Session}
    (hothers : ∀ j claim, j ≠ i → (s.locals j).claim? = some claim → claim.deploymentId = id →
      ∀ d, s.shared.deployments.get? id = some d → d.carries claim = true → u.onDeployment d = d)
    (hown : ∀ claim, l.claim? = some claim → (s.locals i).claim? = some claim ∧
      ∀ d, d.carries claim = true → (u.onDeployment d).carries claim = true)
    (hsegment : l.StagesSegment) :
    State.Fenced id ⟨s.shared.write u, Function.update s.locals i l⟩ := by
  refine h.update (fun j claim hne hj hid => ?_) (fun claim hl hid => ?_) hsegment
  · obtain ⟨d, hd, hcarries⟩ := h.carries j claim hj hid
    refine ⟨u.onDeployment d, Db.get?_deployments_write u hd, ?_⟩
    rw [hothers j claim hne hj hid d hd hcarries]
    exact hcarries
  · obtain ⟨hi, hkeep⟩ := hown claim hl
    obtain ⟨d, hd, hcarries⟩ := h.carries i claim hi hid
    refine ⟨⟨u.onDeployment d, Db.get?_deployments_write u hd, hkeep d hcarries⟩, ?_⟩
    intro j claim' hne hj hid'
    exact hne (h.unique j i claim' claim hj hi hid' hid)

/-- A commit of `process_deployment` keeps a job fenced. -/
theorem State.Fenced.commit_segment {id : Uuid} {s : State} (h : s.Fenced id) {i : ℕ}
    {claim : Claim} {u : UnitOfWork} {next : Option Phase} (hi : (s.locals i).claim? = some claim)
    (hu : u.IsSegment claim next) :
    State.Fenced id ⟨s.shared.write u, Function.update s.locals i (.afterCommit claim next)⟩ := by
  refine h.commit ?_ ?_ ?_
  · intro j claim' hne hj hid' d hd _
    -- Another session works on this job, so the one that commits does not.
    have hother : claim.deploymentId ≠ d.id := by
      rw [(Table.get?_eq_some.mp hd).2]
      exact fun hid => hne (h.unique j i claim' claim hj hi hid' hid)
    exact UnitOfWork.onDeployment_of_dirtyFor (hu.dirtyFor hother)
  · intro claim' hl
    cases next with
    | none => exact absurd hl (by simp [Session.afterCommit, Session.claim?])
    | some phase =>
      obtain rfl := Option.some.inj hl
      exact ⟨hi, fun d hd => hu.carries hd⟩
  · cases next <;> trivial

/-- A commit that leaves the row as it is while a session works on the job keeps it fenced, if its
own session then has no claim. -/
theorem State.Fenced.commit_spare {id : Uuid} {s : State} (h : s.Fenced id) {i : ℕ} {u : UnitOfWork}
    (hspare : ¬s.Abandoned id → ∀ d, s.shared.deployments.get? id = some d → d.running = true →
      u.onDeployment d = d) :
    State.Fenced id ⟨s.shared.write u, Function.update s.locals i .idle⟩ := by
  refine h.commit ?_ (fun claim hl => absurd hl (by simp [Session.claim?])) trivial
  intro j claim _ hj hid d hd hcarries
  simp only [Deployment.carries, Bool.and_eq_true] at hcarries
  exact hspare (fun habandoned => habandoned j claim hj hid) d hd hcarries.1.1

/-- A step keeps a job fenced if it is a worker's, or if it commits nothing to the row while a
session works on the job. -/
theorem State.Fenced.step {id : Uuid} {s s' : State} {i : ℕ} {a : Action} (hfenced : s.Fenced id)
    (hspare : ∀ w u, committed lower s.shared (s.locals i) a = some (w, u) → w.isWorker = false →
      ¬s.Abandoned id → ∀ d, s.shared.deployments.get? id = some d → d.running = true →
        u.onDeployment d = d)
    (hstep : step lower s (i, a) = some s') : s'.Fenced id := by
  obtain ⟨db, l, hact, rfl⟩ := Config.step_eq_some.mp hstep
  dsimp only at hact
  rcases act_planned hact with ⟨rfl, hplan⟩ | ⟨w, u, hcom, hplan, rfl, -⟩
  · -- Nothing is committed, and the session keeps its claim or has none.
    refine hfenced.update (fun j claim _ hj hid => hfenced.carries j claim hj hid) ?_ ?_
    · intro claim hl hid
      have hi : (s.locals i).claim? = some claim := by
        generalize s.locals i = l₀ at hplan
        cases hplan with
        | load hu => exact hl
        | _ => exact absurd hl (by simp [Session.claim?])
      refine ⟨hfenced.carries i claim hi hid, fun j claim' hne hj hid' => ?_⟩
      exact hne (hfenced.unique j i claim' claim hj hi hid' hid)
    · generalize s.locals i = l₀ at hplan
      cases hplan with
      | load hu => exact .of_processDeployment hu
      | _ => trivial
  · have hseg := hfenced.segment i
    have hspares := hspare w u hcom
    generalize hl₀ : s.locals i = l₀ at hplan hseg
    cases hplan with
    | call hu => exact hfenced.commit_spare (hspares rfl)
    | @claim workerId now locked x hx =>
      refine hfenced.update ?_ ?_ (Or.inl ⟨_, rfl⟩)
      · intro j claim _ hj hid
        obtain ⟨d, hd, hcarries⟩ := hfenced.carries j claim hj hid
        refine ⟨_, Db.get?_deployments_write _ hd, ?_⟩
        have hrun := hcarries
        simp only [Deployment.carries, Bool.and_eq_true] at hrun
        rw [(onDeployment_of_claimOne hx (Table.get?_eq_some.mp hd).1 hrun.1.1).2]
        exact hcarries
      · intro claim hl hid
        obtain rfl := Option.some.inj hl
        refine ⟨hid ▸ carries_of_claimOne hx, fun j claim' _ hj hid' => ?_⟩
        -- The row was REQUESTED, so nobody worked on it.
        obtain ⟨d, hd, hcarries⟩ := hfenced.carries j claim' hj hid'
        simp only [Deployment.carries, Bool.and_eq_true] at hcarries
        obtain ⟨hmem, hd'⟩ := Table.get?_eq_some.mp hd
        exact (onDeployment_of_claimOne hx hmem hcarries.1.1).1 (hid.trans hd'.symm)
    | reap hu => exact hfenced.commit_spare (hspares rfl)
    | work hu =>
      exact hfenced.commit_segment (by rw [hl₀]; rfl) (.of_processDeployment hu)
    | commitCall => exact hfenced.commit_spare (hspares rfl)
    | commitWork => exact hfenced.commit_segment (by rw [hl₀]; rfl) hseg
    | commitReap => exact hfenced.commit_spare (hspares rfl)

/-- Before anything has happened, every job is fenced. -/
theorem init_fenced (id : Uuid) : State.init.Fenced id := by
  refine ⟨fun i claim hi => ?_, fun i j claim claim' hi => ?_, fun i => trivial⟩
  · exact absurd hi (by simp [State.init, Session.claim?])
  · exact absurd hi (by simp [State.init, Session.claim?])

/-- Every state that the runs reach is fenced. -/
theorem fenced_reach {id : Uuid} {s : State}
    (h : Reach (step lower) (ReapsAbandoned lower id) .init s) : s.Fenced id := by
  refine h.invariant (init_fenced id) ?_
  rintro s ⟨i, a⟩ s' hreach hfenced ⟨hatomic, hreap⟩ hstep
  refine hfenced.step (fun w u hcom hw hwork d hd hrun => ?_) hstep
  cases w with
  | worker => exact absurd hw (by decide)
  | api call =>
    -- The call has read what is stored.
    rcases (reach_notApi (fun _ _ h => h.1) hreach).committed hcom with hfalse | hreads
    · exact absurd hfalse (by simp [Writer.isApi])
    · exact onDeployment_of_returns hreads.returns (Table.get?_eq_some.mp hd).1 hrun
  | reaper =>
    apply UnitOfWork.onDeployment_of_dirtyFor
    rw [(Table.get?_eq_some.mp hd).2, Option.eq_none_iff_forall_ne_some]
    exact fun x hx => hwork (hreap u hcom (by rw [hx]; rfl))

/-- The steps of runs in which no call and no reaper updates the row of a job that a session works
on. -/
def SparesWorkers (lower : String → String) (s : State) (p : ℕ × Action) : Prop :=
  ∀ w u, committed lower s.shared (s.locals p.1) p.2 = some (w, u) → w.isWorker = false →
    ∀ id, (u.dirtyFor id).isSome = true → s.Abandoned id

/-- Where calls and reapers spare the jobs that are worked on, all jobs are fenced. -/
theorem fenced_of_sparesWorkers {s : State} (h : Reach (step lower) (SparesWorkers lower) .init s)
    (id : Uuid) : s.Fenced id := by
  refine h.invariant (init_fenced id) ?_
  rintro s ⟨i, a⟩ s' - hfenced hspares hstep
  refine hfenced.step (fun w u hcom hw hwork d hd _ => ?_) hstep
  apply UnitOfWork.onDeployment_of_dirtyFor
  rw [(Table.get?_eq_some.mp hd).2, Option.eq_none_iff_forall_ne_some]
  exact fun x hx => hwork (hspares w u hcom hw id (by rw [hx]; rfl))

/-- What a session commits for its claim is a commit of `process_deployment`. -/
theorem isSegment_of_committed {db : Db} {l : Session} {a : Action} {claim : Claim} {u : UnitOfWork}
    (hseg : l.StagesSegment) (hclaim : l.claim? = some claim)
    (hcom : committed lower db l a = some (.worker, u)) : ∃ next, u.IsSegment claim next := by
  -- It was staged before, or the action has just read for it.
  rcases committed_cases hcom with hheld | hreads
  · cases l with
    | workerCommit claim' v next =>
      obtain rfl := Option.some.inj hclaim
      obtain ⟨-, rfl⟩ := Prod.mk.inj (Option.some.inj hheld)
      exact ⟨next, hseg⟩
    | idle => exact absurd hclaim (by simp [Session.claim?])
    | api call v => exact absurd hclaim (by simp [Session.claim?])
    | worker claim' phase => exact absurd hheld (by simp [Session.held])
    | reaper v => exact absurd hclaim (by simp [Session.claim?])
  · cases hreads with
    | claim hx => exact absurd hclaim (by simp [Session.claim?])
    | load hu =>
      obtain rfl := Option.some.inj hclaim
      exact ⟨_, .of_processDeployment hu⟩
    | work hu =>
      obtain rfl := Option.some.inj hclaim
      exact ⟨_, .of_processDeployment hu⟩

/-- A worker updates the REQUESTED row that it claims, or the row of its claim, which is running. -/
theorem updated_by_worker {s : State} (hfenced : ∀ id, s.Fenced id) {i : ℕ} {a : Action}
    {u : UnitOfWork} (hcom : committed lower s.shared (s.locals i) a = some (.worker, u))
    {d : Deployment} (hd : d ∈ s.shared.deployments) {x : DirtyDeployment}
    (hx : u.dirtyFor d.id = some x) :
    (d.status = .requested ∧ x.assigned.status = .validating) ∨ d.running = true := by
  cases hclaim : (s.locals i).claim? with
  | some claim =>
    obtain ⟨next, hseg⟩ := isSegment_of_committed ((hfenced d.id).segment i) hclaim hcom
    have hid : claim.deploymentId = d.id := by
      by_contra hne
      rw [hseg.dirtyFor hne] at hx
      exact absurd hx (by simp)
    obtain ⟨e, he, hcarries⟩ := (hfenced d.id).carries i claim hclaim hid
    obtain rfl := Option.some.inj (he.symm.trans (Table.get?_key hd))
    simp only [Deployment.carries, Bool.and_eq_true] at hcarries
    exact Or.inr hcarries.1.1
  | none =>
    -- Without a claim, the worker makes one.
    rcases committed_cases hcom with hheld | hreads
    · generalize s.locals i = l at hheld hclaim
      cases l with
      | workerCommit claim v next => exact absurd hclaim (by simp [Session.claim?])
      | _ => exact absurd hheld (by simp [Session.held])
    · generalize s.locals i = l at hreads hclaim
      cases hreads with
      | claim hy =>
        obtain ⟨hmem, hrequested, -, -, hassigned⟩ := claimOne_eq_some.mp hy
        obtain ⟨hmemx, hid⟩ := UnitOfWork.mem_of_dirtyFor hx
        obtain rfl := List.mem_singleton.mp hmemx
        rw [← s.shared.deployments.eq_of_key_eq hmem hd hid, hassigned]
        exact Or.inl ⟨hrequested, rfl⟩
      | load hu => exact absurd hclaim (by simp [Session.claim?])
      | work hu => exact absurd hclaim (by simp [Session.claim?])

/-- In every interleaving of workers, reapers, and atomic calls in which the reaper takes a job back
only from workers that have stopped, a commit of `process_deployment` changes no row but that of its
claim, and finds that row with the claim of the worker that commits: it is VALIDATING or DEPLOYING,
it is this worker's, and it has not been claimed again. -/
theorem fenced_of_reach {id : Uuid} {s : State}
    (h : Reach (step lower) (ReapsAbandoned lower id) .init s) {i : ℕ} {a : Action} {u : UnitOfWork}
    {claim : Claim} (hclaim : (s.locals i).claim? = some claim) (hid : claim.deploymentId = id)
    (hcom : committed lower s.shared (s.locals i) a = some (.worker, u)) :
    (∃ d, s.shared.deployments.get? id = some d ∧
      (d.status = .validating ∨ d.status = .deploying) ∧ d.workerId = some claim.workerId ∧
      d.attempts = claim.attempts) ∧
    ∀ e ∈ s.shared.deployments, e.id ≠ id → u.onDeployment e = e := by
  have hfenced := fenced_reach h
  obtain ⟨d, hd, hcarries⟩ := hfenced.carries i claim hclaim hid
  simp only [Deployment.carries, Deployment.running, Bool.and_eq_true, Bool.or_eq_true,
    decide_eq_true_eq] at hcarries
  refine ⟨⟨d, hd, hcarries.1.1, hcarries.1.2, hcarries.2⟩, fun e _ hne => ?_⟩
  obtain ⟨next, hseg⟩ := isSegment_of_committed (hfenced.segment i) hclaim hcom
  have hother : claim.deploymentId ≠ e.id := by
    rw [hid]
    exact hne.symm
  exact UnitOfWork.onDeployment_of_dirtyFor (hseg.dirtyFor hother)

/-- What a reaper has read and is still to commit. -/
def Session.selected? : Session → Option UnitOfWork
  | reaper u => some u
  | _ => none

/-- The steps of runs of the first `n` sessions in which calls are atomic, no call and no reaper
updates a job that a session works on, and no session goes on with a job that a reaper has read. -/
def TakesTurns (lower : String → String) (n : ℕ) (s : State) (p : ℕ × Action) : Prop :=
  p.1 < n ∧ AtomicCalls s p ∧
    (∀ x ∈ committed lower s.shared (s.locals p.1) p.2, x.1.isWorker = false →
      ∀ j < n, ∀ claim ∈ (s.locals j).claim?, (x.2.dirtyFor claim.deploymentId).isNone = true) ∧
    ∀ claim ∈ (s.locals p.1).claim?, ∀ j < n, ∀ v ∈ (s.locals j).selected?,
      (v.dirtyFor claim.deploymentId).isNone = true

instance (n : ℕ) (s : State) (p : ℕ × Action) : Decidable (TakesTurns lower n s p) :=
  inferInstanceAs (Decidable (_ ∧ _ ∧ _ ∧ _))

/-- The sessions that have not taken a step are idle. -/
theorem idle_of_takesTurns {n : ℕ} {s : State} (h : Reach (step lower) (TakesTurns lower n) .init s)
    {j : ℕ} (hj : n ≤ j) : s.locals j = .idle := by
  refine h.invariant (I := fun s => s.locals j = .idle) rfl ?_
  rintro s ⟨i, a⟩ s' - hidle hok hstep
  obtain ⟨db, l, -, rfl⟩ := Config.step_eq_some.mp hstep
  have hne : j ≠ i := by
    intro hji
    have hlt : i < n := hok.1
    omega
  exact (Function.update_of_ne hne l s.locals).trans hidle

/-- In such a run calls and reapers spare the jobs that are worked on. -/
theorem sparesWorkers_of_takesTurns {n : ℕ} {s : State} {p : ℕ × Action}
    (hs : Reach (step lower) (TakesTurns lower n) .init s) (h : TakesTurns lower n s p) :
    SparesWorkers lower s p := by
  rintro w u hcom hw id hdirty j claim hclaim rfl
  rcases Nat.lt_or_ge j n with hlt | hge
  · have hnone := h.2.2.1 (w, u) hcom hw j hlt claim hclaim
    rw [Option.isNone_iff_eq_none.mp hnone] at hdirty
    exact absurd hdirty Bool.false_ne_true
  · rw [idle_of_takesTurns hs hge] at hclaim
    exact absurd hclaim (by simp [Session.claim?])

/-- Worker "a" crashes with deployment 1 of one model, the reaper takes that job back while worker
"b" rolls out deployment 2 of another model, and worker "c" claims it again. -/
def twoModelsRun : List (ℕ × Action) :=
  registration ++
    [(0, .call (.createModel 9 { name := "valve wear", owner := "ops", framework := .onnx })),
      (0, .call (.createVersion 9 none 2 { version := "1.0", artifactUri := "s3://valve/1" })),
      (0, .call (.transitionVersion 9 none 3 .validated)), (0, request 1 .development false),
      (0, request 3 .development false), (1, .claim "a" 10 []), (1, .crash), (2, .claim "b" 150 []),
      (2, .commit), (2, .work), (3, .reap 200 120), (4, .claim "c" 210 []), (4, .commit)]

set_option maxRecDepth 2000 in
/-- What worker "c" commits next on deployment 1 at the end of `twoModelsRun`. -/
theorem fenced_of_reach_twoModelsRun :
    ∃ s u claim, Reach (step id) (ReapsAbandoned id 1) .init s ∧
      s.shared.deployments.rows.map (fun d => (d.status, d.attempts)) =
        [(.validating, 2), (.deploying, 1)] ∧
      (s.locals 4).claim? = some claim ∧
      committed id s.shared (s.locals 4) .work = some (.worker, u) ∧
      (∃ d, s.shared.deployments.get? 1 = some d ∧
        (d.status = .validating ∨ d.status = .deploying) ∧ d.workerId = some claim.workerId ∧
        d.attempts = claim.attempts) ∧
      ∀ e ∈ s.shared.deployments, e.id ≠ 1 → u.onDeployment e = e := by
  have hreach : Reach (step id) (ReapsAbandoned id 1) .init
      (exec (step id) (TakesTurns id 5) .init twoModelsRun) := by
    refine (exec_reach (step id) (TakesTurns id 5) .init twoModelsRun).mono_of_reach ?_
    intro s p hs _ hok
    exact ⟨hok.2.1, fun u hcom => sparesWorkers_of_takesTurns hs hok .reaper u hcom rfl 1⟩
  exact ⟨_, _, ⟨"c", 1, 2⟩, hreach, by decide, rfl, rfl,
    fenced_of_reach (i := 4) (a := .work) hreach rfl rfl rfl⟩

/-- Worker "a" claims deployment 1 and stalls after its first commit, and the reaper re-queues the
job. -/
def stalledRun : List (ℕ × Action) :=
  registration ++ [(0, request 1 .development false), (1, .claim "a" 10 []), (1, .commit),
    (2, .reap 200 120)]

/-- When the worker resumes, it sets DEPLOYING on a row that no longer carries its claim. -/
theorem stale_worker_deploys :
    ∃ s s' claim, Reach (step id) AtomicCalls .init s ∧ (s.locals 1).claim? = some claim ∧
      step id s (1, .work) = some s' ∧
      s.shared.deployments.rows.map (fun d => (d.status, d.carries claim)) =
        [(.requested, false)] ∧
      s'.shared.deployments.rows.map Deployment.status = [.deploying] := by
  have hreach := exec_reach (step id) AtomicCalls .init stalledRun
  have hwork : ((step id (exec (step id) AtomicCalls .init stalledRun) (1, .work)).map
      fun s' => s'.shared.deployments.rows.map Deployment.status) = some [.deploying] := by decide
  obtain ⟨s', hs', hafter⟩ := Option.map_eq_some_iff.mp hwork
  exact ⟨_, s', ⟨"a", 1, 1⟩, hreach, rfl, hs', by decide, hafter⟩

end MlopsPlatform
