import MlopsPlatform.Queue.Fencing

/-!
# No job is stuck beyond recovery

The reaper recovers a job from a dead worker by its `locked_at`, and a row whose `locked_at` is null
is never older than a cutoff. Status and lock are written independently: a claim sets the lock, and
the reaper, a retry, and the last commit of a worker clear it, all by primary key. A VALIDATING or
DEPLOYING row loses its lock in two ways (`KeepsLock` excludes them). A worker sets DEPLOYING on a
row that was re-queued under it (`stuck_beyond_recovery`), or a worker that had loaded a row as
finished, with a lock still on it, clears the lock of a claim that was made since. Neither happens
as long as calls and reapers take no job from a session that is still at work on it
(`SparesWorkers`). Then every job in flight is found by `claim_one` or by every later pass of the
reaper, in every interleaving of every call, worker, and reaper (`recoverable_of_reach`).
-/

namespace MlopsPlatform

open Transition

variable {lower : String → String}

/-! ## The two writes that lose a lock -/

/-- Every job that a worker holds has a lock. -/
def Db.Locked (db : Db) : Prop :=
  ∀ d ∈ db.deployments, d.running = true → d.lockedAt.isSome = true

/-- What a commit must find stored in the rows that it updates: a lock where it sets DEPLOYING, and
no job that a worker holds where it clears the lock and leaves the status alone. -/
def KeepsLock (db : Db) (_ : Writer) (u : UnitOfWork) : Prop :=
  ∀ d ∈ db.deployments.rows, ∀ x ∈ u.dirtyFor d.id,
    (x.loaded.status ≠ .deploying → x.assigned.status = .deploying → d.lockedAt.isSome = true) ∧
    (x.assigned.status = x.loaded.status → x.loaded.lockedAt.isSome = true →
      x.assigned.lockedAt = none → d.running = false)

instance (db : Db) (w : Writer) (u : UnitOfWork) : Decidable (KeepsLock db w u) :=
  inferInstanceAs (Decidable (∀ d ∈ db.deployments.rows, ∀ x ∈ u.dirtyFor d.id, _ ∧ _))

/-- All that is staged between a read and a later commit: the update of a row assigns a status in
which no worker holds the job, or DEPLOYING and nothing else, and no worker holds a row that is
inserted. -/
structure UnitOfWork.EndsOrDeploys (u : UnitOfWork) : Prop where
  /-- An update of a row. -/
  update : ∀ id, ∀ x ∈ u.dirtyFor id,
    x.assigned.running = false ∨ x.assigned = { x.loaded with status := .deploying }
  /-- An insert of a row. -/
  insert : ∀ deployment event, u = .insertDeployment deployment event →
    ∀ id, (deployment.1 id).running = false

/-- A unit of work that updates one row ends the job or sets DEPLOYING, if what is assigned does. -/
theorem endsOrDeploys_single {loaded assigned : Deployment}
    {events : List (Table.Draft DeploymentEvent.id)}
    (h : assigned.running = false ∨ assigned = { loaded with status := .deploying }) :
    (UnitOfWork.updateDeployments [⟨loaded, assigned⟩] events).EndsOrDeploys := by
  refine ⟨fun id x hx => ?_, fun deployment event hu => by cases hu⟩
  obtain ⟨hmem, -⟩ := UnitOfWork.mem_of_dirtyFor hx
  obtain rfl := List.mem_singleton.mp hmem
  exact h

/-- A unit of work that changes no deployment is one of these. -/
theorem endsOrDeploys_of_none {u : UnitOfWork} (hdirty : ∀ id, u.dirtyFor id = none)
    (hinsert : ∀ deployment event, u ≠ .insertDeployment deployment event) : u.EndsOrDeploys := by
  refine ⟨fun id x hx => ?_, fun deployment event hu => absurd hu (hinsert deployment event)⟩
  rw [hdirty id] at hx
  exact absurd hx (by simp)

/-- Calls end the jobs that they update. -/
theorem endsOrDeploys_of_returns {db : Db} {call : Call} {u : UnitOfWork}
    (hc : call.Returns lower db u) : u.EndsOrDeploys := by
  constructor
  · intro id x hx
    cases hc.callUpdate hx with
    | retry actorId hd hs => exact Or.inl rfl
    | rollback actorId hd hs ht => exact Or.inl rfl
  · rintro deployment event rfl id
    obtain ⟨actorId, correlationId, data, -, hr⟩ := hc.of_insertDeployment
    obtain ⟨v, draft, event', -, -, -, hu, hrow⟩ := requestDeployment_eq_staged hr
    obtain ⟨rfl, -⟩ := UnitOfWork.insertDeployment.inj hu
    rw [(hrow id).1]
    rfl

/-- A segment of `process_deployment` ends its job or sets DEPLOYING. -/
theorem endsOrDeploys_of_processDeployment {db : Db} {deploymentId : Uuid} {phase : Phase}
    {u : UnitOfWork} {next : Option Phase}
    (h : processDeployment db deploymentId phase = some (u, next)) : u.EndsOrDeploys := by
  obtain ⟨d, assigned, event, message, -, hwrite, rfl⟩ := processDeployment_eq_some h
  apply endsOrDeploys_single
  cases hwrite with
  | deploy hv => exact Or.inr rfl
  | reject hv => exact Or.inl rfl
  | timeout hf => exact Or.inl rfl
  | complete hf => exact Or.inl rfl

/-- The reaper ends the jobs that it takes. -/
theorem endsOrDeploys_of_reapStuck {db : Db} {now timeoutSeconds : Time} {u : UnitOfWork}
    (h : reapStuck db now timeoutSeconds = some u) : u.EndsOrDeploys := by
  obtain ⟨stuck, -, rfl⟩ := reapStuck_eq_some h
  refine ⟨fun id x hx => ?_, fun deployment event hu => by cases hu⟩
  obtain ⟨hmem, -⟩ := UnitOfWork.mem_of_dirtyFor hx
  obtain ⟨d, -, rfl⟩ := List.mem_map.mp hmem
  exact Or.inl (reaped_running d)

/-- What the reads of an action stage ends jobs or sets DEPLOYING, unless it is a claim. -/
theorem Reads.endsOrDeploys {db : Db} {s : Session} {a : Action} {w : Writer} {u : UnitOfWork}
    (h : Reads lower db s a w u) :
    u.EndsOrDeploys ∨ ∃ workerId now locked x, a = .claim workerId now locked ∧
      claimOne db workerId now locked = some x ∧ u = .updateDeployments [x] [] := by
  cases h with
  | start hc => exact Or.inl (endsOrDeploys_of_returns (Call.stage_eq_ok hc))
  | call hc => exact Or.inl (endsOrDeploys_of_returns (Call.stage_eq_ok hc))
  | claim hx => exact Or.inr ⟨_, _, _, _, rfl, hx, rfl⟩
  | load hs => exact Or.inl (endsOrDeploys_of_processDeployment hs)
  | work hs => exact Or.inl (endsOrDeploys_of_processDeployment hs)
  | select hr => exact Or.inl (endsOrDeploys_of_reapStuck hr)
  | reap hr => exact Or.inl (endsOrDeploys_of_reapStuck hr)

/-- An update that assigns the status that it has loaded leaves a row running or not. -/
theorem running_flush_same {loaded assigned d : Deployment}
    (h : assigned.status = loaded.status) : (loaded.flush assigned d).running = d.running := by
  have hstatus : (loaded.flush assigned d).status = d.status := if_pos h
  rw [Deployment.running, hstatus, Deployment.running]

/-- An update that assigns another status than it has loaded decides whether a row is running. -/
theorem running_flush_changed {loaded assigned d : Deployment}
    (h : assigned.status ≠ loaded.status) :
    (loaded.flush assigned d).running = assigned.running := by
  have hstatus : (loaded.flush assigned d).status = assigned.status := if_neg h
  rw [Deployment.running, hstatus, Deployment.running]

/-- A row that is locked while it is running stays so exactly when the update does not clear its
lock while it is running. -/
theorem flush_lock_iff {loaded assigned d : Deployment}
    (hd : d.running = true → d.lockedAt.isSome = true) :
    (d.running = true → (loaded.flush assigned d).lockedAt.isSome = true) ↔
      (loaded.lockedAt.isSome = true → assigned.lockedAt = none → d.running = false) := by
  have hlock : (loaded.flush assigned d).lockedAt =
      flushColumn loaded.lockedAt assigned.lockedAt d.lockedAt := rfl
  rw [hlock]
  constructor
  · intro h hsome hnone
    rw [Bool.eq_false_iff]
    intro hd'
    have hkept := h hd'
    rcases flushColumn_cases loaded.lockedAt assigned.lockedAt d.lockedAt with
      ⟨heq, -⟩ | ⟨-, hv⟩
    · rw [← heq, hnone] at hsome
      exact absurd hsome Bool.false_ne_true
    · rw [hv, hnone] at hkept
      exact absurd hkept Bool.false_ne_true
  · intro h hd'
    refine flushColumn_isSome ?_ (hd hd')
    cases ha : assigned.lockedAt with
    | some t => exact Or.inr rfl
    | none =>
      cases hl : loaded.lockedAt with
      | none => exact Or.inl rfl
      | some t =>
        rw [h (by rw [hl]; rfl) ha] at hd'
        exact absurd hd' Bool.false_ne_true

/-- A row keeps its lock through an update exactly when the update finds in it what `KeepsLock` asks
for. -/
theorem flush_locked_iff {x : DirtyDeployment} {d : Deployment}
    (hx : x.assigned.running = false ∨ x.assigned = { x.loaded with status := .deploying })
    (hd : d.running = true → d.lockedAt.isSome = true) :
    ((x.loaded.flush x.assigned d).running = true →
        (x.loaded.flush x.assigned d).lockedAt.isSome = true) ↔
      (x.loaded.status ≠ .deploying → x.assigned.status = .deploying → d.lockedAt.isSome = true) ∧
      (x.assigned.status = x.loaded.status → x.loaded.lockedAt.isSome = true →
        x.assigned.lockedAt = none → d.running = false) := by
  obtain ⟨loaded, assigned⟩ := x
  dsimp only at hx ⊢
  rcases hx with hends | rfl
  · have hdeploying : assigned.status ≠ .deploying := by
      intro hs
      simp [Deployment.running, hs] at hends
    by_cases hsame : assigned.status = loaded.status
    · rw [running_flush_same hsame, flush_lock_iff hd]
      constructor
      · exact fun h => ⟨fun _ hs => absurd hs hdeploying, fun _ => h⟩
      · exact fun h => h.2 hsame
    · -- The update ends the job.
      rw [running_flush_changed hsame, hends]
      refine iff_of_true (fun h => absurd h Bool.false_ne_true) ⟨?_, fun hs => absurd hs hsame⟩
      exact fun _ hs => absurd hs hdeploying
  · -- The lock is left as it is stored.
    have hlock : (loaded.flush { loaded with status := .deploying } d).lockedAt = d.lockedAt :=
      flushColumn_unchanged loaded.lockedAt d.lockedAt
    rw [hlock]
    by_cases hloaded : loaded.status = .deploying
    · rw [running_flush_same hloaded.symm]
      refine iff_of_true hd ⟨fun hs => absurd hloaded hs, fun _ hsome hnone => ?_⟩
      rw [hnone] at hsome
      exact absurd hsome Bool.false_ne_true
    · have hrun : (loaded.flush { loaded with status := .deploying } d).running = true :=
        running_flush_changed (Ne.symm hloaded)
      rw [hrun]
      constructor
      · intro h
        exact ⟨fun _ _ => h rfl, fun hs => absurd hs.symm hloaded⟩
      · rintro ⟨h, -⟩ -
        exact h hloaded rfl

/-- A claim locks the row that it takes, and finds what `KeepsLock` asks for. -/
theorem locked_claim {db : Db} {workerId : String} {now : Time} {locked : List Uuid}
    {x : DirtyDeployment} (hx : claimOne db workerId now locked = some x) (hdb : db.Locked)
    (w : Writer) :
    (db.write (.updateDeployments [x] [])).Locked ∧ KeepsLock db w (.updateDeployments [x] []) := by
  obtain ⟨hmem, hrequested, -, -, hassigned⟩ := claimOne_eq_some.mp hx
  obtain ⟨e, assigned⟩ := x
  dsimp only at hmem hrequested hassigned
  subst hassigned
  constructor
  · intro d' hd' hrun
    rcases Db.mem_deployments_write hd' with ⟨d, hd, rfl⟩ | ⟨deployment, event, hu, -⟩
    · rcases onDeployment_single hmem hd with heq | ⟨rfl, heq⟩
      · rw [heq] at hrun ⊢
        exact hdb d hd hrun
      · rw [heq, Deployment.flush_self rfl]
        rfl
    · exact absurd hu (by simp)
  · intro d _ y hy
    obtain ⟨hmemy, -⟩ := UnitOfWork.mem_of_dirtyFor hy
    obtain rfl := List.mem_singleton.mp hmemy
    -- VALIDATING is neither DEPLOYING nor the REQUESTED that was loaded.
    refine ⟨fun _ hs => absurd hs (by simp), fun hs => absurd hs ?_⟩
    rw [hrequested]
    simp

/-- A commit that ends jobs or sets DEPLOYING keeps every lock exactly when it finds what
`KeepsLock` asks for. -/
theorem locked_write_iff {db : Db} {w : Writer} {u : UnitOfWork} (hu : u.EndsOrDeploys)
    (hdb : db.Locked) : (db.write u).Locked ↔ KeepsLock db w u := by
  constructor
  · -- Every updated row is stored afterwards, with its lock.
    intro h d hd x hx
    have hrow : u.onDeployment d = x.loaded.flush x.assigned d := by
      rw [UnitOfWork.onDeployment, hx]
    refine (flush_locked_iff (hu.update d.id x hx) (hdb d hd)).mp ?_
    rw [← hrow]
    exact h _ (Db.onDeployment_mem_write u hd)
  · intro h d' hd'
    rcases Db.mem_deployments_write hd' with ⟨d, hd, rfl⟩ | ⟨deployment, event, rfl, rfl⟩
    · cases hx : u.dirtyFor d.id with
      | none =>
        rw [UnitOfWork.onDeployment_of_dirtyFor hx]
        exact hdb d hd
      | some x =>
        rw [UnitOfWork.onDeployment, hx]
        exact (flush_locked_iff (hu.update d.id x hx) (hdb d hd)).mpr (h d hd x hx)
    · intro hrun
      rw [hu.insert deployment event rfl] at hrun
      exact absurd hrun Bool.false_ne_true

/-! ## Runs -/

/-- In every run, what sessions have staged ends jobs or sets DEPLOYING. -/
theorem reach_endsOrDeploys {ok : State → ℕ × Action → Prop} {s : State}
    (h : Reach (step lower) ok .init s) : s.Holds fun _ _ u => u.EndsOrDeploys := by
  refine reach_holds (K := fun _ u => u.EndsOrDeploys) h ?_ ?_
  · intro d
    exact endsOrDeploys_of_none (fun _ => rfl) fun deployment event hu => by cases hu
  · intro s i a w u _ hsplit hreads
    rcases hreads.endsOrDeploys with hu | ⟨workerId, now, locked, x, rfl, -⟩
    · exact hu
    · -- A claim commits at once.
      cases hsplit

/-- A commit of a run keeps every lock exactly when it finds what `KeepsLock` asks for. -/
theorem locked_committed_iff {ok : State → ℕ × Action → Prop} {s : State}
    (h : Reach (step lower) ok .init s) (hdb : s.shared.Locked) {i : ℕ} {a : Action} {w : Writer}
    {u : UnitOfWork} (hcom : committed lower s.shared (s.locals i) a = some (w, u)) :
    (s.shared.write u).Locked ↔ KeepsLock s.shared w u := by
  rcases (reach_endsOrDeploys h).committed hcom with hu | hreads
  · exact locked_write_iff hu hdb
  · rcases hreads.endsOrDeploys with hu | ⟨workerId, now, locked, x, -, hx, rfl⟩
    · exact locked_write_iff hu hdb
    · obtain ⟨hlocked, hkeeps⟩ := locked_claim hx hdb w
      exact iff_of_true hlocked hkeeps

/-- In a run whose commits find what `KeepsLock` asks for, every job that a worker holds has a
lock. -/
theorem reach_locked {s : State} (h : Reach (step lower) (CommitMeets lower KeepsLock) .init s) :
    s.shared.Locked := by
  refine h.invariant (I := fun s => s.shared.Locked) ?_ ?_
  · exact fun d hd => absurd hd (List.not_mem_nil (a := d))
  · rintro s ⟨i, a⟩ s' hreach hdb hok hstep
    rcases stepWith_cases hstep with hsame | ⟨w, u, hcom, hwritten, -⟩
    · rw [hsame]
      exact hdb
    · rw [hwritten]
      exact (locked_committed_iff hreach hdb hcom).mpr (hok (w, u) hcom)

/-- A REQUESTED row is the one that `claim_one` takes, once the other requests are taken or
locked. -/
theorem claimOne_of_requested {db : Db} {d : Deployment} (hd : d ∈ db.deployments)
    (hs : d.status = .requested) {locked : List Uuid} (hfree : d.id ∉ locked)
    (hothers : ∀ e ∈ db.deployments, e.status = .requested → e.id ≠ d.id → e.id ∈ locked)
    (workerId : String) (now : Time) :
    ∃ x, claimOne db workerId now locked = some x ∧ x.loaded = d := by
  refine ⟨⟨d, { d with
    status := .validating
    workerId := some workerId
    lockedAt := some now
    attempts := d.attempts + 1 }⟩,
    claimOne_eq_some.mpr ⟨hd, hs, hfree, fun e he hse hl => ?_, rfl⟩, rfl⟩
  by_cases hid : e.id = d.id
  · exact Nat.le_of_eq hid.symm
  · exact absurd (hothers e he hse hid) hl

/-- A job with a lock is taken by every pass of the reaper whose cutoff is past the lock. -/
theorem reapStuck_of_locked {db : Db} {d : Deployment} (hd : d ∈ db.deployments)
    (hrun : d.running = true) {t : Time} (ht : d.lockedAt = some t) {now timeoutSeconds : Time}
    (hlate : t < now - timeoutSeconds) :
    ∃ u, reapStuck db now timeoutSeconds = some u ∧ (u.dirtyFor d.id).isSome = true := by
  have hstuck : isStuck (now - timeoutSeconds) d = true := by
    simp [isStuck, hrun, ht, hlate]
  obtain ⟨u, hu, hdirty⟩ := reapStuck_of_isStuck hd hstuck
  exact ⟨u, hu, by rw [hdirty]; rfl⟩

/-! ## What keeps the locks -/

/-- An update that leaves the status as it was loaded leaves the lock too, and only a worker sets
DEPLOYING. -/
def LeavesLock (w : Writer) (u : UnitOfWork) : Prop :=
  ∀ id, ∀ x ∈ u.dirtyFor id,
    (x.assigned.status = x.loaded.status → x.assigned.lockedAt = x.loaded.lockedAt) ∧
    (w.isWorker = false → x.assigned.status ≠ .deploying)

/-- The calls change the status of what they update. -/
theorem leavesLock_of_returns {db : Db} {call : Call} {u : UnitOfWork}
    (hc : call.Returns lower db u) (w : Writer) : LeavesLock w u := by
  intro id x hx
  cases hc.callUpdate hx with
  | retry actorId hd hs => exact ⟨fun hsame => absurd (hsame.trans hs) (by simp), by simp⟩
  | rollback actorId hd hs ht => exact ⟨fun hsame => absurd (hsame.trans hs) (by simp), by simp⟩

/-- The reaper changes the status of what it updates. -/
theorem leavesLock_of_reapStuck {db : Db} {now timeoutSeconds : Time} {u : UnitOfWork}
    (h : reapStuck db now timeoutSeconds = some u) (w : Writer) : LeavesLock w u := by
  intro id x hx
  obtain ⟨stuck, hstuck, rfl⟩ := reapStuck_eq_some h
  obtain ⟨d, hd, rfl⟩ := List.mem_map.mp (UnitOfWork.mem_of_dirtyFor hx).1
  -- The row was running, and is not any more.
  have hrun := running_of_isStuck ((hstuck d).mp hd).2
  have hends := reaped_running d
  refine ⟨fun hsame => ?_, fun _ hs => ?_⟩
  · rw [Deployment.running, hsame, ← Deployment.running, hrun] at hends
    exact absurd hends (by decide)
  · rw [Deployment.running, hs] at hends
    exact absurd hends (by decide)

/-- A claim changes the status of the row that it takes. -/
theorem leavesLock_of_claimOne {db : Db} {workerId : String} {now : Time} {locked : List Uuid}
    {x : DirtyDeployment} (hx : claimOne db workerId now locked = some x) :
    LeavesLock .worker (.updateDeployments [x] []) := by
  intro id y hy
  obtain ⟨-, hrequested, -, -, hassigned⟩ := claimOne_eq_some.mp hx
  obtain rfl := List.mem_singleton.mp (UnitOfWork.mem_of_dirtyFor hy).1
  refine ⟨fun hsame => ?_, fun hw => absurd hw (by decide)⟩
  rw [hrequested, hassigned] at hsame
  exact absurd hsame (by simp)

/-- A segment of `process_deployment` that loads a running row changes its status, or leaves its
lock. -/
theorem leavesLock_of_processDeployment {db : Db} {deploymentId : Uuid} {phase : Phase}
    {u : UnitOfWork} {next : Option Phase}
    (h : processDeployment db deploymentId phase = some (u, next))
    (hrun : ∀ d, db.deployments.get? deploymentId = some d → d.running = true) :
    LeavesLock .worker u := by
  intro id x hx
  obtain ⟨d, assigned, event, message, hd, hwrite, rfl⟩ := processDeployment_eq_some h
  have hloaded := hrun d hd
  obtain rfl := List.mem_singleton.mp (UnitOfWork.mem_of_dirtyFor hx).1
  refine ⟨fun hsame => ?_, fun hw => absurd hw (by decide)⟩
  rw [Deployment.running, ← hsame] at hloaded
  cases hwrite with
  | deploy hv => rfl
  | reject hv => exact absurd hloaded (by simp)
  | timeout hf => exact absurd hloaded (by simp)
  | complete hf => exact absurd hloaded (by simp)

/-- Where all jobs are fenced, what is staged leaves the locks so. -/
theorem Reads.leavesLock {s : State} (hfenced : ∀ id, s.Fenced id) {i : ℕ} {a : Action} {w : Writer}
    {u : UnitOfWork} (h : Reads lower s.shared (s.locals i) a w u) : LeavesLock w u := by
  -- The row of a session's claim is running.
  have hrun : ∀ claim, (s.locals i).claim? = some claim →
      ∀ d, s.shared.deployments.get? claim.deploymentId = some d → d.running = true := by
    intro claim hclaim d hd
    obtain ⟨e, he, hcarries⟩ := (hfenced claim.deploymentId).carries i claim hclaim rfl
    obtain rfl := Option.some.inj (he.symm.trans hd)
    simp only [Deployment.carries, Bool.and_eq_true] at hcarries
    exact hcarries.1.1
  generalize s.locals i = l at h hrun
  cases h with
  | start hc => exact leavesLock_of_returns (Call.stage_eq_ok hc) _
  | call hc => exact leavesLock_of_returns (Call.stage_eq_ok hc) _
  | claim hx => exact leavesLock_of_claimOne hx
  | load hu => exact leavesLock_of_processDeployment hu (hrun _ rfl)
  | work hu => exact leavesLock_of_processDeployment hu (hrun _ rfl)
  | select hr => exact leavesLock_of_reapStuck hr _
  | reap hr => exact leavesLock_of_reapStuck hr _

/-- Where calls and reapers spare the jobs that are worked on, every commit finds what `KeepsLock`
asks for in a database that has kept its locks. -/
theorem keepsLock_committed {s : State} (h : Reach (step lower) (SparesWorkers lower) .init s)
    (hdb : s.shared.Locked) {i : ℕ} {a : Action} {w : Writer} {u : UnitOfWork}
    (hcom : committed lower s.shared (s.locals i) a = some (w, u)) : KeepsLock s.shared w u := by
  have hleaves : LeavesLock w u := by
    have hfenced : Reach (step lower) (fun s _ => ∀ id, s.Fenced id) .init s :=
      h.mono_of_reach fun s p hs _ _ => fenced_of_sparesWorkers hs
    have hheld : s.Holds fun _ w u => LeavesLock w u := by
      refine reach_holds hfenced (fun d id x hx => ?_) fun s i a w u hf _ hreads =>
        hreads.leavesLock hf
      exact absurd hx (by simp [startValidation, UnitOfWork.dirtyFor])
    rcases hheld.committed hcom with hu | hreads
    · exact hu
    · exact hreads.leavesLock (fenced_of_sparesWorkers h)
  intro d hd x hx
  obtain ⟨hsame, hdeploying⟩ := hleaves d.id x hx
  refine ⟨fun _ hs => ?_, fun hstatus hsome hnone => ?_⟩
  · cases w with
    | api call => exact absurd hs (hdeploying rfl)
    | reaper => exact absurd hs (hdeploying rfl)
    | worker =>
      rcases updated_by_worker (fenced_of_sparesWorkers h) hcom hd hx with ⟨-, hclaimed⟩ | hrun
      · rw [hclaimed] at hs
        exact absurd hs (by simp)
      · exact hdb d hd hrun
  · rw [← hsame hstatus, hnone] at hsome
    exact absurd hsome Bool.false_ne_true

/-- A run in which calls and reapers spare the jobs that are worked on loses no lock. -/
theorem keepsLock_of_reach {s : State} (h : Reach (step lower) (SparesWorkers lower) .init s) :
    Reach (step lower) (CommitMeets lower KeepsLock) .init s :=
  h.mono_of_reach fun _ _ hs hs' _ _ hcom => keepsLock_committed hs (reach_locked hs') hcom

/-- No job of a state is stuck beyond recovery. -/
structure State.Recoverable (s : State) : Prop where
  /-- Every VALIDATING or DEPLOYING row has a lock. -/
  locked : ∀ d ∈ s.shared.deployments, d.status = .validating ∨ d.status = .deploying →
    d.lockedAt.isSome = true
  /-- Every job in flight is taken by `claim_one` once the other requests are taken or locked, or,
  from some time on, by every pass of the reaper. -/
  found : ∀ d ∈ s.shared.deployments, d.inFlight = true →
    (∀ locked, d.id ∉ locked →
      (∀ e ∈ s.shared.deployments, e.status = .requested → e.id ≠ d.id → e.id ∈ locked) →
      ∀ workerId now, ∃ x, claimOne s.shared workerId now locked = some x ∧ x.loaded = d) ∨
    ∃ t, ∀ now timeoutSeconds, t < now - timeoutSeconds →
      ∃ u, reapStuck s.shared now timeoutSeconds = some u ∧ (u.dirtyFor d.id).isSome = true

/-- In every interleaving of calls, workers, and reapers, with their reads and their commits apart,
in which no call and no reaper takes a job from a session that is still at work on it, every
VALIDATING or DEPLOYING row has a lock, and every job in flight is taken by `claim_one` or, from
some time on, by every pass of the reaper. -/
theorem recoverable_of_reach {s : State}
    (h : Reach (step lower) (SparesWorkers lower) .init s) : s.Recoverable := by
  have hdb := reach_locked (keepsLock_of_reach h)
  refine ⟨fun d hd hs => hdb d hd ?_, fun d hd hflight => ?_⟩
  · simpa only [Deployment.running, Bool.or_eq_true, decide_eq_true_eq] using hs
  · cases hrun : d.running with
    | true =>
      obtain ⟨t, ht⟩ := Option.isSome_iff_exists.mp (hdb d hd hrun)
      exact Or.inr ⟨t, fun now timeoutSeconds hlate => reapStuck_of_locked hd hrun ht hlate⟩
    | false =>
      have hs : d.status = .requested := by
        simp only [Deployment.running, Bool.or_eq_false_iff, decide_eq_false_iff_not] at hrun
        simp only [Deployment.inFlight, Bool.or_eq_true, decide_eq_true_eq] at hflight
        exact (hflight.resolve_right hrun.2).resolve_right hrun.1
      exact Or.inl fun locked hfree hothers => claimOne_of_requested hd hs hfree hothers

/-- Worker "a" crashes with the job, the reaper re-queues it, and worker "b" rolls it out. -/
def recoveryRun : List (ℕ × Action) :=
  registration ++ [(0, request 1 .development false), (1, .claim "a" 10 []), (1, .crash),
    (2, .select 200 120), (2, .commit), (3, .claim "b" 210 []), (3, .commit), (3, .work)]

/-- The job of worker "b" at the end of `recoveryRun`. -/
theorem recoverable_of_reach_recoveryRun :
    ∃ s, Reach (step id) (SparesWorkers id) .init s ∧
      s.shared.deployments.rows.map (fun d => (d.status, d.lockedAt)) = [(.deploying, some 210)] ∧
      s.Recoverable := by
  have hs : Reach (step id) (SparesWorkers id) .init
      (exec (step id) (TakesTurns id 4) .init recoveryRun) :=
    (exec_reach (step id) (TakesTurns id 4) .init recoveryRun).mono_of_reach
      fun _ _ hs _ hok => sparesWorkers_of_takesTurns hs hok
  exact ⟨_, hs, by decide, recoverable_of_reach hs⟩

/-- Worker "a" stalls after its first commit, the reaper re-queues the job, and the worker resumes,
sets DEPLOYING, and crashes. -/
def lostLockRun : List (ℕ × Action) :=
  registration ++ [(0, request 1 .development false), (1, .claim "a" 10 []), (1, .commit),
    (2, .reap 200 120), (1, .work), (1, .crash)]

/-- The row is then DEPLOYING without a lock: no claim and no pass of the reaper ever takes it, and
the slot of its model and environment is taken, so that the next request inserts nothing. -/
theorem stuck_beyond_recovery :
    ∃ s, Reach (step id) AtomicCalls .init s ∧
      s.shared.deployments.rows.map (fun d => (d.status, d.lockedAt)) = [(.deploying, none)] ∧
      (∀ workerId now locked, (claimOne s.shared workerId now locked).isNone = true) ∧
      (∀ now timeoutSeconds, (reapStuck s.shared now timeoutSeconds).isNone = true) ∧
      (step id s (0, request 2 .development false)).map
        (fun s' => s'.shared.deployments.rows.length) = some 1 :=
  ⟨_, exec_reach (step id) AtomicCalls .init lostLockRun, by decide, fun _ _ _ => rfl,
    fun _ _ => rfl, by decide⟩

end MlopsPlatform
