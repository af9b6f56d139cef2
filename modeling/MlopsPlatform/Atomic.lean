import MlopsPlatform.System

/-!
# Runs of atomic steps

The runs in which every operation reads and commits at once, in any order, and in which a worker
goes on with a job only while the row still carries its claim (`AtomicExcept`, where some calls may
be split after all). Every commit of such a run is an `AtomicWrite`, staged by reads of the very
state that it lands on. So an update stores the row that was assigned, and `RowStep` lists all that
a commit can do to a stored deployment: the rows of a run move through these nine changes and no
others. `reach_atomic` is the invariant rule over them.
-/

namespace MlopsPlatform

open Transition

/-! ## Atomic steps -/

/-- The row carries a claim: the job is running, it is that worker's, and it has not been claimed
again. -/
def Deployment.carries (d : Deployment) (c : Claim) : Bool :=
  d.running && d.workerId = some c.workerId && d.attempts = c.attempts

/-- A worker still holds the claim that it made. -/
def Session.holdsClaim (db : Db) : Session → Bool
  | worker claim _ => (db.deployments.get? claim.deploymentId).any fun d => d.carries claim
  | workerCommit claim _ _ => (db.deployments.get? claim.deploymentId).any fun d => d.carries claim
  | _ => true

/-- The actions of a session that leave nothing for a later commit, but for the calls that may be
split, and that are not those of a worker that has lost its claim. -/
def Session.atomicAction (split : Call → Bool) (db : Db) (s : Session) : Action → Bool
  | .start call => split call
  | .load => false
  | .select _ _ => false
  | .work => s.holdsClaim db
  | .commit => s.holdsClaim db
  | _ => true

/-- The steps of the runs in which every operation but the calls that may be split is atomic. -/
def AtomicExcept (split : Call → Bool) (s : State) (p : ℕ × Action) : Prop :=
  (s.locals p.1).atomicAction split s.shared p.2 = true

instance (split : Call → Bool) (s : State) (p : ℕ × Action) : Decidable (AtomicExcept split s p) :=
  inferInstanceAs (Decidable (_ = true))

/-- The steps of the runs in which every operation is atomic. -/
abbrev AtomicSteps : State → ℕ × Action → Prop := AtomicExcept fun _ => false

section

variable (lower : String → String)

/-- What an atomic step commits, on the database that it has read. -/
inductive AtomicWrite (db : Db) : Writer → UnitOfWork → Prop
  /-- A call of the API. -/
  | call {call : Call} {u : UnitOfWork} : call.Returns lower db u → AtomicWrite db (.api call) u
  /-- `claim_one`. -/
  | claim {workerId : String} {now : Time} {locked : List Uuid} {x : DirtyDeployment} :
    claimOne db workerId now locked = some x → AtomicWrite db .worker (.updateDeployments [x] [])
  /-- The first commit of `process_deployment`, which writes no row. -/
  | validation {d : Deployment} : AtomicWrite db .worker (startValidation d)
  /-- Another commit of `process_deployment`, by the worker that holds the claim. -/
  | segment {d assigned : Deployment} {phase : Phase} {event : String} {message : Option String}
      {next : Option Phase} :
    d ∈ db.deployments → d.running = true → WorkerWrite db d phase assigned event message next →
      AtomicWrite db .worker
        (.updateDeployments [⟨d, assigned⟩] [recordEvent assigned event message (some "worker")])
  /-- `reap_stuck`. -/
  | reap {now timeoutSeconds : Time} {u : UnitOfWork} :
    reapStuck db now timeoutSeconds = some u → AtomicWrite db .reaper u

end

variable {lower : String → String} {checked : Writer → Bool}

/-- The row that an atomic step of a worker loads carries the worker's claim. -/
theorem Session.carries_of_atomicAction {split : Call → Bool} {db : Db} {claim : Claim}
    {phase : Phase} {d : Deployment} (h : (worker claim phase).atomicAction split db .work = true)
    (hd : db.deployments.get? claim.deploymentId = some d) : d.carries claim = true := by
  have hany : (db.deployments.get? claim.deploymentId).any (fun d => d.carries claim) = true := h
  rw [hd] at hany
  exact hany

/-- What the reads of an atomic step have staged when it commits is an atomic write. -/
theorem Reads.atomicWrite {split : Call → Bool} {db : Db} {s : Session} {a : Action} {w : Writer}
    {u : UnitOfWork} (h : Reads lower db s a w u) (hok : s.atomicAction split db a = true)
    (hcom : committed lower db s a = some (w, u)) : AtomicWrite lower db w u := by
  cases h with
  | @start call u hc =>
    rw [committed_of_splits (.start call)] at hcom
    exact absurd hcom (by simp)
  | load hs =>
    rw [committed_of_splits .load] at hcom
    exact absurd hcom (by simp)
  | @select now timeoutSeconds u hr =>
    rw [committed_of_splits (.select now timeoutSeconds)] at hcom
    exact absurd hcom (by simp)
  | call hc => exact .call (Call.stage_eq_ok hc)
  | claim hx => exact .claim hx
  | @work claim phase u next hs =>
    obtain ⟨d, assigned, event, message, hd, hwrite, rfl⟩ := processDeployment_eq_some hs
    have hcarries := Session.carries_of_atomicAction hok hd
    simp only [Deployment.carries, Bool.and_eq_true] at hcarries
    exact .segment (Table.get?_eq_some.mp hd).1 hcarries.1.1 hwrite
  | reap hr => exact .reap hr

/-- The invariant rule for runs of atomic steps. Calls that may be split hold what they have staged
while other steps change the database within `R`, and `J` is what they may rely on. -/
theorem reach_atomicExcept {split : Call → Bool} {I : Db → Prop} {J : Db → UnitOfWork → Prop}
    {R : Db → Db → Prop} {s₀ s : State}
    (h : Reach (stepWith lower checked) (AtomicExcept split) s₀ s)
    (hI : I s₀.shared) (hidle : ∀ i, s₀.locals i = .idle)
    (hheld : ∀ db call u, I db → split call = true → call.Returns lower db u → J db u)
    (hwrite : ∀ db w u, I db →
      (∃ call, w = .api call ∧ split call = true ∧ J db u) ∨ AtomicWrite lower db w u →
      (checked w = true → (db.write u).Constraints) → I (db.write u) ∧ R db (db.write u))
    (hrefl : ∀ db, R db db) (hstable : ∀ db db' u, R db db' → J db u → J db' u) :
    I s.shared ∧ s.Holds fun db w u => (w = .worker ∧ ∃ d, u = startValidation d) ∨
      ∃ call, w = .api call ∧ split call = true ∧ J db u := by
  -- Besides the split calls, a worker holds its first commit from the claim on.
  refine reach_invariant (R := R) h hI ?_ ?_ ?_ ?_ hrefl ?_
  · intro i w u hu
    rw [hidle i] at hu
    exact absurd hu (by simp [Session.held])
  · intro db d
    exact Or.inl ⟨rfl, d, rfl⟩
  · intro s i a w u hok hdb hsplit hreads
    have hact : (s.locals i).atomicAction split s.shared a = true := hok
    generalize s.locals i = l at hreads hact
    cases hreads with
    | start hc => exact Or.inr ⟨_, rfl, hact, hheld _ _ _ hdb hact (Call.stage_eq_ok hc)⟩
    | load hs => exact absurd hact Bool.false_ne_true
    | select hr => exact absurd hact Bool.false_ne_true
    | call hc => cases hsplit
    | claim hx => cases hsplit
    | work hs => cases hsplit
    | reap hr => cases hsplit
  · intro s i a w u hok hdb hcom hu hcons
    refine hwrite s.shared w u hdb ?_ hcons
    rcases hu with (⟨rfl, d, rfl⟩ | hJ) | hreads
    · exact Or.inr .validation
    · exact Or.inl hJ
    · exact Or.inr (hreads.atomicWrite hok hcom)
  · intro db db' w u hR hu
    refine hu.imp_right ?_
    rintro ⟨call, hw, hsplit, hJ⟩
    exact ⟨call, hw, hsplit, hstable db db' u hR hJ⟩

/-- In a run in which some calls may be split, a commit is that of a split call or an atomic
write. -/
theorem committed_atomicExcept {split : Call → Bool} {J : Db → UnitOfWork → Prop} {s : State}
    (h : s.Holds fun db w u => (w = .worker ∧ ∃ d, u = startValidation d) ∨
      ∃ call, w = .api call ∧ split call = true ∧ J db u) {i : ℕ} {a : Action} {w : Writer}
    {u : UnitOfWork} (hok : AtomicExcept split s (i, a))
    (hcom : committed lower s.shared (s.locals i) a = some (w, u)) :
    (∃ call, w = .api call ∧ split call = true ∧ J s.shared u) ∨
      AtomicWrite lower s.shared w u := by
  rcases State.Holds.committed h hcom with (⟨rfl, d, rfl⟩ | hsplit) | hreads
  · exact Or.inr .validation
  · exact Or.inl hsplit
  · exact Or.inr (hreads.atomicWrite hok hcom)

/-- Sessions hold nothing but the first commit of `process_deployment`. -/
def State.HoldsValidations (s : State) : Prop :=
  s.Holds fun _ w u => w = .worker ∧ ∃ d, u = startValidation d

/-- The invariant rule for runs in which every operation is atomic. -/
theorem reach_atomic {I : Db → Prop} {s₀ s : State}
    (h : Reach (stepWith lower checked) AtomicSteps s₀ s) (hI : I s₀.shared)
    (hidle : ∀ i, s₀.locals i = .idle)
    (hwrite : ∀ db w u, I db → AtomicWrite lower db w u →
      (checked w = true → (db.write u).Constraints) → I (db.write u)) :
    I s.shared ∧ s.HoldsValidations := by
  have hrule := reach_atomicExcept (J := fun _ _ => False) (R := fun _ _ => True) h hI hidle
    ?_ ?_ ?_ ?_
  · refine ⟨hrule.1, fun i w u hu => ?_⟩
    rcases hrule.2 i w u hu with hd | ⟨call, -, -, hfalse⟩
    · exact hd
    · exact absurd hfalse not_false
  · -- No call is split.
    intro db call u _ hsplit _
    exact absurd hsplit (by simp)
  · intro db w u hdb hu hcons
    rcases hu with ⟨call, -, -, hfalse⟩ | hatomic
    · exact absurd hfalse not_false
    · exact ⟨hwrite db w u hdb hatomic hcons, trivial⟩
  · intro db
    trivial
  · intro db db' u _ hfalse
    exact hfalse

/-- In a run of atomic steps, sessions hold nothing but the first commit of `process_deployment`. -/
theorem holdsValidations_of_reach {s₀ s : State} (hidle : ∀ i, s₀.locals i = .idle)
    (h : Reach (stepWith lower checked) AtomicSteps s₀ s) : s.HoldsValidations :=
  (reach_atomic (I := fun _ => True) h trivial hidle fun _ _ _ _ _ _ => trivial).2

/-- Where sessions hold nothing else, every commit of an atomic step is an atomic write. -/
theorem State.HoldsValidations.committed {s : State} (h : s.HoldsValidations) {i : ℕ} {a : Action}
    {w : Writer} {u : UnitOfWork} (hok : AtomicSteps s (i, a))
    (hcom : committed lower s.shared (s.locals i) a = some (w, u)) :
    AtomicWrite lower s.shared w u := by
  rcases State.Holds.committed h hcom with ⟨rfl, d, rfl⟩ | hreads
  · exact .validation
  · exact hreads.atomicWrite hok hcom

/-- The invariant rule for classes of runs in which every operation is atomic. -/
theorem reach_atomicClass {ok : State → ℕ × Action → Prop} (hok : ∀ s p, ok s p → AtomicSteps s p)
    {I : Db → Prop} {s : State} (h : Reach (stepWith lower checked) ok .init s) (hI : I .empty)
    (hwrite : ∀ s i a w u, Reach (stepWith lower checked) ok .init s → I s.shared → ok s (i, a) →
      committed lower s.shared (s.locals i) a = some (w, u) → AtomicWrite lower s.shared w u →
      I (s.shared.write u)) : I s.shared := by
  refine h.invariant (I := fun s => I s.shared) hI ?_
  rintro s ⟨i, a⟩ s' hreach hs hoka hstep
  rcases stepWith_cases hstep with hsame | ⟨w, u, hcom, hwritten, -⟩
  · rw [hsame]
    exact hs
  · have hheld := holdsValidations_of_reach (fun _ => rfl) (hreach.mono hok)
    rw [hwritten]
    exact hwrite s i a w u hreach hs hoka hcom (hheld.committed (hok _ _ hoka) hcom)

/-! ## What a step does to a row -/

/-- What the commit of an atomic step makes of a stored deployment. -/
inductive RowStep (db : Db) : Writer → Deployment → Deployment → Prop
  /-- The commit does not update this row. -/
  | same {w : Writer} {d : Deployment} : RowStep db w d d
  /-- REQUESTED to VALIDATING. -/
  | claim {d : Deployment} (workerId : String) (now : Time) : d.status = .requested →
    RowStep db .worker d { d with
      status := .validating
      workerId := some workerId
      lockedAt := some now
      attempts := d.attempts + 1 }
  /-- The holder of the claim goes on. -/
  | work {d assigned : Deployment} {phase : Phase} {event : String} {message : Option String}
      {next : Option Phase} :
    d.running = true → WorkerWrite db d phase assigned event message next →
      RowStep db .worker d assigned
  /-- A stuck job is re-queued, or failed for good. -/
  | reap {d : Deployment} : d.running = true → RowStep db .reaper d (reaped d)
  /-- FAILED to REQUESTED. -/
  | retry {d : Deployment} (actorId : Uuid) : d.status = .failed →
    RowStep db (.api (.retryDeployment actorId d.id)) d
      { d with status := .requested, error := none, workerId := none, lockedAt := none }
  /-- SUCCEEDED to ROLLED_BACK, with the target that was found. -/
  | rollback {d t : Deployment} (actorId : Uuid) : d.status = .succeeded →
    rollbackTarget db d = some t →
    RowStep db (.api (.rollbackDeployment actorId d.id)) d
      { d with status := .rolledBack, rolledBackToId := some t.id }

/-- An update lands on the row that was read, and stores what was assigned. -/
theorem Deployment.flush_self {d assigned : Deployment}
    (h : assigned = { d with
      status := assigned.status
      workerId := assigned.workerId
      lockedAt := assigned.lockedAt
      attempts := assigned.attempts
      error := assigned.error
      rolledBackToId := assigned.rolledBackToId }) : d.flush assigned d = assigned := by
  simp only [Deployment.flush, flushColumn_loaded]
  exact h.symm

/-- What a worker assigns to a row is stored when the update lands on the row that it read. -/
theorem WorkerWrite.flush_self {db : Db} {d assigned : Deployment} {phase : Phase} {event : String}
    {message : Option String} {next : Option Phase}
    (h : WorkerWrite db d phase assigned event message next) : d.flush assigned d = assigned := by
  cases h <;> exact Deployment.flush_self rfl

/-- A worker leaves `attempts` alone. -/
theorem WorkerWrite.attempts {db : Db} {d assigned : Deployment} {phase : Phase} {event : String}
    {message : Option String} {next : Option Phase}
    (h : WorkerWrite db d phase assigned event message next) : assigned.attempts = d.attempts := by
  cases h <;> rfl

/-- An update of one row makes the row that was read the one that was assigned. -/
theorem onDeployment_loaded {d assigned : Deployment}
    {events : List (Table.Draft DeploymentEvent.id)} (hflush : d.flush assigned d = assigned) :
    (UnitOfWork.updateDeployments [⟨d, assigned⟩] events).onDeployment d = assigned := by
  rw [UnitOfWork.onDeployment, UnitOfWork.dirtyFor_single, if_pos rfl]
  exact hflush

/-- A claim makes the row that it read the one that it assigned. -/
theorem onDeployment_claimed {db : Db} {workerId : String} {now : Time} {locked : List Uuid}
    {x : DirtyDeployment} (hx : claimOne db workerId now locked = some x) :
    (UnitOfWork.updateDeployments [x] []).onDeployment x.loaded = x.assigned := by
  obtain ⟨-, -, -, -, hassigned⟩ := claimOne_eq_some.mp hx
  refine onDeployment_loaded ?_
  rw [hassigned]
  exact Deployment.flush_self rfl

/-- An update of one row, read from the database it lands on, stores what was assigned. -/
theorem get?_write_single {db : Db} {d assigned : Deployment}
    {events : List (Table.Draft DeploymentEvent.id)} (hd : d ∈ db.deployments)
    (hflush : d.flush assigned d = assigned) :
    (db.write (.updateDeployments [⟨d, assigned⟩] events)).deployments.get? d.id =
      some assigned := by
  rw [Db.get?_deployments_write _ (Table.get?_key hd), onDeployment_loaded hflush]

/-- A claim stores the row that it assigned. -/
theorem get?_write_claimOne {db : Db} {workerId : String} {now : Time} {locked : List Uuid}
    {x : DirtyDeployment} (hx : claimOne db workerId now locked = some x) :
    (db.write (.updateDeployments [x] [])).deployments.get? x.loaded.id = some x.assigned := by
  rw [Db.get?_deployments_write _ (Table.get?_key (claimOne_eq_some.mp hx).1),
    onDeployment_claimed hx]

/-- A unit of work that updates one row, which was read from the database it lands on, leaves the
other rows as they are. -/
theorem onDeployment_single {db : Db} {e assigned d : Deployment}
    {events : List (Table.Draft DeploymentEvent.id)} (he : e ∈ db.deployments)
    (hd : d ∈ db.deployments) :
    (UnitOfWork.updateDeployments [⟨e, assigned⟩] events).onDeployment d = d ∨
      (e = d ∧ (UnitOfWork.updateDeployments [⟨e, assigned⟩] events).onDeployment d =
        e.flush assigned e) := by
  rcases UnitOfWork.onDeployment_cases (.updateDeployments [⟨e, assigned⟩] events) d with
    h | ⟨dirty, events', x, hu, hx, hid, h⟩
  · exact Or.inl h
  · obtain ⟨rfl, rfl⟩ := UnitOfWork.updateDeployments.inj hu
    obtain rfl := List.mem_singleton.mp hx
    obtain rfl : e = d := db.deployments.eq_of_key_eq he hd hid
    exact Or.inr ⟨rfl, h⟩

/-- A claim leaves a running job alone. -/
theorem onDeployment_of_claimOne {db : Db} {workerId : String} {now : Time} {locked : List Uuid}
    {x : DirtyDeployment} (hx : claimOne db workerId now locked = some x) {d : Deployment}
    (hd : d ∈ db.deployments) (hrun : d.running = true) :
    x.loaded.id ≠ d.id ∧ (UnitOfWork.updateDeployments [x] []).onDeployment d = d := by
  obtain ⟨hmem, hrequested, -⟩ := claimOne_eq_some.mp hx
  -- The claimed row is REQUESTED, so it is another one.
  have hne : x.loaded.id ≠ d.id := by
    intro hid
    rw [← db.deployments.eq_of_key_eq hmem hd hid, Deployment.running, hrequested] at hrun
    exact absurd hrun (by decide)
  refine ⟨hne, ?_⟩
  rcases onDeployment_single hmem hd with heq | ⟨rfl, -⟩
  · exact heq
  · exact absurd rfl hne

/-- A rollback that reads and commits at once finds a target, makes its deployment ROLLED_BACK with
that target, and leaves the other deployments and the versions as they are. -/
theorem rollbackDeployment_write {db : Db} {actorId id : Uuid} {u : UnitOfWork} {d : Deployment}
    (hd : db.deployments.get? id = some d) (h : rollbackDeployment db actorId id = .ok u) :
    d.status = .succeeded ∧ ∃ t, rollbackTarget db d = some t ∧
      (db.write u).deployments.get? id =
        some { d with status := .rolledBack, rolledBackToId := some t.id } ∧
      (db.write u).versions = db.versions ∧
      ∀ e ∈ db.deployments, e.id ≠ id → e ∈ (db.write u).deployments := by
  obtain ⟨d', t, hd', hs, ht, hu⟩ := rollbackDeployment_eq_ok.mp h
  obtain rfl := Option.some.inj (hd'.symm.trans hd)
  have hid : d'.id = id := (Table.get?_eq_some.mp hd).2
  refine ⟨hs, t, ht, ?_, by rw [hu]; rfl, fun e he hne => ?_⟩
  · -- The row lands on the one that was read.
    rw [← hid, hu]
    exact get?_write_single (Table.get?_eq_some.mp hd).1 (Deployment.flush_self rfl)
  · -- Another row has no object in the unit of work.
    have hkept := Db.onDeployment_mem_write u he
    rw [← hid] at hne
    rwa [UnitOfWork.onDeployment_of_dirtyFor] at hkept
    rw [hu, UnitOfWork.dirtyFor_single, if_neg hne.symm]

/-- What the reaper assigns to a row is stored when the update lands on the row that it read. -/
theorem flush_reaped (d : Deployment) : d.flush (reaped d) d = reaped d := by
  unfold reaped
  split_ifs <;> exact Deployment.flush_self rfl

/-- A pass of the reaper that reads and commits at once makes of a row what it assigns to it, if the
row is stuck. -/
theorem onDeployment_reapStuck {db : Db} {now timeoutSeconds : Time} {u : UnitOfWork}
    (h : reapStuck db now timeoutSeconds = some u) {d : Deployment} (hd : d ∈ db.deployments) :
    u.onDeployment d = if isStuck (now - timeoutSeconds) d = true then reaped d else d := by
  split_ifs with hstuck
  · obtain ⟨v, hv, hdirty⟩ := reapStuck_of_isStuck hd hstuck
    obtain rfl := Option.some.inj (h.symm.trans hv)
    rw [UnitOfWork.onDeployment, hdirty]
    exact flush_reaped d
  · obtain ⟨stuck, hmem, rfl⟩ := reapStuck_eq_some h
    rcases UnitOfWork.onDeployment_cases _ d with heq | ⟨dirty, events, x, hu, hx, hid, -⟩
    · exact heq
    · obtain ⟨rfl, rfl⟩ := UnitOfWork.updateDeployments.inj hu
      obtain ⟨e, he, rfl⟩ := List.mem_map.mp hx
      obtain ⟨hstored, hstuck'⟩ := (hmem e).mp he
      obtain rfl : e = d := db.deployments.eq_of_key_eq hstored hd hid
      exact absurd hstuck' hstuck

/-- A commit of an atomic step does one of these to a stored deployment. -/
theorem AtomicWrite.rowStep {db : Db} {w : Writer} {u : UnitOfWork} (h : AtomicWrite lower db w u)
    {d : Deployment} (hd : d ∈ db.deployments) : RowStep db w d (u.onDeployment d) := by
  cases h with
  | @call call u hc =>
    cases hx : u.dirtyFor d.id with
    | none =>
      rw [UnitOfWork.onDeployment_of_dirtyFor hx]
      exact .same
    | some x =>
      have hrow : u.onDeployment d = x.loaded.flush x.assigned d := by
        rw [UnitOfWork.onDeployment, hx]
      have hget : db.deployments.get? d.id = some d := Table.get?_key hd
      rw [hrow]
      -- The row that the call has loaded is this one.
      cases hc.callUpdate hx with
      | retry actorId he hs =>
        obtain rfl := Option.some.inj (he.symm.trans hget)
        rw [Deployment.flush_self rfl]
        exact .retry actorId hs
      | rollback actorId he hs ht =>
        obtain rfl := Option.some.inj (he.symm.trans hget)
        rw [Deployment.flush_self rfl]
        exact .rollback actorId hs ht
  | @claim workerId now locked x hx =>
    -- Either another row is claimed, or this one.
    obtain ⟨hmem, hs, -, -, hassigned⟩ := claimOne_eq_some.mp hx
    obtain ⟨e, assigned⟩ := x
    dsimp only at hmem hs hassigned
    subst hassigned
    rcases onDeployment_single hmem hd with heq | ⟨rfl, heq⟩
    · rw [heq]
      exact .same
    · rw [heq, Deployment.flush_self rfl]
      exact .claim workerId now hs
  | validation => exact .same
  | @segment e assigned phase event message next hmem hrun hwrite =>
    rcases onDeployment_single hmem hd with heq | ⟨rfl, heq⟩
    · rw [heq]
      exact .same
    · rw [heq, hwrite.flush_self]
      exact .work hrun hwrite
  | reap hr =>
    rw [onDeployment_reapStuck hr hd]
    split_ifs with hstuck
    · exact .reap (running_of_isStuck hstuck)
    · exact .same

/-- A row that is SUCCEEDED after the commit of an atomic step was so before, or a worker has
completed a running job. -/
theorem RowStep.succeeded {db : Db} {w : Writer} {d d' : Deployment} (h : RowStep db w d d')
    (hs : d'.status = .succeeded) : d.status = .succeeded ∨ (w = .worker ∧ d.running = true) := by
  cases h with
  | same => exact Or.inl hs
  | claim workerId now hr => exact absurd hs (by simp)
  | work hrun hwrite => exact Or.inr ⟨rfl, hrun⟩
  | reap hrun => exact absurd hs (reaped_status d).1
  | retry actorId hf => exact absurd hs (by simp)
  | rollback actorId hs' ht => exact absurd hs (by simp)

/-- A row that is in flight after the commit of an atomic step was so before, or the step has
retried it. -/
theorem RowStep.inFlight {db : Db} {w : Writer} {d d' : Deployment} (h : RowStep db w d d')
    (hf : d'.inFlight = true) :
    d.inFlight = true ∨ ∃ actorId, w = .api (.retryDeployment actorId d.id) := by
  cases h with
  | same => exact Or.inl hf
  | claim workerId now hr => exact Or.inl (by simp [Deployment.inFlight, hr])
  | work hrun hwrite => exact Or.inl (Deployment.inFlight_of_running hrun)
  | reap hrun => exact Or.inl (Deployment.inFlight_of_running hrun)
  | retry actorId hs => exact Or.inr ⟨actorId, rfl⟩
  | rollback actorId hs ht => exact absurd hf (by simp [Deployment.inFlight])

/-- The commit of an atomic step leaves a finished row finished. -/
theorem RowStep.finished {db : Db} {w : Writer} {d d' : Deployment} (h : RowStep db w d d')
    (hd : d.finished = true) : d'.finished = true := by
  cases h with
  | same => exact hd
  | claim workerId now hs =>
    rw [Deployment.finished, hs] at hd
    exact absurd hd (by decide)
  | work hrun hwrite => exact absurd hd (Deployment.not_finished_of_running hrun)
  | reap hrun => exact absurd hd (Deployment.not_finished_of_running hrun)
  | retry actorId hs =>
    rw [Deployment.finished, hs] at hd
    exact absurd hd (by decide)
  | rollback actorId hs ht => rfl

/-- A row that an atomic step inserts is that of a request: REQUESTED, for a version that is
deployable to the environment, and with the version's model. -/
theorem AtomicWrite.insert {db : Db} {w : Writer} {deployment : Table.Draft Deployment.id}
    {event : Uuid → Table.Draft DeploymentEvent.id}
    (h : AtomicWrite lower db w (.insertDeployment deployment event)) :
    ∃ actorId correlationId data v,
      w = .api (.requestDeployment actorId correlationId data) ∧
      db.versions.get? data.modelVersionId = some v ∧
      isDeployable v.stage data.environment = true ∧
      ∀ id, deployment.1 id =
        { id
          modelId := v.modelId
          modelVersionId := data.modelVersionId
          environment := data.environment
          status := .requested
          idempotencyKey := data.idempotencyKey
          workerId := none
          lockedAt := none
          attempts := 0
          error := none
          simulateFailure := data.simulateFailure
          correlationId
          rolledBackToId := none
          createdBy := some actorId } := by
  -- Of the atomic writes only that of a request inserts a deployment.
  generalize hu : UnitOfWork.insertDeployment deployment event = u at h
  cases h with
  | @call call u hc =>
    obtain rfl := hu
    obtain ⟨actorId, correlationId, data, rfl, hr⟩ := hc.of_insertDeployment
    obtain ⟨v, dep, ev, -, hv, hdep, heq, hrow⟩ := requestDeployment_eq_staged hr
    obtain ⟨rfl, rfl⟩ := UnitOfWork.insertDeployment.inj heq
    exact ⟨actorId, correlationId, data, v, rfl, hv, hdep, fun id => (hrow id).1⟩
  | claim hx => exact absurd hu (by simp)
  | validation => exact absurd hu (by simp [startValidation])
  | segment hmem hrun hwrite => exact absurd hu (by simp)
  | reap hr =>
    obtain ⟨stuck, -, rfl⟩ := reapStuck_eq_some hr
    exact absurd hu (by simp)

/-- A deployment after the commit of an atomic step was stored before and has taken a row step, or
is the one that a request inserted. -/
theorem AtomicWrite.mem_deployments {db : Db} {w : Writer} {u : UnitOfWork}
    (h : AtomicWrite lower db w u) {d : Deployment} (hd : d ∈ (db.write u).deployments) :
    (∃ e ∈ db.deployments, RowStep db w e d ∧ d = u.onDeployment e) ∨
      ∃ deployment event, u = .insertDeployment deployment event ∧
        d = deployment.1 db.deployments.next := by
  rcases Db.mem_deployments_write hd with ⟨e, he, rfl⟩ | hinsert
  · exact Or.inl ⟨e, he, h.rowStep he, rfl⟩
  · exact Or.inr hinsert

/-- A deployment that was not stored before the commit of an atomic step is the one that a request
inserted. -/
theorem AtomicWrite.inserted {db : Db} {w : Writer} {u : UnitOfWork} (h : AtomicWrite lower db w u)
    {id : Uuid} {d : Deployment} (hnone : db.deployments.get? id = none)
    (hd : (db.write u).deployments.get? id = some d) :
    ∃ deployment event, u = .insertDeployment deployment event ∧
      d = deployment.1 db.deployments.next := by
  obtain ⟨hmem, hid⟩ := Table.get?_eq_some.mp hd
  rcases h.mem_deployments hmem with ⟨e, he, -, rfl⟩ | hinsert
  · exact absurd ((u.onDeployment_id e).symm.trans hid) (Table.get?_eq_none.mp hnone e he)
  · exact hinsert

/-- The commit of an atomic step updates stored rows only. -/
theorem AtomicWrite.dirtyFor_mem {db : Db} {w : Writer} {u : UnitOfWork}
    (h : AtomicWrite lower db w u) {id : Uuid} {x : DirtyDeployment} (hx : u.dirtyFor id = some x) :
    x.loaded ∈ db.deployments ∧ x.loaded.id = id := by
  cases h with
  | call hc =>
    cases hc.callUpdate hx with
    | retry actorId hd hs => exact Table.get?_eq_some.mp hd
    | rollback actorId hd hs ht => exact Table.get?_eq_some.mp hd
  | claim hy =>
    obtain ⟨hmem, hid⟩ := UnitOfWork.mem_of_dirtyFor hx
    obtain rfl := List.mem_singleton.mp hmem
    exact ⟨(claimOne_eq_some.mp hy).1, hid⟩
  | validation =>
    obtain ⟨hmem, -⟩ := UnitOfWork.mem_of_dirtyFor hx
    exact absurd hmem List.not_mem_nil
  | segment he hrun hwrite =>
    obtain ⟨hmem, hid⟩ := UnitOfWork.mem_of_dirtyFor hx
    obtain rfl := List.mem_singleton.mp hmem
    exact ⟨he, hid⟩
  | reap hr =>
    obtain ⟨stuck, hstuck, rfl⟩ := reapStuck_eq_some hr
    obtain ⟨hmem, hid⟩ := UnitOfWork.mem_of_dirtyFor hx
    obtain ⟨d, hd, rfl⟩ := List.mem_map.mp hmem
    exact ⟨((hstuck d).mp hd).1, hid⟩

end MlopsPlatform
