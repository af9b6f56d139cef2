import MlopsPlatform.Answers
import MlopsPlatform.Queue.Attempts

/-!
# Retries and rollbacks take effect once

`retry_deployment` and `rollback_deployment` check the status that they have read, and their
`UPDATE` is by primary key. So a call that commits after another one has taken the row out of that
status overwrites whatever the row has become: a second retry re-queues a job that a worker has
claimed since (`late_retry_requeues`), and a second rollback is recorded once more. As long as no
call is late in this way (`Undisturbed`), every move from FAILED to REQUESTED is made by one retry
and every move from SUCCEEDED to ROLLED_BACK by one rollback, the events count the moves, and every
other call is refused.
-/

namespace MlopsPlatform

open Transition

section

variable {lower : String → String} {id : Uuid}

/-! ## Moves and events -/

/-- The writer is a rollback of a deployment. -/
def Writer.rollsBack (id : Uuid) : Writer → Bool
  | api (.rollbackDeployment _ deploymentId) => deploymentId = id
  | _ => false

/-- A retry of a deployment. -/
theorem Writer.retries_eq_true {call : Call} (h : (Writer.api call).retries id = true) :
    ∃ actorId, call = .retryDeployment actorId id := by
  cases call with
  | retryDeployment actorId deploymentId =>
    have hid : deploymentId = id := by simpa [retries] using h
    exact ⟨actorId, by rw [hid]⟩
  | _ => exact absurd h (by simp [retries])

/-- A rollback of a deployment. -/
theorem Writer.rollsBack_eq_true {call : Call} (h : (Writer.api call).rollsBack id = true) :
    ∃ actorId, call = .rollbackDeployment actorId id := by
  cases call with
  | rollbackDeployment actorId deploymentId =>
    have hid : deploymentId = id := by simpa [rollsBack] using h
    exact ⟨actorId, by rw [hid]⟩
  | _ => exact absurd h (by simp [rollsBack])

/-- The step is that of a rollback of a deployment, and it succeeds. -/
def rollsBack (lower : String → String) (id : Uuid) (x : State × (ℕ × Action)) : Bool :=
  (written lower x.1 x.2).any fun y => y.1.rollsBack id

/-- The status of a deployment, if it is stored. -/
def Db.statusOf (db : Db) (id : Uuid) : Option DeploymentStatus :=
  (db.deployments.get? id).map Deployment.status

/-- How many entries of one name the timeline of a deployment has. -/
def Db.recorded (db : Db) (id : Uuid) (event : String) : ℕ :=
  db.deploymentEvents.rows.countP fun e => e.deploymentId = id && e.event = event

/-- The step takes a deployment from one status to another. -/
def moves (lower : String → String) (id : Uuid) (before after : DeploymentStatus)
    (x : State × (ℕ × Action)) : Bool :=
  x.1.shared.statusOf id = some before &&
    (step lower x.1 x.2).any fun s' => s'.shared.statusOf id = some after

/-- What a step moves is read off the states before and after it. -/
theorem moves_of_step {s s' : State} {p : ℕ × Action} (h : step lower s p = some s')
    (before after : DeploymentStatus) : moves lower id before after (s, p) =
      (s.shared.statusOf id = some before && s'.shared.statusOf id = some after) := by
  simp only [moves, h, Option.any_some]

/-- A step does not move a deployment that it does not leave in the status of the move. -/
theorem moves_eq_false {s s' : State} {p : ℕ × Action} (hstep : step lower s p = some s')
    {before after : DeploymentStatus}
    (h : s.shared.statusOf id = some before → s'.shared.statusOf id ≠ some after) :
    moves lower id before after (s, p) = false := by
  rw [moves_of_step hstep, Bool.and_eq_false_iff, decide_eq_false_iff_not,
    decide_eq_false_iff_not]
  by_cases hbefore : s.shared.statusOf id = some before
  · exact Or.inr (h hbefore)
  · exact Or.inl hbefore

/-! ## Runs in which no call is late -/

/-- Another deployment of the model is in flight in the environment. -/
def Db.Contended (db : Db) (d : Deployment) : Prop :=
  ∃ e ∈ db.deployments.rows, e.id ≠ d.id ∧ e.inFlight = true ∧ e.modelId = d.modelId ∧
    e.environment = d.environment

instance (db : Db) (d : Deployment) : Decidable (db.Contended d) :=
  inferInstanceAs (Decidable (∃ e ∈ db.deployments.rows, _))

/-- No retry or rollback of a deployment is late: when it commits, the row is still in the status
that the call has read, unless `uq_active_deployment` refuses the retry. -/
def Undisturbed (id : Uuid) (db : Db) (w : Writer) (u : UnitOfWork) : Prop :=
  w.retries id = true ∨ w.rollsBack id = true → ∀ x ∈ u.dirtyFor id,
    ∀ d ∈ db.deployments.rows, d.id = id →
      d.status = x.loaded.status ∨ w.retries id = true ∧ db.Contended d

instance (db : Db) (w : Writer) (u : UnitOfWork) : Decidable (Undisturbed id db w u) :=
  inferInstanceAs (Decidable (_ ∨ _ → ∀ x ∈ u.dirtyFor id, _))

/-- The action is the SELECT of a pass of the reaper, whose commit comes later. -/
def Action.isSelect : Action → Bool
  | select _ _ => true
  | _ => false

/-- The steps of the runs in which the reaper is atomic. Calls and workers may be interrupted
anywhere. -/
def AtomicReaper (_ : State) (p : ℕ × Action) : Prop := p.2.isSelect = false

instance (s : State) (p : ℕ × Action) : Decidable (AtomicReaper s p) :=
  inferInstanceAs (Decidable (p.2.isSelect = false))

/-- The steps of the runs in which, besides, no retry or rollback of a deployment is late. -/
def UndisturbedSteps (lower : String → String) (id : Uuid) (s : State) (p : ℕ × Action) : Prop :=
  AtomicReaper s p ∧ CommitMeets lower (Undisturbed id) s p

instance (s : State) (p : ℕ × Action) : Decidable (UndisturbedSteps lower id s p) :=
  inferInstanceAs (Decidable (_ ∧ _))

/-! ## Where a commit comes from -/

/-- Every stored deployment is stored later. -/
def Db.KeepsRows (db db' : Db) : Prop :=
  ∀ id d, db.deployments.get? id = some d → ∃ d', db'.deployments.get? id = some d'

/-- What has been staged for a writer: by a call that has read an earlier database, by a worker, but
not by a reaper. -/
def StagedBefore (lower : String → String) (db : Db) (w : Writer) (u : UnitOfWork) : Prop :=
  match w with
  | .api call => ∃ db₀, call.Returns lower db₀ u ∧ db₀.KeepsRows db
  | .worker => (∃ d, u = startValidation d) ∨ ∃ db₀, Staged lower db₀ .worker u
  | .reaper => False

/-- In a run with an atomic reaper, sessions hold what calls and workers have staged. -/
theorem reach_stagedBefore {s : State} (h : Reach (step lower) AtomicReaper .init s) :
    s.Holds (StagedBefore lower) := by
  refine (reach_invariant (I := fun _ => True) (R := Db.KeepsRows) h trivial (State.init_holds _)
    ?_ ?_ ?_ ?_ ?_).2
  · exact fun _ d => Or.inl ⟨d, rfl⟩
  · intro s i a w u hok _ hsplit hreads
    cases hsplit with
    | start call => exact ⟨s.shared, hreads.returns, fun _ d hd => ⟨d, hd⟩⟩
    | load => exact Or.inr ⟨s.shared, hreads.staged⟩
    | select now timeoutSeconds => exact absurd hok (by simp [AtomicReaper, Action.isSelect])
  · exact fun s _ _ _ u _ _ _ _ _ =>
      ⟨trivial, fun _ d hd => ⟨u.onDeployment d, Db.get?_deployments_write u hd⟩⟩
  · exact fun _ _ d hd => ⟨d, hd⟩
  · intro db db' w u hkeeps hu
    cases w with
    | api call =>
      obtain ⟨db₀, hreturns, hkeeps₀⟩ := hu
      refine ⟨db₀, hreturns, fun id d hd => ?_⟩
      obtain ⟨d', hd'⟩ := hkeeps₀ id d hd
      exact hkeeps id d' hd'
    | worker => exact hu
    | reaper => exact hu

/-- What a call commits was returned for an earlier database, whose rows are all still stored. -/
theorem returns_of_committed {s : State} {i : ℕ} {a : Action} {call : Call} {u : UnitOfWork}
    (h : Reach (step lower) AtomicReaper .init s)
    (hcom : committed lower s.shared (s.locals i) a = some (.api call, u)) :
    ∃ db₀, call.Returns lower db₀ u ∧ db₀.KeepsRows s.shared := by
  rcases (reach_stagedBefore h).committed hcom with hstaged | hreads
  · exact hstaged
  · exact ⟨s.shared, hreads.returns, fun _ d hd => ⟨d, hd⟩⟩

/-! ## Commits that leave a deployment alone -/

/-- A commit neither retries a deployment nor rolls it back, and records no event of either. -/
structure Db.Spares (db : Db) (id : Uuid) (u : UnitOfWork) : Prop where
  /-- A FAILED row does not become REQUESTED. -/
  retry : ∀ d, db.deployments.get? id = some d → d.status = .failed →
    (u.onDeployment d).status ≠ .requested
  /-- A SUCCEEDED row does not become ROLLED_BACK. -/
  rollback : ∀ d, db.deployments.get? id = some d → d.status = .succeeded →
    (u.onDeployment d).status ≠ .rolledBack
  /-- The events of the deployment are others. -/
  events : ∀ x, u.Records x → ∀ n, (x.1 n).deploymentId = id →
    (x.1 n).event ≠ "retry_requested" ∧ (x.1 n).event ≠ "rolled_back"

/-- A commit that assigns neither REQUESTED nor ROLLED_BACK to a deployment leaves it in its status,
or gives it another one. -/
theorem status_of_assigned {u : UnitOfWork} {d : Deployment}
    (h : ∀ x ∈ u.dirtyFor d.id, x.assigned.status ≠ .requested ∧
      x.assigned.status ≠ .rolledBack) :
    (u.onDeployment d).status = d.status ∨
      ((u.onDeployment d).status ≠ .requested ∧ (u.onDeployment d).status ≠ .rolledBack) := by
  cases hx : u.dirtyFor d.id with
  | none =>
    rw [UnitOfWork.onDeployment_of_dirtyFor hx]
    exact Or.inl rfl
  | some x =>
    rw [UnitOfWork.onDeployment_status hx]
    rcases flushColumn_cases x.loaded.status x.assigned.status d.status with
      ⟨-, hkept⟩ | ⟨-, hassigned⟩
    · exact Or.inl hkept
    · rw [hassigned]
      exact Or.inr (h x hx)

/-- Where a commit assigns neither REQUESTED nor ROLLED_BACK, it spares the deployment if it records
no event of either. -/
theorem Db.Spares.of_assigned {db : Db} {u : UnitOfWork}
    (h : ∀ x ∈ u.dirtyFor id, x.assigned.status ≠ .requested ∧ x.assigned.status ≠ .rolledBack)
    (hevents : ∀ x, u.Records x → ∀ n, (x.1 n).deploymentId = id →
      (x.1 n).event ≠ "retry_requested" ∧ (x.1 n).event ≠ "rolled_back") : db.Spares id u := by
  have hstatus : ∀ d, db.deployments.get? id = some d → (u.onDeployment d).status = d.status ∨
      ((u.onDeployment d).status ≠ .requested ∧ (u.onDeployment d).status ≠ .rolledBack) := by
    intro d hd
    rw [← (Table.get?_eq_some.mp hd).2] at h
    exact status_of_assigned h
  refine ⟨fun d hd hs => ?_, fun d hd hs => ?_, hevents⟩
  · rcases hstatus d hd with hsame | hother
    · rw [hsame, hs]
      decide
    · exact hother.1
  · rcases hstatus d hd with hsame | hother
    · rw [hsame, hs]
      decide
    · exact hother.2

/-- A worker spares every deployment. -/
theorem spares_of_worker {db db₀ : Db} {u : UnitOfWork} (h : Staged lower db₀ .worker u) :
    db.Spares id u := by
  cases h with
  | claim hx =>
    obtain ⟨-, -, -, -, hassigned⟩ := claimOne_eq_some.mp hx
    refine .of_assigned (fun y hy => ?_) fun e he => absurd he List.not_mem_nil
    obtain ⟨hmem, -⟩ := UnitOfWork.mem_of_dirtyFor hy
    rw [List.mem_singleton.mp hmem, hassigned]
    simp
  | segment hs =>
    obtain ⟨d, assigned, event, message, -, hwrite, rfl⟩ := processDeployment_eq_some hs
    refine .of_assigned (fun y hy => ?_) fun e he n _ => ?_
    · obtain ⟨hmem, -⟩ := UnitOfWork.mem_of_dirtyFor hy
      rw [List.mem_singleton.mp hmem]
      cases hwrite <;> simp
    · obtain rfl := List.mem_singleton.mp he
      cases hwrite <;> simp [recordEvent]

/-- The first commit of `process_deployment` spares every deployment. -/
theorem spares_of_validation {db : Db} {d : Deployment} : db.Spares id (startValidation d) := by
  refine .of_assigned (fun x hx => absurd hx (by simp [startValidation, UnitOfWork.dirtyFor]))
    fun e he n _ => ?_
  obtain rfl := List.mem_singleton.mp he
  simp [recordEvent]

/-- An atomic pass of the reaper spares every deployment: it re-queues running jobs only. -/
theorem spares_of_reaper {db : Db} {now timeoutSeconds : Time} {u : UnitOfWork}
    (h : reapStuck db now timeoutSeconds = some u) : db.Spares id u := by
  have hatomic : AtomicWrite (fun name => name) db .reaper u := .reap h
  have hrow : ∀ d, db.deployments.get? id = some d → d.running = false → u.onDeployment d = d := by
    intro d hd hrun
    have hstep := hatomic.rowStep (Table.get?_eq_some.mp hd).1
    generalize u.onDeployment d = d' at hstep
    cases hstep with
    | same => rfl
    | reap hrun' =>
      rw [hrun] at hrun'
      exact absurd hrun' Bool.false_ne_true
  refine ⟨fun d hd hs => ?_, fun d hd hs => ?_, fun e he n _ => ?_⟩
  · rw [hrow d hd (by simp [Deployment.running, hs]), hs]
    decide
  · rw [hrow d hd (by simp [Deployment.running, hs]), hs]
    decide
  · obtain ⟨stuck, -, rfl⟩ := reapStuck_eq_some h
    obtain ⟨d, -, rfl⟩ := List.mem_map.mp he
    unfold reapEvent
    split_ifs <;> simp [recordEvent]

/-- A call that is neither a retry nor a rollback of a deployment spares it. -/
theorem spares_of_call {db db₀ : Db} {call : Call} {u : UnitOfWork} (h : call.Returns lower db₀ u)
    (hretry : (Writer.api call).retries id = false)
    (hrollback : (Writer.api call).rollsBack id = false) : db.Spares id u := by
  refine .of_assigned (fun x hx => ?_) fun x hx n hid => ?_
  · cases h.callUpdate hx with
    | retry actorId hd hs => exact absurd hretry (by simp [Writer.retries])
    | rollback actorId hd hs ht => exact absurd hrollback (by simp [Writer.rollsBack])
  · cases h.callEvent hx with
    | request => simp [recordEvent]
    | retry hd => exact absurd hretry (by simp [Writer.retries, hd.symm.trans hid])
    | rollback hd => exact absurd hrollback (by simp [Writer.rollsBack, hd.symm.trans hid])

/-! ## What a step moves and records -/

/-- A step moves what it records: retries from FAILED to REQUESTED, and rollbacks from SUCCEEDED to
ROLLED_BACK. -/
structure MovesAsRecorded (lower : String → String) (id : Uuid) (s s' : State)
    (p : ℕ × Action) : Prop where
  /-- The retries make the moves from FAILED to REQUESTED. -/
  retry : moves lower id .failed .requested (s, p) = retries lower id (s, p)
  /-- The rollbacks make the moves from SUCCEEDED to ROLLED_BACK. -/
  rollback : moves lower id .succeeded .rolledBack (s, p) = rollsBack lower id (s, p)
  /-- A retry records one event. -/
  retryEvents : s'.shared.recorded id "retry_requested" =
    s.shared.recorded id "retry_requested" + if retries lower id (s, p) = true then 1 else 0
  /-- A rollback records one event. -/
  rollbackEvents : s'.shared.recorded id "rolled_back" =
    s.shared.recorded id "rolled_back" + if rollsBack lower id (s, p) = true then 1 else 0

/-- The status of a stored deployment after a write. -/
theorem statusOf_write {db : Db} {d : Deployment} (u : UnitOfWork)
    (hd : db.deployments.get? id = some d) :
    (db.write u).statusOf id = some (u.onDeployment d).status := by
  rw [Db.statusOf, Db.get?_deployments_write u hd]
  rfl

/-- A step that writes nothing moves and records nothing. -/
theorem movesAsRecorded_of_none {s s' : State} {p : ℕ × Action} (hstep : step lower s p = some s')
    (hwritten : written lower s p = none) (hshared : s'.shared = s.shared) :
    MovesAsRecorded lower id s s' p := by
  have hnot : ∀ before after : DeploymentStatus, before ≠ after →
      moves lower id before after (s, p) = false := by
    intro before after hne
    refine moves_eq_false hstep fun hbefore hafter => ?_
    rw [hshared, hbefore] at hafter
    exact hne (Option.some.inj hafter)
  refine ⟨?_, ?_, ?_, ?_⟩
  · rw [hnot _ _ (by decide), retries, hwritten, Option.any_none]
  · rw [hnot _ _ (by decide), rollsBack, hwritten, Option.any_none]
  · simp [hshared, retries, hwritten]
  · simp [hshared, rollsBack, hwritten]

/-- A step whose commit spares a deployment, and that is no retry or rollback of it, moves and
records nothing. -/
theorem movesAsRecorded_of_spares {s s' : State} {p : ℕ × Action} {w : Writer} {u : UnitOfWork}
    (hstep : step lower s p = some s') (hwritten : written lower s p = some (w, u))
    (hshared : s'.shared = s.shared.write u) (hspares : s.shared.Spares id u)
    (hretry : w.retries id = false) (hrollback : w.rollsBack id = false) :
    MovesAsRecorded lower id s s' p := by
  have hretries : retries lower id (s, p) = false := by
    rw [retries, hwritten, Option.any_some, hretry]
  have hrolls : rollsBack lower id (s, p) = false := by
    rw [rollsBack, hwritten, Option.any_some, hrollback]
  -- A move is of a stored row.
  have hnot : ∀ before after : DeploymentStatus,
      (∀ d, s.shared.deployments.get? id = some d → d.status = before →
        (u.onDeployment d).status ≠ after) → moves lower id before after (s, p) = false := by
    intro before after hrow
    refine moves_eq_false hstep fun hbefore hafter => ?_
    obtain ⟨d, hd, hstatus⟩ := Option.map_eq_some_iff.mp hbefore
    rw [hshared, statusOf_write u hd] at hafter
    exact hrow d hd hstatus (Option.some.inj hafter)
  have hcount : ∀ event, (event = "retry_requested" ∨ event = "rolled_back") →
      s'.shared.recorded id event = s.shared.recorded id event := by
    intro event hevent
    rw [hshared]
    refine Db.countP_deploymentEvents_write fun x hx n => ?_
    rw [Bool.and_eq_false_iff, decide_eq_false_iff_not, decide_eq_false_iff_not]
    by_contra hboth
    push Not at hboth
    obtain ⟨hr, hb⟩ := hspares.events x hx n hboth.1
    rcases hevent with rfl | rfl
    · exact hr hboth.2
    · exact hb hboth.2
  refine ⟨?_, ?_, ?_, ?_⟩
  · rw [hnot _ _ hspares.retry, hretries]
  · rw [hnot _ _ hspares.rollback, hrolls]
  · rw [hcount _ (Or.inl rfl), hretries]
    rfl
  · rw [hcount _ (Or.inr rfl), hrolls]
    rfl

/-- The one event of an update is counted under its own name. -/
theorem recorded_write {db : Db} {dirty : List DirtyDeployment} {d : Deployment}
    {name event : String} {message actor : Option String} (hd : d.id = id) :
    (db.write (.updateDeployments dirty [recordEvent d name message actor])).recorded id event =
      db.recorded id event + if name = event then 1 else 0 := by
  have hrows : (db.write (.updateDeployments dirty [recordEvent d name message actor])).recorded id
      event = (db.deploymentEvents.insert (recordEvent d name message actor)).rows.countP
        fun e => e.deploymentId = id && e.event = event := rfl
  rw [hrows, Table.countP_insert]
  simp [recordEvent, hd, Db.recorded]

/-- What a call has staged for one deployment: a status for its row, and an event. -/
structure UnitOfWork.Sets (u : UnitOfWork) (id : Uuid) (status : DeploymentStatus)
    (name : String) : Prop where
  /-- The row of the deployment goes into the status, whatever it was by then. -/
  row : ∀ d : Deployment, d.id = id → (u.onDeployment d).status = status
  /-- The other rows stay as they are. -/
  others : ∀ d : Deployment, d.id ≠ id → u.onDeployment d = d
  /-- The event is counted under its name. -/
  events : ∀ (db : Db) (event : String), (db.write u).recorded id event =
    db.recorded id event + if name = event then 1 else 0

/-- An update of one row that assigns another status than it has loaded. -/
theorem sets_of_update {d assigned : Deployment} {name : String} {message actor : Option String}
    (hd : d.id = id) (hassigned : assigned.id = id) (hne : assigned.status ≠ d.status) :
    (UnitOfWork.updateDeployments [⟨d, assigned⟩]
      [recordEvent assigned name message actor]).Sets id assigned.status name := by
  refine ⟨fun e he => ?_, fun e he => ?_, fun db event => recorded_write hassigned⟩
  · rw [UnitOfWork.onDeployment, UnitOfWork.dirtyFor_single, if_pos (hd.trans he.symm)]
    exact if_neg hne
  · apply UnitOfWork.onDeployment_of_dirtyFor
    rw [UnitOfWork.dirtyFor_single, if_neg fun hid => he (hid.symm.trans hd)]

/-- A retry has staged REQUESTED for the deployment. -/
theorem sets_of_retry {db : Db} {actorId : Uuid} {u : UnitOfWork}
    (h : retryDeployment db actorId id = .ok u) :
    (∃ d, db.deployments.get? id = some d) ∧ u.Sets id .requested "retry_requested" := by
  obtain ⟨d, hd, hs, rfl⟩ := retryDeployment_eq_ok.mp h
  have hid := (Table.get?_eq_some.mp hd).2
  exact ⟨⟨d, hd⟩, sets_of_update hid hid (by simp [hs])⟩

/-- A rollback has staged ROLLED_BACK for the deployment. -/
theorem sets_of_rollback {db : Db} {actorId : Uuid} {u : UnitOfWork}
    (h : rollbackDeployment db actorId id = .ok u) :
    (∃ d, db.deployments.get? id = some d) ∧ u.Sets id .rolledBack "rolled_back" := by
  obtain ⟨d, t, hd, hs, ht, rfl⟩ := rollbackDeployment_eq_ok.mp h
  have hid := (Table.get?_eq_some.mp hd).2
  exact ⟨⟨d, hd⟩, sets_of_update hid hid (by simp [hs])⟩

/-- A retry has read a FAILED row. -/
theorem loaded_of_retry {db : Db} {actorId : Uuid} {u : UnitOfWork}
    (h : retryDeployment db actorId id = .ok u) :
    ∃ x, u.dirtyFor id = some x ∧ x.loaded.status = .failed := by
  obtain ⟨d, hd, hs, rfl⟩ := retryDeployment_eq_ok.mp h
  rw [UnitOfWork.dirtyFor_single, if_pos (Table.get?_eq_some.mp hd).2]
  exact ⟨_, rfl, hs⟩

/-- A rollback has read a SUCCEEDED row. -/
theorem loaded_of_rollback {db : Db} {actorId : Uuid} {u : UnitOfWork}
    (h : rollbackDeployment db actorId id = .ok u) :
    ∃ x, u.dirtyFor id = some x ∧ x.loaded.status = .succeeded := by
  obtain ⟨d, t, hd, hs, -, rfl⟩ := rollbackDeployment_eq_ok.mp h
  rw [UnitOfWork.dirtyFor_single, if_pos (Table.get?_eq_some.mp hd).2]
  exact ⟨_, rfl, hs⟩

/-- The index refuses to re-queue a deployment beside one that is in flight. -/
theorem Db.Contended.rejects {db : Db} {d : Deployment} {u : UnitOfWork} {name : String}
    (h : db.Contended d) (hd : d ∈ db.deployments) (hu : u.Sets d.id .requested name) :
    ¬(db.write u).Constraints := by
  rintro ⟨-, -, -, hactive⟩
  obtain ⟨e, he, hne, hflight, hmodel, henvironment⟩ := h
  have hkept := Db.onDeployment_mem_write u he
  rw [hu.others e hne] at hkept
  obtain ⟨hm, -, henv⟩ := u.onDeployment_frame d
  have hsame := Db.uniqueActiveDeployment_iff.mp hactive _ (Db.onDeployment_mem_write u hd) e hkept
    (by simp [Deployment.inFlight, hu.row d rfl]) hflight (hm.trans hmodel.symm)
    (henv.trans henvironment.symm)
  exact hne (by rw [← hsame, u.onDeployment_id])

/-- What a step moves whose commit sets the status of a stored deployment. -/
theorem moves_of_sets {s s' : State} {p : ℕ × Action} {u : UnitOfWork} {d : Deployment}
    {status : DeploymentStatus} {name : String} (hstep : step lower s p = some s')
    (hshared : s'.shared = s.shared.write u) (hu : u.Sets id status name)
    (hd : s.shared.deployments.get? id = some d) (before after : DeploymentStatus) :
    moves lower id before after (s, p) =
      (decide (d.status = before) && decide (status = after)) := by
  have hbefore : s.shared.statusOf id = some d.status := by
    rw [Db.statusOf, hd]
    rfl
  rw [moves_of_step hstep, hshared, statusOf_write u hd, hbefore,
    hu.row d (Table.get?_eq_some.mp hd).2]
  simp only [Option.some.injEq]

/-- A retry that is written on a FAILED row makes the move that it records. -/
theorem movesAsRecorded_of_retry {s s' : State} {i : ℕ} {a : Action} {actorId : Uuid}
    {u : UnitOfWork} {d : Deployment} (hstep : step lower s (i, a) = some s')
    (hwritten : written lower s (i, a) = some (.api (.retryDeployment actorId id), u))
    (hsets : u.Sets id .requested "retry_requested") (hd : s.shared.deployments.get? id = some d)
    (hfailed : d.status = .failed) : MovesAsRecorded lower id s s' (i, a) := by
  have hshared := shared_of_written hstep hwritten
  have hmoves := moves_of_sets hstep hshared hsets hd
  have hretry : retries lower id (s, (i, a)) = true := by
    rw [retries, hwritten, Option.any_some, Writer.retries]
    exact decide_eq_true rfl
  have hrollback : rollsBack lower id (s, (i, a)) = false := by
    rw [rollsBack, hwritten]
    rfl
  refine ⟨?_, ?_, ?_, ?_⟩
  · rw [hmoves, hfailed, hretry]
    rfl
  · rw [hmoves, hfailed, hrollback]
    rfl
  · rw [hretry, hshared]
    exact hsets.events _ _
  · rw [hrollback, hshared]
    exact hsets.events _ _

/-- A rollback that is written on a SUCCEEDED row makes the move that it records. -/
theorem movesAsRecorded_of_rollback {s s' : State} {i : ℕ} {a : Action} {actorId : Uuid}
    {u : UnitOfWork} {d : Deployment} (hstep : step lower s (i, a) = some s')
    (hwritten : written lower s (i, a) = some (.api (.rollbackDeployment actorId id), u))
    (hsets : u.Sets id .rolledBack "rolled_back") (hd : s.shared.deployments.get? id = some d)
    (hsucceeded : d.status = .succeeded) : MovesAsRecorded lower id s s' (i, a) := by
  have hshared := shared_of_written hstep hwritten
  have hmoves := moves_of_sets hstep hshared hsets hd
  have hretry : retries lower id (s, (i, a)) = false := by
    rw [retries, hwritten]
    rfl
  have hrollback : rollsBack lower id (s, (i, a)) = true := by
    rw [rollsBack, hwritten, Option.any_some, Writer.rollsBack]
    exact decide_eq_true rfl
  refine ⟨?_, ?_, ?_, ?_⟩
  · rw [hmoves, hsucceeded, hretry]
    rfl
  · rw [hmoves, hsucceeded, hrollback]
    rfl
  · rw [hretry, hshared]
    exact hsets.events _ _
  · rw [hrollback, hshared]
    exact hsets.events _ _

/-- A step of a run in which no retry or rollback of a deployment is late moves what it records. -/
theorem movesAsRecorded_of_step {s s' : State} {i : ℕ} {a : Action}
    (h : Reach (step lower) AtomicReaper .init s) (hok : UndisturbedSteps lower id s (i, a))
    (hstep : step lower s (i, a) = some s') : MovesAsRecorded lower id s s' (i, a) := by
  rcases step_cases hstep with ⟨l, hwritten, -, rfl⟩ | ⟨w, u, l, hwritten, -, rfl⟩
  · exact movesAsRecorded_of_none hstep hwritten rfl
  · obtain ⟨hcom, hcons⟩ := written_eq_some.mp hwritten
    have hlate := hok.2 (w, u) hcom
    have hheld := (reach_stagedBefore h).committed hcom
    have hspares : s.shared.Spares id u → w.retries id = false → w.rollsBack id = false →
        MovesAsRecorded lower id s _ (i, a) := movesAsRecorded_of_spares hstep hwritten rfl
    cases w with
    | worker =>
      rcases hheld with (⟨d, rfl⟩ | ⟨db₀, hstaged⟩) | hreads
      · exact hspares spares_of_validation rfl rfl
      · exact hspares (spares_of_worker hstaged) rfl rfl
      · exact hspares (spares_of_worker hreads.staged) rfl rfl
    | reaper =>
      rcases hheld with hfalse | hreads
      · exact hfalse.elim
      · cases hreads.staged with
        | reap hr => exact hspares (spares_of_reaper hr) rfl rfl
    | api call =>
      obtain ⟨db₀, hreturns, hkeeps⟩ := returns_of_committed h hcom
      cases hretry : (Writer.api call).retries id with
      | true =>
        obtain ⟨actorId, rfl⟩ := Writer.retries_eq_true hretry
        obtain ⟨⟨d₀, hd₀⟩, hsets⟩ := sets_of_retry hreturns
        obtain ⟨d, hd⟩ := hkeeps id d₀ hd₀
        obtain ⟨hmem, hid⟩ := Table.get?_eq_some.mp hd
        obtain ⟨x, hx, hloaded⟩ := loaded_of_retry hreturns
        have hfailed : d.status = .failed := by
          rw [← hloaded]
          refine (hlate (Or.inl hretry) x hx d hmem hid).resolve_right fun hcontended => ?_
          rw [← hid] at hsets
          exact hcontended.2.rejects hmem hsets hcons
        exact movesAsRecorded_of_retry hstep hwritten hsets hd hfailed
      | false =>
        cases hrollback : (Writer.api call).rollsBack id with
        | true =>
          obtain ⟨actorId, rfl⟩ := Writer.rollsBack_eq_true hrollback
          obtain ⟨⟨d₀, hd₀⟩, hsets⟩ := sets_of_rollback hreturns
          obtain ⟨d, hd⟩ := hkeeps id d₀ hd₀
          obtain ⟨hmem, hid⟩ := Table.get?_eq_some.mp hd
          obtain ⟨x, hx, hloaded⟩ := loaded_of_rollback hreturns
          have hsucceeded : d.status = .succeeded := by
            rw [← hloaded]
            refine (hlate (Or.inr hrollback) x hx d hmem hid).resolve_right fun hcontended => ?_
            exact absurd (hretry.symm.trans hcontended.1) Bool.false_ne_true
          exact movesAsRecorded_of_rollback hstep hwritten hsets hd hsucceeded
        | false => exact hspares (spares_of_call hreturns hretry hrollback) hretry hrollback

/-! ## Late calls -/

/-- The constraints accept a rollback, whatever has become of the row. -/
theorem rollback_accepted {db db₀ : Db} (hcons : db.Constraints) {actorId : Uuid} {u : UnitOfWork}
    (h : rollbackDeployment db₀ actorId id = .ok u) : (db.write u).Constraints := by
  obtain ⟨-, hsets⟩ := sets_of_rollback h
  obtain ⟨d₀, t, -, -, -, rfl⟩ := rollbackDeployment_eq_ok.mp h
  refine constraints_updateDeployments hcons fun d _ hflight => ?_
  by_cases hid : d.id = id
  · rw [Deployment.inFlight, hsets.row d hid] at hflight
    exact absurd hflight (by decide)
  · rwa [hsets.others d hid] at hflight

/-- The constraints accept a retry, unless another deployment of the model is in flight in the
environment. -/
theorem retry_accepted {db db₀ : Db} (hcons : db.Constraints) {actorId : Uuid} {u : UnitOfWork}
    (h : retryDeployment db₀ actorId id = .ok u) {d : Deployment} (hd : d ∈ db.deployments)
    (hid : d.id = id) (hfree : ¬db.Contended d) : (db.write u).Constraints := by
  obtain ⟨-, hsets⟩ := sets_of_retry h
  have hupdates : ∃ dirty events, u = .updateDeployments dirty events := by
    obtain ⟨d₀, -, -, rfl⟩ := retryDeployment_eq_ok.mp h
    exact ⟨_, _, rfl⟩
  obtain ⟨dirty, events, rfl⟩ := hupdates
  refine constraints_of_uniqueActive hcons (Db.uniqueActiveDeployment_iff.mpr ?_)
  -- Only the row of the deployment comes into flight, and no other one is in its way.
  have hother : ∀ e ∈ db.deployments, e.id ≠ id → ∀ e' ∈ db.deployments, e'.id = id →
      e.inFlight = true → e.modelId = e'.modelId → e.environment ≠ e'.environment := by
    intro e he hne e' he' hid' hflight hmodel henvironment
    obtain rfl := db.deployments.eq_of_key_eq he' hd (hid'.trans hid.symm)
    exact hfree ⟨e, he, by rwa [hid], hflight, hmodel, henvironment⟩
  intro a' ha' b' hb' hfa hfb hm henv
  obtain ⟨a, ha, rfl⟩ := Db.mem_deployments_update.mp ha'
  obtain ⟨b, hb, rfl⟩ := Db.mem_deployments_update.mp hb'
  obtain ⟨hma, -, hea⟩ := UnitOfWork.onDeployment_frame (.updateDeployments dirty events) a
  obtain ⟨hmb, -, heb⟩ := UnitOfWork.onDeployment_frame (.updateDeployments dirty events) b
  rw [hma, hmb] at hm
  rw [hea, heb] at henv
  by_cases haid : a.id = id
  · by_cases hbid : b.id = id
    · rw [db.deployments.eq_of_key_eq ha hb (haid.trans hbid.symm)]
    · rw [hsets.others b hbid] at hfb
      exact absurd henv.symm (hother b hb hbid a ha haid hfb hm.symm)
  · rw [hsets.others a haid] at hfa
    by_cases hbid : b.id = id
    · exact absurd henv (hother a ha haid b hb hbid hfa hm)
    · rw [hsets.others b hbid] at hfb
      rw [Db.uniqueActiveDeployment_iff.mp hcons.2.2.2 a ha b hb hfa hfb hm henv]

/-- A step moves what it records if and only if it is not a late retry or rollback. -/
theorem movesAsRecorded_iff {s s' : State} {i : ℕ} {a : Action}
    (h : Reach (step lower) AtomicReaper .init s) (hok : AtomicReaper s (i, a))
    (hstep : step lower s (i, a) = some s') :
    MovesAsRecorded lower id s s' (i, a) ↔ CommitMeets lower (Undisturbed id) s (i, a) := by
  refine ⟨fun hmoves => ?_, fun hmeets => movesAsRecorded_of_step h ⟨hok, hmeets⟩ hstep⟩
  rintro ⟨w, u⟩ hcom hwhich x hx d hd hid
  have hcons := reach_constraints h
  cases w with
  | api call =>
    obtain ⟨db₀, hreturns, -⟩ := returns_of_committed h hcom
    by_contra hlate
    push Not at hlate
    rcases hwhich with hretry | hrollback
    · obtain ⟨actorId, rfl⟩ := Writer.retries_eq_true hretry
      obtain ⟨x', hx', hloaded⟩ := loaded_of_retry hreturns
      obtain rfl := Option.some.inj (hx.symm.trans hx')
      rw [hloaded] at hlate
      -- The late retry is accepted, and it moves the row from another status.
      have haccepted := retry_accepted hcons hreturns hd hid (hlate.2 hretry)
      have hwritten := written_eq_some.mpr ⟨hcom, haccepted⟩
      have hmove := hmoves.retry
      rw [moves_of_sets hstep (step_of_accepted hstep hcom haccepted) (sets_of_retry hreturns).2
        (Table.get?_eq_some.mpr ⟨hd, hid⟩), retries, hwritten, Option.any_some, hretry,
        decide_eq_false hlate.1] at hmove
      exact absurd hmove (by decide)
    · obtain ⟨actorId, rfl⟩ := Writer.rollsBack_eq_true hrollback
      obtain ⟨x', hx', hloaded⟩ := loaded_of_rollback hreturns
      obtain rfl := Option.some.inj (hx.symm.trans hx')
      rw [hloaded] at hlate
      have haccepted := rollback_accepted hcons hreturns
      have hwritten := written_eq_some.mpr ⟨hcom, haccepted⟩
      have hmove := hmoves.rollback
      rw [moves_of_sets hstep (step_of_accepted hstep hcom haccepted) (sets_of_rollback hreturns).2
        (Table.get?_eq_some.mpr ⟨hd, hid⟩), rollsBack, hwritten, Option.any_some, hrollback,
        decide_eq_false hlate.1] at hmove
      exact absurd hmove (by decide)
  | _ => exact absurd hwhich (by simp [Writer.retries, Writer.rollsBack])

/-- A retry or a rollback that ends with its reads, on a stored deployment, raises a
`ConflictError`. -/
theorem conflict_of_readAnswer {db : Db} {call : Call} {ans : Answer} {d : Deployment}
    (hwhich : (Writer.api call).retries id = true ∨ (Writer.api call).rollsBack id = true)
    (hd : db.deployments.get? id = some d) (hans : call.readAnswer lower db = some ans) :
    ∃ message, ans = .raised (.conflictError message) := by
  rcases hwhich with hretry | hrollback
  · obtain ⟨actorId, rfl⟩ := Writer.retries_eq_true hretry
    simp only [Call.readAnswer, Call.stage, retryDeployment, getDeployment_eq_ok.mpr hd, bind,
      Except.bind] at hans
    split_ifs at hans
    · exact ⟨_, (Option.some.inj hans).symm⟩
    · exact absurd hans (by simp [Except.map])
  · obtain ⟨actorId, rfl⟩ := Writer.rollsBack_eq_true hrollback
    simp only [Call.readAnswer, Call.stage, rollbackDeployment, getDeployment_eq_ok.mpr hd, bind,
      Except.bind] at hans
    split_ifs at hans
    · exact ⟨_, (Option.some.inj hans).symm⟩
    · cases ht : rollbackTarget db d with
      | none =>
        rw [ht] at hans
        exact ⟨_, (Option.some.inj hans).symm⟩
      | some t =>
        rw [ht] at hans
        exact absurd hans (by simp [Except.map])

/-- A retry or a rollback of a stored deployment has written its move, or it raises a
`ConflictError` and changes nothing. -/
theorem refused_of_answer {s s' : State} {i : ℕ} {a : Action} {call : Call} {ans : Answer}
    (h : Reach (step lower) AtomicReaper .init s) (hstep : step lower s (i, a) = some s')
    (hcall : calling s (i, a) = some call)
    (hwhich : (Writer.api call).retries id = true ∨ (Writer.api call).rollsBack id = true)
    (hans : answer lower s (i, a) = some ans) {d : Deployment}
    (hd : s.shared.deployments.get? id = some d) :
    (ans = .returned ∧ (retries lower id (s, (i, a)) = true ∨
        rollsBack lower id (s, (i, a)) = true)) ∨
      ((∃ message, ans = .raised (.conflictError message)) ∧ s'.shared = s.shared) := by
  have hunchanged : written lower s (i, a) = none → s'.shared = s.shared :=
    shared_of_written_eq_none hstep
  rcases answer_cases hcall hans with ⟨hread, hcom⟩ | ⟨u, hcom, hcommit⟩
  · exact Or.inr ⟨conflict_of_readAnswer hwhich hd hread, hunchanged (by simp [written, hcom])⟩
  · obtain ⟨db₀, hreturns, -⟩ := returns_of_committed h hcom
    by_cases haccepted : (s.shared.write u).Constraints
    · have hwritten : written lower s (i, a) = some (.api call, u) :=
        written_eq_some.mpr ⟨hcom, haccepted⟩
      refine Or.inl ⟨?_, ?_⟩
      · rw [← hcommit]
        rcases hwhich with hretry | hrollback
        · obtain ⟨actorId, rfl⟩ := Writer.retries_eq_true hretry
          obtain ⟨d₀, -, -, rfl⟩ := retryDeployment_eq_ok.mp hreturns
          simp only [Call.commitAnswer, Db.commit, haccepted, if_true]
        · obtain ⟨actorId, rfl⟩ := Writer.rollsBack_eq_true hrollback
          obtain ⟨d₀, t, -, -, -, rfl⟩ := rollbackDeployment_eq_ok.mp hreturns
          simp only [Call.commitAnswer, Db.commit, haccepted, if_true]
      · simpa only [retries, rollsBack, hwritten, Option.any_some] using hwhich
    · refine Or.inr ⟨?_, hunchanged (by simp [written, hcom, haccepted])⟩
      rcases hwhich with hretry | hrollback
      · obtain ⟨actorId, rfl⟩ := Writer.retries_eq_true hretry
        obtain ⟨d₀, -, -, rfl⟩ := retryDeployment_eq_ok.mp hreturns
        simp only [Call.commitAnswer, Db.commit, haccepted, if_false, Call.rejected] at hcommit
        exact ⟨_, hcommit.symm⟩
      · obtain ⟨actorId, rfl⟩ := Writer.rollsBack_eq_true hrollback
        exact absurd (rollback_accepted (reach_constraints h) hreturns) haccepted

/-- The retries and rollbacks of a deployment in a run take effect once. -/
structure TakeEffectOnce (lower : String → String) (id : Uuid)
    (steps : List (State × (ℕ × Action))) (s : State) : Prop where
  /-- A move from FAILED to REQUESTED is that of a retry, and one from SUCCEEDED to ROLLED_BACK that
  of a rollback. -/
  moved : ∀ x ∈ steps, moves lower id .failed .requested x = retries lower id x ∧
    moves lower id .succeeded .rolledBack x = rollsBack lower id x
  retryEvents : s.shared.recorded id "retry_requested" =
    steps.countP (moves lower id .failed .requested)
  rollbackEvents : s.shared.recorded id "rolled_back" =
    steps.countP (moves lower id .succeeded .rolledBack)
  /-- A retry or a rollback has made such a move, or it raises a `ConflictError` and changes
  nothing. -/
  refused : ∀ t i a t' call ans d, (t, (i, a)) ∈ steps → step lower t (i, a) = some t' →
    calling t (i, a) = some call →
    ((Writer.api call).retries id = true ∨ (Writer.api call).rollsBack id = true) →
    answer lower t (i, a) = some ans → t.shared.deployments.get? id = some d →
    (ans = .returned ∧ (moves lower id .failed .requested (t, (i, a)) = true ∨
        moves lower id .succeeded .rolledBack (t, (i, a)) = true)) ∨
      ((∃ message, ans = .raised (.conflictError message)) ∧ t'.shared = t.shared)
  /-- The next step moves what it records exactly if it is not a late retry or rollback. -/
  next : ∀ i a s', AtomicReaper s (i, a) → step lower s (i, a) = some s' →
    (MovesAsRecorded lower id s s' (i, a) ↔ CommitMeets lower (Undisturbed id) s (i, a))

/-- Retries and rollbacks take effect once as far as none is late. In every run of calls, workers,
and atomic reapers in which no retry or rollback of a deployment is late, however their reads and
commits interleave, every move from FAILED to REQUESTED is that of one retry and every move from
SUCCEEDED to ROLLED_BACK that of one rollback, and their events are as many as the moves. Every
other retry or rollback of the stored deployment raises a `ConflictError` and changes nothing. The
next step moves what it records if and only if it is not a late retry or rollback either. -/
theorem retries_of_trace {s : State} {steps : List (State × (ℕ × Action))}
    (h : Trace (step lower) (UndisturbedSteps lower id) .init steps s) :
    TakeEffectOnce lower id steps s := by
  have hatomic : ∀ {t : State}, Reach (step lower) (UndisturbedSteps lower id) .init t →
      Reach (step lower) AtomicReaper .init t := fun ht => ht.mono fun _ _ hok => hok.1
  have hrecorded : ∀ x ∈ steps, ∃ t', step lower x.1 x.2 = some t' ∧
      MovesAsRecorded lower id x.1 t' x.2 := by
    rintro ⟨t, i, a⟩ hx
    obtain ⟨ht, hok, t', hstep, -⟩ := h.of_mem hx
    exact ⟨t', hstep, movesAsRecorded_of_step (hatomic ht) hok hstep⟩
  refine ⟨fun x hx => ?_, ?_, ?_, ?_, ?_⟩
  · obtain ⟨t', -, hmoves⟩ := hrecorded x hx
    exact ⟨hmoves.retry, hmoves.rollback⟩
  · refine h.countP_eq (f := fun s => s.shared.recorded id "retry_requested") rfl ?_
    rintro t ⟨i, a⟩ t' ht hok hstep
    have hmoves := movesAsRecorded_of_step (hatomic ht) hok hstep
    rw [hmoves.retry]
    exact hmoves.retryEvents
  · refine h.countP_eq (f := fun s => s.shared.recorded id "rolled_back") rfl ?_
    rintro t ⟨i, a⟩ t' ht hok hstep
    have hmoves := movesAsRecorded_of_step (hatomic ht) hok hstep
    rw [hmoves.rollback]
    exact hmoves.rollbackEvents
  · intro t i a t' call ans d hx hstep hcall hwhich hans hd
    obtain ⟨ht, hok, -⟩ := h.of_mem hx
    have hmoves := movesAsRecorded_of_step (hatomic ht) hok hstep
    rw [hmoves.retry, hmoves.rollback]
    exact refused_of_answer (hatomic ht) hstep hcall hwhich hans hd
  · intro i a s' hok hstep
    exact movesAsRecorded_iff (hatomic h.reach) hok hstep

end

/-- A job fails, and a call is to retry it. -/
def failedJob : List (ℕ × Action) :=
  registration ++ [(0, request 1 .development true)] ++ executeJob 1 "a" 10 ++
    [(5, .start (.retryDeployment 9 1))]

/-- The call of `failedJob` commits, and a second retry reads. -/
def retriedInTurn : List (ℕ × Action) :=
  failedJob ++ [(5, .commit), (6, .start (.retryDeployment 9 1))]

/-- A second retry reads before the call of `failedJob` commits, and a worker then claims the job
again. -/
def overlappingRetries : List (ℕ × Action) :=
  failedJob ++ [(6, .start (.retryDeployment 9 1)), (5, .commit), (1, .claim "b" 20 []),
    (1, .commit), (1, .work)]

/-- The retries of `retriedInTurn`. -/
theorem retries_of_trace_inTurn :
    ∃ steps s, Trace (step id) (UndisturbedSteps id 1) .init steps s ∧
      s.shared.statusOf 1 = some .requested ∧
      TakeEffectOnce id 1 steps s := by
  have htrace := exec_trace (step id) (UndisturbedSteps id 1) .init retriedInTurn
  exact ⟨_, _, htrace, by decide, retries_of_trace htrace⟩

/-- The second retry of `overlappingRetries` commits while the worker deploys the job: it takes the
job away from the worker, and the timeline shows two retries where the job has been retried
once. -/
theorem late_retry_requeues :
    ∃ steps s s', Trace (step id) AtomicReaper .init steps s ∧
      step id s (6, .commit) = some s' ∧
      s.shared.statusOf 1 = some .deploying ∧ s'.shared.statusOf 1 = some .requested ∧
      answer id s (6, .commit) = some .returned ∧
      s'.shared.recorded 1 "retry_requested" = 2 ∧
      (steps ++ [(s, (6, Action.commit))]).countP (moves id 1 .failed .requested) = 1 := by
  have htrace := exec_trace (step id) AtomicReaper .init overlappingRetries
  have hcommit : ((step id (exec (step id) AtomicReaper .init overlappingRetries)
      (6, .commit)).map fun s' => (s'.shared.statusOf 1, s'.shared.recorded 1 "retry_requested")) =
        some (some .requested, 2) := by decide
  obtain ⟨s', hs', hafter⟩ := Option.map_eq_some_iff.mp hcommit
  obtain ⟨hstatus, hrecorded⟩ := Prod.mk.inj hafter
  exact ⟨_, _, s', htrace, hs', by decide, hstatus, rfl, hrecorded, by decide⟩

end MlopsPlatform
