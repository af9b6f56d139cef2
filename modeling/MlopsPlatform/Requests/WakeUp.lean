import MlopsPlatform.Statements
import MlopsPlatform.Atomic

/-!
# The signal that wakes the workers

A request and a retry go on after the commit that puts their deployment in the queue: they refresh
the object, and call `queue.notify`, which on PostgreSQL takes two more statements. Neither service
catches what these raise. So the signal is best-effort only as long as nothing fails: an exception
of `NOTIFY` or of its commit reaches a caller whose deployment is already in the queue.
-/

namespace MlopsPlatform

open Transition

/-! ## `queue.notify` and the services that call it -/

/-- How the two statements of `notify` end. -/
structure Signal (E : Type) where
  /-- `db.execute(text("NOTIFY deployments_new"))`. -/
  execute : Except E Unit
  /-- `db.commit()`. -/
  commit : Except E Unit

/-- Neither statement raises. -/
def Signal.Delivered {E : Type} (signal : Signal E) : Prop :=
  signal.execute = .ok () ∧ signal.commit = .ok ()

/-- Signal workers that new work exists (PostgreSQL only, nothing otherwise). -/
def notify {E : Type} (postgresql : Bool) (signal : Signal E) : Except E Unit :=
  if !postgresql then .ok ()
  else do
    signal.execute
    signal.commit

/-- What leaves a request or a retry. -/
inductive CallError (E : Type)
  /-- An exception of the statements until the object is refreshed. -/
  | raised (e : Raised)
  /-- An exception of a statement of `notify`. -/
  | signal (e : E)

/-- The deployment that the commit of a request or of a retry puts in the queue. -/
def UnitOfWork.queued (db : Db) : UnitOfWork → Option Uuid
  | insertDeployment _ _ => some db.deployments.next
  | updateDeployments (x :: _) _ => some x.loaded.id
  | _ => none

/-- `db.refresh(deployment)`. -/
def refreshed {E : Type} (db : Db) (deploymentId : Option Uuid) :
    Except (CallError E) Deployment :=
  match deploymentId.bind db.deployments.get? with
  | some deployment => .ok deployment
  | none => .error (.raised .objectDeleted)

/-- What `request_deployment` and `retry_deployment` do once their commit has succeeded. -/
def afterEnqueue {E : Type} (postgresql : Bool) (signal : Signal E) (db : Db)
    (deploymentId : Option Uuid) : Except (CallError E) Deployment := do
  let deployment ← refreshed db deploymentId
  (notify postgresql signal).mapError .signal
  return deployment

/-- What the caller of a request or of a retry receives, if the call answers in a step of its
session. What it does after its commit finds the database as it is `later`. -/
def received {E : Type} (lower : String → String) (postgresql : Bool) (signal : Signal E)
    (s : State) (p : ℕ × Action) (later : Db) : Option (Except (CallError E) Deployment) :=
  (answer lower s p).map fun ans =>
    match ans with
    | .raised e => .error (.raised (.domainError e))
    | .integrityError => .error (.raised .integrityError)
    -- The key of the request is stored. Nothing is committed, and nobody is signalled.
    | .requested deployment false => .ok deployment
    | _ => afterEnqueue postgresql signal later
        ((committed lower s.shared (s.locals p.1) p.2).bind fun x => x.2.queued s.shared)

/-- The call is a request or a retry. -/
def Call.enqueues : Call → Bool
  | requestDeployment _ _ _ => true
  | retryDeployment _ _ => true
  | _ => false

/-- The signal is best-effort: what happens to it does not decide what the caller receives. -/
structure BestEffort {E : Type} (lower : String → String) (s s' later : State) (p : ℕ × Action)
    (r : Except (CallError E) Deployment) : Prop where
  /-- If the commit has succeeded, then its deployment is REQUESTED, and the caller receives it. -/
  returned : ∀ w u, written lower s p = some (w, u) →
    ∃ d queued, r = .ok d ∧ d ∈ later.shared.deployments ∧ u.queued s.shared = some d.id ∧
      s'.shared.deployments.get? d.id = some queued ∧ queued.status = .requested
  /-- The caller receives an error only if nothing was enqueued. -/
  error : ∀ e, r = .error e → s'.shared = s.shared

/-! ## What the services do after their commit -/

section

variable {E : Type} {postgresql : Bool} {signal : Signal E}

/-- `notify` raises nothing exactly when it takes no statement or none of them raises. -/
theorem notify_eq_ok : notify postgresql signal = .ok () ↔
    (postgresql = true → signal.Delivered) := by
  unfold notify Signal.Delivered
  cases postgresql with
  | false => simp
  | true =>
    have hunit : ∀ x : Except E Unit, (∃ a, x = .ok a) ↔ x = .ok () := fun x =>
      ⟨fun ⟨_, hx⟩ => hx, fun hx => ⟨(), hx⟩⟩
    simp [bind_eq_ok, hunit]

/-- Another exception changes no success. -/
theorem mapError_eq_ok {ε ε' α : Type} {x : Except ε α} {f : ε → ε'} {a : α} :
    x.mapError f = .ok a ↔ x = .ok a := by
  cases x with
  | error e => simp [Except.mapError]
  | ok b => simp [Except.mapError]

/-- A refresh returns the row. -/
theorem refreshed_eq_ok {db : Db} {deploymentId : Option Uuid} {d : Deployment} :
    (refreshed db deploymentId : Except (CallError E) Deployment) = .ok d ↔
      deploymentId.bind db.deployments.get? = some d := by
  unfold refreshed
  cases deploymentId.bind db.deployments.get? with
  | none => simp
  | some row => simp

/-- After the commit a service returns the row, unless the row is gone or `notify` raises. -/
theorem afterEnqueue_eq_ok {db : Db} {deploymentId : Option Uuid} {d : Deployment} :
    afterEnqueue postgresql signal db deploymentId = .ok d ↔
      deploymentId.bind db.deployments.get? = some d ∧
        (postgresql = true → signal.Delivered) := by
  rw [← notify_eq_ok, ← refreshed_eq_ok (E := E), afterEnqueue, bind_eq_ok]
  constructor
  · rintro ⟨row, hrow, hafter⟩
    obtain ⟨_, hnotify, hreturn⟩ := bind_eq_ok.mp hafter
    obtain rfl := Except.ok.inj hreturn
    exact ⟨hrow, mapError_eq_ok.mp hnotify⟩
  · rintro ⟨hrow, hnotify⟩
    exact ⟨d, hrow, bind_eq_ok.mpr ⟨(), mapError_eq_ok.mpr hnotify, rfl⟩⟩

end

variable {lower : String → String}

/-- A deployment stays in the table, whatever is written. -/
theorem isSome_get?_write {db : Db} {id : Uuid} (u : UnitOfWork)
    (h : (db.deployments.get? id).isSome = true) :
    ((db.write u).deployments.get? id).isSome = true := by
  obtain ⟨d, hd⟩ := Option.isSome_iff_exists.mp h
  rw [Db.get?_deployments_write u hd]
  rfl

/-- A deployment stays in the table in every run. -/
theorem isSome_get?_of_reach {ok : State → ℕ × Action → Prop} {s later : State}
    (h : Reach (step lower) ok s later) {id : Uuid}
    (hid : (s.shared.deployments.get? id).isSome = true) :
    (later.shared.deployments.get? id).isSome = true := by
  refine h.invariant (I := fun s => (s.shared.deployments.get? id).isSome = true) hid ?_
  rintro s ⟨i, a⟩ s' - hs - hstep
  rcases step_cases hstep with ⟨l, -, -, rfl⟩ | ⟨w, u, l, -, -, rfl⟩
  · exact hs
  · exact isSome_get?_write u hs

/-- The deployment that a call updates is in the table when the call reads. -/
theorem Call.Returns.isSome_get? {db : Db} {call : Call} {u : UnitOfWork}
    (h : call.Returns lower db u) {id : Uuid} (hid : (u.dirtyFor id).isSome = true) :
    (db.deployments.get? id).isSome = true := by
  obtain ⟨x, hx⟩ := Option.isSome_iff_exists.mp hid
  cases h.callUpdate hx with
  | retry actorId hd => exact Option.isSome_iff_exists.mpr ⟨_, hd⟩
  | rollback actorId hd => exact Option.isSome_iff_exists.mpr ⟨_, hd⟩

/-- The deployment that a call updates is still in the table when the call commits. -/
theorem isSome_get?_of_committed {ok : State → ℕ × Action → Prop} {s : State}
    (h : Reach (step lower) ok .init s) {i : ℕ} {a : Action} {call : Call} {u : UnitOfWork}
    (hcom : committed lower s.shared (s.locals i) a = some (.api call, u)) {id : Uuid}
    (hid : (u.dirtyFor id).isSome = true) : (s.shared.deployments.get? id).isSome = true := by
  have hheld : s.Holds fun db w u => w.isApi = true → ∀ id, (u.dirtyFor id).isSome = true →
      (db.deployments.get? id).isSome = true := by
    refine (reach_invariant (I := fun _ => True)
      (R := fun db db' => ∀ id, (db.deployments.get? id).isSome = true →
        (db'.deployments.get? id).isSome = true) h trivial (State.init_holds _) ?_ ?_ ?_ ?_ ?_).2
    · exact fun db d hw => absurd hw (by simp [Writer.isApi])
    · intro s i a w u _ _ _ hreads hw id hid
      cases w with
      | api call => exact hreads.returns.isSome_get? hid
      | worker => exact absurd hw (by simp [Writer.isApi])
      | reaper => exact absurd hw (by simp [Writer.isApi])
    · exact fun s i a w u _ _ _ _ _ => ⟨trivial, fun id hid => isSome_get?_write u hid⟩
    · exact fun _ _ hid => hid
    · exact fun db db' w u hR hJ hw id hid => hR id (hJ hw id hid)
  rcases hheld.committed hcom with hstored | hreads
  · exact hstored rfl id hid
  · exact hreads.returns.isSome_get? hid

/-- What a request or a retry commits makes a row of the table REQUESTED. -/
theorem queued_of_committed {ok : State → ℕ × Action → Prop} {s : State}
    (h : Reach (step lower) ok .init s) {i : ℕ} {a : Action} {call : Call} {u : UnitOfWork}
    (hcom : committed lower s.shared (s.locals i) a = some (.api call, u))
    (henqueues : call.enqueues = true) :
    ∃ id queued, u.queued s.shared = some id ∧
      (s.shared.write u).deployments.get? id = some queued ∧ queued.status = .requested := by
  obtain ⟨db, hreturns⟩ := returns_of_reach h hcom
  cases call with
  | requestDeployment actorId correlationId data =>
    obtain ⟨v, deployment, event, -, -, -, rfl, hrow⟩ := requestDeployment_eq_staged hreturns
    have hmem : deployment.1 s.shared.deployments.next ∈ s.shared.deployments.insert deployment :=
      Table.mem_insert.mpr (Or.inr rfl)
    refine ⟨_, _, rfl, Table.get?_eq_some.mpr ⟨hmem, deployment.2 _⟩, ?_⟩
    rw [(hrow _).1]
  | retryDeployment actorId deploymentId =>
    obtain ⟨d, hd, hs, hu⟩ := retryDeployment_eq_ok.mp hreturns
    have hdirty : u.dirtyFor d.id = some ⟨d,
        { d with status := .requested, error := none, workerId := none, lockedAt := none }⟩ := by
      rw [hu, UnitOfWork.dirtyFor_single, if_pos rfl]
    obtain ⟨e, he⟩ := Option.isSome_iff_exists.mp
      (isSome_get?_of_committed h hcom (by rw [hdirty]; rfl))
    obtain ⟨-, hid⟩ := Table.get?_eq_some.mp he
    refine ⟨d.id, _, by rw [hu]; rfl, Db.get?_deployments_write u he, ?_⟩
    -- Whatever has become of the row since the retry has read it as FAILED.
    rw [UnitOfWork.onDeployment_status (by rw [hid]; exact hdirty), hs]
    rfl
  | createModel actorId data => exact absurd henqueues Bool.false_ne_true
  | createVersion actorId correlationId modelId data => exact absurd henqueues Bool.false_ne_true
  | approveVersion actorId correlationId versionId now => exact absurd henqueues Bool.false_ne_true
  | transitionVersion actorId correlationId versionId target =>
    exact absurd henqueues Bool.false_ne_true
  | rollbackDeployment actorId deploymentId => exact absurd henqueues Bool.false_ne_true

/-! ## The caller's answer -/

variable {E : Type} {postgresql : Bool} {signal : Signal E}

/-- A call that has enqueued a deployment answers with what it does after its commit. -/
theorem received_of_written {s : State} {i : ℕ} {a : Action} {call : Call} {u : UnitOfWork}
    {later : Db} (h : written lower s (i, a) = some (.api call, u)) :
    received lower postgresql signal s (i, a) later =
      some (afterEnqueue postgresql signal later (u.queued s.shared)) := by
  obtain ⟨hcom, hcons⟩ := written_eq_some.mp h
  have hcommit : s.shared.commit u = some (s.shared.write u) := Db.commit_eq_some.mpr ⟨hcons, rfl⟩
  have hqueued : ((committed lower s.shared (s.locals i) a).bind fun x => x.2.queued s.shared) =
      u.queued s.shared := by rw [hcom]; rfl
  simp only [received, (answer_of_written h).2, Option.map_some, hqueued, Call.commitAnswer,
    hcommit]
  cases u with
  | insertDeployment deployment event => rfl
  | _ => rfl

/-- The signal is best-effort only while it does not fail. In every run, a request or a retry whose
commit has succeeded returns the deployment that it has put in the queue, and its caller receives no
error for it, exactly when `notify` takes no statement or none of them raises. -/
theorem bestEffort_iff_of_reach {ok ok' : State → ℕ × Action → Prop} {s s' later : State}
    {i : ℕ} {a : Action} {call : Call} {r : Except (CallError E) Deployment}
    (h : Reach (step lower) ok .init s) (hcall : calling s (i, a) = some call)
    (henqueues : call.enqueues = true) (hstep : step lower s (i, a) = some s')
    (hlater : Reach (step lower) ok' s' later)
    (hr : received lower postgresql signal s (i, a) later.shared = some r) :
    BestEffort lower s s' later (i, a) r ↔
      ((written lower s (i, a)).isSome = true → postgresql = true → signal.Delivered) := by
  cases hwritten : written lower s (i, a) with
  | none =>
    refine ⟨fun _ hsome => absurd hsome Bool.false_ne_true, fun _ => ⟨fun w u hsome => ?_, ?_⟩⟩
    · exact absurd (hwritten.symm.trans hsome) (by simp)
    · exact fun _ _ => shared_of_written_eq_none hstep hwritten
  | some x =>
    obtain ⟨w, u⟩ := x
    obtain ⟨hcom, -⟩ := written_eq_some.mp hwritten
    obtain rfl : w = .api call := by
      obtain ⟨ans, hans, -⟩ := Option.map_eq_some_iff.mp hr
      rcases answer_cases hcall hans with ⟨-, hnone⟩ | ⟨v, hsome, -⟩
      · exact absurd (hnone.symm.trans hcom) (by simp)
      · exact (Prod.mk.inj (Option.some.inj (hcom.symm.trans hsome))).1
    have hshared : s'.shared = s.shared.write u := shared_of_written hstep hwritten
    -- The row that was queued is found again by the refresh, whatever has happened since.
    obtain ⟨id, queued, hid, hqueued, hrequested⟩ := queued_of_committed h hcom henqueues
    rw [← hshared] at hqueued
    obtain ⟨d, hd⟩ := Option.isSome_iff_exists.mp
      (isSome_get?_of_reach hlater (Option.isSome_iff_exists.mpr ⟨queued, hqueued⟩))
    obtain ⟨hmem, rfl⟩ := Table.get?_eq_some.mp hd
    have hreceived : r = afterEnqueue postgresql signal later.shared (u.queued s.shared) :=
      Option.some.inj (hr.symm.trans (received_of_written hwritten))
    constructor
    · intro hbest _
      obtain ⟨e, -, he, -⟩ := hbest.returned _ u hwritten
      exact (afterEnqueue_eq_ok.mp (hreceived.symm.trans he)).2
    · intro hgood
      have hok : r = .ok d := by
        rw [hreceived, afterEnqueue_eq_ok, hid]
        exact ⟨hd, hgood rfl⟩
      refine ⟨fun w v hv => ?_, fun e he => absurd (hok.symm.trans he) (by simp)⟩
      obtain ⟨-, rfl⟩ := Prod.mk.inj (Option.some.inj (hwritten.symm.trans hv))
      exact ⟨d, queued, hok, hmem, hid, hqueued, hrequested⟩

/-- The state before a request, in which versions 1 and 2 can be deployed to development. -/
def beforeRequest : State := exec (step id) AtomicSteps .init registration

/-- The state after a request of session 0. -/
def afterRequest : State :=
  exec (step id) AtomicSteps beforeRequest [(0, request 1 .development false)]

/-- The signal is not best-effort: when `NOTIFY` raises, the caller of a request receives the
exception, and the deployment is in the queue. -/
theorem not_bestEffort_of_reach :
    ¬∀ (s s' later : State) (i : ℕ) (a : Action) (call : Call) (postgresql : Bool)
      (signal : Signal String) (r : Except (CallError String) Deployment),
      Reach (step id) AtomicSteps .init s → calling s (i, a) = some call →
      call.enqueues = true → step id s (i, a) = some s' → Reach (step id) AtomicSteps s' later →
      received id postgresql signal s (i, a) later.shared = some r →
      BestEffort id s s' later (i, a) r := by
  intro h
  have hbest := h beforeRequest afterRequest afterRequest 0 (request 1 .development false)
    (.requestDeployment 9 none ⟨1, .development, none, false⟩) true
    ⟨.error "connection lost", .ok ()⟩ (.error (.signal "connection lost"))
    (exec_reach _ _ _ _) rfl rfl rfl .refl rfl
  -- The request has inserted its row all the same.
  have hrows := congrArg (fun db : Db => db.deployments.rows.length) (hbest.error _ rfl)
  revert hrows
  decide

/-- The request of `afterRequest` on PostgreSQL, where nothing fails, and a worker claims the row
before the service refreshes it. -/
theorem bestEffort_iff_of_reach_afterRequest :
    ∃ later r, Reach (step id) AtomicSteps afterRequest later ∧
      later.shared.deployments.rows.map (fun d => d.status) = [.validating] ∧
      received id true (⟨.ok (), .ok ()⟩ : Signal String) beforeRequest
        (0, request 1 .development false) later.shared = some r ∧
      BestEffort id beforeRequest afterRequest later (0, request 1 .development false) r := by
  have hlater := exec_reach (step id) AtomicSteps afterRequest [(1, .claim "a" 10 [])]
  refine ⟨_, _, hlater, by decide, rfl, ?_⟩
  exact (bestEffort_iff_of_reach (exec_reach (step id) AtomicSteps .init registration) rfl rfl rfl
    hlater rfl).mpr fun _ _ => ⟨rfl, rfl⟩

end MlopsPlatform
