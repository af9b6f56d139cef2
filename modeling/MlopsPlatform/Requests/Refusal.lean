import MlopsPlatform.Statements
import MlopsPlatform.Atomic

/-!
# A refused operation leaves no trace

Every way in which one of the six services raises a `DomainError`: its checks raise before anything
is staged, and a handler of an `IntegrityError` raises after the transaction has been rolled back
with all that was staged. So each of them undoes its changes (`Undoes`).
-/

namespace MlopsPlatform

open Transition Transaction

namespace Statements

/-- If the statements raise a domain error, they have undone all changes. -/
def UndoesChanges {α : Type} (Pre : Tx Db Change → Prop) (p : Statements α)
    (Post : α → Tx Db Change → Prop) : Prop :=
  Undoes backend Raised.IsDomainError Pre p Post

/-- The exception of an inactive session is no domain error. -/
theorem not_isDomainError_inactive : ¬backend.inactive.IsDomainError := by
  rintro ⟨e, he⟩
  exact absurd he (by simp [backend])

variable {Pre : Tx Db Change → Prop} {α : Type}

/-- A read of a blank session. -/
theorem undoes_query : UndoesChanges Tx.Blank query fun _ => Tx.Blank :=
  Undoes.query (fun _ _ h => ⟨h.written, h.flushed, h.staged⟩) not_isDomainError_inactive

/-- A check that finds the session blank. -/
theorem undoes_lift (r : Except DomainError α) :
    UndoesChanges Tx.Blank (lift r) fun _ => Tx.Blank := by
  cases r with
  | ok a => exact .pure fun _ h => h
  | error e => exact .raise fun _ h _ => h

/-- An exception that is no domain error. -/
theorem undoes_uncaught {Post : Unit → Tx Db Change → Prop} : UndoesChanges Pre uncaught Post :=
  Undoes.raise fun _ _ he => by
    obtain ⟨e, he⟩ := he
    exact absurd he (by simp)

/-- An object is added, or assigned to, as long as nothing is committed. -/
theorem undoes_stage {f : List Change → List Change} (hpre : ∀ tx, Pre tx → tx.Unwritten) :
    UndoesChanges Pre (stage f) fun _ => Tx.Unwritten := Undoes.stage hpre

/-- After its commit a service raises no domain error. -/
theorem undoes_refresh : UndoesChanges (fun _ => True) refresh fun _ _ => True :=
  Undoes.bind (Undoes.query (fun _ _ h => h) not_isDomainError_inactive) fun _ =>
    .pure fun _ h => h

/-- Nor does the signal to the workers. -/
theorem undoes_notify (postgresql : Bool) :
    UndoesChanges (fun _ => True) (notify postgresql) fun _ _ => True := by
  cases postgresql with
  | true =>
    have hraise : UndoesChanges (fun _ => True) uncaught fun _ _ => True := undoes_uncaught
    exact Undoes.commitExcept not_isDomainError_inactive (fun _ _ h => h) hraise
  | false => exact Undoes.pure fun _ h => h

/-- A commit of what is staged, where the handler finds the transaction rolled back. -/
theorem undoes_commit {handler : Statements Unit}
    (h : UndoesChanges Tx.Blank handler fun _ _ => True) :
    UndoesChanges Tx.Unwritten (commitExcept handler) fun _ _ => True :=
  Undoes.commitExcept not_isDomainError_inactive (fun _ _ h => ⟨h, rfl, rfl⟩) h

/-- The end of the services that do not catch a rejected commit. -/
theorem undoes_commit_refresh : UndoesChanges Tx.Unwritten
    (do commitExcept uncaught; refresh) fun _ _ => True :=
  Undoes.bind (undoes_commit undoes_uncaught) fun _ => undoes_refresh

/-- `create_version`. -/
theorem undoes_createVersion (actorId : Uuid) (correlationId : Option String) (modelId : Uuid)
    (data : ModelVersionCreate) :
    UndoesChanges Tx.Blank (createVersion actorId correlationId modelId data) fun _ _ => True := by
  refine Undoes.bind undoes_query fun db => ?_
  refine Undoes.bind (undoes_lift _) fun _ => ?_
  refine Undoes.bind undoes_query fun db => ?_
  refine Undoes.bind Undoes.raiseIf fun _ => ?_
  refine Undoes.bind (undoes_stage fun _ h => h.written) fun _ => ?_
  refine Undoes.bind (Undoes.flushExcept not_isDomainError_inactive undoes_uncaught) fun _ => ?_
  refine Undoes.bind (undoes_stage fun _ h => h) fun _ => ?_
  exact undoes_commit_refresh

/-- `approve_version`. -/
theorem undoes_approveVersion (actorId : Uuid) (correlationId : Option String) (versionId : Uuid)
    (now : Time) :
    UndoesChanges Tx.Blank (approveVersion actorId correlationId versionId now)
      fun _ _ => True := by
  refine Undoes.bind undoes_query fun db => ?_
  refine Undoes.bind (undoes_lift _) fun version => ?_
  refine Undoes.bind (undoes_lift _) fun _ => ?_
  refine Undoes.bind (undoes_stage fun _ h => h.written) fun _ => ?_
  refine Undoes.bind (undoes_stage fun _ h => h) fun _ => ?_
  refine Undoes.bind (undoes_stage fun _ h => h) fun _ => ?_
  refine Undoes.bind (undoes_stage fun _ h => h) fun _ => ?_
  exact undoes_commit_refresh

/-- `transition_version`. -/
theorem undoes_transitionVersion (actorId : Uuid) (correlationId : Option String)
    (versionId : Uuid) (target : LifecycleStage) :
    UndoesChanges Tx.Blank (transitionVersion actorId correlationId versionId target)
      fun _ _ => True := by
  refine Undoes.bind undoes_query fun db => ?_
  refine Undoes.bind (undoes_lift _) fun version => ?_
  refine Undoes.bind (undoes_lift _) fun _ => ?_
  refine Undoes.bind (undoes_stage fun _ h => h.written) fun _ => ?_
  refine Undoes.bind (undoes_stage fun _ h => h) fun _ => ?_
  exact undoes_commit_refresh

/-- The part of `request_deployment` that inserts. -/
theorem undoes_insertRequested (postgresql : Bool) (actorId : Uuid)
    (correlationId : Option String) (data : DeploymentCreate) :
    UndoesChanges Tx.Blank (insertRequested postgresql actorId correlationId data)
      fun _ _ => True := by
  have hversion : UndoesChanges Tx.Blank (requestedVersion data.modelVersionId)
      fun _ => Tx.Blank := by
    refine Undoes.bind undoes_query fun db => ?_
    split
    · exact .pure fun _ h => h
    · exact .raise fun _ h _ => h
  refine Undoes.bind hversion fun version => ?_
  refine Undoes.bind (undoes_lift _) fun _ => ?_
  refine Undoes.bind (undoes_stage fun _ h => h.written) fun _ => ?_
  -- The handler of the flush raises once it has rolled back.
  refine Undoes.bind (Undoes.flushExcept not_isDomainError_inactive ?_) fun _ => ?_
  · refine Undoes.bind (Undoes.rollback.weaken (fun _ h => h.written) fun _ _ h => h) fun _ => ?_
    exact Undoes.raise fun _ h _ => h
  · refine Undoes.bind (undoes_stage fun _ h => h) fun _ => ?_
    refine Undoes.bind (undoes_commit undoes_uncaught) fun _ => ?_
    exact Undoes.bind undoes_refresh fun _ => undoes_notify postgresql

/-- `request_deployment`. -/
theorem undoes_requestDeployment (postgresql : Bool) (actorId : Uuid)
    (correlationId : Option String) (data : DeploymentCreate) :
    UndoesChanges Tx.Blank (requestDeployment postgresql actorId correlationId data)
      fun _ _ => True := by
  have hkey : UndoesChanges Tx.Blank (findByKey data.idempotencyKey) fun _ => Tx.Blank := by
    unfold findByKey
    split
    · split_ifs
      · exact Undoes.pure fun _ h => h
      · exact Undoes.bind undoes_query fun _ => .pure fun _ h => h
    · exact Undoes.pure fun _ h => h
  refine Undoes.bind hkey fun existing => ?_
  cases existing with
  | some d => exact .pure fun _ _ => trivial
  | none => exact undoes_insertRequested postgresql actorId correlationId data

/-- `retry_deployment`. -/
theorem undoes_retryDeployment (postgresql : Bool) (actorId deploymentId : Uuid) :
    UndoesChanges Tx.Blank (retryDeployment postgresql actorId deploymentId) fun _ _ => True := by
  refine Undoes.bind undoes_query fun db => ?_
  refine Undoes.bind (undoes_lift _) fun deployment => ?_
  refine Undoes.bind Undoes.raiseIf fun _ => ?_
  refine Undoes.bind (undoes_stage fun _ h => h.written) fun _ => ?_
  refine Undoes.bind (undoes_stage fun _ h => h) fun _ => ?_
  refine Undoes.bind (undoes_stage fun _ h => h) fun _ => ?_
  refine Undoes.bind (undoes_stage fun _ h => h) fun _ => ?_
  refine Undoes.bind (undoes_stage fun _ h => h) fun _ => ?_
  refine Undoes.bind (undoes_commit ?_) fun _ => ?_
  · -- The handler reads the row again for its message, after it has rolled back.
    refine Undoes.bind (Undoes.rollback.weaken (fun _ h => h.written) fun _ _ h => h) fun _ => ?_
    have hexpired : UndoesChanges Tx.Blank (expired deployment.id) fun _ => Tx.Blank := by
      refine Undoes.bind undoes_query fun db => ?_
      split
      · exact .pure fun _ h => h
      · exact .raise fun _ h _ => h
    exact Undoes.bind hexpired fun _ => .raise fun _ h _ => h
  · exact Undoes.bind undoes_refresh fun _ => undoes_notify postgresql

/-- `rollback_deployment`. -/
theorem undoes_rollbackDeployment (actorId deploymentId : Uuid) :
    UndoesChanges Tx.Blank (rollbackDeployment actorId deploymentId) fun _ _ => True := by
  refine Undoes.bind undoes_query fun db => ?_
  refine Undoes.bind (undoes_lift _) fun deployment => ?_
  refine Undoes.bind Undoes.raiseIf fun _ => ?_
  refine Undoes.bind undoes_query fun db => ?_
  refine Undoes.bind (undoes_lift _) fun target => ?_
  refine Undoes.bind (undoes_stage fun _ h => h.written) fun _ => ?_
  refine Undoes.bind (undoes_stage fun _ h => h) fun _ => ?_
  refine Undoes.bind (undoes_stage fun _ h => h) fun _ => ?_
  exact undoes_commit_refresh

end Statements

/-- The statements of every call undo their changes if they raise a domain error. -/
theorem Call.undoes_statements {postgresql : Bool} {call : Call} {p : Statements Unit}
    (h : call.statements postgresql = some p) :
    Statements.UndoesChanges Tx.Blank p fun _ _ => True := by
  cases call with
  | createModel actorId data => exact absurd h (by simp [statements])
  | createVersion actorId correlationId modelId data =>
    obtain rfl := Option.some.inj h
    exact Statements.undoes_createVersion actorId correlationId modelId data
  | approveVersion actorId correlationId versionId now =>
    obtain rfl := Option.some.inj h
    exact Statements.undoes_approveVersion actorId correlationId versionId now
  | transitionVersion actorId correlationId versionId target =>
    obtain rfl := Option.some.inj h
    exact Statements.undoes_transitionVersion actorId correlationId versionId target
  | requestDeployment actorId correlationId data =>
    obtain rfl := Option.some.inj h
    exact Statements.undoes_requestDeployment postgresql actorId correlationId data
  | retryDeployment actorId deploymentId =>
    obtain rfl := Option.some.inj h
    exact Statements.undoes_retryDeployment postgresql actorId deploymentId
  | rollbackDeployment actorId deploymentId =>
    obtain rfl := Option.some.inj h
    exact Statements.undoes_rollbackDeployment actorId deploymentId

variable {lower : String → String}

/-- A step in which a call raises a domain error writes nothing, and ends its session. -/
theorem step_of_raised {s s' : State} {i : ℕ} {a : Action} {call : Call} {e : DomainError}
    (hcall : calling s (i, a) = some call) (h : step lower s (i, a) = some s')
    (hans : answer lower s (i, a) = some (.raised e)) :
    s'.shared = s.shared ∧ s'.locals i = .idle := by
  have hwritten : written lower s (i, a) = none := by
    rcases answer_cases hcall hans with ⟨-, hnone⟩ | ⟨u, hcom, hraised⟩
    · simp [written, hnone]
    · -- Only a rejected commit is answered with an error.
      have hrejected : s.shared.commit u = none := by
        cases hu : s.shared.commit u with
        | none => rfl
        | some db =>
          simp only [Call.commitAnswer, hu] at hraised
          split at hraised <;> exact absurd hraised (by simp)
      have hcons : ¬(s.shared.write u).Constraints := fun hcons =>
        absurd (Db.commit_eq_some.mpr ⟨hcons, rfl⟩) (by simp [hrejected])
      simp [written, hcom, hcons]
  rcases step_cases h with ⟨l, -, hplan, rfl⟩ | ⟨w, u, l, hsome, -, -⟩
  · refine ⟨rfl, (Function.update_self i l s.locals).trans ?_⟩
    simp only [calling, answer] at hcall hans
    generalize s.locals i = l₀ at hplan hcall hans
    cases hplan with
    | giveUp => rfl
    | start hstage =>
      -- A call that has staged something has not answered.
      exact absurd (hans.symm.trans (Call.readAnswer_of_stage hstage)) (by simp)
    | _ => exact absurd hcall (by simp)
  · exact absurd (hwritten.symm.trans hsome) (by simp)

/-- A refused operation leaves no trace. Whatever other sessions commit between its statements, a
call that raises a domain error leaves its session blank and the tables as the others alone have
made them; alone, it leaves them as they were, and comes to what it comes to in a step of the
platform. There the step in which a call raises changes nothing, and neither do its reads before. -/
theorem refused_leaves_no_trace :
    (∀ postgresql call p, Call.statements postgresql call = some p → ∀ others db e,
      (p.run backend others 0 (.start db)).outcome = .error (.domainError e) →
      (p.run backend others 0 (.start db)).tx.Blank ∧
        (p.run backend others 0 (.start db)).tx.committed =
          alone others db (p.run backend others 0 (.start db)).clock) ∧
    (∀ postgresql call p, Call.statements postgresql call = some p → ∀ db,
      p.ends db = call.ends lower db ∧
        ∀ e, (p.ends db).1 = .error (.domainError e) → (p.ends db).2 = db) ∧
    (∀ (s s' : State) (i : ℕ) a call e, calling s (i, a) = some call →
      step lower s (i, a) = some s' → answer lower s (i, a) = some (.raised e) →
      s'.shared = s.shared ∧ s'.locals i = .idle) ∧
    ∀ (s s' : State) (i : ℕ) call, step lower s (i, .start call) = some s' →
      s'.shared = s.shared := by
  refine ⟨fun postgresql call p hp others db e hraised => ?_,
    fun postgresql call p hp db => ⟨Call.ends_statements hp db, fun e hraised => ?_⟩,
    fun s s' i a call e hcall h hans => step_of_raised hcall h hans, fun s s' i call h => ?_⟩
  · exact (Call.undoes_statements hp).alone others db hraised ⟨e, rfl⟩
  · have halone := (Call.undoes_statements hp).alone (fun _ => id) db hraised ⟨e, rfl⟩
    exact halone.2.trans (alone_id db _)
  · have hnone : committed lower s.shared (s.locals i) (.start call) = none :=
      committed_of_splits (.start call)
    apply shared_of_written_eq_none h
    simp [written, hnone]

/-- A database with a FAILED deployment, and a newer one of the same model that is in flight. -/
def supersededJob : Db :=
  (exec (step id) AtomicSteps .init (registration ++ [(0, request 1 .development true)] ++
    executeJob 1 "a" 10 ++ [(0, request 2 .development false)])).shared

set_option maxRecDepth 4096 in
/-- The retry of the FAILED deployment of `supersededJob` is rejected at its commit, when the
status, the error, the lock and the event are all staged. -/
theorem refused_leaves_no_trace_retry :
    ((Statements.retryDeployment true 9 1).ends supersededJob).1 =
        .error (.domainError (.conflictError (retryInProgress .development))) ∧
      ((Statements.retryDeployment true 9 1).ends supersededJob).2 = supersededJob := by
  have hraised : ((Statements.retryDeployment true 9 1).ends supersededJob).1 =
      .error (.domainError (.conflictError (retryInProgress .development))) := by rfl
  obtain ⟨-, halone, -⟩ := @refused_leaves_no_trace id
  have hcall := halone true (.retryDeployment 9 1) _ rfl supersededJob
  exact ⟨hraised, hcall.2 _ hraised⟩

end MlopsPlatform
