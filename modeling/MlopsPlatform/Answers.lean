import MlopsPlatform.System

/-!
# The answers of calls

What a call of the API returns or raises, and in which step. A call that ends with its reads answers
there. Every other call answers at its commit, where a constraint may still reject it: two services
catch that `IntegrityError` and raise a `ConflictError` for whichever constraint it was.
-/

namespace MlopsPlatform

open Transition

/-- How a call ends. -/
inductive Answer
  /-- `request_deployment` returns `(deployment, created)`. -/
  | requested (deployment : Deployment) (created : Bool)
  /-- Another call returns the row that it has written. -/
  | returned
  /-- A domain error. -/
  | raised (error : DomainError)
  /-- An `IntegrityError` that the service does not catch. -/
  | integrityError

section

variable (lower : String → String)

/-- The answer of a call that ends with its reads: it raises, or it is a request whose key is
stored. -/
def Call.readAnswer (db : Db) : Call → Option Answer
  | requestDeployment actorId correlationId data =>
    match MlopsPlatform.requestDeployment db actorId correlationId data with
    | .error e => some (.raised e)
    | .ok (.existing deployment) => some (.requested deployment false)
    | .ok (.staged _) => none
  | call =>
    match call.stage lower db with
    | .error e => some (.raised e)
    | .ok _ => none

/-- The message of a request that the database rejects. -/
def requestInProgress (environment : Environment) : String :=
  s!"A deployment for this model is already in progress in {environment.value}"

/-- The message of a retry that the database rejects. -/
def retryInProgress (environment : Environment) : String :=
  s!"Another deployment for this model is already in progress in {environment.value}"

/-- The answer of a call whose unit of work a constraint rejects. -/
def Call.rejected (u : UnitOfWork) : Call → Answer
  | requestDeployment _ _ data => .raised (.conflictError (requestInProgress data.environment))
  | retryDeployment _ _ =>
    match u with
    | .updateDeployments (x :: _) _ =>
      .raised (.conflictError (retryInProgress x.loaded.environment))
    | _ => .integrityError
  | _ => .integrityError

/-- The answer of a call at its commit. -/
def Call.commitAnswer (db : Db) (u : UnitOfWork) (call : Call) : Answer :=
  match db.commit u with
  | some _ =>
    match u with
    -- The row as it was inserted.
    | .insertDeployment deployment _ => .requested (deployment.1 db.deployments.next) true
    | _ => .returned
  | none => call.rejected u

/-- The answer that a session's call gives in a step. -/
def answer (s : State) (p : ℕ × Action) : Option Answer :=
  match s.locals p.1, p.2 with
  | .idle, .start call => call.readAnswer lower s.shared
  | .idle, .call call =>
    match call.stage lower s.shared with
    | .ok (some u) => some (call.commitAnswer s.shared u)
    | _ => call.readAnswer lower s.shared
  | .api call u, .commit => some (call.commitAnswer s.shared u)
  | _, _ => none

/-- The call that a session makes in a step. -/
def calling (s : State) (p : ℕ × Action) : Option Call :=
  match s.locals p.1, p.2 with
  | .idle, .start call => some call
  | .idle, .call call => some call
  | .api call _, .commit => some call
  | _, _ => none

end

variable {lower : String → String}

/-- A call stages what its service function returns. -/
theorem Call.Returns.stage {db : Db} {call : Call} {u : UnitOfWork}
    (h : call.Returns lower db u) : call.stage lower db = .ok (some u) := by
  cases call with
  | createModel actorId data => exact congrArg Except.ok h
  | createVersion actorId correlationId modelId data =>
    exact congrArg (Except.map some) h
  | approveVersion actorId correlationId versionId now => exact congrArg (Except.map some) h
  | transitionVersion actorId correlationId versionId target =>
    exact congrArg (Except.map some) h
  | requestDeployment actorId correlationId data =>
    have hr : MlopsPlatform.requestDeployment db actorId correlationId data = .ok (.staged u) := h
    simp only [Call.stage, hr, Except.map]
  | retryDeployment actorId deploymentId => exact congrArg (Except.map some) h
  | rollbackDeployment actorId deploymentId => exact congrArg (Except.map some) h

/-- A call that stages a unit of work does not answer yet. -/
theorem Call.readAnswer_of_stage {db : Db} {call : Call} {u : UnitOfWork}
    (h : call.stage lower db = .ok (some u)) : call.readAnswer lower db = none := by
  cases call with
  | requestDeployment actorId correlationId data =>
    have hreturns : MlopsPlatform.requestDeployment db actorId correlationId data =
      .ok (.staged u) := Call.stage_eq_ok h
    simp only [readAnswer, hreturns]
  | _ => simp only [readAnswer, h]

/-- An atomic call commits what it stages. A commit that is rejected changes nothing. -/
theorem step_call {s s' : State} {i : ℕ} {call : Call} {u : UnitOfWork} (hi : s.locals i = .idle)
    (hstage : call.stage lower s.shared = .ok (some u))
    (h : step lower s (i, .call call) = some s') :
    s'.shared = (s.shared.commit u).getD s.shared ∧
      answer lower s (i, .call call) = some (call.commitAnswer s.shared u) := by
  obtain ⟨db, l, hact, rfl⟩ := Config.step_eq_some.mp h
  simp only [act, hi, plan, hstage, Option.map_some, commitAs, if_true, Option.some.injEq] at hact
  refine ⟨?_, by simp only [answer, hi, hstage]⟩
  cases hdb : s.shared.commit u with
  | none =>
    rw [hdb] at hact
    exact (Prod.mk.inj hact).1.symm
  | some db' =>
    rw [hdb] at hact
    exact (Prod.mk.inj hact).1.symm

/-- A call that stages nothing changes nothing, and answers with its reads. -/
theorem step_call_read {s s' : State} {i : ℕ} {call : Call} (hi : s.locals i = .idle)
    (hstage : ∀ u, call.stage lower s.shared ≠ .ok (some u))
    (h : step lower s (i, .call call) = some s') :
    s'.shared = s.shared ∧
      answer lower s (i, .call call) = call.readAnswer lower s.shared := by
  obtain ⟨db, l, hact, rfl⟩ := Config.step_eq_some.mp h
  cases hc : call.stage lower s.shared with
  | error e =>
    simp only [act, hi, plan, hc, Option.map_some, Option.some.injEq, Prod.mk.injEq] at hact
    exact ⟨hact.1.symm, by simp only [answer, hi, hc]⟩
  | ok staged =>
    cases staged with
    | none =>
      simp only [act, hi, plan, hc, Option.map_some, Option.some.injEq, Prod.mk.injEq] at hact
      exact ⟨hact.1.symm, by simp only [answer, hi, hc]⟩
    | some u => exact absurd hc (hstage u)

/-- An idle session can make any call, and the call is answered. -/
theorem exists_step_call {s : State} {i : ℕ} (hi : s.locals i = .idle) (call : Call) :
    ∃ s', step lower s (i, .call call) = some s' := by
  have hplan : ∃ p, plan lower s.shared (s.locals i) (.call call) = some p := by
    rw [hi]
    simp only [plan]
    split
    · exact ⟨_, rfl⟩
    · exact ⟨_, rfl⟩
  obtain ⟨p, hp⟩ := hplan
  exact Option.isSome_iff_exists.mp (by simp [Config.step, act, hp])

/-- A call that writes answers at its commit. -/
theorem answer_of_written {s : State} {i : ℕ} {a : Action} {call : Call} {u : UnitOfWork}
    (h : written lower s (i, a) = some (.api call, u)) :
    calling s (i, a) = some call ∧
      answer lower s (i, a) = some (call.commitAnswer s.shared u) := by
  obtain ⟨hcom, -⟩ := written_eq_some.mp h
  unfold committed at hcom
  split at hcom
  · rename_i w v l hp
    obtain ⟨rfl, rfl⟩ := Prod.mk.inj (Option.some.inj hcom)
    have hplan := planned hp
    simp only [calling, answer]
    generalize s.locals i = l₀ at hplan
    cases hplan with
    | call hc => exact ⟨rfl, by simp only [hc]⟩
    | commitCall => exact ⟨rfl, rfl⟩
  · simp at hcom

/-- A call answers with its reads, and then commits nothing, or it answers at its commit. -/
theorem answer_cases {s : State} {i : ℕ} {a : Action} {call : Call} {ans : Answer}
    (hcall : calling s (i, a) = some call) (hans : answer lower s (i, a) = some ans) :
    (call.readAnswer lower s.shared = some ans ∧
        committed lower s.shared (s.locals i) a = none) ∨
      ∃ u, committed lower s.shared (s.locals i) a = some (.api call, u) ∧
        call.commitAnswer s.shared u = ans := by
  simp only [calling, answer] at hcall hans
  generalize s.locals i = l at hcall hans
  cases l with
  | idle =>
    cases a with
    | start c =>
      obtain rfl := Option.some.inj hcall
      exact Or.inl ⟨hans, committed_of_splits (.start _)⟩
    | call c =>
      obtain rfl := Option.some.inj hcall
      dsimp only at hans
      split at hans
      · rename_i u hu
        exact Or.inr ⟨u, by simp [committed, plan, hu], Option.some.inj hans⟩
      · rename_i hnone
        refine Or.inl ⟨hans, ?_⟩
        simp only [committed, plan]
    | _ => exact absurd hcall (by simp)
  | api c u =>
    cases a with
    | commit =>
      obtain rfl := Option.some.inj hcall
      exact Or.inr ⟨u, rfl, Option.some.inj hans⟩
    | _ => exact absurd hcall (by simp)
  | _ => exact absurd hcall (by simp)

/-- What a call commits in a run is what its service function returned for the database that it
read. -/
theorem returns_of_reach {ok : State → ℕ × Action → Prop} {s : State}
    (h : Reach (step lower) ok .init s) {i : ℕ} {a : Action} {call : Call} {u : UnitOfWork}
    (hcom : committed lower s.shared (s.locals i) a = some (.api call, u)) :
    ∃ db, call.Returns lower db u := by
  have hheld : s.Holds fun _ w u => ∀ call, w = .api call → ∃ db, call.Returns lower db u := by
    refine reach_holds (K := fun w u => ∀ call, w = .api call → ∃ db, call.Returns lower db u) h
      (fun d call hw => absurd hw (by simp)) ?_
    rintro s i a w u - - hreads call rfl
    exact ⟨_, hreads.returns⟩
  rcases hheld.committed hcom with hu | hreads
  · exact hu call rfl
  · exact ⟨_, hreads.returns⟩

/-- Only a request inserts a deployment. -/
theorem request_of_insert {ok : State → ℕ × Action → Prop} {s : State}
    (h : Reach (step lower) ok .init s) {i : ℕ} {a : Action} {w : Writer}
    {deployment : Table.Draft Deployment.id} {event : Uuid → Table.Draft DeploymentEvent.id}
    (hcom : committed lower s.shared (s.locals i) a =
      some (w, .insertDeployment deployment event)) :
    ∃ actorId correlationId data db, w = .api (.requestDeployment actorId correlationId data) ∧
      requestDeployment db actorId correlationId data =
        .ok (.staged (.insertDeployment deployment event)) := by
  cases w with
  | api call =>
    obtain ⟨db, hreturns⟩ := returns_of_reach h hcom
    obtain ⟨actorId, correlationId, data, rfl, hr⟩ := hreturns.of_insertDeployment
    exact ⟨actorId, correlationId, data, db, rfl, hr⟩
  | _ =>
    -- Workers and reapers update deployments.
    have hheld : s.Holds fun _ w u => w.isApi = false → ∃ dirty events,
        u = .updateDeployments dirty events :=
      reach_holds (K := fun w u => w.isApi = false → ∃ dirty events,
          u = .updateDeployments dirty events) h (fun d _ => ⟨_, _, rfl⟩)
        fun _ _ _ _ _ _ _ hreads hw => hreads.staged.updateDeployments hw
    have hupdates : ∃ dirty events, UnitOfWork.insertDeployment deployment event =
        .updateDeployments dirty events := by
      rcases hheld.committed hcom with hu | hreads
      · exact hu rfl
      · exact hreads.staged.updateDeployments rfl
    obtain ⟨dirty, events, hu⟩ := hupdates
    exact absurd hu (by simp)

end MlopsPlatform
