import MlopsPlatform.Library.Transition
import MlopsPlatform.Services.DeploymentService
import MlopsPlatform.Worker.Executor

/-!
# The platform as interleaved sessions

Any number of API calls, workers, and reapers run against one database. A session reads, holds what
it has staged, and commits later; other sessions' commits may fall in between, and a session may
also crash there. A commit is atomic: it updates by primary key, inserts, and is rolled back if a
constraint rejects it. `FOR UPDATE SKIP LOCKED` makes the whole of `claim_one` one step. For the
runs in which a call or a worker's segment is atomic there are actions that read and commit at once.

`plan` says what an action does to its session and which unit of work it commits, and `act` commits
it. `Planned` lists all that a plan can be. Everything that a reachable state can hold follows from
it: what an action commits was staged by its session or by its own reads, and what a session holds
was staged by reads. `reach_invariant` is the rely-guarantee rule of these two facts.
-/

namespace MlopsPlatform

open Transition

/-! ## Sessions and actions -/

/-- A call of the API. -/
inductive Call
  | createModel (actorId : Uuid) (data : ModelCreate)
  | createVersion (actorId : Uuid) (correlationId : Option String) (modelId : Uuid)
    (data : ModelVersionCreate)
  | approveVersion (actorId : Uuid) (correlationId : Option String) (versionId : Uuid) (now : Time)
  | transitionVersion (actorId : Uuid) (correlationId : Option String) (versionId : Uuid)
    (target : LifecycleStage)
  | requestDeployment (actorId : Uuid) (correlationId : Option String) (data : DeploymentCreate)
  | retryDeployment (actorId deploymentId : Uuid)
  | rollbackDeployment (actorId deploymentId : Uuid)

/-- The reads of a call: the error it raises, or what it stages if it writes at all. -/
def Call.stage (lower : String → String) (db : Db) : Call → Except DomainError (Option UnitOfWork)
  | createModel actorId data => .ok (MlopsPlatform.createModel lower db actorId data)
  | createVersion actorId correlationId modelId data =>
    (MlopsPlatform.createVersion db actorId correlationId modelId data).map some
  | approveVersion actorId correlationId versionId now =>
    (MlopsPlatform.approveVersion db actorId correlationId versionId now).map some
  | transitionVersion actorId correlationId versionId target =>
    (MlopsPlatform.transitionVersion db actorId correlationId versionId target).map some
  | requestDeployment actorId correlationId data =>
    (MlopsPlatform.requestDeployment db actorId correlationId data).map fun outcome =>
      match outcome with
      -- The key is stored: the call returns that deployment and commits nothing.
      | .existing _ => none
      | .staged u => some u
  | retryDeployment actorId deploymentId =>
    (MlopsPlatform.retryDeployment db actorId deploymentId).map some
  | rollbackDeployment actorId deploymentId =>
    (MlopsPlatform.rollbackDeployment db actorId deploymentId).map some

/-- The claim that a worker made: the row, and the values that identify the claim on it. -/
structure Claim where
  workerId : String
  deploymentId : Uuid
  attempts : ℕ

/-- The claim that `claim_one` makes on the row that it loaded. -/
def Claim.ofClaimed (workerId : String) (x : DirtyDeployment) : Claim :=
  ⟨workerId, x.loaded.id, x.assigned.attempts⟩

/-- The local state of a session. -/
inductive Session
  /-- Nothing in progress. -/
  | idle
  /-- An API call between its reads and its commit. -/
  | api (call : Call) (u : UnitOfWork)
  /-- A worker between two commits of `process_deployment`. -/
  | worker (claim : Claim) (phase : Phase)
  /-- A worker between the reads and the commit of a segment of `process_deployment`. -/
  | workerCommit (claim : Claim) (u : UnitOfWork) (next : Option Phase)
  /-- A reaper between its SELECT and its commit. -/
  | reaper (u : UnitOfWork)

/-- A worker's session after a commit of `process_deployment`. -/
def Session.afterCommit (claim : Claim) : Option Phase → Session
  | some phase => worker claim phase
  | none => idle

/-- What a session does in one step. -/
inductive Action
  /-- The reads of a call. -/
  | start (call : Call)
  /-- A call with its reads and its commit at once. -/
  | call (call : Call)
  /-- `claim_one`. -/
  | claim (workerId : String) (now : Time) (locked : List Uuid)
  /-- The reads of a segment of `process_deployment`. -/
  | load
  /-- A segment of `process_deployment` with its reads and its commit at once. -/
  | work
  /-- The SELECT of `reap_stuck`. -/
  | select (now timeoutSeconds : Time)
  /-- `reap_stuck` with its SELECT and its commit at once. -/
  | reap (now timeoutSeconds : Time)
  /-- The commit of what the session has staged. -/
  | commit
  /-- The session ends, and what it had staged is lost. -/
  | crash

/-- Who commits. -/
inductive Writer
  | api (call : Call)
  | worker
  | reaper

/-- The writer is a call of the API. -/
def Writer.isApi : Writer → Bool
  | api _ => true
  | _ => false

/-- What a session has staged, and who will commit it. -/
def Session.held : Session → Option (Writer × UnitOfWork)
  | api call u => some (.api call, u)
  | workerCommit _ u _ => some (.worker, u)
  | reaper u => some (.reaper, u)
  | _ => none

/-- The action reads for a writer and leaves the commit to a later action. -/
inductive Action.Splits : Action → Writer → Prop
  | start (call : Call) : Splits (start call) (.api call)
  | load : Splits load .worker
  | select (now timeoutSeconds : Time) : Splits (select now timeoutSeconds) .reaper

/-- What an action does: it changes the session only, or it commits a unit of work and changes the
session once the commit succeeded. -/
inductive Plan
  | keep (after : Session)
  | commit (writer : Writer) (u : UnitOfWork) (after : Session)

/-- The session once the plan is carried out. -/
def Plan.after : Plan → Session
  | keep after => after
  | commit _ _ after => after

section

variable (lower : String → String)

/-- What an action of a session does, where the session can take it. A call that raises or that
writes nothing leaves its session idle. -/
def plan (db : Db) : Session → Action → Option Plan
  | .idle, .start call =>
    match call.stage lower db with
    | .ok (some u) => some (.keep (.api call u))
    | _ => some (.keep .idle)
  | .idle, .call call =>
    match call.stage lower db with
    | .ok (some u) => some (.commit (.api call) u .idle)
    | _ => some (.keep .idle)
  | .idle, .claim workerId now locked =>
    match claimOne db workerId now locked with
    | some x =>
      -- The refreshed row goes on to `process_deployment`, whose first commit reads nothing.
      some (.commit .worker (.updateDeployments [x] [])
        (.workerCommit (.ofClaimed workerId x) (startValidation x.assigned) (some .check)))
    | none => some (.keep .idle)
  | .idle, .select now timeoutSeconds =>
    match reapStuck db now timeoutSeconds with
    | some u => some (.keep (.reaper u))
    | none => some (.keep .idle)
  | .idle, .reap now timeoutSeconds =>
    match reapStuck db now timeoutSeconds with
    | some u => some (.commit .reaper u .idle)
    | none => some (.keep .idle)
  | .worker claim phase, .load =>
    match processDeployment db claim.deploymentId phase with
    | some (u, next) => some (.keep (.workerCommit claim u next))
    | none => none
  | .worker claim phase, .work =>
    match processDeployment db claim.deploymentId phase with
    | some (u, next) => some (.commit .worker u (.afterCommit claim next))
    | none => none
  | .api call u, .commit => some (.commit (.api call) u .idle)
  | .workerCommit claim u next, .commit => some (.commit .worker u (.afterCommit claim next))
  | .reaper u, .commit => some (.commit .reaper u .idle)
  | _, .crash => some (.keep .idle)
  | _, _ => none

/-- Commit as a writer whose writes the constraints check, or do not check. -/
def commitAs (checked : Writer → Bool) (writer : Writer) (db : Db) (u : UnitOfWork) : Option Db :=
  if checked writer then db.commit u else some (db.write u)

/-- One action of a session. A rejected commit changes nothing and ends the session: the API answers
with an error, and in a worker or a reaper the exception ends the process. -/
def act (checked : Writer → Bool) (db : Db) (s : Session) (a : Action) : Option (Db × Session) :=
  (plan lower db s a).map fun p =>
    match p with
    | .keep after => (db, after)
    | .commit writer u after =>
      match commitAs checked writer db u with
      | some db' => (db', after)
      | none => (db, .idle)

/-- The database and the sessions. -/
abbrev State := Config ℕ Db Session

/-- No rows and no sessions. -/
def State.init : State := ⟨.empty, fun _ => .idle⟩

/-- A step of the platform, in which the constraints check the writers that `checked` names. -/
abbrev stepWith (checked : Writer → Bool) : State → ℕ × Action → Option State :=
  Config.step (act lower checked)

/-- A step of the platform: the database checks every write. -/
abbrev step : State → ℕ × Action → Option State := stepWith lower fun _ => true

/-- The action is the reads of a call, whose commit comes later. -/
def Action.isStart : Action → Bool
  | start _ => true
  | _ => false

/-- The steps of the runs in which calls of the API are atomic. -/
def AtomicCalls (_ : State) (p : ℕ × Action) : Prop := p.2.isStart = false

instance (s : State) (p : ℕ × Action) : Decidable (AtomicCalls s p) :=
  inferInstanceAs (Decidable (p.2.isStart = false))

/-- The unit of work that an action commits, and who commits it. -/
def committed (db : Db) (s : Session) (a : Action) : Option (Writer × UnitOfWork) :=
  match plan lower db s a with
  | some (.commit writer u _) => some (writer, u)
  | _ => none

/-- The step meets a condition on what it commits, if it commits. -/
def CommitMeets (C : Db → Writer → UnitOfWork → Prop) (s : State) (p : ℕ × Action) : Prop :=
  ∀ x ∈ committed lower s.shared (s.locals p.1) p.2, C s.shared x.1 x.2

instance (C : Db → Writer → UnitOfWork → Prop) [∀ db w u, Decidable (C db w u)] (s : State)
    (p : ℕ × Action) : Decidable (CommitMeets lower C s p) :=
  inferInstanceAs (Decidable (∀ x ∈ committed lower s.shared (s.locals p.1) p.2, _))

/-- The unit of work that a step writes: its action commits it, and the constraints accept it. -/
def written (s : State) (p : ℕ × Action) : Option (Writer × UnitOfWork) :=
  (committed lower s.shared (s.locals p.1) p.2).filter fun x => (s.shared.write x.2).Constraints

/-! ## What a step can do -/

/-- The units of work that reads of the database stage, with the writer that stages them. -/
inductive Staged (db : Db) : Writer → UnitOfWork → Prop
  /-- An API call. -/
  | call {call : Call} {u : UnitOfWork} :
    call.stage lower db = .ok (some u) → Staged db (.api call) u
  /-- `claim_one`. -/
  | claim {workerId : String} {now : Time} {locked : List Uuid} {x : DirtyDeployment} :
    claimOne db workerId now locked = some x → Staged db .worker (.updateDeployments [x] [])
  /-- A segment of `process_deployment`. -/
  | segment {deploymentId : Uuid} {phase : Phase} {u : UnitOfWork} {next : Option Phase} :
    processDeployment db deploymentId phase = some (u, next) → Staged db .worker u
  /-- `reap_stuck`. -/
  | reap {now timeoutSeconds : Time} {u : UnitOfWork} :
    reapStuck db now timeoutSeconds = some u → Staged db .reaper u

/-- The unit of work that the reads of a session's action stage. -/
inductive Reads (db : Db) : Session → Action → Writer → UnitOfWork → Prop
  /-- The reads of a call that commits later. -/
  | start {call : Call} {u : UnitOfWork} :
    call.stage lower db = .ok (some u) → Reads db .idle (.start call) (.api call) u
  /-- The reads of a call that commits at once. -/
  | call {call : Call} {u : UnitOfWork} :
    call.stage lower db = .ok (some u) → Reads db .idle (.call call) (.api call) u
  /-- `claim_one`. -/
  | claim {workerId : String} {now : Time} {locked : List Uuid} {x : DirtyDeployment} :
    claimOne db workerId now locked = some x →
      Reads db .idle (.claim workerId now locked) .worker (.updateDeployments [x] [])
  /-- The reads of a segment of `process_deployment` that commits later. -/
  | load {claim : Claim} {phase : Phase} {u : UnitOfWork} {next : Option Phase} :
    processDeployment db claim.deploymentId phase = some (u, next) →
      Reads db (.worker claim phase) .load .worker u
  /-- The reads of a segment of `process_deployment` that commits at once. -/
  | work {claim : Claim} {phase : Phase} {u : UnitOfWork} {next : Option Phase} :
    processDeployment db claim.deploymentId phase = some (u, next) →
      Reads db (.worker claim phase) .work .worker u
  /-- The SELECT of a pass of the reaper that commits later. -/
  | select {now timeoutSeconds : Time} {u : UnitOfWork} :
    reapStuck db now timeoutSeconds = some u →
      Reads db .idle (.select now timeoutSeconds) .reaper u
  /-- The SELECT of a pass of the reaper that commits at once. -/
  | reap {now timeoutSeconds : Time} {u : UnitOfWork} :
    reapStuck db now timeoutSeconds = some u →
      Reads db .idle (.reap now timeoutSeconds) .reaper u

/-- All that an action can do. -/
inductive Planned (db : Db) : Session → Action → Plan → Prop
  /-- A call raises or has nothing to write, there is nothing to claim or to reap, or the session
  crashes. -/
  | giveUp {s : Session} {a : Action} : Planned db s a (.keep .idle)
  /-- A call has read and commits later. -/
  | start {call : Call} {u : UnitOfWork} : call.stage lower db = .ok (some u) →
    Planned db .idle (.start call) (.keep (.api call u))
  /-- A call reads and commits. -/
  | call {call : Call} {u : UnitOfWork} : call.stage lower db = .ok (some u) →
    Planned db .idle (.call call) (.commit (.api call) u .idle)
  /-- A worker claims a row, and goes on to the first commit of `process_deployment`. -/
  | claim {workerId : String} {now : Time} {locked : List Uuid} {x : DirtyDeployment} :
    claimOne db workerId now locked = some x →
      Planned db .idle (.claim workerId now locked) (.commit .worker (.updateDeployments [x] [])
        (.workerCommit (.ofClaimed workerId x) (startValidation x.assigned) (some .check)))
  /-- A reaper has read and commits later. -/
  | select {now timeoutSeconds : Time} {u : UnitOfWork} : reapStuck db now timeoutSeconds = some u →
    Planned db .idle (.select now timeoutSeconds) (.keep (.reaper u))
  /-- A reaper reads and commits. -/
  | reap {now timeoutSeconds : Time} {u : UnitOfWork} : reapStuck db now timeoutSeconds = some u →
    Planned db .idle (.reap now timeoutSeconds) (.commit .reaper u .idle)
  /-- A worker has read for its next commit. -/
  | load {claim : Claim} {phase : Phase} {u : UnitOfWork} {next : Option Phase} :
    processDeployment db claim.deploymentId phase = some (u, next) →
      Planned db (.worker claim phase) .load (.keep (.workerCommit claim u next))
  /-- A worker reads and commits. -/
  | work {claim : Claim} {phase : Phase} {u : UnitOfWork} {next : Option Phase} :
    processDeployment db claim.deploymentId phase = some (u, next) →
      Planned db (.worker claim phase) .work (.commit .worker u (.afterCommit claim next))
  /-- A call commits what it has staged. -/
  | commitCall {call : Call} {u : UnitOfWork} :
    Planned db (.api call u) .commit (.commit (.api call) u .idle)
  /-- A worker commits what it has staged. -/
  | commitWork {claim : Claim} {u : UnitOfWork} {next : Option Phase} :
    Planned db (.workerCommit claim u next) .commit (.commit .worker u (.afterCommit claim next))
  /-- A reaper commits what it has staged. -/
  | commitReap {u : UnitOfWork} : Planned db (.reaper u) .commit (.commit .reaper u .idle)

end

variable {lower : String → String} {checked : Writer → Bool}

/-- The service function of a call returns a unit of work to commit. -/
def Call.Returns (lower : String → String) (db : Db) (u : UnitOfWork) : Call → Prop
  | createModel actorId data => MlopsPlatform.createModel lower db actorId data = some u
  | createVersion actorId correlationId modelId data =>
    MlopsPlatform.createVersion db actorId correlationId modelId data = .ok u
  | approveVersion actorId correlationId versionId now =>
    MlopsPlatform.approveVersion db actorId correlationId versionId now = .ok u
  | transitionVersion actorId correlationId versionId target =>
    MlopsPlatform.transitionVersion db actorId correlationId versionId target = .ok u
  | requestDeployment actorId correlationId data =>
    MlopsPlatform.requestDeployment db actorId correlationId data = .ok (.staged u)
  | retryDeployment actorId deploymentId =>
    MlopsPlatform.retryDeployment db actorId deploymentId = .ok u
  | rollbackDeployment actorId deploymentId =>
    MlopsPlatform.rollbackDeployment db actorId deploymentId = .ok u

/-- What a call stages is what its service function returns. -/
theorem Call.stage_eq_ok {db : Db} {call : Call} {u : UnitOfWork}
    (h : call.stage lower db = .ok (some u)) : call.Returns lower db u := by
  -- Every call but two maps what its service function returns.
  have hmap : ∀ {x : Except DomainError UnitOfWork}, x.map some = .ok (some u) → x = .ok u := by
    intro x hx
    cases x with
    | error e => simp [Except.map] at hx
    | ok v => simpa [Except.map] using hx
  cases call with
  | createModel actorId data => exact Except.ok.inj h
  | requestDeployment actorId correlationId data =>
    simp only [stage] at h
    show MlopsPlatform.requestDeployment db actorId correlationId data = .ok (.staged u)
    cases hr : MlopsPlatform.requestDeployment db actorId correlationId data with
    | error e => simp [hr, Except.map] at h
    | ok outcome =>
      rw [hr] at h
      cases outcome with
      | existing d => simp [Except.map] at h
      | staged v =>
        have hvu : v = u := by simpa [Except.map] using h
        rw [hvu]
  | _ => exact hmap h

/-- What the calls write to the versions. -/
inductive VersionWrite (db : Db) : UnitOfWork → Prop
  /-- A version is created. -/
  | create {actorId modelId : Uuid} {correlationId : Option String} {data : ModelVersionCreate}
      {u : UnitOfWork} :
    createVersion db actorId correlationId modelId data = .ok u → VersionWrite db u
  /-- A version is approved. -/
  | approve {actorId versionId : Uuid} {correlationId : Option String} {now : Time}
      {u : UnitOfWork} :
    approveVersion db actorId correlationId versionId now = .ok u → VersionWrite db u
  /-- A version is moved to another stage. -/
  | transition {actorId versionId : Uuid} {correlationId : Option String}
      {target : LifecycleStage} {u : UnitOfWork} :
    transitionVersion db actorId correlationId versionId target = .ok u → VersionWrite db u

/-- A call leaves the versions and their trails alone, or writes to a version. -/
theorem Call.Returns.versionWrite {db : Db} {call : Call} {u : UnitOfWork}
    (h : call.Returns lower db u) : u.writesVersions = false ∨ VersionWrite db u := by
  cases call with
  | createVersion actorId correlationId modelId data => exact Or.inr (.create h)
  | approveVersion actorId correlationId versionId now => exact Or.inr (.approve h)
  | transitionVersion actorId correlationId versionId target => exact Or.inr (.transition h)
  | createModel actorId data =>
    obtain ⟨key, -, rfl⟩ := Option.map_eq_some_iff.mp h
    exact Or.inl rfl
  | requestDeployment actorId correlationId data =>
    obtain ⟨v, deployment, event, -, -, -, rfl, -⟩ := requestDeployment_eq_staged h
    exact Or.inl rfl
  | retryDeployment actorId deploymentId =>
    obtain ⟨d, -, -, rfl⟩ := retryDeployment_eq_ok.mp h
    exact Or.inl rfl
  | rollbackDeployment actorId deploymentId =>
    obtain ⟨d, t, -, -, -, rfl⟩ := rollbackDeployment_eq_ok.mp h
    exact Or.inl rfl

/-- What the calls assign to a deployment, and to which one. -/
inductive CallUpdate (db : Db) (id : Uuid) : Call → DirtyDeployment → Prop
  /-- A retry. -/
  | retry {d : Deployment} (actorId : Uuid) : db.deployments.get? id = some d → d.status = .failed →
    CallUpdate db id (.retryDeployment actorId id)
      ⟨d, { d with status := .requested, error := none, workerId := none, lockedAt := none }⟩
  /-- A rollback. -/
  | rollback {d t : Deployment} (actorId : Uuid) : db.deployments.get? id = some d →
    d.status = .succeeded → rollbackTarget db d = some t →
    CallUpdate db id (.rollbackDeployment actorId id)
      ⟨d, { d with status := .rolledBack, rolledBackToId := some t.id }⟩

/-- The row that is updated is that of the deployment, and it keeps its id. -/
theorem CallUpdate.loaded {db : Db} {id : Uuid} {call : Call} {x : DirtyDeployment}
    (h : CallUpdate db id call x) :
    x.loaded ∈ db.deployments ∧ x.loaded.id = id ∧ x.assigned.id = x.loaded.id := by
  cases h with
  | retry actorId hd hs => exact ⟨(Table.get?_eq_some.mp hd).1, (Table.get?_eq_some.mp hd).2, rfl⟩
  | rollback actorId hd hs ht =>
    exact ⟨(Table.get?_eq_some.mp hd).1, (Table.get?_eq_some.mp hd).2, rfl⟩

/-- What the calls record on a timeline: one event each, under the call's own name for it. -/
inductive CallEvent : Call → Table.Draft DeploymentEvent.id → Prop
  /-- A request. -/
  | request {actorId : Uuid} {correlationId : Option String} {data : DeploymentCreate}
      {d : Deployment} {message actor : Option String} :
    CallEvent (.requestDeployment actorId correlationId data)
      (recordEvent d "requested" message actor)
  /-- A retry. -/
  | retry {actorId deploymentId : Uuid} {d : Deployment} {message actor : Option String} :
    d.id = deploymentId →
      CallEvent (.retryDeployment actorId deploymentId)
        (recordEvent d "retry_requested" message actor)
  /-- A rollback. -/
  | rollback {actorId deploymentId : Uuid} {d : Deployment} {message actor : Option String} :
    d.id = deploymentId →
      CallEvent (.rollbackDeployment actorId deploymentId)
        (recordEvent d "rolled_back" message actor)

/-- What the calls write to the deployments and their timelines. -/
inductive DeploymentWrite (db : Db) : Call → UnitOfWork → Prop
  /-- A request inserts a deployment, with its first event. -/
  | request {actorId : Uuid} {correlationId : Option String} {data : DeploymentCreate}
      {deployment : Table.Draft Deployment.id} {event : Uuid → Table.Draft DeploymentEvent.id} :
    requestDeployment db actorId correlationId data =
      .ok (.staged (.insertDeployment deployment event)) →
    (∀ id, event id = recordEvent (deployment.1 id) "requested" none (some (toString actorId))) →
      DeploymentWrite db (.requestDeployment actorId correlationId data)
        (.insertDeployment deployment event)
  /-- A retry or a rollback updates the deployment that it is for, and records one event. -/
  | update {call : Call} {id : Uuid} {x : DirtyDeployment} {name : String}
      {message actor : Option String} :
    CallUpdate db id call x → CallEvent call (recordEvent x.assigned name message actor) →
      DeploymentWrite db call
        (.updateDeployments [x] [recordEvent x.assigned name message actor])

/-- A call leaves the deployments and their timelines alone, or writes to a deployment. -/
theorem Call.Returns.deploymentWrite {db : Db} {call : Call} {u : UnitOfWork}
    (h : call.Returns lower db u) : u.writesDeployments = false ∨ DeploymentWrite db call u := by
  cases call with
  | createModel actorId data =>
    obtain ⟨key, -, rfl⟩ := Option.map_eq_some_iff.mp h
    exact Or.inl rfl
  | createVersion actorId correlationId modelId data =>
    obtain ⟨-, -, rfl⟩ := createVersion_eq_ok.mp h
    exact Or.inl rfl
  | approveVersion actorId correlationId versionId now =>
    obtain ⟨v, -, -, rfl⟩ := approveVersion_eq_ok.mp h
    exact Or.inl rfl
  | transitionVersion actorId correlationId versionId target =>
    obtain ⟨v, -, -, -, rfl⟩ := transitionVersion_eq_ok.mp h
    exact Or.inl rfl
  | requestDeployment actorId correlationId data =>
    obtain ⟨v, deployment, event, -, -, -, rfl, hrow⟩ := requestDeployment_eq_staged h
    exact Or.inr (.request h fun id => (hrow id).2)
  | retryDeployment actorId deploymentId =>
    obtain ⟨d, hd, hs, rfl⟩ := retryDeployment_eq_ok.mp h
    exact Or.inr (.update (.retry actorId hd hs) (.retry (Table.get?_eq_some.mp hd).2))
  | rollbackDeployment actorId deploymentId =>
    obtain ⟨d, t, hd, hs, ht, rfl⟩ := rollbackDeployment_eq_ok.mp h
    exact Or.inr (.update (.rollback actorId hd hs ht) (.rollback (Table.get?_eq_some.mp hd).2))

/-- Only a request inserts a deployment. -/
theorem Call.Returns.of_insertDeployment {db : Db} {call : Call}
    {deployment : Table.Draft Deployment.id} {event : Uuid → Table.Draft DeploymentEvent.id}
    (h : call.Returns lower db (.insertDeployment deployment event)) :
    ∃ actorId correlationId data, call = .requestDeployment actorId correlationId data ∧
      MlopsPlatform.requestDeployment db actorId correlationId data =
        .ok (.staged (.insertDeployment deployment event)) := by
  rcases h.deploymentWrite with hleaves | hwrite
  · exact absurd hleaves (by simp [UnitOfWork.writesDeployments])
  · cases hwrite with
    | request hr hrow => exact ⟨_, _, _, rfl, hr⟩

/-- Only a retry and a rollback update a deployment, and both update the one that they are for. -/
theorem Call.Returns.callUpdate {db : Db} {call : Call} {u : UnitOfWork}
    (h : call.Returns lower db u) {id : Uuid} {x : DirtyDeployment} (hx : u.dirtyFor id = some x) :
    CallUpdate db id call x := by
  obtain ⟨dirty, events, rfl, hmem, hid⟩ := UnitOfWork.dirtyFor_eq_some hx
  rcases h.deploymentWrite with hleaves | hwrite
  · exact absurd hleaves (by simp [UnitOfWork.writesDeployments])
  · cases hwrite with
    | update hupdate hevent =>
      obtain rfl := List.mem_singleton.mp hmem
      obtain rfl := hupdate.loaded.2.1.symm.trans hid
      exact hupdate

/-- A call records nothing else. -/
theorem Call.Returns.callEvent {db : Db} {call : Call} {u : UnitOfWork}
    (h : call.Returns lower db u) {x : Table.Draft DeploymentEvent.id} (hx : u.Records x) :
    CallEvent call x := by
  rcases h.deploymentWrite with hleaves | hwrite
  · exact absurd hx (UnitOfWork.not_records hleaves x)
  · cases hwrite with
    | request hr hrow =>
      obtain ⟨deploymentId, rfl⟩ := hx
      rw [hrow]
      exact .request
    | update hupdate hevent =>
      obtain rfl := List.mem_singleton.mp hx
      exact hevent

/-- What the reads of an action stage is staged by reads. -/
theorem Reads.staged {db : Db} {s : Session} {a : Action} {w : Writer} {u : UnitOfWork}
    (h : Reads lower db s a w u) : Staged lower db w u := by
  cases h with
  | start hc => exact .call hc
  | call hc => exact .call hc
  | claim hx => exact .claim hx
  | load hs => exact .segment hs
  | work hs => exact .segment hs
  | select hr => exact .reap hr
  | reap hr => exact .reap hr

/-- What the reads of a call stage is what its service function returns. -/
theorem Reads.returns {db : Db} {s : Session} {a : Action} {call : Call} {u : UnitOfWork}
    (h : Reads lower db s a (.api call) u) : call.Returns lower db u := by
  cases h with
  | start hc => exact Call.stage_eq_ok hc
  | call hc => exact Call.stage_eq_ok hc

/-- Workers and reapers stage changes of deployments only. -/
theorem Staged.updateDeployments {db : Db} {w : Writer} {u : UnitOfWork} (h : Staged lower db w u)
    (hw : w.isApi = false) : ∃ dirty events, u = .updateDeployments dirty events := by
  cases h with
  | call hc => exact absurd hw (by simp [Writer.isApi])
  | claim hx => exact ⟨_, _, rfl⟩
  | segment hs =>
    obtain ⟨d, assigned, event, message, -, -, rfl⟩ := processDeployment_eq_some hs
    exact ⟨_, _, rfl⟩
  | reap hr =>
    obtain ⟨stuck, -, rfl⟩ := reapStuck_eq_some hr
    exact ⟨_, _, rfl⟩

/-- Where calls are atomic, what waits between its reads and its commit is a worker's or a
reaper's. -/
theorem AtomicCalls.not_api {s : State} {i : ℕ} {a : Action} {w : Writer}
    (h : AtomicCalls s (i, a)) (hsplit : a.Splits w) : w.isApi = false := by
  cases hsplit with
  | start call => simp [AtomicCalls, Action.isStart] at h
  | load => rfl
  | select now timeoutSeconds => rfl

/-- What a plan says is one of these. -/
theorem planned {db : Db} {s : Session} {a : Action} {p : Plan} (h : plan lower db s a = some p) :
    Planned lower db s a p := by
  -- The cases are those of `plan`: the session, and then the action that it can take.
  cases s with
  | idle =>
    cases a with
    | start call =>
      simp only [plan] at h
      split at h
      · rename_i u hu
        obtain rfl := Option.some.inj h
        exact .start hu
      · obtain rfl := Option.some.inj h
        exact .giveUp
    | call call =>
      simp only [plan] at h
      split at h
      · rename_i u hu
        obtain rfl := Option.some.inj h
        exact .call hu
      · obtain rfl := Option.some.inj h
        exact .giveUp
    | claim workerId now locked =>
      simp only [plan] at h
      split at h
      · rename_i x hx
        obtain rfl := Option.some.inj h
        exact .claim hx
      · obtain rfl := Option.some.inj h
        exact .giveUp
    | select now timeoutSeconds =>
      simp only [plan] at h
      split at h
      · rename_i u hu
        obtain rfl := Option.some.inj h
        exact .select hu
      · obtain rfl := Option.some.inj h
        exact .giveUp
    | reap now timeoutSeconds =>
      simp only [plan] at h
      split at h
      · rename_i u hu
        obtain rfl := Option.some.inj h
        exact .reap hu
      · obtain rfl := Option.some.inj h
        exact .giveUp
    | crash =>
      obtain rfl := Option.some.inj h
      exact .giveUp
    | load => simp [plan] at h
    | work => simp [plan] at h
    | commit => simp [plan] at h
  | worker claim phase =>
    cases a with
    | load =>
      simp only [plan] at h
      split at h
      · rename_i u next hu
        obtain rfl := Option.some.inj h
        exact .load hu
      · exact absurd h (by simp)
    | work =>
      simp only [plan] at h
      split at h
      · rename_i u next hu
        obtain rfl := Option.some.inj h
        exact .work hu
      · exact absurd h (by simp)
    | crash =>
      obtain rfl := Option.some.inj h
      exact .giveUp
    | _ => simp [plan] at h
  | api call u =>
    cases a with
    | commit =>
      obtain rfl := Option.some.inj h
      exact .commitCall
    | crash =>
      obtain rfl := Option.some.inj h
      exact .giveUp
    | _ => simp [plan] at h
  | workerCommit claim u next =>
    cases a with
    | commit =>
      obtain rfl := Option.some.inj h
      exact .commitWork
    | crash =>
      obtain rfl := Option.some.inj h
      exact .giveUp
    | _ => simp [plan] at h
  | reaper u =>
    cases a with
    | commit =>
      obtain rfl := Option.some.inj h
      exact .commitReap
    | crash =>
      obtain rfl := Option.some.inj h
      exact .giveUp
    | _ => simp [plan] at h

/-- A worker between two commits has staged nothing. -/
@[simp]
theorem Session.held_afterCommit (claim : Claim) (next : Option Phase) :
    (Session.afterCommit claim next).held = none := by
  cases next <;> rfl

/-- What an action commits was staged by its session or by the action's own reads. Afterwards the
session has staged nothing, or the first commit of `process_deployment`. -/
theorem Planned.commit_cases {db : Db} {s s' : Session} {a : Action} {w : Writer} {u : UnitOfWork}
    (h : Planned lower db s a (.commit w u s')) :
    (s.held = some (w, u) ∨ Reads lower db s a w u) ∧
      (s'.held = none ∨ ∃ d, s'.held = some (.worker, startValidation d)) := by
  cases h with
  | call hu => exact ⟨Or.inr (.call hu), Or.inl rfl⟩
  | claim hx => exact ⟨Or.inr (.claim hx), Or.inr ⟨_, rfl⟩⟩
  | reap hu => exact ⟨Or.inr (.reap hu), Or.inl rfl⟩
  | work hu => exact ⟨Or.inr (.work hu), Or.inl (Session.held_afterCommit _ _)⟩
  | commitCall => exact ⟨Or.inl rfl, Or.inl rfl⟩
  | commitWork => exact ⟨Or.inl rfl, Or.inl (Session.held_afterCommit _ _)⟩
  | commitReap => exact ⟨Or.inl rfl, Or.inl rfl⟩

/-- What an action leaves staged, without a commit, was staged by its own reads. -/
theorem Planned.keep_cases {db : Db} {s s' : Session} {a : Action}
    (h : Planned lower db s a (.keep s')) {w : Writer} {u : UnitOfWork}
    (hu : s'.held = some (w, u)) : a.Splits w ∧ Reads lower db s a w u := by
  cases h with
  | giveUp => exact absurd hu (by simp [Session.held])
  | start hv =>
    obtain ⟨rfl, rfl⟩ := Prod.mk.inj (Option.some.inj hu)
    exact ⟨.start _, .start hv⟩
  | select hv =>
    obtain ⟨rfl, rfl⟩ := Prod.mk.inj (Option.some.inj hu)
    exact ⟨.select _ _, .select hv⟩
  | load hv =>
    obtain ⟨rfl, rfl⟩ := Prod.mk.inj (Option.some.inj hu)
    exact ⟨.load, .load hv⟩

/-- What an action commits was staged by its session or by the action's own reads. -/
theorem committed_cases {db : Db} {s : Session} {a : Action} {w : Writer} {u : UnitOfWork}
    (h : committed lower db s a = some (w, u)) :
    s.held = some (w, u) ∨ Reads lower db s a w u := by
  unfold committed at h
  split at h
  · rename_i writer v after hp
    obtain ⟨rfl, rfl⟩ := Prod.mk.inj (Option.some.inj h)
    exact (planned hp).commit_cases.1
  · simp at h

/-- An action that leaves its commit for later does not commit. -/
theorem committed_of_splits {db : Db} {s : Session} {a : Action} {w : Writer} (h : a.Splits w) :
    committed lower db s a = none := by
  unfold committed
  split
  -- No such action is planned with a commit.
  · rename_i writer u after hp
    cases h <;> cases planned hp
  · rfl

/-- An action does what it planned. A commit that is rejected leaves the database as it is and the
session idle. -/
theorem act_planned {db db' : Db} {s s' : Session} {a : Action}
    (h : act lower checked db s a = some (db', s')) :
    (db' = db ∧ Planned lower db s a (.keep s')) ∨
      ∃ w u, committed lower db s a = some (w, u) ∧ Planned lower db s a (.commit w u s') ∧
        db' = db.write u ∧ (checked w = true → (db.write u).Constraints) := by
  obtain ⟨p, hp, hr⟩ := Option.map_eq_some_iff.mp h
  cases p with
  | keep after =>
    obtain ⟨rfl, rfl⟩ := Prod.mk.inj hr
    exact Or.inl ⟨rfl, planned hp⟩
  | commit w u after =>
    simp only [commitAs] at hr
    cases hc : checked w with
    | false =>
      simp only [hc, Bool.false_eq_true, if_false, Prod.mk.injEq] at hr
      obtain ⟨rfl, rfl⟩ := hr
      exact Or.inr ⟨w, u, by rw [committed, hp], planned hp, rfl, by simp [hc]⟩
    | true =>
      simp only [hc, if_true] at hr
      -- The constraints reject the write, or accept it.
      cases hdb : db.commit u with
      | none =>
        simp only [hdb, Prod.mk.injEq] at hr
        obtain ⟨rfl, rfl⟩ := hr
        exact Or.inl ⟨rfl, .giveUp⟩
      | some db₁ =>
        simp only [hdb, Prod.mk.injEq] at hr
        obtain ⟨rfl, rfl⟩ := hr
        obtain ⟨hcons, rfl⟩ := Db.commit_eq_some.mp hdb
        exact Or.inr ⟨w, u, by rw [committed, hp], planned hp, rfl, fun _ => hcons⟩

/-- A step leaves the database as it is, or writes what its action commits. -/
theorem stepWith_cases {s s' : State} {i : ℕ} {a : Action}
    (h : stepWith lower checked s (i, a) = some s') :
    s'.shared = s.shared ∨ ∃ w u, committed lower s.shared (s.locals i) a = some (w, u) ∧
      s'.shared = s.shared.write u ∧ (checked w = true → (s.shared.write u).Constraints) := by
  obtain ⟨db, l, hact, rfl⟩ := Config.step_eq_some.mp h
  rcases act_planned hact with ⟨hdb, -⟩ | ⟨w, u, hcom, -, hdb, hcons⟩
  · exact Or.inl hdb
  · exact Or.inr ⟨w, u, hcom, hdb, hcons⟩

/-- A step writes what its action commits if the constraints accept it. -/
theorem written_eq_some {s : State} {p : ℕ × Action} {w : Writer} {u : UnitOfWork} :
    written lower s p = some (w, u) ↔
      committed lower s.shared (s.locals p.1) p.2 = some (w, u) ∧
        (s.shared.write u).Constraints := by
  simp [written, Option.filter_eq_some_iff]

/-- What a step of the platform does: it writes nothing and leaves the database as it is, or it
writes a unit of work that the constraints accept. -/
theorem step_cases {s s' : State} {i : ℕ} {a : Action} (h : step lower s (i, a) = some s') :
    (∃ l, written lower s (i, a) = none ∧ Planned lower s.shared (s.locals i) a (.keep l) ∧
        s' = ⟨s.shared, Function.update s.locals i l⟩) ∨
      ∃ w u l, written lower s (i, a) = some (w, u) ∧
        Planned lower s.shared (s.locals i) a (.commit w u l) ∧
        s' = ⟨s.shared.write u, Function.update s.locals i l⟩ := by
  obtain ⟨db, l, hact, rfl⟩ := Config.step_eq_some.mp h
  obtain ⟨p, hp, hr⟩ := Option.map_eq_some_iff.mp hact
  cases p with
  | keep after =>
    obtain ⟨rfl, rfl⟩ := Prod.mk.inj hr
    exact Or.inl ⟨_, by simp [written, committed, hp], planned hp, rfl⟩
  | commit w u after =>
    by_cases hcons : (s.shared.write u).Constraints
    · simp only [commitAs, if_true, Db.commit, hcons, Prod.mk.injEq] at hr
      obtain ⟨rfl, rfl⟩ := hr
      exact Or.inr ⟨w, u, _, by simp [written, committed, hp, hcons], planned hp, rfl⟩
    · -- The constraints reject the commit, and the session ends.
      simp only [commitAs, if_true, Db.commit, hcons, if_false, Prod.mk.injEq] at hr
      obtain ⟨rfl, rfl⟩ := hr
      exact Or.inl ⟨_, by simp [written, committed, hp, hcons], .giveUp, rfl⟩

/-- A step leaves the database as what it writes has made it. -/
theorem shared_of_written {s s' : State} {i : ℕ} {a : Action} {w : Writer} {u : UnitOfWork}
    (h : step lower s (i, a) = some s') (hwritten : written lower s (i, a) = some (w, u)) :
    s'.shared = s.shared.write u := by
  rcases step_cases h with ⟨l, hnone, -, -⟩ | ⟨w', u', l, hsome, -, rfl⟩
  · rw [hwritten] at hnone
    exact absurd hnone (by simp)
  · rw [hwritten] at hsome
    obtain ⟨rfl, rfl⟩ := Prod.mk.inj (Option.some.inj hsome)
    rfl

/-- A step that writes nothing leaves the database as it is. -/
theorem shared_of_written_eq_none {s s' : State} {i : ℕ} {a : Action}
    (h : step lower s (i, a) = some s') (hwritten : written lower s (i, a) = none) :
    s'.shared = s.shared := by
  rcases step_cases h with ⟨l, -, -, rfl⟩ | ⟨w, u, l, hsome, -, -⟩
  · rfl
  · rw [hwritten] at hsome
    exact absurd hsome (by simp)

/-- A step whose commit the constraints accept writes it. -/
theorem step_of_accepted {s s' : State} {i : ℕ} {a : Action} {w : Writer} {u : UnitOfWork}
    (h : step lower s (i, a) = some s')
    (hcom : committed lower s.shared (s.locals i) a = some (w, u))
    (hcons : (s.shared.write u).Constraints) : s'.shared = s.shared.write u := by
  apply shared_of_written h
  exact written_eq_some.mpr ⟨hcom, hcons⟩

/-- What sessions have staged meets `J`. -/
def State.Holds (J : Db → Writer → UnitOfWork → Prop) (s : State) : Prop :=
  ∀ i w u, (s.locals i).held = some (w, u) → J s.shared w u

/-- A unit of work that an action commits meets what the staged ones meet, or was staged by the
action's own reads. -/
theorem State.Holds.committed {J : Db → Writer → UnitOfWork → Prop} {s : State} (h : s.Holds J)
    {i : ℕ} {a : Action} {w : Writer} {u : UnitOfWork}
    (hcom : committed lower s.shared (s.locals i) a = some (w, u)) :
    J s.shared w u ∨ Reads lower s.shared (s.locals i) a w u :=
  (committed_cases hcom).imp_left (h i w u)

/-- The rely-guarantee rule of the platform. `I` is an invariant of the database, `J` what a staged
unit of work may rely on between the reads and the commit of its session, and `R` the changes of the
database that `J` survives. -/
theorem reach_invariant {ok : State → ℕ × Action → Prop} {I : Db → Prop}
    {J : Db → Writer → UnitOfWork → Prop} {R : Db → Db → Prop} {s₀ s : State}
    (h : Reach (stepWith lower checked) ok s₀ s) (hI : I s₀.shared) (hJ : s₀.Holds J)
    (hvalidation : ∀ db d, J db .worker (startValidation d))
    (hheld : ∀ s i a w u, ok s (i, a) → I s.shared → a.Splits w →
      Reads lower s.shared (s.locals i) a w u → J s.shared w u)
    (hwrite : ∀ s i a w u, ok s (i, a) → I s.shared →
      committed lower s.shared (s.locals i) a = some (w, u) →
      J s.shared w u ∨ Reads lower s.shared (s.locals i) a w u →
      (checked w = true → (s.shared.write u).Constraints) →
      I (s.shared.write u) ∧ R s.shared (s.shared.write u))
    (hrefl : ∀ db, R db db) (hstable : ∀ db db' w u, R db db' → J db w u → J db' w u) :
    I s.shared ∧ s.Holds J := by
  refine h.rely_guarantee (P := fun db (l : Session) => ∀ w u, l.held = some (w, u) → J db w u)
    (R := R) hI hJ ?_ fun db db' l hR hl w u hu => hstable db db' w u hR (hl w u hu)
  intro s i a db' l' hoka hIs hPs hact
  rcases act_planned hact with ⟨rfl, hplan⟩ | ⟨w, u, hcom, hplan, rfl, hcons⟩
  · -- Nothing is committed, and what the session holds it has just read.
    refine ⟨hIs, fun w u hu => ?_, hrefl _⟩
    obtain ⟨hsplit, hreads⟩ := hplan.keep_cases hu
    exact hheld s i a w u hoka hIs hsplit hreads
  · have hu : J s.shared w u ∨ Reads lower s.shared (s.locals i) a w u :=
      (committed_cases hcom).imp_left (hPs w u)
    obtain ⟨hI', hR⟩ := hwrite s i a w u hoka hIs hcom hu hcons
    refine ⟨hI', fun w' v hv => ?_, hR⟩
    -- After a commit the session holds nothing, or the first commit of `process_deployment`.
    rcases hplan.commit_cases.2 with hnone | ⟨d, hd⟩
    · simp [hnone] at hv
    · rw [hd] at hv
      obtain ⟨rfl, rfl⟩ := Prod.mk.inj (Option.some.inj hv)
      exact hvalidation _ d

/-- The initial state has nothing staged. -/
theorem State.init_holds (J : Db → Writer → UnitOfWork → Prop) : State.init.Holds J := by
  intro i w u hu
  exact absurd hu (by simp [State.init, Session.held])

/-- What the reads of a run's steps stage, whatever the database, is what sessions hold in it. -/
theorem reach_holds {ok : State → ℕ × Action → Prop} {K : Writer → UnitOfWork → Prop} {s : State}
    (h : Reach (stepWith lower checked) ok .init s)
    (hvalidation : ∀ d, K .worker (startValidation d))
    (hreads : ∀ s i a w u, ok s (i, a) → a.Splits w →
      Reads lower s.shared (s.locals i) a w u → K w u) : s.Holds fun _ w u => K w u := by
  refine (reach_invariant (I := fun _ => True) (R := fun _ _ => True) h trivial (State.init_holds _)
    ?_ ?_ ?_ ?_ ?_).2
  · exact fun _ d => hvalidation d
  · exact fun s i a w u hok _ hsplit hread => hreads s i a w u hok hsplit hread
  · exact fun _ _ _ _ _ _ _ _ _ _ => ⟨trivial, trivial⟩
  · exact fun _ => trivial
  · exact fun _ _ _ _ _ hu => hu

/-- In a run of atomic calls, what sessions hold between reads and commit belongs to workers and
reapers. -/
theorem reach_notApi {ok : State → ℕ × Action → Prop} (hok : ∀ s p, ok s p → AtomicCalls s p)
    {s : State} (h : Reach (stepWith lower checked) ok .init s) :
    s.Holds fun _ w _ => w.isApi = false :=
  reach_holds (K := fun w _ => w.isApi = false) h (fun _ => rfl)
    fun s i a _ _ hoka hsplit _ => (hok s (i, a) hoka).not_api hsplit

/-- The constraints hold in every state that is reached from one in which they hold. -/
theorem constraints_of_reach {ok : State → ℕ × Action → Prop} {s₀ s : State}
    (hcons : s₀.shared.Constraints) (h : Reach (step lower) ok s₀ s) : s.shared.Constraints := by
  refine h.invariant (I := fun s => s.shared.Constraints) hcons ?_
  rintro s ⟨i, a⟩ s' - hs - hstep
  rcases step_cases hstep with ⟨l, -, -, rfl⟩ | ⟨w, u, l, hwritten, -, rfl⟩
  · exact hs
  · exact (written_eq_some.mp hwritten).2

/-- Where the database checks every write, its constraints hold in every state reached. -/
theorem reach_constraints {ok : State → ℕ × Action → Prop} {s : State}
    (h : Reach (step lower) ok .init s) : s.shared.Constraints := by
  refine constraints_of_reach ?_ h
  exact ⟨List.Pairwise.nil, List.Pairwise.nil, List.Pairwise.nil, List.Pairwise.nil⟩

/-! ## Runs on concrete inputs -/

/-- Session 0 registers a model and two versions of it, and validates both. -/
def registration : List (ℕ × Action) :=
  [(0, .call (.createModel 9 { name := "pump failure", owner := "ops", framework := .pytorch })),
    (0, .call (.createVersion 9 none 1 { version := "1.0", artifactUri := "s3://pump/1" })),
    (0, .call (.transitionVersion 9 none 1 .validated)),
    (0, .call (.createVersion 9 none 1 { version := "2.0", artifactUri := "s3://pump/2" })),
    (0, .call (.transitionVersion 9 none 2 .validated))]

/-- The database after `registration`. -/
def pumpDb : Db := (exec (step id) (fun _ _ => True) .init registration).shared

/-- The model that `registration` registers. -/
def pump : Model :=
  { id := 1, key := "pump-failure", name := "pump failure", owner := "ops", framework := "pytorch"
    tags := [], createdBy := some 9 }

/-- A request for the deployment of a version, without a key. -/
def request (versionId : Uuid) (environment : Environment) (simulateFailure : Bool) : Action :=
  .call (.requestDeployment 9 none
    { modelVersionId := versionId, environment, idempotencyKey := none, simulateFailure })

/-- Session `i` claims the oldest job as worker `w` at a time, and processes it without a pause. -/
def executeJob (i : ℕ) (w : String) (now : Time) : List (ℕ × Action) :=
  [(i, .claim w now []), (i, .commit), (i, .work), (i, .work)]

/-- Versions 1 and 2 are deployed to development one after the other. -/
def twoDeployments : List (ℕ × Action) :=
  registration ++ [(0, request 1 .development false)] ++ executeJob 1 "a" 10 ++
    [(0, request 2 .development false)] ++ executeJob 1 "a" 20

end MlopsPlatform
