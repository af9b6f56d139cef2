import MlopsPlatform.Api.Calls
import MlopsPlatform.Registry.Governance

/-!
# Who may have done what

The governance mapping of `core/enums.py`: engineers create models and versions and request
deployments, approvers approve and promote versions, and only ADMIN, who may do all of it, rolls
back. Every row tells by whom it was written: the creator of a model, a version or a deployment, the
approver of a version, and the actor of an event. `Db.Attributed` says that all of them are users
with a role that permits it. It holds in every state that a server reaches, in every interleaving of
requests, workers and reapers, because what a call stages carries the user that the guard has let
through, and no write changes what an earlier one has recorded.
-/

namespace MlopsPlatform.Api

open Transition

/-! ## Permissions -/

/-- The user with an id has one of the roles, or is ADMIN. -/
def Users.May (users : Users) (roles : List Role) (userId : Uuid) : Prop :=
  ∃ u ∈ users.rows, u.id = userId ∧ u.role ∈ allowedSet roles

/-- The roles that a call requires of its actor. -/
def callRoles : Call → List Role
  | .createModel _ _ => [.engineer]
  | .createVersion _ _ _ _ => [.engineer]
  | .approveVersion _ _ _ _ => [.approver]
  | .transitionVersion _ _ _ _ => [.approver]
  | .requestDeployment _ _ _ => [.engineer]
  | .retryDeployment _ _ => [.engineer]
  | .rollbackDeployment _ _ => [.admin]

/-- The user that a call is made for. -/
def callActor : Call → Uuid
  | .createModel actorId _ => actorId
  | .createVersion actorId _ _ _ => actorId
  | .approveVersion actorId _ _ _ => actorId
  | .transitionVersion actorId _ _ _ => actorId
  | .requestDeployment actorId _ _ => actorId
  | .retryDeployment actorId _ => actorId
  | .rollbackDeployment actorId _ => actorId

/-- The call is made for a user who may make it. -/
def Users.Permits (users : Users) (call : Call) : Prop :=
  users.May (callRoles call) (callActor call)

/-- A request that the guard lets through makes a call that its user may make. -/
theorem permits_of_guard {env : Env} {r : HttpRequest} {u : User} (h : r.guard env = .ok u) :
    env.users.Permits (r.call u) := by
  obtain ⟨hcurrent, hrole⟩ := guardRoles_eq_ok.mp h
  obtain ⟨token, payload, username, -, -, -, -, hnamed⟩ := getCurrentUser_eq_ok.mp hcurrent
  have hmem := (Users.mem_of_named hnamed).1
  unfold Users.Permits HttpRequest.call
  cases hr : r.request <;> rw [hr] at hrole <;> exact ⟨u, hmem, rfl, hrole⟩

/-- The steps of the platform in which every call is made for a user who may make it. -/
abbrev Authorized (users : Users) : State → ℕ × Action → Prop := CallsMeet users.Permits

/-- What the server does on the platform is authorized. -/
theorem authorized_of_onPlatform {env : Env} {x : ServerAction} {i : ℕ} {a : Action} (s : State)
    (h : x.onPlatform env = some a) : Authorized env.users s (i, a) := by
  rintro call hcall
  cases x with
  | login username password now => simp [ServerAction.onPlatform] at h
  | request r =>
    cases hg : r.guard env with
    | error e => simp [ServerAction.onPlatform, hg] at h
    | ok u =>
      obtain rfl : Action.start (r.call u) = a := by simpa [ServerAction.onPlatform, hg] using h
      obtain rfl : r.call u = call := by simpa using hcall
      exact permits_of_guard hg
  | proceed b =>
    simp only [ServerAction.onPlatform] at h
    split_ifs at h with hb
    obtain rfl := Option.some.inj h
    rcases hcall with rfl | rfl <;> simp [makesCall] at hb

/-! ## What is written, and for whom -/

/-- The events that a worker records. -/
def workerEvents : List String :=
  ["validation_started", "deployment_started", "approval_validation_failed", "runtime_timeout",
    "deployment_completed"]

/-- The events that the reaper records. -/
def reaperEvents : List String := ["worker_lost", "requeued"]

/-- The actor of a timeline entry may have done what the entry tells. -/
def Users.Tells (users : Users) (e : DeploymentEvent) : Prop :=
  (e.event ∈ ["requested", "retry_requested"] ∧
      ∃ id, e.actor = some (toString id) ∧ users.May [.engineer] id) ∨
    (e.event = "rolled_back" ∧ ∃ id, e.actor = some (toString id) ∧ users.May [.admin] id) ∨
    (e.event ∈ workerEvents ∧ e.actor = some "worker") ∨
    (e.event ∈ reaperEvents ∧ e.actor = some "reaper")

/-- The roles that an entry of an audit trail asks of its actor. -/
def operationRoles : VersionOperation → List Role
  | .createVersion => [.engineer]
  | .approveVersion => [.approver]
  | .transitionVersion => [.approver]

/-- The actor of an entry of an audit trail may have done what the entry tells. -/
def Users.TellsVersion (users : Users) (e : ModelVersionEvent) : Prop :=
  ∃ id, e.actorId = some id ∧ users.May (operationRoles e.recordedBy) id

/-- Everything stored was written for users who may have done it. -/
structure Db.Attributed (users : Users) (db : Db) : Prop where
  model : ∀ m ∈ db.models, ∃ id, m.createdBy = some id ∧ users.May [.engineer] id
  version : ∀ v ∈ db.versions, ∃ id, v.createdBy = some id ∧ users.May [.engineer] id
  approver : ∀ v ∈ db.versions, ∀ id ∈ v.approvedBy, users.May [.approver] id
  /-- A version that has left DRAFT was moved by an approver. -/
  moved : ∀ v ∈ db.versions, v.stage ≠ .draft → ∃ e ∈ db.versionEvents,
    e.modelVersionId = v.id ∧ e.recordedBy ≠ .createVersion
  versionEvent : ∀ e ∈ db.versionEvents, users.TellsVersion e
  deployment : ∀ d ∈ db.deployments, ∃ id, d.createdBy = some id ∧ users.May [.engineer] id
  /-- A deployment that is ROLLED_BACK has the event of it. -/
  rolledBack : ∀ d ∈ db.deployments, d.status = .rolledBack → ∃ e ∈ db.deploymentEvents,
    e.deploymentId = d.id ∧ e.event = "rolled_back"
  event : ∀ e ∈ db.deploymentEvents, users.Tells e

/-- What a staged unit of work brings along for it. -/
def UnitOfWork.Attributed (users : Users) : UnitOfWork → Prop
  | .insertModel model => ∀ n, ∃ id, (model.1 n).createdBy = some id ∧ users.May [.engineer] id
  | .insertVersion version event =>
    (∀ n, (∃ id, (version.1 n).createdBy = some id ∧ users.May [.engineer] id) ∧
      (version.1 n).approvedBy = none ∧ (version.1 n).stage = .draft) ∧
      ∀ n m, users.TellsVersion ((event n).1 m)
  | .updateVersion loaded assigned event =>
    (assigned.approvedBy = loaded.approvedBy ∨
      ∃ id, assigned.approvedBy = some id ∧ users.May [.approver] id) ∧
      ∀ n, users.TellsVersion (event.1 n) ∧ (event.1 n).modelVersionId = loaded.id ∧
        (event.1 n).recordedBy ≠ .createVersion
  | .insertDeployment deployment event =>
    (∀ n, (∃ id, (deployment.1 n).createdBy = some id ∧ users.May [.engineer] id) ∧
      (deployment.1 n).status = .requested) ∧ ∀ n m, users.Tells ((event n).1 m)
  | .updateDeployments dirty events =>
    (∀ x ∈ dirty, x.assigned.status = .rolledBack → x.loaded.status ≠ .rolledBack →
      ∃ e ∈ events, ∀ n, (e.1 n).deploymentId = x.loaded.id ∧ (e.1 n).event = "rolled_back") ∧
      ∀ e ∈ events, ∀ n, users.Tells (e.1 n)

/-! ## What each operation stages -/

/-- A call that its actor may make stages what is attributed to the actor. -/
theorem attributed_of_returns {users : Users} {lower : String → String} {db : Db} {call : Call}
    {u : UnitOfWork} (hmay : users.Permits call) (h : call.Returns lower db u) :
    UnitOfWork.Attributed users u := by
  cases call with
  | createModel actorId data =>
    obtain ⟨key, -, rfl⟩ := Option.map_eq_some_iff.mp h
    exact fun n => ⟨actorId, rfl, hmay⟩
  | createVersion actorId correlationId modelId data =>
    obtain ⟨-, -, rfl⟩ := createVersion_eq_ok.mp h
    exact ⟨fun n => ⟨⟨actorId, rfl, hmay⟩, rfl, rfl⟩, fun n m => ⟨actorId, rfl, hmay⟩⟩
  | approveVersion actorId correlationId versionId now =>
    obtain ⟨v, -, -, rfl⟩ := approveVersion_eq_ok.mp h
    refine ⟨Or.inr ⟨actorId, rfl, hmay⟩, fun n => ⟨⟨actorId, rfl, hmay⟩, rfl, ?_⟩⟩
    simp [recordVersionEvent]
  | transitionVersion actorId correlationId versionId target =>
    obtain ⟨v, -, -, -, rfl⟩ := transitionVersion_eq_ok.mp h
    refine ⟨Or.inl rfl, fun n => ⟨⟨actorId, rfl, hmay⟩, rfl, ?_⟩⟩
    simp [recordVersionEvent]
  | requestDeployment actorId correlationId data =>
    obtain ⟨v, deployment, event, -, -, -, rfl, hrow⟩ := requestDeployment_eq_staged h
    refine ⟨fun n => ?_, fun n m => ?_⟩
    · rw [(hrow n).1]
      exact ⟨⟨actorId, rfl, hmay⟩, rfl⟩
    · rw [(hrow n).2]
      exact Or.inl ⟨by simp [recordEvent], actorId, rfl, hmay⟩
  | retryDeployment actorId deploymentId =>
    obtain ⟨d, -, -, rfl⟩ := retryDeployment_eq_ok.mp h
    refine ⟨fun x hx hs => ?_, fun e he n => ?_⟩
    · obtain rfl := List.mem_singleton.mp hx
      exact absurd hs (by simp)
    · obtain rfl := List.mem_singleton.mp he
      exact Or.inl ⟨by simp [recordEvent], actorId, rfl, hmay⟩
  | rollbackDeployment actorId deploymentId =>
    obtain ⟨d, t, -, -, -, rfl⟩ := rollbackDeployment_eq_ok.mp h
    refine ⟨fun x hx _ _ => ?_, fun e he n => ?_⟩
    · obtain rfl := List.mem_singleton.mp hx
      exact ⟨_, List.mem_singleton_self _, fun n => ⟨rfl, rfl⟩⟩
    · obtain rfl := List.mem_singleton.mp he
      exact Or.inr (Or.inl ⟨rfl, actorId, rfl, hmay⟩)

/-- What a worker or the reaper stages is attributed to it. -/
theorem attributed_of_staged {users : Users} {lower : String → String} {db : Db} {w : Writer}
    {u : UnitOfWork} (h : Staged lower db w u) (hw : ∀ call, w = .api call → users.Permits call) :
    UnitOfWork.Attributed users u := by
  cases h with
  | call hc => exact attributed_of_returns (hw _ rfl) (Call.stage_eq_ok hc)
  | claim hx =>
    obtain ⟨-, -, -, -, hassigned⟩ := claimOne_eq_some.mp hx
    refine ⟨fun y hy hs => ?_, fun e he => absurd he List.not_mem_nil⟩
    obtain rfl := List.mem_singleton.mp hy
    rw [hassigned] at hs
    exact absurd hs (by simp)
  | segment hs =>
    obtain ⟨d, assigned, event, message, -, hwrite, rfl⟩ := processDeployment_eq_some hs
    refine ⟨fun y hy hs => ?_, fun e he n => ?_⟩
    · obtain rfl := List.mem_singleton.mp hy
      have hne : assigned.status ≠ .rolledBack := by
        cases hwrite <;> simp
      exact absurd hs hne
    · obtain rfl := List.mem_singleton.mp he
      have hevent : event ∈ workerEvents := by
        cases hwrite <;> simp [workerEvents]
      exact Or.inr (Or.inr (Or.inl ⟨hevent, rfl⟩))
  | reap hr =>
    obtain ⟨stuck, -, rfl⟩ := reapStuck_eq_some hr
    refine ⟨fun y hy hs => ?_, fun e he n => ?_⟩
    · obtain ⟨d, -, rfl⟩ := List.mem_map.mp hy
      exact absurd hs (reaped_status d).2
    · obtain ⟨d, -, rfl⟩ := List.mem_map.mp he
      refine Or.inr (Or.inr (Or.inr ?_))
      unfold reapEvent
      split_ifs <;> exact ⟨by simp [recordEvent, reaperEvents], rfl⟩

/-- The first commit of `process_deployment` is attributed to the worker. -/
theorem attributed_startValidation (users : Users) (d : Deployment) :
    UnitOfWork.Attributed users (startValidation d) := by
  refine ⟨fun x hx => absurd hx List.not_mem_nil, fun e he n => ?_⟩
  obtain rfl := List.mem_singleton.mp he
  exact Or.inr (Or.inr (Or.inl ⟨by simp [recordEvent, workerEvents], rfl⟩))

/-! ## What a write keeps -/

section

variable {users : Users} {db : Db} {u : UnitOfWork}

/-- No write changes the creator of a version. Its approver is the one that is stored, or the one
that the unit of work assigns. -/
theorem onVersion_people (u : UnitOfWork) (v : ModelVersion) :
    (u.onVersion v).createdBy = v.createdBy ∧ ((u.onVersion v).approvedBy = v.approvedBy ∨
      ∃ loaded assigned event, u = .updateVersion loaded assigned event ∧ loaded.id = v.id ∧
        assigned.approvedBy ≠ loaded.approvedBy ∧
        (u.onVersion v).approvedBy = assigned.approvedBy) := by
  cases u with
  | updateVersion loaded assigned event =>
    simp only [UnitOfWork.onVersion]
    split_ifs with hid
    · refine ⟨rfl, ?_⟩
      rcases flushColumn_cases loaded.approvedBy assigned.approvedBy v.approvedBy with
        ⟨-, hkeep⟩ | ⟨hne, hassign⟩
      · exact Or.inl hkeep
      · exact Or.inr ⟨loaded, assigned, event, rfl, hid, hne, hassign⟩
    · exact ⟨rfl, Or.inl rfl⟩
  | _ => exact ⟨rfl, Or.inl rfl⟩

/-- A version whose stage a write changes is the one that the unit of work updates. -/
theorem loaded_of_stage_ne {v : ModelVersion} (h : (u.onVersion v).stage ≠ v.stage) :
    ∃ loaded assigned event, u = .updateVersion loaded assigned event ∧ loaded.id = v.id := by
  cases u with
  | updateVersion loaded assigned event =>
    simp only [UnitOfWork.onVersion] at h
    split_ifs at h with hid
    · exact ⟨loaded, assigned, event, rfl, hid⟩
    · exact absurd rfl h
  | _ => exact absurd rfl h

/-- No write changes the creator of a deployment. -/
theorem onDeployment_createdBy (u : UnitOfWork) (d : Deployment) :
    (u.onDeployment d).createdBy = d.createdBy := by
  rcases u.onDeployment_cases d with h | ⟨dirty, events, x, -, -, -, h⟩
  · rw [h]
  · rw [h]
    rfl

/-- A deployment that a write moves to ROLLED_BACK is one that the unit of work rolls back. -/
theorem rollsBack_of_status {d : Deployment} (h : (u.onDeployment d).status = .rolledBack)
    (hd : d.status ≠ .rolledBack) : ∃ dirty events x, u = .updateDeployments dirty events ∧
      x ∈ dirty ∧ x.loaded.id = d.id ∧ x.assigned.status = .rolledBack ∧
      x.loaded.status ≠ .rolledBack := by
  rcases u.onDeployment_cases d with hsame | ⟨dirty, events, x, hu, hx, hid, hflush⟩
  · rw [hsame] at h
    exact absurd h hd
  · rw [hflush] at h
    have hstatus : flushColumn x.loaded.status x.assigned.status d.status = .rolledBack := h
    rcases flushColumn_cases x.loaded.status x.assigned.status d.status with
      ⟨-, hkeep⟩ | ⟨hne, hassign⟩
    · rw [hkeep] at hstatus
      exact absurd hstatus hd
    · rw [hassign] at hstatus
      exact ⟨dirty, events, x, hu, hx, hid, hstatus, fun hl => hne (hstatus.trans hl.symm)⟩

/-- The models after an attributed write have a creator who may create them. -/
theorem Db.Attributed.model_write (h : Db.Attributed users db)
    (hu : UnitOfWork.Attributed users u) {m : Model} (hm : m ∈ (db.write u).models) :
    ∃ id, m.createdBy = some id ∧ users.May [.engineer] id := by
  cases u with
  | insertModel model =>
    rcases Table.mem_insert.mp hm with hold | rfl
    · exact h.model m hold
    · exact hu _
  | _ => exact h.model m hm

/-- The versions after an attributed write have a creator who may create them, and an approver who
may approve them. -/
theorem Db.Attributed.version_write (h : Db.Attributed users db)
    (hu : UnitOfWork.Attributed users u) {v : ModelVersion} (hv : v ∈ (db.write u).versions) :
    (∃ id, v.createdBy = some id ∧ users.May [.engineer] id) ∧
      ∀ id ∈ v.approvedBy, users.May [.approver] id := by
  rcases Db.mem_versions_write hv with ⟨w, hw, rfl⟩ | ⟨version, event, rfl, rfl⟩
  · obtain ⟨hcreated, happroved⟩ := onVersion_people u w
    rw [hcreated]
    refine ⟨h.version w hw, fun id hid => ?_⟩
    rcases happroved with hkeep | ⟨loaded, assigned, event, rfl, -, hne, hassign⟩
    · rw [hkeep] at hid
      exact h.approver w hw id hid
    · rcases hu.1 with hsame | ⟨actor, hactor, hmay⟩
      · exact absurd hsame hne
      · rw [hassign, hactor] at hid
        obtain rfl := Option.some.inj hid
        exact hmay
  · obtain ⟨hcreated, happroved, -⟩ := hu.1 db.versions.next
    refine ⟨hcreated, fun id hid => ?_⟩
    rw [happroved] at hid
    exact absurd hid (by simp)

/-- The entries of audit trails after an attributed write tell who may have done it. -/
theorem Db.Attributed.versionEvent_write (h : Db.Attributed users db)
    (hu : UnitOfWork.Attributed users u) {e : ModelVersionEvent}
    (he : e ∈ (db.write u).versionEvents) : users.TellsVersion e := by
  cases u with
  | insertVersion version event =>
    rcases Table.mem_insert.mp he with hold | rfl
    · exact h.versionEvent e hold
    · exact hu.2 _ _
  | updateVersion loaded assigned event =>
    rcases Table.mem_insert.mp he with hold | rfl
    · exact h.versionEvent e hold
    · exact (hu.2 _).1
  | _ => exact h.versionEvent e he

/-- After an attributed write, a version that has left DRAFT was moved by an approver. -/
theorem Db.Attributed.moved_write (h : Db.Attributed users db)
    (hu : UnitOfWork.Attributed users u) {v : ModelVersion} (hv : v ∈ (db.write u).versions)
    (hstage : v.stage ≠ .draft) : ∃ e ∈ (db.write u).versionEvents,
      e.modelVersionId = v.id ∧ e.recordedBy ≠ .createVersion := by
  rcases Db.mem_versions_write hv with ⟨w, hw, rfl⟩ | ⟨version, event, rfl, rfl⟩
  · rw [u.onVersion_id]
    by_cases hsame : (u.onVersion w).stage = w.stage
    · rw [hsame] at hstage
      obtain ⟨e, he, htells⟩ := h.moved w hw hstage
      exact ⟨e, Db.mem_versionEvents_write u he, htells⟩
    · -- The event of the update is recorded with it.
      obtain ⟨loaded, assigned, event, rfl, hid⟩ := loaded_of_stage_ne hsame
      obtain ⟨-, hversion, hrecorded⟩ := hu.2 db.versionEvents.next
      exact ⟨_, Table.mem_insert.mpr (Or.inr rfl), hversion.trans hid, hrecorded⟩
  · exact absurd (hu.1 db.versions.next).2.2 hstage

/-- The deployments after an attributed write have a creator who may request them. -/
theorem Db.Attributed.deployment_write (h : Db.Attributed users db)
    (hu : UnitOfWork.Attributed users u) {d : Deployment} (hd : d ∈ (db.write u).deployments) :
    ∃ id, d.createdBy = some id ∧ users.May [.engineer] id := by
  rcases Db.mem_deployments_write hd with ⟨e, he, rfl⟩ | ⟨deployment, event, rfl, rfl⟩
  · rw [onDeployment_createdBy]
    exact h.deployment e he
  · exact (hu.1 _).1

/-- After an attributed write, a deployment that is ROLLED_BACK has the event of it. -/
theorem Db.Attributed.rolledBack_write (h : Db.Attributed users db)
    (hu : UnitOfWork.Attributed users u) {d : Deployment} (hd : d ∈ (db.write u).deployments)
    (hstatus : d.status = .rolledBack) : ∃ e ∈ (db.write u).deploymentEvents,
      e.deploymentId = d.id ∧ e.event = "rolled_back" := by
  rcases Db.mem_deployments_write hd with ⟨w, hw, rfl⟩ | ⟨deployment, event, rfl, rfl⟩
  · rw [u.onDeployment_id]
    by_cases hold : w.status = .rolledBack
    · obtain ⟨e, he, htells⟩ := h.rolledBack w hw hold
      exact ⟨e, Db.mem_deploymentEvents_of_mem u he, htells⟩
    · obtain ⟨dirty, events, x, rfl, hx, hid, hassigned, hloaded⟩ :=
        rollsBack_of_status hstatus hold
      obtain ⟨draft, hdraft, htells⟩ := hu.1 x hx hassigned hloaded
      obtain ⟨n, -, hn⟩ := Table.exists_mem_insertAll (t := db.deploymentEvents) hdraft
      exact ⟨_, hn, (htells n).1.trans hid, (htells n).2⟩
  · rw [(hu.1 _).2] at hstatus
    exact absurd hstatus (by simp)

/-- The timeline entries after an attributed write tell who may have done it. -/
theorem Db.Attributed.event_write (h : Db.Attributed users db)
    (hu : UnitOfWork.Attributed users u) {e : DeploymentEvent}
    (he : e ∈ (db.write u).deploymentEvents) : users.Tells e := by
  rcases Db.mem_deploymentEvents_write he with hold | ⟨x, n, hx, rfl⟩
  · exact h.event e hold
  · cases u with
    | insertDeployment deployment event =>
      obtain ⟨id, rfl⟩ := hx
      exact hu.2 id n
    | updateDeployments dirty events => exact hu.2 x hx n
    | _ => exact absurd hx not_false

/-- An attributed write keeps the database attributed. -/
theorem Db.Attributed.write (h : Db.Attributed users db) (hu : UnitOfWork.Attributed users u) :
    Db.Attributed users (db.write u) where
  model _ hm := h.model_write hu hm
  version _ hv := (h.version_write hu hv).1
  approver _ hv := (h.version_write hu hv).2
  moved _ hv hstage := h.moved_write hu hv hstage
  versionEvent _ he := h.versionEvent_write hu he
  deployment _ hd := h.deployment_write hu hd
  rolledBack _ hd hstatus := h.rolledBack_write hu hd hstatus
  event _ he := h.event_write hu he

/-- The empty database is attributed. -/
theorem Db.attributed_empty : Db.Attributed users .empty := by
  constructor <;> exact fun x hx => absurd hx (Table.not_mem_empty x)

end

/-! ## Every reachable state -/

/-- Where every call is made for a user who may make it, the database is attributed in every state
reached. -/
theorem reach_attributed {users : Users} {lower : String → String} {s : State}
    (h : Reach (step lower) (Authorized users) .init s) : Db.Attributed users s.shared := by
  refine reach_made (J := fun _ u => UnitOfWork.Attributed users u) (R := fun _ _ => True) h
    Db.attributed_empty ?_ ?_ ?_ ?_ ?_ ?_
  · exact fun db call u _ hmay hreturns => attributed_of_returns hmay hreturns
  · intro db w u _ hw hstaged
    refine attributed_of_staged hstaged fun call hcall => ?_
    subst hcall
    exact absurd hw (by simp [Writer.isApi])
  · exact fun db x workerId now locked _ _ => attributed_startValidation users x.assigned
  · exact fun db u hdb hu => ⟨hdb.write hu, trivial⟩
  · exact fun _ => trivial
  · exact fun _ _ _ _ hu => hu

/-- The runs of a server are runs of the platform in which every call is authorized. -/
theorem authorized_of_reach {env : Env} {ok : Server → ℕ × ServerAction → Prop} {s : Server}
    (h : Reach (serve env) ok .init s) :
    Reach (step env.lower) (Authorized env.users) .init s.platform := by
  refine (platform_of_reach h).mono ?_
  rintro s ⟨i, a⟩ ⟨x, hx⟩
  exact authorized_of_onPlatform s hx

/-- The governance mapping of the roles, in every interleaving of requests, workers and reapers: all
that is stored was written for users who may have written it. A version that has left DRAFT was
moved by an approver; a version that is APPROVED, in STAGING or in PRODUCTION, and the version of a
deployment to staging or production, has an approver who may approve; and a deployment that is
ROLLED_BACK was rolled back by an ADMIN. -/
theorem governed_of_serve {env : Env} {s : Server}
    (h : Reach (serve env) (fun _ _ => True) .init s) :
    Db.Attributed env.users s.platform.shared ∧
      (∀ v ∈ s.platform.shared.versions, v.stage ≠ .draft →
        ∃ e ∈ s.platform.shared.versionEvents, e.modelVersionId = v.id ∧
          ∃ id, e.actorId = some id ∧ env.users.May [.approver] id) ∧
      (∀ v ∈ s.platform.shared.versions, v.stage ∈ requiresApproval →
        ∃ id, v.approvedBy = some id ∧ env.users.May [.approver] id) ∧
      (∀ d ∈ s.platform.shared.deployments, d.environment ≠ .development →
        ∃ v ∈ s.platform.shared.versions, v.id = d.modelVersionId ∧
          ∃ id, v.approvedBy = some id ∧ env.users.May [.approver] id) ∧
      ∀ d ∈ s.platform.shared.deployments, d.status = .rolledBack →
        ∃ e ∈ s.platform.shared.deploymentEvents, e.deploymentId = d.id ∧
          e.event = "rolled_back" ∧
          ∃ id, e.actor = some (toString id) ∧ env.users.May [.admin] id := by
  have hreach := authorized_of_reach h
  have hdb := reach_attributed hreach
  obtain ⟨hgoverned, -⟩ := reach_governed (hreach.mono fun _ _ _ => trivial)
  -- An approval that the governance rule finds is one by an approver.
  have hby : ∀ id, s.platform.shared.Approved id → ∃ v ∈ s.platform.shared.versions, v.id = id ∧
      ∃ actor, v.approvedBy = some actor ∧ env.users.May [.approver] actor := by
    rintro id ⟨v, hv, -, hset, -⟩
    obtain ⟨hmem, hid⟩ := Table.get?_eq_some.mp hv
    obtain ⟨actor, hactor⟩ := Option.isSome_iff_exists.mp hset
    exact ⟨v, hmem, hid, actor, hactor, hdb.approver v hmem actor hactor⟩
  refine ⟨hdb, ?_, ?_, ?_, ?_⟩
  · intro v hv hstage
    obtain ⟨e, he, hversion, hrecorded⟩ := hdb.moved v hv hstage
    obtain ⟨id, hid, hmay⟩ := hdb.versionEvent e he
    have hroles : operationRoles e.recordedBy = [.approver] := by
      cases hop : e.recordedBy with
      | createVersion => exact absurd hop hrecorded
      | approveVersion => rfl
      | transitionVersion => rfl
    rw [hroles] at hmay
    exact ⟨e, he, hversion, id, hid, hmay⟩
  · intro v hv hstage
    obtain ⟨w, hw, hid, happroved⟩ := hby v.id (hgoverned.version v hv (Or.inl hstage))
    rw [← s.platform.shared.versions.eq_of_key_eq hw hv hid]
    exact happroved
  · intro d hd henv
    exact hby _ (hgoverned.deployment d hd henv)
  · intro d hd hstatus
    obtain ⟨e, he, hdeployment, hname⟩ := hdb.rolledBack d hd hstatus
    refine ⟨e, he, hdeployment, hname, ?_⟩
    -- No other actor records that event.
    rcases hdb.event e he with ⟨hevent, -⟩ | ⟨-, hactor⟩ | ⟨hevent, -⟩ | ⟨hevent, -⟩
    · rw [hname] at hevent
      exact absurd hevent (by simp)
    · exact hactor
    · rw [hname] at hevent
      exact absurd hevent (by simp [workerEvents])
    · rw [hname] at hevent
      exact absurd hevent (by simp [reaperEvents])

/-- Two versions are registered, validated and deployed to development one after the other, the
first one is approved, and the second deployment is rolled back. -/
def rolledBackRun : List (ℕ × ServerAction) :=
  demoLogins ++
    post "engineer" pumpRequest ++
    post "engineer" (.createVersion 1 { version := "1.0", artifactUri := "s3://pump/1" }) ++
    post "engineer" (.createVersion 1 { version := "2.0", artifactUri := "s3://pump/2" }) ++
    post "approver" (.promoteVersion 1 1 .validated) ++
    post "approver" (.promoteVersion 1 2 .validated) ++
    post "approver" (.approveVersion 1 1) ++
    post "engineer" (.requestDeployment ⟨1, .development, none, false⟩) ++
    demoJob 20 ++
    post "engineer" (.requestDeployment ⟨2, .development, none, false⟩) ++
    demoJob 30 ++
    post "admin" (.rollbackDeployment 2)

/-- The mapping at the end of `rolledBackRun`. -/
theorem governed_of_serve_rolledBackRun :
    ∃ s, Reach (serve demoEnv) (fun _ _ => True) .init s ∧
      (s.platform.shared.versions.get? 1).map ModelVersion.stage = some .approved ∧
      (s.platform.shared.deployments.get? 2).map Deployment.status = some .rolledBack ∧
      Db.Attributed demoEnv.users s.platform.shared := by
  have hreach := exec_reach (serve demoEnv) (fun _ _ => True) .init rolledBackRun
  exact ⟨_, hreach, by decide +kernel, by decide +kernel, (governed_of_serve hreach).1⟩

end MlopsPlatform.Api
