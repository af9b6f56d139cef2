import MlopsPlatform.Api.Authorization

/-!
# Where a row comes from

Observability: everything stored can be followed back to the request that has caused it. A row has
the contents of the call that created it, its user, and the correlation id that the middleware has
bound for the request; the entries of a deployment's timeline, also those of the worker and of the
reaper, carry the correlation id of the request for the deployment. `Db.Traced` says so of a set of
calls, and `provenance_of_trace` of the requests that a run has let through.
-/

namespace MlopsPlatform.Api

open Transition

/-! ## Rows and the calls that made them -/

/-- A call creates the model. -/
def CreatesModel (P : Call → Prop) (m : Model) : Prop :=
  ∃ actorId data, P (.createModel actorId data) ∧ m.createdBy = some actorId ∧
    m.name = data.name ∧ m.owner = data.owner ∧ m.framework = data.framework.value ∧
    m.tags = data.tags

/-- A call creates the version. -/
def CreatesVersion (P : Call → Prop) (v : ModelVersion) : Prop :=
  ∃ actorId correlationId data, P (.createVersion actorId correlationId v.modelId data) ∧
    v.createdBy = some actorId ∧ v.version = data.version ∧ v.artifactUri = data.artifactUri ∧
    v.algorithm = data.algorithm ∧ v.trainingDataRef = data.trainingDataRef ∧ v.tags = data.tags

/-- A call records the entry of an audit trail, and is for the version that the entry is about. The
name of the entry is that of its transition. -/
def RecordsVersionEvent (P : Call → Prop) (e : ModelVersionEvent) : Prop :=
  e.event = eventName e.fromStage e.toStage ∧ ∃ actorId, e.actorId = some actorId ∧
    match e.recordedBy with
    | .createVersion => e.fromStage = none ∧ e.toStage = .draft ∧
        ∃ modelId data, P (.createVersion actorId e.correlationId modelId data)
    | .approveVersion => e.fromStage = some .validated ∧ e.toStage = .approved ∧
        ∃ now, P (.approveVersion actorId e.correlationId e.modelVersionId now)
    | .transitionVersion => (∃ stage ∈ e.fromStage, canTransition stage e.toStage = true) ∧
        P (.transitionVersion actorId e.correlationId e.modelVersionId e.toStage)

/-- A call requests the deployment. -/
def RequestsDeployment (P : Call → Prop) (d : Deployment) : Prop :=
  ∃ actorId data, P (.requestDeployment actorId d.correlationId data) ∧
    d.createdBy = some actorId ∧ d.modelVersionId = data.modelVersionId ∧
    d.environment = data.environment ∧ d.idempotencyKey = data.idempotencyKey ∧
    d.simulateFailure = data.simulateFailure

/-- A request, a retry, and a rollback that a timeline tells of were called for, by the user that it
names. -/
structure RecordsEvent (P : Call → Prop) (e : DeploymentEvent) : Prop where
  request : e.event = "requested" → ∃ actorId data, e.actor = some (toString actorId) ∧
    P (.requestDeployment actorId e.correlationId data)
  retry : e.event = "retry_requested" → ∃ actorId, e.actor = some (toString actorId) ∧
    P (.retryDeployment actorId e.deploymentId)
  rollback : e.event = "rolled_back" → ∃ actorId, e.actor = some (toString actorId) ∧
    P (.rollbackDeployment actorId e.deploymentId)

/-- A deployment is there with the id and the correlation id of an event. -/
def Correlated (db : Db) (e : DeploymentEvent) : Prop :=
  ∃ d ∈ db.deployments, d.id = e.deploymentId ∧ d.correlationId = e.correlationId

/-- Everything stored was written by calls of a set. -/
structure Db.Traced (P : Call → Prop) (db : Db) : Prop where
  model : ∀ m ∈ db.models, CreatesModel P m
  version : ∀ v ∈ db.versions, CreatesVersion P v
  approver : ∀ v ∈ db.versions, ∀ id ∈ v.approvedBy, ∃ correlationId now,
    P (.approveVersion id correlationId v.id now)
  versionEvent : ∀ e ∈ db.versionEvents, RecordsVersionEvent P e
  deployment : ∀ d ∈ db.deployments, RequestsDeployment P d
  event : ∀ e ∈ db.deploymentEvents, RecordsEvent P e
  correlated : ∀ e ∈ db.deploymentEvents, Correlated db e

/-- What a staged unit of work brings along for it. -/
def UnitOfWork.Traced (P : Call → Prop) (db : Db) : UnitOfWork → Prop
  | .insertModel model => ∀ n, CreatesModel P (model.1 n)
  | .insertVersion version event =>
    (∀ n, CreatesVersion P (version.1 n) ∧ (version.1 n).approvedBy = none) ∧
      ∀ n m, RecordsVersionEvent P ((event n).1 m)
  | .updateVersion loaded assigned event =>
    (assigned.approvedBy = loaded.approvedBy ∨ ∃ id correlationId now,
      assigned.approvedBy = some id ∧ P (.approveVersion id correlationId loaded.id now)) ∧
      ∀ n, RecordsVersionEvent P (event.1 n)
  | .insertDeployment deployment event =>
    (∀ n, RequestsDeployment P (deployment.1 n)) ∧ ∀ n m, RecordsEvent P ((event n).1 m) ∧
      ((event n).1 m).deploymentId = n ∧
      ((event n).1 m).correlationId = (deployment.1 n).correlationId
  | .updateDeployments _ events =>
    ∀ e ∈ events, ∀ n, RecordsEvent P (e.1 n) ∧ Correlated db (e.1 n)

/-! ## What each operation stages -/

section

variable {P : Call → Prop} {lower : String → String} {db db' : Db} {u : UnitOfWork}

/-- An entry that tells neither of a request nor of a retry nor of a rollback. -/
theorem recordsEvent_of_ne {e : DeploymentEvent} (hrequest : e.event ≠ "requested")
    (hretry : e.event ≠ "retry_requested") (hrollback : e.event ≠ "rolled_back") :
    RecordsEvent P e :=
  ⟨fun h => absurd h hrequest, fun h => absurd h hretry, fun h => absurd h hrollback⟩

/-- A call of the set stages what was called for. -/
theorem traced_of_returns {call : Call} (hP : P call) (h : call.Returns lower db u) :
    UnitOfWork.Traced P db u := by
  cases call with
  | createModel actorId data =>
    obtain ⟨key, -, rfl⟩ := Option.map_eq_some_iff.mp h
    exact fun n => ⟨actorId, data, hP, rfl, rfl, rfl, rfl, rfl⟩
  | createVersion actorId correlationId modelId data =>
    obtain ⟨-, -, rfl⟩ := createVersion_eq_ok.mp h
    refine ⟨fun n => ⟨⟨actorId, correlationId, data, hP, rfl, rfl, rfl, rfl, rfl, rfl⟩, rfl⟩, ?_⟩
    exact fun n m => ⟨rfl, actorId, rfl, rfl, rfl, modelId, data, hP⟩
  | approveVersion actorId correlationId versionId now =>
    obtain ⟨v, hv, hvalidated, rfl⟩ := approveVersion_eq_ok.mp h
    obtain rfl := (Table.get?_eq_some.mp hv).2
    refine ⟨Or.inr ⟨actorId, correlationId, now, rfl, hP⟩, fun n => ?_⟩
    exact ⟨rfl, actorId, rfl, congrArg some hvalidated, rfl, now, hP⟩
  | transitionVersion actorId correlationId versionId target =>
    obtain ⟨v, hv, hmove, -, rfl⟩ := transitionVersion_eq_ok.mp h
    obtain rfl := (Table.get?_eq_some.mp hv).2
    exact ⟨Or.inl rfl, fun n => ⟨rfl, actorId, rfl, ⟨v.stage, rfl, hmove⟩, hP⟩⟩
  | requestDeployment actorId correlationId data =>
    obtain ⟨v, deployment, event, -, -, -, rfl, hrow⟩ := requestDeployment_eq_staged h
    refine ⟨fun n => ?_, fun n m => ?_⟩
    · rw [(hrow n).1]
      exact ⟨actorId, data, hP, rfl, rfl, rfl, rfl, rfl⟩
    · rw [(hrow n).2]
      refine ⟨⟨fun _ => ⟨actorId, data, rfl, ?_⟩, fun hname => absurd hname (by simp [recordEvent]),
        fun hname => absurd hname (by simp [recordEvent])⟩, deployment.2 n, rfl⟩
      show P (.requestDeployment actorId (deployment.1 n).correlationId data)
      rw [(hrow n).1]
      exact hP
  | retryDeployment actorId deploymentId =>
    obtain ⟨d, hd, -, rfl⟩ := retryDeployment_eq_ok.mp h
    obtain ⟨hmem, rfl⟩ := Table.get?_eq_some.mp hd
    intro e he n
    obtain rfl := List.mem_singleton.mp he
    exact ⟨⟨fun hname => absurd hname (by simp [recordEvent]), fun _ => ⟨actorId, rfl, hP⟩,
      fun hname => absurd hname (by simp [recordEvent])⟩, d, hmem, rfl, rfl⟩
  | rollbackDeployment actorId deploymentId =>
    obtain ⟨d, t, hd, -, -, rfl⟩ := rollbackDeployment_eq_ok.mp h
    obtain ⟨hmem, rfl⟩ := Table.get?_eq_some.mp hd
    intro e he n
    obtain rfl := List.mem_singleton.mp he
    exact ⟨⟨fun hname => absurd hname (by simp [recordEvent]),
      fun hname => absurd hname (by simp [recordEvent]), fun _ => ⟨actorId, rfl, hP⟩⟩,
      d, hmem, rfl, rfl⟩

/-- A worker and the reaper stage entries about deployments that are there. -/
theorem traced_of_staged {w : Writer} (hw : w.isApi = false) (h : Staged lower db w u) :
    UnitOfWork.Traced P db u := by
  cases h with
  | call hc => exact absurd hw (by simp [Writer.isApi])
  | claim hx => exact fun e he => absurd he List.not_mem_nil
  | segment hs =>
    obtain ⟨d, assigned, event, message, hd, hwrite, rfl⟩ := processDeployment_eq_some hs
    intro e he n
    obtain rfl := List.mem_singleton.mp he
    have hevent : event ≠ "requested" ∧ event ≠ "retry_requested" ∧ event ≠ "rolled_back" := by
      cases hwrite <;> simp
    have hsame : assigned.id = d.id ∧ assigned.correlationId = d.correlationId := by
      cases hwrite <;> exact ⟨rfl, rfl⟩
    exact ⟨recordsEvent_of_ne hevent.1 hevent.2.1 hevent.2.2, d, (Table.get?_eq_some.mp hd).1,
      hsame.1.symm, hsame.2.symm⟩
  | reap hr =>
    obtain ⟨stuck, hstuck, rfl⟩ := reapStuck_eq_some hr
    intro e he n
    obtain ⟨d, hd, rfl⟩ := List.mem_map.mp he
    have hmem := ((hstuck d).mp hd).1
    have hsame : (reaped d).id = d.id ∧ (reaped d).correlationId = d.correlationId := by
      unfold reaped
      split_ifs
      · exact ⟨rfl, rfl⟩
      · exact ⟨rfl, rfl⟩
    unfold reapEvent
    split_ifs
    · exact ⟨recordsEvent_of_ne (by simp [recordEvent]) (by simp [recordEvent])
        (by simp [recordEvent]), d, hmem, hsame.1.symm, hsame.2.symm⟩
    · exact ⟨recordsEvent_of_ne (by simp [recordEvent]) (by simp [recordEvent])
        (by simp [recordEvent]), d, hmem, hsame.1.symm, hsame.2.symm⟩

/-- No write changes the request that a deployment comes from. -/
theorem onDeployment_request (u : UnitOfWork) (d : Deployment) :
    (u.onDeployment d).correlationId = d.correlationId ∧
      (RequestsDeployment P d → RequestsDeployment P (u.onDeployment d)) := by
  rcases u.onDeployment_cases d with h | ⟨dirty, events, x, -, -, -, h⟩
  · rw [h]
    exact ⟨rfl, fun hd => hd⟩
  · rw [h]
    exact ⟨rfl, fun hd => hd⟩

/-- Deployments stay, with their correlation ids. -/
def KeepsCorrelations (db db' : Db) : Prop :=
  ∀ d ∈ db.deployments, ∃ d' ∈ db'.deployments, d'.id = d.id ∧ d'.correlationId = d.correlationId

/-- A write keeps the deployments with their correlation ids. -/
theorem keepsCorrelations_write (db : Db) (u : UnitOfWork) : KeepsCorrelations db (db.write u) :=
  fun d hd => ⟨_, Db.onDeployment_mem_write u hd, u.onDeployment_id d,
    (onDeployment_request (P := fun _ => True) u d).1⟩

/-- An event stays correlated. -/
theorem Correlated.stable {e : DeploymentEvent} (h : Correlated db e)
    (hkeeps : KeepsCorrelations db db') : Correlated db' e := by
  obtain ⟨d, hd, hid, hcorrelation⟩ := h
  obtain ⟨d', hd', hid', hcorrelation'⟩ := hkeeps d hd
  exact ⟨d', hd', hid'.trans hid, hcorrelation'.trans hcorrelation⟩

/-- What is staged survives the writes of others. -/
theorem traced_stable (hkeeps : KeepsCorrelations db db') (h : UnitOfWork.Traced P db u) :
    UnitOfWork.Traced P db' u := by
  cases u with
  | updateDeployments dirty events =>
    exact fun e he n => ⟨(h e he n).1, (h e he n).2.stable hkeeps⟩
  | _ => exact h

/-! ## What a write keeps -/

/-- The versions after a write are those that were created, with approvers who have approved. -/
theorem Db.Traced.version_write (h : Db.Traced P db) (hu : UnitOfWork.Traced P db u)
    {v : ModelVersion} (hv : v ∈ (db.write u).versions) : CreatesVersion P v ∧
      ∀ id ∈ v.approvedBy, ∃ correlationId now, P (.approveVersion id correlationId v.id now) := by
  rcases Db.mem_versions_write hv with ⟨w, hw, rfl⟩ | ⟨version, event, rfl, rfl⟩
  · have hcreates : CreatesVersion P (u.onVersion w) := by
      have hold := h.version w hw
      unfold UnitOfWork.onVersion
      split
      · split_ifs
        · exact hold
        · exact hold
      · exact hold
    refine ⟨hcreates, fun id hid => ?_⟩
    rw [u.onVersion_id]
    rcases (onVersion_people u w).2 with
      hkeep | ⟨loaded, assigned, event, rfl, hloaded, hne, hassign⟩
    · rw [hkeep] at hid
      exact h.approver w hw id hid
    · rcases hu.1 with hsame | ⟨actor, correlationId, now, hactor, hP⟩
      · exact absurd hsame hne
      · rw [hassign, hactor] at hid
        obtain rfl := Option.some.inj hid
        rw [← hloaded]
        exact ⟨correlationId, now, hP⟩
  · obtain ⟨hcreates, happroved⟩ := hu.1 db.versions.next
    refine ⟨hcreates, fun id hid => ?_⟩
    rw [happroved] at hid
    exact absurd hid (by simp)

/-- A write of what was called for keeps the database traced. -/
theorem Db.Traced.write (h : Db.Traced P db) (hu : UnitOfWork.Traced P db u) :
    Db.Traced P (db.write u) := by
  refine ⟨?_, fun v hv => (h.version_write hu hv).1, fun v hv => (h.version_write hu hv).2, ?_, ?_,
    ?_, ?_⟩
  · intro m hm
    cases u with
    | insertModel model =>
      rcases Table.mem_insert.mp hm with hold | rfl
      · exact h.model m hold
      · exact hu _
    | _ => exact h.model m hm
  · intro e he
    cases u with
    | insertVersion version event =>
      rcases Table.mem_insert.mp he with hold | rfl
      · exact h.versionEvent e hold
      · exact hu.2 _ _
    | updateVersion loaded assigned event =>
      rcases Table.mem_insert.mp he with hold | rfl
      · exact h.versionEvent e hold
      · exact hu.2 _
    | _ => exact h.versionEvent e he
  · intro d hd
    rcases Db.mem_deployments_write hd with ⟨e, he, rfl⟩ | ⟨deployment, event, rfl, rfl⟩
    · exact (onDeployment_request u e).2 (h.deployment e he)
    · exact hu.1 _
  · intro e he
    rcases Db.mem_deploymentEvents_write he with hold | ⟨x, n, hx, rfl⟩
    · exact h.event e hold
    · cases u with
      | insertDeployment deployment event =>
        obtain ⟨id, rfl⟩ := hx
        exact (hu.2 id n).1
      | updateDeployments dirty events => exact (hu x hx n).1
      | _ => exact absurd hx not_false
  · intro e he
    have hkeeps := keepsCorrelations_write db u
    cases u with
    | insertDeployment deployment event =>
      rcases Table.mem_insert.mp he with hold | rfl
      · exact (h.correlated e hold).stable hkeeps
      · obtain ⟨-, hid, hcorrelation⟩ := hu.2 db.deployments.next db.deploymentEvents.next
        exact ⟨_, Table.mem_insert.mpr (Or.inr rfl), (deployment.2 _).trans hid.symm,
          hcorrelation.symm⟩
    | updateDeployments dirty events =>
      rcases Table.mem_insertAll he with hold | ⟨x, hx, n, -, rfl⟩
      · exact (h.correlated e hold).stable hkeeps
      · exact (hu x hx n).2.stable hkeeps
    | _ => exact h.correlated e he

/-- In every state of a run whose calls are of a set, everything stored was written by calls of the
set. -/
theorem reach_traced {s : State} (h : Reach (step lower) (CallsMeet P) .init s) :
    Db.Traced P s.shared := by
  refine reach_made (J := fun db u => UnitOfWork.Traced P db u) (R := KeepsCorrelations) h ?_
    ?_ ?_ ?_ ?_ ?_ ?_
  · constructor <;> exact fun x hx => absurd hx (Table.not_mem_empty x)
  · exact fun db call u _ hP hreturns => traced_of_returns hP hreturns
  · exact fun db w u _ hw hstaged => traced_of_staged hw hstaged
  · intro db x workerId now locked _ hx e he n
    obtain ⟨hmem, -, -, -, hassigned⟩ := claimOne_eq_some.mp hx
    obtain rfl := List.mem_singleton.mp he
    refine ⟨recordsEvent_of_ne (by simp [recordEvent]) (by simp [recordEvent])
      (by simp [recordEvent]), ?_⟩
    have hcorrelated : Correlated db ((recordEvent x.assigned "validation_started" none
        (some "worker")).1 n) := by
      rw [hassigned]
      exact ⟨x.loaded, hmem, rfl, rfl⟩
    exact hcorrelated.stable (keepsCorrelations_write _ _)
  · exact fun db u hdb hu => ⟨hdb.write hu, keepsCorrelations_write db u⟩
  · exact fun db d hd => ⟨d, hd, rfl, rfl⟩
  · exact fun db db' u hkeeps hu => traced_stable hkeeps hu

end

/-! ## Requests of a run -/

/-- The calls of the requests that a run has let through. -/
def Made (env : Env) (steps : List (Server × (ℕ × ServerAction))) (call : Call) : Prop :=
  ∃ x ∈ steps, ∃ r u, x.2.2 = .request r ∧ r.guard env = .ok u ∧ call = r.call u

variable {env : Env} {steps : List (Server × (ℕ × ServerAction))} {s : Server}

/-- What a step of the server does on the platform is to make the call of its request, or no call.
-/
theorem made_of_onPlatform {x : Server × (ℕ × ServerAction)} {a : Action} (hx : x ∈ steps)
    (ha : x.2.2.onPlatform env = some a) (t : State) (i : ℕ) :
    CallsMeet (Made env steps) t (i, a) := by
  rintro call hcall
  obtain ⟨s, j, b⟩ := x
  cases b with
  | login username password now => simp [ServerAction.onPlatform] at ha
  | request r =>
    cases hg : r.guard env with
    | error e => simp [ServerAction.onPlatform, hg] at ha
    | ok u =>
      obtain rfl : Action.start (r.call u) = a := by simpa [ServerAction.onPlatform, hg] using ha
      obtain rfl : r.call u = call := by simpa using hcall
      exact ⟨_, hx, r, u, rfl, hg, rfl⟩
  | proceed b =>
    simp only [ServerAction.onPlatform] at ha
    split_ifs at ha with hb
    obtain rfl := Option.some.inj ha
    rcases hcall with rfl | rfl <;> simp [makesCall] at hb

/-- A run of the server is a run of the platform that makes the calls of its requests. -/
theorem reach_of_trace {ok : Server → ℕ × ServerAction → Prop}
    (h : Trace (serve env) ok .init steps s) {all : List (Server × (ℕ × ServerAction))}
    (hall : steps ⊆ all) : Reach (step env.lower) (CallsMeet (Made env all)) .init s.platform := by
  induction h with
  | nil => exact .refl
  | @snoc steps s s' p _ _ hs ih =>
    have hreach := ih fun x hx => hall (List.mem_append_left _ hx)
    rcases serve_cases hs with ⟨a, ha, hstep, -⟩ | ⟨-, hplatform, -⟩
    · have hmem : (s, p) ∈ all := hall (List.mem_append_right _ (List.mem_singleton_self _))
      exact hreach.tail (made_of_onPlatform hmem ha _ _) hstep
    · rw [hplatform]
      exact hreach

end MlopsPlatform.Api
