import MlopsPlatform.Registry.Creation
import MlopsPlatform.Queue.Exclusivity

/-!
# The tracing header

`api/middleware.py`: the `X-Request-ID` of a request, or a new id, is the correlation id of
everything that the request writes. The header is any string, and the `correlation_id` columns hold
64 characters. So the header does not influence what a write request does as long as it fits; one
that does not fit makes the request fail with a `DataError` that no service catches. Two requests
that differ only in the header are answered alike, and leave the same tables up to the correlation
ids, exactly when both headers fit, neither does, or the request has nothing to write
(`served_alike_iff`). The proof erases the correlation ids from rows, units of work and databases:
the reads of a call and a write commute with the erasure.
-/

namespace MlopsPlatform

/-! ## Requests and their correlation ids -/

/-- `str(uuid.uuid7())`. -/
abbrev GeneratedId := { s : String // s.length = 36 }

/-- The correlation id of a request: the header, or a new id if it is missing or empty. -/
def correlationIdOf (header : Option String) (generated : GeneratedId) : String :=
  match header with
  | some h => if h = "" then generated.1 else h
  | none => generated.1

/-- The requests that write correlation ids. -/
inductive WriteRequest
  | createVersion (actorId modelId : Uuid) (data : ModelVersionCreate)
  | approveVersion (actorId versionId : Uuid) (now : Time)
  | transitionVersion (actorId versionId : Uuid) (target : LifecycleStage)
  | requestDeployment (actorId : Uuid) (data : DeploymentCreate)

/-- The call that a request makes. -/
def WriteRequest.call (correlationId : String) : WriteRequest → Call
  | createVersion actorId modelId data =>
    .createVersion actorId (some correlationId) modelId data
  | approveVersion actorId versionId now =>
    .approveVersion actorId (some correlationId) versionId now
  | transitionVersion actorId versionId target =>
    .transitionVersion actorId (some correlationId) versionId target
  | requestDeployment actorId data => .requestDeployment actorId (some correlationId) data

/-- The schema admits the body of the request. -/
def WriteRequest.Admissible : WriteRequest → Prop
  | createVersion _ _ data => data.Admissible
  | requestDeployment _ data => data.Admissible
  | _ => True

/-- The request has something to write: its reads neither raise nor find its idempotency key. -/
def WriteRequest.Writes (db : Db) : WriteRequest → Prop
  | createVersion _ modelId data => (db.models.get? modelId).isSome = true ∧
      ∀ v ∈ db.versions, ¬(v.modelId = modelId ∧ v.version = data.version)
  | approveVersion _ versionId _ =>
      ∃ v, db.versions.get? versionId = some v ∧ v.stage = .validated
  | transitionVersion _ versionId target =>
      ∃ v, db.versions.get? versionId = some v ∧ canTransition v.stage target = true ∧
        (target ∈ requiresApproval → v.approved = true)
  | requestDeployment _ data => findByKey db data.idempotencyKey = none ∧
      ∃ v, db.versions.get? data.modelVersionId = some v ∧
        isDeployable v.stage data.environment = true

/-- How a request ends: with the answer of its call, or with the `DataError` of a value that is too
long for its column. -/
inductive Outcome
  | answered (answer : Answer)
  | dataError

/-- A request alone, on a database that checks widths: how it ends, and the tables after it. -/
def Db.serve (lower : String → String) (db : Db) (call : Call) : Outcome × Db :=
  match call.stage lower db with
  | .ok (some u) =>
    match db.commitStrict u with
    | .ok db' => (.answered (call.commitAnswer db u), db')
    | .error .integrityError => (.answered (call.rejected u), db)
    | .error .dataError => (.dataError, db)
  -- A call that stages nothing answers with its reads.
  | _ => (.answered ((call.readAnswer lower db).getD .returned), db)

/-! ## Erasing the correlation ids -/

/-- An event without its correlation id. -/
def ModelVersionEvent.untraced (e : ModelVersionEvent) : ModelVersionEvent :=
  { e with correlationId := none }

/-- A deployment without its correlation id. -/
def Deployment.untraced (d : Deployment) : Deployment := { d with correlationId := none }

/-- An event without its correlation id. -/
def DeploymentEvent.untraced (e : DeploymentEvent) : DeploymentEvent :=
  { e with correlationId := none }

/-- The erasure keeps ids. -/
theorem ModelVersionEvent.untraced_id (e : ModelVersionEvent) : e.untraced.id = e.id := rfl

/-- The erasure keeps ids. -/
theorem Deployment.untraced_id (d : Deployment) : d.untraced.id = d.id := rfl

/-- The erasure keeps ids. -/
theorem DeploymentEvent.untraced_id (e : DeploymentEvent) : e.untraced.id = e.id := rfl

/-- The tables without the correlation ids. -/
def Db.untraced (db : Db) : Db :=
  { db with
    versionEvents := db.versionEvents.mapRows _ ModelVersionEvent.untraced_id
    deployments := db.deployments.mapRows _ Deployment.untraced_id
    deploymentEvents := db.deploymentEvents.mapRows _ DeploymentEvent.untraced_id }

/-- An answer without the correlation id of the deployment in it. -/
def Answer.untraced : Answer → Answer
  | requested deployment created => requested deployment.untraced created
  | ans => ans

/-- An outcome without correlation ids. -/
def Outcome.untraced : Outcome → Outcome
  | answered ans => answered ans.untraced
  | dataError => dataError

/-- Two requests end alike and leave the same tables, up to the correlation ids. -/
def SameUpToTracing (x y : Outcome × Db) : Prop :=
  x.1.untraced = y.1.untraced ∧ x.2.untraced = y.2.untraced

/-- A loaded deployment that was assigned to, without correlation ids. -/
def DirtyDeployment.untraced (x : DirtyDeployment) : DirtyDeployment :=
  ⟨x.loaded.untraced, x.assigned.untraced⟩

/-- A unit of work without correlation ids. -/
def UnitOfWork.untraced : UnitOfWork → UnitOfWork
  | insertModel model => insertModel model
  | insertVersion version event =>
    insertVersion version fun id => (event id).map _ ModelVersionEvent.untraced_id
  | updateVersion loaded assigned event =>
    updateVersion loaded assigned (event.map _ ModelVersionEvent.untraced_id)
  | insertDeployment deployment event =>
    insertDeployment (deployment.map _ Deployment.untraced_id)
      fun id => (event id).map _ DeploymentEvent.untraced_id
  | updateDeployments dirty events =>
    updateDeployments (dirty.map DirtyDeployment.untraced)
      (events.map fun event => event.map _ DeploymentEvent.untraced_id)

/-- What a unit of work makes of a row commutes with the erasure. -/
theorem UnitOfWork.onDeployment_untraced (u : UnitOfWork) (d : Deployment) :
    (u.onDeployment d).untraced = u.untraced.onDeployment d.untraced := by
  cases u with
  | updateDeployments dirty events =>
    have hdirty : ∀ dirty : List DirtyDeployment,
        (dirty.map DirtyDeployment.untraced).find? (fun x => x.loaded.id = d.id) =
          (dirty.find? fun x => x.loaded.id = d.id).map DirtyDeployment.untraced := by
      intro dirty
      rw [List.find?_map]
      rfl
    have hfind : (updateDeployments dirty events).untraced.dirtyFor d.untraced.id =
        ((updateDeployments dirty events).dirtyFor d.id).map DirtyDeployment.untraced :=
      hdirty dirty
    unfold onDeployment
    rw [hfind]
    cases (updateDeployments dirty events).dirtyFor d.id with
    | none => rfl
    | some x => rfl
  | _ => rfl

/-- A write commutes with the erasure. -/
theorem Db.write_untraced (db : Db) (u : UnitOfWork) :
    (db.write u).untraced = db.untraced.write u.untraced := by
  cases u with
  | insertModel model => rfl
  | insertVersion version event =>
    simp only [write, untraced, UnitOfWork.untraced, Table.mapRows_insert]
  | updateVersion loaded assigned event =>
    simp only [write, untraced, UnitOfWork.untraced, Table.mapRows_insert]
    rfl
  | insertDeployment deployment event =>
    simp only [write, untraced, UnitOfWork.untraced, Table.mapRows_insert]
    rfl
  | updateDeployments dirty events =>
    simp only [write, untraced, UnitOfWork.untraced, Table.mapRows_insertAll]
    congr 1
    refine Table.mapRows_comm fun d _ => ?_
    exact (UnitOfWork.updateDeployments dirty events).onDeployment_untraced d

/-- The constraints do not look at correlation ids. -/
theorem Db.constraints_untraced (db : Db) : db.untraced.Constraints ↔ db.Constraints := by
  have hkeys : db.untraced.UniqueIdempotencyKey ↔ db.UniqueIdempotencyKey := List.pairwise_map
  have hactive : db.untraced.UniqueActiveDeployment ↔ db.UniqueActiveDeployment :=
    List.pairwise_map
  unfold Constraints
  rw [hkeys, hactive]
  rfl

/-! ## The reads of a request -/

variable {lower : String → String}

/-- Steps after a common first one agree up to a function if they agree on what it returns. -/
theorem map_bind_congr {α β γ : Type} {x : Except DomainError α} {f g : α → Except DomainError β}
    {k : β → γ} (h : ∀ a, (f a).map k = (g a).map k) : (x >>= f).map k = (x >>= g).map k := by
  cases x with
  | error e => rfl
  | ok a => exact h a

/-- Two computations that agree up to a function raise the same error, or both return. -/
theorem cases_of_map_eq {α β : Type} {x y : Except DomainError α} {k : α → β}
    (h : x.map k = y.map k) :
    (∃ e, x = .error e ∧ y = .error e) ∨ ∃ a b, x = .ok a ∧ y = .ok b ∧ k a = k b := by
  cases x with
  | error e =>
    cases y with
    | error e' =>
      have he : e = e' := Except.error.inj h
      exact Or.inl ⟨e, rfl, congrArg Except.error he.symm⟩
    | ok b => simp only [Except.map, reduceCtorEq] at h
  | ok a =>
    cases y with
    | error e' => simp only [Except.map, reduceCtorEq] at h
    | ok b => exact Or.inr ⟨a, b, rfl, rfl, Except.ok.inj h⟩

/-- The reads of a request do not depend on its correlation id, and neither does what they stage, up
to the correlation ids. -/
theorem stage_untraced (lower : String → String) (r : WriteRequest) (db : Db) (c₁ c₂ : String) :
    ((r.call c₁).stage lower db).map (Option.map UnitOfWork.untraced) =
      ((r.call c₂).stage lower db).map (Option.map UnitOfWork.untraced) := by
  have hmap : ∀ {x y : Except DomainError UnitOfWork},
      x.map UnitOfWork.untraced = y.map UnitOfWork.untraced →
      (x.map some).map (Option.map UnitOfWork.untraced) =
        (y.map some).map (Option.map UnitOfWork.untraced) := by
    intro x y h
    rcases cases_of_map_eq h with ⟨e, rfl, rfl⟩ | ⟨u, v, rfl, rfl, huv⟩
    · rfl
    · exact congrArg (fun w => Except.ok (some w)) huv
  cases r with
  | createVersion actorId modelId data =>
    refine hmap (map_bind_congr fun _ => ?_)
    split
    · rfl
    · rfl
  | approveVersion actorId versionId now =>
    refine hmap (map_bind_congr fun v => map_bind_congr fun _ => ?_)
    rfl
  | transitionVersion actorId versionId target =>
    refine hmap (map_bind_congr fun v => map_bind_congr fun _ => ?_)
    rfl
  | requestDeployment actorId data =>
    simp only [WriteRequest.call, Call.stage, requestDeployment]
    cases findByKey db data.idempotencyKey with
    | some d => rfl
    | none =>
      cases db.versions.get? data.modelVersionId with
      | none => rfl
      | some v =>
        dsimp only
        cases assertDeployable v data.environment with
        | error e => rfl
        | ok _ => rfl

/-- A request that stages nothing has the same answer whatever its correlation id. -/
theorem readAnswer_call (r : WriteRequest) (db : Db) (c₁ c₂ : String) :
    (r.call c₁).readAnswer lower db = (r.call c₂).readAnswer lower db := by
  -- Both raise the same error, or neither raises.
  have hread := cases_of_map_eq (stage_untraced lower r db c₁ c₂)
  cases r with
  | requestDeployment actorId data =>
    simp only [WriteRequest.call, Call.readAnswer, requestDeployment]
    cases findByKey db data.idempotencyKey with
    | some d => rfl
    | none =>
      cases db.versions.get? data.modelVersionId with
      | none => rfl
      | some v =>
        dsimp only
        cases assertDeployable v data.environment with
        | error e => rfl
        | ok _ => rfl
  | _ =>
    simp only [WriteRequest.call] at hread
    rcases hread with ⟨e, h₁, h₂⟩ | ⟨u, v, h₁, h₂, -⟩
    · simp only [WriteRequest.call, Call.readAnswer, h₁, h₂]
    · simp only [WriteRequest.call, Call.readAnswer, h₁, h₂]

/-- A request stages a unit of work exactly when it has something to write. -/
theorem writes_iff (lower : String → String) (r : WriteRequest) (db : Db) (c : String) :
    r.Writes db ↔ ∃ u, (r.call c).Returns lower db u := by
  cases r with
  | createVersion actorId modelId data =>
    constructor
    · rintro ⟨hmodel, hfree⟩
      exact ⟨_, createVersion_eq_ok.mpr ⟨hmodel, hfree, rfl⟩⟩
    · rintro ⟨u, hu⟩
      obtain ⟨hmodel, hfree, -⟩ := createVersion_eq_ok.mp hu
      exact ⟨hmodel, hfree⟩
  | approveVersion actorId versionId now =>
    constructor
    · rintro ⟨v, hv, hs⟩
      exact ⟨_, approveVersion_eq_ok.mpr ⟨v, hv, hs, rfl⟩⟩
    · rintro ⟨u, hu⟩
      obtain ⟨v, hv, hs, -⟩ := approveVersion_eq_ok.mp hu
      exact ⟨v, hv, hs⟩
  | transitionVersion actorId versionId target =>
    constructor
    · rintro ⟨v, hv, ht, happroved⟩
      exact ⟨_, transitionVersion_eq_ok.mpr ⟨v, hv, ht, happroved, rfl⟩⟩
    · rintro ⟨u, hu⟩
      obtain ⟨v, hv, ht, happroved, -⟩ := transitionVersion_eq_ok.mp hu
      exact ⟨v, hv, ht, happroved⟩
  | requestDeployment actorId data =>
    constructor
    · rintro ⟨hkey, v, hv, hdeployable⟩
      have hstaged : ∃ u, requestDeployment db actorId (some c) data = .ok (.staged u) := by
        simp only [requestDeployment, hkey, hv, assertDeployable, hdeployable]
        exact ⟨_, rfl⟩
      exact hstaged
    · rintro ⟨u, hu⟩
      obtain ⟨v, deployment, event, hkey, hv, hdeployable, -⟩ := requestDeployment_eq_staged hu
      exact ⟨hkey, v, hv, hdeployable⟩

/-! ## What fits -/

/-- The constraints accept an update of a version. -/
theorem constraints_updateVersion {db : Db} (hdb : db.Constraints) (loaded assigned : ModelVersion)
    (event : Table.Draft ModelVersionEvent.id) :
    (db.write (.updateVersion loaded assigned event)).Constraints := by
  obtain ⟨hkey, hversion, hidempotency, hactive⟩ := hdb
  have hstring : ∀ v, ((UnitOfWork.updateVersion loaded assigned event).onVersion v).version =
      v.version := by
    intro v
    unfold UnitOfWork.onVersion
    dsimp only
    split_ifs
    · rfl
    · rfl
  refine ⟨hkey, ?_, hidempotency, hactive⟩
  -- The rows keep their models and version strings.
  refine List.pairwise_map.mpr (hversion.imp fun hab => ?_)
  rw [UnitOfWork.onVersion_modelId, UnitOfWork.onVersion_modelId, hstring, hstring]
  exact hab

/-- A lifecycle event fits if its correlation id does. -/
theorem recordVersionEvent_fits (modelVersionId : Uuid) (fromStage : Option LifecycleStage)
    (toStage : LifecycleStage) (actorId : Uuid) (c : String) (recordedBy : VersionOperation)
    (n : ℕ) :
    ((recordVersionEvent modelVersionId fromStage toStage actorId (some c) recordedBy).1 n).fits =
      fitsColumn 64 c := by
  have hfrom : fromStage.all (fun s => fitsColumn 32 s.value) = true := by
    cases fromStage with
    | none => rfl
    | some s => exact s.fitsColumn_value
  simp only [ModelVersionEvent.fits, recordVersionEvent, fitsColumn_eventName, hfrom,
    toStage.fitsColumn_value, Option.all_some, Bool.true_and]

/-- What a request stages fits if its correlation id does. Where that id is in the events only, the
rows fit, and the constraints accept the write. -/
theorem fits_of_returns {r : WriteRequest} {db : Db} {c : String} {u : UnitOfWork}
    (hdb : db.Constraints) (hr : r.Admissible) (hu : (r.call c).Returns lower db u) :
    u.eventsFit db = fitsColumn 64 c ∧
      (u.rowsFit db = true ∧ (db.write u).Constraints ∨ u.rowsFit db = fitsColumn 64 c) := by
  cases r with
  | createVersion actorId modelId data =>
    obtain ⟨-, hfree, rfl⟩ := createVersion_eq_ok.mp hu
    refine ⟨recordVersionEvent_fits _ _ _ _ _ _ _, Or.inl ⟨?_, ?_⟩⟩
    · obtain ⟨hversion, huri, halgorithm, hdata⟩ := hr
      simp only [UnitOfWork.rowsFit, ModelVersion.fits, Bool.and_eq_true]
      exact ⟨⟨⟨⟨decide_eq_true hversion.2, rfl⟩, all_fitsColumn halgorithm⟩,
        decide_eq_true huri.2⟩, all_fitsColumn hdata⟩
    · exact (constraints_insertVersion hdb _ _).mpr hfree
  | approveVersion actorId versionId now =>
    obtain ⟨v, -, -, rfl⟩ := approveVersion_eq_ok.mp hu
    exact ⟨recordVersionEvent_fits _ _ _ _ _ _ _,
      Or.inl ⟨LifecycleStage.approved.fitsColumn_value, constraints_updateVersion hdb _ _ _⟩⟩
  | transitionVersion actorId versionId target =>
    obtain ⟨v, -, -, -, rfl⟩ := transitionVersion_eq_ok.mp hu
    exact ⟨recordVersionEvent_fits _ _ _ _ _ _ _,
      Or.inl ⟨target.fitsColumn_value, constraints_updateVersion hdb _ _ _⟩⟩
  | requestDeployment actorId data =>
    obtain ⟨v, deployment, event, -, -, -, rfl, hrow⟩ := requestDeployment_eq_staged hu
    obtain ⟨hdeployment, hevent⟩ := hrow db.deployments.next
    have hkey : data.idempotencyKey.all (fitsColumn 128) = true :=
      all_fitsColumn hr.idempotencyKey
    refine ⟨?_, Or.inr ?_⟩
    · simp only [UnitOfWork.eventsFit, hevent, hdeployment, recordEvent, DeploymentEvent.fits]
      rfl
    · simp only [UnitOfWork.rowsFit, hdeployment, Deployment.fits,
        data.environment.fitsColumn_value, hkey, Option.all_none, Option.all_some, Bool.true_and,
        Bool.and_true]
      rfl

/-- A request whose correlation id fits is never rejected for a value that is too long. -/
theorem commitStrict_of_fits {r : WriteRequest} {db : Db} {c : String} {u : UnitOfWork}
    (hdb : db.Constraints) (hr : r.Admissible) (hu : (r.call c).Returns lower db u)
    (hc : fitsColumn 64 c = true) :
    db.commitStrict u =
      if (db.write u).Constraints then .ok (db.write u) else .error .integrityError := by
  obtain ⟨hevents, hrows⟩ := fits_of_returns hdb hr hu
  rw [hc] at hevents hrows
  have hrows' : u.rowsFit db = true := by
    rcases hrows with ⟨h, -⟩ | h
    · exact h
    · exact h
  unfold Db.commitStrict Db.commit
  by_cases hcons : (db.write u).Constraints
  · simp [hrows', hevents, hcons]
  · simp [hrows', hcons]

/-- A request whose correlation id does not fit is rejected for it. -/
theorem commitStrict_of_not_fits {r : WriteRequest} {db : Db} {c : String} {u : UnitOfWork}
    (hdb : db.Constraints) (hr : r.Admissible) (hu : (r.call c).Returns lower db u)
    (hc : fitsColumn 64 c = false) : db.commitStrict u = .error .dataError := by
  obtain ⟨hevents, hrows⟩ := fits_of_returns hdb hr hu
  rw [hc] at hevents hrows
  unfold Db.commitStrict Db.commit
  rcases hrows with ⟨hrows, hcons⟩ | hrows
  · simp [hrows, hevents, hcons]
  · simp [hrows]

/-! ## Two runs -/

/-- A header fits into the columns, unless it is too long. -/
def HeaderFits (header : Option String) : Prop := ∀ h ∈ header, h.length ≤ 64

/-- The correlation id fits exactly when the header does. -/
theorem fits_correlationIdOf (header : Option String) (generated : GeneratedId) :
    fitsColumn 64 (correlationIdOf header generated) = true ↔ HeaderFits header := by
  have hgenerated : generated.1.length ≤ 64 := by
    rw [generated.2]
    decide
  unfold fitsColumn correlationIdOf HeaderFits
  rw [decide_eq_true_eq]
  cases header with
  | none => simp [hgenerated]
  | some h =>
    dsimp only
    split_ifs with hempty
    · simp [hgenerated, hempty]
    · simp

/-- A request that has something to write, and whose header fits, is answered. -/
theorem serve_of_fits (lower : String → String) {r : WriteRequest} {db : Db} {c : String}
    (hdb : db.Constraints) (hr : r.Admissible) (hw : r.Writes db) (hc : fitsColumn 64 c = true) :
    ∃ u, (r.call c).stage lower db = .ok (some u) ∧
      db.serve lower (r.call c) = if (db.write u).Constraints
        then (.answered ((r.call c).commitAnswer db u), db.write u)
        else (.answered ((r.call c).rejected u), db) := by
  obtain ⟨u, hu⟩ := (writes_iff lower r db c).mp hw
  refine ⟨u, hu.stage, ?_⟩
  unfold Db.serve
  rw [hu.stage]
  dsimp only
  rw [commitStrict_of_fits hdb hr hu hc]
  split_ifs
  · rfl
  · rfl

/-- A request that has something to write, and whose header does not fit, fails. -/
theorem serve_of_not_fits {r : WriteRequest} {db : Db} {c : String} (hdb : db.Constraints)
    (hr : r.Admissible) (hw : r.Writes db) (hc : fitsColumn 64 c = false) :
    db.serve lower (r.call c) = (.dataError, db) := by
  obtain ⟨u, hu⟩ := (writes_iff lower r db c).mp hw
  unfold Db.serve
  rw [hu.stage]
  dsimp only
  rw [commitStrict_of_not_fits hdb hr hu hc]

/-- A request that has nothing to write is answered by its reads. -/
theorem serve_of_not_writes {r : WriteRequest} {db : Db} {c : String} (hw : ¬r.Writes db) :
    db.serve lower (r.call c) =
      (.answered (((r.call c).readAnswer lower db).getD .returned), db) := by
  unfold Db.serve
  split
  · rename_i u hu
    exact absurd ((writes_iff lower r db c).mpr ⟨u, Call.stage_eq_ok hu⟩) hw
  · rfl

/-- Units of work that are the same up to the correlation ids leave the same tables up to them. -/
theorem write_untraced_congr {db : Db} {u v : UnitOfWork} (h : u.untraced = v.untraced) :
    (db.write u).untraced = (db.write v).untraced := by
  calc (db.write u).untraced
      = db.untraced.write u.untraced := db.write_untraced u
    _ = db.untraced.write v.untraced := by rw [h]
    _ = (db.write v).untraced := (db.write_untraced v).symm

/-- The constraints accept both or neither of two units of work that are the same up to the
correlation ids. -/
theorem constraints_write_congr {db : Db} {u v : UnitOfWork} (h : u.untraced = v.untraced) :
    (db.write u).Constraints ↔ (db.write v).Constraints := by
  calc (db.write u).Constraints
      ↔ (db.write u).untraced.Constraints := (db.write u).constraints_untraced.symm
    _ ↔ (db.write v).untraced.Constraints := by rw [write_untraced_congr h]
    _ ↔ (db.write v).Constraints := (db.write v).constraints_untraced

/-- The answer of a call that commits, up to the correlation ids. -/
theorem commitAnswer_untraced {db : Db} {call : Call} {u : UnitOfWork}
    (hcons : (db.write u).Constraints) :
    (call.commitAnswer db u).untraced =
      match u.untraced with
      | .insertDeployment deployment _ => .requested (deployment.1 db.deployments.next) true
      | _ => .returned := by
  unfold Call.commitAnswer
  rw [Db.commit_eq_some.mpr ⟨hcons, rfl⟩]
  cases u <;> rfl

/-- The answer to a request that a constraint rejects does not depend on the correlation id. -/
theorem rejected_call (r : WriteRequest) (c₁ c₂ : String) (u v : UnitOfWork) :
    (r.call c₁).rejected u = (r.call c₂).rejected v := by
  cases r <;> rfl

/-- Two requests whose headers fit end alike. -/
theorem same_of_fits {r : WriteRequest} {db : Db} {c₁ c₂ : String} (hdb : db.Constraints)
    (hr : r.Admissible) (hw : r.Writes db) (h₁ : fitsColumn 64 c₁ = true)
    (h₂ : fitsColumn 64 c₂ = true) :
    SameUpToTracing (db.serve lower (r.call c₁)) (db.serve lower (r.call c₂)) := by
  obtain ⟨u, hu, hserve₁⟩ := serve_of_fits lower hdb hr hw h₁
  obtain ⟨v, hv, hserve₂⟩ := serve_of_fits lower hdb hr hw h₂
  have huv : u.untraced = v.untraced := by
    have hstage := stage_untraced lower r db c₁ c₂
    rw [hu, hv] at hstage
    exact Option.some.inj (Except.ok.inj hstage)
  rw [hserve₁, hserve₂]
  by_cases hcons : (db.write u).Constraints
  · have hcons' := (constraints_write_congr huv).mp hcons
    rw [if_pos hcons, if_pos hcons']
    constructor
    · show Outcome.answered _ = Outcome.answered _
      rw [commitAnswer_untraced hcons, commitAnswer_untraced hcons', huv]
    · exact write_untraced_congr huv
  · have hcons' : ¬(db.write v).Constraints := fun h =>
      hcons ((constraints_write_congr huv).mpr h)
    rw [if_neg hcons, if_neg hcons', rejected_call r c₁ c₂ u v]
    exact ⟨rfl, rfl⟩

/-- A request whose header fits does not end like one whose header does not. -/
theorem not_same_of_fits (lower : String → String) {r : WriteRequest} {db : Db}
    {c₁ c₂ : String} (hdb : db.Constraints) (hr : r.Admissible) (hw : r.Writes db)
    (h₁ : fitsColumn 64 c₁ = true) (h₂ : fitsColumn 64 c₂ = false) :
    (db.serve lower (r.call c₁)).1.untraced ≠ (db.serve lower (r.call c₂)).1.untraced := by
  obtain ⟨u, -, hserve⟩ := serve_of_fits lower hdb hr hw h₁
  rw [hserve, serve_of_not_fits hdb hr hw h₂]
  split_ifs
  · exact Outcome.noConfusion
  · exact Outcome.noConfusion

/-- When the tracing header influences the outcome. For every database, every admissible write
request and every two headers, with whichever ids are generated: the two requests end alike and
leave the same tables up to the correlation ids exactly when both headers have at most 64
characters, or both have more, or the request has nothing to write. -/
theorem served_alike_iff (lower : String → String) {db : Db} (hdb : db.Constraints)
    {r : WriteRequest} (hr : r.Admissible) (header₁ header₂ : Option String)
    (generated₁ generated₂ : GeneratedId) :
    SameUpToTracing (db.serve lower (r.call (correlationIdOf header₁ generated₁)))
        (db.serve lower (r.call (correlationIdOf header₂ generated₂))) ↔
      ((HeaderFits header₁ ↔ HeaderFits header₂) ∨ ¬r.Writes db) := by
  rw [← fits_correlationIdOf header₁ generated₁, ← fits_correlationIdOf header₂ generated₂]
  generalize correlationIdOf header₁ generated₁ = c₁
  generalize correlationIdOf header₂ generated₂ = c₂
  by_cases hw : r.Writes db
  · cases h₁ : fitsColumn 64 c₁ with
    | true =>
      cases h₂ : fitsColumn 64 c₂ with
      | true => exact iff_of_true (same_of_fits hdb hr hw h₁ h₂) (Or.inl Iff.rfl)
      | false =>
        have hdiffer := not_same_of_fits lower hdb hr hw h₁ h₂
        exact iff_of_false (fun hsame => hdiffer hsame.1) (by simp [hw])
    | false =>
      cases h₂ : fitsColumn 64 c₂ with
      | true =>
        have hdiffer := not_same_of_fits lower hdb hr hw h₂ h₁
        exact iff_of_false (fun hsame => hdiffer hsame.1.symm) (by simp [hw])
      | false =>
        rw [serve_of_not_fits hdb hr hw h₁, serve_of_not_fits hdb hr hw h₂]
        exact iff_of_true ⟨rfl, rfl⟩ (Or.inl Iff.rfl)
  · rw [serve_of_not_writes hw, serve_of_not_writes hw, readAnswer_call r db c₁ c₂]
    exact iff_of_true ⟨rfl, rfl⟩ (Or.inr hw)

/-- A request for the deployment of the first version of `registered`. -/
def tracedRequest : WriteRequest :=
  .requestDeployment 9 ⟨1, .development, none, false⟩

/-- `str(uuid.uuid7())` of some moment. -/
def someGeneratedId : GeneratedId := ⟨"01890a5d-ac96-774b-bcce-b302099a8057", by decide⟩

/-- The version of `tracedRequest` is deployable. -/
theorem tracedRequest_writes : tracedRequest.Writes registered.shared := by
  refine ⟨rfl, ?_⟩
  have hany : ((registered.shared.versions.get? 1).any fun v =>
      isDeployable v.stage .development) = true := by decide
  cases hv : registered.shared.versions.get? 1 with
  | none => simp [hv] at hany
  | some v => exact ⟨v, rfl, by simpa [hv] using hany⟩

/-- The tracing header can influence the outcome: the same request is answered without a header, and
fails with one of 65 characters. -/
theorem not_served_alike :
    ¬∀ (lower : String → String) (db : Db) (r : WriteRequest) (header₁ header₂ : Option String)
      (generated₁ generated₂ : GeneratedId), db.Constraints → r.Admissible →
        SameUpToTracing (db.serve lower (r.call (correlationIdOf header₁ generated₁)))
          (db.serve lower (r.call (correlationIdOf header₂ generated₂))) := by
  intro h
  have hcons : registered.shared.Constraints := by decide
  have hr : tracedRequest.Admissible := ⟨fun _ hs => absurd hs (by simp)⟩
  have hsame := h id registered.shared tracedRequest none (some (letters 64)) someGeneratedId
    someGeneratedId hcons hr
  have hshort : fitsColumn 64 (correlationIdOf none someGeneratedId) = true := by decide
  have hlong : fitsColumn 64 (correlationIdOf (some (letters 64)) someGeneratedId) = false := by
    rw [← Bool.not_eq_true, fits_correlationIdOf]
    intro hfits
    have hle := hfits _ rfl
    rw [letters, String.length_ofList, List.length_replicate] at hle
    exact absurd hle (by decide)
  exact not_same_of_fits id hcons hr tracedRequest_writes hshort hlong hsame.1

/-- `tracedRequest` without a header and with one of 65 characters. -/
theorem served_alike_iff_tracedRequest :
    ∃ (db : Db) (r : WriteRequest) (header₁ header₂ : Option String), db.Constraints ∧
      r.Admissible ∧ r.Writes db ∧
      (SameUpToTracing (db.serve id (r.call (correlationIdOf header₁ someGeneratedId)))
          (db.serve id (r.call (correlationIdOf header₂ someGeneratedId))) ↔
        ((HeaderFits header₁ ↔ HeaderFits header₂) ∨ ¬r.Writes db)) := by
  have hcons : registered.shared.Constraints := by decide
  have hr : tracedRequest.Admissible := ⟨fun _ hs => absurd hs (by simp)⟩
  exact ⟨_, _, none, some (letters 64), hcons, hr, tracedRequest_writes,
    served_alike_iff id hcons hr none (some (letters 64)) someGeneratedId someGeneratedId⟩

end MlopsPlatform
