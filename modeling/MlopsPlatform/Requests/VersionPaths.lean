import MlopsPlatform.System

/-!
# Requests on the path of a version

The routes `/models/{model_id}/versions/{version_id}/approve`, `…/promote` and `…/events` take two
ids, of which the services get the second. The routes for the versions of a model look the model up;
these three do not look at it, so that a version is approved, promoted and shown under the path of
any model. A request keeps to its path exactly if the version, where there is one, is a version of
the model (`keepsToPath_iff_of_reach`).
-/

namespace MlopsPlatform

open Transition

/-! ## The routes -/

/-- `POST /models/{model_id}/versions/{version_id}/approve`. -/
def approveVersionRoute (db : Db) (userId : Uuid) (correlationId : Option String)
    (_modelId versionId : Uuid) (now : Time) : Except DomainError UnitOfWork :=
  approveVersion db userId correlationId versionId now

/-- `POST /models/{model_id}/versions/{version_id}/promote`. -/
def promoteVersionRoute (db : Db) (userId : Uuid) (correlationId : Option String)
    (_modelId versionId : Uuid) (targetStage : LifecycleStage) : Except DomainError UnitOfWork :=
  transitionVersion db userId correlationId versionId targetStage

/-- `GET /models/{model_id}/versions/{version_id}/events`. -/
def listVersionEventsRoute (db : Db) (_modelId versionId : Uuid) (limit offset : ℕ) :
    Except DomainError (List ModelVersionEvent × ℕ) :=
  listVersionEvents db versionId limit offset

/-- A request on the path of a version, without its two ids. -/
inductive VersionRequest
  | approve (userId : Uuid) (correlationId : Option String) (now : Time)
  | promote (userId : Uuid) (correlationId : Option String) (targetStage : LifecycleStage)
  | events (limit offset : ℕ)

/-- What a request comes to when it does not raise. -/
inductive VersionReply
  /-- It commits a unit of work. -/
  | commits (u : UnitOfWork)
  /-- It returns a page of events, and their total. -/
  | page (items : List ModelVersionEvent) (total : ℕ)

/-- What a request does with what it reads. -/
def VersionRequest.handle (db : Db) (modelId versionId : Uuid) :
    VersionRequest → Except DomainError VersionReply
  | approve userId correlationId now =>
    (approveVersionRoute db userId correlationId modelId versionId now).map .commits
  | promote userId correlationId targetStage =>
    (promoteVersionRoute db userId correlationId modelId versionId targetStage).map .commits
  | events limit offset =>
    (listVersionEventsRoute db modelId versionId limit offset).map fun p => .page p.1 p.2

/-- The database after a request that read `db` and that commits to `db'`, if it commits. -/
def VersionRequest.leaves (r : VersionRequest) (db db' : Db) (modelId versionId : Uuid) : Db :=
  match r.handle db modelId versionId with
  | .ok (.commits u) => (db'.commit u).getD db'
  | _ => db'

/-! ## Keeping to the path -/

/-- The model exists, and the version is one of its versions. -/
def Db.HasVersion (db : Db) (modelId versionId : Uuid) : Prop :=
  (∃ m ∈ db.models, m.id = modelId) ∧ ∃ v ∈ db.versions, v.id = versionId ∧ v.modelId = modelId

/-- The event is about a version of another model. -/
def Db.OfOther (db : Db) (modelId : Uuid) (e : ModelVersionEvent) : Prop :=
  ∃ v ∈ db.versions, v.id = e.modelVersionId ∧ v.modelId ≠ modelId

/-- A request that read `db` and that commits to `db'` keeps to the path with a model and a version.
-/
structure VersionRequest.KeepsToPath (r : VersionRequest) (db db' : Db) (modelId versionId : Uuid) :
    Prop where
  /-- The versions of other models stay as they are. -/
  versions : ∀ v, v.modelId ≠ modelId →
    (v ∈ (r.leaves db db' modelId versionId).versions ↔ v ∈ db'.versions)
  /-- So do the events of the versions of other models. -/
  events : ∀ e, db'.OfOther modelId e →
    (e ∈ (r.leaves db db' modelId versionId).versionEvents ↔ e ∈ db'.versionEvents)
  /-- A listing has no event of a version of another model. -/
  shown : ∀ items total, r.handle db modelId versionId = .ok (.page items total) →
    ∀ e ∈ items, ¬db.OfOther modelId e
  /-- Unless the version is one of the model's, the request ends in `NotFoundError` and changes
  nothing. -/
  notFound : ¬db.HasVersion modelId versionId →
    (∃ message, r.handle db modelId versionId = .error (.notFoundError message)) ∧
      r.leaves db db' modelId versionId = db'

/-! ## What the services look at -/

/-- A request for a version that does not exist ends in `NotFoundError`. -/
theorem VersionRequest.handle_of_none {db : Db} {versionId : Uuid}
    (h : db.versions.get? versionId = none) (r : VersionRequest) (modelId : Uuid) :
    r.handle db modelId versionId =
      .error (.notFoundError s!"Model version {versionId} not found") := by
  have hget : getVersion db versionId =
      .error (.notFoundError s!"Model version {versionId} not found") := by
    unfold getVersion
    rw [h]
  cases r with
  | approve userId correlationId now =>
    unfold handle approveVersionRoute approveVersion
    rw [hget]
    rfl
  | promote userId correlationId targetStage =>
    unfold handle promoteVersionRoute transitionVersion
    rw [hget]
    rfl
  | events limit offset =>
    unfold handle listVersionEventsRoute listVersionEvents
    rw [hget]
    rfl

/-- A move is refused for the stages or for the approval, never because something is missing. -/
theorem validateTransition_ne_notFound (current target : LifecycleStage) (approved : Bool)
    (message : String) : validateTransition current target approved ≠
      .error (.notFoundError message) := by
  unfold validateTransition
  split_ifs <;> simp

/-- A request for a version that exists does not end in `NotFoundError`. -/
theorem VersionRequest.handle_of_some {db : Db} {versionId : Uuid} {v : ModelVersion}
    (h : db.versions.get? versionId = some v) (r : VersionRequest) (modelId : Uuid)
    (message : String) : r.handle db modelId versionId ≠ .error (.notFoundError message) := by
  have hget : getVersion db versionId = .ok v := getVersion_eq_ok.mpr h
  have hmoves : ∀ {target : LifecycleStage} {approved : Bool} {u : UnitOfWork},
      Except.map VersionReply.commits (do
        validateTransition v.stage target approved
        .ok u) ≠ .error (.notFoundError message) := by
    intro target approved u hraise
    cases hvalid : validateTransition v.stage target approved with
    | error e =>
      rw [hvalid] at hraise
      have he : e = .notFoundError message := Except.error.inj hraise
      exact validateTransition_ne_notFound _ _ _ message (he ▸ hvalid)
    | ok _ =>
      rw [hvalid] at hraise
      exact absurd hraise (by simp [bind, Except.bind, Except.map])
  cases r with
  | approve userId correlationId now =>
    unfold handle approveVersionRoute approveVersion
    rw [hget]
    exact hmoves
  | promote userId correlationId targetStage =>
    unfold handle promoteVersionRoute transitionVersion
    rw [hget]
    exact hmoves
  | events limit offset =>
    unfold handle listVersionEventsRoute listVersionEvents
    rw [hget]
    simp [bind, Except.bind, Except.map]

/-- What a request commits is an update of the version with an event about it. -/
theorem VersionRequest.commits_spec {db : Db} {modelId versionId : Uuid} {r : VersionRequest}
    {u : UnitOfWork} (h : r.handle db modelId versionId = .ok (.commits u)) :
    ∃ v assigned event, u = .updateVersion v assigned event ∧ v.id = versionId ∧
      ∀ n, (event.1 n).modelVersionId = versionId := by
  have hmap : ∀ {x : Except DomainError UnitOfWork},
      x.map VersionReply.commits = .ok (.commits u) → x = .ok u := by
    intro x hx
    cases x with
    | error e => exact absurd hx (by simp [Except.map])
    | ok w =>
      rw [VersionReply.commits.inj (Except.ok.inj hx)]
  cases r with
  | approve userId correlationId now =>
    obtain ⟨v, hv, -, rfl⟩ := approveVersion_eq_ok.mp (hmap h)
    have hid : v.id = versionId := (Table.get?_eq_some.mp hv).2
    exact ⟨v, _, _, rfl, hid, fun _ => hid⟩
  | promote userId correlationId targetStage =>
    obtain ⟨v, hv, -, -, rfl⟩ := transitionVersion_eq_ok.mp (hmap h)
    have hid : v.id = versionId := (Table.get?_eq_some.mp hv).2
    exact ⟨v, _, _, rfl, hid, fun _ => hid⟩
  | events limit offset =>
    simp only [handle] at h
    cases hpage : listVersionEventsRoute db modelId versionId limit offset with
    | error e =>
      rw [hpage] at h
      exact absurd h (by simp [Except.map])
    | ok p =>
      rw [hpage] at h
      exact absurd h (by simp [Except.map])

/-- What a listing shows is about the version. -/
theorem VersionRequest.page_spec {db : Db} {modelId versionId : Uuid} {r : VersionRequest}
    {items : List ModelVersionEvent} {total : ℕ}
    (h : r.handle db modelId versionId = .ok (.page items total)) :
    ∀ e ∈ items, e.modelVersionId = versionId := by
  have hmap : ∀ {x : Except DomainError UnitOfWork},
      x.map VersionReply.commits ≠ .ok (.page items total) := by
    intro x hx
    cases x with
    | error e => exact absurd hx (by simp [Except.map])
    | ok w => exact absurd hx (by simp [Except.map])
  cases r with
  | approve userId correlationId now => exact absurd h hmap
  | promote userId correlationId targetStage => exact absurd h hmap
  | events limit offset =>
    simp only [handle] at h
    cases hpage : listVersionEventsRoute db modelId versionId limit offset with
    | error e =>
      rw [hpage] at h
      exact absurd h (by simp [Except.map])
    | ok p =>
      rw [hpage] at h
      obtain ⟨rfl, -⟩ := VersionReply.page.inj (Except.ok.inj h)
      exact (listVersionEvents_eq_ok hpage).2

/-! ## Where a request keeps to its path -/

/-- A request for a version that exists keeps to its path only if the version is one of the
model's. -/
theorem VersionRequest.KeepsToPath.modelId {r : VersionRequest} {db db' : Db}
    {modelId versionId : Uuid} (h : r.KeepsToPath db db' modelId versionId) :
    ∀ v ∈ db.versions, v.id = versionId → v.modelId = modelId := by
  rintro v hv rfl
  by_contra hne
  -- It would have to end in `NotFoundError`, and does not.
  have hnot : ¬db.HasVersion modelId v.id := by
    rintro ⟨-, w, hw, hid, hmodel⟩
    obtain rfl := db.versions.eq_of_key_eq hw hv hid
    exact hne hmodel
  obtain ⟨⟨message, hraise⟩, -⟩ := h.notFound hnot
  exact r.handle_of_some (Table.get?_key hv) modelId message hraise

/-- An update of a version leaves the versions of other models and their events as they are, if the
row that it is flushed onto is a version of the model. -/
theorem Db.frame_updateVersion {db : Db} {modelId versionId : Uuid} {v assigned : ModelVersion}
    {event : Table.Draft ModelVersionEvent.id} (hid : v.id = versionId)
    (hevent : ∀ n, (event.1 n).modelVersionId = versionId)
    (hmodel : ∀ w ∈ db.versions, w.id = versionId → w.modelId = modelId) :
    (∀ w, w.modelId ≠ modelId →
        (w ∈ (db.write (.updateVersion v assigned event)).versions ↔ w ∈ db.versions)) ∧
      ∀ e, db.OfOther modelId e →
        (e ∈ (db.write (.updateVersion v assigned event)).versionEvents ↔
          e ∈ db.versionEvents) := by
  have hkeeps : ∀ w ∈ db.versions, w.modelId ≠ modelId →
      (UnitOfWork.updateVersion v assigned event).onVersion w = w := by
    intro w hw hne
    have hother : v.id ≠ w.id := fun heq => hne (hmodel w hw (heq.symm.trans hid))
    show (if v.id = w.id then v.flush assigned w else w) = w
    rw [if_neg hother]
  have hversions : (db.write (.updateVersion v assigned event)).versions =
      db.versions.mapRows (UnitOfWork.updateVersion v assigned event).onVersion
        (UnitOfWork.onVersion_id _) := rfl
  have hevents : (db.write (.updateVersion v assigned event)).versionEvents =
      db.versionEvents.insert event := rfl
  constructor
  · intro w hne
    rw [hversions, Table.mem_mapRows]
    constructor
    · rintro ⟨a, ha, rfl⟩
      rw [UnitOfWork.onVersion_modelId] at hne
      rw [hkeeps a ha hne]
      exact ha
    · intro hw
      exact ⟨w, hw, hkeeps w hw hne⟩
  · rintro e ⟨w, hw, hwe, hne⟩
    rw [hevents, Table.mem_insert]
    constructor
    · rintro (he | rfl)
      · exact he
      · exact absurd (hmodel w hw (hwe.trans (hevent _))) hne
    · exact Or.inl

/-- What commits has found its version. -/
theorem VersionRequest.exists_version_of_commits {r : VersionRequest} {db : Db}
    {modelId versionId : Uuid} {u : UnitOfWork}
    (h : r.handle db modelId versionId = .ok (.commits u)) :
    ∃ v, db.versions.get? versionId = some v := by
  cases hget : db.versions.get? versionId with
  | none =>
    rw [r.handle_of_none hget] at h
    exact absurd h (by simp)
  | some v => exact ⟨v, rfl⟩

/-- A request leaves the database with what it commits, or as it was. -/
theorem VersionRequest.leaves_cases (r : VersionRequest) (db db' : Db) (modelId versionId : Uuid) :
    r.leaves db db' modelId versionId = db' ∨
      ∃ u, r.handle db modelId versionId = .ok (.commits u) ∧
        r.leaves db db' modelId versionId = db'.write u := by
  unfold leaves
  split
  · rename_i u hu
    cases hcom : db'.commit u with
    | none => exact Or.inl rfl
    | some written => exact Or.inr ⟨u, hu, (Db.commit_eq_some.mp hcom).2.symm⟩
  · exact Or.inl rfl

/-- A request keeps to its path if the version, where there is one, is a version of the model in
what it reads and in what it commits to. -/
theorem VersionRequest.keepsToPath {r : VersionRequest} {db db' : Db} {modelId versionId : Uuid}
    (hmodels : ∀ v ∈ db.versions, ∃ m ∈ db.models, m.id = v.modelId)
    (hread : ∀ v ∈ db.versions, v.id = versionId → v.modelId = modelId)
    (hcommit : ∀ v ∈ db.versions, v.id = versionId →
      ∀ w ∈ db'.versions, w.id = versionId → w.modelId = modelId) :
    r.KeepsToPath db db' modelId versionId := by
  have hframe : ∀ u, r.handle db modelId versionId = .ok (.commits u) →
      (∀ w, w.modelId ≠ modelId → (w ∈ (db'.write u).versions ↔ w ∈ db'.versions)) ∧
        ∀ e, db'.OfOther modelId e →
          (e ∈ (db'.write u).versionEvents ↔ e ∈ db'.versionEvents) := by
    intro u hu
    obtain ⟨stored, hget⟩ := exists_version_of_commits hu
    obtain ⟨v, assigned, event, rfl, hid, hevent⟩ := commits_spec hu
    obtain ⟨hstored, hkey⟩ := Table.get?_eq_some.mp hget
    exact Db.frame_updateVersion hid hevent (hcommit stored hstored hkey)
  have hleaves := r.leaves_cases db db' modelId versionId
  refine ⟨?_, ?_, ?_, ?_⟩
  · intro v hne
    rcases hleaves with heq | ⟨u, hu, heq⟩
    · rw [heq]
    · rw [heq]
      exact (hframe u hu).1 v hne
  · intro e he
    rcases hleaves with heq | ⟨u, hu, heq⟩
    · rw [heq]
    · rw [heq]
      exact (hframe u hu).2 e he
  · rintro items total hpage e he ⟨v, hv, hid, hne⟩
    exact hne (hread v hv (hid.trans (page_spec hpage e he)))
  · intro hnot
    have hget : db.versions.get? versionId = none := by
      cases hget : db.versions.get? versionId with
      | none => rfl
      | some v =>
        obtain ⟨hv, hid⟩ := Table.get?_eq_some.mp hget
        have hmodel := hread v hv hid
        obtain ⟨m, hm, hmid⟩ := hmodels v hv
        exact absurd ⟨⟨m, hm, hmid.trans hmodel⟩, v, hv, hid, hmodel⟩ hnot
    have hraise := r.handle_of_none hget modelId
    refine ⟨⟨_, hraise⟩, ?_⟩
    unfold leaves
    rw [hraise]

/-! ## Runs -/

variable {lower : String → String}

/-- What a session holds inserts versions of stored models only. -/
def UnitOfWork.UnderModel (db : Db) (_ : Writer) : UnitOfWork → Prop
  | insertVersion version _ => ∀ n, ∃ m ∈ db.models, m.id = (version.1 n).modelId
  | _ => True

/-- What reads stage inserts versions of stored models only. -/
theorem Staged.underModel {db : Db} {w : Writer} {u : UnitOfWork} (h : Staged lower db w u) :
    u.UnderModel db w := by
  have hleaves : u.writesVersions = false → u.UnderModel db w := by
    intro hwrites
    cases u with
    | insertVersion version event => exact absurd hwrites (by simp [UnitOfWork.writesVersions])
    | _ => trivial
  cases w with
  | api call =>
    cases h with
    | call hc =>
      rcases (Call.stage_eq_ok hc).versionWrite with hwrites | hwrite
      · exact hleaves hwrites
      · cases hwrite with
        | create hcreate =>
          obtain ⟨hmodel, -, rfl⟩ := createVersion_eq_ok.mp hcreate
          obtain ⟨m, hm⟩ := Option.isSome_iff_exists.mp hmodel
          intro n
          exact ⟨m, Table.get?_eq_some.mp hm⟩
        | approve happrove =>
          obtain ⟨v, -, -, rfl⟩ := approveVersion_eq_ok.mp happrove
          trivial
        | transition hmove =>
          obtain ⟨v, -, -, -, rfl⟩ := transitionVersion_eq_ok.mp hmove
          trivial
  | worker =>
    obtain ⟨dirty, events, rfl⟩ := h.updateDeployments rfl
    trivial
  | reaper =>
    obtain ⟨dirty, events, rfl⟩ := h.updateDeployments rfl
    trivial

/-- A model stays stored. -/
theorem Db.mem_models_write {db : Db} {m : Model} (u : UnitOfWork) (h : m ∈ db.models) :
    m ∈ (db.write u).models := by
  cases u with
  | insertModel model => exact Table.mem_insert.mpr (Or.inl h)
  | _ => exact h

/-- In every state reached the model of a version is stored. -/
theorem models_of_reach {ok : State → ℕ × Action → Prop} {s : State}
    (h : Reach (step lower) ok .init s) :
    ∀ v ∈ s.shared.versions, ∃ m ∈ s.shared.models, m.id = v.modelId := by
  refine (reach_invariant (I := fun db => ∀ v ∈ db.versions, ∃ m ∈ db.models, m.id = v.modelId)
    (J := fun db w u => u.UnderModel db w)
    (R := fun db db' => ∀ m ∈ db.models, m ∈ db'.models) h ?_ (State.init_holds _)
    ?_ ?_ ?_ ?_ ?_).1
  · exact fun v hv => absurd hv (Table.not_mem_empty v)
  · exact fun db d => trivial
  · exact fun s i a w u _ _ _ hreads => hreads.staged.underModel
  · intro s i a w u _ hdb _ hu _
    refine ⟨fun v hv => ?_, fun m hm => Db.mem_models_write u hm⟩
    have hunder : u.UnderModel s.shared w := hu.elim id fun hreads => hreads.staged.underModel
    rcases Db.mem_versions_write hv with ⟨a, ha, rfl⟩ | ⟨version, event, rfl, rfl⟩
    · obtain ⟨m, hm, hid⟩ := hdb a ha
      exact ⟨m, Db.mem_models_write u hm, by rw [hid, u.onVersion_modelId]⟩
    · obtain ⟨m, hm, hid⟩ := hunder s.shared.versions.next
      exact ⟨m, Db.mem_models_write _ hm, hid⟩
  · exact fun db m hm => hm
  · intro db db' w u hR hu
    cases u with
    | insertVersion version event => exact fun n => (hu n).imp fun m hm => ⟨hR m hm.1, hm.2⟩
    | _ => trivial

/-- No run takes a version from its model. -/
theorem modelId_of_reach {ok : State → ℕ × Action → Prop} {s t : State}
    (h : Reach (step lower) ok s t) {id : Uuid} {v : ModelVersion}
    (hv : s.shared.versions.get? id = some v) :
    ∃ w, t.shared.versions.get? id = some w ∧ w.modelId = v.modelId := by
  refine h.invariant (I := fun t => ∃ w, t.shared.versions.get? id = some w ∧
    w.modelId = v.modelId) ⟨v, hv, rfl⟩ ?_
  rintro t ⟨i, a⟩ t' - ⟨w, hw, hmodel⟩ - hstep
  rcases step_cases hstep with ⟨l, -, -, rfl⟩ | ⟨writer, u, l, -, -, rfl⟩
  · exact ⟨w, hw, hmodel⟩
  · exact ⟨u.onVersion w, Db.get?_versions_write u hw, by rw [u.onVersion_modelId, hmodel]⟩

/-- Where requests keep to their paths. For every state that a run reaches, every model and version
id, and every request that reads there and commits in a state that the run reaches later: it leaves
the versions of other models and their events alone, shows none of these events, and ends in
`NotFoundError` if the version is not one of the model's, exactly if there is no such version or it
is one of the model's. -/
theorem keepsToPath_iff_of_reach {ok : State → ℕ × Action → Prop} {s t : State}
    (hs : Reach (step lower) ok .init s) (ht : Reach (step lower) ok s t) (r : VersionRequest)
    (modelId versionId : Uuid) :
    r.KeepsToPath s.shared t.shared modelId versionId ↔
      ∀ v ∈ s.shared.versions, v.id = versionId → v.modelId = modelId := by
  constructor
  · exact fun h => h.modelId
  · intro hread
    refine VersionRequest.keepsToPath (models_of_reach hs) hread ?_
    rintro v hv rfl w hw hid
    obtain ⟨w', hw', hmodel⟩ := modelId_of_reach ht (Table.get?_key hv)
    obtain ⟨hmem', hid'⟩ := Table.get?_eq_some.mp hw'
    obtain rfl := t.shared.versions.eq_of_key_eq hw hmem' (hid.trans hid'.symm)
    exact hmodel.trans (hread v hv rfl)

/-- Model 1 has two versions, and model 2 none. -/
def secondModelRun : List (ℕ × Action) :=
  registration ++
    [(0, .call (.createModel 9 { name := "valve", owner := "ops", framework := .onnx }))]

/-- The state after it. -/
def secondModel : State := exec (step id) (fun _ _ => True) .init secondModelRun

/-- Not every request keeps to its path: version 1 of model 1 is approved on the path of model 2. -/
theorem not_keepsToPath_of_reach :
    ¬∀ s : State, Reach (step id) (fun _ _ => True) .init s →
      ∀ (r : VersionRequest) (modelId versionId : Uuid),
        r.KeepsToPath s.shared s.shared modelId versionId := by
  intro h
  have hpath := h secondModel (exec_reach _ _ _ _) (.approve 9 none 5) 2 1
  obtain ⟨v, hv⟩ : ∃ v, secondModel.shared.versions.get? 1 = some v :=
    Option.isSome_iff_exists.mp (by decide)
  have hmodel : v.modelId = 1 := by
    have hrow : (secondModel.shared.versions.get? 1).map ModelVersion.modelId = some 1 := by decide
    rw [hv] at hrow
    exact Option.some.inj hrow
  have hstage : v.stage = .validated := by
    have hrow : (secondModel.shared.versions.get? 1).map ModelVersion.stage = some .validated := by
      decide
    rw [hv] at hrow
    exact Option.some.inj hrow
  -- The row of model 1 is not what it was.
  obtain ⟨hmem, hid⟩ := Table.get?_eq_some.mp hv
  have hkept := (hpath.versions v (by rw [hmodel]; decide)).mpr hmem
  have happroved : (((VersionRequest.approve 9 none 5).leaves secondModel.shared
      secondModel.shared 2 1).versions.get? 1).map ModelVersion.stage = some .approved := by decide
  rw [Table.get?_eq_some.mpr ⟨hkept, hid⟩] at happroved
  have hcontra := Option.some.inj happroved
  rw [hstage] at hcontra
  exact absurd hcontra (by decide)

/-- The same request on the path of model 1 keeps to it. -/
theorem keepsToPath_iff_of_reach_secondModel :
    (VersionRequest.approve 9 none 5).KeepsToPath secondModel.shared secondModel.shared 1 1 ∧
      ¬(VersionRequest.approve 9 none 5).KeepsToPath secondModel.shared secondModel.shared 2 1 := by
  have hreach : Reach (step id) (fun _ _ => True) .init secondModel := exec_reach _ _ _ _
  have hiff := fun modelId : Uuid =>
    keepsToPath_iff_of_reach hreach .refl (.approve 9 none 5) modelId 1
  have hrows : ∀ v ∈ secondModel.shared.versions.rows, v.modelId = 1 := by decide
  obtain ⟨v, hv⟩ : ∃ v, secondModel.shared.versions.get? 1 = some v :=
    Option.isSome_iff_exists.mp (by decide)
  obtain ⟨hmem, hid⟩ := Table.get?_eq_some.mp hv
  refine ⟨(hiff 1).mpr fun w hw _ => hrows w hw, fun hpath => ?_⟩
  have htwo := (hiff 2).mp hpath v hmem hid
  rw [hrows v hmem] at htwo
  exact absurd htwo (by decide)

end MlopsPlatform
