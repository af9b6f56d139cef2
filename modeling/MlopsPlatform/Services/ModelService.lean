import MlopsPlatform.Models
import MlopsPlatform.Text
import MlopsPlatform.Services.Lifecycle

/-!
# Model registry service

`services/model_service.py`. Each function is modelled from its first query to its `db.commit()`: it
reads the database and returns the unit of work that it commits, or the error that it raises.
`Db.commit` is the rest of the call. The actor and the correlation id of the log context are
arguments, and so is the clock where the function reads it.
-/

namespace MlopsPlatform

/-- The name of a lifecycle event. -/
def eventName (fromStage : Option LifecycleStage) (toStage : LifecycleStage) : String :=
  if toStage = .archived then "archived"
  else if fromStage = none then "created"
  else if toStage = .approved then "approved"
  else if toStage = .validated then "validated"
  else "promoted"

/-- Append a lifecycle audit event. -/
def recordVersionEvent (modelVersionId : Uuid) (fromStage : Option LifecycleStage)
    (toStage : LifecycleStage) (actorId : Uuid) (correlationId : Option String)
    (recordedBy : VersionOperation) : Table.Draft ModelVersionEvent.id :=
  ⟨fun id =>
    { id, modelVersionId, event := eventName fromStage toStage, fromStage, toStage
      actorId := some actorId, correlationId, recordedBy }, fun _ => rfl⟩

/-! ## Models -/

/-- The body of `POST /models`. -/
structure ModelCreate where
  name : String
  owner : String
  framework : Framework
  tags : Tags := []

/-- The loop of `_unique_key`, with the lookups it has left. -/
def uniqueKeyFrom (taken : List String) (base : String) : ℕ → String → ℕ → Option String
  | 0, _, _ => none
  | lookups + 1, key, n =>
    if key ∈ taken then uniqueKeyFrom taken base lookups s!"{base}-{n}" (n + 1) else some key

/-- Derive a unique slug from the model name (append `-2`, `-3`, … on collision). One lookup more
than there are keys is enough for a loop over distinct candidates. -/
def uniqueKey (lower : String → String) (db : Db) (name : String) : Option String :=
  let base := slugify lower name
  uniqueKeyFrom (db.models.rows.map Model.key) base (db.models.rows.length + 1) base 2

/-- Register a model. -/
def createModel (lower : String → String) (db : Db) (actorId : Uuid) (data : ModelCreate) :
    Option UnitOfWork :=
  (uniqueKey lower db data.name).map fun key =>
    .insertModel ⟨fun id =>
      { id, key, name := data.name, owner := data.owner, framework := data.framework.value
        tags := data.tags, createdBy := some actorId }, fun _ => rfl⟩

/-- The model with an id. -/
def getModel (db : Db) (modelId : Uuid) : Except DomainError Model :=
  match db.models.get? modelId with
  | some model => .ok model
  | none => .error (.notFoundError s!"Model {modelId} not found")

/-! ## Versions -/

/-- The body of `POST /models/{model_id}/versions`. -/
structure ModelVersionCreate where
  version : String
  artifactUri : String
  algorithm : Option String := none
  trainingDataRef : Option String := none
  tags : Tags := []

/-- Register a version of a model, in stage DRAFT. -/
def createVersion (db : Db) (actorId : Uuid) (correlationId : Option String) (modelId : Uuid)
    (data : ModelVersionCreate) : Except DomainError UnitOfWork := do
  let _ ← getModel db modelId
  match db.versions.first? fun v => v.modelId = modelId && v.version = data.version with
  | some _ =>
    .error (.conflictError s!"Version '{data.version}' already exists for this model")
  | none =>
    .ok (.insertVersion
      ⟨fun id =>
        { id, modelId, version := data.version, stage := .draft, algorithm := data.algorithm
          artifactUri := data.artifactUri, trainingDataRef := data.trainingDataRef
          tags := data.tags, approvedBy := none, approvedAt := none
          createdBy := some actorId }, fun _ => rfl⟩
      fun id => recordVersionEvent id none .draft actorId correlationId .createVersion)

/-- The version with an id. -/
def getVersion (db : Db) (versionId : Uuid) : Except DomainError ModelVersion :=
  match db.versions.get? versionId with
  | some version => .ok version
  | none => .error (.notFoundError s!"Model version {versionId} not found")

/-- Approve a version (VALIDATED -> APPROVED), recording the approver. Approving grants approval, so
the transition is validated as that of an approved version. -/
def approveVersion (db : Db) (actorId : Uuid) (correlationId : Option String) (versionId : Uuid)
    (now : Time) : Except DomainError UnitOfWork := do
  let version ← getVersion db versionId
  let fromStage := version.stage
  validateTransition fromStage .approved true
  .ok (.updateVersion version
    { version with approvedAt := some now, approvedBy := some actorId, stage := .approved }
    (recordVersionEvent version.id fromStage .approved actorId correlationId .approveVersion))

/-- Move a version to `target`, enforcing legality and the approval gate. -/
def transitionVersion (db : Db) (actorId : Uuid) (correlationId : Option String) (versionId : Uuid)
    (target : LifecycleStage) : Except DomainError UnitOfWork := do
  let version ← getVersion db versionId
  let fromStage := version.stage
  validateTransition fromStage target version.approved
  .ok (.updateVersion version { version with stage := target }
    (recordVersionEvent version.id fromStage target actorId correlationId .transitionVersion))

/-- A page of the lifecycle events of a version, chronological, and their total. -/
def listVersionEvents (db : Db) (versionId : Uuid) (limit offset : ℕ) :
    Except DomainError (List ModelVersionEvent × ℕ) := do
  let _ ← getVersion db versionId
  let events := db.versionEvents.select fun e => e.modelVersionId = versionId
  .ok ((events.drop offset).take limit, events.length)

/-! ## What the reads of a call allow it to stage -/

/-- `getVersion` returns the stored version. -/
theorem getVersion_eq_ok {db : Db} {versionId : Uuid} {v : ModelVersion} :
    getVersion db versionId = .ok v ↔ db.versions.get? versionId = some v := by
  unfold getVersion
  split <;> simp_all

/-- The events of a version are listed only if it exists, and what is listed is about it. -/
theorem listVersionEvents_eq_ok {db : Db} {versionId : Uuid} {limit offset : ℕ}
    {p : List ModelVersionEvent × ℕ} (h : listVersionEvents db versionId limit offset = .ok p) :
    (∃ v, db.versions.get? versionId = some v) ∧ ∀ e ∈ p.1, e.modelVersionId = versionId := by
  obtain ⟨v, hv, hp⟩ := bind_eq_ok.mp h
  obtain rfl := Except.ok.inj hp
  refine ⟨⟨v, getVersion_eq_ok.mp hv⟩, fun e he => ?_⟩
  have hselected := List.mem_of_mem_drop (List.mem_of_mem_take he)
  exact of_decide_eq_true (Table.mem_select.mp hselected).2

/-- A version is created under an existing model that does not have its version string. -/
theorem createVersion_eq_ok {db : Db} {actorId : Uuid} {correlationId : Option String}
    {modelId : Uuid} {data : ModelVersionCreate} {u : UnitOfWork} :
    createVersion db actorId correlationId modelId data = .ok u ↔
      (db.models.get? modelId).isSome ∧
        (∀ v ∈ db.versions, ¬(v.modelId = modelId ∧ v.version = data.version)) ∧
        u = .insertVersion
          ⟨fun id =>
            { id, modelId, version := data.version, stage := .draft, algorithm := data.algorithm
              artifactUri := data.artifactUri, trainingDataRef := data.trainingDataRef
              tags := data.tags, approvedBy := none, approvedAt := none
              createdBy := some actorId }, fun _ => rfl⟩
          fun id => recordVersionEvent id none .draft actorId correlationId .createVersion := by
  unfold createVersion
  rw [bind_eq_ok]
  -- The model must exist, and then the version string must be new to it.
  cases hm : db.models.get? modelId with
  | none => simp [getModel, hm]
  | some model =>
    cases hv : db.versions.first? fun v => v.modelId = modelId && v.version = data.version with
    | none =>
      have hnone := Table.first?_eq_none.mp hv
      simp only [Bool.and_eq_false_iff, decide_eq_false_iff_not] at hnone
      simp only [getModel, hm, Except.ok.injEq, exists_eq_left', Option.isSome_some, true_and]
      constructor
      · rintro rfl
        exact ⟨fun v hv' h => by have := hnone v hv'; tauto, rfl⟩
      · rintro ⟨-, rfl⟩
        rfl
    | some v =>
      obtain ⟨hmem, hp, -⟩ := Table.first?_eq_some.mp hv
      simp only [Bool.and_eq_true, decide_eq_true_eq] at hp
      simp only [getModel, hm, Except.ok.injEq, exists_eq_left', reduceCtorEq, false_iff]
      rintro ⟨-, hnone, -⟩
      exact hnone v hmem hp

/-- Only a VALIDATED version is approved. -/
theorem approveVersion_eq_ok {db : Db} {actorId : Uuid} {correlationId : Option String}
    {versionId : Uuid} {now : Time} {u : UnitOfWork} :
    approveVersion db actorId correlationId versionId now = .ok u ↔
      ∃ v, db.versions.get? versionId = some v ∧ v.stage = .validated ∧
        u = .updateVersion v
          { v with approvedAt := some now, approvedBy := some actorId, stage := .approved }
          (recordVersionEvent v.id v.stage .approved actorId correlationId .approveVersion) := by
  unfold approveVersion
  simp only [bind_eq_ok, getVersion_eq_ok, validateTransition_eq_ok]
  constructor
  · rintro ⟨v, hv, -, ⟨ht, -⟩, hu⟩
    refine ⟨v, hv, ?_, (Except.ok.inj hu).symm⟩
    -- Of all stages only VALIDATED leads to APPROVED.
    cases hs : v.stage <;> simp_all [canTransition, allowedTransitions]
  · rintro ⟨v, hv, hs, rfl⟩
    exact ⟨v, hv, (), ⟨by rw [hs]; decide, by simp⟩, rfl⟩

/-- A version is moved along the table, into a stage that requires approval only if it has it. -/
theorem transitionVersion_eq_ok {db : Db} {actorId : Uuid} {correlationId : Option String}
    {versionId : Uuid} {target : LifecycleStage} {u : UnitOfWork} :
    transitionVersion db actorId correlationId versionId target = .ok u ↔
      ∃ v, db.versions.get? versionId = some v ∧ canTransition v.stage target = true ∧
        (target ∈ requiresApproval → v.approved = true) ∧
        u = .updateVersion v { v with stage := target }
          (recordVersionEvent v.id v.stage target actorId correlationId .transitionVersion) := by
  unfold transitionVersion
  simp only [bind_eq_ok, getVersion_eq_ok, validateTransition_eq_ok]
  constructor
  · rintro ⟨v, hv, -, ⟨ht, hr⟩, hu⟩
    exact ⟨v, hv, ht, hr, (Except.ok.inj hu).symm⟩
  · rintro ⟨v, hv, ht, hr, rfl⟩
    exact ⟨v, hv, (), ⟨ht, hr⟩, rfl⟩

end MlopsPlatform
