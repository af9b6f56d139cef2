import MlopsPlatform.Library.Loading
import MlopsPlatform.Services.MetricService
import MlopsPlatform.Widths

/-!
# The sample seeder

`db/seed_sample.py`, statement by statement: the session adds a model or a deployment, flushes to
learn its id, goes on with the rows that refer to it, and commits once, at the end. Its
`_event_name` is that of the model service. What the seeder reads are the values that `json.loads`
and `csv.DictReader` return. A file that cannot be read, a key or a column that is not there, and a
value that is not what it should be raise an exception. Which exception it is does not matter here:
none is caught.

The seeder does not ask whether what it stores in a column of texts is a text. The database converts
a number, but a dictionary keeps it as it is in the file: a version `2` is stored as `"2"`, and the
rows of `metrics.csv` that name it, which have texts, do not find it.
-/

namespace MlopsPlatform

open Transaction

/-! ## Values of the files -/

namespace Json

/-- `value[key]`. Of members with the same key the last one counts. -/
def item (value : Json) (key : String) : Option Json :=
  match value with
  | object members => members.reverse.lookup key
  | _ => none

/-- `value.get(key, default)`. -/
def get (value : Json) (key : String) (default : Json) : Option Json :=
  match value with
  | object members => some ((members.reverse.lookup key).getD default)
  | _ => none

/-- What a loop over the value goes through, which for an object are its keys. -/
def items : Json → Option (List Json)
  | array values => some values
  | object members => some (members.map fun member => string member.1)
  | string value => some (value.toList.map fun c => string (String.singleton c))
  | _ => none

/-- A text. -/
def text : Json → Option String
  | string value => some value
  | _ => none

/-- A key of a dictionary. Numbers are told apart by how they are written: `1`, `1.0`, and `True`,
which are one key for Python, are three. -/
inductive Key
  | null
  | bool (value : Bool)
  | number (digits : String)
  | text (value : String)
  deriving DecidableEq

/-- The value as a key. Arrays and objects are not hashable. -/
def key : Json → Option Key
  | null => some .null
  | bool value => some (.bool value)
  | number digits => some (.number digits)
  | string value => some (.text value)
  | array _ => none
  | object _ => none

/-- `bool(value)`, where `isZero` says which numbers are zero. -/
def truthy (isZero : String → Bool) : Json → Bool
  | null => false
  | bool value => value
  | number digits => !isZero digits
  | string value => value ≠ ""
  | array values => !values.isEmpty
  | object members => !members.isEmpty

end Json

/-- `LifecycleStage(value)`. -/
def LifecycleStage.ofValue (value : String) : Option LifecycleStage :=
  [draft, validated, approved, staging, production, archived].find? fun stage => stage.value = value

/-- `Environment(value)`. -/
def Environment.ofValue (value : String) : Option Environment :=
  [development, staging, production].find? fun environment => environment.value = value

/-- `DeploymentStatus(value)`. -/
def DeploymentStatus.ofValue (value : String) : Option DeploymentStatus :=
  [requested, validating, deploying, succeeded, failed, rolledBack].find? fun status =>
    status.value = value

/-- What the seeder uses of Python, and what it reads besides the files. -/
structure SeedContext where
  /-- `str.upper`. -/
  upper : String → String
  /-- `float` of a text, as the column stores it; `none` if one of them raises. An infinity has a
  number of its own here: the seeder does nothing with it but store it. -/
  float : String → Option ℚ
  /-- `datetime.fromisoformat`. -/
  fromIsoFormat : String → Option Time
  /-- A number in a JSON file is zero. -/
  isZero : String → Bool
  /-- What the database stores in a column of texts for a value that is neither a text nor null;
  `none` if it takes no such value. -/
  converted : Json → Option String
  /-- `_user_id`. -/
  userId : String → Option Uuid
  /-- `utcnow()`, after that many versions. -/
  utcnow : ℕ → Time

/-- What a column of texts stores for a value, if it is not to be null. -/
def SeedContext.columnText (ctx : SeedContext) : Json → Option String
  | .string value => some value
  | .null => none
  | value => ctx.converted value

/-- What the columns store for the `error` of `_make_deployment`. -/
structure ErrorTexts where
  /-- `Deployment.error`. -/
  error : Option String
  /-- The event of the failure, `error or "failed"`. -/
  event : String
  deriving DecidableEq

/-- The default, `None`. -/
def ErrorTexts.none : ErrorTexts := ⟨.none, "failed"⟩

/-- What the columns store for an error: nothing at all counts as none, and is stored as it is. -/
def SeedContext.errorTexts (ctx : SeedContext) : Json → Option ErrorTexts
  | .null => some .none
  | value => (ctx.columnText value).map fun text =>
    ⟨some text, if value.truthy ctx.isZero then text else "failed"⟩

/-- A row of `csv.DictReader`: the columns of the header. A row that is too short has no text in the
last ones. -/
abbrev CsvRow := List (String × Option String)

namespace CsvRow

/-- `row[column]`. -/
def item (row : CsvRow) (column : String) : Option (Option String) := row.reverse.lookup column

/-- `row[column]`, of which a method is called or which is converted. -/
def text (row : CsvRow) (column : String) : Option String := (row.item column).join

/-- `row[column]`, as a part of a key. -/
def key (row : CsvRow) (column : String) : Option Json.Key :=
  (row.item column).map fun value => value.elim .null .text

/-- `Environment(row["environment"].upper())`. -/
def environment (row : CsvRow) (ctx : SeedContext) : Option Environment :=
  (row.text "environment").bind fun value => Environment.ofValue (ctx.upper value)

end CsvRow

/-- The files of the data directory. -/
structure SampleFiles where
  /-- `models.json`; `none` if it cannot be read. -/
  models : Option Json
  /-- What the reader of `metrics.csv` returns, row after row, with `none` where it raises. -/
  metrics : List (Option CsvRow)
  /-- `deployment_events.json`, if the file exists; `none` in it if it cannot be read. -/
  deploymentEvents : Option (Option Json)

/-! ## The database -/

/-- The tables that are seeded. -/
structure SampleStore where
  db : Db
  metrics : Table Metric.id

/-- A row that the seeder adds. -/
inductive SampleRow
  | model (draft : Table.Draft Model.id)
  | version (draft : Table.Draft ModelVersion.id)
  | versionEvent (draft : Table.Draft ModelVersionEvent.id)
  | deployment (draft : Table.Draft Deployment.id)
  | deploymentEvent (draft : Table.Draft DeploymentEvent.id)
  | metric (draft : Table.Draft Metric.id)

/-- The insert of a row. -/
def SampleStore.insert (s : SampleStore) : SampleRow → SampleStore
  | .model draft => { s with db := { s.db with models := s.db.models.insert draft } }
  | .version draft => { s with db := { s.db with versions := s.db.versions.insert draft } }
  | .versionEvent draft =>
    { s with db := { s.db with versionEvents := s.db.versionEvents.insert draft } }
  | .deployment draft => { s with db := { s.db with deployments := s.db.deployments.insert draft } }
  | .deploymentEvent draft =>
    { s with db := { s.db with deploymentEvents := s.db.deploymentEvents.insert draft } }
  | .metric draft => { s with metrics := s.metrics.insert draft }

/-- The columns of `metrics`. -/
def Metric.fits (m : Metric) : Bool := fitsColumn 64 m.version && fitsColumn 32 m.environment.value

/-- Every row fits into its columns. -/
def SampleStore.fits (s : SampleStore) : Bool :=
  s.db.models.rows.all Model.fits && s.db.versions.rows.all ModelVersion.fits &&
    s.db.versionEvents.rows.all ModelVersionEvent.fits &&
    s.db.deployments.rows.all Deployment.fits &&
    s.db.deploymentEvents.rows.all DeploymentEvent.fits && s.metrics.rows.all Metric.fits

/-- The database accepts the rows: the constraints hold and, on PostgreSQL, every row fits. -/
def SampleStore.accepted (postgresql : Bool) (s : SampleStore) : Bool :=
  decide s.db.Constraints && (!postgresql || s.fits)

/-- Why the seeder raises. -/
inductive SeedError
  /-- A record is not what it should be. -/
  | malformed
  /-- The database has rejected a flush. -/
  | rejected
  /-- A statement after a rejected flush that was not rolled back. -/
  | pendingRollback

/-- The database of the seeder. -/
def seedBackend (postgresql : Bool) : Backend SampleStore SampleRow SeedError :=
  ⟨SampleStore.insert, SampleStore.accepted postgresql, .pendingRollback⟩

/-- The statements of the seeder. -/
abbrev Seeding (α : Type) := Program SampleStore SampleRow SeedError α

namespace Seeding

/-- Go on with what was read, or raise. -/
def read {α : Type} : Option α → Seeding α
  | some a => pure a
  | none => raise .malformed

/-! ## Registry -/

/-- Forward lifecycle a version passed through to reach its seeded stage. -/
def stageChain : LifecycleStage → List LifecycleStage
  | .draft => []
  | .validated => [.validated]
  | .approved => [.validated, .approved]
  | .staging => [.validated, .approved, .staging]
  | .production => [.validated, .approved, .staging, .production]
  | .archived => [.validated, .approved, .staging, .production, .archived]

/-- `Model(…)` of the seeder, with the id that its insert draws. -/
def modelRow (ctx : SeedContext) (key name owner framework : String) (id : Uuid) : Model :=
  { id, key, name, owner, framework, tags := [], createdBy := ctx.userId "engineer" }

/-- The row has the id that was drawn. -/
theorem modelRow_id (ctx : SeedContext) (key name owner framework : String) (id : Uuid) :
    (modelRow ctx key name owner framework id).id = id := rfl

/-- `ModelVersion(…)` of the seeder, with the id that its insert draws. -/
def versionRow (ctx : SeedContext) (modelId : Uuid) (version : String) (stage : LifecycleStage)
    (artifactUri : String) (approved : Bool) (now : Time) (id : Uuid) : ModelVersion :=
  { id, modelId, version, stage, algorithm := none, artifactUri, trainingDataRef := none
    tags := []
    approvedBy := if approved then ctx.userId "approver" else none
    approvedAt := if approved then some now else none
    createdBy := ctx.userId "engineer" }

/-- The row has the id that was drawn. -/
theorem versionRow_id (ctx : SeedContext) (modelId : Uuid) (version : String)
    (stage : LifecycleStage) (artifactUri : String) (approved : Bool) (now : Time) (id : Uuid) :
    (versionRow ctx modelId version stage artifactUri approved now id).id = id := rfl

/-- The operation of the platform that an entry of the seeded trail stands for. -/
def operationInto : LifecycleStage → VersionOperation
  | .draft => .createVersion
  | .approved => .approveVersion
  | _ => .transitionVersion

/-- `ModelVersionEvent(…)` of the seeder, with the id that its insert draws. -/
def versionEventRow (versionId : Uuid) (event : String) (fromStage : Option LifecycleStage)
    (toStage : LifecycleStage) (actorId : Option Uuid) (id : Uuid) : ModelVersionEvent :=
  { id, modelVersionId := versionId, event, fromStage, toStage, actorId, correlationId := none
    recordedBy := operationInto toStage }

/-- The row has the id that was drawn. -/
theorem versionEventRow_id (versionId : Uuid) (event : String) (fromStage : Option LifecycleStage)
    (toStage : LifecycleStage) (actorId : Option Uuid) (id : Uuid) :
    (versionEventRow versionId event fromStage toStage actorId id).id = id := rfl

/-- An event of a version. -/
def newVersionEvent (versionId : Uuid) (event : String) (fromStage : Option LifecycleStage)
    (toStage : LifecycleStage) (actorId : Option Uuid) : Table.Draft ModelVersionEvent.id :=
  ⟨versionEventRow versionId event fromStage toStage actorId, versionEventRow_id _ _ _ _ _⟩

/-- The events of a version that goes on from a stage along a chain. -/
def promotions (ctx : SeedContext) (versionId : Uuid) :
    LifecycleStage → List LifecycleStage → List (Table.Draft ModelVersionEvent.id)
  | _, [] => []
  | prev, stage :: stages =>
    newVersionEvent versionId (eventName (some prev) stage) (some prev) stage
      (ctx.userId "approver") :: promotions ctx versionId stage stages

/-- The events of a version that was created and brought to a stage. -/
def lifecycle (ctx : SeedContext) (versionId : Uuid) (stage : LifecycleStage) :
    List (Table.Draft ModelVersionEvent.id) :=
  newVersionEvent versionId "created" none .draft (ctx.userId "engineer") ::
    promotions ctx versionId .draft (stageChain stage)

/-- `_record_lifecycle`. -/
def recordLifecycle (ctx : SeedContext) (version : ModelVersion) (stage : LifecycleStage) :
    Seeding Unit :=
  addAll ((lifecycle ctx version.id stage).map .versionEvent)

/-- How many rows were added. -/
structure SeedCounts where
  models : ℕ
  versions : ℕ
  deployments : ℕ
  metrics : ℕ
  deriving DecidableEq

/-- Nothing was added. -/
def SeedCounts.zero : SeedCounts := ⟨0, 0, 0, 0⟩

/-- What the first part of the seeder builds up. -/
structure Registry where
  modelsByKey : List (Json.Key × Model)
  versionsByKey : List ((Json.Key × Json.Key) × ModelVersion)
  counts : SeedCounts

/-- A version of a model of the sample. -/
def seedVersion (ctx : SeedContext) (modelId : Json.Key) (model : Model) (registry : Registry)
    (vspec : Json) : Seeding Registry := do
  let stage ← read (((vspec.item "stage").bind Json.text).bind LifecycleStage.ofValue)
  let approved := (← read (vspec.get "approved" .null)).truthy ctx.isZero
  let version ← read ((vspec.item "version").bind ctx.columnText)
  let artifactUri ← read ((vspec.item "artifact_uri").bind ctx.columnText)
  let now := ctx.utcnow registry.counts.versions
  let row := versionRow ctx model.id version stage artifactUri approved now
  let id ← addFlush .rejected (.version ⟨row, versionRow_id _ _ _ _ _ _ _⟩) fun s =>
    s.db.versions.lastKey
  let key ← read ((vspec.item "version").bind Json.key)
  recordLifecycle ctx (row id) stage
  pure { registry with
    versionsByKey := ((modelId, key), row id) :: registry.versionsByKey
    counts := { registry.counts with versions := registry.counts.versions + 1 } }

/-- A model of the sample, with its versions. -/
def seedModel (ctx : SeedContext) (registry : Registry) (spec : Json) : Seeding Registry := do
  let key ← read ((spec.item "model_id").bind ctx.columnText)
  let name ← read ((spec.item "name").bind ctx.columnText)
  let owner ← read ((spec.item "owner").bind ctx.columnText)
  let framework ← read ((spec.item "framework").bind ctx.columnText)
  let row := modelRow ctx key name owner framework
  let id ← addFlush .rejected (.model ⟨row, modelRow_id _ _ _ _ _⟩) fun s => s.db.models.lastKey
  let modelId ← read ((spec.item "model_id").bind Json.key)
  let registry := { registry with
    modelsByKey := (modelId, row id) :: registry.modelsByKey
    counts := { registry.counts with models := registry.counts.models + 1 } }
  let vspecs ← read ((spec.get "versions" (.array [])).bind Json.items)
  vspecs.foldlM (seedVersion ctx modelId (row id)) registry

/-- Registry and version lifecycle audit history. -/
def seedModels (ctx : SeedContext) (files : SampleFiles) : Seeding Registry := do
  let specs ← read (files.models.bind Json.items)
  specs.foldlM (seedModel ctx) ⟨[], [], .zero⟩

namespace Registry

/-- `models_by_key.get(model_id)`. -/
def model? (registry : Registry) (modelId : Json.Key) : Option Model :=
  registry.modelsByKey.lookup modelId

/-- `versions_by_key.get((model_id, version))`. -/
def version? (registry : Registry) (modelId version : Json.Key) : Option ModelVersion :=
  registry.versionsByKey.lookup (modelId, version)

/-- `versions_by_key.get((row["model_id"], row["version"]))`. -/
def versionOf (registry : Registry) (row : CsvRow) : Option (Option ModelVersion) :=
  (row.key "model_id").bind fun modelId => (row.key "version").map fun version =>
    registry.version? modelId version

end Registry

/-! ## Deployments -/

/-- The steps of a deployment that SUCCEEDED. -/
def successSteps : List (DeploymentStatus × String) :=
  [(.requested, "requested"), (.validating, "validation_started"),
    (.deploying, "deployment_started"), (.succeeded, "deployment_completed")]

/-- The steps of a deployment: it SUCCEEDED, or it has failed. -/
def steps (status : DeploymentStatus) (error : ErrorTexts) : List (DeploymentStatus × String) :=
  if status = .succeeded then successSteps
  else [(.requested, "requested"), (status, error.event)]

/-- `Deployment(…)` of the seeder, with the id that its insert draws. -/
def deploymentRow (modelId modelVersionId : Uuid) (environment : Environment)
    (status : DeploymentStatus) (error : Option String) (actorId : Option Uuid) (id : Uuid) :
    Deployment :=
  { id, modelId, modelVersionId, environment, status, idempotencyKey := none, workerId := none
    lockedAt := none
    -- These were executed once.
    attempts := 1
    error, simulateFailure := false, correlationId := none, rolledBackToId := none
    createdBy := actorId }

/-- The row has the id that was drawn. -/
theorem deploymentRow_id (modelId modelVersionId : Uuid) (environment : Environment)
    (status : DeploymentStatus) (error : Option String) (actorId : Option Uuid) (id : Uuid) :
    (deploymentRow modelId modelVersionId environment status error actorId id).id = id := rfl

/-- The deployment that `_make_deployment` adds. -/
def newDeployment (modelId modelVersionId : Uuid) (environment : Environment)
    (status : DeploymentStatus) (error : Option String) (actorId : Option Uuid) :
    Table.Draft Deployment.id :=
  ⟨deploymentRow modelId modelVersionId environment status error actorId,
    deploymentRow_id _ _ _ _ _ _⟩

/-- `DeploymentEvent(…)` of the seeder, with the id that its insert draws. -/
def deploymentEventRow (deploymentId : Uuid) (step : DeploymentStatus × String) (id : Uuid) :
    DeploymentEvent :=
  { id, deploymentId, status := step.1, event := step.2, message := none, actor := some "worker"
    correlationId := none }

/-- The row has the id that was drawn. -/
theorem deploymentEventRow_id (deploymentId : Uuid) (step : DeploymentStatus × String) (id : Uuid) :
    (deploymentEventRow deploymentId step id).id = id := rfl

/-- A step of a deployment. -/
def newDeploymentEvent (deploymentId : Uuid) (step : DeploymentStatus × String) :
    Table.Draft DeploymentEvent.id :=
  ⟨deploymentEventRow deploymentId step, deploymentEventRow_id _ _⟩

/-- `_make_deployment`. -/
def makeDeployment (model : Model) (version : ModelVersion) (environment : Environment)
    (status : DeploymentStatus) (error : ErrorTexts) (actorId : Option Uuid) :
    Seeding Deployment := do
  let draft := newDeployment model.id version.id environment status error.error actorId
  let id ← addFlush .rejected (.deployment draft) fun s => s.db.deployments.lastKey
  addAll ((steps status error).map fun step => .deploymentEvent (newDeploymentEvent id step))
  pure (draft.1 id)

/-- What the second part of the seeder builds up. -/
structure Deployments where
  deploymentsByCombo : List ((Uuid × Environment) × Deployment)
  counts : SeedCounts

/-- The deployment that produced the metrics of a version in an environment. -/
def deploymentFor (ctx : SeedContext) (registry : Registry) (state : Deployments) (row : CsvRow)
    (version : ModelVersion) (environment : Environment) : Seeding (Deployment × Deployments) :=
  match state.deploymentsByCombo.lookup (version.id, environment) with
  | some deployment => pure (deployment, state)
  | none => do
    let model ← read ((row.key "model_id").bind registry.model?)
    let deployment ← makeDeployment model version environment .succeeded .none
      (ctx.userId "engineer")
    pure (deployment,
      { deploymentsByCombo :=
          ((version.id, environment), deployment) :: state.deploymentsByCombo
        counts := { state.counts with deployments := state.counts.deployments + 1 } })

/-! ## Metrics -/

/-- What a row of `metrics.csv` has measured, and when. -/
structure Reading where
  timestamp : Time
  latencyMs : ℚ
  throughputRpm : ℚ
  errorRate : ℚ
  qualityScore : ℚ
  driftScore : ℚ
  availability : ℚ

/-- `value.replace("Z", "+00:00")`. -/
def replaceZ (value : String) : String :=
  String.ofList (value.toList.flatMap fun c => if c = 'Z' then "+00:00".toList else [c])

/-- The measurements of a row. -/
def reading (ctx : SeedContext) (row : CsvRow) : Option Reading := do
  let timestamp ← ctx.fromIsoFormat (replaceZ (← row.text "timestamp"))
  let latencyMs ← ctx.float (← row.text "latency_ms")
  let throughputRpm ← ctx.float (← row.text "throughput_rpm")
  let errorRate ← ctx.float (← row.text "error_rate")
  let qualityScore ← ctx.float (← row.text "quality_score")
  let driftScore ← ctx.float (← row.text "drift_score")
  let availability ← ctx.float (← row.text "availability")
  some { timestamp, latencyMs, throughputRpm, errorRate, qualityScore, driftScore, availability }

/-- `Metric(…)` of the seeder, with the id that its insert draws. -/
def metricRow (version : ModelVersion) (deploymentId : Uuid) (text : String)
    (environment : Environment) (r : Reading) (id : Uuid) : Metric :=
  { id
    modelId := version.modelId
    modelVersionId := some version.id
    deploymentId := some deploymentId
    version := text
    environment
    timestamp := r.timestamp
    latencyMs := r.latencyMs
    throughputRpm := r.throughputRpm
    errorRate := r.errorRate
    qualityScore := r.qualityScore
    driftScore := r.driftScore
    availability := r.availability }

/-- The row has the id that was drawn. -/
theorem metricRow_id (version : ModelVersion) (deploymentId : Uuid) (text : String)
    (environment : Environment) (r : Reading) (id : Uuid) :
    (metricRow version deploymentId text environment r id).id = id := rfl

/-- The metric of a row. -/
def newMetric (version : ModelVersion) (deploymentId : Uuid) (text : String)
    (environment : Environment) (r : Reading) : Table.Draft Metric.id :=
  ⟨metricRow version deploymentId text environment r, metricRow_id _ _ _ _ _⟩

/-- A row of `metrics.csv`. Rows of versions that are not in the registry are skipped. -/
def seedMetric (ctx : SeedContext) (registry : Registry) (state : Deployments)
    (row : Option CsvRow) : Seeding Deployments := do
  let row ← read row
  match ← read (registry.versionOf row) with
  | none => pure state
  | some version =>
    let environment ← read (row.environment ctx)
    let (deployment, state) ← deploymentFor ctx registry state row version environment
    let text ← read (row.text "version")
    let r ← read (reading ctx row)
    stage fun staged => staged ++ [.metric (newMetric version deployment.id text environment r)]
    pure { state with counts := { state.counts with metrics := state.counts.metrics + 1 } }

/-! ## Failed deployments -/

/-- An entry of `deployment_events.json`: a metric-less, failed attempt. -/
def seedFailed (ctx : SeedContext) (registry : Registry) (counts : SeedCounts) (e : Json) :
    Seeding SeedCounts := do
  let status ← read (e.item "status")
  if status.text = some "SUCCEEDED" then
    -- Covered by the metric-derived deployments.
    pure counts
  else
    let modelId ← read ((e.item "model_id").bind Json.key)
    let version ← read ((e.item "version").bind Json.key)
    match registry.model? modelId, registry.version? modelId version with
    | some model, some version =>
      let environment ← read (((e.item "environment").bind Json.text).bind fun value =>
        Environment.ofValue (ctx.upper value))
      let status ← read (status.text.bind DeploymentStatus.ofValue)
      let error ← read ((e.item "event").bind ctx.errorTexts)
      let _ ← makeDeployment model version environment status error (ctx.userId "engineer")
      pure { counts with deployments := counts.deployments + 1 }
    | _, _ => pure counts

/-- The failed deployments, if there is a file of them. -/
def seedEvents (ctx : SeedContext) (registry : Registry) (files : SampleFiles)
    (counts : SeedCounts) : Seeding SeedCounts :=
  match files.deploymentEvents with
  | none => pure counts
  | some json => do
    let entries ← read (json.bind Json.items)
    entries.foldlM (seedFailed ctx registry) counts

/-! ## The seeder -/

/-- Deployments (one SUCCEEDED per version and environment with metrics) and linked metrics, and
then the failed deployments. -/
def seedRuns (ctx : SeedContext) (registry : Registry) (files : SampleFiles) :
    Seeding SeedCounts := do
  let state ← files.metrics.foldlM (seedMetric ctx registry) ⟨[], registry.counts⟩
  seedEvents ctx registry files state.counts

/-- All rows of the sample, before the commit. -/
def seedRows (ctx : SeedContext) (files : SampleFiles) : Seeding SeedCounts := do
  let registry ← seedModels ctx files
  seedRuns ctx registry files

/-- The seeder once it has found the registry empty. -/
def seedEmpty (ctx : SeedContext) (files : SampleFiles) : Seeding SeedCounts := do
  let counts ← seedRows ctx files
  commitExcept (raise .rejected)
  pure counts

/-- Seed the coherent sample dataset into an empty registry. Returns counts (all zero if skipped).
-/
def seedSampleData (ctx : SeedContext) (files : SampleFiles) : Seeding SeedCounts := do
  if 0 < (← query).db.models.rows.length then pure .zero
  else seedEmpty ctx files

/-- How a call of the seeder ends, and the database then. -/
def ends (ctx : SeedContext) (postgresql : Bool) (files : SampleFiles) (s : SampleStore) :
    Except SeedError SeedCounts × SampleStore :=
  let ended := (seedSampleData ctx files).solo (seedBackend postgresql) (.start s)
  (ended.1, ended.2.committed)

end Seeding

end MlopsPlatform
