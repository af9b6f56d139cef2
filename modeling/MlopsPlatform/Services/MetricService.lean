import Mathlib.Algebra.Order.Ring.Rat
import Mathlib.Data.List.Dedup
import MlopsPlatform.Library.Descending
import MlopsPlatform.Services.Listing
import MlopsPlatform.Services.ModelService

/-!
# Monitoring service

`services/metric_service.py`: per-model metric summaries and a health overview. `ORDER BY timestamp
DESC` does not say in which order samples of the same time come, so each of these queries is given
with the way in which the database answers it.
-/

namespace MlopsPlatform

open Like (CaseFold)

/-- A monitoring sample for a model version in an environment at a point in time. The floats of the
source are rationals here. -/
structure Metric where
  id : Uuid
  modelId : Uuid
  modelVersionId : Option Uuid
  /-- The deployment that produced this sample. -/
  deploymentId : Option Uuid
  version : String
  environment : Environment
  timestamp : Time
  latencyMs : ℚ
  throughputRpm : ℚ
  errorRate : ℚ
  qualityScore : ℚ
  driftScore : ℚ
  availability : ℚ
  deriving DecidableEq

/-- Health rollup derived from the latest metric sample. -/
inductive MonitoringStatus
  | healthy | degraded | noData
  deriving DecidableEq

/-- `_status`, with the thresholds of the health rollup. -/
def status : Option Metric → MonitoringStatus
  | none => .noData
  | some latest =>
    if latest.availability < 99 ∨ latest.errorRate > 3 / 100 ∨ latest.driftScore > 30 / 100 then
      .degraded
    else .healthy

/-- `_latest_metric`. -/
def latestMetric (order : Descending Metric.timestamp) (metrics : Table Metric.id)
    (modelId : Uuid) : Option Metric :=
  order.first (metrics.select fun m => m.modelId = modelId)

/-- Distinct (version, environment) combinations that have metrics. `collation` is the order by
descending version and by environment. -/
def availableSeries (collation : String × Environment → String × Environment → Bool)
    (metrics : Table Metric.id) (modelId : Uuid) : List (String × Environment) :=
  ((metrics.select fun m => m.modelId = modelId).map fun m => (m.version, m.environment)).dedup
    |>.mergeSort collation

/-- How the database orders what the queries of `get_model_metrics` return. -/
structure MetricOrders where
  available : String × Environment → String × Environment → Bool
  latestAny : Descending Metric.timestamp
  latest : Descending Metric.timestamp
  recent : Descending Metric.timestamp

/-- `version or default`: an empty version counts as none. -/
def orVersion (version : Option String) (default : String) : String :=
  match version with
  | some version => if version = "" then default else version
  | none => default

/-- The scope of a summary: what is not given is taken from the most recent sample. -/
def resolveScope (latestAny : Option Metric) (version : Option String)
    (environment : Option Environment) : Option String × Option Environment :=
  if version.isNone || environment.isNone then
    match latestAny with
    | some latest => (some (orVersion version latest.version),
        some (environment.getD latest.environment))
    | none => (version, environment)
  else (version, environment)

/-- The samples of a model in a scope. -/
def inScope (modelId : Uuid) (scope : Option String × Option Environment) (m : Metric) : Bool :=
  m.modelId = modelId && scope.1.all (fun version => m.version = version) &&
    scope.2.all fun environment => m.environment = environment

/-- A monitoring summary. -/
structure MonitoringSummary where
  modelId : Uuid
  modelKey : String
  name : String
  monitoringStatus : MonitoringStatus
  lastInferenceAt : Option Time
  version : Option String
  environment : Option Environment
  latest : Option Metric
  series : List Metric
  available : List (String × Environment)

/-- What `get_model_metrics` returns for a model. -/
def modelMetrics (orders : MetricOrders) (metrics : Table Metric.id) (model : Model)
    (version : Option String) (environment : Option Environment) (points : ℕ) :
    MonitoringSummary :=
  let available := availableSeries orders.available metrics model.id
  let scope := resolveScope (latestMetric orders.latestAny metrics model.id) version environment
  let query := metrics.select (inScope model.id scope)
  let latest := orders.latest.first query
  -- Chronological for charting.
  let recent := (orders.recent.top points query).reverse
  { modelId := model.id
    modelKey := model.key
    name := model.name
    monitoringStatus := status latest
    lastInferenceAt := latest.map Metric.timestamp
    version := scope.1
    environment := scope.2
    latest
    series := recent
    available }

/-- Monitoring summary scoped to a (version, environment). -/
def getModelMetrics (orders : MetricOrders) (db : Db) (metrics : Table Metric.id) (modelId : Uuid)
    (version : Option String) (environment : Option Environment) (points : ℕ) :
    Except DomainError MonitoringSummary := do
  let model ← getModel db modelId
  return modelMetrics orders metrics model version environment points

/-- An entry of the health overview. -/
structure MonitoringItem where
  modelId : Uuid
  modelKey : String
  name : String
  monitoringStatus : MonitoringStatus
  lastInferenceAt : Option Time
  latest : Option Metric

/-- The entry of a model. -/
def monitoringItem (order : Descending Metric.timestamp) (metrics : Table Metric.id)
    (model : Model) : MonitoringItem :=
  let latest := latestMetric order metrics model.id
  { modelId := model.id
    modelKey := model.key
    name := model.name
    monitoringStatus := status latest
    lastInferenceAt := latest.map Metric.timestamp
    latest }

/-- Paginated health overview (latest sample and status per model on the page). -/
def listMonitoring (f : CaseFold) (order : Descending Metric.timestamp) (db : Db)
    (metrics : Table Metric.id) (limit offset : ℕ) (q : Option String) :
    List MonitoringItem × ℕ :=
  let (models, total) := listModels f db limit offset q
  (models.map (monitoringItem order metrics), total)

/-! ## What the queries are about -/

/-- The summary of a model that exists. -/
theorem getModelMetrics_eq_ok {orders : MetricOrders} {db : Db} {metrics : Table Metric.id}
    {modelId : Uuid} {version : Option String} {environment : Option Environment} {points : ℕ}
    {s : MonitoringSummary} :
    getModelMetrics orders db metrics modelId version environment points = .ok s ↔
      ∃ model, db.models.get? modelId = some model ∧
        modelMetrics orders metrics model version environment points = s := by
  have hget : ∀ model, getModel db modelId = .ok model ↔ db.models.get? modelId = some model := by
    intro model
    unfold getModel
    cases db.models.get? modelId with
    | none => simp
    | some m => simp
  unfold getModelMetrics
  simp only [bind_eq_ok, hget, pure, Except.pure, Except.ok.injEq]

/-- A sample is in a scope if it is of the model, and of the version and the environment that the
scope names. -/
theorem inScope_iff {modelId : Uuid} {scope : Option String × Option Environment} {m : Metric} :
    inScope modelId scope m = true ↔ m.modelId = modelId ∧
      (∀ version ∈ scope.1, m.version = version) ∧
      ∀ environment ∈ scope.2, m.environment = environment := by
  simp only [inScope, Bool.and_eq_true, decide_eq_true_eq, Option.all_eq_true, and_assoc,
    Option.mem_def]

/-- A combination is available if some sample of the model has it. -/
theorem mem_availableSeries {collation : String × Environment → String × Environment → Bool}
    {metrics : Table Metric.id} {modelId : Uuid} {version : String} {environment : Environment} :
    (version, environment) ∈ availableSeries collation metrics modelId ↔
      ∃ m ∈ metrics, m.modelId = modelId ∧ m.version = version ∧ m.environment = environment := by
  simp only [availableSeries, List.mem_mergeSort, List.mem_dedup, List.mem_map, Table.mem_select,
    decide_eq_true_eq, Prod.mk.injEq, and_assoc]

/-- No combination is listed twice. -/
theorem nodup_availableSeries (collation : String × Environment → String × Environment → Bool)
    (metrics : Table Metric.id) (modelId : Uuid) :
    (availableSeries collation metrics modelId).Nodup :=
  (List.mergeSort_perm _ _).nodup_iff.mpr (List.nodup_dedup _)

/-- A newest sample of a model. Several samples can have the same time. -/
structure Newest (metrics : Table Metric.id) (modelId : Uuid) (m : Metric) : Prop where
  mem : m ∈ metrics
  model : m.modelId = modelId
  max : ∀ n ∈ metrics, n.modelId = modelId → n.timestamp ≤ m.timestamp

/-- `_latest_metric` returns a newest sample. -/
theorem newest_of_latestMetric {order : Descending Metric.timestamp} {metrics : Table Metric.id}
    {modelId : Uuid} {m : Metric} (h : latestMetric order metrics modelId = some m) :
    Newest metrics modelId m := by
  obtain ⟨hrow, hmax⟩ := Descending.first_spec h
  obtain ⟨hmem, hmodel⟩ := Table.mem_select.mp hrow
  refine ⟨hmem, of_decide_eq_true hmodel, fun n hn hnmodel => ?_⟩
  exact hmax n (Table.mem_select.mpr ⟨hn, decide_eq_true hnmodel⟩)

/-- `_latest_metric` returns nothing if the model has no samples. -/
theorem latestMetric_eq_none {order : Descending Metric.timestamp} {metrics : Table Metric.id}
    {modelId : Uuid} : latestMetric order metrics modelId = none ↔
      ∀ m ∈ metrics, m.modelId ≠ modelId := by
  rw [latestMetric, Descending.first_eq_none, List.eq_nil_iff_forall_not_mem]
  constructor
  · exact fun h m hm hmodel => h m (Table.mem_select.mpr ⟨hm, decide_eq_true hmodel⟩)
  · intro h m hm
    obtain ⟨hmem, hmodel⟩ := Table.mem_select.mp hm
    exact h m hmem (of_decide_eq_true hmodel)

/-- The order in which a sample comes before others of its time. -/
def preferred (m : Metric) : Descending Metric.timestamp :=
  .prefer Metric.timestamp fun n => n = m

/-- In some order `_latest_metric` returns any newest sample. -/
theorem latestMetric_preferred {metrics : Table Metric.id} {modelId : Uuid} {m : Metric}
    (h : Newest metrics modelId m) : latestMetric (preferred m) metrics modelId = some m := by
  refine Descending.first_prefer (Table.mem_select.mpr ⟨h.mem, decide_eq_true h.model⟩) ?_
    (decide_eq_true rfl) fun n _ hn => of_decide_eq_true hn
  intro n hn
  obtain ⟨hmem, hmodel⟩ := Table.mem_select.mp hn
  exact h.max n hmem (of_decide_eq_true hmodel)

/-- All queries of `get_model_metrics` return a sample before others of its time. -/
def MetricOrders.preferring (m : Metric) : MetricOrders :=
  ⟨fun _ _ => true, preferred m, preferred m, preferred m⟩

/-! ## Samples on concrete inputs -/

/-- A sample of model 1. -/
def sampleRow (version : String) (environment : Environment) (timestamp : Time)
    (availability : ℚ) (id : Uuid) : Metric :=
  { id, modelId := 1, modelVersionId := none, deploymentId := none, version, environment, timestamp
    latencyMs := 80, throughputRpm := 900, errorRate := 1 / 100, qualityScore := 9 / 10
    driftScore := 1 / 10, availability }

/-- The sample has the id that was drawn. -/
theorem sampleRow_id (version : String) (environment : Environment) (timestamp : Time)
    (availability : ℚ) (id : Uuid) :
    (sampleRow version environment timestamp availability id).id = id := rfl

/-- The insert of a sample. -/
def sample (version : String) (environment : Environment) (timestamp : Time) (availability : ℚ) :
    Table.Draft Metric.id :=
  ⟨sampleRow version environment timestamp availability, sampleRow_id _ _ _ _⟩

/-- Version 1.0 is healthy in production, and version 2.0 is not in staging, at the same time. -/
def tiedSamples : Table Metric.id :=
  Table.empty.insertAll [sample "1.0" .production 10 100, sample "2.0" .staging 10 50]

/-- The same samples, where that of version 2.0 is the later one. -/
def laterSamples : Table Metric.id :=
  Table.empty.insertAll [sample "1.0" .production 10 100, sample "2.0" .staging 20 50]

/-- The newest sample of `laterSamples`. -/
theorem newest_laterSamples {m : Metric} (h : Newest laterSamples 1 m) :
    m = sampleRow "2.0" .staging 20 50 2 := by
  have hrows : m ∈ [sampleRow "1.0" .production 10 100 1, sampleRow "2.0" .staging 20 50 2] := h.mem
  rcases List.mem_cons.mp hrows with rfl | hrest
  · have hle := h.max (sampleRow "2.0" .staging 20 50 2) (List.mem_cons_of_mem _ List.mem_cons_self)
      rfl
    exact absurd hle (by decide)
  · exact List.mem_singleton.mp hrest

end MlopsPlatform
