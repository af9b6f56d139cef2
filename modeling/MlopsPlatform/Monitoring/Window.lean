import MlopsPlatform.Services.MetricService
import MlopsPlatform.System

/-!
# The metric series

The scope that `get_model_metrics` resolves, which is what is asked for, or else that of the newest
sample, and what it returns for the scope: the newest samples of the scope, as many as were asked
for, in the order of their times, and the combinations that can be chosen. It holds for every way in
which the database orders samples of the same time.
-/

namespace MlopsPlatform

/-- The scope of a summary is the one that is asked for, where the model's samples are `metrics`. -/
structure MonitoringSummary.Scoped (s : MonitoringSummary) (metrics : Table Metric.id)
    (modelId : Uuid) (version : Option String) (environment : Option Environment) : Prop where
  /-- A version that is given is the summary's, unless it is empty. -/
  version_given : ∀ v, version = some v → v ≠ "" → s.version = some v
  /-- An environment that is given is the summary's. -/
  environment_given : ∀ e, environment = some e → s.environment = some e
  /-- If one of the two is not given, what is missing is taken from a newest sample. -/
  newest : version = none ∨ environment = none → (∃ m ∈ metrics, m.modelId = modelId) →
    ∃ m, Newest metrics modelId m ∧
      (version = none ∨ version = some "" → s.version = some m.version) ∧
      (environment = none → s.environment = some m.environment)
  /-- If both are given, or the model has no samples, the scope is what is given. -/
  asked : (version.isSome = true ∧ environment.isSome = true) ∨
    (∀ m ∈ metrics, m.modelId ≠ modelId) → s.version = version ∧ s.environment = environment
  /-- A model with samples has a summary of one version and one environment. -/
  isSome : (∃ m ∈ metrics, m.modelId = modelId) →
    s.version.isSome = true ∧ s.environment.isSome = true

/-- The samples of a summary are the right ones for its scope, of which the samples are `rows`. -/
structure MonitoringSummary.Windowed (s : MonitoringSummary) (metrics : Table Metric.id)
    (modelId : Uuid) (points : ℕ) (rows : List Metric) : Prop where
  /-- The scope has the samples of the model with the version and the environment of the summary. -/
  scope : ∀ m, m ∈ rows ↔ m ∈ metrics ∧ m.modelId = modelId ∧
    (∀ version ∈ s.version, m.version = version) ∧
    ∀ environment ∈ s.environment, m.environment = environment
  /-- It has each of them once. -/
  nodup : rows.Nodup
  /-- All points are in the scope, and no point is repeated. -/
  series : (∀ m ∈ s.series, m ∈ rows) ∧ s.series.Nodup
  /-- The points are in the order of their times. -/
  sorted : s.series.Pairwise fun a b => a.timestamp ≤ b.timestamp
  /-- There are as many points as were asked for, if the scope has so many. -/
  length : s.series.length = min points rows.length
  /-- What is left out is not newer than any point. -/
  newest : ∀ m ∈ rows, m ∉ s.series → ∀ p ∈ s.series, m.timestamp ≤ p.timestamp
  /-- There is a latest sample unless the scope is empty. -/
  latest_none : s.latest = none ↔ rows = []
  /-- The latest sample has the time of the last point, and no sample of the scope is newer. -/
  latest : ∀ m, s.latest = some m → m ∈ rows ∧
    s.series.getLast?.map Metric.timestamp = some m.timestamp ∧
    ∀ n ∈ rows, n.timestamp ≤ m.timestamp
  /-- The combinations of the model's samples, each once. -/
  available : s.available.Nodup ∧ ∀ version environment, (version, environment) ∈ s.available ↔
    ∃ m ∈ metrics, m.modelId = modelId ∧ m.version = version ∧ m.environment = environment

/-- A summary has the scope that is asked for. -/
theorem scoped_modelMetrics (orders : MetricOrders) (metrics : Table Metric.id) (model : Model)
    (version : Option String) (environment : Option Environment) (points : ℕ) :
    (modelMetrics orders metrics model version environment points).Scoped metrics model.id version
      environment := by
  unfold modelMetrics
  cases hlatest : latestMetric orders.latestAny metrics model.id with
  | none =>
    -- The model has no samples.
    have hnone := latestMetric_eq_none.mp hlatest
    have hscope : resolveScope none version environment = (version, environment) := by
      simp [resolveScope]
    rw [hscope]
    exact
      { version_given := fun v hv _ => hv
        environment_given := fun e he => he
        newest := fun _ ⟨m, hm, hmodel⟩ => absurd hmodel (hnone m hm)
        asked := fun _ => ⟨rfl, rfl⟩
        isSome := fun ⟨m, hm, hmodel⟩ => absurd hmodel (hnone m hm) }
  | some m =>
    have hnewest := newest_of_latestMetric hlatest
    have hnot : ¬∀ n ∈ metrics, n.modelId ≠ model.id := fun h => h m hnewest.mem hnewest.model
    cases version with
    | none =>
      exact
        { version_given := fun v hv => absurd hv (by simp)
          environment_given := fun e he => by simp [resolveScope, he]
          newest := fun _ _ => ⟨m, hnewest, fun _ => rfl, fun he => by simp [resolveScope, he]⟩
          asked := fun h => by simp [hnot] at h
          isSome := fun _ => ⟨rfl, rfl⟩ }
    | some v =>
      cases environment with
      | none =>
        exact
          { version_given := fun w hw hne => by
              obtain rfl := Option.some.inj hw
              simp [resolveScope, orVersion, hne]
            environment_given := fun e he => absurd he (by simp)
            newest := fun _ _ => ⟨m, hnewest, fun hv => by
              rcases hv with hv | hv
              · exact absurd hv (by simp)
              · obtain rfl := Option.some.inj hv
                rfl, fun _ => rfl⟩
            asked := fun h => by simp [hnot] at h
            isSome := fun _ => ⟨rfl, rfl⟩ }
      | some e =>
        exact
          { version_given := fun w hw _ => hw
            environment_given := fun e he => he
            newest := fun h => absurd h (by simp)
            asked := fun _ => ⟨rfl, rfl⟩
            isSome := fun _ => ⟨rfl, rfl⟩ }

/-- The metric series is the right window. Whatever the tables hold, and however the database orders
samples of the same time, the summary of a model exists, and its series, its latest sample and its
combinations are the right ones for the scope that it names, which is the scope that is asked
for. -/
theorem getModelMetrics_windowed (orders : MetricOrders) {db : Db} (metrics : Table Metric.id)
    {modelId : Uuid} (hmodel : (db.models.get? modelId).isSome = true) (version : Option String)
    (environment : Option Environment) {points : ℕ} (hpoints : 1 ≤ points) :
    ∃ s rows, getModelMetrics orders db metrics modelId version environment points = .ok s ∧
      s.Scoped metrics modelId version environment ∧ s.Windowed metrics modelId points rows := by
  obtain ⟨model, hget⟩ := Option.isSome_iff_exists.mp hmodel
  obtain ⟨-, rfl⟩ := Table.get?_eq_some.mp hget
  refine ⟨_, metrics.select (inScope model.id (resolveScope
    (latestMetric orders.latestAny metrics model.id) version environment)),
    getModelMetrics_eq_ok.mpr ⟨model, hget, rfl⟩, scoped_modelMetrics _ _ _ _ _ _, ?_⟩
  unfold modelMetrics
  generalize resolveScope (latestMetric orders.latestAny metrics model.id) version environment =
    scope
  have hnodup := metrics.nodup_select (inScope model.id scope)
  exact
    { scope := fun m => Table.mem_select.trans (and_congr_right fun _ => inScope_iff)
      nodup := hnodup
      series := ⟨fun m hm => Descending.mem_of_mem_top (List.mem_reverse.mp hm),
        List.nodup_reverse.mpr (Descending.nodup_top hnodup points)⟩
      sorted := List.pairwise_reverse.mpr (Descending.sorted_top points)
      length := by rw [List.length_reverse, Descending.length_top]
      newest := fun m hm hout p hp => by
        rw [List.mem_reverse] at hout hp
        exact Descending.le_of_not_mem_top hm hout hp
      latest_none := Descending.first_eq_none
      latest := fun m hm => by
        obtain ⟨hmem, hmax⟩ := Descending.first_spec hm
        refine ⟨hmem, ?_, hmax⟩
        -- The last point is the first row of its query.
        rw [List.getLast?_reverse, Descending.key_head?_top _ orders.latest hpoints]
        exact congrArg (Option.map Metric.timestamp) hm
      available := ⟨nodup_availableSeries _ _ _, fun _ _ => mem_availableSeries⟩ }

/-- The last point of version 1.0 in `tiedSamples`, where version 2.0 is returned as the latest. -/
theorem getModelMetrics_windowed_tiedSamples :
    ∃ s rows, getModelMetrics (.preferring (sampleRow "2.0" .staging 10 50 2)) pumpDb tiedSamples 1
        (some "1.0") (some .production) 1 = .ok s ∧
      s.Scoped tiedSamples 1 (some "1.0") (some .production) ∧ s.Windowed tiedSamples 1 1 rows :=
  getModelMetrics_windowed _ tiedSamples (by decide) (some "1.0") _ (Nat.le_refl 1)

end MlopsPlatform
