import MlopsPlatform.Monitoring.Window

/-!
# The overview and the summary of a model

Both say which sample of a model is the latest one. `list_monitoring` asks for it once.
`get_model_metrics` asks for it to resolve its scope, and then again in that scope. All three
queries order by the time alone, so they agree on the time of the latest sample, and on the sample
and its status as long as no other sample of the model has the same time.
-/

namespace MlopsPlatform

open Like (CaseFold)

variable {metrics : Table Metric.id} {model : Model}

/-- An entry of the overview says the same of a model's health as its summary. -/
structure MonitoringItem.Agrees (item : MonitoringItem) (s : MonitoringSummary) : Prop where
  latest : item.latest = s.latest
  lastInferenceAt : item.lastInferenceAt = s.lastInferenceAt
  monitoringStatus : item.monitoringStatus = s.monitoringStatus

/-- The latest samples decide whether an entry and a summary agree. -/
theorem agrees_of_latest {order : Descending Metric.timestamp} {orders : MetricOrders}
    {version : Option String} {environment : Option Environment} {points : ℕ}
    (h : latestMetric order metrics model.id =
      (modelMetrics orders metrics model version environment points).latest) :
    (monitoringItem order metrics model).Agrees
      (modelMetrics orders metrics model version environment points) :=
  ⟨h, congrArg (Option.map Metric.timestamp) h, congrArg status h⟩

/-- A newest sample is in the scope that is made of it. -/
theorem mem_scope_of_newest {m : Metric} (h : Newest metrics model.id m) :
    m ∈ metrics.select (inScope model.id (some m.version, some m.environment)) :=
  Table.mem_select.mpr ⟨h.mem, inScope_iff.mpr
    ⟨h.model, fun _ hv => Option.some.inj hv, fun _ he => Option.some.inj he⟩⟩

/-- Without arguments a summary looks for its latest sample in the scope of the most recent one. -/
theorem latest_eq_first {orders : MetricOrders} {m : Metric}
    (h : latestMetric orders.latestAny metrics model.id = some m) (points : ℕ) :
    (modelMetrics orders metrics model none none points).latest = orders.latest.first
      (metrics.select (inScope model.id (some m.version, some m.environment))) := by
  unfold modelMetrics
  rw [h]
  rfl

/-- Without arguments the latest sample of a summary is a newest one of the model, whichever newest
one has made the scope. -/
theorem latest_of_latestAny {orders : MetricOrders} {m : Metric}
    (h : latestMetric orders.latestAny metrics model.id = some m) (points : ℕ) :
    ∃ n, (modelMetrics orders metrics model none none points).latest = some n ∧
      Newest metrics model.id n := by
  have hnewest := newest_of_latestMetric h
  have hmem := mem_scope_of_newest hnewest
  rw [latest_eq_first h]
  cases hn : orders.latest.first
      (metrics.select (inScope model.id (some m.version, some m.environment))) with
  | none =>
    rw [Descending.first_eq_none] at hn
    exact absurd hmem (hn ▸ List.not_mem_nil)
  | some n =>
    obtain ⟨hrow, hmax⟩ := Descending.first_spec hn
    obtain ⟨hin, hscope⟩ := Table.mem_select.mp hrow
    refine ⟨n, rfl, hin, (inScope_iff.mp hscope).1, fun k hk hkmodel => ?_⟩
    exact (hnewest.max k hk hkmodel).trans (hmax m hmem)

/-- A model without samples has no latest one. -/
theorem latest_eq_none {orders : MetricOrders} {points : ℕ}
    (h : ∀ m ∈ metrics, m.modelId ≠ model.id) :
    (modelMetrics orders metrics model none none points).latest = none := by
  refine Descending.first_eq_none.mpr (List.eq_nil_iff_forall_not_mem.mpr fun m hm => ?_)
  obtain ⟨hmem, hscope⟩ := Table.mem_select.mp hm
  exact h m hmem (inScope_iff.mp hscope).1

/-- Newest samples have the same time. -/
theorem Newest.timestamp_eq {modelId : Uuid} {m n : Metric} (hm : Newest metrics modelId m)
    (hn : Newest metrics modelId n) : m.timestamp = n.timestamp :=
  le_antisymm (hn.max m hm.mem hm.model) (hm.max n hn.mem hn.model)

/-- The overview and the summary have both found no sample, or each a newest one. -/
theorem latest_cases (order : Descending Metric.timestamp) (orders : MetricOrders) (points : ℕ) :
    (latestMetric order metrics model.id = none ∧
        (modelMetrics orders metrics model none none points).latest = none) ∨
      ∃ m n, latestMetric order metrics model.id = some m ∧
        (modelMetrics orders metrics model none none points).latest = some n ∧
        Newest metrics model.id m ∧ Newest metrics model.id n := by
  cases hm : latestMetric order metrics model.id with
  | none => exact Or.inl ⟨rfl, latest_eq_none (latestMetric_eq_none.mp hm)⟩
  | some m =>
    have hnewest := newest_of_latestMetric hm
    cases hany : latestMetric orders.latestAny metrics model.id with
    | none => exact absurd hnewest.model (latestMetric_eq_none.mp hany m hnewest.mem)
    | some k =>
      obtain ⟨n, hn, hnewest'⟩ := latest_of_latestAny hany points
      exact Or.inr ⟨m, n, rfl, hn, hnewest, hnewest'⟩

/-- If a newest sample is preferred, then it is the latest one of the summary. -/
theorem latest_preferring {m : Metric} (h : Newest metrics model.id m) (points : ℕ) :
    (modelMetrics (.preferring m) metrics model none none points).latest = some m := by
  have hany : latestMetric (MetricOrders.preferring m).latestAny metrics model.id = some m :=
    latestMetric_preferred h
  rw [latest_eq_first hany]
  refine Descending.first_prefer (mem_scope_of_newest h) (fun n hn => ?_) (decide_eq_true rfl)
    fun n _ hn => of_decide_eq_true hn
  obtain ⟨hmem, hscope⟩ := Table.mem_select.mp hn
  exact h.max n hmem (inScope_iff.mp hscope).1

/-- The entry and the summary of a model on the page are computed from its samples. -/
theorem entry_of_page {f : CaseFold} {db : Db} {limit offset points : ℕ} {q : Option String}
    (hpage : model ∈ (listModels f db limit offset q).1) {order : Descending Metric.timestamp}
    {orders : MetricOrders} {item : MonitoringItem} {s : MonitoringSummary}
    (hitem : item ∈ (listMonitoring f order db metrics limit offset q).1)
    (hid : item.modelId = model.id)
    (hs : getModelMetrics orders db metrics model.id none none points = .ok s) :
    item = monitoringItem order metrics model ∧
      s = modelMetrics orders metrics model none none points := by
  have hstored := mem_of_listModels hpage
  obtain ⟨m, hm, rfl⟩ := List.mem_map.mp hitem
  obtain ⟨m', hm', rfl⟩ := getModelMetrics_eq_ok.mp hs
  have heq : m = model := db.models.eq_of_key_eq (mem_of_listModels hm) hstored hid
  have heq' : m' = model := Option.some.inj (hm'.symm.trans (Table.get?_key hstored))
  rw [heq, heq']
  exact ⟨rfl, rfl⟩

/-- The overview and the summary agree on the time of the latest sample. -/
theorem lastInferenceAt_agrees (order : Descending Metric.timestamp) (orders : MetricOrders)
    (points : ℕ) : (monitoringItem order metrics model).lastInferenceAt =
      (modelMetrics orders metrics model none none points).lastInferenceAt := by
  show (latestMetric order metrics model.id).map Metric.timestamp =
    (modelMetrics orders metrics model none none points).latest.map Metric.timestamp
  rcases latest_cases order orders points with ⟨hitem, hs⟩ | ⟨m, n, hitem, hs, hm, hn⟩
  · rw [hitem, hs]
  · rw [hitem, hs]
    exact congrArg some (hm.timestamp_eq hn)

/-- The overview and the summary agree on the sample if there is one newest sample. -/
theorem latest_agrees (h : ∀ m n, Newest metrics model.id m → Newest metrics model.id n → m = n)
    (order : Descending Metric.timestamp) (orders : MetricOrders) (points : ℕ) :
    latestMetric order metrics model.id =
      (modelMetrics orders metrics model none none points).latest := by
  rcases latest_cases order orders points with ⟨hitem, hs⟩ | ⟨m, n, hitem, hs, hm, hn⟩
  · rw [hitem, hs]
  · rw [hitem, hs, h m n hm hn]

/-- The overview and the summary agree on a model that has one newest sample. For every model on a
page of the overview, they always agree on the time of the latest sample, and they agree on the
sample and on the status, however the database orders samples of the same time, exactly if the model
has at most one newest sample. -/
theorem overview_agrees_iff {f : CaseFold} {db : Db} {limit offset : ℕ} {q : Option String}
    (hpage : model ∈ (listModels f db limit offset q).1) (metrics : Table Metric.id)
    (points : ℕ) :
    (∀ order orders item s, item ∈ (listMonitoring f order db metrics limit offset q).1 →
      item.modelId = model.id →
      getModelMetrics orders db metrics model.id none none points = .ok s →
      item.lastInferenceAt = s.lastInferenceAt) ∧
    ((∀ order orders item s, item ∈ (listMonitoring f order db metrics limit offset q).1 →
      item.modelId = model.id →
      getModelMetrics orders db metrics model.id none none points = .ok s → item.Agrees s) ↔
      ∀ m n, Newest metrics model.id m → Newest metrics model.id n → m = n) := by
  have hget : db.models.get? model.id = some model := Table.get?_key (mem_of_listModels hpage)
  refine ⟨fun order orders item s hitem hid hs => ?_, fun h m n hm hn => ?_,
    fun h order orders item s hitem hid hs => ?_⟩
  · obtain ⟨rfl, rfl⟩ := entry_of_page hpage hitem hid hs
    exact lastInferenceAt_agrees order orders points
  · -- The overview may prefer one of the two, and the summary the other.
    have hagrees := h (preferred m) (.preferring n) (monitoringItem (preferred m) metrics model)
      (modelMetrics (.preferring n) metrics model none none points)
      (List.mem_map_of_mem hpage) rfl (getModelMetrics_eq_ok.mpr ⟨model, hget, rfl⟩)
    have hlatest : latestMetric (preferred m) metrics model.id =
        (modelMetrics (.preferring n) metrics model none none points).latest := hagrees.latest
    rw [latestMetric_preferred hm, latest_preferring hn] at hlatest
    exact Option.some.inj hlatest
  · obtain ⟨rfl, rfl⟩ := entry_of_page hpage hitem hid hs
    exact agrees_of_latest (latest_agrees h order orders points)

/-- The overview and the summary do not always agree: of the two newest samples of `tiedSamples` the
overview may take the one, and call the model healthy, and the summary the other. -/
theorem not_overview_agrees :
    ¬∀ (f : CaseFold) (db : Db) (metrics : Table Metric.id) (limit offset : ℕ) (q : Option String)
      (order : Descending Metric.timestamp) (orders : MetricOrders) (points : ℕ)
      (item : MonitoringItem) (s : MonitoringSummary),
      item ∈ (listMonitoring f order db metrics limit offset q).1 →
      getModelMetrics orders db metrics item.modelId none none points = .ok s →
      item.Agrees s := by
  intro h
  have hpage : pump ∈ (listModels .ascii pumpDb 20 0 none).1 := List.mem_singleton.mpr rfl
  have hsummary : getModelMetrics (.preferring (sampleRow "2.0" .staging 10 50 2)) pumpDb
      tiedSamples 1 none none 30 = .ok (modelMetrics
        (.preferring (sampleRow "2.0" .staging 10 50 2)) tiedSamples pump none none 30) := rfl
  have hagrees := h .ascii pumpDb tiedSamples 20 0 none
    (preferred (sampleRow "1.0" .production 10 100 1))
    (.preferring (sampleRow "2.0" .staging 10 50 2)) 30
    (monitoringItem (preferred (sampleRow "1.0" .production 10 100 1)) tiedSamples pump) _
    (List.mem_map_of_mem hpage) hsummary
  have hstatus := hagrees.monitoringStatus
  revert hstatus
  decide +kernel

/-- The overview and the summary of model 1 with `laterSamples`. -/
theorem overview_agrees_iff_laterSamples :
    pump ∈ (listModels .ascii pumpDb 20 0 none).1 ∧
      ∀ order orders item s, item ∈ (listMonitoring .ascii order pumpDb laterSamples 20 0 none).1 →
        item.modelId = 1 → getModelMetrics orders pumpDb laterSamples 1 none none 30 = .ok s →
        item.Agrees s := by
  have hpage : pump ∈ (listModels .ascii pumpDb 20 0 none).1 := List.mem_singleton.mpr rfl
  refine ⟨hpage, (overview_agrees_iff hpage laterSamples 30).2.mpr fun m n hm hn => ?_⟩
  rw [newest_laterSamples hm, newest_laterSamples hn]

end MlopsPlatform
