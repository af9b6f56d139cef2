import MlopsPlatform.Monitoring.Window

/-!
# Summaries of half a scope

If only a version is given, or only an environment, `get_model_metrics` takes the other half from
the most recent sample of the model, whichever version or environment that has. The pair that it
then asks for need not occur, although samples match what was given. It finds data exactly if every
newest sample completes what was given to a pair that does occur.
-/

namespace MlopsPlatform

variable {metrics : Table Metric.id} {model : Model} {version : Option String}
variable {environment : Option Environment}

/-- A sample of the model matches what is given of a scope. -/
def Matching (metrics : Table Metric.id) (modelId : Uuid) (version : Option String)
    (environment : Option Environment) : Prop :=
  ∃ m ∈ metrics, inScope modelId (version, environment) m = true

/-- A summary has found data, in a scope that agrees with what was given. -/
structure MonitoringSummary.FindsData (s : MonitoringSummary) (version : Option String)
    (environment : Option Environment) : Prop where
  latest : s.latest ≠ none
  monitoringStatus : s.monitoringStatus ≠ .noData
  /-- The scope is the given one. -/
  given : (∀ v ∈ version, s.version = some v) ∧ ∀ e ∈ environment, s.environment = some e
  /-- The scope is one of the combinations to choose from. -/
  available : ∃ v e, s.version = some v ∧ s.environment = some e ∧ (v, e) ∈ s.available

/-- A newest sample completes what is given to a pair that occurs. An empty version is replaced, so
it has to be that of the sample. -/
def Completes (metrics : Table Metric.id) (modelId : Uuid) (version : Option String)
    (environment : Option Environment) (m : Metric) : Prop :=
  (version = some "" → m.version = "") ∧
    ∃ n ∈ metrics, n.modelId = modelId ∧ n.version = version.getD m.version ∧
      n.environment = environment.getD m.environment

/-- Only an empty version is replaced. -/
theorem orVersion_eq {default : String} (h : version = some "" → default = "") :
    orVersion version default = version.getD default := by
  cases version with
  | none => rfl
  | some v =>
    by_cases hv : v = ""
    · rw [hv] at h ⊢
      exact h rfl
    · exact if_neg hv

/-- There is no status without a sample, and only then. -/
theorem status_eq_noData {latest : Option Metric} : status latest = .noData ↔ latest = none := by
  cases latest with
  | none => exact ⟨fun _ => rfl, fun _ => rfl⟩
  | some m =>
    simp only [status]
    split_ifs
    · simp
    · simp

/-- A part of a scope is completed from the latest sample. -/
theorem resolveScope_of_part (hpart : version = none ∨ environment = none) (m : Metric) :
    resolveScope (some m) version environment =
      (some (orVersion version m.version), some (environment.getD m.environment)) := by
  unfold resolveScope
  rw [if_pos]
  rcases hpart with rfl | rfl
  · rfl
  · exact Bool.or_true _

/-- A query for a version and an environment finds a sample exactly if the pair occurs. -/
theorem first_ne_none {order : Descending Metric.timestamp} {modelId : Uuid} {v : String}
    {e : Environment} :
    order.first (metrics.select (inScope modelId (some v, some e))) ≠ none ↔
      ∃ n ∈ metrics, n.modelId = modelId ∧ n.version = v ∧ n.environment = e := by
  have hrow : ∀ n, n ∈ metrics.select (inScope modelId (some v, some e)) ↔
      n ∈ metrics ∧ n.modelId = modelId ∧ n.version = v ∧ n.environment = e := by
    intro n
    simp [Table.mem_select, inScope_iff]
  rw [ne_eq, Descending.first_eq_none, List.eq_nil_iff_forall_not_mem, not_forall]
  constructor
  · rintro ⟨n, hn⟩
    exact ⟨n, (hrow n).mp (not_not.mp hn)⟩
  · rintro ⟨n, hn⟩
    exact ⟨n, not_not.mpr ((hrow n).mpr hn)⟩

/-- A summary has found data exactly if the sample that completes its scope completes it to a pair
that occurs. -/
theorem findsData_iff {orders : MetricOrders} {m : Metric}
    (hpart : version = none ∨ environment = none)
    (hany : latestMetric orders.latestAny metrics model.id = some m) (points : ℕ) :
    (modelMetrics orders metrics model version environment points).FindsData version environment ↔
      Completes metrics model.id version environment m := by
  unfold modelMetrics
  rw [hany, resolveScope_of_part hpart m]
  constructor
  · intro h
    have hempty : version = some "" → m.version = "" := by
      intro hversion
      have hgiven := Option.some.inj (h.given.1 "" hversion)
      rw [hversion] at hgiven
      exact hgiven
    obtain ⟨n, hn, hmodel, hv, he⟩ := first_ne_none.mp h.latest
    exact ⟨hempty, n, hn, hmodel, hv.trans (orVersion_eq hempty), he⟩
  · rintro ⟨hempty, hoccurs⟩
    rw [orVersion_eq hempty]
    have hlatest : orders.latest.first (metrics.select (inScope model.id
        (some (version.getD m.version), some (environment.getD m.environment)))) ≠ none :=
      first_ne_none.mpr hoccurs
    refine ⟨hlatest, fun hstatus => hlatest (status_eq_noData.mp hstatus), ⟨?_, ?_⟩, ?_⟩
    · rintro v rfl
      rfl
    · rintro e rfl
      rfl
    · exact ⟨_, _, rfl, rfl, mem_availableSeries.mpr hoccurs⟩

/-- A query with a part of a scope finds data if every newest sample of the model completes it. If
some sample matches what is given, then the summary finds data in a scope that agrees with it,
however the database orders samples of the same time, exactly if every newest sample of the model
completes what is given to a pair that occurs. -/
theorem getModelMetrics_findsData_iff {db : Db} {modelId : Uuid}
    (hmodel : (db.models.get? modelId).isSome = true)
    (hpart : version = none ∨ environment = none)
    (hmatching : Matching metrics modelId version environment) (points : ℕ) :
    (∀ orders s, getModelMetrics orders db metrics modelId version environment points = .ok s →
        s.FindsData version environment) ↔
      ∀ m, Newest metrics modelId m → Completes metrics modelId version environment m := by
  obtain ⟨model, hget⟩ := Option.isSome_iff_exists.mp hmodel
  obtain ⟨-, rfl⟩ := Table.get?_eq_some.mp hget
  constructor
  · intro h m hm
    -- The database may take this sample for the most recent one.
    have hany : latestMetric (MetricOrders.preferring m).latestAny metrics model.id = some m :=
      latestMetric_preferred hm
    have hfinds := h (.preferring m) _ (getModelMetrics_eq_ok.mpr ⟨model, hget, rfl⟩)
    exact (findsData_iff hpart hany points).mp hfinds
  · intro h orders s hs
    obtain ⟨model', hget', rfl⟩ := getModelMetrics_eq_ok.mp hs
    obtain rfl := Option.some.inj (hget.symm.trans hget')
    cases hany : latestMetric orders.latestAny metrics model.id with
    | none =>
      obtain ⟨n, hn, hscope⟩ := hmatching
      exact absurd (inScope_iff.mp hscope).1 (latestMetric_eq_none.mp hany n hn)
    | some m => exact (findsData_iff hpart hany points).mpr (h m (newest_of_latestMetric hany))

/-- A query with a part of a scope can miss the data: `laterSamples` has a sample of version 1.0, in
production, and the query for version 1.0 asks for staging, where the newest sample is from. -/
theorem not_getModelMetrics_findsData :
    ¬∀ (db : Db) (metrics : Table Metric.id) (modelId : Uuid) (version : Option String)
      (environment : Option Environment) (points : ℕ) (orders : MetricOrders)
      (s : MonitoringSummary), (db.models.get? modelId).isSome = true →
      version = none ∨ environment = none → Matching metrics modelId version environment →
      getModelMetrics orders db metrics modelId version environment points = .ok s →
      s.FindsData version environment := by
  intro h
  have hmatching : Matching laterSamples 1 (some "1.0") none :=
    ⟨sampleRow "1.0" .production 10 100 1, List.mem_cons_self, by decide⟩
  have hfinds := h pumpDb laterSamples 1 (some "1.0") none 30
    (.preferring (sampleRow "2.0" .staging 20 50 2)) _ (by decide) (Or.inr rfl) hmatching rfl
  exact hfinds.latest rfl

/-- The query for staging in `laterSamples`. -/
theorem getModelMetrics_findsData_iff_laterSamples :
    Matching laterSamples 1 none (some .staging) ∧
      ∀ orders s, getModelMetrics orders pumpDb laterSamples 1 none (some .staging) 30 = .ok s →
        s.FindsData none (some .staging) := by
  have hmem : sampleRow "2.0" .staging 20 50 2 ∈ laterSamples :=
    List.mem_cons_of_mem _ List.mem_cons_self
  have hmatching : Matching laterSamples 1 none (some .staging) := ⟨_, hmem, by decide⟩
  refine ⟨hmatching, (getModelMetrics_findsData_iff (by decide) (Or.inl rfl) hmatching 30).mpr
    fun m hm => ⟨fun hempty => absurd hempty (by simp), ?_⟩⟩
  rw [newest_laterSamples hm]
  exact ⟨_, hmem, rfl, rfl, rfl⟩

end MlopsPlatform
