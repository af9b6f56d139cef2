import Mathlib.Data.List.ReduceOption
import MlopsPlatform.Seeding.Renaming

/-!
# The sample dataset is coherent

The seeder builds a coherent dataset or nothing (`seedSampleData_coherent`). `ends_cases` gives the
store that it commits as `seeded`, and what is to be shown of that store is read off its parts: the
first occurrences of the jobs, with the failed jobs after them; the samples, each with the id of its
job; and the registry, whose rows and dictionaries are those of the file.

`Coherent` goes back to the texts of the files. A row of `metrics.csv` is of a version that
`models.json` has under the same two texts, and in the environment whose value is its text in upper
case; the row of that version is the one that stores what the file says of it.
-/

namespace MlopsPlatform

open Transaction ChangeLog

/-- The texts of the row are the model id and the version string of an entry of `models.json`. -/
def CsvRow.names (row : CsvRow) (entry : Json × Json) : Bool :=
  (row.text "model_id").any (fun key => (entry.1.item "model_id").bind Json.text = some key) &&
    (row.text "version").any fun version =>
      (entry.2.item "version").bind Json.text = some version

/-- The text of the environment is, in upper case, the value of one. -/
def CsvRow.IsIn (row : CsvRow) (ctx : SeedContext) (environment : Environment) : Prop :=
  (row.text "environment").map ctx.upper = some environment.value

/-- The row is of a version that `models.json` has. -/
def SampleFiles.registers (files : SampleFiles) (row : CsvRow) : Bool :=
  (Seeding.versionEntries files.specs).any row.names

namespace Seeding

/-- The row is of a version of the file, and `v` stores what the file says of it. -/
def IsAbout (ctx : SeedContext) (files : SampleFiles) (models : Table Model.id) (row : CsvRow)
    (v : ModelVersion) : Prop :=
  ∃ entry ∈ versionEntries files.specs, row.names entry = true ∧ VersionAs ctx models entry v

/-- The metric stores what the row has measured of its version. -/
structure MetricAs (ctx : SeedContext) (files : SampleFiles) (models : Table Model.id)
    (versions : Table ModelVersion.id) (row : CsvRow) (m : Metric) : Prop where
  about : ∃ v ∈ versions, IsAbout ctx files models row v ∧ m.modelVersionId = some v.id
  version : row.text "version" = some m.version
  environment : row.IsIn ctx m.environment
  timestamp : (row.text "timestamp").bind (fun value => ctx.fromIsoFormat (replaceZ value)) =
    some m.timestamp
  latencyMs : (row.text "latency_ms").bind ctx.float = some m.latencyMs
  throughputRpm : (row.text "throughput_rpm").bind ctx.float = some m.throughputRpm
  errorRate : (row.text "error_rate").bind ctx.float = some m.errorRate
  qualityScore : (row.text "quality_score").bind ctx.float = some m.qualityScore
  driftScore : (row.text "drift_score").bind ctx.float = some m.driftScore
  availability : (row.text "availability").bind ctx.float = some m.availability

/-- The seeded store is coherent with the files, and with the counts that are returned. -/
structure Coherent (ctx : SeedContext) (files : SampleFiles) (counts : SeedCounts)
    (s : SampleStore) : Prop where
  /-- The models are those of `models.json`, one for one. -/
  models : List.Forall₂ (ModelAs ctx) files.specs s.db.models.rows
  /-- The versions are those of `models.json`, one for one, each in the stage that the file has. -/
  versions : List.Forall₂ (VersionAs ctx s.db.models) (versionEntries files.specs)
    s.db.versions.rows
  /-- A version has exactly one SUCCEEDED deployment in an environment that it has a row for. -/
  succeeded : ∀ row v environment, some row ∈ files.metrics → v ∈ s.db.versions →
    IsAbout ctx files s.db.models row v → row.IsIn ctx environment →
      ∃! d, d ∈ s.db.deployments ∧ d.status = .succeeded ∧ d.modelVersionId = v.id ∧
        d.environment = environment
  /-- No other deployment SUCCEEDED. -/
  produced : ∀ d ∈ s.db.deployments, d.status = .succeeded →
    ∃ row v, some row ∈ files.metrics ∧ v ∈ s.db.versions ∧ IsAbout ctx files s.db.models row v ∧
      row.IsIn ctx d.environment ∧ d.modelVersionId = v.id
  /-- A metric points to the deployment of its own model, version, and environment. -/
  linked : ∀ m ∈ s.metrics, ∃ d ∈ s.db.deployments, ∃ v ∈ s.db.versions, ∃ model ∈ s.db.models,
    m.deploymentId = some d.id ∧ d.status = .succeeded ∧
      m.modelId = d.modelId ∧ m.modelVersionId = some d.modelVersionId ∧
      m.environment = d.environment ∧ v.id = d.modelVersionId ∧ v.version = m.version ∧
      v.modelId = d.modelId ∧ model.id = d.modelId
  /-- The metrics are those of the rows of registered versions, one for one. -/
  measured : List.Forall₂ (MetricAs ctx files s.db.models s.db.versions)
    (files.metrics.reduceOption.filter files.registers) s.metrics.rows
  /-- There are as many of them as rows of registered versions. -/
  metrics : s.metrics.rows.length = files.metrics.countP fun row => row.any files.registers
  /-- A trail begins with the creation, and leads along the transition table to the stage. -/
  chronicles : ∀ v ∈ s.db.versions, Chronicles (s.db.trail v.id) v.stage
  /-- The counts are those of the rows. -/
  counts : counts = ⟨s.db.models.rows.length, s.db.versions.rows.length,
    s.db.deployments.rows.length, s.metrics.rows.length⟩

section

variable {ctx : SeedContext} {registry : Registry} {s base : SampleStore} {files : SampleFiles}
variable {entries : List Json} {rows : List (Option CsvRow)} {actorId : Option Uuid}

variable {specs : List Json} {versions : List (Json × Json)}

/-! ## The rows of registered versions -/

/-- A value that is a text. -/
theorem text_eq_some {value : Json} {text : String} :
    value.text = some text ↔ value = .string text := by
  cases value <;> simp [Json.text]

/-- The texts that a row shares with an entry. -/
theorem names_iff {row : CsvRow} {entry : Json × Json} : row.names entry = true ↔
    ∃ key text, row.text "model_id" = some key ∧ entry.1.item "model_id" = some (.string key) ∧
      row.text "version" = some text ∧ entry.2.item "version" = some (.string text) := by
  simp only [CsvRow.names, Bool.and_eq_true, Option.any_eq_true, decide_eq_true_eq,
    Option.bind_eq_some_iff, text_eq_some]
  constructor
  · rintro ⟨⟨key, hkey, -, hitem, rfl⟩, text, htext, -, hitem', rfl⟩
    exact ⟨key, text, hkey, hitem, htext, hitem'⟩
  · rintro ⟨key, text, hkey, hitem, htext, hitem'⟩
    exact ⟨⟨key, hkey, _, hitem, rfl⟩, text, htext, _, hitem', rfl⟩

/-- A text of a row is looked up as a text. -/
theorem key_of_text {row : CsvRow} {column text : String} (h : row.text column = some text) :
    row.key column = some (.text text) := by
  rw [CsvRow.key, Option.join_eq_some_iff.mp h]
  rfl

/-- The version that a row is looked up as stores an entry that the row names. -/
theorem versionOf_iff (hm : Mirrors ctx s specs versions registry base) {row : CsvRow}
    {v : ModelVersion} : registry.versionOf row = some (some v) ↔
      v ∈ base.db.versions ∧ ∃ entry ∈ versions, row.names entry = true ∧
        VersionAs ctx base.db.models entry v := by
  rw [versionOf_eq_some]
  constructor
  · rintro ⟨k, k', hk, hk', hv⟩
    obtain ⟨hmem, entry, hentry, hmodel, hitem, has⟩ := hm.version?_iff.mp hv
    obtain ⟨m, -, -, hmas⟩ := has.model
    have hkey := hmas.key
    have htext := has.version
    rw [hmodel, Option.bind_some] at hkey
    rw [hitem, Option.bind_some] at htext
    obtain ⟨hrow, rfl⟩ := text_of_key hk hkey
    obtain ⟨hrow', rfl⟩ := text_of_key hk' htext
    exact ⟨hmem, entry, hentry, names_iff.mpr ⟨_, _, hrow, hmodel, hrow', hitem⟩, has⟩
  · rintro ⟨hmem, entry, hentry, hnames, has⟩
    obtain ⟨key, text, hkey, hmodel, htext, hitem⟩ := names_iff.mp hnames
    exact ⟨.text key, .text text, key_of_text hkey, key_of_text htext,
      hm.version?_iff.mpr ⟨hmem, entry, hentry, hmodel, hitem, has⟩⟩

/-- A row names an entry exactly if a version is found for it. -/
theorem any_names_iff (hm : Mirrors ctx s specs versions registry base) {row : CsvRow} :
    versions.any row.names = true ↔ ∃ v, registry.versionOf row = some (some v) := by
  rw [List.any_eq_true]
  constructor
  · rintro ⟨entry, hentry, hnames⟩
    obtain ⟨v, hv, has⟩ := hm.exists_row hentry
    exact ⟨v, (versionOf_iff hm).mpr ⟨hv, entry, hentry, hnames, has⟩⟩
  · rintro ⟨v, hv⟩
    obtain ⟨-, entry, hentry, hnames, -⟩ := (versionOf_iff hm).mp hv
    exact ⟨entry, hentry, hnames⟩

/-- The environment of a row is the one whose value is its text in upper case. -/
theorem environment_eq_some {row : CsvRow} {environment : Environment} :
    row.environment ctx = some environment ↔ row.IsIn ctx environment := by
  unfold CsvRow.environment CsvRow.IsIn
  cases row.text "environment" with
  | none => simp
  | some text =>
    rw [Option.bind_some, Option.map_some, Option.some.injEq]
    constructor
    · intro h
      unfold Environment.ofValue at h
      have hfound := List.find?_some h
      exact (of_decide_eq_true hfound).symm
    · intro h
      rw [h]
      cases environment <;> rfl

/-- A row that is a sample. -/
theorem sampleOf_eq_some {row : Option CsvRow} {o : Sample}
    (h : sampleOf ctx registry row = some (some o)) :
    ∃ r, row = some r ∧ registry.versionOf r = some (some o.version) ∧
      r.environment ctx = some o.environment ∧ r.text "version" = some o.text ∧
      reading ctx r = some o.reading := by
  cases row with
  | none => exact absurd h (by simp [sampleOf])
  | some r =>
    refine ⟨r, rfl, ?_⟩
    cases hversion : registry.versionOf r with
    | none => simp [sampleOf, hversion] at h
    | some version =>
      cases version with
      | none => simp [sampleOf, hversion] at h
      | some v =>
        cases henvironment : r.environment ctx with
        | none => simp [sampleOf, hversion, henvironment] at h
        | some environment =>
          rw [sampleOf_eq hversion henvironment] at h
          obtain ⟨text, htext, hread⟩ := Option.bind_eq_some_iff.mp h
          obtain ⟨r', hr', ho⟩ := Option.map_eq_some_iff.mp hread
          obtain rfl := Option.some.inj ho
          exact ⟨rfl, rfl, htext, hr'⟩

/-- A row of a registered version that can be read is a sample. -/
theorem exists_sample {row : CsvRow} {v : ModelVersion}
    (hreadable : (sampleOf ctx registry (some row)).isSome = true)
    (hversion : registry.versionOf row = some (some v)) :
    ∃ o, sampleOf ctx registry (some row) = some (some o) ∧ o.version = v ∧
      row.environment ctx = some o.environment := by
  obtain ⟨o, ho⟩ := Option.isSome_iff_exists.mp hreadable
  cases henvironment : row.environment ctx with
  | none => simp [sampleOf, hversion, henvironment] at ho
  | some environment =>
    have heq := ho
    rw [sampleOf_eq hversion henvironment] at heq
    obtain ⟨text, -, hread⟩ := Option.bind_eq_some_iff.mp heq
    obtain ⟨r, -, rfl⟩ := Option.map_eq_some_iff.mp hread
    exact ⟨_, ho, rfl, rfl⟩

/-- A sample comes from a row. -/
theorem mem_samplesOf {o : Sample} : o ∈ samplesOf ctx registry rows ↔
    ∃ row ∈ rows, sampleOf ctx registry row = some (some o) := by
  rw [samplesOf, List.mem_filterMap]
  refine exists_congr fun row => and_congr_right fun _ => ?_
  exact Option.join_eq_some_iff

/-- The version of a sample is registered. -/
theorem version_of_sample (hm : Mirrors ctx s specs versions registry base) {o : Sample}
    (h : o ∈ samplesOf ctx registry rows) :
    o.version ∈ base.db.versions ∧ o.text = o.version.version := by
  obtain ⟨row, -, hrow⟩ := mem_samplesOf.mp h
  obtain ⟨r, -, hversion, -, htext, -⟩ := sampleOf_eq_some hrow
  have hnames := names_of_versionOf hm hversion
  refine ⟨hnames.version, Option.some.inj ?_⟩
  rw [← htext, hnames.text]

/-- The samples are those of the rows that name an entry, one for one. -/
theorem forall₂_samplesOf (hm : Mirrors ctx s specs versions registry base)
    (hreadable : ∀ row ∈ rows, (sampleOf ctx registry row).isSome = true) :
    List.Forall₂ (fun row o => sampleOf ctx registry (some row) = some (some o))
      (rows.reduceOption.filter fun row => versions.any row.names)
      (samplesOf ctx registry rows) := by
  induction rows with
  | nil => exact .nil
  | cons row rows ih =>
    have hrest := ih fun row' hrow' => hreadable row' (List.mem_cons_of_mem _ hrow')
    have hsome := hreadable row List.mem_cons_self
    cases row with
    | none => exact absurd hsome (by simp [sampleOf])
    | some row =>
      rw [List.reduceOption_cons_of_some, samplesOf, List.filterMap_cons]
      by_cases hnames : versions.any row.names = true
      · obtain ⟨v, hv⟩ := (any_names_iff hm).mp hnames
        obtain ⟨o, ho, -, -⟩ := exists_sample hsome hv
        rw [List.filter_cons_of_pos (p := fun row : CsvRow => versions.any row.names) hnames, ho]
        exact .cons ho hrest
      · -- The row is skipped.
        have hskipped : sampleOf ctx registry (some row) = some none := by
          obtain ⟨o, ho⟩ := Option.isSome_iff_exists.mp hsome
          cases o with
          | none => exact ho
          | some o =>
            obtain ⟨r, hr, hversion, -⟩ := sampleOf_eq_some ho
            obtain rfl := Option.some.inj hr
            exact absurd ((any_names_iff hm).mpr ⟨_, hversion⟩) hnames
        rw [List.filter_cons_of_neg (p := fun row : CsvRow => versions.any row.names) hnames,
          hskipped]
        exact hrest

/-- How many of the rows that could be read a test accepts. -/
theorem length_filter_reduceOption {α : Type} (l : List (Option α)) (p : α → Bool) :
    (l.reduceOption.filter p).length = l.countP fun x => x.any p := by
  induction l with
  | nil => rfl
  | cons x l ih =>
    cases x with
    | none =>
      rw [List.reduceOption_cons_of_none, ih]
      rfl
    | some x =>
      rw [List.reduceOption_cons_of_some, List.countP_cons, List.filter_cons, ← ih, Option.any_some]
      split_ifs
      · rfl
      · rfl

/-! ## The deployments that SUCCEEDED -/

/-- A failed job has not SUCCEEDED: entries with that status are skipped. -/
theorem status_of_failedJob {e : Json} {job : Job}
    (h : failedJob ctx registry e = some (some job)) : job.status ≠ .succeeded := by
  obtain ⟨status, -, h⟩ := Option.bind_eq_some_iff.mp h
  split_ifs at h with hskipped
  · exact absurd h (by simp)
  · obtain ⟨modelId, -, h⟩ := Option.bind_eq_some_iff.mp h
    obtain ⟨version, -, h⟩ := Option.bind_eq_some_iff.mp h
    split at h
    · obtain ⟨environment, -, h⟩ := Option.bind_eq_some_iff.mp h
      obtain ⟨parsed, hparsed, h⟩ := Option.bind_eq_some_iff.mp h
      obtain ⟨error, -, h⟩ := Option.bind_eq_some_iff.mp h
      obtain rfl := Option.some.inj (Option.some.inj h)
      obtain ⟨value, hvalue, hfind⟩ := Option.bind_eq_some_iff.mp hparsed
      unfold DeploymentStatus.ofValue at hfind
      have hfound := List.find?_some hfind
      have hsame : parsed.value = value := of_decide_eq_true hfound
      rintro rfl
      exact hskipped (hvalue.trans (congrArg some hsame.symm))
    · exact absurd h (by simp)

/-- A failed job of the files has not SUCCEEDED. -/
theorem status_of_mem_failedJobs {job : Job} (h : job ∈ failedJobs ctx registry entries) :
    job.status ≠ .succeeded := by
  obtain ⟨e, -, he⟩ := List.mem_filterMap.mp h
  exact status_of_failedJob (Option.join_eq_some_iff.mp he)

/-- The job of a sample has SUCCEEDED, and belongs to the sample's version and environment. -/
theorem mem_jobsOf {samples : List Sample} {job : Job} :
    job ∈ jobsOf samples ↔ ∃ o ∈ samples, jobFor o.version o.environment = job := by
  rw [jobsOf, List.mem_eraseDups, List.mem_map]
  rfl

/-- No job of the samples is repeated. -/
theorem nodup_jobsOf (samples : List Sample) : (jobsOf samples).Nodup := nodup_eraseDups _

/-- A deployment of the dataset that SUCCEEDED is that of a job of the samples. -/
theorem succeeded_of_mem (hidle : Idle base) {d : Deployment}
    (hd : d ∈ (seeded ctx registry base rows entries).db.deployments)
    (hstatus : d.status = .succeeded) :
    ∃ job ∈ jobsOf (samplesOf ctx registry rows),
      d = (job.draft (ctx.userId "engineer")).1 (base.db.deployments.next +
        (jobsOf (samplesOf ctx registry rows)).idxOf job) := by
  obtain ⟨id, job, hplace, rfl⟩ := (mem_deployments_dataset hidle).mp hd
  rw [place_append] at hplace
  cases hfirst : place base.db.deployments.next (jobsOf (samplesOf ctx registry rows)) id with
  | some job' =>
    rw [hfirst, Option.some_or] at hplace
    obtain rfl := Option.some.inj hplace
    refine ⟨_, mem_of_place hfirst, ?_⟩
    rw [← eq_of_place (nodup_jobsOf _) hfirst]
  | none =>
    rw [hfirst, Option.none_or] at hplace
    exact absurd hstatus (status_of_mem_failedJobs (mem_of_place hplace))

/-- The deployment of a job of the samples is in the dataset. -/
theorem mem_of_job (hidle : Idle base) {job : Job}
    (h : job ∈ jobsOf (samplesOf ctx registry rows)) :
    (job.draft (ctx.userId "engineer")).1 (base.db.deployments.next +
        (jobsOf (samplesOf ctx registry rows)).idxOf job) ∈
      (seeded ctx registry base rows entries).db.deployments := by
  refine (mem_deployments_dataset hidle).mpr ⟨_, job, ?_, rfl⟩
  rw [place_append, place_idxOf h]
  rfl

/-- A row of a registered version has exactly one deployment that SUCCEEDED. -/
theorem existsUnique_succeeded (hm : Mirrors ctx s specs versions registry base) (hidle : Idle base)
    {row : CsvRow} (hreadable : (sampleOf ctx registry (some row)).isSome = true)
    (hrow : some row ∈ rows) {v : ModelVersion} (hv : registry.versionOf row = some (some v))
    {environment : Environment} (henvironment : row.environment ctx = some environment) :
    ∃! d, d ∈ (seeded ctx registry base rows entries).db.deployments ∧ d.status = .succeeded ∧
      d.modelVersionId = v.id ∧ d.environment = environment := by
  obtain ⟨o, ho, rfl, henv⟩ := exists_sample hreadable hv
  obtain rfl := Option.some.inj (henvironment.symm.trans henv)
  have hmem : o ∈ samplesOf ctx registry rows := mem_samplesOf.mpr ⟨_, hrow, ho⟩
  refine ⟨_, ⟨mem_of_job hidle (job_mem_jobsOf hmem), rfl, rfl, rfl⟩, ?_⟩
  rintro d ⟨hd, hstatus, hversion, hdenvironment⟩
  obtain ⟨job, hjob, rfl⟩ := succeeded_of_mem hidle hd hstatus
  obtain ⟨o', ho', rfl⟩ := mem_jobsOf.mp hjob
  -- The version and the environment determine the job.
  have hsame : o'.version = o.version :=
    Table.eq_of_key_eq _ (version_of_sample hm ho').1 (version_of_sample hm hmem).1 hversion
  have hsame' : o'.environment = o.environment := hdenvironment
  rw [Sample.job, hsame, hsame']

/-- A deployment that SUCCEEDED was made for a row of a registered version. -/
theorem exists_row_of_succeeded (hidle : Idle base) {d : Deployment}
    (hd : d ∈ (seeded ctx registry base rows entries).db.deployments)
    (hstatus : d.status = .succeeded) :
    ∃ row v, some row ∈ rows ∧ registry.versionOf row = some (some v) ∧
      row.environment ctx = some d.environment ∧ d.modelVersionId = v.id := by
  obtain ⟨job, hjob, rfl⟩ := succeeded_of_mem hidle hd hstatus
  obtain ⟨o, ho, rfl⟩ := mem_jobsOf.mp hjob
  obtain ⟨row, hrow, hsample⟩ := mem_samplesOf.mp ho
  obtain ⟨r, rfl, hversion, henvironment, -⟩ := sampleOf_eq_some hsample
  exact ⟨r, o.version, hrow, hversion, henvironment, rfl⟩

/-- A metric of the dataset is that of a sample, under the deployment of the sample's job. -/
theorem exists_sample_of_metric (hidle : Idle base) {m : Metric}
    (h : m ∈ (seeded ctx registry base rows entries).metrics) :
    ∃ o ∈ samplesOf ctx registry rows, ∃ n, m = (o.draft base.db.deployments.next
      (jobsOf (samplesOf ctx registry rows))).1 n := by
  have hold : m ∉ base.metrics := fun hm => by
    rw [← Table.mem_rows, hidle.metrics] at hm
    exact List.not_mem_nil hm
  rw [seeded, dataset, Table.mem_insertAll_iff, or_iff_right hold] at h
  obtain ⟨i, draft, hdraft, rfl⟩ := h
  rw [List.getElem?_map] at hdraft
  obtain ⟨o, ho, rfl⟩ := Option.map_eq_some_iff.mp hdraft
  have hmem := List.mem_of_getElem? ho
  refine ⟨o, hmem, base.metrics.next + i, ?_⟩
  rw [Sample.draft_of_longer (List.prefix_append _ _) (job_mem_jobsOf hmem)]

/-- The metric of a sample stores what the row has measured. -/
theorem metricAs_of_sampleOf
    (hm : Mirrors ctx s files.specs (versionEntries files.specs) registry base) {row : CsvRow}
    {o : Sample} (h : sampleOf ctx registry (some row) = some (some o)) {n : Uuid}
    {jobs : List Job} :
    MetricAs ctx files base.db.models base.db.versions row ((o.draft n jobs).1 0).withoutId := by
  obtain ⟨r, hr, hversion, henvironment, htext, hreading⟩ := sampleOf_eq_some h
  obtain rfl := Option.some.inj hr
  obtain ⟨hv, entry, hentry, hnames, has⟩ := (versionOf_iff hm).mp hversion
  simp only [reading, Option.bind_eq_bind, Option.bind_eq_some_iff] at hreading
  obtain ⟨value, hvalue, timestamp, htimestamp, value₁, hvalue₁, latencyMs, hlatency, value₂,
    hvalue₂, throughputRpm, hthroughput, value₃, hvalue₃, errorRate, herror, value₄, hvalue₄,
    qualityScore, hquality, value₅, hvalue₅, driftScore, hdrift, value₆, hvalue₆, availability,
    havailability, hreading⟩ := hreading
  obtain ⟨version, environment, text, reading⟩ := o
  obtain rfl := Option.some.inj hreading
  refine ⟨⟨version, hv, ⟨entry, hentry, hnames, has⟩, rfl⟩, htext,
    environment_eq_some.mp henvironment, ?_, ?_, ?_, ?_, ?_, ?_, ?_⟩
  · rw [hvalue, Option.bind_some, htimestamp]
    rfl
  · rw [hvalue₁, Option.bind_some, hlatency]
    rfl
  · rw [hvalue₂, Option.bind_some, hthroughput]
    rfl
  · rw [hvalue₃, Option.bind_some, herror]
    rfl
  · rw [hvalue₄, Option.bind_some, hquality]
    rfl
  · rw [hvalue₅, Option.bind_some, hdrift]
    rfl
  · rw [hvalue₆, Option.bind_some, havailability]
    rfl

/-- The metrics of the dataset are those of the rows of registered versions. -/
theorem forall₂_metrics
    (hm : Mirrors ctx s files.specs (versionEntries files.specs) registry base) (hidle : Idle base)
    (hreadable : ∀ row ∈ rows, (sampleOf ctx registry row).isSome = true) :
    List.Forall₂ (MetricAs ctx files base.db.models base.db.versions)
      (rows.reduceOption.filter files.registers)
      (seeded ctx registry base rows entries).metrics.rows := by
  have hrows : List.Forall₂ (MetricAs ctx files base.db.models base.db.versions)
      (rows.reduceOption.filter files.registers)
      ((seeded ctx registry base rows entries).metrics.rows.map Metric.withoutId) := by
    rw [seeded, map_metrics_dataset hidle fun _ _ => rfl, List.forall₂_map_right_iff]
    exact (forall₂_samplesOf hm hreadable).imp fun row o ho => metricAs_of_sampleOf hm ho
  -- The id of a metric does not matter.
  refine (List.forall₂_map_right_iff.mp hrows).imp fun row m h => ?_
  exact ⟨h.about, h.version, h.environment, h.timestamp, h.latencyMs, h.throughputRpm, h.errorRate,
    h.qualityScore, h.driftScore, h.availability⟩

/-- The dataset is coherent. -/
theorem coherent_seeded (hm : Mirrors ctx s files.specs (versionEntries files.specs) registry base)
    (hidle : Idle base) (hreadable : Readable ctx registry files entries) :
    Coherent ctx files (seededCounts ctx registry files.metrics entries)
      (seeded ctx registry base files.metrics entries) := by
  have hmeasured : List.Forall₂ (MetricAs ctx files base.db.models base.db.versions) _
      (seeded ctx registry base files.metrics entries).metrics.rows :=
    forall₂_metrics hm hidle hreadable.rows
  refine ⟨hm.forall₂_models, hm.forall₂_versions, ?_, ?_, ?_, hmeasured, ?_, hm.chronicles, ?_⟩
  · intro row v environment hrow hv habout henvironment
    exact existsUnique_succeeded hm hidle (hreadable.rows _ hrow) hrow
      ((versionOf_iff hm).mpr ⟨hv, habout⟩) (environment_eq_some.mpr henvironment)
  · intro d hd hstatus
    obtain ⟨row, v, hrow, hversion, henvironment, hid⟩ := exists_row_of_succeeded hidle hd hstatus
    obtain ⟨hv, habout⟩ := (versionOf_iff hm).mp hversion
    exact ⟨row, v, hrow, hv, habout, environment_eq_some.mp henvironment, hid⟩
  · intro m hmetric
    obtain ⟨o, ho, n, rfl⟩ := exists_sample_of_metric hidle hmetric
    obtain ⟨hversion, htext⟩ := version_of_sample hm ho
    obtain ⟨entry, -, has⟩ := (mem_of_forall₂ hm.forall₂_versions).1 _ hversion
    obtain ⟨model, hmodel, hid, -⟩ := has.model
    exact ⟨_, mem_of_job hidle (job_mem_jobsOf ho), o.version, hversion, model, hmodel, rfl, rfl,
      rfl, rfl, rfl, rfl, htext.symm, rfl, hid⟩
  · rw [← hmeasured.length_eq]
    exact length_filter_reduceOption _ _
  · rw [seededCounts, hm.counts, seeded, dataset, Table.length_insertAll, Table.length_insertAll,
      hidle.deployments, hidle.metrics, List.length_map, List.length_map, List.length_append]
    simp

/-! ## Other orders, and second calls -/

variable {postgresql : Bool}

/-- The first part of the seeder comes to one registry. -/
theorem registers_unique {registry' : Registry} {base' : SampleStore}
    (h : Registers ctx postgresql files s registry base)
    (h' : Registers ctx postgresql files s registry' base') :
    registry' = registry ∧ base' = base := by
  obtain ⟨tx, hsolo, -, -, rfl⟩ := h
  obtain ⟨tx', hsolo', -, -, rfl⟩ := h'
  obtain ⟨hregistry, rfl⟩ := Prod.mk.inj (hsolo.symm.trans hsolo')
  exact ⟨(Except.ok.inj hregistry).symm, rfl⟩

/-- A registry that mirrors a store without rows leaves the tables of runs without rows. -/
theorem idle_of_mirrors (hs : s.Blank) (hm : Mirrors ctx s specs versions registry base) :
    Idle base := by
  refine ⟨?_, ?_, ?_⟩
  · rw [hm.deployments, hs.deployments]
  · rw [hm.deploymentEvents, hs.deploymentEvents]
  · rw [hm.metrics, hs.metrics]

/-- What the samples of rows are does not depend on the order of the rows. -/
theorem perm_samplesOf {rows' : List (Option CsvRow)} (h : rows.Perm rows') :
    (samplesOf ctx registry rows).Perm (samplesOf ctx registry rows') := h.filterMap _

/-- In another order the rows lead to the same counts, and to the same dataset up to ids. -/
theorem ends_of_perm (hs : s.Blank) (hregisters : Registers ctx postgresql files s registry base)
    (hm : Mirrors ctx s specs versions registry base)
    (hreadable : Readable ctx registry files entries)
    (haccepted : (seeded ctx registry base files.metrics entries).accepted postgresql = true)
    {rows' : List (Option CsvRow)} (h : files.metrics.Perm rows') :
    ∃ s' σ, ends ctx postgresql { files with metrics := rows' } s =
        (.ok (seededCounts ctx registry files.metrics entries), s') ∧
      (seeded ctx registry base files.metrics entries).Renamed σ s' := by
  have hsamples : (samplesOf ctx registry files.metrics).Perm (samplesOf ctx registry rows') :=
    perm_samplesOf h
  have hjobs : (jobsOf (samplesOf ctx registry files.metrics)).Perm
      (jobsOf (samplesOf ctx registry rows')) := perm_eraseDups (hsamples.map _)
  have hrenamed : (seeded ctx registry base files.metrics entries).Renamed
      (renamePerm base.db.deployments.next (nodup_jobsOf _) hjobs)
      (seeded ctx registry base rows' entries) :=
    renamed_dataset (idle_of_mirrors hs hm) (nodup_jobsOf _) hjobs hsamples fun o ho =>
      job_mem_jobsOf ho
  have hreadable' : Readable ctx registry { files with metrics := rows' } entries :=
    ⟨fun row hrow => hreadable.rows row (h.mem_iff.mpr hrow), hreadable.file, hreadable.entries⟩
  have hcounts : seededCounts ctx registry rows' entries =
      seededCounts ctx registry files.metrics entries := by
    rw [seededCounts, seededCounts, hsamples.length_eq, hjobs.length_eq]
  have hregisters' : Registers ctx postgresql { files with metrics := rows' } s registry base :=
    hregisters
  rcases @ends_cases ctx s { files with metrics := rows' } postgresql hs with
    ⟨registry', base', entries', hreg, -, -, hread, -, hends⟩ | ⟨e, -, hrejected⟩
  · obtain ⟨rfl, rfl⟩ := registers_unique hregisters' hreg
    obtain rfl := Option.some.inj (hreadable'.file.symm.trans hread.file)
    exact ⟨_, _, hends.trans (by rw [hcounts]), hrenamed⟩
  · have hnot := hrejected registry base entries hregisters' hreadable'
    have hyes := hrenamed.accepted haccepted
    exact absurd (hyes.symm.trans hnot) (by simp)

/-- The seeder leaves a store alone that has a model. -/
theorem ends_of_nonempty (h : s.db.models.rows ≠ []) :
    ends ctx postgresql files s = (.ok .zero, s) := by
  have hnonempty : 0 < s.db.models.rows.length := List.length_pos_iff.mpr h
  rw [ends, seedSampleData, Program.solo_bind, Tx.start, Program.solo_query]
  dsimp only [List.foldl_nil]
  rw [if_pos hnonempty]
  rfl

/-- The registry without models. -/
def Registry.nil : Registry := ⟨[], [], .zero⟩

/-- Without a version every row is skipped or malformed, whatever the context. -/
theorem sampleOf_nil (row : Option CsvRow) :
    sampleOf ctx .nil row = (row.bind (Registry.versionOf .nil)).map fun _ => none := by
  have hversion : ∀ modelId version, Registry.nil.version? modelId version = none :=
    fun _ _ => rfl
  cases row with
  | none => rfl
  | some row =>
    simp only [sampleOf, Registry.versionOf, hversion, Option.bind_eq_bind, Option.bind_some]
    cases row.key "model_id" with
    | none => rfl
    | some modelId => cases row.key "version" <;> rfl

/-- Without a model every entry is skipped or malformed, whatever the context. -/
theorem failedJob_nil (e : Json) :
    failedJob ctx .nil e = (e.item "status").bind fun status =>
      if status.text = some "SUCCEEDED" then some none
      else ((e.item "model_id").bind Json.key).bind fun _ =>
        ((e.item "version").bind Json.key).map fun _ => none := by
  have hmodel : ∀ modelId, Registry.nil.model? modelId = none := fun _ => rfl
  unfold failedJob
  cases e.item "status" with
  | none => rfl
  | some status =>
    simp only [hmodel, Option.bind_eq_bind, Option.bind_some, Option.map_eq_bind]
    rfl

/-- Without a version there are no samples. -/
theorem samplesOf_nil : samplesOf ctx .nil rows = [] := by
  rw [samplesOf, List.filterMap_eq_nil_iff]
  intro row _
  rw [sampleOf_nil]
  cases row.bind (Registry.versionOf .nil) <;> rfl

/-- Without a model there are no failed jobs. -/
theorem failedJobs_nil : failedJobs ctx .nil entries = [] := by
  rw [failedJobs, List.filterMap_eq_nil_iff]
  intro e _
  rw [failedJob_nil]
  cases e.item "status" with
  | none => rfl
  | some status =>
    dsimp only [Option.bind_some]
    split_ifs
    · rfl
    · cases (e.item "model_id").bind Json.key with
      | none => rfl
      | some modelId => cases (e.item "version").bind Json.key <;> rfl

/-- Without a model nothing is added. -/
theorem seeded_nil : seeded ctx .nil s rows entries = s := by
  rw [seeded, samplesOf_nil, failedJobs_nil]
  rfl

/-- Without a model nothing is counted. -/
theorem seededCounts_nil : seededCounts ctx .nil rows entries = .zero := by
  rw [seededCounts, samplesOf_nil, failedJobs_nil]
  rfl

/-- Files without models leave the registry as it is. -/
theorem registers_nil (h : files.models.bind Json.items = some []) :
    Registers ctx postgresql files s .nil s := by
  refine ⟨.start s, ?_, rfl, rfl, rfl⟩
  rw [seedModels, h]
  rfl

/-- A second call adds nothing: there is a model, or the files have none. -/
theorem ends_again (hs : s.Blank) (hregisters : Registers ctx postgresql files s registry base)
    (hm : Mirrors ctx s specs versions registry base)
    (hnone : base.db.models.rows = [] → files.models.bind Json.items = some [])
    (hreadable : Readable ctx registry files entries)
    (haccepted : (seeded ctx registry base files.metrics entries).accepted postgresql = true)
    (ctx' : SeedContext) :
    ends ctx' postgresql files (seeded ctx registry base files.metrics entries) =
      (.ok .zero, seeded ctx registry base files.metrics entries) := by
  by_cases hempty : base.db.models.rows = []
  · obtain rfl := hm.untouched hempty
    obtain ⟨rfl, -⟩ := registers_unique hregisters (registers_nil (hnone hempty))
    rw [seeded_nil] at haccepted ⊢
    have hreadable' : Readable ctx' .nil files entries := by
      refine ⟨fun row hrow => ?_, hreadable.file, fun e he => ?_⟩
      · have hrow := hreadable.rows row hrow
        rw [sampleOf_nil] at *
        exact hrow
      · have he := hreadable.entries e he
        rw [failedJob_nil] at *
        exact he
    rcases @ends_cases ctx' base files postgresql hs with
      ⟨registry', base', entries', hreg, -, -, -, -, hends⟩ | ⟨e, -, hrejected⟩
    · obtain ⟨rfl, rfl⟩ := registers_unique (registers_nil (hnone hempty)) hreg
      rw [hends, seeded_nil, seededCounts_nil]
    · have hnot := hrejected .nil base entries (registers_nil (hnone hempty)) hreadable'
      rw [seeded_nil, haccepted] at hnot
      exact absurd hnot (by simp)
  · exact ends_of_nonempty hempty

/-- The sample seeder builds a coherent dataset or nothing. If it completes on an empty registry,
then what it leaves is coherent with the files and with the counts that it returns; the rows of
`metrics.csv` in any other order lead to the same counts, and to the same dataset up to ids; and a
second call adds nothing, whatever the time. If it raises, the tables stay as they were. -/
theorem seedSampleData_coherent (ctx : SeedContext) (postgresql : Bool) (files : SampleFiles)
    {s : SampleStore} (hreferences : s.References) (hmodels : s.db.models.rows = []) :
    (∀ counts s', ends ctx postgresql files s = (.ok counts, s') →
      Coherent ctx files counts s' ∧
      (∀ rows, files.metrics.Perm rows → ∃ s'' σ,
        ends ctx postgresql { files with metrics := rows } s = (.ok counts, s'') ∧
          s'.Renamed σ s'') ∧
      ∀ ctx', ends ctx' postgresql files s' = (.ok .zero, s')) ∧
    ∀ e s', ends ctx postgresql files s = (.error e, s') → s' = s := by
  have hs : s.Blank := hreferences.blank hmodels
  rcases @ends_cases ctx s files postgresql hs with
    ⟨registry, base, entries, hregisters, hm, hnone, hreadable, haccepted, hends⟩ | ⟨e, hends, -⟩
  · refine ⟨fun counts s' h => ?_, fun e s' h => ?_⟩
    · obtain ⟨hcounts, rfl⟩ := Prod.mk.inj (hends.symm.trans h)
      obtain rfl := Except.ok.inj hcounts
      refine ⟨coherent_seeded hm (idle_of_mirrors hs hm) hreadable,
        fun rows hperm => ends_of_perm hs hregisters hm hreadable haccepted hperm,
        ends_again hs hregisters hm hnone hreadable haccepted⟩
    · rw [hends] at h
      exact absurd (congrArg Prod.fst h) (by simp)
  · refine ⟨fun counts s' h => ?_, fun e' s' h => ?_⟩
    · rw [hends] at h
      exact absurd (congrArg Prod.fst h) (by simp)
    · exact (congrArg Prod.snd (hends.symm.trans h)).symm

end

/-! ## A model with one version -/

/-- Enough of Python for the files below. -/
def pumpContext : SeedContext where
  upper value := if value = "staging" then "STAGING" else value
  float value := if value = "1.5" then some (3 / 2) else none
  fromIsoFormat value := if value = "2026-07-01T00:00:00+00:00" then some 20635 else none
  isZero digits := digits = "0"
  converted
    | .number digits => some digits
    | _ => none
  userId username :=
    if username = "engineer" then some 2 else if username = "approver" then some 3 else none
  utcnow _ := 20640

/-- A row of `metrics.csv`. -/
def pumpRow (version : String) : CsvRow :=
  [("timestamp", some "2026-07-01T00:00:00Z"), ("model_id", some "pump"),
    ("version", some version), ("environment", some "staging"), ("latency_ms", some "1.5"),
    ("throughput_rpm", some "1.5"), ("error_rate", some "1.5"), ("quality_score", some "1.5"),
    ("drift_score", some "1.5"), ("availability", some "1.5")]

/-- Files with a version, two rows and a failed deployment of it, and a version that is a number:
the row of that version is skipped. -/
def pumpFiles : SampleFiles where
  models := some (.array [.object [("model_id", .string "pump"), ("name", .string "Pump"),
    ("owner", .string "ops"), ("framework", .string "pytorch"),
    ("versions", .array [.object [("version", .string "1.0"), ("stage", .string "STAGING"),
      ("approved", .bool true), ("artifact_uri", .string "s3://pump/1")],
      .object [("version", .number "2"), ("stage", .string "DRAFT"),
        ("artifact_uri", .string "s3://pump/2")]])]])
  metrics := [some (pumpRow "1.0"), some (pumpRow "2"), some (pumpRow "1.0")]
  deploymentEvents := some (some (.array [.object [("model_id", .string "pump"),
    ("version", .string "1.0"), ("environment", .string "staging"),
    ("status", .string "FAILED"), ("event", .string "runtime_timeout")]]))

/-- The two rows of the first version have one deployment. -/
theorem seedSampleData_coherent_pump :
    ∃ s', ends pumpContext true pumpFiles ⟨.empty, .empty⟩ = (.ok ⟨1, 2, 2, 2⟩, s') ∧
      Coherent pumpContext pumpFiles ⟨1, 2, 2, 2⟩ s' :=
  have hreferences : SampleStore.References ⟨.empty, .empty⟩ :=
    ⟨fun v hv => absurd hv (Table.not_mem_empty v), fun e he => absurd he (Table.not_mem_empty e),
      fun d hd => absurd hd (Table.not_mem_empty d), fun e he => absurd he (Table.not_mem_empty e),
      fun m hm => absurd hm (Table.not_mem_empty m)⟩
  have hends : ends pumpContext true pumpFiles ⟨.empty, .empty⟩ = (.ok ⟨1, 2, 2, 2⟩, _) :=
    Prod.ext rfl rfl
  ⟨_, hends, ((seedSampleData_coherent pumpContext true pumpFiles hreferences rfl).1 _ _ hends).1⟩

end Seeding

end MlopsPlatform
