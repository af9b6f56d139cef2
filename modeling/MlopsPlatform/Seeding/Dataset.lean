import MlopsPlatform.Seeding.Registering

/-!
# The deployments and the metrics of the sample

What the second part of the seeder comes to. `sampleOf` and `failedJob` read a row of `metrics.csv`
and an entry of `deployment_events.json` as a whole; `dataset` is the store with the deployments of
given jobs, their timelines, and the metrics of given samples, where the deployment of a sample is
the first one with its job. A job is there once for all samples that have it: `jobsOf` is the table
that the seeder fills on the fly. `loads_seedRuns` shows that the loops lead to this store, and that
they raise only if something is malformed or the database rejects it.
-/

namespace MlopsPlatform

open Transaction

/-! ## Stores that hold more rows -/

/-- The rows of a store are the first rows of another. -/
structure SampleStore.Within (s s' : SampleStore) : Prop where
  models : s.db.models.rows <+: s'.db.models.rows
  versions : s.db.versions.rows <+: s'.db.versions.rows
  versionEvents : s.db.versionEvents.rows <+: s'.db.versionEvents.rows
  deployments : s.db.deployments.rows <+: s'.db.deployments.rows
  deploymentEvents : s.db.deploymentEvents.rows <+: s'.db.deploymentEvents.rows
  metrics : s.metrics.rows <+: s'.metrics.rows

/-- What holds of all rows holds of the first ones. -/
theorem all_of_longer {α : Type} {l l' : List α} {p : α → Bool} (h : l <+: l')
    (hall : l'.all p = true) : l.all p = true := by
  rw [List.all_eq_true] at *
  exact fun a ha => hall a (h.subset ha)

/-- A database that accepts a store accepts one with fewer rows. -/
theorem SampleStore.Within.accepted {s s' : SampleStore} (h : s.Within s') {postgresql : Bool}
    (haccepted : s'.accepted postgresql = true) : s.accepted postgresql = true := by
  simp only [SampleStore.accepted, Bool.and_eq_true, decide_eq_true_eq, Bool.or_eq_true,
    SampleStore.fits] at *
  obtain ⟨⟨hkey, hversion, hidempotency, hactive⟩, hfits⟩ := haccepted
  refine ⟨⟨hkey.sublist h.models.sublist, hversion.sublist h.versions.sublist,
    hidempotency.sublist h.deployments.sublist, hactive.sublist h.deployments.sublist⟩, ?_⟩
  refine hfits.imp_right ?_
  rintro ⟨⟨⟨⟨⟨hmodels, hversions⟩, hversionEvents⟩, hdeployments⟩, hevents⟩, hmetrics⟩
  exact ⟨⟨⟨⟨⟨all_of_longer h.models hmodels, all_of_longer h.versions hversions⟩,
    all_of_longer h.versionEvents hversionEvents⟩, all_of_longer h.deployments hdeployments⟩,
    all_of_longer h.deploymentEvents hevents⟩, all_of_longer h.metrics hmetrics⟩

namespace Seeding

/-! ## What is read of the files -/

/-- What a deployment is made with. -/
structure Job where
  modelId : Uuid
  modelVersionId : Uuid
  environment : Environment
  status : DeploymentStatus
  error : ErrorTexts
  deriving DecidableEq

/-- What a row of `metrics.csv` says about a registered version. -/
structure Sample where
  version : ModelVersion
  environment : Environment
  text : String
  reading : Reading

/-- The job that has produced the metrics of a version in an environment. -/
def jobFor (version : ModelVersion) (environment : Environment) : Job :=
  ⟨version.modelId, version.id, environment, .succeeded, .none⟩

/-- The job that has produced a sample. -/
def Sample.job (o : Sample) : Job := jobFor o.version o.environment

/-- A row of `metrics.csv`: malformed, skipped, or a sample. -/
def sampleOf (ctx : SeedContext) (registry : Registry) (row : Option CsvRow) :
    Option (Option Sample) := do
  let row ← row
  match ← registry.versionOf row with
  | none => some none
  | some version =>
    let environment ← row.environment ctx
    let text ← row.text "version"
    let reading ← reading ctx row
    some (some { version, environment, text, reading })

/-- An entry of `deployment_events.json`: malformed, skipped, or a job that has failed. -/
def failedJob (ctx : SeedContext) (registry : Registry) (e : Json) : Option (Option Job) := do
  let status ← e.item "status"
  if status.text = some "SUCCEEDED" then some none
  else
    let modelId ← (e.item "model_id").bind Json.key
    let version ← (e.item "version").bind Json.key
    match registry.model? modelId, registry.version? modelId version with
    | some model, some version =>
      let environment ← ((e.item "environment").bind Json.text).bind fun value =>
        Environment.ofValue (ctx.upper value)
      let status ← status.text.bind DeploymentStatus.ofValue
      let error ← (e.item "event").bind ctx.errorTexts
      some (some ⟨model.id, version.id, environment, status, error⟩)
    | _, _ => some none

/-- The samples of the rows that are not skipped. -/
def samplesOf (ctx : SeedContext) (registry : Registry) (rows : List (Option CsvRow)) :
    List Sample := rows.filterMap fun row => (sampleOf ctx registry row).join

/-- The jobs of the entries that are not skipped. -/
def failedJobs (ctx : SeedContext) (registry : Registry) (entries : List Json) : List Job :=
  entries.filterMap fun e => (failedJob ctx registry e).join

/-- The jobs that have produced samples, each once, in the order in which they come first. -/
def jobsOf (samples : List Sample) : List Job := (samples.map Sample.job).eraseDups

/-! ## First occurrences -/

section

variable {α : Type} [DecidableEq α] {l l' : List α}

/-- An item at the end is a first occurrence if it was not there before. -/
theorem eraseDups_concat (l : List α) (a : α) :
    (l ++ [a]).eraseDups = l.eraseDups ++ if a ∈ l then [] else [a] := by
  rw [List.eraseDups_append, List.cons_removeAll]
  by_cases h : a ∈ l
  · simp [h]
  · simp [h, List.eraseDups_cons]

/-- First occurrences are not repeated. -/
theorem nodup_eraseDups (l : List α) : l.eraseDups.Nodup := by
  induction l using List.reverseRecOn with
  | nil => exact List.nodup_nil
  | append_singleton l a ih =>
    rw [eraseDups_concat]
    split_ifs with h
    · rwa [List.append_nil]
    · exact List.nodup_append.mpr ⟨ih, List.nodup_singleton a, fun x hx y hy hxy => h <| by
        rw [List.mem_singleton.mp hy] at hxy
        exact hxy ▸ List.mem_eraseDups.mp hx⟩

/-- The same items have the same first occurrences, up to their order. -/
theorem perm_eraseDups (h : l.Perm l') : l.eraseDups.Perm l'.eraseDups := by
  refine (List.perm_ext_iff_of_nodup (nodup_eraseDups l) (nodup_eraseDups l')).mpr fun a => ?_
  rw [List.mem_eraseDups, List.mem_eraseDups, h.mem_iff]

/-- The first occurrences in the first items come first. -/
theorem prefix_eraseDups (l l' : List α) : l.eraseDups <+: (l ++ l').eraseDups := by
  rw [List.eraseDups_append]
  exact List.prefix_append _ _

/-- An item of the first part of a list comes first at the same place in a longer one. -/
theorem idxOf_of_longer {a : α} (h : l <+: l') (ha : a ∈ l) : l'.idxOf a = l.idxOf a := by
  obtain ⟨rest, rfl⟩ := h
  rw [List.idxOf_append, if_pos ha]

end

/-! ## The store with the deployments of jobs and the metrics of samples -/

/-- The row of a job. -/
def Job.draft (actorId : Option Uuid) (job : Job) : Table.Draft Deployment.id :=
  newDeployment job.modelId job.modelVersionId job.environment job.status job.error.error actorId

/-- The timeline of a job. -/
def Job.timeline (job : Job) (deploymentId : Uuid) : List (Table.Draft DeploymentEvent.id) :=
  (steps job.status job.error).map (newDeploymentEvent deploymentId)

/-- The timelines of jobs whose deployments have the ids from `n` on. -/
def timelines : ℕ → List Job → List (Table.Draft DeploymentEvent.id)
  | _, [] => []
  | n, job :: jobs => job.timeline n ++ timelines (n + 1) jobs

/-- The metric of a sample, where the deployments of the jobs have the ids from `n` on. -/
def Sample.draft (n : ℕ) (jobs : List Job) (o : Sample) : Table.Draft Metric.id :=
  newMetric o.version (n + jobs.idxOf o.job) o.text o.environment o.reading

/-- A store with the deployments of jobs, their timelines, and the metrics of samples. -/
def dataset (base : SampleStore) (actorId : Option Uuid) (jobs : List Job)
    (samples : List Sample) : SampleStore where
  db :=
    { base.db with
      deployments := base.db.deployments.insertAll (jobs.map (Job.draft actorId))
      deploymentEvents :=
        base.db.deploymentEvents.insertAll (timelines base.db.deployments.next jobs) }
  metrics := base.metrics.insertAll (samples.map (Sample.draft base.db.deployments.next jobs))

/-- The timelines of more jobs. -/
theorem timelines_append (n : ℕ) (jobs jobs' : List Job) :
    timelines n (jobs ++ jobs') = timelines n jobs ++ timelines (n + jobs.length) jobs' := by
  induction jobs generalizing n with
  | nil => rfl
  | cons job jobs ih =>
    rw [List.cons_append, timelines, timelines, ih, List.append_assoc, List.length_cons,
      Nat.add_right_comm, Nat.add_assoc]

/-- The metric of a sample stays the same when there are more jobs. -/
theorem Sample.draft_of_longer {n : ℕ} {jobs jobs' : List Job} {o : Sample} (h : jobs <+: jobs')
    (ho : o.job ∈ jobs) : o.draft n jobs' = o.draft n jobs := by
  rw [Sample.draft, Sample.draft, idxOf_of_longer h ho]

/-- The metrics of samples stay the same when there are more jobs. -/
theorem map_draft_of_longer {n : ℕ} {jobs jobs' : List Job} {samples : List Sample}
    (h : jobs <+: jobs') (hjobs : ∀ o ∈ samples, o.job ∈ jobs) :
    samples.map (Sample.draft n jobs') = samples.map (Sample.draft n jobs) :=
  List.map_congr_left fun o ho => Sample.draft_of_longer h (hjobs o ho)

/-- The job of a sample is there. -/
theorem job_mem_jobsOf {samples : List Sample} {o : Sample} (h : o ∈ samples) :
    o.job ∈ jobsOf samples := List.mem_eraseDups.mpr (List.mem_map_of_mem h)

/-- The jobs of more samples begin with those of fewer. -/
theorem prefix_jobsOf (samples samples' : List Sample) :
    jobsOf samples <+: jobsOf (samples ++ samples') := by
  rw [jobsOf, jobsOf, List.map_append]
  exact prefix_eraseDups _ _

section

variable {base : SampleStore} {actorId : Option Uuid} {jobs jobs' : List Job}
variable {samples samples' : List Sample} {postgresql : Bool}

/-- A store with more jobs and samples has more rows. -/
theorem dataset_within (h : jobs <+: jobs') (hsamples : samples <+: samples')
    (hjobs : ∀ o ∈ samples, o.job ∈ jobs) :
    (dataset base actorId jobs samples).Within (dataset base actorId jobs' samples') := by
  have hmetrics : samples.map (Sample.draft base.db.deployments.next jobs) <+:
      samples'.map (Sample.draft base.db.deployments.next jobs') := by
    rw [← map_draft_of_longer h hjobs]
    exact hsamples.map _
  obtain ⟨rest, rfl⟩ := h
  obtain ⟨rest', hrest'⟩ := hmetrics
  refine ⟨List.prefix_rfl, List.prefix_rfl, List.prefix_rfl, ?_, ?_, ?_⟩
  · simp only [dataset, List.map_append, Table.insertAll_append]
    exact Table.prefix_insertAll
  · simp only [dataset, timelines_append, Table.insertAll_append]
    exact Table.prefix_insertAll
  · simp only [dataset, ← hrest', Table.insertAll_append]
    exact Table.prefix_insertAll

/-- The steps of a new deployment. -/
theorem foldl_deploymentEvent (ds : List (Table.Draft DeploymentEvent.id)) (st : SampleStore) :
    (ds.map SampleRow.deploymentEvent).foldl SampleStore.insert st =
      { st with db := { st.db with deploymentEvents := st.db.deploymentEvents.insertAll ds } } := by
  induction ds generalizing st with
  | nil => rfl
  | cons d ds ih =>
    rw [List.map_cons, List.foldl_cons, ih]
    rfl

/-- The deployment of one more job gets the next id. -/
theorem next_dataset : (dataset base actorId jobs samples).db.deployments.next =
    base.db.deployments.next + jobs.length := by
  rw [dataset, Table.next_insertAll, List.length_map]

/-- The deployment of one more job, and its timeline. -/
theorem dataset_concat_job (hjobs : ∀ o ∈ samples, o.job ∈ jobs) (job : Job) :
    ((job.timeline (base.db.deployments.next + jobs.length)).map SampleRow.deploymentEvent).foldl
        SampleStore.insert
        ((dataset base actorId jobs samples).insert (.deployment (job.draft actorId))) =
      dataset base actorId (jobs ++ [job]) samples := by
  rw [foldl_deploymentEvent]
  simp only [dataset, SampleStore.insert, List.map_append, List.map_cons, List.map_nil,
    timelines_append, timelines, List.append_nil, Table.insertAll_append,
    map_draft_of_longer (List.prefix_append jobs [job]) hjobs]
  rfl

/-- The metric of one more sample. -/
theorem dataset_concat_sample (o : Sample) :
    (dataset base actorId jobs samples).insert
        (.metric (o.draft base.db.deployments.next jobs)) =
      dataset base actorId jobs (samples ++ [o]) := by
  simp only [dataset, SampleStore.insert, List.map_append, List.map_cons, List.map_nil,
    Table.insertAll_append]
  rfl

/-- `_make_deployment` adds the deployment of a job with its timeline, unless the database rejects
what it would lead to. -/
theorem loads_makeDeployment {model : Model} {version : ModelVersion} {environment : Environment}
    {status : DeploymentStatus} {error : ErrorTexts} {Exc : Prop} {job : Job}
    (hjob : job = ⟨model.id, version.id, environment, status, error⟩)
    (hjobs : ∀ o ∈ samples, o.job ∈ jobs)
    (hexc : (dataset base actorId (jobs ++ [job]) samples).accepted postgresql = false → Exc) :
    Loads (seedBackend postgresql) (dataset base actorId jobs samples)
      (makeDeployment model version environment status error actorId)
      (fun deployment st' =>
        deployment = (job.draft actorId).1 (base.db.deployments.next + jobs.length) ∧
          st' = dataset base actorId (jobs ++ [job]) samples) Exc := by
  subst hjob
  refine .addFlush (fun _ => ?_) fun hrejected => hexc ?_
  · have hid : ∀ draft, ((seedBackend postgresql).write (dataset base actorId jobs samples)
        (.deployment draft)).db.deployments.lastKey = base.db.deployments.next + jobs.length :=
      fun draft => Table.lastKey_insert.trans next_dataset
    rw [hid]
    refine .addAll (.pure ⟨rfl, ?_⟩)
    rw [← dataset_concat_job hjobs, Job.timeline, List.map_map]
    rfl
  · -- A store that is rejected without the timeline is rejected with it.
    rw [Bool.eq_false_iff] at *
    refine fun haccepted => hrejected (SampleStore.Within.accepted ?_ haccepted)
    rw [← dataset_concat_job hjobs, foldl_deploymentEvent]
    exact ⟨List.prefix_rfl, List.prefix_rfl, List.prefix_rfl, List.prefix_rfl,
      Table.prefix_insertAll, List.prefix_rfl⟩

end

/-! ## The loop over the metrics -/

section

variable {ctx : SeedContext} {registry : Registry} {s base : SampleStore} {actorId : Option Uuid}
variable {postgresql : Bool} {Exc : Prop} {specs : List Json} {versions : List (Json × Json)}

/-- What a row of a registered version names. -/
structure Names (base : SampleStore) (registry : Registry) (row : CsvRow) (v : ModelVersion) :
    Prop where
  version : v ∈ base.db.versions
  text : row.text "version" = some v.version
  model : ∃ m, (row.key "model_id").bind registry.model? = some m ∧ m.id = v.modelId

/-- A part of a key that is stored as a text is a text of the row. -/
theorem text_of_key {row : CsvRow} {column text : String} {k : Json.Key}
    (hkey : row.key column = some k) (hstored : ctx.columnText k.json = some text) :
    row.text column = some text ∧ k = .text text := by
  obtain ⟨item, hitem, rfl⟩ := Option.map_eq_some_iff.mp hkey
  cases item with
  | none => exact absurd hstored (by simp [Json.Key.json, SeedContext.columnText])
  | some value =>
    obtain rfl := Option.some.inj hstored
    exact ⟨by rw [CsvRow.text, hitem]; rfl, rfl⟩

/-- The version of a row is looked up under the keys that the row has. -/
theorem versionOf_eq_some {row : CsvRow} {v : ModelVersion} :
    registry.versionOf row = some (some v) ↔ ∃ k k', row.key "model_id" = some k ∧
      row.key "version" = some k' ∧ registry.version? k k' = some v := by
  constructor
  · intro h
    obtain ⟨k, hk, hlookup⟩ := Option.bind_eq_some_iff.mp h
    obtain ⟨k', hk', hv⟩ := Option.map_eq_some_iff.mp hlookup
    exact ⟨k, k', hk, hk', hv⟩
  · rintro ⟨k, k', hk, hk', hv⟩
    rw [Registry.versionOf, hk, hk', Option.bind_some, Option.map_some, hv]

/-- The version of a row is looked up under the key of its model. -/
theorem names_of_versionOf (hm : Mirrors ctx s specs versions registry base) {row : CsvRow}
    {v : ModelVersion} (h : registry.versionOf row = some (some v)) :
    Names base registry row v := by
  obtain ⟨k, k', hk, hk', hv⟩ := versionOf_eq_some.mp h
  obtain ⟨hversion, entry, -, -, hitem, has⟩ := hm.version?_iff.mp hv
  obtain ⟨m, hmodel, hid⟩ := hm.model_of_version hv
  have hstored := has.version
  rw [hitem, Option.bind_some] at hstored
  refine ⟨hversion, (text_of_key hk' hstored).1, m, ?_, hid⟩
  rw [hk, Option.bind_some, hmodel]

/-- The table of the deployments made so far: there is one for each job of a stored version. -/
def Memo (base : SampleStore) (actorId : Option Uuid) (jobs : List Job)
    (entries : List ((Uuid × Environment) × Deployment)) : Prop :=
  ∀ v ∈ base.db.versions, ∀ environment, entries.lookup (v.id, environment) =
    if jobFor v environment ∈ jobs then
      some (((jobFor v environment).draft actorId).1
        (base.db.deployments.next + jobs.idxOf (jobFor v environment)))
    else none

/-- The first deployment for a version in an environment is entered in the table. -/
theorem Memo.concat {jobs : List Job} {entries : List ((Uuid × Environment) × Deployment)}
    (h : Memo base actorId jobs entries) {v : ModelVersion} (hv : v ∈ base.db.versions)
    {environment : Environment} (hnew : jobFor v environment ∉ jobs) :
    Memo base actorId (jobs ++ [jobFor v environment])
      (((v.id, environment), ((jobFor v environment).draft actorId).1
        (base.db.deployments.next + jobs.length)) :: entries) := by
  intro w hw environment'
  by_cases hsame : (w.id, environment') = (v.id, environment)
  · obtain ⟨hid, rfl⟩ := Prod.mk.inj hsame
    obtain rfl := Table.eq_of_key_eq _ hw hv hid
    rw [List.lookup_cons_self, if_pos (List.mem_append_right _ (List.mem_singleton_self _)),
      List.idxOf_append, if_neg hnew, List.idxOf_cons_self, Nat.zero_add]
  · rw [List.lookup_cons, beq_eq_false_iff_ne.mpr hsame]
    have hother : jobFor w environment' ≠ jobFor v environment := fun hjob =>
      hsame (Prod.ext (congrArg Job.modelVersionId hjob) (congrArg Job.environment hjob))
    have hold := h w hw environment'
    by_cases hmem : jobFor w environment' ∈ jobs
    · rw [if_pos hmem] at hold
      rw [if_pos (List.mem_append_left _ hmem), idxOf_of_longer (List.prefix_append _ _) hmem]
      exact hold
    · rw [if_neg hmem] at hold
      rw [if_neg fun h' => (List.mem_append.mp h').elim hmem fun h' =>
        hother (List.mem_singleton.mp h')]
      exact hold

/-- The jobs so far, and the one for a version in an environment. -/
def withJob (jobs : List Job) (job : Job) : List Job := jobs ++ if job ∈ jobs then [] else [job]

/-- One more sample has at most one new job. -/
theorem jobsOf_concat (samples : List Sample) (o : Sample) :
    jobsOf (samples ++ [o]) = withJob (jobsOf samples) o.job := by
  rw [jobsOf, List.map_append, List.map_singleton, eraseDups_concat, withJob, jobsOf]
  simp only [List.mem_eraseDups]

/-- What the seeder keeps of the deployments and the metrics so far. -/
structure Follows (base : SampleStore) (actorId : Option Uuid) (registry : Registry)
    (jobs : List Job) (metrics : ℕ) (state : Deployments) : Prop where
  memo : Memo base actorId jobs state.deploymentsByCombo
  counts : state.counts = { registry.counts with deployments := jobs.length, metrics }

/-- The deployment that produced a row is the one in the table, or a new one. -/
theorem loads_deploymentFor {samples : List Sample} {state : Deployments}
    (h : Follows base (ctx.userId "engineer") registry (jobsOf samples) samples.length state)
    {row : CsvRow} {v : ModelVersion} (hrow : Names base registry row v)
    {environment : Environment} {job : Job} (hjob : job = jobFor v environment)
    (hexc : (dataset base (ctx.userId "engineer") (withJob (jobsOf samples) job)
      samples).accepted postgresql = false → Exc) :
    Loads (seedBackend postgresql) (dataset base (ctx.userId "engineer") (jobsOf samples) samples)
      (deploymentFor ctx registry state row v environment)
      (fun p st' =>
        p.1.id = base.db.deployments.next + (withJob (jobsOf samples) job).idxOf job ∧
        Follows base (ctx.userId "engineer") registry (withJob (jobsOf samples) job)
          samples.length p.2 ∧
        st' = dataset base (ctx.userId "engineer") (withJob (jobsOf samples) job) samples) Exc := by
  subst hjob
  have hlookup := h.memo v hrow.version environment
  unfold deploymentFor
  unfold withJob at *
  by_cases hmem : jobFor v environment ∈ jobsOf samples
  · rw [if_pos hmem] at hlookup
    rw [hlookup]
    simp only [if_pos hmem, List.append_nil]
    exact .pure ⟨rfl, h, rfl⟩
  · rw [if_neg hmem] at hlookup
    rw [hlookup]
    simp only [if_neg hmem] at *
    obtain ⟨m, hmodel, hid⟩ := hrow.model
    refine loads_read (fun m' hm' => ?_) fun hnone => ?_
    · obtain rfl := Option.some.inj (hmodel.symm.trans hm')
      have hjob : jobFor v environment = ⟨m.id, v.id, environment, .succeeded, .none⟩ := by
        rw [jobFor, hid]
      refine .bind _ (loads_makeDeployment hjob (fun o ho => job_mem_jobsOf ho) hexc) ?_
      · rintro deployment st' ⟨rfl, rfl⟩
        refine .pure ⟨?_, ⟨h.memo.concat hrow.version hmem, ?_⟩, rfl⟩
        · rw [List.idxOf_append, if_neg hmem, List.idxOf_cons_self, Nat.zero_add]
          rfl
        · simp [h.counts]
    · rw [hmodel] at hnone
      exact absurd hnone (by simp)

/-- A row of a registered version whose environment is known: the rest of it is malformed, or it is
a sample. -/
theorem sampleOf_eq {row : CsvRow} {v : ModelVersion} {environment : Environment}
    (hversion : registry.versionOf row = some (some v))
    (henvironment : row.environment ctx = some environment) :
    sampleOf ctx registry (some row) = (row.text "version").bind fun text =>
      (reading ctx row).map fun r => some ⟨v, environment, text, r⟩ := by
  simp only [sampleOf, hversion, henvironment, Option.bind_eq_bind, Option.bind_some]
  cases row.text "version" with
  | none => rfl
  | some text => cases reading ctx row <;> rfl

/-- The store after one more row that is skipped or a sample. -/
def extended (base : SampleStore) (actorId : Option Uuid) (samples : List Sample)
    (o : Option Sample) : SampleStore :=
  dataset base actorId (jobsOf (samples ++ o.toList)) (samples ++ o.toList)

/-- A row of `metrics.csv` is skipped, or it adds a sample. -/
theorem loads_seedMetric (hm : Mirrors ctx s specs versions registry base) {samples : List Sample}
    {state : Deployments}
    (h : Follows base (ctx.userId "engineer") registry (jobsOf samples) samples.length state)
    (row : Option CsvRow)
    (hexc : (∀ o, sampleOf ctx registry row = some o →
      (extended base (ctx.userId "engineer") samples o).accepted postgresql = false) → Exc) :
    Loads (seedBackend postgresql) (dataset base (ctx.userId "engineer") (jobsOf samples) samples)
      (seedMetric ctx registry state row)
      (fun state' st' => ∃ o, sampleOf ctx registry row = some o ∧
        Follows base (ctx.userId "engineer") registry (jobsOf (samples ++ o.toList))
          (samples ++ o.toList).length state' ∧
        st' = extended base (ctx.userId "engineer") samples o) Exc := by
  -- A row that cannot be read is malformed.
  have hmalformed : sampleOf ctx registry row = none → Exc := fun hnone => hexc fun o ho => by
    rw [hnone] at ho
    exact absurd ho (by simp)
  refine loads_read (fun row hrow => ?_) fun hnone => hmalformed (by rw [hnone]; rfl)
  subst hrow
  refine loads_read (fun version hversion => ?_) fun hnone =>
    hmalformed (by simp [sampleOf, hnone])
  cases version with
  | none =>
    refine .pure ⟨none, ?_, ?_, ?_⟩
    · simp [sampleOf, hversion]
    · simpa using h
    · simp [extended]
  | some v =>
    have hnames := names_of_versionOf hm hversion
    refine loads_read (fun environment henvironment => ?_) fun hnone =>
      hmalformed (by simp [sampleOf, hversion, hnone])
    have hsample := sampleOf_eq hversion henvironment
    refine .bind _ (loads_deploymentFor h hnames rfl fun hrejected => hexc fun o ho => ?_) ?_
    · -- The deployment alone is rejected, and so is all that the row would lead to.
      obtain ⟨text, -, hread⟩ := Option.bind_eq_some_iff.mp (hsample.symm.trans ho)
      obtain ⟨r, -, rfl⟩ := Option.map_eq_some_iff.mp hread
      rw [Bool.eq_false_iff] at *
      refine fun haccepted => hrejected (SampleStore.Within.accepted ?_ haccepted)
      rw [extended, Option.toList_some, jobsOf_concat]
      exact dataset_within List.prefix_rfl (List.prefix_append _ _) fun o ho =>
        List.mem_append_left _ (job_mem_jobsOf ho)
    · rintro ⟨deployment, state'⟩ st' ⟨hid, hfollows, rfl⟩
      refine loads_read (fun text htext => ?_) fun hnone =>
        hmalformed (by rw [hsample, hnone]; rfl)
      refine loads_read (fun r hr => ?_) fun hnone =>
        hmalformed (by rw [hsample, htext, hnone]; rfl)
      have hjobs := jobsOf_concat samples ⟨v, environment, text, r⟩
      refine .stage (.pure ⟨some ⟨v, environment, text, r⟩, ?_, ⟨?_, ?_⟩, ?_⟩)
      · rw [hsample, htext, hr]
        rfl
      · rw [Option.toList_some, hjobs]
        exact hfollows.memo
      · rw [Option.toList_some, hjobs, hfollows.counts]
        simp [Sample.job]
      · rw [extended, Option.toList_some, hjobs, ← dataset_concat_sample, hid]
        rfl

/-- Before the first row nothing has been made. -/
theorem follows_nil (hm : Mirrors ctx s specs versions registry base) :
    Follows base actorId registry (jobsOf []) ([] : List Sample).length ⟨[], registry.counts⟩ := by
  refine ⟨fun v _ environment => ?_, ?_⟩
  · simp [jobsOf]
  · rw [hm.counts]
    rfl

/-- The loop over `metrics.csv` adds the samples of its rows, with a deployment for each job. It
raises if a row is malformed, or if the database rejects what it would lead to. -/
theorem loads_seedMetrics (hm : Mirrors ctx s specs versions registry base)
    (rows : List (Option CsvRow))
    (hexc : (∀ row ∈ rows, (sampleOf ctx registry row).isSome = true) →
      (dataset base (ctx.userId "engineer") (jobsOf (samplesOf ctx registry rows))
        (samplesOf ctx registry rows)).accepted postgresql = false → Exc)
    (hmalformed : (¬∀ row ∈ rows, (sampleOf ctx registry row).isSome = true) → Exc) :
    Loads (seedBackend postgresql) base
      (rows.foldlM (seedMetric ctx registry) ⟨[], registry.counts⟩)
      (fun state st' => (∀ row ∈ rows, (sampleOf ctx registry row).isSome = true) ∧
        state.counts = { registry.counts with
          deployments := (jobsOf (samplesOf ctx registry rows)).length
          metrics := (samplesOf ctx registry rows).length } ∧
        st' = dataset base (ctx.userId "engineer") (jobsOf (samplesOf ctx registry rows))
          (samplesOf ctx registry rows)) Exc := by
  refine .weaken (.foldlM_items
    (fun samples => dataset base (ctx.userId "engineer") (jobsOf samples) samples)
    (fun samples state =>
      Follows base (ctx.userId "engineer") registry (jobsOf samples) samples.length state)
    (follows_nil hm) ?_ (fun samples row state hfollows hrejected =>
      loads_seedMetric hm hfollows row hrejected) hexc hmalformed) ?_ id
  · intro samples more
    refine SampleStore.Within.accepted (dataset_within ?_ (List.prefix_append _ _) fun o ho =>
      job_mem_jobsOf ho)
    exact prefix_jobsOf _ _
  · rintro state st' ⟨hall, hfollows, rfl⟩
    exact ⟨hall, hfollows.counts, rfl⟩

/-! ## The loop over the failed deployments -/

/-- An entry of `deployment_events.json` is skipped, or it adds a deployment that has failed. -/
theorem loads_seedFailed {jobs : List Job} {samples : List Sample} {counts : SeedCounts}
    (hjobs : ∀ o ∈ samples, o.job ∈ jobs) (e : Json)
    (hexc : (∀ job, failedJob ctx registry e = some job →
      (dataset base (ctx.userId "engineer") (jobs ++ job.toList) samples).accepted postgresql =
        false) → Exc) :
    Loads (seedBackend postgresql) (dataset base (ctx.userId "engineer") jobs samples)
      (seedFailed ctx registry counts e)
      (fun counts' st' => ∃ job, failedJob ctx registry e = some job ∧
        counts' = { counts with deployments := counts.deployments + job.toList.length } ∧
        st' = dataset base (ctx.userId "engineer") (jobs ++ job.toList) samples) Exc := by
  -- An entry that cannot be read is malformed.
  have hmalformed : failedJob ctx registry e = none → Exc := fun hnone => hexc fun job hjob => by
    rw [hnone] at hjob
    exact absurd hjob (by simp)
  refine loads_read (fun status hstatus => ?_) fun hnone => hmalformed (by simp [failedJob, hnone])
  split_ifs with hsucceeded
  · exact .pure ⟨none, by simp [failedJob, hstatus, hsucceeded], rfl, by simp⟩
  refine loads_read (fun modelId hmodelId => ?_) fun hnone =>
    hmalformed (by simp [failedJob, hstatus, hsucceeded, hnone])
  refine loads_read (fun version hversion => ?_) fun hnone =>
    hmalformed (by simp [failedJob, hstatus, hsucceeded, hmodelId, hnone])
  cases hmodel : registry.model? modelId with
  | none =>
    exact .pure ⟨none, by simp [failedJob, hstatus, hmodelId, hversion, hmodel], rfl, by simp⟩
  | some model =>
    cases hv : registry.version? modelId version with
    | none =>
      exact .pure ⟨none, by simp [failedJob, hstatus, hmodelId, hversion, hmodel, hv], rfl,
        by simp⟩
    | some v =>
      have hjob : failedJob ctx registry e = (((e.item "environment").bind Json.text).bind
          fun value => Environment.ofValue (ctx.upper value)).bind fun environment =>
            (status.text.bind DeploymentStatus.ofValue).bind fun status =>
              ((e.item "event").bind ctx.errorTexts).map fun error =>
                some ⟨model.id, v.id, environment, status, error⟩ := by
        simp only [failedJob, hstatus, Option.bind_eq_bind, Option.bind_some, hsucceeded,
          if_false, hmodelId, hversion, hmodel, hv, Option.map_eq_bind]
        rfl
      refine loads_read (fun environment henvironment => ?_) fun hnone =>
        hmalformed (by rw [hjob, hnone]; rfl)
      refine loads_read (fun status hstatus => ?_) fun hnone =>
        hmalformed (by rw [hjob, henvironment, hnone]; rfl)
      refine loads_read (fun error herror => ?_) fun hnone =>
        hmalformed (by rw [hjob, henvironment, hstatus, hnone]; rfl)
      rw [henvironment, hstatus, herror] at hjob
      refine .bind _ (loads_makeDeployment rfl hjobs fun hrejected => hexc fun job hjob' => ?_) ?_
      · obtain rfl := Option.some.inj (hjob.symm.trans hjob')
        exact hrejected
      · rintro deployment st' ⟨-, rfl⟩
        exact .pure ⟨_, hjob, rfl, rfl⟩

/-- The loop over `deployment_events.json` adds a deployment for each failed job. -/
theorem loads_seedEntries {jobs : List Job} {samples : List Sample} {counts : SeedCounts}
    (hjobs : ∀ o ∈ samples, o.job ∈ jobs) (entries : List Json)
    (hexc : (∀ e ∈ entries, (failedJob ctx registry e).isSome = true) →
      (dataset base (ctx.userId "engineer") (jobs ++ failedJobs ctx registry entries)
        samples).accepted postgresql = false → Exc)
    (hmalformed : (¬∀ e ∈ entries, (failedJob ctx registry e).isSome = true) → Exc) :
    Loads (seedBackend postgresql) (dataset base (ctx.userId "engineer") jobs samples)
      (entries.foldlM (seedFailed ctx registry) counts)
      (fun counts' st' => (∀ e ∈ entries, (failedJob ctx registry e).isSome = true) ∧
        counts' = { counts with
          deployments := counts.deployments + (failedJobs ctx registry entries).length } ∧
        st' = dataset base (ctx.userId "engineer") (jobs ++ failedJobs ctx registry entries)
          samples) Exc := by
  have hloop := Loads.foldlM_items (b := seedBackend postgresql) (f := seedFailed ctx registry)
    (fun failed => dataset base (ctx.userId "engineer") (jobs ++ failed) samples)
    (fun failed counts' => counts' =
      { counts with deployments := counts.deployments + failed.length }) rfl ?_ ?_ hexc hmalformed
  · rw [List.append_nil] at hloop
    exact hloop
  · intro failed more
    rw [← List.append_assoc]
    refine SampleStore.Within.accepted (dataset_within (List.prefix_append _ _) List.prefix_rfl
      fun o ho => List.mem_append_left _ (hjobs o ho))
  · rintro failed e counts' rfl hrejected
    have hjobs' : ∀ o ∈ samples, o.job ∈ jobs ++ failed := fun o ho =>
      List.mem_append_left _ (hjobs o ho)
    refine (loads_seedFailed hjobs' e fun hentry => hrejected fun job hjob => ?_).weaken ?_ id
    · rw [← List.append_assoc]
      exact hentry job hjob
    · rintro counts'' st' ⟨job, hjob, rfl, rfl⟩
      refine ⟨job, hjob, ?_, by rw [List.append_assoc]⟩
      rw [List.length_append, ← Nat.add_assoc]

end

/-! ## The whole sample -/

/-- The entries of `deployment_events.json`, if it can be read. Without the file there are none. -/
def entriesOf (files : SampleFiles) : Option (List Json) :=
  match files.deploymentEvents with
  | none => some []
  | some json => json.bind Json.items

/-- No row of `metrics.csv` and no entry of `deployment_events.json` is malformed. -/
structure Readable (ctx : SeedContext) (registry : Registry) (files : SampleFiles)
    (entries : List Json) : Prop where
  rows : ∀ row ∈ files.metrics, (sampleOf ctx registry row).isSome = true
  file : entriesOf files = some entries
  entries : ∀ e ∈ entries, (failedJob ctx registry e).isSome = true

/-- The dataset of the files over a registry. -/
def seeded (ctx : SeedContext) (registry : Registry) (base : SampleStore)
    (rows : List (Option CsvRow)) (entries : List Json) : SampleStore :=
  dataset base (ctx.userId "engineer")
    (jobsOf (samplesOf ctx registry rows) ++ failedJobs ctx registry entries)
    (samplesOf ctx registry rows)

/-- The counts of the dataset. -/
def seededCounts (ctx : SeedContext) (registry : Registry) (rows : List (Option CsvRow))
    (entries : List Json) : SeedCounts :=
  { registry.counts with
    deployments := (jobsOf (samplesOf ctx registry rows)).length +
      (failedJobs ctx registry entries).length
    metrics := (samplesOf ctx registry rows).length }

section

variable {ctx : SeedContext} {registry : Registry} {s base : SampleStore} {files : SampleFiles}
variable {postgresql : Bool} {specs : List Json} {versions : List (Json × Json)}

/-- The second part of the seeder adds the dataset, unless something is malformed or the database
rejects it. -/
theorem loads_seedRuns (hm : Mirrors ctx s specs versions registry base) :
    Loads (seedBackend postgresql) base (seedRuns ctx registry files)
      (fun counts st' => ∃ entries, Readable ctx registry files entries ∧
        counts = seededCounts ctx registry files.metrics entries ∧
        st' = seeded ctx registry base files.metrics entries)
      (∀ entries, Readable ctx registry files entries →
        (seeded ctx registry base files.metrics entries).accepted postgresql = false) := by
  refine .bind _ (loads_seedMetrics hm files.metrics ?_ ?_) ?_
  · intro _ hrejected entries _
    rw [Bool.eq_false_iff] at *
    refine fun haccepted => hrejected (SampleStore.Within.accepted ?_ haccepted)
    exact dataset_within (List.prefix_append _ _) List.prefix_rfl fun o ho => job_mem_jobsOf ho
  · exact fun hmalformed entries hreadable => absurd hreadable.rows hmalformed
  · rintro state st' ⟨hrows, hcounts, rfl⟩
    unfold seedEvents
    cases hevents : files.deploymentEvents with
    | none =>
      have hfile : entriesOf files = some [] := by rw [entriesOf, hevents]
      refine .pure ⟨[], ⟨hrows, hfile, fun e he => absurd he List.not_mem_nil⟩, ?_, ?_⟩
      · rw [hcounts]
        rfl
      · rw [seeded, failedJobs, List.filterMap_nil, List.append_nil]
    | some json =>
      refine loads_read (fun entries hentries => ?_) fun hnone entries hreadable => ?_
      · have hfile : entriesOf files = some entries := by rw [entriesOf, hevents]; exact hentries
        have hsame : ∀ entries', Readable ctx registry files entries' → entries' = entries :=
          fun entries' hreadable => Option.some.inj (hreadable.file.symm.trans hfile)
        refine (loads_seedEntries (fun o ho => job_mem_jobsOf ho) entries ?_ ?_).weaken ?_ id
        · intro _ hrejected entries' hreadable
          obtain rfl := hsame entries' hreadable
          exact hrejected
        · intro hmalformed entries' hreadable
          obtain rfl := hsame entries' hreadable
          exact absurd hreadable.entries hmalformed
        · rintro counts st' ⟨hall, rfl, rfl⟩
          refine ⟨entries, ⟨hrows, hfile, hall⟩, ?_, rfl⟩
          rw [hcounts]
          rfl
      · have hfile := hreadable.file
        rw [entriesOf, hevents] at hfile
        exact absurd (hnone.symm.trans hfile) (by simp)

/-- The first part of the seeder, in a session of its own, returns a registry with `base` pending.
It does not depend on the other files. -/
def Registers (ctx : SeedContext) (postgresql : Bool) (files : SampleFiles) (s : SampleStore)
    (registry : Registry) (base : SampleStore) : Prop :=
  ∃ tx, (seedModels ctx files).solo (seedBackend postgresql) (.start s) = (.ok registry, tx) ∧
    tx.active = true ∧ tx.committed = s ∧ tx.pending (seedBackend postgresql) = base

/-- On tables without rows the seeder registers the models, goes on with the runs, and commits. -/
theorem solo_seedSampleData (hs : s.Blank) :
    (seedSampleData ctx files).solo (seedBackend postgresql) (.start s) =
      match (seedModels ctx files).solo (seedBackend postgresql) (.start s) with
      | (.ok registry, tx) => (seedRuns ctx registry files >>= fun counts =>
          commitExcept (raise .rejected) >>= fun _ => pure counts).solo (seedBackend postgresql) tx
      | (.error e, tx) => (.error e, tx) := by
  have hempty : ¬0 < s.db.models.rows.length := by
    rw [hs.models]
    exact Nat.lt_irrefl 0
  have hquery : (seedSampleData ctx files).solo (seedBackend postgresql) (.start s) =
      (seedEmpty ctx files).solo (seedBackend postgresql) (.start s) := by
    rw [seedSampleData, Program.solo_bind, Tx.start, Program.solo_query]
    dsimp only [List.foldl_nil]
    rw [if_neg hempty]
  rw [hquery, seedEmpty, seedRows, Program.solo_bind, Program.solo_bind]
  rcases (seedModels ctx files).solo (seedBackend postgresql) (.start s) with ⟨e | registry, tx⟩
  · rfl
  · simp only [Program.solo_bind]

/-- How the seeder ends on tables without rows: with the dataset of the files, or with the tables as
they were. -/
theorem ends_cases (hs : s.Blank) :
    (∃ registry base entries, Registers ctx postgresql files s registry base ∧
      Mirrors ctx s files.specs (versionEntries files.specs) registry base ∧
      (base.db.models.rows = [] → files.models.bind Json.items = some []) ∧
      Readable ctx registry files entries ∧
      (seeded ctx registry base files.metrics entries).accepted postgresql = true ∧
      ends ctx postgresql files s = (.ok (seededCounts ctx registry files.metrics entries),
        seeded ctx registry base files.metrics entries)) ∨
    ∃ e, ends ctx postgresql files s = (.error e, s) ∧
      ∀ registry base entries, Registers ctx postgresql files s registry base →
        Readable ctx registry files entries →
          (seeded ctx registry base files.metrics entries).accepted postgresql = false := by
  rw [ends, solo_seedSampleData hs]
  unfold Registers
  have hmodels : (_ : Prop) := @loads_seedModels ctx postgresql s hs files (.start s) rfl rfl
  revert hmodels
  rcases (seedModels ctx files).solo (seedBackend postgresql) (.start s) with ⟨e | registry, tx⟩
  · rintro ⟨hcommitted, -⟩
    refine Or.inr ⟨e, Prod.ext rfl hcommitted, ?_⟩
    rintro registry base entries ⟨tx', hmodels, -⟩
    exact absurd (congrArg Prod.fst hmodels) (by simp)
  · rintro ⟨hcommitted, hactive, hm, hnone⟩
    have hruns := @loads_seedRuns ctx registry s _ files postgresql _ _ hm
    have hend := hruns.commit .rejected tx hactive rfl
    dsimp only
    revert hend
    generalize (seedRuns ctx registry files >>= fun counts =>
      commitExcept (raise .rejected) >>= fun _ => pure counts).solo (seedBackend postgresql) tx = r
    rcases r with ⟨e | counts, tx'⟩
    · rintro ⟨hunchanged, hexc⟩
      refine Or.inr ⟨e, Prod.ext rfl (hunchanged.trans hcommitted), ?_⟩
      rintro registry' base entries ⟨tx'', hmodels, -, -, rfl⟩ hreadable
      obtain ⟨hregistry, htx⟩ := Prod.mk.inj hmodels
      obtain rfl := Except.ok.inj hregistry
      obtain rfl := htx
      rcases hexc with hexc | ⟨counts, st', ⟨entries', hreadable', -, rfl⟩, hrejected⟩
      · exact hexc entries hreadable
      · obtain rfl := Option.some.inj (hreadable.file.symm.trans hreadable'.file)
        exact hrejected
    · rintro ⟨⟨entries, hreadable, hcounts, hstore⟩, haccepted⟩
      refine Or.inl ⟨registry, _, entries, ⟨tx, rfl, hactive, hcommitted, rfl⟩, hm, hnone,
        hreadable, ?_, ?_⟩
      · rw [← hstore]
        exact haccepted
      · rw [hcounts, hstore]

end

end Seeding

end MlopsPlatform
