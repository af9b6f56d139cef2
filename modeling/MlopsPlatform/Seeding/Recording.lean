import MlopsPlatform.Seeding.Dataset

/-!
# What the seeder records

The seeder looks once whether the registry is empty, and commits much later, when other sessions may
have added rows of their own. `seedEmpty` is what it does once it has looked, and `Adds` is what the
commit does to the deployments and their timelines, whatever is in the tables by then: a deployment
that it makes gets all of its timeline in this one transaction. `adds_seedsTo` carries that through
the loops.
-/

namespace MlopsPlatform

open Transaction

namespace Seeding

/-! ## The seeder after it has looked at the registry -/

/-- The database after the transaction of a seeder that has found the registry empty. -/
def seedsTo (ctx : SeedContext) (postgresql : Bool) (files : SampleFiles) (s : SampleStore) :
    SampleStore := ((seedEmpty ctx files).solo (seedBackend postgresql) (.start s)).2.committed

/-! ## What is added to the deployments and to their timelines -/

/-- The deployment has two events among those with the ids from `n` on. -/
def ToldTwice (n : Uuid) (db : Db) (d : Deployment) : Prop :=
  ∃ a ∈ db.deploymentEvents, ∃ b ∈ db.deploymentEvents,
    n ≤ a.id ∧ a.id < b.id ∧ a.deploymentId = d.id ∧ b.deploymentId = d.id

/-- What the seeder adds to the deployments and their events. -/
structure Adds (s st : SampleStore) : Prop where
  deployments : s.db.deployments.rows <+: st.db.deployments.rows
  events : ∀ e ∈ s.db.deploymentEvents, e ∈ st.db.deploymentEvents
  next : s.db.deploymentEvents.next ≤ st.db.deploymentEvents.next
  /-- An event that is added has a new id, and is about a deployment that is there. -/
  known : ∀ e ∈ st.db.deploymentEvents, e ∈ s.db.deploymentEvents ∨
    s.db.deploymentEvents.next ≤ e.id ∧ ∃ d ∈ st.db.deployments, d.id = e.deploymentId
  /-- Nothing is added, or there is a new deployment with more than one event. -/
  told : (st.db.deployments = s.db.deployments ∧
      st.db.deploymentEvents = s.db.deploymentEvents) ∨
    (s.db.deployments.rows.length < st.db.deployments.rows.length ∧
      ∃ d ∈ st.db.deployments, ToldTwice s.db.deploymentEvents.next st.db d)

section

variable {ctx : SeedContext} {postgresql : Bool} {s st : SampleStore}

/-- At first nothing is added. -/
theorem adds_refl (s : SampleStore) : Adds s s :=
  ⟨List.prefix_rfl, fun _ he => he, Nat.le_refl _, fun _ he => Or.inl he, Or.inl ⟨rfl, rfl⟩⟩

/-- Rows of other tables do not matter. -/
theorem Adds.other (h : Adds s st) {st' : SampleStore}
    (hdeployments : st'.db.deployments = st.db.deployments)
    (hevents : st'.db.deploymentEvents = st.db.deploymentEvents) : Adds s st' := by
  obtain ⟨hd, he, hn, hk, ht⟩ := h
  unfold ToldTwice at ht
  refine ⟨?_, ?_, ?_, ?_, ?_⟩
  · rw [hdeployments]
    exact hd
  · rw [hevents]
    exact he
  · rw [hevents]
    exact hn
  · rw [hdeployments, hevents]
    exact hk
  · unfold ToldTwice
    rw [hdeployments, hevents]
    exact ht

/-- The timeline of a deployment has at least two steps. -/
theorem exists_steps (status : DeploymentStatus) (error : ErrorTexts) :
    ∃ x y rest, steps status error = x :: y :: rest := by
  unfold steps
  split_ifs
  · exact ⟨_, _, _, rfl⟩
  · exact ⟨_, _, _, rfl⟩

/-- A new deployment with its timeline. -/
theorem Adds.deployment (h : Adds s st) (job : Job) (actorId : Option Uuid) :
    Adds s (((job.timeline st.db.deployments.next).map SampleRow.deploymentEvent).foldl
      SampleStore.insert (st.insert (.deployment (job.draft actorId)))) := by
  rw [foldl_deploymentEvent]
  have hnew : (job.draft actorId).1 st.db.deployments.next ∈
      st.db.deployments.insert (job.draft actorId) := Table.mem_insert.mpr (Or.inr rfl)
  have hid : ((job.draft actorId).1 st.db.deployments.next).id = st.db.deployments.next :=
    (job.draft actorId).2 _
  refine ⟨?_, ?_, ?_, ?_, Or.inr ⟨?_, _, hnew, ?_⟩⟩
  · exact h.deployments.trans (List.prefix_append _ _)
  · exact fun e he => Table.mem_insertAll_of_mem (h.events e he)
  · have hnext := h.next
    show s.db.deploymentEvents.next ≤
      (st.db.deploymentEvents.insertAll (job.timeline st.db.deployments.next)).next
    rw [Table.next_insertAll]
    omega
  · intro e he
    rcases Table.mem_insertAll he with he | ⟨draft, hdraft, n, hn, rfl⟩
    · refine (h.known e he).imp_right ?_
      rintro ⟨hnext, d, hd, hde⟩
      exact ⟨hnext, d, Table.mem_insert.mpr (Or.inl hd), hde⟩
    · obtain ⟨step, -, rfl⟩ := List.mem_map.mp hdraft
      exact Or.inr ⟨h.next.trans hn, _, hnew, hid⟩
  · refine h.deployments.length_le.trans_lt ?_
    show _ < (st.db.deployments.rows ++ [_]).length
    rw [List.length_append]
    exact Nat.lt_succ_self _
  · obtain ⟨x, y, rest, hsteps⟩ := exists_steps job.status job.error
    have htimeline : job.timeline st.db.deployments.next =
        newDeploymentEvent st.db.deployments.next x ::
          newDeploymentEvent st.db.deployments.next y ::
            rest.map (newDeploymentEvent st.db.deployments.next) := by
      rw [Job.timeline, hsteps]
      rfl
    have hmem : ∀ (i : ℕ) (draft : Table.Draft DeploymentEvent.id),
        (job.timeline st.db.deployments.next)[i]? = some draft →
          draft.1 (st.db.deploymentEvents.next + i) ∈
            st.db.deploymentEvents.insertAll (job.timeline st.db.deployments.next) :=
      fun i draft hdraft => Table.mem_insertAll_iff.mpr (Or.inr ⟨i, draft, hdraft, rfl⟩)
    refine ⟨_, hmem 0 (newDeploymentEvent st.db.deployments.next x) ?_, _,
      hmem 1 (newDeploymentEvent st.db.deployments.next y) ?_, h.next, Nat.lt_succ_self _, hid.symm,
      hid.symm⟩
    · rw [htimeline]
      rfl
    · rw [htimeline]
      rfl

/-! ## The loops -/

/-- The part of the seeder keeps what it has added so far within `Adds`. -/
def Keeps {α : Type} (postgresql : Bool) (p : Seeding α) : Prop :=
  ∀ s st, Adds s st → Loads (seedBackend postgresql) st p (fun _ st' => Adds s st') True

/-- Reading a file adds nothing. -/
theorem keeps_read {α β : Type} {o : Option α} {f : α → Seeding β}
    (h : ∀ a, Keeps postgresql (f a)) : Keeps postgresql (read o >>= f) :=
  fun s st hadds => loads_read (fun a _ => h a s st hadds) fun _ => trivial

/-- One part after another. -/
theorem keeps_bind {α β : Type} {p : Seeding α} {f : α → Seeding β} (hp : Keeps postgresql p)
    (hf : ∀ a, Keeps postgresql (f a)) : Keeps postgresql (p >>= f) :=
  fun s st hadds => .bind _ (hp s st hadds) fun a st' hadds' => hf a s st' hadds'

/-- Returning adds nothing. -/
theorem keeps_pure {α : Type} (a : α) : Keeps postgresql (pure a : Seeding α) :=
  fun _ _ hadds => .pure hadds

/-- A loop. -/
theorem keeps_foldlM {α β : Type} {f : β → α → Seeding β} (h : ∀ acc x, Keeps postgresql (f acc x))
    (xs : List α) (acc : β) : Keeps postgresql (xs.foldlM f acc) :=
  fun s _ hadds => .foldlM (fun _ _ st => Adds s st) (fun x _ acc st hst => h acc x s st hst) xs acc
    hadds

/-- `_make_deployment` adds a deployment with its timeline. -/
theorem keeps_makeDeployment (model : Model) (version : ModelVersion) (environment : Environment)
    (status : DeploymentStatus) (error : ErrorTexts) (actorId : Option Uuid) :
    Keeps postgresql (makeDeployment model version environment status error actorId) := by
  intro s st hadds
  refine .addFlush (fun _ => ?_) fun _ => trivial
  have hid : ∀ draft, ((seedBackend postgresql).write st
      (.deployment draft)).db.deployments.lastKey = st.db.deployments.next :=
    fun draft => Table.lastKey_insert
  rw [hid]
  refine .addAll (.pure ?_)
  have hadded := hadds.deployment ⟨model.id, version.id, environment, status, error⟩ actorId
  rw [Job.timeline, List.map_map] at hadded
  exact hadded

/-- A version of the registry. -/
theorem keeps_seedVersion (modelId : Json.Key) (model : Model) (registry : Registry)
    (vspec : Json) :
    Keeps postgresql (seedVersion ctx modelId model registry vspec) := by
  refine keeps_read fun stage => keeps_read fun approved => keeps_read fun text =>
    keeps_read fun artifactUri => fun s st hadds => ?_
  refine .addFlush (fun _ => loads_read (fun _ _ => .addAll (.pure ?_)) fun _ => trivial)
    fun _ => trivial
  show Adds s (List.foldl SampleStore.insert _ (List.map SampleRow.versionEvent _))
  rw [foldl_versionEvent]
  exact hadds.other rfl rfl

/-- A model of the registry. -/
theorem keeps_seedModel (registry : Registry) (spec : Json) :
    Keeps postgresql (seedModel ctx registry spec) := by
  refine keeps_read fun key => keeps_read fun name => keeps_read fun owner =>
    keeps_read fun framework => fun s st hadds => ?_
  refine .addFlush (fun _ => ?_) fun _ => trivial
  refine keeps_read (fun modelId => keeps_read fun vspecs => ?_) s _ (hadds.other rfl rfl)
  exact keeps_foldlM (fun registry vspec => keeps_seedVersion _ _ registry vspec) vspecs _

/-- A row of `metrics.csv`. -/
theorem keeps_seedMetric (registry : Registry) (state : Deployments) (row : Option CsvRow) :
    Keeps postgresql (seedMetric ctx registry state row) := by
  refine keeps_read fun row => keeps_read fun version => ?_
  cases version with
  | none => exact keeps_pure state
  | some v =>
    refine keeps_read fun environment => keeps_bind ?_ fun p => keeps_read fun text =>
      keeps_read fun r => fun s st hadds => .stage (.pure (hadds.other rfl rfl))
    unfold deploymentFor
    cases state.deploymentsByCombo.lookup (v.id, environment) with
    | some deployment => exact keeps_pure _
    | none =>
      exact keeps_read fun model => keeps_bind (keeps_makeDeployment _ _ _ _ _ _) fun deployment =>
        keeps_pure _

/-- An entry of `deployment_events.json`. -/
theorem keeps_seedFailed (registry : Registry) (counts : SeedCounts) (e : Json) :
    Keeps postgresql (seedFailed ctx registry counts e) := by
  refine keeps_read fun status => ?_
  split_ifs
  · exact keeps_pure counts
  · refine keeps_read fun modelId => keeps_read fun version => ?_
    cases registry.model? modelId with
    | none => exact keeps_pure counts
    | some model =>
      cases registry.version? modelId version with
      | none => exact keeps_pure counts
      | some v =>
        exact keeps_read fun environment => keeps_read fun status => keeps_read fun error =>
          keeps_bind (keeps_makeDeployment _ _ _ _ _ _) fun deployment => keeps_pure _

/-- All rows of the sample. -/
theorem keeps_seedRows (files : SampleFiles) : Keeps postgresql (seedRows ctx files) := by
  refine keeps_bind (keeps_read fun specs => keeps_foldlM keeps_seedModel specs _) fun registry =>
    keeps_bind (keeps_foldlM (keeps_seedMetric registry) files.metrics _) fun state => ?_
  unfold seedEvents
  cases files.deploymentEvents with
  | none => exact keeps_pure _
  | some json => exact keeps_read fun entries => keeps_foldlM (keeps_seedFailed registry) entries _

/-- What the transaction of the seeder adds. -/
theorem adds_seedsTo (ctx : SeedContext) (postgresql : Bool) (files : SampleFiles)
    (s : SampleStore) : Adds s (seedsTo ctx postgresql files s) := by
  have hkeeps : Keeps postgresql (seedRows ctx files) := keeps_seedRows files
  have hrun := (hkeeps s s (adds_refl s)).commit .rejected (.start s) rfl rfl
  have hsolo : seedsTo ctx postgresql files s = ((seedRows ctx files >>= fun counts =>
      commitExcept (raise .rejected) >>= fun _ => pure counts).solo (seedBackend postgresql)
        (.start s)).2.committed := rfl
  rw [hsolo]
  revert hrun
  generalize (seedRows ctx files >>= fun counts =>
    commitExcept (raise .rejected) >>= fun _ => pure counts).solo (seedBackend postgresql)
      (.start s) = r
  rcases r with ⟨e | counts, tx⟩
  · rintro ⟨hunchanged, -⟩
    dsimp only
    rw [hunchanged]
    exact adds_refl s
  · exact And.left

end

end Seeding

end MlopsPlatform
