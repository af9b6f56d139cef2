import MlopsPlatform.Atomic

/-!
# One active deployment for a model and an environment

`uq_active_deployment` keeps two deployments of one model from being in flight in one environment.
`request_deployment` and `retry_deployment` rely on it: they catch its `IntegrityError`. The other
writers do not, and do not need it: what they write was in flight before, or leaves the in-flight
statuses (`RowStep.inFlight_of_unguarded`). So the runs here have a database that checks those two
writers only. The index is over the denormalized `model_id`, which is the model of the deployment's
version in every state reached (`Db.Joined`).
-/

namespace MlopsPlatform

open Transition

variable {lower : String → String} {checked : Writer → Bool}

/-- The writers that catch an `IntegrityError` of the deployments' indexes. -/
def Writer.guarded : Writer → Bool
  | api (.requestDeployment _ _ _) => true
  | api (.retryDeployment _ _) => true
  | _ => false

/-- The denormalized `model_id` of a deployment is the model of its version. -/
def Db.Joined (db : Db) : Prop :=
  ∀ d ∈ db.deployments, ∃ v, db.versions.get? d.modelVersionId = some v ∧ v.modelId = d.modelId

/-- The commit of a writer that the index does not guard brings no row into flight. -/
theorem RowStep.inFlight_of_unguarded {db : Db} {w : Writer} {d d' : Deployment}
    (h : RowStep db w d d') (hw : w.guarded = false) (hd' : d'.inFlight = true) :
    d.inFlight = true := by
  refine (h.inFlight hd').resolve_right ?_
  rintro ⟨actorId, rfl⟩
  exact absurd hw (by simp [Writer.guarded])

/-- Uniqueness of the active deployment as a statement about any two rows. -/
theorem Db.uniqueActiveDeployment_iff {db : Db} :
    db.UniqueActiveDeployment ↔ ∀ a ∈ db.deployments, ∀ b ∈ db.deployments,
      a.inFlight = true → b.inFlight = true → a.modelId = b.modelId →
      a.environment = b.environment → a = b := by
  unfold Db.UniqueActiveDeployment
  rw [Table.pairwise_iff]
  · constructor
    · intro h a ha b hb hfa hfb hm he
      by_contra hne
      have hid : a.id ≠ b.id := fun hid => hne (db.deployments.eq_of_key_eq ha hb hid)
      exact h a ha b hb hid ⟨hfa, hfb, hm, he⟩
    · rintro h a ha b hb hid ⟨hfa, hfb, hm, he⟩
      exact hid (congrArg Deployment.id (h a ha b hb hfa hfb hm he))
  · rintro a b hab ⟨hfb, hfa, hm, he⟩
    exact hab ⟨hfa, hfb, hm.symm, he.symm⟩

/-- A unit of work that inserts no deployment and brings no row into flight keeps the active
deployments unique. -/
theorem uniqueActive_write {db : Db} {u : UnitOfWork} (h : db.UniqueActiveDeployment)
    (hinsert : ∀ deployment event, u ≠ .insertDeployment deployment event)
    (hflight : ∀ d ∈ db.deployments, (u.onDeployment d).inFlight = true → d.inFlight = true) :
    (db.write u).UniqueActiveDeployment := by
  rw [Db.uniqueActiveDeployment_iff] at h ⊢
  -- Every row comes from a stored one of the same model and environment.
  have hold : ∀ d ∈ (db.write u).deployments, ∃ e ∈ db.deployments, d = u.onDeployment e := by
    intro d hd
    rcases Db.mem_deployments_write hd with hold | ⟨deployment, event, hu, -⟩
    · exact hold
    · exact absurd hu (hinsert deployment event)
  intro a' ha' b' hb' hfa hfb hm he
  obtain ⟨a, ha, rfl⟩ := hold a' ha'
  obtain ⟨b, hb, rfl⟩ := hold b' hb'
  obtain ⟨hma, -, hea⟩ := u.onDeployment_frame a
  obtain ⟨hmb, -, heb⟩ := u.onDeployment_frame b
  rw [hma, hmb] at hm
  rw [hea, heb] at he
  -- Both were in flight before, so they were the same row.
  rw [h a ha b hb (hflight a ha hfa) (hflight b hb hfb) hm he]

/-- The commit of an atomic step that the index does not guard keeps the active deployments
unique. -/
theorem AtomicWrite.uniqueActive {db : Db} {w : Writer} {u : UnitOfWork}
    (h : AtomicWrite lower db w u) (hw : w.guarded = false) (hdb : db.UniqueActiveDeployment) :
    (db.write u).UniqueActiveDeployment := by
  refine uniqueActive_write hdb ?_ ?_
  · rintro deployment event rfl
    obtain ⟨actorId, correlationId, data, v, rfl, -⟩ := h.insert
    exact absurd hw (by simp [Writer.guarded])
  · intro d hd hflight
    exact (h.rowStep hd).inFlight_of_unguarded hw hflight

/-- The constraints accept an update of deployments that keeps the active ones unique. -/
theorem constraints_of_uniqueActive {db : Db} (h : db.Constraints) {dirty : List DirtyDeployment}
    {events : List (Table.Draft DeploymentEvent.id)}
    (hactive : (db.write (.updateDeployments dirty events)).UniqueActiveDeployment) :
    (db.write (.updateDeployments dirty events)).Constraints := by
  obtain ⟨hmodels, hversions, hkeys, -⟩ := h
  refine ⟨hmodels, hversions, ?_, hactive⟩
  -- The rows keep their keys.
  refine List.pairwise_map.mpr (hkeys.imp fun hab => ?_)
  rw [UnitOfWork.onDeployment_idempotencyKey, UnitOfWork.onDeployment_idempotencyKey]
  exact hab

/-- The constraints accept an update of deployments that brings no row into flight. -/
theorem constraints_updateDeployments {db : Db} (h : db.Constraints) {dirty : List DirtyDeployment}
    {events : List (Table.Draft DeploymentEvent.id)}
    (hflight : ∀ d ∈ db.deployments,
      ((UnitOfWork.updateDeployments dirty events).onDeployment d).inFlight = true →
        d.inFlight = true) : (db.write (.updateDeployments dirty events)).Constraints :=
  constraints_of_uniqueActive h (uniqueActive_write h.2.2.2 (by simp) hflight)

/-- The constraints accept a new deployment exactly when no row has its key, and when it is not in
flight beside another row of its model in its environment. -/
theorem constraints_insertDeployment_iff {db : Db} (h : db.Constraints)
    {deployment : Table.Draft Deployment.id} {event : Uuid → Table.Draft DeploymentEvent.id}
    {d : Deployment} (hd : deployment.1 db.deployments.next = d) :
    (db.write (.insertDeployment deployment event)).Constraints ↔
      (∀ e ∈ db.deployments, e.idempotencyKey.isSome = true →
        e.idempotencyKey ≠ d.idempotencyKey) ∧
      ∀ e ∈ db.deployments, e.inFlight = true → d.inFlight = true → e.modelId = d.modelId →
        e.environment ≠ d.environment := by
  obtain ⟨hmodels, hversions, hkeys, hactive⟩ := h
  have hrows : (db.write (.insertDeployment deployment event)).deployments.rows =
      db.deployments.rows ++ [d] := by
    rw [← hd]
    rfl
  -- The old rows agree with each other, so only the new one is compared with them.
  simp only [Db.Constraints, Db.UniqueModelKey, Db.UniqueModelVersion, Db.UniqueIdempotencyKey,
    Db.UniqueActiveDeployment, hrows, List.pairwise_append, List.pairwise_singleton,
    List.mem_singleton, forall_eq, true_and]
  constructor
  · rintro ⟨-, -, ⟨-, hkey⟩, -, hflight⟩
    exact ⟨fun e he hsome heq => hkey e he ⟨hsome, heq⟩,
      fun e he hfe hfd hm henv => hflight e he ⟨hfe, hfd, hm, henv⟩⟩
  · rintro ⟨hkey, hflight⟩
    exact ⟨hmodels, hversions, ⟨hkeys, fun e he ⟨hsome, heq⟩ => hkey e he hsome heq⟩, hactive,
      fun e he ⟨hfe, hfd, hm, henv⟩ => hflight e he hfe hfd hm henv⟩

/-- The constraints accept every commit of an atomic step of a worker or a reaper. -/
theorem AtomicWrite.accepted {db : Db} {w : Writer} {u : UnitOfWork} (h : AtomicWrite lower db w u)
    (hw : w.isApi = false) (hdb : db.Constraints) : (db.write u).Constraints := by
  have hguarded : w.guarded = false := by
    cases w with
    | api call => exact absurd hw (by simp [Writer.isApi])
    | worker => rfl
    | reaper => rfl
  have hupdates : ∃ dirty events, u = .updateDeployments dirty events := by
    cases h with
    | call hc => exact absurd hw (by simp [Writer.isApi])
    | claim hx => exact ⟨_, _, rfl⟩
    | validation => exact ⟨_, _, rfl⟩
    | segment hmem hrun hwrite => exact ⟨_, _, rfl⟩
    | reap hr =>
      obtain ⟨stuck, -, rfl⟩ := reapStuck_eq_some hr
      exact ⟨_, _, rfl⟩
  obtain ⟨dirty, events, rfl⟩ := hupdates
  refine constraints_updateDeployments hdb fun d hd hflight => ?_
  exact (h.rowStep hd).inFlight_of_unguarded hguarded hflight

/-- A pass of the reaper keeps the active deployments unique whatever batch of running rows it
takes. -/
theorem uniqueActive_reap {db : Db} (hdb : db.UniqueActiveDeployment) {batch : List Deployment}
    (hbatch : ∀ d ∈ batch, d ∈ db.deployments ∧ d.running = true)
    (events : List (Table.Draft DeploymentEvent.id)) :
    (db.write (.updateDeployments (batch.map fun d => ⟨d, reaped d⟩) events)).UniqueActiveDeployment
    := by
  apply uniqueActive_write hdb (by simp)
  intro d hd hflight
  rcases UnitOfWork.onDeployment_cases
    (.updateDeployments (batch.map fun d => ⟨d, reaped d⟩) events) d with heq |
    ⟨dirty, events', x, hu, hx, hid, -⟩
  · rw [heq] at hflight
    exact hflight
  · obtain ⟨rfl, rfl⟩ := UnitOfWork.updateDeployments.inj hu
    obtain ⟨e, he, rfl⟩ := List.mem_map.mp hx
    obtain ⟨hmem, hrun⟩ := hbatch e he
    obtain rfl : e = d := db.deployments.eq_of_key_eq hmem hd hid
    exact Deployment.inFlight_of_running hrun

/-- The commit of an atomic step keeps every deployment joined to its version. -/
theorem AtomicWrite.joined {db : Db} {w : Writer} {u : UnitOfWork} (h : AtomicWrite lower db w u)
    (hdb : db.Joined) : (db.write u).Joined := by
  intro d hd
  rcases Db.mem_deployments_write hd with ⟨e, he, rfl⟩ | ⟨deployment, event, rfl, rfl⟩
  · obtain ⟨v, hv, hmodel⟩ := hdb e he
    obtain ⟨hm, hversion, -⟩ := u.onDeployment_frame e
    refine ⟨u.onVersion v, ?_, ?_⟩
    · rw [hversion]
      exact Db.get?_versions_write u hv
    · rw [u.onVersion_modelId, hmodel, hm]
  · -- A request copies the model of the version that it has read.
    obtain ⟨actorId, correlationId, data, v, -, hv, -, hrow⟩ := h.insert
    rw [hrow]
    exact ⟨v, hv, rfl⟩

/-- In every run of atomic steps from an empty deployments table, deployments are joined to their
versions and the active ones are unique, although the database checks the guarded writers only. -/
theorem reach_exclusive (hchecked : ∀ w : Writer, w.guarded = true → checked w = true)
    {s₀ s : State} (hempty : ∀ d, d ∉ s₀.shared.deployments) (hidle : ∀ i, s₀.locals i = .idle)
    (h : Reach (stepWith lower checked) AtomicSteps s₀ s) :
    (s.shared.Joined ∧ s.shared.UniqueActiveDeployment) ∧ s.HoldsValidations := by
  refine reach_atomic (I := fun db => db.Joined ∧ db.UniqueActiveDeployment) h ?_ hidle ?_
  · refine ⟨fun d hd => absurd hd (hempty d), ?_⟩
    rw [Db.uniqueActiveDeployment_iff]
    exact fun a ha => absurd ha (hempty a)
  · rintro db w u ⟨hjoined, hunique⟩ hatomic hcons
    refine ⟨hatomic.joined hjoined, ?_⟩
    -- The index rejects what a guarded writer must not store, and the others store nothing new.
    cases hw : w.guarded with
    | true => exact (hcons (hchecked w hw)).2.2.2
    | false => exact hatomic.uniqueActive hw hunique

/-- In every run of atomic steps from an empty deployments table, at most one deployment of a model,
through whichever of its versions, is in flight in an environment. Only `request_deployment` and
`retry_deployment` attempt a write that breaks this: every other commit keeps it without the index,
and so does a pass of the reaper over any batch of running rows. -/
theorem exclusive_of_reach (hchecked : ∀ w : Writer, w.guarded = true → checked w = true)
    {s₀ s : State} (hempty : ∀ d, d ∉ s₀.shared.deployments) (hidle : ∀ i, s₀.locals i = .idle)
    (h : Reach (stepWith lower checked) AtomicSteps s₀ s) :
    (∀ d ∈ s.shared.deployments,
      (s.shared.versions.get? d.modelVersionId).map ModelVersion.modelId = some d.modelId) ∧
    (∀ modelId environment, ∀ a ∈ s.shared.deployments, ∀ b ∈ s.shared.deployments,
      (s.shared.versions.get? a.modelVersionId).map ModelVersion.modelId = some modelId →
      (s.shared.versions.get? b.modelVersionId).map ModelVersion.modelId = some modelId →
      a.environment = environment → b.environment = environment →
      a.inFlight = true → b.inFlight = true → a = b) ∧
    (∀ i a w u, AtomicSteps s (i, a) → committed lower s.shared (s.locals i) a = some (w, u) →
      w.guarded = false → (s.shared.write u).UniqueActiveDeployment) ∧
    (∀ batch : List Deployment, (∀ d ∈ batch, d ∈ s.shared.deployments ∧ d.running = true) →
      ∀ events, (s.shared.write (.updateDeployments (batch.map fun d => ⟨d, reaped d⟩)
        events)).UniqueActiveDeployment) := by
  obtain ⟨⟨hjoined, hunique⟩, hheld⟩ := reach_exclusive hchecked hempty hidle h
  have hmodel : ∀ d ∈ s.shared.deployments,
      (s.shared.versions.get? d.modelVersionId).map ModelVersion.modelId = some d.modelId := by
    intro d hd
    obtain ⟨v, hv, hm⟩ := hjoined d hd
    rw [hv, Option.map_some, hm]
  refine ⟨hmodel, ?_, ?_, fun batch hbatch events => uniqueActive_reap hunique hbatch events⟩
  · intro modelId environment a ha b hb hma hmb hea heb hfa hfb
    rw [hmodel a ha] at hma
    rw [hmodel b hb] at hmb
    refine Db.uniqueActiveDeployment_iff.mp hunique a ha b hb hfa hfb ?_ ?_
    · exact Option.some.inj (hma.trans hmb.symm)
    · rw [hea, heb]
  · intro i a w u hok hcom hw
    exact (hheld.committed hok hcom).uniqueActive hw hunique

/-- The registry that `registration` sets up, without deployments and sessions. -/
def registered : State := ⟨(exec (step id) AtomicSteps .init registration).shared, fun _ => .idle⟩

/-- Two versions of a model contend for development: a worker crashes with the first job, and the
reaper re-queues it. -/
def contentionRun : List (ℕ × Action) :=
  [(0, request 1 .development false), (0, request 2 .development false),
    (1, .claim "a" 10 []), (1, .crash), (2, .reap 200 120), (3, .claim "b" 210 []), (3, .commit),
    (3, .work)]

/-- The active deployment at the end of `contentionRun`, from a registry with two versions and a
database that checks the guarded writers only. -/
theorem exclusive_of_reach_contentionRun :
    ∃ s₀ s, (∀ d, d ∉ s₀.shared.deployments) ∧
      Reach (stepWith id Writer.guarded) AtomicSteps s₀ s ∧
      s.shared.deployments.rows.map Deployment.status = [.deploying] ∧
      (∀ d ∈ s.shared.deployments,
        (s.shared.versions.get? d.modelVersionId).map ModelVersion.modelId = some d.modelId) ∧
      (∀ modelId environment, ∀ a ∈ s.shared.deployments, ∀ b ∈ s.shared.deployments,
        (s.shared.versions.get? a.modelVersionId).map ModelVersion.modelId = some modelId →
        (s.shared.versions.get? b.modelVersionId).map ModelVersion.modelId = some modelId →
        a.environment = environment → b.environment = environment →
        a.inFlight = true → b.inFlight = true → a = b) ∧
      (∀ i a w u, AtomicSteps s (i, a) → committed id s.shared (s.locals i) a = some (w, u) →
        w.guarded = false → (s.shared.write u).UniqueActiveDeployment) ∧
      (∀ batch : List Deployment, (∀ d ∈ batch, d ∈ s.shared.deployments ∧ d.running = true) →
        ∀ events, (s.shared.write (.updateDeployments (batch.map fun d => ⟨d, reaped d⟩)
          events)).UniqueActiveDeployment) := by
  have hempty : ∀ d, d ∉ registered.shared.deployments := fun d => List.not_mem_nil (a := d)
  have hreach := exec_reach (stepWith id Writer.guarded) AtomicSteps registered contentionRun
  exact ⟨registered, _, hempty, hreach, by decide,
    exclusive_of_reach (fun _ h => h) hempty (fun _ => rfl) hreach⟩

end MlopsPlatform
