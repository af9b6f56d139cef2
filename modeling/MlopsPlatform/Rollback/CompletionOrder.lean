import MlopsPlatform.Queue.Exclusivity

/-!
# The order of completion

`rollback_deployment` goes back by id, that is by the time of the request, and the deployment that
was running before is the one that completed before. The two orders agree while the in-flight guard
serializes requests and completions: a deployment can only be requested when no other one of its
model and environment is in flight, and it completes before the next one is requested. Only a retry
breaks this. It puts an old FAILED deployment in flight again, and the deployment may then complete
after a newer one (`rollback_to_later_completion`). In runs in which no deployment is retried past a
newer SUCCEEDED one (`RetriesNewest`) the two orders are the same.
-/

namespace MlopsPlatform

open Transition

variable {lower : String → String}

/-! ## Completions on the timeline -/

/-- The entry records the completion of a deployment. -/
def DeploymentEvent.completes (e : DeploymentEvent) (id : Uuid) : Bool :=
  e.deploymentId = id && e.event = "deployment_completed"

/-- The latest `deployment_completed` of a deployment. -/
def Db.lastCompleted (db : Db) (id : Uuid) : Option DeploymentEvent :=
  db.deploymentEvents.last? fun e => e.completes id

/-- The latest completion of one deployment was recorded before that of another one. -/
def Db.CompletedBefore (db : Db) (t d : Deployment) : Prop :=
  ∃ e f, db.lastCompleted t.id = some e ∧ db.lastCompleted d.id = some f ∧ e.id < f.id

/-- No deployment completed before one that completed before it. -/
theorem Db.CompletedBefore.asymm {db : Db} {t d : Deployment} (h : db.CompletedBefore t d) :
    ¬db.CompletedBefore d t := by
  rintro ⟨f', e', hf', he', hlt'⟩
  obtain ⟨e, f, he, hf, hlt⟩ := h
  obtain rfl := Option.some.inj (he.symm.trans he')
  obtain rfl := Option.some.inj (hf.symm.trans hf')
  exact absurd hlt (Nat.lt_asymm hlt')

/-- What the calls record on a timeline is not a completion. -/
theorem Call.Returns.not_completes {db : Db} {call : Call} {u : UnitOfWork}
    (h : call.Returns lower db u) {x : Table.Draft DeploymentEvent.id} (hx : u.Records x) (n : ℕ)
    (id : Uuid) : (x.1 n).completes id = false := by
  cases h.callEvent hx with
  | request => simp [DeploymentEvent.completes, recordEvent]
  | retry hd => simp [DeploymentEvent.completes, recordEvent]
  | rollback hd => simp [DeploymentEvent.completes, recordEvent]

/-- What the reaper records on a timeline is not a completion. -/
theorem reapEvent_not_completes (d : Deployment) (n : ℕ) (id : Uuid) :
    ((reapEvent d).1 n).completes id = false := by
  unfold reapEvent
  split_ifs <;> simp [DeploymentEvent.completes, recordEvent]

/-- A completion after the commit of an atomic step was there before, or is that of a running job.
-/
theorem AtomicWrite.completes_cases {db : Db} {w : Writer} {u : UnitOfWork}
    (h : AtomicWrite lower db w u) {e : DeploymentEvent} {id : Uuid}
    (he : e ∈ (db.write u).deploymentEvents) (hcompletes : e.completes id = true) :
    e ∈ db.deploymentEvents ∨ ∃ d ∈ db.deployments, d.id = id ∧ d.running = true := by
  refine (Db.mem_deploymentEvents_write he).imp_right ?_
  rintro ⟨x, n, hx, rfl⟩
  cases h with
  | call hc =>
    rw [hc.not_completes hx] at hcompletes
    exact absurd hcompletes Bool.false_ne_true
  | claim hy => exact absurd hx List.not_mem_nil
  | validation =>
    obtain rfl := List.mem_singleton.mp hx
    exact absurd hcompletes (by simp [DeploymentEvent.completes, recordEvent])
  | @segment d assigned phase event message next hmem hrun hwrite =>
    obtain rfl := List.mem_singleton.mp hx
    refine ⟨d, hmem, ?_, hrun⟩
    simp only [DeploymentEvent.completes, Bool.and_eq_true, decide_eq_true_eq] at hcompletes
    rw [← hcompletes.1]
    cases hwrite <;> rfl
  | reap hr =>
    obtain ⟨stuck, -, rfl⟩ := reapStuck_eq_some hr
    obtain ⟨d, -, rfl⟩ := List.mem_map.mp hx
    rw [reapEvent_not_completes] at hcompletes
    exact absurd hcompletes Bool.false_ne_true

/-- A worker that completes a job records the completion, after everything recorded so far. -/
theorem AtomicWrite.exists_completes {db : Db} {w : Writer} {u : UnitOfWork}
    (h : AtomicWrite lower db w u) {d : Deployment} (hd : d ∈ db.deployments)
    (hbefore : d.status ≠ .succeeded) (hafter : (u.onDeployment d).status = .succeeded) :
    ∃ f ∈ (db.write u).deploymentEvents, f.completes d.id = true ∧
      ∀ e ∈ db.deploymentEvents, e.id < f.id := by
  obtain ⟨rfl, hrun⟩ := ((h.rowStep hd).succeeded hafter).resolve_left hbefore
  cases h with
  | claim hx =>
    rw [(onDeployment_of_claimOne hx hd hrun).2] at hafter
    exact absurd hafter hbefore
  | validation => exact absurd hafter hbefore
  | @segment e assigned phase event message next hmem hrun' hwrite =>
    rcases onDeployment_single hmem hd with heq | ⟨rfl, heq⟩
    · rw [heq] at hafter
      exact absurd hafter hbefore
    · rw [heq] at hafter
      have hrecorded : ∀ x : Table.Draft DeploymentEvent.id, x.1 db.deploymentEvents.next ∈
          (db.write (.updateDeployments [⟨e, assigned⟩] [x])).deploymentEvents :=
        fun x => Table.mem_insert.mpr (Or.inr rfl)
      refine ⟨_, hrecorded _, ?_, fun f hf => Table.key_lt_next hf⟩
      -- Of the four writes of a worker only the last one makes a row SUCCEEDED.
      cases hwrite with
      | deploy hv =>
        rw [Deployment.flush_self rfl] at hafter
        exact absurd hafter (by simp)
      | reject hv =>
        rw [Deployment.flush_self rfl] at hafter
        exact absurd hafter (by simp)
      | timeout hf =>
        rw [Deployment.flush_self rfl] at hafter
        exact absurd hafter (by simp)
      | complete hf => simp [DeploymentEvent.completes, recordEvent]

/-! ## The two orders -/

/-- Two deployments are of one model and for one environment. -/
def Deployment.SameSlot (t d : Deployment) : Prop :=
  t.modelId = d.modelId ∧ t.environment = d.environment

instance (t d : Deployment) : Decidable (t.SameSlot d) := inferInstanceAs (Decidable (_ ∧ _))

/-- A retry is not for a deployment with a newer SUCCEEDED one of its model and environment. -/
def RetriesNewest (db : Db) (w : Writer) (_ : UnitOfWork) : Prop :=
  match w with
  | .api (.retryDeployment _ id) => ∀ t ∈ db.deployments.rows, t.id = id →
      ∀ d ∈ db.deployments.rows, t.SameSlot d → t.id < d.id → d.status ≠ .succeeded
  | _ => True

instance (db : Db) (w : Writer) (u : UnitOfWork) : Decidable (RetriesNewest db w u) := by
  unfold RetriesNewest
  split <;> infer_instance

/-- The steps of the runs of atomic operations without a retry past a newer SUCCEEDED deployment. -/
def RetriesNewestSteps (lower : String → String) (s : State) (p : ℕ × Action) : Prop :=
  AtomicSteps s p ∧ CommitMeets lower RetriesNewest s p

instance (s : State) (p : ℕ × Action) : Decidable (RetriesNewestSteps lower s p) :=
  inferInstanceAs (Decidable (_ ∧ _))

/-- The order of the ids is the order of completion. -/
structure Db.Ordered (db : Db) : Prop where
  /-- A SUCCEEDED deployment has completed. -/
  completed : ∀ d ∈ db.deployments, d.status = .succeeded →
    ∃ e ∈ db.deploymentEvents, e.completes d.id = true
  /-- Nothing older than a SUCCEEDED deployment is in flight. -/
  settled : ∀ t ∈ db.deployments, ∀ d ∈ db.deployments, t.SameSlot d → t.id < d.id →
    d.status = .succeeded → t.inFlight = false
  /-- Of two SUCCEEDED deployments the newer one completed after everything that the older one
  did. -/
  later : ∀ t ∈ db.deployments, ∀ d ∈ db.deployments, t.SameSlot d → t.id < d.id →
    t.status = .succeeded → d.status = .succeeded → ∀ e ∈ db.deploymentEvents,
    e.completes t.id = true → ∃ f ∈ db.deploymentEvents, f.completes d.id = true ∧ e.id < f.id

/-- Two stored deployments after the commit of an atomic step, the one with the greater id being
SUCCEEDED, were stored before it. -/
theorem AtomicWrite.two_rows {db : Db} {w : Writer} {u : UnitOfWork} (h : AtomicWrite lower db w u)
    {t d : Deployment} (ht : t ∈ (db.write u).deployments) (hd : d ∈ (db.write u).deployments)
    (hlt : t.id < d.id) (hs : d.status = .succeeded) :
    (∃ t₀ ∈ db.deployments, RowStep db w t₀ t ∧ t = u.onDeployment t₀) ∧
      ∃ d₀ ∈ db.deployments, RowStep db w d₀ d ∧ d = u.onDeployment d₀ := by
  rcases h.mem_deployments hd with hold | ⟨deployment, event, rfl, rfl⟩
  · refine ⟨?_, hold⟩
    rcases h.mem_deployments ht with hold' | ⟨deployment, event, rfl, rfl⟩
    · exact hold'
    · -- The inserted row has the greatest id.
      obtain ⟨d₀, hd₀, -, rfl⟩ := hold
      rw [deployment.2] at hlt
      exact absurd (Table.key_lt_next hd₀) (Nat.lt_asymm hlt)
  · obtain ⟨actorId, correlationId, data, v, -, -, -, hrow⟩ := h.insert
    rw [hrow] at hs
    exact absurd hs (by simp)

/-- What identifies the slot of a deployment survives every write. -/
theorem Deployment.sameSlot_onDeployment {u : UnitOfWork} {t d : Deployment} :
    (u.onDeployment t).SameSlot (u.onDeployment d) ↔ t.SameSlot d := by
  obtain ⟨hm, -, he⟩ := u.onDeployment_frame t
  obtain ⟨hm', -, he'⟩ := u.onDeployment_frame d
  unfold SameSlot
  rw [hm, he, hm', he']

/-- Only one deployment of a slot is in flight. -/
theorem eq_of_inFlight {db : Db} (h : db.Constraints) {t d : Deployment} (ht : t ∈ db.deployments)
    (hd : d ∈ db.deployments) (hslot : t.SameSlot d) (hft : t.inFlight = true)
    (hfd : d.inFlight = true) : t = d :=
  Db.uniqueActiveDeployment_iff.mp h.2.2.2 t ht d hd hft hfd hslot.1 hslot.2

/-- The commit of an atomic step keeps the two orders the same, unless it retries a deployment past
a newer SUCCEEDED one. -/
theorem AtomicWrite.ordered {db : Db} {w : Writer} {u : UnitOfWork} (h : AtomicWrite lower db w u)
    (hcons : db.Constraints) (hretry : RetriesNewest db w u) (hdb : db.Ordered) :
    (db.write u).Ordered := by
  -- Two running deployments of one slot are the same one.
  have hsame : ∀ t ∈ db.deployments, ∀ d ∈ db.deployments, t.SameSlot d → t.id < d.id →
      t.inFlight = true → d.running = true → False := by
    intro t ht d hd hslot hlt hft hrun
    obtain rfl := eq_of_inFlight hcons ht hd hslot hft (Deployment.inFlight_of_running hrun)
    exact absurd hlt (Nat.lt_irrefl _)
  refine ⟨fun d hd hs => ?_, fun t ht d hd hslot hlt hs => ?_, fun t ht d hd hslot hlt hst hs e he
    hcompletes => ?_⟩
  · -- `completed`: a row that becomes SUCCEEDED gets its completion with it.
    rcases h.mem_deployments hd with ⟨d₀, hd₀, -, rfl⟩ | ⟨deployment, event, rfl, rfl⟩
    · rw [UnitOfWork.onDeployment_id]
      by_cases hs₀ : d₀.status = .succeeded
      · obtain ⟨e, he, hcompletes⟩ := hdb.completed d₀ hd₀ hs₀
        exact ⟨e, Db.mem_deploymentEvents_of_mem u he, hcompletes⟩
      · obtain ⟨f, hf, hcompletes, -⟩ := h.exists_completes hd₀ hs₀ hs
        exact ⟨f, hf, hcompletes⟩
    · obtain ⟨actorId, correlationId, data, v, -, -, -, hrow⟩ := h.insert
      rw [hrow] at hs
      exact absurd hs (by simp)
  · obtain ⟨⟨t₀, ht₀, hrowt, rfl⟩, d₀, hd₀, hrowd, rfl⟩ := h.two_rows ht hd hlt hs
    rw [Deployment.sameSlot_onDeployment] at hslot
    rw [UnitOfWork.onDeployment_id, UnitOfWork.onDeployment_id] at hlt
    rw [Bool.eq_false_iff]
    intro hft
    -- `settled`: the older row would have been retried past the newer one, or both were in flight.
    rcases hrowd.succeeded hs with hs₀ | ⟨rfl, hrun⟩
    · rcases hrowt.inFlight hft with hft₀ | ⟨actorId, rfl⟩
      · rw [hdb.settled t₀ ht₀ d₀ hd₀ hslot hlt hs₀] at hft₀
        exact absurd hft₀ Bool.false_ne_true
      · exact hretry t₀ ht₀ rfl d₀ hd₀ hslot hlt hs₀
    · rcases hrowt.inFlight hft with hft₀ | ⟨actorId, hw⟩
      · exact hsame t₀ ht₀ d₀ hd₀ hslot hlt hft₀ hrun
      · exact absurd hw (by simp)
  · obtain ⟨⟨t₀, ht₀, hrowt, rfl⟩, d₀, hd₀, hrowd, rfl⟩ := h.two_rows ht hd hlt hs
    rw [Deployment.sameSlot_onDeployment] at hslot
    rw [UnitOfWork.onDeployment_id, UnitOfWork.onDeployment_id] at hlt
    rw [UnitOfWork.onDeployment_id] at hcompletes ⊢
    -- A completion is that of `t₀`, if it is new.
    have hnew : e ∈ db.deploymentEvents ∨ t₀.running = true := by
      refine (h.completes_cases he hcompletes).imp_right ?_
      rintro ⟨r, hr, hid, hrun⟩
      rwa [← db.deployments.eq_of_key_eq hr ht₀ hid]
    -- `later`: the newer row has SUCCEEDED before, or it completes now, after all that is recorded.
    by_cases hs₀ : d₀.status = .succeeded
    · have hft₀ := hdb.settled t₀ ht₀ d₀ hd₀ hslot hlt hs₀
      have hrun₀ : t₀.running ≠ true := by
        intro hrun
        rw [Deployment.inFlight_of_running hrun] at hft₀
        exact absurd hft₀.symm Bool.false_ne_true
      have hst₀ : t₀.status = .succeeded := (hrowt.succeeded hst).resolve_right fun hw => hrun₀ hw.2
      obtain ⟨f, hf, hfd, hef⟩ := hdb.later t₀ ht₀ d₀ hd₀ hslot hlt hst₀ hs₀ e
        (hnew.resolve_right hrun₀) hcompletes
      exact ⟨f, Db.mem_deploymentEvents_of_mem u hf, hfd, hef⟩
    · obtain ⟨f, hf, hfd, hlast⟩ := h.exists_completes hd₀ hs₀ hs
      have hrun := ((hrowd.succeeded hs).resolve_left hs₀).2
      refine ⟨f, hf, hfd, hlast e (hnew.resolve_right fun hrun₀ => ?_)⟩
      exact hsame t₀ ht₀ d₀ hd₀ hslot hlt (Deployment.inFlight_of_running hrun₀) hrun

/-- In runs without a retry past a newer SUCCEEDED deployment the two orders are the same. -/
theorem reach_ordered {s : State} (h : Reach (step lower) (RetriesNewestSteps lower) .init s) :
    s.shared.Ordered := by
  refine reach_atomicClass (fun _ _ hok => hok.1) h ?_ ?_
  · refine ⟨fun d hd => ?_, fun t ht => ?_, fun t ht => ?_⟩
    · exact absurd hd (List.not_mem_nil (a := d))
    · exact absurd ht (List.not_mem_nil (a := t))
    · exact absurd ht (List.not_mem_nil (a := t))
  · intro s i a w u hreach hdb hok hcom hatomic
    exact hatomic.ordered (reach_constraints hreach) (hok.2 (w, u) hcom) hdb

/-- Of two SUCCEEDED deployments of a slot the one with the smaller id completed first. -/
theorem Db.Ordered.completedBefore_iff {db : Db} (h : db.Ordered) {t d : Deployment}
    (ht : t ∈ db.deployments) (hd : d ∈ db.deployments) (hslot : t.SameSlot d)
    (hst : t.status = .succeeded) (hsd : d.status = .succeeded) (hne : t.id ≠ d.id) :
    db.CompletedBefore t d ↔ t.id < d.id := by
  have hforward : ∀ t ∈ db.deployments, ∀ d ∈ db.deployments, t.SameSlot d →
      t.status = .succeeded → d.status = .succeeded → t.id < d.id → db.CompletedBefore t d := by
    intro t ht d hd hslot hst hsd hlt
    have hlast : ∀ r ∈ db.deployments, r.status = .succeeded →
        ∃ e, db.lastCompleted r.id = some e := by
      intro r hr hs
      obtain ⟨e, he, hcompletes⟩ := h.completed r hr hs
      -- A completion is recorded, so there is a latest one.
      cases hl : db.lastCompleted r.id with
      | some f => exact ⟨f, rfl⟩
      | none =>
        rw [Table.last?_eq_none.mp hl e he] at hcompletes
        exact absurd hcompletes Bool.false_ne_true
    obtain ⟨e, he⟩ := hlast t ht hst
    obtain ⟨f, hf⟩ := hlast d hd hsd
    obtain ⟨hmem, hcompletes, -⟩ := Table.last?_eq_some.mp he
    obtain ⟨g, hg, hgd, hlt'⟩ := h.later t ht d hd hslot hlt hst hsd e hmem hcompletes
    have hle : g.id ≤ f.id := (Table.last?_eq_some.mp hf).2.2 g hg hgd
    exact ⟨e, f, he, hf, Nat.lt_of_lt_of_le hlt' hle⟩
  constructor
  · intro hbefore
    rcases Nat.lt_or_gt_of_ne hne with hlt | hgt
    · exact hlt
    · have hafter := hforward d hd t ht ⟨hslot.1.symm, hslot.2.symm⟩ hsd hst hgt
      exact absurd hafter hbefore.asymm
  · exact hforward t ht d hd hslot hst hsd

/-! ## Rollbacks -/

/-- The database accepts every rollback. -/
theorem commit_rollback {db : Db} (hcons : db.Constraints) {actorId deploymentId : Uuid}
    {u : UnitOfWork} (h : rollbackDeployment db actorId deploymentId = .ok u) :
    db.commit u = some (db.write u) := by
  refine Db.commit_eq_some.mpr ⟨?_, rfl⟩
  have hactive : (db.write u).UniqueActiveDeployment := by
    have hcall : Call.Returns id db u (.rollbackDeployment actorId deploymentId) := h
    exact (AtomicWrite.call hcall).uniqueActive rfl hcons.2.2.2
  obtain ⟨d, t, -, -, -, rfl⟩ := rollbackDeployment_eq_ok.mp h
  refine ⟨hcons.1, hcons.2.1, ?_, hactive⟩
  refine List.pairwise_map.mpr (hcons.2.2.1.imp fun hab => ?_)
  rw [UnitOfWork.onDeployment_idempotencyKey, UnitOfWork.onDeployment_idempotencyKey]
  exact hab

/-- A deployment that ran before `d`: it SUCCEEDED for the same model and environment with another
version, and its latest completion was recorded before that of `d`. -/
def Db.RanBefore (db : Db) (d t : Deployment) : Prop :=
  t ∈ db.deployments ∧ t.id ≠ d.id ∧ t.status = .succeeded ∧ t.SameSlot d ∧
    t.modelVersionId ≠ d.modelVersionId ∧ db.CompletedBefore t d

/-- Where the orders are the same, what ran before is what a rollback may fall back to. -/
theorem Db.Ordered.ranBefore_iff {db : Db} (h : db.Ordered) {t d : Deployment}
    (hd : d ∈ db.deployments) (hs : d.status = .succeeded) :
    db.RanBefore d t ↔ t ∈ db.deployments ∧ d.FallsBackTo t := by
  constructor
  · rintro ⟨ht, hne, hst, hslot, hversion, hbefore⟩
    exact ⟨ht, hslot.2, hst, hslot.1, hversion,
      (h.completedBefore_iff ht hd hslot hst hs hne).mp hbefore⟩
  · rintro ⟨ht, henvironment, hst, hmodel, hversion, hlt⟩
    have hne := Nat.ne_of_lt hlt
    exact ⟨ht, hne, hst, ⟨hmodel, henvironment⟩, hversion,
      (h.completedBefore_iff ht hd ⟨hmodel, henvironment⟩ hst hs hne).mpr hlt⟩

/-- Three workers lose deployment 1 one after the other, and the reaper fails it. -/
def workerLost : List (ℕ × Action) :=
  registration ++
    [(0, request 1 .development false), (1, .claim "a" 10 []), (1, .crash), (2, .reap 200 120),
      (1, .claim "a" 210 []), (1, .crash), (2, .reap 400 120), (1, .claim "a" 410 []), (1, .crash),
      (2, .reap 600 120)]

/-- Deployment 1 is retried and completes, and deployment 2 comes after it. -/
def retryThenNextRun : List (ℕ × Action) :=
  workerLost ++ [(0, .call (.retryDeployment 9 1))] ++ executeJob 1 "a" 610 ++
    [(0, request 2 .development false)] ++ executeJob 1 "a" 620

/-- Deployment 1 is retried after deployment 2 has SUCCEEDED, and completes after it. -/
def lateRetryRun : List (ℕ × Action) :=
  workerLost ++ [(0, request 2 .development false)] ++ executeJob 1 "a" 610 ++
    [(0, .call (.retryDeployment 9 1))] ++ executeJob 1 "a" 620

end MlopsPlatform
