import MlopsPlatform.Worker.Runner
import MlopsPlatform.Queue.Exclusivity

/-!
# What a worker does with a job

`process_deployment` commits up to three times for a job that it has claimed, and each commit
changes one row and adds one entry to its timeline (`Advances`). `Working` is where a worker is with
a job: its session, the row, and what has been added to the timeline so far. Each step of the worker
leads from one such place to the next, whatever has become of the other rows (`Working.step`).
-/

namespace MlopsPlatform

open Transition

variable {lower : String → String}

/-! ## What the queue and a timeline are -/

/-- The REQUESTED deployments, in the order of their ids. -/
def Db.queue (db : Db) : List Deployment := db.deployments.select fun d => d.status = .requested

/-- An entry of a timeline without its id. -/
def DeploymentEvent.anonymous (e : DeploymentEvent) : DeploymentEvent := { e with id := 0 }

/-- The timeline of a deployment, up to the ids of its entries. -/
def Db.timeline (db : Db) (id : Uuid) : List DeploymentEvent :=
  (db.deploymentEvents.select fun e => e.deploymentId = id).map DeploymentEvent.anonymous

/-- A job of the queue is a stored deployment that is REQUESTED. -/
theorem mem_queue {db : Db} {d : Deployment} :
    d ∈ db.queue ↔ d ∈ db.deployments ∧ d.status = .requested := by
  simp [Db.queue, Table.mem_select]

/-- The queue is in the order of the ids. -/
theorem queue_sorted (db : Db) : db.queue.Pairwise fun d d' => d.id < d'.id :=
  db.deployments.sorted.filter _

/-- The jobs after the first one of a queue are those with another id. -/
theorem filter_queue {db : Db} {r : Deployment} {rest : List Deployment}
    (h : db.queue = r :: rest) : (db.queue.filter fun d => d.id ≠ r.id) = rest := by
  have hsorted := queue_sorted db
  rw [h, List.pairwise_cons] at hsorted
  rw [h, List.filter_cons_of_neg (by simp), List.filter_eq_self]
  intro d hd
  have hlt := hsorted.1 d hd
  exact decide_eq_true (Nat.ne_of_gt hlt)

/-! ## What becomes of a job -/

/-- What `claim_one` makes of a job. -/
def Deployment.claimedBy (d : Deployment) (workerId : String) (now : Time) : Deployment :=
  { d with
    status := .validating
    workerId := some workerId
    lockedAt := some now
    attempts := d.attempts + 1 }

/-- A claim takes the first job of the queue. -/
theorem claimOne_eq_queue {db : Db} {workerId : String} {now : Time} :
    claimOne db workerId now [] = db.queue.head?.map fun d => ⟨d, d.claimedBy workerId now⟩ := by
  have hfirst : db.deployments.first? (fun d => d.status = .requested && !(d.id ∈ [])) =
      db.queue.head? := by
    rw [Table.first?, Db.queue, Table.select, List.head?_filter]
    simp
  rw [claimOne, hfirst]
  rfl

/-- What `process_deployment` makes of a claimed job whose version is deployable. -/
def Deployment.deployedBy (d : Deployment) (workerId : String) (now : Time) : Deployment :=
  { d.claimedBy workerId now with status := .deploying }

/-- What becomes of a job that a worker has processed. -/
def drained (db : Db) (workerId : String) (d : Deployment) : Deployment :=
  if !versionDeployable db d then
    { d with
      status := .failed
      workerId := some workerId
      lockedAt := none
      attempts := d.attempts + 1
      error := some "approval_validation_failed" }
  else if d.simulateFailure then
    { d with
      status := .failed
      workerId := some workerId
      lockedAt := none
      attempts := d.attempts + 1
      error := some "runtime_timeout" }
  else
    { d with
      status := .succeeded
      workerId := some workerId
      lockedAt := none
      attempts := d.attempts + 1
      error := none }

/-- A job that has been processed is not active. -/
theorem inFlight_drained {db : Db} {workerId : String} {d : Deployment} :
    (drained db workerId d).inFlight = false := by
  unfold drained
  split_ifs <;> rfl

/-- A deployment without the id of its worker. -/
def Deployment.withoutWorker (d : Deployment) : Deployment := { d with workerId := none }

/-- What becomes of a job depends on its worker only in the worker's id. -/
theorem withoutWorker_drained {db : Db} {workerId workerId' : String} {d : Deployment} :
    (drained db workerId d).withoutWorker = (drained db workerId' d).withoutWorker := by
  unfold drained
  split_ifs <;> rfl

/-- An entry that a worker adds to the timeline of a job, without its id. -/
def Deployment.entry (d : Deployment) (status : DeploymentStatus) (event : String)
    (message : Option String) : DeploymentEvent :=
  { id := 0, deploymentId := d.id, status, event, message, actor := some "worker"
    correlationId := d.correlationId }

/-- What is added to the timeline of a job while a worker processes it. -/
def drainedTimeline (db : Db) (d : Deployment) : List DeploymentEvent :=
  if !versionDeployable db d then
    [d.entry .validating "validation_started" none,
      d.entry .failed "approval_validation_failed" (some "version not deployable")]
  else if d.simulateFailure then
    [d.entry .validating "validation_started" none, d.entry .deploying "deployment_started" none,
      d.entry .failed "runtime_timeout" (some "simulated failure")]
  else
    [d.entry .validating "validation_started" none, d.entry .deploying "deployment_started" none,
      d.entry .succeeded "deployment_completed" none]

/-! ## A commit that advances one job -/

/-- A unit of work changes one row, and adds entries to its timeline. -/
structure UnitOfWork.Advances (u : UnitOfWork) (r r' : Deployment)
    (entries : List DeploymentEvent) : Prop where
  /-- It updates deployments. -/
  updates : ∃ dirty events, u = .updateDeployments dirty events
  /-- The row becomes the new one. -/
  row : u.onDeployment r = r'
  /-- The other rows stay as they are. -/
  others : ∀ d : Deployment, d.id ≠ r.id → u.onDeployment d = d
  /-- The entries are added to the timeline of the row. -/
  timeline : ∀ (db : Db) (id : Uuid),
    (db.write u).timeline id = db.timeline id ++ if id = r.id then entries else []

/-- The timelines after a write that records one event. -/
theorem timeline_write {db : Db} {dirty : List DirtyDeployment} {d : Deployment} {name : String}
    {message actor : Option String} (id : Uuid) :
    (db.write (.updateDeployments dirty [recordEvent d name message actor])).timeline id =
      db.timeline id ++ if id = d.id then [(recordEvent d name message actor).1 0] else [] := by
  have hevents : (db.write (.updateDeployments dirty [recordEvent d name message actor])).timeline
      id = ((db.deploymentEvents.insert (recordEvent d name message actor)).select
        fun e => e.deploymentId = id).map DeploymentEvent.anonymous := rfl
  rw [hevents, Table.select_insert, List.map_append]
  by_cases hid : id = d.id
  · simp [hid, recordEvent, DeploymentEvent.anonymous, Db.timeline]
  · simp [hid, recordEvent, Ne.symm hid, Db.timeline]

/-- An update of one row with one event advances it. -/
theorem advances_update {r r' : Deployment} {name : String} {message actor : Option String}
    (hid : r'.id = r.id) (hflush : r.flush r' r = r') :
    (UnitOfWork.updateDeployments [⟨r, r'⟩] [recordEvent r' name message actor]).Advances r r'
      [(recordEvent r' name message actor).1 0] := by
  refine ⟨⟨_, _, rfl⟩, onDeployment_loaded hflush, fun d hd => ?_, fun db id => ?_⟩
  · apply UnitOfWork.onDeployment_of_dirtyFor
    rw [UnitOfWork.dirtyFor_single, if_neg hd.symm]
  · rw [timeline_write, hid]

/-- The first commit of `process_deployment` adds an entry and changes no row. -/
theorem advances_validation (r : Deployment) : (startValidation r).Advances r r
    [(recordEvent r "validation_started" none (some "worker")).1 0] :=
  ⟨⟨_, _, rfl⟩, rfl, fun _ _ => rfl, fun _ id => timeline_write id⟩

/-- A claim changes one row and adds no entry. -/
theorem advances_claim {r r' : Deployment} (hflush : r.flush r' r = r') :
    (UnitOfWork.updateDeployments [⟨r, r'⟩] []).Advances r r' [] := by
  refine ⟨⟨_, _, rfl⟩, onDeployment_loaded hflush, fun d hd => ?_, fun db id => ?_⟩
  · apply UnitOfWork.onDeployment_of_dirtyFor
    rw [UnitOfWork.dirtyFor_single, if_neg hd.symm]
  · rw [ite_self, List.append_nil]
    rfl

section

variable {db : Db} {u : UnitOfWork} {r r' : Deployment} {entries : List DeploymentEvent}

/-- The row that a commit advances. -/
theorem UnitOfWork.Advances.get?_self (h : u.Advances r r' entries) (hr : r ∈ db.deployments) :
    (db.write u).deployments.get? r.id = some r' := by
  rw [Db.get?_deployments_write u (Table.get?_key hr), h.row]

/-- The other rows are the same. -/
theorem UnitOfWork.Advances.get?_of_ne (h : u.Advances r r' entries) {id : Uuid} (hid : id ≠ r.id) :
    (db.write u).deployments.get? id = db.deployments.get? id := by
  obtain ⟨dirty, events, rfl⟩ := h.updates
  simp only [Db.write, Table.get?_mapRows]
  cases hd : db.deployments.get? id with
  | none => rfl
  | some d =>
    rw [Option.map_some, h.others d]
    rwa [(Table.get?_eq_some.mp hd).2]

/-- A commit that takes a row out of the queue, or that leaves it out, keeps the other jobs in
it. -/
theorem UnitOfWork.Advances.queue (h : u.Advances r r' entries) (hr : r ∈ db.deployments)
    (hr' : r'.status ≠ .requested) :
    (db.write u).queue = db.queue.filter fun d => d.id ≠ r.id := by
  obtain ⟨dirty, events, rfl⟩ := h.updates
  have hrows : (db.write (.updateDeployments dirty events)).queue =
      (db.deployments.rows.map (UnitOfWork.updateDeployments dirty events).onDeployment).filter
        fun d => d.status = .requested := rfl
  have hrow : ∀ d ∈ db.deployments.rows,
      d.id = r.id ∧ (UnitOfWork.updateDeployments dirty events).onDeployment d = r' ∨
        d.id ≠ r.id ∧ (UnitOfWork.updateDeployments dirty events).onDeployment d = d := by
    intro d hd
    by_cases hid : d.id = r.id
    · rw [db.deployments.eq_of_key_eq hd hr hid]
      exact Or.inl ⟨rfl, h.row⟩
    · exact Or.inr ⟨hid, h.others d hid⟩
  rw [hrows, List.filter_map, Db.queue, Table.select, List.filter_filter]
  -- The rows that match afterwards are the other ones that have matched before.
  have hmatch : db.deployments.rows.filter ((fun d => decide (d.status = .requested)) ∘
      (UnitOfWork.updateDeployments dirty events).onDeployment) = db.deployments.rows.filter
        fun d => decide (d.id ≠ r.id) && decide (d.status = .requested) := by
    refine List.filter_congr fun d hd => ?_
    rcases hrow d hd with ⟨hid, hd'⟩ | ⟨hid, hd'⟩
    · simp [hd', hr', hid]
    · simp [hd', hid]
  rw [hmatch]
  refine (List.map_congr_left fun d hd => ?_).trans (List.map_id _)
  have hmem := List.mem_filter.mp hd
  rcases hrow d hmem.1 with ⟨hid, -⟩ | ⟨-, hd'⟩
  · exact absurd hmem.2 (by simp [hid])
  · exact hd'

/-- A commit that advances a row outside of the queue leaves the queue as it is. -/
theorem UnitOfWork.Advances.queue_eq (h : u.Advances r r' entries) (hr : r ∈ db.deployments)
    (hstatus : r.status ≠ .requested) (hr' : r'.status ≠ .requested) :
    (db.write u).queue = db.queue := by
  rw [h.queue hr hr', List.filter_eq_self]
  refine fun d hd => decide_eq_true fun hid => ?_
  obtain ⟨hmem, hrequested⟩ := mem_queue.mp hd
  obtain rfl := db.deployments.eq_of_key_eq hmem hr hid
  exact hstatus hrequested

/-- The constraints accept a commit that advances an active deployment. -/
theorem UnitOfWork.Advances.constraints (h : u.Advances r r' entries) (hcons : db.Constraints)
    (hr : r ∈ db.deployments) (hflight : r.inFlight = true) : (db.write u).Constraints := by
  obtain ⟨dirty, events, rfl⟩ := h.updates
  refine constraints_updateDeployments hcons fun d hd hd' => ?_
  by_cases hid : d.id = r.id
  · rwa [db.deployments.eq_of_key_eq hd hr hid]
  · rwa [h.others d hid] at hd'

/-- A commit that advances a deployment leaves the models and the versions as they are. -/
theorem UnitOfWork.Advances.registry (h : u.Advances r r' entries) :
    (db.write u).models = db.models ∧ (db.write u).versions = db.versions ∧
      (db.write u).versionEvents = db.versionEvents := by
  obtain ⟨dirty, events, rfl⟩ := h.updates
  exact ⟨rfl, rfl, rfl⟩

end

/-! ## A worker at a job -/

/-- Where a worker is with a job: its session, the row, and what it has added to the timeline. -/
inductive Working (db : Db) (workerId : String) (d : Deployment) :
    Session → Deployment → List DeploymentEvent → Prop
  /-- The job is claimed. -/
  | claimed {c : Claim} {now : Time} : c.deploymentId = d.id →
    Working db workerId d
      (.workerCommit c (startValidation (d.claimedBy workerId now)) (some .check))
      (d.claimedBy workerId now) []
  /-- The validation has started. -/
  | check {c : Claim} {now : Time} : c.deploymentId = d.id →
    Working db workerId d (.worker c .check) (d.claimedBy workerId now)
      [d.entry .validating "validation_started" none]
  /-- The version is checked, and the result is to be committed. -/
  | checked {c : Claim} {now : Time} {u : UnitOfWork} {next : Option Phase} :
    c.deploymentId = d.id → checkEligibility db (d.claimedBy workerId now) = (u, next) →
    Working db workerId d (.workerCommit c u next) (d.claimedBy workerId now)
      [d.entry .validating "validation_started" none]
  /-- The rollout has started. -/
  | rollout {c : Claim} {now : Time} : c.deploymentId = d.id → versionDeployable db d = true →
    Working db workerId d (.worker c .rollout) (d.deployedBy workerId now)
      [d.entry .validating "validation_started" none, d.entry .deploying "deployment_started" none]
  /-- The rollout is over, and its result is to be committed. -/
  | finishing {c : Claim} {now : Time} {u : UnitOfWork} {next : Option Phase} :
    c.deploymentId = d.id → versionDeployable db d = true →
    finishRollout (d.deployedBy workerId now) = (u, next) →
    Working db workerId d (.workerCommit c u next) (d.deployedBy workerId now)
      [d.entry .validating "validation_started" none, d.entry .deploying "deployment_started" none]
  /-- The job is processed, and the session is idle again. -/
  | done : Working db workerId d .idle (drained db workerId d) (drainedTimeline db d)

/-- What a worker has made of a job that it is done with. -/
theorem Working.of_idle {db : Db} {workerId : String} {d r : Deployment}
    {entries : List DeploymentEvent} (h : Working db workerId d .idle r entries) :
    r = drained db workerId d ∧ entries = drainedTimeline db d := by
  cases h with
  | done => exact ⟨rfl, rfl⟩

/-- The steps that are left to a worker, besides its claims. -/
def Session.rank : Session → ℕ
  | .workerCommit _ _ (some .check) => 5
  | .worker _ .check => 4
  | .workerCommit _ _ (some .rollout) => 3
  | .worker _ .rollout => 2
  | .workerCommit _ _ none => 1
  | _ => 0

/-- The job that a worker's session is at. -/
def Session.job? : Session → Option Uuid
  | .worker c _ => some c.deploymentId
  | .workerCommit c _ _ => some c.deploymentId
  | _ => none

/-- A check of the version in the same registry comes to the same. -/
theorem versionDeployable_congr {db db' : Db} (h : db'.versions = db.versions) {d r : Deployment}
    (hversion : r.modelVersionId = d.modelVersionId)
    (henvironment : r.environment = d.environment) :
    versionDeployable db' r = versionDeployable db d := by
  simp only [versionDeployable, h, hversion, henvironment]

/-- The row of a job keeps its id and leaves the queue when it is claimed. -/
theorem Working.row {db : Db} {workerId : String} {d r : Deployment} {l : Session}
    {entries : List DeploymentEvent} (h : Working db workerId d l r entries) :
    r.id = d.id ∧ r.status ≠ .requested := by
  cases h with
  | done =>
    unfold drained
    split_ifs <;> exact ⟨rfl, by simp⟩
  | _ => exact ⟨rfl, by simp [Deployment.claimedBy, Deployment.deployedBy]⟩

/-- A job that a worker is at is running. -/
theorem Working.running {db : Db} {workerId : String} {d r : Deployment} {l : Session}
    {entries : List DeploymentEvent} (h : Working db workerId d l r entries) (hl : l ≠ .idle) :
    r.running = true ∧ l.job? = some d.id := by
  cases h with
  | claimed hc => exact ⟨rfl, congrArg some hc⟩
  | check hc => exact ⟨rfl, congrArg some hc⟩
  | checked hc _ => exact ⟨rfl, congrArg some hc⟩
  | rollout hc _ => exact ⟨rfl, congrArg some hc⟩
  | finishing hc _ _ => exact ⟨rfl, congrArg some hc⟩
  | done => exact absurd rfl hl

/-- What a worker's next step at a job comes to. -/
inductive WorkStep (db : Db) (workerId : String) (d : Deployment) (l : Session) (r : Deployment)
    (entries : List DeploymentEvent) : Plan → Prop
  /-- The reads of a segment. -/
  | load {l' : Session} : Working db workerId d l' r entries → l' ≠ .idle → l'.rank < l.rank →
    WorkStep db workerId d l r entries (.keep l')
  /-- A commit of `process_deployment`. -/
  | commit {u : UnitOfWork} {l' : Session} {r' : Deployment} {e : DeploymentEvent} :
    u.Advances r r' [e] → Working db workerId d l' r' (entries ++ [e]) → l'.rank < l.rank →
    WorkStep db workerId d l r entries (.commit .worker u l')

/-- The commit after the check of the version. -/
theorem workStep_check {db : Db} {workerId : String} {d : Deployment} {c : Claim} {now : Time}
    {l : Session} {u : UnitOfWork} {next : Option Phase} (hc : c.deploymentId = d.id)
    (hu : checkEligibility db (d.claimedBy workerId now) = (u, next))
    (hrank : (Session.afterCommit c next).rank < l.rank) :
    WorkStep db workerId d l (d.claimedBy workerId now)
      [d.entry .validating "validation_started" none]
      (.commit .worker u (.afterCommit c next)) := by
  have hsame : versionDeployable db (d.claimedBy workerId now) = versionDeployable db d := rfl
  simp only [checkEligibility, hsame] at hu
  cases hv : versionDeployable db d with
  | false =>
    simp only [hv, Bool.not_false, if_true, fail, Prod.mk.injEq] at hu
    obtain ⟨rfl, rfl⟩ := hu
    refine .commit (advances_update rfl (Deployment.flush_self rfl)) ?_ hrank
    -- The job is over.
    have hdone : Working db workerId d .idle (drained db workerId d) (drainedTimeline db d) := .done
    simp only [drained, drainedTimeline, hv, Bool.not_false, if_true] at hdone
    exact hdone
  | true =>
    simp only [hv, Bool.not_true, Bool.false_eq_true, if_false, Prod.mk.injEq] at hu
    obtain ⟨rfl, rfl⟩ := hu
    exact .commit (advances_update rfl (Deployment.flush_self rfl)) (.rollout hc hv) hrank

/-- The commit after the rollout. -/
theorem workStep_finish {db : Db} {workerId : String} {d : Deployment} {c : Claim} {now : Time}
    {l : Session} {u : UnitOfWork} {next : Option Phase} (hv : versionDeployable db d = true)
    (hu : finishRollout (d.deployedBy workerId now) = (u, next))
    (hrank : (Session.afterCommit c next).rank < l.rank) :
    WorkStep db workerId d l (d.deployedBy workerId now)
      [d.entry .validating "validation_started" none, d.entry .deploying "deployment_started" none]
      (.commit .worker u (.afterCommit c next)) := by
  have hdone : Working db workerId d .idle (drained db workerId d) (drainedTimeline db d) := .done
  have hgate : ¬(!versionDeployable db d) = true := by simp [hv]
  cases hf : d.simulateFailure with
  | true =>
    rw [finishRollout, if_pos (show (d.deployedBy workerId now).simulateFailure = true from hf),
      fail] at hu
    obtain ⟨rfl, rfl⟩ := Prod.mk.inj hu
    rw [drained, drainedTimeline, if_neg hgate, if_pos hf, if_neg hgate, if_pos hf] at hdone
    exact .commit (advances_update rfl (Deployment.flush_self rfl)) hdone hrank
  | false =>
    have hsucceeds : ¬d.simulateFailure = true := by simp [hf]
    rw [finishRollout,
      if_neg (show ¬(d.deployedBy workerId now).simulateFailure = true from hsucceeds)] at hu
    obtain ⟨rfl, rfl⟩ := Prod.mk.inj hu
    rw [drained, drainedTimeline, if_neg hgate, if_neg hsucceeds, if_neg hgate,
      if_neg hsucceeds] at hdone
    exact .commit (advances_update rfl (Deployment.flush_self rfl)) hdone hrank

/-- The next phase after a check is a rollout, if there is one. -/
theorem next_of_checkEligibility {db : Db} {r : Deployment} {u : UnitOfWork} {next : Option Phase}
    (h : checkEligibility db r = (u, next)) : next = none ∨ next = some .rollout := by
  simp only [checkEligibility] at h
  split_ifs at h
  · exact Or.inl (Prod.mk.inj h).2.symm
  · exact Or.inr (Prod.mk.inj h).2.symm

/-- There is no phase after a rollout. -/
theorem next_of_finishRollout {r : Deployment} {u : UnitOfWork} {next : Option Phase}
    (h : finishRollout r = (u, next)) : next = none := by
  simp only [finishRollout] at h
  split_ifs at h
  · exact (Prod.mk.inj h).2.symm
  · exact (Prod.mk.inj h).2.symm

/-- A worker at a job goes on with it, whatever has become of the other rows. -/
theorem Working.step {db db' : Db} {workerId : String} {d r : Deployment} {l : Session}
    {entries : List DeploymentEvent} {a : DrainAction} {p : Plan}
    (h : Working db workerId d l r entries) (hl : l ≠ .idle)
    (hversions : db'.versions = db.versions) (hr : db'.deployments.get? d.id = some r)
    (hp : plan lower db' l (a.onSession workerId) = some p) :
    WorkStep db workerId d l r entries p := by
  -- What the segments of `process_deployment` come to for this row.
  have hcheck : ∀ {c : Claim}, c.deploymentId = d.id →
      processDeployment db' c.deploymentId .check = some (checkEligibility db r) := by
    intro c hc
    rw [processDeployment, hc, hr, Option.map_some]
    simp only [checkEligibility, versionDeployable_congr hversions rfl rfl]
  have hfinish : ∀ {c : Claim}, c.deploymentId = d.id →
      processDeployment db' c.deploymentId .rollout = some (finishRollout r) := by
    intro c hc
    rw [processDeployment, hc, hr, Option.map_some]
  cases h with
  | claimed hc =>
    cases a with
    | commit =>
      obtain rfl := Option.some.inj hp
      exact .commit (advances_validation _) (.check hc)
        (by simp [Session.rank, Session.afterCommit])
    | _ => exact absurd hp (by simp [plan, DrainAction.onSession])
  | check hc =>
    generalize hu : checkEligibility db _ = x at hcheck
    obtain ⟨u, next⟩ := x
    cases a with
    | load =>
      simp only [plan, DrainAction.onSession, hcheck hc, Option.some.injEq] at hp
      obtain rfl := hp
      refine .load (.checked hc hu) (by simp) ?_
      rcases next_of_checkEligibility hu with rfl | rfl <;> simp [Session.rank]
    | work =>
      simp only [plan, DrainAction.onSession, hcheck hc, Option.some.injEq] at hp
      obtain rfl := hp
      refine workStep_check hc hu ?_
      rcases next_of_checkEligibility hu with rfl | rfl <;> simp [Session.rank, Session.afterCommit]
    | _ => exact absurd hp (by simp [plan, DrainAction.onSession])
  | checked hc hu =>
    cases a with
    | commit =>
      obtain rfl := Option.some.inj hp
      refine workStep_check hc hu ?_
      rcases next_of_checkEligibility hu with rfl | rfl <;> simp [Session.rank, Session.afterCommit]
    | _ => exact absurd hp (by simp [plan, DrainAction.onSession])
  | rollout hc hv =>
    generalize hu : finishRollout _ = x at hfinish
    obtain ⟨u, next⟩ := x
    obtain rfl := next_of_finishRollout hu
    cases a with
    | load =>
      simp only [plan, DrainAction.onSession, hfinish hc, Option.some.injEq] at hp
      obtain rfl := hp
      exact .load (.finishing hc hv hu) (by simp) (by simp [Session.rank])
    | work =>
      simp only [plan, DrainAction.onSession, hfinish hc, Option.some.injEq] at hp
      obtain rfl := hp
      exact workStep_finish hv hu (by simp [Session.rank, Session.afterCommit])
    | _ => exact absurd hp (by simp [plan, DrainAction.onSession])
  | finishing hc hv hu =>
    obtain rfl := next_of_finishRollout hu
    cases a with
    | commit =>
      obtain rfl := Option.some.inj hp
      exact workStep_finish hv hu (by simp [Session.rank, Session.afterCommit])
    | _ => exact absurd hp (by simp [plan, DrainAction.onSession])
  | done => exact absurd rfl hl

/-- A worker at a job can go on with it. -/
theorem Working.enabled {db db' : Db} {workerId : String} {d r : Deployment} {l : Session}
    {entries : List DeploymentEvent} (h : Working db workerId d l r entries) (hl : l ≠ .idle)
    (hr : db'.deployments.get? d.id = some r) :
    ∃ (a : DrainAction) (p : Plan), plan lower db' l (a.onSession workerId) = some p := by
  cases h with
  | claimed hc => exact ⟨.commit, _, rfl⟩
  | check hc =>
    refine ⟨.work, ?_⟩
    simp [plan, DrainAction.onSession, processDeployment, hc, hr]
  | checked hc hu => exact ⟨.commit, _, rfl⟩
  | rollout hc hv =>
    refine ⟨.work, ?_⟩
    simp [plan, DrainAction.onSession, processDeployment, hc, hr]
  | finishing hc hv hu => exact ⟨.commit, _, rfl⟩
  | done => exact absurd rfl hl

end MlopsPlatform
