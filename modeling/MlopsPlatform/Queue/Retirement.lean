import MlopsPlatform.Queue.Exclusivity
import MlopsPlatform.Rollback.Eligibility

/-!
# Deployments of retired versions

The policy gate runs when a deployment is requested, and once more in the worker before the rollout.
Between the two, and after the second, versions move on. Atomic calls move them along the transition
table only, which keeps a version deployable until it is archived: a deployment whose version has
become ineligible has an ARCHIVED version, and the worker's check fails on exactly those. After that
check nothing looks at the stage again. So a version that is archived during the rollout is recorded
as successfully deployed (`succeeded_although_archived`), and what holds of every success is that
the version passed this worker's check.
-/

namespace MlopsPlatform

open Transition

variable {lower : String → String}

/-! ## Atomic calls keep the lifecycle fresh -/

/-- Runs of atomic steps have atomic calls. -/
theorem AtomicCalls.of_atomicSteps {s : State} {p : ℕ × Action} (h : AtomicSteps s p) :
    AtomicCalls s p := by
  obtain ⟨i, a⟩ := p
  cases a with
  | start call =>
    have hact : (s.locals i).atomicAction (fun _ => false) s.shared (.start call) = true := h
    cases hl : s.locals i <;> rw [hl] at hact <;> exact absurd hact Bool.false_ne_true
  | _ => rfl

/-- A call that reads and commits at once is fresh. -/
theorem stageFresh_of_returns {db : Db} {call : Call} {u : UnitOfWork}
    (h : call.Returns lower db u) (w : Writer) : StageFresh db w u := by
  rcases h.versionWrite with hleaves | hwrite
  · cases u with
    | insertVersion version event => trivial
    | updateVersion loaded assigned event =>
      exact absurd hleaves (by simp [UnitOfWork.writesVersions])
    | _ => trivial
  · cases hwrite with
    | create hcreate =>
      obtain ⟨-, -, rfl⟩ := createVersion_eq_ok.mp hcreate
      trivial
    | approve happrove =>
      obtain ⟨v, hv, -, rfl⟩ := approveVersion_eq_ok.mp happrove
      intro stored hstored
      rw [(Table.get?_eq_some.mp hv).2, hv] at hstored
      obtain rfl := Option.mem_some.mp hstored
      exact Or.inl rfl
    | transition htransition =>
      obtain ⟨v, hv, -, -, rfl⟩ := transitionVersion_eq_ok.mp htransition
      intro stored hstored
      rw [(Table.get?_eq_some.mp hv).2, hv] at hstored
      obtain rfl := Option.mem_some.mp hstored
      exact Or.inl rfl

/-- A run of atomic calls, with workers and reapers interleaved in any way, is one whose lifecycle
commits are fresh. -/
theorem fresh_reach {s : State} (h : Reach (step lower) AtomicCalls .init s) :
    Reach (step lower) (CommitMeets lower StageFresh) .init s := by
  induction h with
  | refl => exact .refl
  | @tail s s' p hreach hok hstep ih =>
    obtain ⟨i, a⟩ := p
    refine ih.tail ?_ hstep
    rintro ⟨w, u⟩ hcom
    -- What waits for its commit is a worker's or a reaper's update of deployments.
    have hheld : s.Holds fun _ _ u => ∃ dirty events, u = .updateDeployments dirty events :=
      reach_holds (K := fun _ u => ∃ dirty events, u = .updateDeployments dirty events) hreach
        (fun d => ⟨_, _, rfl⟩) fun s i a w u hoka hsplit hreads =>
          hreads.staged.updateDeployments (AtomicCalls.not_api hoka hsplit)
    rcases hheld.committed hcom with ⟨dirty, events, rfl⟩ | hreads
    · trivial
    · cases hw : w.isApi with
      | false =>
        obtain ⟨dirty, events, rfl⟩ := hreads.staged.updateDeployments hw
        trivial
      | true =>
        cases w with
        | api call => exact stageFresh_of_returns hreads.returns _
        | worker => exact absurd hw (by decide)
        | reaper => exact absurd hw (by decide)

/-! ## Eligibility persists except for retirement -/

/-- The version of a deployment is ARCHIVED. -/
def Db.VersionArchived (db : Db) (d : Deployment) : Prop :=
  (db.versions.get? d.modelVersionId).map ModelVersion.stage = some .archived

/-- Where deployments are eligible, one whose version is not deployable has an ARCHIVED version. -/
theorem Db.Eligible.archived_iff {db : Db} {d : Deployment} (h : db.Eligible d) :
    db.VersionArchived d ↔ versionDeployable db d = false := by
  obtain ⟨v, hv, hstage⟩ := h
  simp only [VersionArchived, versionDeployable, hv, Option.map_some, Option.some.injEq]
  constructor
  · intro harchived
    rw [harchived]
    cases d.environment <;> decide
  · intro hnot
    refine hstage.resolve_right fun hdeployable => ?_
    rw [hnot] at hdeployable
    exact absurd hdeployable Bool.false_ne_true

/-- A worker records `approval_validation_failed` exactly when its check finds the version not
deployable. -/
theorem WorkerWrite.rejects_iff {db : Db} {d assigned : Deployment} {phase : Phase}
    {event : String} {message : Option String} {next : Option Phase}
    (h : WorkerWrite db d phase assigned event message next) :
    event = "approval_validation_failed" ↔
      phase = .check ∧ versionDeployable db d = false := by
  cases h with
  | deploy hv => simp [hv]
  | reject hv => simp [hv]
  | timeout hf => simp
  | complete hf => simp

/-- In every run of atomic steps, every deployment refers to a version that is ARCHIVED or still
deployable to the deployment's environment. So a retry re-queues a deployment whose version is not
deployable only if the version is ARCHIVED, and a worker's next commit for a job records
`approval_validation_failed` exactly when it is the check, and the version is ARCHIVED then. -/
theorem eligible_unless_archived_of_reach {s : State}
    (h : Reach (step lower) AtomicSteps .init s) :
    (∀ d ∈ s.shared.deployments, ∃ v, s.shared.versions.get? d.modelVersionId = some v ∧
      (v.stage = .archived ∨ isDeployable v.stage d.environment = true)) ∧
    (∀ actorId id u, retryDeployment s.shared actorId id = .ok u →
      ∃ d, s.shared.deployments.get? id = some d ∧
        (versionDeployable s.shared d = false → s.shared.VersionArchived d)) ∧
    (∀ i claim phase s', s.locals i = .worker claim phase → AtomicSteps s (i, .work) →
      step lower s (i, .work) = some s' →
      ((∃ e ∈ s'.shared.deploymentEvents, e ∉ s.shared.deploymentEvents ∧
          e.deploymentId = claim.deploymentId ∧ e.event = "approval_validation_failed") ↔
        phase = .check ∧ ∃ d, s.shared.deployments.get? claim.deploymentId = some d ∧
          s.shared.VersionArchived d)) := by
  have heligible := (reach_eligible (fresh_reach (h.mono fun _ _ => .of_atomicSteps))).1
  refine ⟨heligible, fun actorId id u hretry => ?_, fun i claim phase s' hi hok hstep => ?_⟩
  · obtain ⟨d, hd, -, -⟩ := retryDeployment_eq_ok.mp hretry
    exact ⟨d, hd, (heligible d (Table.get?_eq_some.mp hd).1).archived_iff.mpr⟩
  · have hheld := holdsValidations_of_reach (fun _ => rfl) h
    -- The step loads the row, which is stored, since it took place.
    cases hu : processDeployment s.shared claim.deploymentId phase with
    | none =>
      obtain ⟨db, l, hact, -⟩ := Config.step_eq_some.mp hstep
      simp [act, hi, plan, hu] at hact
    | some r =>
      obtain ⟨u, next⟩ := r
      have hcom : committed lower s.shared (s.locals i) .work = some (.worker, u) := by
        simp [committed, hi, plan, hu]
      have haccepted := (hheld.committed hok hcom).accepted rfl (reach_constraints h)
      rw [step_of_accepted hstep hcom haccepted]
      obtain ⟨d, assigned, event, message, hd, hwrite, rfl⟩ := processDeployment_eq_some hu
      have harchived := (heligible d (Table.get?_eq_some.mp hd).1).archived_iff
      have hid : assigned.id = claim.deploymentId := by
        rw [← (Table.get?_eq_some.mp hd).2]
        cases hwrite <;> rfl
      constructor
      · rintro ⟨e, hnew, hnot, -, hevent⟩
        obtain rfl := Db.new_deploymentEvent_iff.mp ⟨hnew, hnot⟩
        obtain ⟨hphase, hv⟩ := hwrite.rejects_iff.mp hevent
        exact ⟨hphase, d, hd, harchived.mpr hv⟩
      · rintro ⟨hphase, d', hd', hv⟩
        obtain rfl := Option.some.inj (hd.symm.trans hd')
        have hevent := hwrite.rejects_iff.mpr ⟨hphase, harchived.mp hv⟩
        obtain ⟨hnew, hnot⟩ := Db.new_deploymentEvent_iff.mpr rfl
        exact ⟨_, hnew, hnot, hid, hevent⟩

/-- A job is claimed, and its version is archived before the worker's check. -/
def archivedBeforeCheckRun : List (ℕ × Action) :=
  registration ++ [(0, request 1 .development false), (1, .claim "a" 10 []), (1, .commit),
    (0, .call (.transitionVersion 7 none 1 .archived))]

/-- The worker of `archivedBeforeCheckRun` is about to check the job. -/
theorem eligible_unless_archived_of_reach_archivedBeforeCheckRun :
    ∃ s, Reach (step id) AtomicSteps .init s ∧
      s.shared.deployments.rows.map Deployment.status = [.validating] ∧
      s.shared.versions.rows.map ModelVersion.stage = [.archived, .validated] ∧
      (∀ d ∈ s.shared.deployments, ∃ v, s.shared.versions.get? d.modelVersionId = some v ∧
        (v.stage = .archived ∨ isDeployable v.stage d.environment = true)) ∧
      (∀ actorId k u, retryDeployment s.shared actorId k = .ok u →
        ∃ d, s.shared.deployments.get? k = some d ∧
          (versionDeployable s.shared d = false → s.shared.VersionArchived d)) ∧
      (∀ i claim phase s', s.locals i = .worker claim phase → AtomicSteps s (i, .work) →
        step id s (i, .work) = some s' →
        ((∃ e ∈ s'.shared.deploymentEvents, e ∉ s.shared.deploymentEvents ∧
            e.deploymentId = claim.deploymentId ∧ e.event = "approval_validation_failed") ↔
          phase = .check ∧ ∃ d, s.shared.deployments.get? claim.deploymentId = some d ∧
            s.shared.VersionArchived d)) := by
  have hs := exec_reach (step id) AtomicSteps .init archivedBeforeCheckRun
  exact ⟨_, hs, by decide, by decide, eligible_unless_archived_of_reach hs⟩

/-! ## What a success says about the version -/

/-- Every deployment is kept, with its version and its environment. -/
def Db.KeepsDeployed (db db' : Db) : Prop :=
  ∀ id d, db.deployments.get? id = some d → ∃ d', db'.deployments.get? id = some d' ∧
    d'.modelVersionId = d.modelVersionId ∧ d'.environment = d.environment

/-- Runs keep every deployment, with its version and its environment. -/
theorem keepsDeployed_reach {ok : State → ℕ × Action → Prop} {s t : State}
    (h : Reach (step lower) ok s t) : s.shared.KeepsDeployed t.shared := by
  refine h.rel (R := fun s t => s.shared.KeepsDeployed t.shared) ?_ ?_ ?_
  · exact fun s id d hd => ⟨d, hd, rfl, rfl⟩
  · intro a b c hab hbc id d hd
    obtain ⟨d', hd', hversion, henvironment⟩ := hab id d hd
    obtain ⟨d'', hd'', hversion', henvironment'⟩ := hbc id d' hd'
    exact ⟨d'', hd'', hversion'.trans hversion, henvironment'.trans henvironment⟩
  · rintro a ⟨i, action⟩ b - - hstep id d hd
    rcases step_cases hstep with ⟨l, -, -, rfl⟩ | ⟨w, u, l, -, -, rfl⟩
    · exact ⟨d, hd, rfl, rfl⟩
    · obtain ⟨-, hversion, henvironment⟩ := u.onDeployment_frame d
      exact ⟨_, Db.get?_deployments_write u hd, hversion, henvironment⟩

/-- A unit of work sets a deployment to SUCCEEDED. -/
def UnitOfWork.Completes (u : UnitOfWork) (id : Uuid) : Prop :=
  ∃ x, u.dirtyFor id = some x ∧ x.assigned.status = .succeeded

/-- A commit that makes a row SUCCEEDED completes it. -/
theorem UnitOfWork.completes_of_succeeded {u : UnitOfWork} {d : Deployment}
    (hbefore : d.status ≠ .succeeded) (hafter : (u.onDeployment d).status = .succeeded) :
    u.Completes d.id := by
  cases hx : u.dirtyFor d.id with
  | none =>
    rw [UnitOfWork.onDeployment_of_dirtyFor hx] at hafter
    exact absurd hafter hbefore
  | some x =>
    refine ⟨x, hx, ?_⟩
    rw [UnitOfWork.onDeployment_status hx] at hafter
    -- The stored status was another, so it is the assigned one.
    rcases flushColumn_cases x.loaded.status x.assigned.status d.status with
      ⟨-, hstatus⟩ | ⟨-, hstatus⟩
    · exact absurd (hstatus.symm.trans hafter) hbefore
    · exact hstatus.symm.trans hafter

/-- Only a worker completes jobs. -/
theorem Staged.worker_of_completes {db : Db} {w : Writer} {u : UnitOfWork}
    (h : Staged lower db w u) {id : Uuid} (hu : u.Completes id) : w = .worker := by
  obtain ⟨x, hx, hstatus⟩ := hu
  cases h with
  | call hc =>
    cases (Call.stage_eq_ok hc).callUpdate hx with
    | retry actorId hd hs => exact absurd hstatus (by simp)
    | rollback actorId hd hs ht => exact absurd hstatus (by simp)
  | claim hy => rfl
  | segment hs => rfl
  | reap hr =>
    obtain ⟨stuck, -, rfl⟩ := reapStuck_eq_some hr
    obtain ⟨hmem, -⟩ := UnitOfWork.mem_of_dirtyFor hx
    obtain ⟨d, -, rfl⟩ := List.mem_map.mp hmem
    exact absurd hstatus (reaped_status d).1

/-- A version is deployable for a deployment when it exists and its stage allows the environment. -/
theorem versionDeployable_eq_true {db : Db} {d : Deployment} :
    versionDeployable db d = true ↔ ∃ v, db.versions.get? d.modelVersionId = some v ∧
      isDeployable v.stage d.environment = true := by
  unfold versionDeployable
  cases hv : db.versions.get? d.modelVersionId with
  | none => simp
  | some v => simp

/-- The session has checked the version of its claim's job and found it deployable: some earlier
step of the run was that check. -/
def Checked (steps : List (State × (ℕ × Action))) (i : ℕ) (claim : Claim) : Prop :=
  ∃ t b d, (t, (i, b)) ∈ steps ∧ t.locals i = .worker claim .check ∧ (b = .load ∨ b = .work) ∧
    t.shared.deployments.get? claim.deploymentId = some d ∧ versionDeployable t.shared d = true

/-- A session that has got as far as the rollout of its job has checked it. -/
def Session.Backed (P : Claim → Prop) : Session → Prop
  | worker claim .rollout => P claim
  | workerCommit claim u next =>
    (next = some .rollout → P claim) ∧ ∀ id, u.Completes id → id = claim.deploymentId ∧ P claim
  | _ => True

/-- What a session is backed by may be weakened. -/
theorem Session.Backed.mono {P Q : Claim → Prop} {l : Session} (h : l.Backed P)
    (hPQ : ∀ claim, P claim → Q claim) : l.Backed Q := by
  cases l with
  | worker claim phase =>
    cases phase with
    | check => trivial
    | rollout => exact hPQ _ h
  | workerCommit claim u next =>
    exact ⟨fun hnext => hPQ _ (h.1 hnext), fun id hu => ⟨(h.2 id hu).1, hPQ _ (h.2 id hu).2⟩⟩
  | _ => trivial

/-- A segment of `process_deployment` that goes on to the rollout has found the version deployable,
and one that completes a job is its rollout. -/
theorem checked_of_processDeployment {db : Db} {claim : Claim} {phase : Phase} {u : UnitOfWork}
    {next : Option Phase} (h : processDeployment db claim.deploymentId phase = some (u, next)) :
    (next = some .rollout → phase = .check ∧
      ∃ d, db.deployments.get? claim.deploymentId = some d ∧ versionDeployable db d = true) ∧
    ∀ id, u.Completes id → id = claim.deploymentId ∧ phase = .rollout := by
  obtain ⟨d, assigned, event, message, hd, hwrite, rfl⟩ := processDeployment_eq_some h
  constructor
  · rintro rfl
    cases hwrite with
    | deploy hv => exact ⟨rfl, d, hd, hv⟩
  · rintro id ⟨x, hx, hstatus⟩
    obtain ⟨hmem, hid⟩ := UnitOfWork.mem_of_dirtyFor hx
    obtain rfl := List.mem_singleton.mp hmem
    refine ⟨hid.symm.trans (Table.get?_eq_some.mp hd).2, ?_⟩
    cases hwrite with
    | deploy hv => exact absurd hstatus (by simp)
    | reject hv => exact absurd hstatus (by simp)
    | timeout hf => exact absurd hstatus (by simp)
    | complete hf => rfl

/-- An action keeps its session backed, if a check that finds the version deployable backs it. -/
theorem Planned.backed {db : Db} {l : Session} {a : Action} {p : Plan} {P : Claim → Prop}
    (h : Planned lower db l a p) (hl : l.Backed P)
    (hcheck : ∀ claim d, l = .worker claim .check → (a = .load ∨ a = .work) →
      db.deployments.get? claim.deploymentId = some d → versionDeployable db d = true → P claim) :
    p.after.Backed P := by
  cases h with
  | load hu =>
    obtain ⟨hnext, hdone⟩ := checked_of_processDeployment hu
    refine ⟨fun hrollout => ?_, fun id hcompletes => ?_⟩
    · obtain ⟨rfl, d, hd, hv⟩ := hnext hrollout
      exact hcheck _ d rfl (Or.inl rfl) hd hv
    · obtain ⟨hid, rfl⟩ := hdone id hcompletes
      exact ⟨hid, hl⟩
  | @work claim phase u next hu =>
    cases next with
    | none => trivial
    | some phase' =>
      cases phase' with
      | check => trivial
      | rollout =>
        obtain ⟨rfl, d, hd, hv⟩ := (checked_of_processDeployment hu).1 rfl
        exact hcheck _ d rfl (Or.inr rfl) hd hv
  | claim hx =>
    -- The first commit of `process_deployment` updates no row.
    refine ⟨fun hnext => absurd hnext (by simp), fun id hcompletes => ?_⟩
    obtain ⟨x, hx, -⟩ := hcompletes
    exact absurd hx (by simp [startValidation, UnitOfWork.dirtyFor])
  | @commitWork claim u next =>
    cases next with
    | none => trivial
    | some phase' =>
      cases phase' with
      | check => trivial
      | rollout => exact hl.1 rfl
  | _ => trivial

/-- In a run, every session that has got as far as the rollout of its job has checked it. -/
theorem backed_of_trace {ok : State → ℕ × Action → Prop} {s : State}
    {steps : List (State × (ℕ × Action))} (h : Trace (step lower) ok .init steps s) :
    ∀ i, (s.locals i).Backed (Checked steps i) := by
  induction h with
  | nil => exact fun i => trivial
  | @snoc steps s s' p htrace hok hstep ih =>
    obtain ⟨i, a⟩ := p
    intro j
    have hlater : (s.locals j).Backed (Checked (steps ++ [(s, (i, a))]) j) := by
      refine (ih j).mono ?_
      rintro claim ⟨t, b, d, hmem, hrest⟩
      exact ⟨t, b, d, List.mem_append_left _ hmem, hrest⟩
    have hplanned : ∃ p, Planned lower s.shared (s.locals i) a p ∧
        s'.locals = Function.update s.locals i p.after := by
      rcases step_cases hstep with ⟨l, -, hplan, rfl⟩ | ⟨w, u, l, -, hplan, rfl⟩
      · exact ⟨_, hplan, rfl⟩
      · exact ⟨_, hplan, rfl⟩
    obtain ⟨p, hplan, hlocals⟩ := hplanned
    rw [hlocals]
    by_cases hji : j = i
    · -- The session steps, and the step itself may be its check.
      subst hji
      rw [Function.update_self]
      exact hplan.backed hlater fun claim d hl ha hd hv =>
        ⟨s, a, d, List.mem_append_right _ (List.mem_singleton_self _), hl, ha, hd, hv⟩
    · rw [Function.update_of_ne hji]
      exact hlater

/-- In every interleaving of atomic calls with the commits of workers and reapers, a commit that
sets a deployment to SUCCEEDED is that of a session that has checked it: when that session's check
read the version, it was deployable to the environment. It still is, unless it is ARCHIVED. -/
theorem succeeded_of_trace {s s' : State} {steps : List (State × (ℕ × Action))}
    (h : Trace (step lower) AtomicCalls .init steps s) {i : ℕ} {a : Action}
    (hok : AtomicCalls s (i, a)) (hstep : step lower s (i, a) = some s') {id : Uuid}
    {d d' : Deployment} (hd : s.shared.deployments.get? id = some d)
    (hd' : s'.shared.deployments.get? id = some d') (hbefore : d.status ≠ .succeeded)
    (hafter : d'.status = .succeeded) :
    (∃ t b claim v, (t, (i, b)) ∈ steps ∧ t.locals i = .worker claim .check ∧
      (b = .load ∨ b = .work) ∧ claim.deploymentId = id ∧
      t.shared.versions.get? d.modelVersionId = some v ∧
      isDeployable v.stage d.environment = true) ∧
    ∃ v, s.shared.versions.get? d.modelVersionId = some v ∧
      (isDeployable v.stage d.environment = true ∨ v.stage = .archived) := by
  obtain ⟨v, hv, hstage⟩ := (reach_eligible (fresh_reach h.reach)).1 d (Table.get?_eq_some.mp hd).1
  refine ⟨?_, v, hv, hstage.symm⟩
  rcases step_cases hstep with ⟨l, -, -, rfl⟩ | ⟨w, u, l, hwritten, hplan, rfl⟩
  · obtain rfl := Option.some.inj (hd.symm.trans hd')
    exact absurd hafter hbefore
  · rw [Db.get?_deployments_write u hd] at hd'
    obtain rfl := Option.some.inj hd'
    have hcompletes := UnitOfWork.completes_of_succeeded hbefore hafter
    rw [(Table.get?_eq_some.mp hd).2] at hcompletes
    have hchecked : ∃ claim, claim.deploymentId = id ∧ Checked steps i claim := by
      have hback := backed_of_trace h i
      have hworker : w = .worker := by
        have hheld : s.Holds fun _ w u => ∀ id, u.Completes id → w = .worker :=
          reach_holds (K := fun w u => ∀ id, u.Completes id → w = .worker) h.reach
            (fun _ _ _ => rfl)
            fun _ _ _ _ _ _ _ hreads id hu => hreads.staged.worker_of_completes hu
        rcases hheld.committed (written_eq_some.mp hwritten).1 with hw | hreads
        · exact hw id hcompletes
        · exact hreads.staged.worker_of_completes hcompletes
      obtain rfl := hworker
      generalize s.locals i = l₀ at hplan hback
      cases hplan with
      | claim hx =>
        -- A claim sets VALIDATING.
        obtain ⟨x, hx', hstatus⟩ := hcompletes
        obtain ⟨hmem, -⟩ := UnitOfWork.mem_of_dirtyFor hx'
        obtain rfl := List.mem_singleton.mp hmem
        rw [(claimOne_eq_some.mp hx).2.2.2.2] at hstatus
        exact absurd hstatus (by simp)
      | @work claim phase u next hu =>
        obtain ⟨hid, rfl⟩ := (checked_of_processDeployment hu).2 id hcompletes
        exact ⟨claim, hid.symm, hback⟩
      | @commitWork claim u next =>
        obtain ⟨hid, hchecked⟩ := hback.2 id hcompletes
        exact ⟨claim, hid.symm, hchecked⟩
    obtain ⟨claim, rfl, t, b, e, hmem, hlocal, hb, he, hdeployable⟩ := hchecked
    -- The row that was checked is of the same version, for the same environment.
    obtain ⟨-, hokt, t', ht', hrest⟩ := h.of_mem hmem
    obtain ⟨d₁, hd₁, hversion, henvironment⟩ :=
      keepsDeployed_reach ((Reach.refl.tail hokt ht').trans hrest) _ e he
    obtain rfl := Option.some.inj (hd.symm.trans hd₁)
    obtain ⟨v₀, hv₀, hstage₀⟩ := versionDeployable_eq_true.mp hdeployable
    rw [← hversion] at hv₀
    rw [← henvironment] at hstage₀
    exact ⟨t, b, claim, v₀, hmem, hlocal, hb, rfl, hv₀, hstage₀⟩

/-- A job is rolled out, and its version is archived before the rollout ends. -/
def archivedDuringRolloutRun : List (ℕ × Action) :=
  registration ++ [(0, request 1 .development false), (1, .claim "a" 10 []), (1, .commit),
    (1, .work), (0, .call (.transitionVersion 7 none 1 .archived))]

/-- The commit that ends `archivedDuringRolloutRun`. -/
theorem succeeded_of_trace_archivedDuringRolloutRun :
    ∃ steps s s' d d', Trace (step id) AtomicCalls .init steps s ∧ AtomicCalls s (1, .work) ∧
      step id s (1, .work) = some s' ∧ s.shared.deployments.get? 1 = some d ∧
      s'.shared.deployments.get? 1 = some d' ∧ d.status ≠ .succeeded ∧ d'.status = .succeeded ∧
      (∃ t b claim v, (t, (1, b)) ∈ steps ∧ t.locals 1 = .worker claim .check ∧
        (b = .load ∨ b = .work) ∧ claim.deploymentId = 1 ∧
        t.shared.versions.get? d.modelVersionId = some v ∧
        isDeployable v.stage d.environment = true) ∧
      ∃ v, s.shared.versions.get? d.modelVersionId = some v ∧
        (isDeployable v.stage d.environment = true ∨ v.stage = .archived) := by
  obtain ⟨steps, htrace⟩ :=
    (exec_reach (step id) AtomicCalls .init archivedDuringRolloutRun).exists_trace
  have hbefore : ((exec (step id) AtomicCalls .init
      archivedDuringRolloutRun).shared.deployments.get? 1).map Deployment.status =
        some .deploying := by decide
  have hcommit : ((step id (exec (step id) AtomicCalls .init archivedDuringRolloutRun)
      (1, .work)).bind fun s' => (s'.shared.deployments.get? 1).map Deployment.status) =
        some .succeeded := by decide
  obtain ⟨d, hd, hstatus⟩ := Option.map_eq_some_iff.mp hbefore
  obtain ⟨s', hs', hafter⟩ := Option.bind_eq_some_iff.mp hcommit
  obtain ⟨d', hd', hstatus'⟩ := Option.map_eq_some_iff.mp hafter
  have hnot : d.status ≠ .succeeded := by
    rw [hstatus]
    decide
  have hok : AtomicCalls (exec (step id) AtomicCalls .init archivedDuringRolloutRun) (1, .work) :=
    rfl
  exact ⟨steps, _, s', d, d', htrace, hok, hs', hd, hd', hnot, hstatus',
    succeeded_of_trace htrace hok hs' hd hd' hnot hstatus'⟩

/-- The worker that holds the claim then sets the deployment to SUCCEEDED, although its version is
ARCHIVED. -/
theorem succeeded_although_archived :
    ∃ s s', Reach (step id) AtomicSteps .init s ∧ AtomicSteps s (1, .work) ∧
      step id s (1, .work) = some s' ∧
      s.shared.deployments.rows.map Deployment.status = [.deploying] ∧
      s'.shared.deployments.rows.map Deployment.status = [.succeeded] ∧
      (s.shared.deployments.get? 1).map (fun d =>
        (d.environment, (s.shared.versions.get? d.modelVersionId).map ModelVersion.stage)) =
          some (.development, some .archived) ∧
      isDeployable .archived .development = false := by
  have hcommit : ((step id (exec (step id) AtomicSteps .init archivedDuringRolloutRun)
      (1, .work)).map fun s' => s'.shared.deployments.rows.map Deployment.status) =
        some [.succeeded] := by decide
  obtain ⟨s', hs', hafter⟩ := Option.map_eq_some_iff.mp hcommit
  exact ⟨_, s', exec_reach (step id) AtomicSteps .init archivedDuringRolloutRun, by decide, hs',
    by decide, hafter, by decide, by decide⟩

end MlopsPlatform
