import MlopsPlatform.Atomic
import MlopsPlatform.Registry.ForwardOnly

/-!
# Where a rollback may fall back to

The query of `rollback_deployment` selects on columns of the deployments only, and the stage of the
target's version is not looked at again. The version was deployable when its deployment was
requested, and every later transition but one keeps it so: a version that is promoted may deploy to
more environments, and a version that is archived may deploy to none. So as long as the lifecycle is
forward-only (`StageFresh`), a rollback falls back to a version that may run in the environment
exactly when the version of the previous good deployment is not ARCHIVED.
-/

namespace MlopsPlatform

open Transition

variable {lower : String → String}

/-! ## Eligible deployments -/

/-- The version of a deployment exists, and is deployable to the environment unless it is ARCHIVED.
-/
def Db.Eligible (db : Db) (d : Deployment) : Prop :=
  ∃ v, db.versions.get? d.modelVersionId = some v ∧
    (v.stage = .archived ∨ isDeployable v.stage d.environment = true)

/-- Eligibility is about the version and the environment of a deployment only. -/
theorem Db.Eligible.congr {db : Db} {d e : Deployment} (h : db.Eligible d)
    (hversion : e.modelVersionId = d.modelVersionId)
    (henvironment : e.environment = d.environment) : db.Eligible e := by
  obtain ⟨v, hv, hstage⟩ := h
  refine ⟨v, ?_, ?_⟩
  · rw [hversion]
    exact hv
  · rw [henvironment]
    exact hstage

/-- A write that changes the stages legally keeps deployments eligible. -/
theorem Db.Eligible.write {db : Db} {u : UnitOfWork} {d : Deployment} (h : db.Eligible d)
    (hlegal : db.LegalStages (db.write u)) : (db.write u).Eligible d := by
  obtain ⟨v, hv, hstage⟩ := h
  have hv' := Db.get?_versions_write u hv
  refine ⟨u.onVersion v, hv', ?_⟩
  rcases hlegal _ _ _ hv hv' with hsame | hedge
  · rw [hsame]
    exact hstage
  · rcases hstage with harchived | hdeployable
    · -- Nothing leads out of ARCHIVED.
      rw [harchived] at hedge
      exact absurd hedge (by simp [canTransition, allowedTransitions])
    · exact isDeployable_of_canTransition hdeployable hedge

/-- What a session has staged for insertion is an eligible deployment. -/
def Db.EligibleInsert (db : Db) (u : UnitOfWork) : Prop :=
  ∀ deployment event, u = .insertDeployment deployment event →
    ∀ id, db.Eligible (deployment.1 id)

/-- A request stages an eligible deployment, and nothing else inserts one. -/
theorem Staged.eligibleInsert {db : Db} {w : Writer} {u : UnitOfWork} (h : Staged lower db w u) :
    db.EligibleInsert u := by
  rintro deployment event rfl id
  generalize hu : UnitOfWork.insertDeployment deployment event = u at h
  cases h with
  | @call call u hstage =>
    obtain rfl := hu
    obtain ⟨actorId, correlationId, data, -, hr⟩ := (Call.stage_eq_ok hstage).of_insertDeployment
    obtain ⟨v, draft, event', -, hv, hdeployable, heq, hrow⟩ := requestDeployment_eq_staged hr
    obtain ⟨rfl, -⟩ := UnitOfWork.insertDeployment.inj heq
    rw [(hrow id).1]
    exact ⟨v, hv, Or.inr hdeployable⟩
  | claim hx => exact absurd hu (by simp)
  | segment hs =>
    obtain ⟨d, assigned, event, message, -, -, rfl⟩ := processDeployment_eq_some hs
    exact absurd hu (by simp)
  | reap hr =>
    obtain ⟨stuck, -, rfl⟩ := reapStuck_eq_some hr
    exact absurd hu (by simp)

/-- In a run of fresh lifecycle commits every deployment is eligible, and so is every one that is
staged for insertion. -/
theorem reach_eligible {s : State} (h : Reach (step lower) (CommitMeets lower StageFresh) .init s) :
    (∀ d ∈ s.shared.deployments, s.shared.Eligible d) ∧
      s.Holds fun db _ u => u.Validated ∧ db.EligibleInsert u := by
  refine reach_invariant (I := fun db => ∀ d ∈ db.deployments, db.Eligible d)
    (R := fun db db' => ∀ d, db.Eligible d → db'.Eligible d) h ?_ (State.init_holds _)
    ?_ ?_ ?_ ?_ ?_
  · exact fun d hd => absurd hd (List.not_mem_nil (a := d))
  · exact fun db d => ⟨trivial, fun deployment event hu => absurd hu (by simp [startValidation])⟩
  · exact fun s i a w u _ _ _ hreads => ⟨.of_staged hreads.staged, hreads.staged.eligibleInsert⟩
  · intro s i a w u hfresh hdb hcom hu _
    -- What a session has held since its reads is as eligible as what the action has just read.
    have hstaged : u.Validated ∧ s.shared.EligibleInsert u := by
      rcases hu with hheld | hreads
      · exact hheld
      · exact ⟨.of_staged hreads.staged, hreads.staged.eligibleInsert⟩
    have hlegal := hstaged.1.legalStages_write_iff.mpr (hfresh (w, u) hcom)
    refine ⟨fun d hd => ?_, fun d hd => hd.write hlegal⟩
    rcases Db.mem_deployments_write hd with ⟨e, he, rfl⟩ | ⟨deployment, event, hinsert, rfl⟩
    · obtain ⟨-, hversion, henvironment⟩ := u.onDeployment_frame e
      exact ((hdb e he).write hlegal).congr hversion henvironment
    · exact (hstaged.2 deployment event hinsert _).write hlegal
  · exact fun db d hd => hd
  · exact fun db db' w u hR hu => ⟨hu.1, fun deployment event heq id => hR _ (hu.2 _ _ heq id)⟩

/-! ## The target of a rollback -/

/-- The version of the previous good deployment is ARCHIVED. -/
def Db.PreviousArchived (db : Db) (d : Deployment) : Prop :=
  ∃ t ∈ db.deployments, d.FallsBackTo t ∧
    (∀ e ∈ db.deployments, d.FallsBackTo e → e.id ≤ t.id) ∧
    (db.versions.get? t.modelVersionId).map ModelVersion.stage = some .archived

/-- In every run whose lifecycle commits are fresh, with everything else interleaved in any way, a
rollback that succeeds falls back to a version that is deployable to the environment, as the stages
are at that moment, if and only if the version of the previous good deployment is not ARCHIVED. -/
theorem eligible_of_reach {s : State}
    (h : Reach (step lower) (CommitMeets lower StageFresh) .init s) {actorId id : Uuid}
    {u : UnitOfWork} {db : Db} {d : Deployment} (hd : s.shared.deployments.get? id = some d)
    (hrollback : rollbackDeployment s.shared actorId id = .ok u)
    (hcommit : s.shared.commit u = some db) :
    (∃ t v, (db.deployments.get? id).bind Deployment.rolledBackToId = some t.id ∧
      t ∈ db.deployments ∧ db.versions.get? t.modelVersionId = some v ∧
      isDeployable v.stage d.environment = true) ↔ ¬s.shared.PreviousArchived d := by
  obtain ⟨-, rfl⟩ := Db.commit_eq_some.mp hcommit
  obtain ⟨-, t, htarget, hrow, hversions, hothers⟩ := rollbackDeployment_write hd hrollback
  obtain ⟨hmem, hfalls, hlast⟩ := rollbackTarget_eq_some.mp htarget
  have hid : d.id = id := (Table.get?_eq_some.mp hd).2
  have hkept : t ∈ (s.shared.write u).deployments := by
    refine hothers t hmem ?_
    rw [← hid]
    exact Nat.ne_of_lt hfalls.2.2.2.2
  rw [hrow, hversions]
  obtain ⟨v, hv, hstage⟩ := (reach_eligible h).1 t hmem
  constructor
  · rintro ⟨t', v', hpointer, hmem', hv', hdeployable⟩ ⟨t'', hmem'', hfalls'', hlast'', harchived⟩
    -- The previous good deployment is the target.
    have hle := hlast t'' hmem'' hfalls''
    have hge := hlast'' t hmem hfalls
    obtain rfl : t'' = t := s.shared.deployments.eq_of_key_eq hmem'' hmem (Nat.le_antisymm hle hge)
    obtain rfl : t' = t'' := (s.shared.write u).deployments.eq_of_key_eq hmem' hkept
      (Option.some.inj hpointer).symm
    -- An ARCHIVED version is deployable to no environment.
    rw [hv', Option.map_some, Option.some.injEq] at harchived
    rw [harchived] at hdeployable
    cases he : d.environment <;> rw [he] at hdeployable <;> exact absurd hdeployable (by decide)
  · intro hnot
    refine ⟨t, v, rfl, hkept, hv, ?_⟩
    rw [← hfalls.1]
    refine hstage.resolve_left fun harchived => hnot ⟨t, hmem, hfalls, hlast, ?_⟩
    rw [hv, Option.map_some, harchived]

/-- Version 1 and then version 2 are deployed to development, and version 1 is promoted. -/
def promotedTargetRun : List (ℕ × Action) :=
  twoDeployments ++ [(0, .call (.approveVersion 7 none 1 50)),
    (0, .call (.transitionVersion 7 none 1 .staging))]

/-- The rollback of the second deployment at the end of `promotedTargetRun`. -/
theorem eligible_of_reach_promotedTargetRun :
    ∃ s u db d, Reach (step id) (CommitMeets id StageFresh) .init s ∧
      s.shared.deployments.get? 2 = some d ∧ rollbackDeployment s.shared 9 2 = .ok u ∧
      s.shared.commit u = some db ∧
      ((∃ t v, (db.deployments.get? 2).bind Deployment.rolledBackToId = some t.id ∧
        t ∈ db.deployments ∧ db.versions.get? t.modelVersionId = some v ∧
        isDeployable v.stage d.environment = true) ↔ ¬s.shared.PreviousArchived d) := by
  have hs := exec_reach (step id) (CommitMeets id StageFresh) .init promotedTargetRun
  exact ⟨_, _, _, _, hs, rfl, rfl, rfl, eligible_of_reach hs rfl rfl rfl⟩

/-- Version 1 and then version 2 are deployed to development, and version 1 is archived. -/
def archivedTargetRun : List (ℕ × Action) :=
  twoDeployments ++ [(0, .call (.transitionVersion 7 none 1 .archived))]

/-- The second deployment is then rolled back to the first, whose version is ARCHIVED. -/
theorem rollback_to_archived :
    ∃ s s', Reach (step id) AtomicSteps .init s ∧
      step id s (0, .call (.rollbackDeployment 9 2)) = some s' ∧
      s'.shared.deployments.rows.map (fun d => (d.status, d.rolledBackToId)) =
        [(.succeeded, none), (.rolledBack, some 1)] ∧
      ((s'.shared.deployments.get? 1).bind fun t => s'.shared.versions.get? t.modelVersionId).map
        ModelVersion.stage = some .archived ∧
      (s'.shared.deployments.get? 2).map (fun d => isDeployable .archived d.environment) =
        some false := by
  have hreach := exec_reach (step id) AtomicSteps .init archivedTargetRun
  have hstep : ((step id (exec (step id) AtomicSteps .init archivedTargetRun)
      (0, .call (.rollbackDeployment 9 2))).map fun s' =>
        (s'.shared.deployments.rows.map (fun d => (d.status, d.rolledBackToId)),
          ((s'.shared.deployments.get? 1).bind fun t =>
            s'.shared.versions.get? t.modelVersionId).map ModelVersion.stage,
          (s'.shared.deployments.get? 2).map fun d => isDeployable .archived d.environment)) =
      some ([(.succeeded, none), (.rolledBack, some 1)], some .archived, some false) := by decide
  obtain ⟨s', hs', hafter⟩ := Option.map_eq_some_iff.mp hstep
  obtain ⟨hrows, hrest⟩ := Prod.mk.inj hafter
  obtain ⟨hstage, hdeployable⟩ := Prod.mk.inj hrest
  exact ⟨_, s', hreach, hs', hrows, hstage, hdeployable⟩

end MlopsPlatform
