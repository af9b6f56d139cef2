import MlopsPlatform.System

/-!
# The forward-only lifecycle under concurrent calls

`approve_version` and `transition_version` validate the stage that they read, and their `UPDATE`
writes the target stage whatever is stored by then. So the committed stages follow the transition
table only as long as no promotion is overtaken by another change of the stage (`StageFresh`), and a
slow approval revives a version that was archived in the meantime (`approve_overtakes_archive`).
Archiving is always legal, since ARCHIVED is reached from every stage.

The order behind "forward-only" is `LifecycleStage.position`. Every edge of the table goes up in it,
and ARCHIVED is its top.
-/

namespace MlopsPlatform

open Transition

variable {lower : String → String}

/-! ## The forward order -/

/-- The place of a stage on the way from DRAFT to ARCHIVED. -/
def LifecycleStage.position : LifecycleStage → ℕ
  | draft => 0
  | validated => 1
  | approved => 2
  | staging => 3
  | production => 4
  | archived => 5

/-- Only ARCHIVED comes that late. -/
theorem LifecycleStage.eq_archived_of_le {stage : LifecycleStage}
    (h : archived.position ≤ stage.position) : stage = archived := by
  revert h
  cases stage <;> decide

/-- Every transition goes forward. -/
theorem position_lt_of_canTransition {current target : LifecycleStage}
    (h : canTransition current target = true) : current.position < target.position := by
  revert h
  cases current <;> cases target <;> decide

/-- A stage that has not been left for ARCHIVED may still be. -/
theorem canTransition_archived {stage : LifecycleStage} (h : stage ≠ .archived) :
    canTransition stage .archived = true := by
  revert h
  cases stage <;> decide

/-- Every stage but ARCHIVED is entered from one stage only. -/
theorem canTransition_unique {a b target : LifecycleStage} (ha : canTransition a target = true)
    (hb : canTransition b target = true) (ht : target ≠ .archived) : a = b := by
  revert ha hb ht
  cases target <;> cases a <;> cases b <;> decide

/-! ## Legal changes and fresh commits -/

/-- Every version that changes its stage between two databases does so along an edge of the
transition table. -/
def Db.LegalStages (db db' : Db) : Prop :=
  ∀ id v v', db.versions.get? id = some v → db'.versions.get? id = some v' →
    v'.stage = v.stage ∨ canTransition v.stage v'.stage = true

/-- No other call has changed the stage since this one read it, unless to the same target, or the
call archives the version. -/
def StageFresh (db : Db) (_ : Writer) : UnitOfWork → Prop
  | .updateVersion loaded assigned _ => ∀ stored ∈ db.versions.get? loaded.id,
      stored.stage = loaded.stage ∨ stored.stage = assigned.stage ∨ assigned.stage = .archived
  | _ => True

instance (db : Db) (w : Writer) (u : UnitOfWork) : Decidable (StageFresh db w u) :=
  match u with
  | .updateVersion loaded assigned _ =>
    inferInstanceAs (Decidable (∀ stored ∈ db.versions.get? loaded.id,
      stored.stage = loaded.stage ∨ stored.stage = assigned.stage ∨ assigned.stage = .archived))
  | .insertModel _ => .isTrue trivial
  | .insertVersion _ _ => .isTrue trivial
  | .insertDeployment _ _ => .isTrue trivial
  | .updateDeployments _ _ => .isTrue trivial

/-- What is staged for a version is a transition of the stage that was read. -/
def UnitOfWork.Validated : UnitOfWork → Prop
  | updateVersion loaded assigned _ => canTransition loaded.stage assigned.stage = true
  | _ => True

/-- What leaves the versions alone changes no stage. -/
theorem UnitOfWork.Validated.of_not_writesVersions {u : UnitOfWork}
    (h : u.writesVersions = false) : u.Validated := by
  cases u with
  | updateVersion loaded assigned event => exact absurd h (by simp [writesVersions])
  | _ => trivial

/-- `validate_transition` makes every staged change of a stage a transition of the stage read. -/
theorem UnitOfWork.Validated.of_staged {db : Db} {w : Writer} {u : UnitOfWork}
    (h : Staged lower db w u) : u.Validated := by
  cases hw : w.isApi with
  | false =>
    obtain ⟨dirty, events, rfl⟩ := h.updateDeployments hw
    trivial
  | true =>
    cases h with
    | claim hx => exact absurd hw (by decide)
    | segment hs => exact absurd hw (by decide)
    | reap hr => exact absurd hw (by decide)
    | call hc =>
      rcases (Call.stage_eq_ok hc).versionWrite with hleaves | hwrite
      · exact .of_not_writesVersions hleaves
      · cases hwrite with
        | create hcreate =>
          obtain ⟨-, -, rfl⟩ := createVersion_eq_ok.mp hcreate
          trivial
        | approve happrove =>
          obtain ⟨v, -, hstage, rfl⟩ := approveVersion_eq_ok.mp happrove
          show canTransition v.stage .approved = true
          rw [hstage]
          decide
        | transition htransition =>
          obtain ⟨v, -, hmove, -, rfl⟩ := transitionVersion_eq_ok.mp htransition
          exact hmove

/-- A validated change of a stage stores the target, whatever it lands on. -/
theorem flush_stage {loaded assigned : ModelVersion} (stored : ModelVersion)
    (h : canTransition loaded.stage assigned.stage = true) :
    (loaded.flush assigned stored).stage = assigned.stage := by
  have hne : assigned.stage ≠ loaded.stage := by
    intro he
    rw [he, canTransition_self] at h
    exact absurd h (by decide)
  show flushColumn loaded.stage assigned.stage stored.stage = assigned.stage
  rw [flushColumn, if_neg hne]

/-- A validated write changes the stages legally exactly when it is fresh. -/
theorem UnitOfWork.Validated.legalStages_write_iff {db : Db} {w : Writer} {u : UnitOfWork}
    (h : u.Validated) : db.LegalStages (db.write u) ↔ StageFresh db w u := by
  -- A write that assigns no stage is legal, and fresh by definition.
  have hkeep : (∀ v, (u.onVersion v).stage = v.stage) → db.LegalStages (db.write u) := by
    intro hstage id v v' hv hv'
    rw [Db.get?_versions_write u hv] at hv'
    obtain rfl := Option.some.inj hv'
    exact Or.inl (hstage v)
  cases u with
  | updateVersion loaded assigned event =>
    constructor
    · intro hlegal stored hstored
      have hid : loaded.id = stored.id := (Table.get?_eq_some.mp hstored).2.symm
      have hwrite : (db.write (updateVersion loaded assigned event)).versions.get? loaded.id =
          some (loaded.flush assigned stored) := by
        rw [Db.get?_versions_write _ hstored]
        exact congrArg some (if_pos hid)
      have hmove := hlegal _ _ _ hstored hwrite
      rw [flush_stage stored h] at hmove
      rcases hmove with hsame | hedge
      · exact Or.inr (Or.inl hsame.symm)
      · -- Only ARCHIVED is entered from two stages.
        by_cases harchived : assigned.stage = .archived
        · exact Or.inr (Or.inr harchived)
        · exact Or.inl (canTransition_unique hedge h harchived)
    · intro hfresh id v v' hv hv'
      rw [Db.get?_versions_write _ hv] at hv'
      obtain rfl := Option.some.inj hv'
      unfold onVersion
      dsimp only
      split_ifs with hid
      · -- The row that the call lands on: its stage becomes the target.
        rw [flush_stage v h]
        have hvid : v.id = id := (Table.get?_eq_some.mp hv).2
        rcases hfresh v (by rw [hid, hvid]; exact hv) with hread | hsame | harchived
        · rw [hread]
          exact Or.inr h
        · exact Or.inl hsame.symm
        · rw [harchived]
          by_cases hv0 : v.stage = .archived
          · exact Or.inl hv0.symm
          · exact Or.inr (canTransition_archived hv0)
      · -- Another row keeps its stage.
        exact Or.inl rfl
  | insertModel model => exact ⟨fun _ => trivial, fun _ => hkeep fun _ => rfl⟩
  | insertVersion version event => exact ⟨fun _ => trivial, fun _ => hkeep fun _ => rfl⟩
  | insertDeployment deployment event => exact ⟨fun _ => trivial, fun _ => hkeep fun _ => rfl⟩
  | updateDeployments dirty events => exact ⟨fun _ => trivial, fun _ => hkeep fun _ => rfl⟩

/-! ## Whole runs -/

/-- No version is lost, and none goes back in the forward order. -/
def Db.StagesAdvance (db db' : Db) : Prop :=
  ∀ id v, db.versions.get? id = some v →
    ∃ v', db'.versions.get? id = some v' ∧ v.stage.position ≤ v'.stage.position

/-- A write that changes the stages legally moves none of them back. -/
theorem Db.LegalStages.stagesAdvance {db : Db} {u : UnitOfWork}
    (h : db.LegalStages (db.write u)) : db.StagesAdvance (db.write u) := by
  intro id v hv
  refine ⟨_, Db.get?_versions_write u hv, ?_⟩
  rcases h id v _ hv (Db.get?_versions_write u hv) with hsame | hedge
  · rw [hsame]
  · have hlt := position_lt_of_canTransition hedge
    omega

/-- Everything that sessions have staged was validated, in every run of the platform. -/
theorem reach_validated {ok : State → ℕ × Action → Prop} {s : State}
    (h : Reach (step lower) ok .init s) : s.Holds fun _ _ u => u.Validated :=
  reach_holds (K := fun _ u => u.Validated) h (fun _ => trivial)
    fun _ _ _ _ _ _ _ hread => .of_staged hread.staged

/-- In every run of the platform, the next commit changes the stages legally exactly when it is
fresh. -/
theorem legalStages_iff_of_reach {ok : State → ℕ × Action → Prop} {s : State}
    (h : Reach (step lower) ok .init s) {i : ℕ} {a : Action} {w : Writer} {u : UnitOfWork}
    (hcom : committed lower s.shared (s.locals i) a = some (w, u)) :
    s.shared.LegalStages (s.shared.write u) ↔ StageFresh s.shared w u := by
  have hvalid : u.Validated := by
    rcases (reach_validated h).committed hcom with hvalid | hreads
    · exact hvalid
    · exact .of_staged hreads.staged
  exact hvalid.legalStages_write_iff

/-- In a run whose commits are all fresh, no version goes back from one state to a later one. -/
theorem stagesAdvance_of_reach {s t : State}
    (hs : Reach (step lower) (CommitMeets lower StageFresh) .init s)
    (ht : Reach (step lower) (CommitMeets lower StageFresh) s t) :
    s.shared.StagesAdvance t.shared := by
  refine ht.rel (R := fun s t => s.shared.StagesAdvance t.shared) ?_ ?_ ?_
  · intro s id v hv
    exact ⟨v, hv, le_rfl⟩
  · intro a b c hab hbc id v hv
    obtain ⟨v', hv', hle⟩ := hab id v hv
    obtain ⟨v'', hv'', hle'⟩ := hbc id v' hv'
    exact ⟨v'', hv'', by omega⟩
  · rintro a ⟨i, action⟩ b hsa hfresh hstep
    rcases stepWith_cases hstep with hdb | ⟨w, u, hcom, hdb, -⟩
    · rw [hdb]
      exact fun id v hv => ⟨v, hv, le_rfl⟩
    · have hlegal := (legalStages_iff_of_reach (hs.trans hsa) hcom).mpr (hfresh (w, u) hcom)
      rw [hdb]
      exact hlegal.stagesAdvance

/-- The lifecycle is forward-only exactly as far as commits are fresh. After any run of fresh
commits the next commit changes the stages along the transition table if and only if it is fresh
too, and over such runs no version goes back and none leaves ARCHIVED. -/
theorem forwardOnly_of_reach {s t : State}
    (hs : Reach (step lower) (CommitMeets lower StageFresh) .init s)
    (ht : Reach (step lower) (CommitMeets lower StageFresh) s t) :
    (∀ i a w u, committed lower t.shared (t.locals i) a = some (w, u) →
      (t.shared.LegalStages (t.shared.write u) ↔ StageFresh t.shared w u)) ∧
    (∀ id v, s.shared.versions.get? id = some v → ∃ v', t.shared.versions.get? id = some v' ∧
      v.stage.position ≤ v'.stage.position ∧ (v.stage = .archived → v'.stage = .archived)) := by
  constructor
  · intro i a w u hcom
    exact legalStages_iff_of_reach (hs.trans ht) hcom
  · intro id v hv
    obtain ⟨v', hv', hle⟩ := stagesAdvance_of_reach hs ht id v hv
    -- ARCHIVED is the top of the order, so what does not go back from it stays.
    refine ⟨v', hv', hle, fun harchived => LifecycleStage.eq_archived_of_le ?_⟩
    rw [← harchived]
    exact hle

/-- Two sessions read version 1 as VALIDATED and both go to APPROVED; a third archives version 2. -/
def freshRun : List (ℕ × Action) :=
  [(1, .start (.approveVersion 7 none 1 50)), (2, .start (.approveVersion 8 none 1 51)),
    (2, .commit), (1, .commit), (3, .call (.transitionVersion 8 none 2 .archived)),
    (1, .start (.transitionVersion 7 none 1 .staging))]

/-- The forward-only lifecycle over `freshRun`, whose commits are fresh although they overlap. -/
theorem forwardOnly_of_reach_freshRun :
    ∃ s t, Reach (step id) (CommitMeets id StageFresh) .init s ∧
      Reach (step id) (CommitMeets id StageFresh) s t ∧
      (t.shared.versions.get? 1).map ModelVersion.stage = some .approved ∧
      (t.shared.versions.get? 2).map ModelVersion.stage = some .archived ∧
      (∀ i a w u, committed id t.shared (t.locals i) a = some (w, u) →
        (t.shared.LegalStages (t.shared.write u) ↔ StageFresh t.shared w u)) ∧
      (∀ id v, s.shared.versions.get? id = some v → ∃ v', t.shared.versions.get? id = some v' ∧
        v.stage.position ≤ v'.stage.position ∧ (v.stage = .archived → v'.stage = .archived)) := by
  have hs := exec_reach (step id) (CommitMeets id StageFresh) .init registration
  have ht := exec_reach (step id) (CommitMeets id StageFresh)
    (exec (step id) (CommitMeets id StageFresh) .init registration) freshRun
  exact ⟨_, _, hs, ht, by decide, by decide, forwardOnly_of_reach hs ht⟩

/-- Session 1 reads version 1 as VALIDATED for its approval, and session 2 archives it. -/
def overtakingRun : List (ℕ × Action) :=
  registration ++ [(1, .start (.approveVersion 7 none 1 50)),
    (2, .call (.transitionVersion 8 none 1 .archived))]

/-- The approval then commits, and the version that was ARCHIVED is APPROVED. -/
theorem approve_overtakes_archive :
    ∃ s s', Reach (step id) (fun _ _ => True) .init s ∧ step id s (1, .commit) = some s' ∧
      (s.shared.versions.get? 1).map ModelVersion.stage = some .archived ∧
      (s'.shared.versions.get? 1).map ModelVersion.stage = some .approved ∧
      ¬s.shared.LegalStages s'.shared := by
  have hreach := exec_reach (step id) (fun _ _ => True) .init overtakingRun
  have hbefore : ((exec (step id) (fun _ _ => True) State.init overtakingRun).shared.versions.get?
      1).map ModelVersion.stage = some .archived := by decide
  have hcommit : ((step id (exec (step id) (fun _ _ => True) State.init overtakingRun)
      (1, .commit)).map fun s' => (s'.shared.versions.get? 1).map ModelVersion.stage) =
        some (some .approved) := by decide
  obtain ⟨s', hs', hafter⟩ := Option.map_eq_some_iff.mp hcommit
  refine ⟨_, s', hreach, hs', hbefore, hafter, fun hlegal => ?_⟩
  obtain ⟨v, hv, hstage⟩ := Option.map_eq_some_iff.mp hbefore
  obtain ⟨v', hv', hstage'⟩ := Option.map_eq_some_iff.mp hafter
  rcases hlegal 1 v v' hv hv' with hsame | hedge
  · rw [hstage, hstage'] at hsame
    exact absurd hsame (by decide)
  · rw [hstage, hstage'] at hedge
    exact absurd hedge (by decide)

end MlopsPlatform
