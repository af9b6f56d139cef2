import MlopsPlatform.Library.ChangeLog
import MlopsPlatform.Registry.ForwardOnly

/-!
# The audit trail replays to the state

`create_version`, `approve_version`, and `transition_version` each append one event beside the row
they write. When calls of the API are atomic, the events of a version are a change log of its stage
(`ChangeLog.Replays`) along the transition table, and the approval columns agree with that log
(`ModelVersion.Audited`). The log goes up in `LifecycleStage.position`, so a version that has been
approved is past VALIDATED for good: it is never approved again, and `transition_version`, which
asks for the flag before it enters APPROVED, cannot have been what approved it.
-/

namespace MlopsPlatform

open Transition ChangeLog

variable {lower : String → String}

/-! ## A version and its trail -/

/-- The audit trail of a version, in the order of its events. -/
def Db.trail (db : Db) (versionId : Uuid) : List ModelVersionEvent :=
  db.versionEvents.select fun e => e.modelVersionId = versionId

/-- A version agrees with its trail: the trail replays to the stage, and the approval columns are
those of its approval, which `approve_version` recorded. -/
structure ModelVersion.Audited (v : ModelVersion) (trail : List ModelVersionEvent) : Prop where
  /-- The trail leads from DRAFT to the stage along the transition table. -/
  replays : Replays ModelVersionEvent.fromStage ModelVersionEvent.toStage .draft
    (fun a b => canTransition a b = true) trail v.stage
  /-- The version is approved exactly when the trail has an approval. -/
  approved : v.approvedAt.isSome = true ↔ ∃ e ∈ trail, e.toStage = .approved
  /-- The approval was made by `approve_version`, and its actor is the approver. -/
  approver : ∀ e ∈ trail, e.toStage = .approved →
    e.recordedBy = .approveVersion ∧ e.actorId.isSome = true ∧ v.approvedBy = e.actorId

namespace ModelVersion.Audited

variable {v v' : ModelVersion} {trail : List ModelVersionEvent} {e : ModelVersionEvent}

/-- No event of a trail is past the stage of the version. -/
theorem position_le (h : v.Audited trail) (he : e ∈ trail) :
    e.toStage.position ≤ v.stage.position :=
  h.replays.le_of_mem (f := LifecycleStage.position)
    (fun _ _ hmove => position_lt_of_canTransition hmove) he

/-- A VALIDATED version has not been approved. -/
theorem toStage_ne_approved (h : v.Audited trail) (hstage : v.stage = .validated) (he : e ∈ trail) :
    e.toStage ≠ .approved := by
  intro happroved
  have hle := h.position_le he
  rw [hstage, happroved] at hle
  exact absurd hle (by decide)

/-- A VALIDATED version does not have the flag. -/
theorem not_approved (h : v.Audited trail) (hstage : v.stage = .validated) :
    v.approvedAt.isSome = false := by
  rw [Bool.eq_false_iff]
  intro happroved
  obtain ⟨e, he, hto⟩ := h.approved.mp happroved
  exact h.toStage_ne_approved hstage he hto

/-- A new version agrees with the event of its creation. -/
theorem created (hstage : v.stage = .draft) (hat : v.approvedAt = none) (hfrom : e.fromStage = none)
    (hto : e.toStage = .draft) : v.Audited [e] := by
  refine ⟨?_, ?_, ?_⟩
  · rw [hstage]
    exact .created hfrom hto
  · simp [hat, hto]
  · intro f hf happroved
    rw [List.mem_singleton.mp hf, hto] at happroved
    exact absurd happroved (by decide)

/-- The approval of a VALIDATED version and its event keep the agreement. -/
theorem approve (h : v.Audited trail) (hstage : v.stage = .validated)
    (hfrom : e.fromStage = some v.stage) (hto : e.toStage = .approved)
    (hop : e.recordedBy = .approveVersion) (hactor : e.actorId.isSome = true)
    (hstage' : v'.stage = .approved) (hat' : v'.approvedAt.isSome = true)
    (hby' : v'.approvedBy = e.actorId) : v'.Audited (trail ++ [e]) := by
  have hmove : canTransition v.stage e.toStage = true := by
    rw [hstage, hto]
    decide
  refine ⟨?_, ?_, ?_⟩
  · -- The trail goes on with the approval.
    rw [hstage', ← hto]
    exact .changed h.replays hfrom hmove
  · exact iff_of_true hat' ⟨e, by simp, hto⟩
  · intro f hf happroved
    -- The new event is the only approval of the trail.
    rcases List.mem_append.mp hf with hf | hf
    · exact absurd happroved (h.toStage_ne_approved hstage hf)
    · rw [List.mem_singleton.mp hf]
      exact ⟨hop, hactor, hby'⟩

/-- A promotion and its event keep the agreement. It does not enter APPROVED, which only an
unapproved version could do next. -/
theorem transition (h : v.Audited trail) (hmove : canTransition v.stage e.toStage = true)
    (hgate : e.toStage ∈ requiresApproval → v.approvedAt.isSome = true)
    (hfrom : e.fromStage = some v.stage) (hstage' : v'.stage = e.toStage)
    (hat' : v'.approvedAt = v.approvedAt) (hby' : v'.approvedBy = v.approvedBy) :
    v'.Audited (trail ++ [e]) := by
  have hne : e.toStage ≠ .approved := by
    intro hto
    -- APPROVED is entered from VALIDATED only, where the flag is not set and the gate is closed.
    have hvalidated : v.stage = .validated :=
      @canTransition_unique v.stage .validated .approved (hto ▸ hmove) (by decide) (by decide)
    have hflag := hgate (by rw [hto]; decide)
    rw [h.not_approved hvalidated] at hflag
    exact absurd hflag (by decide)
  refine ⟨?_, ?_, ?_⟩
  · rw [hstage']
    exact .changed h.replays hfrom hmove
  · rw [hat', h.approved]
    constructor
    · rintro ⟨f, hf, hto⟩
      exact ⟨f, List.mem_append_left _ hf, hto⟩
    · rintro ⟨f, hf, hto⟩
      rcases List.mem_append.mp hf with hf | hf
      · exact ⟨f, hf, hto⟩
      · rw [List.mem_singleton.mp hf] at hto
        exact absurd hto hne
  · intro f hf hto
    rcases List.mem_append.mp hf with hf | hf
    · rw [hby']
      exact h.approver f hf hto
    · rw [List.mem_singleton.mp hf] at hto
      exact absurd hto hne

end ModelVersion.Audited

/-! ## Atomic calls keep the agreement -/

/-- Every version agrees with its trail, and events are of versions that have been created. -/
structure Db.Audited (db : Db) : Prop where
  /-- Every version agrees with its trail. -/
  version : ∀ v ∈ db.versions, v.Audited (db.trail v.id)
  /-- There is no event of a version to come. -/
  event : ∀ e ∈ db.versionEvents, e.modelVersionId < db.versions.next

/-- The empty database agrees. -/
theorem Db.audited_empty : Db.empty.Audited :=
  ⟨fun v hv => absurd hv (Table.not_mem_empty v), fun e he => absurd he (Table.not_mem_empty e)⟩

namespace Db.Audited

variable {db : Db}

/-- A database with the same versions and version events agrees as well. -/
theorem of_eq {db' : Db} (h : db.Audited) (hversions : db'.versions = db.versions)
    (hevents : db'.versionEvents = db.versionEvents) : db'.Audited := by
  refine ⟨fun v hv => ?_, fun e he => ?_⟩
  · rw [hversions] at hv
    rw [trail, hevents]
    exact h.version v hv
  · rw [hevents] at he
    rw [hversions]
    exact h.event e he

/-- A version to come has no trail. -/
theorem trail_next (h : db.Audited) : db.trail db.versions.next = [] := by
  rw [trail, Table.select, List.filter_eq_nil_iff]
  intro e he heq
  have hlt := h.event e he
  rw [of_decide_eq_true heq] at hlt
  exact absurd hlt (lt_irrefl _)

/-- A created version agrees with the event of its creation, and the others are as before. -/
theorem insertVersion (h : db.Audited) {version : Table.Draft ModelVersion.id}
    {event : Uuid → Table.Draft ModelVersionEvent.id}
    (hversion : ∀ id, (version.1 id).stage = .draft ∧ (version.1 id).approvedAt = none)
    (hevent : ∀ id n, ((event id).1 n).modelVersionId = id ∧ ((event id).1 n).fromStage = none ∧
      ((event id).1 n).toStage = .draft) :
    (db.write (.insertVersion version event)).Audited := by
  obtain ⟨hid, hfrom, hto⟩ := hevent db.versions.next db.versionEvents.next
  have htrail : ∀ id, (db.write (.insertVersion version event)).trail id = db.trail id ++
      if db.versions.next = id then [(event db.versions.next).1 db.versionEvents.next] else [] := by
    intro id
    -- Only the trail of the new version gets longer.
    show (db.versionEvents.insert _).select _ = _
    rw [Table.select_insert, hid]
    simp [trail]
  refine ⟨fun v hv => ?_, fun e he => ?_⟩
  · rcases Table.mem_insert.mp hv with hv | rfl
    · have hne : db.versions.next ≠ v.id := (Table.key_lt_next hv).ne'
      rw [htrail, if_neg hne, List.append_nil]
      exact h.version v hv
    · rw [htrail, version.2, if_pos rfl, h.trail_next, List.nil_append]
      exact .created (hversion _).1 (hversion _).2 hfrom hto
  · show e.modelVersionId < db.versions.next + 1
    rcases Table.mem_insert.mp he with he | rfl
    · exact Nat.lt_succ_of_lt (h.event e he)
    · rw [hid]
      exact Nat.lt_succ_self _

/-- An update of a version lands on the row that was read, so it keeps the agreement if the assigned
columns agree with the longer trail. -/
theorem updateVersion (h : db.Audited) {id : Uuid} {loaded assigned : ModelVersion}
    {event : Table.Draft ModelVersionEvent.id} (hloaded : db.versions.get? id = some loaded)
    (hevent : (event.1 db.versionEvents.next).modelVersionId = loaded.id)
    (hassigned : (loaded.flush assigned loaded).Audited
      (db.trail loaded.id ++ [event.1 db.versionEvents.next])) :
    (db.write (.updateVersion loaded assigned event)).Audited := by
  obtain ⟨hmem, -⟩ := Table.get?_eq_some.mp hloaded
  have htrail : ∀ id, (db.write (.updateVersion loaded assigned event)).trail id = db.trail id ++
      if loaded.id = id then [event.1 db.versionEvents.next] else [] := by
    intro id
    -- Only the trail of this version gets longer.
    show (db.versionEvents.insert _).select _ = _
    rw [Table.select_insert, hevent]
    simp [trail]
  refine ⟨fun v hv => ?_, fun e he => ?_⟩
  · rcases Db.mem_versions_write hv with ⟨w, hw, rfl⟩ | ⟨version, ev, hu, -⟩
    · rw [htrail, UnitOfWork.onVersion_id]
      unfold UnitOfWork.onVersion
      dsimp only
      split_ifs with hid
      · obtain rfl : loaded = w := db.versions.eq_of_key_eq hmem hw hid
        exact hassigned
      · rw [List.append_nil]
        exact h.version w hw
    · exact absurd hu (by simp)
  · rcases Table.mem_insert.mp he with he | rfl
    · exact h.event e he
    · rw [hevent]
      show loaded.id < db.versions.next
      exact Table.key_lt_next hmem

/-- A call that commits at once keeps the agreement. -/
theorem of_call (h : db.Audited) {call : Call} {u : UnitOfWork}
    (hc : call.Returns lower db u) : (db.write u).Audited := by
  rcases hc.versionWrite with hleaves | hwrite
  · obtain ⟨hversions, hevents, -⟩ := UnitOfWork.write_of_not_writesVersions hleaves db
    exact h.of_eq hversions hevents
  · cases hwrite with
    | create hcreate =>
      obtain ⟨-, -, rfl⟩ := createVersion_eq_ok.mp hcreate
      exact h.insertVersion (fun id => ⟨rfl, rfl⟩) fun id n => ⟨rfl, rfl, rfl⟩
    | approve happrove =>
      obtain ⟨v, hv, hstage, rfl⟩ := approveVersion_eq_ok.mp happrove
      refine h.updateVersion hv rfl ?_
      exact (h.version v (Table.get?_eq_some.mp hv).1).approve hstage rfl rfl rfl rfl
        (flushColumn_loaded _ _) (by simp [ModelVersion.flush]) (flushColumn_loaded _ _)
    | transition htransition =>
      obtain ⟨v, hv, hmove, hgate, rfl⟩ := transitionVersion_eq_ok.mp htransition
      refine h.updateVersion hv rfl ?_
      exact (h.version v (Table.get?_eq_some.mp hv).1).transition hmove hgate rfl
        (flushColumn_loaded _ _) (flushColumn_loaded _ _) (flushColumn_loaded _ _)

end Db.Audited

/-! ## Whole runs -/

/-- What a worker or a reaper stages leaves the versions alone. -/
theorem not_writesVersions_of_staged {db : Db} {w : Writer} {u : UnitOfWork}
    (h : Staged lower db w u) (hw : w.isApi = false) : u.writesVersions = false := by
  obtain ⟨dirty, events, rfl⟩ := h.updateDeployments hw
  rfl

/-- A commit in a run of atomic calls leaves the versions alone, or is the commit of a call on what
that call has just read. -/
theorem leavesVersions_or_returns {db : Db} {w : Writer} {u : UnitOfWork}
    (h : u.writesVersions = false ∨ Staged lower db w u) :
    u.writesVersions = false ∨ ∃ call : Call, call.Returns lower db u := by
  rcases h with h | h
  · exact Or.inl h
  · cases w with
    | api call =>
      cases h with
      | call hc => exact Or.inr ⟨call, Call.stage_eq_ok hc⟩
    | worker => exact Or.inl (not_writesVersions_of_staged h rfl)
    | reaper => exact Or.inl (not_writesVersions_of_staged h rfl)

/-- In every run of atomic calls the database agrees with its trails, and nothing held between reads
and commit is about a version. -/
theorem reach_audited {s : State} (h : Reach (step lower) AtomicCalls .init s) :
    s.shared.Audited ∧ s.Holds fun _ _ u => u.writesVersions = false := by
  refine reach_invariant (R := fun _ _ => True) h Db.audited_empty (State.init_holds _)
    ?_ ?_ ?_ ?_ ?_
  · intro db d
    rfl
  · -- Calls are atomic, so only workers and reapers hold anything.
    intro s i a w u hok _ hsplit hw
    exact not_writesVersions_of_staged hw.staged (hok.not_api hsplit)
  · intro s i a w u _ hdb _ hu _
    refine ⟨?_, trivial⟩
    rcases leavesVersions_or_returns (hu.imp_right Reads.staged) with hleaves | ⟨call, hc⟩
    · obtain ⟨hversions, hevents, -⟩ := UnitOfWork.write_of_not_writesVersions hleaves s.shared
      exact hdb.of_eq hversions hevents
    · exact hdb.of_call hc
  · intro db
    trivial
  · intro db db' w u _ hu
    exact hu

/-- No approved version is lost, and the columns of its approval stay as they are. -/
def Db.KeepsApprovers (db db' : Db) : Prop :=
  ∀ id v, db.versions.get? id = some v → v.approvedAt.isSome = true →
    ∃ v', db'.versions.get? id = some v' ∧
      v'.approvedAt = v.approvedAt ∧ v'.approvedBy = v.approvedBy

/-- A call that commits at once leaves the approvals that were made before as they are. -/
theorem Db.Audited.keepsApprovers {db : Db} (h : db.Audited) {call : Call} {u : UnitOfWork}
    (hc : call.Returns lower db u) : db.KeepsApprovers (db.write u) := by
  intro id v hv happroved
  refine ⟨u.onVersion v, Db.get?_versions_write u hv, ?_⟩
  rcases hc.versionWrite with hleaves | hwrite
  · rw [(UnitOfWork.write_of_not_writesVersions hleaves db).2.2]
    exact ⟨rfl, rfl⟩
  · cases hwrite with
    | create hcreate =>
      obtain ⟨-, -, rfl⟩ := createVersion_eq_ok.mp hcreate
      exact ⟨rfl, rfl⟩
    | approve happrove =>
      obtain ⟨w, hw, hstage, rfl⟩ := approveVersion_eq_ok.mp happrove
      obtain ⟨hmem, -⟩ := Table.get?_eq_some.mp hw
      unfold UnitOfWork.onVersion
      dsimp only
      split_ifs with hid
      · -- The version that was read is VALIDATED, so it has no approval yet.
        obtain rfl : w = v := db.versions.eq_of_key_eq hmem (Table.get?_eq_some.mp hv).1 hid
        rw [(h.version w hmem).not_approved hstage] at happroved
        exact absurd happroved (by decide)
      · exact ⟨rfl, rfl⟩
    | transition htransition =>
      obtain ⟨w, -, -, -, rfl⟩ := transitionVersion_eq_ok.mp htransition
      unfold UnitOfWork.onVersion
      dsimp only
      split_ifs with hid
      · -- A promotion assigns the stage only.
        exact ⟨flushColumn_unchanged _ _, flushColumn_unchanged _ _⟩
      · exact ⟨rfl, rfl⟩

/-- In every run of atomic calls an approval stays as it is from one state to a later one. -/
theorem keepsApprovers_of_reach {s t : State} (hs : Reach (step lower) AtomicCalls .init s)
    (ht : Reach (step lower) AtomicCalls s t) : s.shared.KeepsApprovers t.shared := by
  refine ht.rel (R := fun s t => s.shared.KeepsApprovers t.shared) ?_ ?_ ?_
  · intro s id v hv _
    exact ⟨v, hv, rfl, rfl⟩
  · intro a b c hab hbc id v hv happroved
    obtain ⟨v', hv', hat, hby⟩ := hab id v hv happroved
    obtain ⟨v'', hv'', hat', hby'⟩ := hbc id v' hv' (by rw [hat]; exact happroved)
    exact ⟨v'', hv'', hat'.trans hat, hby'.trans hby⟩
  · rintro a ⟨i, action⟩ b hsa _ hstep
    rcases stepWith_cases hstep with hdb | ⟨w, u, hcom, hdb, -⟩
    · rw [hdb]
      exact fun id v hv _ => ⟨v, hv, rfl, rfl⟩
    · obtain ⟨haudited, hheld⟩ := reach_audited (hs.trans hsa)
      rw [hdb]
      rcases leavesVersions_or_returns ((hheld.committed hcom).imp_right Reads.staged) with
        hleaves | ⟨call, hc⟩
      · intro id v hv _
        rw [(UnitOfWork.write_of_not_writesVersions hleaves a.shared).1]
        exact ⟨v, hv, rfl, rfl⟩
      · exact haudited.keepsApprovers hc

/-- In every run of atomic calls, the events of a version in the order of their ids are a chain of
allowed transitions from its creation to its stage, in which no stage comes twice. The version is
approved exactly when the chain has the step from VALIDATED to APPROVED, `approve_version` made that
step and `transition_version` never does, its actor is the approver, and the approval stays as it is
in every later state. -/
theorem auditTrail_of_reach {s t : State} (hs : Reach (step lower) AtomicCalls .init s)
    (ht : Reach (step lower) AtomicCalls s t) :
    (∀ v ∈ s.shared.versions,
      (∃ e rest, s.shared.trail v.id = e :: rest ∧ e.fromStage = none ∧ e.toStage = .draft) ∧
      (s.shared.trail v.id).IsChain
        (fun e f => f.fromStage = some e.toStage ∧ f.toStage ∈ allowedTransitions e.toStage) ∧
      (s.shared.trail v.id).getLast?.map ModelVersionEvent.toStage = some v.stage ∧
      ((s.shared.trail v.id).map ModelVersionEvent.toStage).Nodup ∧
      (v.approvedAt.isSome = true ↔
        ∃ e ∈ s.shared.trail v.id, e.fromStage = some .validated ∧ e.toStage = .approved) ∧
      (∀ e ∈ s.shared.trail v.id, e.toStage = .approved →
        e.recordedBy = .approveVersion ∧ e.actorId.isSome = true ∧ v.approvedBy = e.actorId)) ∧
    (∀ id v, s.shared.versions.get? id = some v → v.approvedAt.isSome = true →
      ∃ v', t.shared.versions.get? id = some v' ∧
        v'.approvedAt = v.approvedAt ∧ v'.approvedBy = v.approvedBy) := by
  refine ⟨fun v hv => ?_, keepsApprovers_of_reach hs ht⟩
  have h := (reach_audited hs).1.version v hv
  refine ⟨h.replays.head, ?_, h.replays.getLast?, ?_, ?_, h.approver⟩
  · exact h.replays.isChain.imp fun e f hef => ⟨hef.1, of_decide_eq_true hef.2⟩
  · exact h.replays.nodup (f := LifecycleStage.position) fun _ _ => position_lt_of_canTransition
  · rw [h.approved]
    constructor
    · rintro ⟨e, he, hto⟩
      refine ⟨e, he, ?_, hto⟩
      -- Only VALIDATED leads to APPROVED.
      rcases h.replays.entry he with ⟨-, hdraft⟩ | ⟨before, hfrom, hmove⟩
      · rw [hto] at hdraft
        exact absurd hdraft (by decide)
      · rw [hto] at hmove
        rw [hfrom, canTransition_unique hmove (b := .validated) (by decide) (by decide)]
    · rintro ⟨e, he, -, hto⟩
      exact ⟨e, he, hto⟩

/-- Version 1 is approved and promoted, between calls that fail. -/
def promotionRun : List (ℕ × Action) :=
  registration ++
    [(0, .call (.transitionVersion 7 none 1 .approved)), (0, .call (.approveVersion 8 none 1 50)),
      (0, .call (.approveVersion 9 none 1 51)), (0, .call (.transitionVersion 7 none 1 .staging))]

/-- The trail of version 1 after `promotionRun`, and its approval after it has been archived. -/
theorem auditTrail_of_reach_promotionRun :
    ∃ s t, Reach (step id) AtomicCalls .init s ∧ Reach (step id) AtomicCalls s t ∧
      (s.shared.versions.get? 1).map ModelVersion.approvedBy = some (some 8) ∧
      (t.shared.versions.get? 1).map ModelVersion.stage = some .archived ∧
      (∀ v ∈ s.shared.versions,
        (∃ e rest, s.shared.trail v.id = e :: rest ∧ e.fromStage = none ∧ e.toStage = .draft) ∧
        (s.shared.trail v.id).IsChain
          (fun e f => f.fromStage = some e.toStage ∧ f.toStage ∈ allowedTransitions e.toStage) ∧
        (s.shared.trail v.id).getLast?.map ModelVersionEvent.toStage = some v.stage ∧
        ((s.shared.trail v.id).map ModelVersionEvent.toStage).Nodup ∧
        (v.approvedAt.isSome = true ↔
          ∃ e ∈ s.shared.trail v.id, e.fromStage = some .validated ∧ e.toStage = .approved) ∧
        (∀ e ∈ s.shared.trail v.id, e.toStage = .approved →
          e.recordedBy = .approveVersion ∧ e.actorId.isSome = true ∧ v.approvedBy = e.actorId)) ∧
      (∀ id v, s.shared.versions.get? id = some v → v.approvedAt.isSome = true →
        ∃ v', t.shared.versions.get? id = some v' ∧
          v'.approvedAt = v.approvedAt ∧ v'.approvedBy = v.approvedBy) := by
  have hs := exec_reach (step id) AtomicCalls .init promotionRun
  have ht := exec_reach (step id) AtomicCalls (exec (step id) AtomicCalls .init promotionRun)
    [(0, .call (.transitionVersion 7 none 1 .archived))]
  exact ⟨_, _, hs, ht, by decide, by decide, auditTrail_of_reach hs ht⟩

end MlopsPlatform
