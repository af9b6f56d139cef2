import MlopsPlatform.System

/-!
# The governance rule

An unapproved version never reaches a stage that requires approval, and nothing is deployed to
staging or production from a version that was never approved (ADR-0005). Both hold in every
interleaving of the platform's sessions, because an approval leaves evidence (`Db.Approved`) that no
write takes away: approvals are assigned but never cleared, and the trail is append-only. A
promotion or a request that relied on the evidence when it read can therefore still rely on it when
it commits, whatever was committed in between, even if a lost update has moved the stage back by
then.
-/

namespace MlopsPlatform

open Transition

/-! ## The evidence of an approval -/

/-- A version carries an approval: the approver and the time are set, and the audit trail has the
event with which `approve_version` committed it. -/
def Db.Approved (db : Db) (versionId : Uuid) : Prop :=
  ∃ v, db.versions.get? versionId = some v ∧ v.approvedAt.isSome = true ∧
    v.approvedBy.isSome = true ∧ ∃ e ∈ db.versionEvents,
      e.modelVersionId = versionId ∧ e.toStage = .approved ∧ e.recordedBy = .approveVersion

/-- The governance rule on stored rows. A version with any trace of an approval carries all of
it, and so does the version of a deployment outside development. -/
structure Db.Governed (db : Db) : Prop where
  /-- A stage that requires approval, a time, or an approver comes with the whole approval. -/
  version : ∀ v ∈ db.versions,
    v.stage ∈ requiresApproval ∨ v.approvedAt.isSome = true ∨ v.approvedBy.isSome = true →
      db.Approved v.id
  /-- A deployment to staging or production comes with the approval of its version. -/
  deployment : ∀ d ∈ db.deployments, d.environment ≠ .development → db.Approved d.modelVersionId

/-- The columns of an approval that a unit of work assigns to a version: both of them, with the
event of `approve_version`, or neither, in which case the stage that it assigns may require an
approval only if the version has one. -/
def AssignsSoundly (db : Db) (loaded assigned : ModelVersion)
    (event : Table.Draft ModelVersionEvent.id) : Prop :=
  (assigned.approvedAt.isSome = true ∧ assigned.approvedBy.isSome = true ∧
      ∀ id, (event.1 id).modelVersionId = loaded.id ∧ (event.1 id).toStage = .approved ∧
        (event.1 id).recordedBy = .approveVersion) ∨
    (assigned.approvedAt = loaded.approvedAt ∧ assigned.approvedBy = loaded.approvedBy ∧
      (assigned.stage ∈ requiresApproval → db.Approved loaded.id))

/-- What a staged unit of work must bring along to keep the rule on whatever row it lands. -/
def UnitOfWork.Sound (db : Db) : UnitOfWork → Prop
  | insertVersion version _ => ∀ id, (version.1 id).stage = .draft ∧
      (version.1 id).approvedAt = none ∧ (version.1 id).approvedBy = none
  | updateVersion loaded assigned event =>
    (db.versions.get? loaded.id).isSome = true ∧
      (loaded.approvedAt.isSome = true ∨ loaded.approvedBy.isSome = true →
        db.Approved loaded.id) ∧
      AssignsSoundly db loaded assigned event
  | insertDeployment deployment _ => ∀ id, (deployment.1 id).environment ≠ .development →
      db.Approved (deployment.1 id).modelVersionId
  | _ => True

/-- The changes of the database that a staged unit of work survives: versions stay, and so do
approvals. -/
def KeepsApprovals (db db' : Db) : Prop :=
  ∀ id, ((db.versions.get? id).isSome = true → (db'.versions.get? id).isSome = true) ∧
    (db.Approved id → db'.Approved id)

/-- What a staged unit of work brings along is not lost while versions and approvals stay. -/
theorem UnitOfWork.Sound.of_keepsApprovals {db db' : Db} {u : UnitOfWork}
    (hR : KeepsApprovals db db') (h : u.Sound db) : u.Sound db' := by
  cases u with
  | insertVersion version event => exact h
  | updateVersion loaded assigned event =>
    obtain ⟨hstored, hloaded, hassigned⟩ := h
    refine ⟨(hR _).1 hstored, fun hl => (hR _).2 (hloaded hl), ?_⟩
    rcases hassigned with happrove | ⟨hat, hby, hstage⟩
    · exact Or.inl happrove
    · exact Or.inr ⟨hat, hby, fun hs => (hR _).2 (hstage hs)⟩
  | insertDeployment deployment event => exact fun id he => (hR _).2 (h id he)
  | insertModel model => trivial
  | updateDeployments dirty events => trivial

/-! ## What the reads of each operation stage -/

/-- Every unit of work that reads of a governed database stage brings along what it needs. -/
theorem UnitOfWork.Sound.of_staged {lower : String → String} {db : Db} {w : Writer}
    {u : UnitOfWork} (hdb : db.Governed) (h : Staged lower db w u) : u.Sound db := by
  -- A loaded version with any trace of an approval carries all of it.
  have hloaded : ∀ {id : Uuid} {v : ModelVersion}, db.versions.get? id = some v →
      (db.versions.get? v.id).isSome = true ∧
        (v.approvedAt.isSome = true ∨ v.approvedBy.isSome = true → db.Approved v.id) := by
    intro id v hv
    obtain ⟨hmem, hid⟩ := Table.get?_eq_some.mp hv
    refine ⟨?_, fun hset => hdb.version v hmem (Or.inr hset)⟩
    rw [hid, hv]
    rfl
  cases h with
  | claim hx => trivial
  | segment hs =>
    obtain ⟨d, assigned, event, message, -, -, rfl⟩ := processDeployment_eq_some hs
    trivial
  | reap hr =>
    obtain ⟨stuck, -, rfl⟩ := reapStuck_eq_some hr
    trivial
  | @call call u hc =>
    cases call with
    | createModel actorId data =>
      obtain ⟨key, -, rfl⟩ := Option.map_eq_some_iff.mp (Call.stage_eq_ok hc)
      trivial
    | createVersion actorId correlationId modelId data =>
      obtain ⟨-, -, rfl⟩ := createVersion_eq_ok.mp (Call.stage_eq_ok hc)
      exact fun id => ⟨rfl, rfl, rfl⟩
    | approveVersion actorId correlationId versionId now =>
      obtain ⟨v, hv, -, rfl⟩ := approveVersion_eq_ok.mp (Call.stage_eq_ok hc)
      obtain ⟨hstored, hset⟩ := hloaded hv
      exact ⟨hstored, hset, Or.inl ⟨rfl, rfl, fun id => ⟨rfl, rfl, rfl⟩⟩⟩
    | transitionVersion actorId correlationId versionId target =>
      obtain ⟨v, hv, -, hgate, rfl⟩ := transitionVersion_eq_ok.mp (Call.stage_eq_ok hc)
      obtain ⟨hstored, hset⟩ := hloaded hv
      -- The gate reads the time only, but a governed version has the rest as well.
      exact ⟨hstored, hset, Or.inr ⟨rfl, rfl, fun hs => hset (Or.inl (hgate hs))⟩⟩
    | requestDeployment actorId correlationId data =>
      obtain ⟨v, deployment, event, -, hv, hdep, rfl, hrow⟩ :=
        requestDeployment_eq_staged (Call.stage_eq_ok hc)
      intro id henv
      obtain ⟨hmem, hid⟩ := Table.get?_eq_some.mp hv
      rw [(hrow id).1] at henv ⊢
      -- The gate reads the stage only, and outside development it asks for an approved one.
      have hstage := requiresApproval_of_isDeployable hdep henv
      have happroved := hdb.version v hmem (Or.inl hstage)
      rw [hid] at happroved
      exact happroved
    | retryDeployment actorId deploymentId =>
      obtain ⟨d, -, -, rfl⟩ := retryDeployment_eq_ok.mp (Call.stage_eq_ok hc)
      trivial
    | rollbackDeployment actorId deploymentId =>
      obtain ⟨d, t, -, -, -, rfl⟩ := rollbackDeployment_eq_ok.mp (Call.stage_eq_ok hc)
      trivial

/-! ## What a sound write keeps -/

/-- A sound write clears neither column of an approval. -/
theorem UnitOfWork.Sound.onVersion_approval {db : Db} {u : UnitOfWork} (h : u.Sound db)
    (v : ModelVersion) :
    (v.approvedAt.isSome = true → (u.onVersion v).approvedAt.isSome = true) ∧
      (v.approvedBy.isSome = true → (u.onVersion v).approvedBy.isSome = true) := by
  cases u with
  | updateVersion loaded assigned event =>
    obtain ⟨-, -, hassigned⟩ := h
    have hat : assigned.approvedAt = loaded.approvedAt ∨ assigned.approvedAt.isSome = true :=
      hassigned.elim (fun h => Or.inr h.1) (fun h => Or.inl h.1)
    have hby : assigned.approvedBy = loaded.approvedBy ∨ assigned.approvedBy.isSome = true :=
      hassigned.elim (fun h => Or.inr h.2.1) (fun h => Or.inl h.2.1)
    unfold onVersion
    dsimp only
    split_ifs with hid
    · exact ⟨flushColumn_isSome hat, flushColumn_isSome hby⟩
    · exact ⟨id, id⟩
  | insertVersion version event => exact ⟨id, id⟩
  | insertModel model => exact ⟨id, id⟩
  | insertDeployment deployment event => exact ⟨id, id⟩
  | updateDeployments dirty events => exact ⟨id, id⟩

/-- A sound write takes no approval away. -/
theorem UnitOfWork.Sound.approved_write {db : Db} {u : UnitOfWork} {id : Uuid} (h : u.Sound db)
    (happroved : db.Approved id) : (db.write u).Approved id := by
  obtain ⟨v, hv, hat, hby, e, he, hevent⟩ := happroved
  obtain ⟨hat', hby'⟩ := h.onVersion_approval v
  exact ⟨u.onVersion v, Db.get?_versions_write u hv, hat' hat, hby' hby, e,
    Db.mem_versionEvents_write u he, hevent⟩

/-- A sound write is a change that staged units of work survive. -/
theorem UnitOfWork.Sound.keepsApprovals {db : Db} {u : UnitOfWork} (h : u.Sound db) :
    KeepsApprovals db (db.write u) := by
  refine fun id => ⟨fun hv => ?_, h.approved_write⟩
  obtain ⟨v, hv⟩ := Option.isSome_iff_exists.mp hv
  rw [Db.get?_versions_write u hv]
  rfl

/-- A sound update leaves a version with any trace of an approval with the whole approval. -/
theorem UnitOfWork.Sound.approved_of_update {db : Db} (hdb : db.Governed)
    {loaded assigned w : ModelVersion} {event : Table.Draft ModelVersionEvent.id}
    (h : (updateVersion loaded assigned event).Sound db) (hw : w ∈ db.versions)
    (hid : loaded.id = w.id)
    (htrace : (loaded.flush assigned w).stage ∈ requiresApproval ∨
      (loaded.flush assigned w).approvedAt.isSome = true ∨
      (loaded.flush assigned w).approvedBy.isSome = true) :
    (db.write (updateVersion loaded assigned event)).Approved w.id := by
  obtain ⟨-, hloaded, hassigned⟩ := id h
  by_cases hbefore : db.Approved w.id
  · exact h.approved_write hbefore
  rcases hassigned with ⟨hat, hby, hevent⟩ | ⟨hat, hby, hstage⟩
  · -- An approval of a version that had no trace of one changes both columns.
    have hnone : loaded.approvedAt = none ∧ loaded.approvedBy = none := by
      rw [← hid] at hbefore
      have hno := fun hset => hbefore (hloaded hset)
      simpa [not_or] using hno
    have hflush : ∀ {α : Type} [DecidableEq α] {loaded assigned stored : Option α},
        loaded = none → assigned.isSome = true →
          (flushColumn loaded assigned stored).isSome = true := by
      intro α _ loaded assigned stored hl ha
      have hne : assigned ≠ loaded := by
        rintro rfl
        simp [hl] at ha
      rw [flushColumn, if_neg hne]
      exact ha
    have hget := Db.get?_versions_write (updateVersion loaded assigned event)
      (Table.get?_key hw)
    have honw : (updateVersion loaded assigned event).onVersion w = loaded.flush assigned w :=
      if_pos hid
    rw [honw] at hget
    obtain ⟨hev, hto, hop⟩ := hevent db.versionEvents.next
    exact ⟨_, hget, hflush hnone.1 hat, hflush hnone.2 hby, event.1 db.versionEvents.next,
      Table.mem_insert.mpr (Or.inr rfl), by rw [hev, hid], hto, hop⟩
  · -- A promotion leaves both columns alone, and enters such a stage with an approval only.
    have hold : w.stage ∈ requiresApproval ∨ w.approvedAt.isSome = true ∨
        w.approvedBy.isSome = true := by
      simp only [ModelVersion.flush, hat, hby, flushColumn_unchanged] at htrace
      rcases htrace with hs | hset
      · rcases flushColumn_cases loaded.stage assigned.stage w.stage with ⟨-, he⟩ | ⟨-, he⟩
        · exact Or.inl (he ▸ hs)
        · have happroved := hstage (he ▸ hs)
          rw [hid] at happroved
          exact absurd happroved hbefore
      · exact Or.inr hset
    exact absurd (hdb.version w hw hold) hbefore

/-- A sound write keeps the governance rule. -/
theorem UnitOfWork.Sound.governed_write {db : Db} {u : UnitOfWork} (hdb : db.Governed)
    (h : u.Sound db) : (db.write u).Governed := by
  constructor
  · intro v hv htrace
    rcases Db.mem_versions_write hv with ⟨w, hw, rfl⟩ | ⟨version, event, rfl, rfl⟩
    · rw [u.onVersion_id]
      cases u with
      | updateVersion loaded assigned event =>
        unfold onVersion at htrace
        dsimp only at htrace
        split_ifs at htrace with hid
        · exact h.approved_of_update hdb hw hid htrace
        · exact h.approved_write (hdb.version w hw htrace)
      | insertVersion version event => exact h.approved_write (hdb.version w hw htrace)
      | insertModel model => exact h.approved_write (hdb.version w hw htrace)
      | insertDeployment deployment event => exact h.approved_write (hdb.version w hw htrace)
      | updateDeployments dirty events => exact h.approved_write (hdb.version w hw htrace)
    · -- A new version is a draft without an approval.
      obtain ⟨hstage, hat, hby⟩ := h db.versions.next
      rw [hstage, hat, hby] at htrace
      simp [requiresApproval] at htrace
  · intro d hd henv
    rcases Db.mem_deployments_write hd with ⟨e, he, rfl⟩ | ⟨deployment, event, rfl, rfl⟩
    · obtain ⟨-, hversion, henvironment⟩ := u.onDeployment_frame e
      rw [henvironment] at henv
      rw [hversion]
      exact h.approved_write (hdb.deployment e he henv)
    · exact h.approved_write (h db.deployments.next henv)

/-! ## The rule in every reachable state -/

/-- The empty database is governed. -/
theorem Db.governed_empty : Db.empty.Governed :=
  ⟨fun v hv => absurd hv (Table.not_mem_empty v), fun d hd => absurd hd (Table.not_mem_empty d)⟩

/-- Every state that the interleaved sessions reach is governed, and what they have staged is
sound. -/
theorem reach_governed {lower : String → String} {s : State}
    (h : Reach (step lower) (fun _ _ => True) .init s) :
    s.shared.Governed ∧ s.Holds fun db _ u => u.Sound db := by
  refine reach_invariant (R := KeepsApprovals) h Db.governed_empty (State.init_holds _)
    ?_ ?_ ?_ ?_ ?_
  · intro db d
    trivial
  · intro s i a w u _ hdb _ hw
    exact .of_staged hdb hw.staged
  · intro s i a w u _ hdb _ hu _
    have hsound : u.Sound s.shared := hu.elim (fun hJ => hJ) fun hw => .of_staged hdb hw.staged
    exact ⟨hsound.governed_write hdb, hsound.keepsApprovals⟩
  · intro db id
    exact ⟨fun h => h, fun h => h⟩
  · intro db db' w u hR hu
    exact hu.of_keepsApprovals hR

/-- The core governance rule: in every interleaving, a version in APPROVED, STAGING, or PRODUCTION
was approved through `approve_version`, and a deployment to staging or production, in whatever
status, is one of an approved version. -/
theorem approved_of_reach {lower : String → String} {s : State}
    (h : Reach (step lower) (fun _ _ => True) .init s) :
    (∀ v ∈ s.shared.versions, v.stage ∈ [.approved, .staging, .production] →
      v.approvedAt.isSome = true ∧ v.approvedBy.isSome = true ∧
        ∃ e ∈ s.shared.versionEvents, e.modelVersionId = v.id ∧ e.toStage = .approved ∧
          e.recordedBy = .approveVersion) ∧
    (∀ d ∈ s.shared.deployments, d.environment ∈ [.staging, .production] →
      ∃ v ∈ s.shared.versions, v.id = d.modelVersionId ∧
        v.approvedAt.isSome = true ∧ v.approvedBy.isSome = true) := by
  obtain ⟨hdb, -⟩ := reach_governed h
  constructor
  · intro v hv hstage
    obtain ⟨w, hw, hat, hby, hevent⟩ := hdb.version v hv (Or.inl hstage)
    obtain rfl : v = w := Option.some.inj ((Table.get?_key hv).symm.trans hw)
    exact ⟨hat, hby, hevent⟩
  · intro d hd henv
    have hne : d.environment ≠ .development := by
      intro he
      simp [he] at henv
    obtain ⟨v, hv, hat, hby, -⟩ := hdb.deployment d hd hne
    obtain ⟨hmem, hid⟩ := Table.get?_eq_some.mp hv
    exact ⟨v, hmem, hid, hat, hby⟩

/-- Two approvals of version 1 overlap, version 1 goes on to PRODUCTION, and while a worker deploys
it there a third session archives version 2. -/
def approvalRun : List (ℕ × Action) :=
  registration ++
    [(1, .start (.approveVersion 7 none 1 50)), (2, .start (.approveVersion 8 none 1 51)),
      (2, .commit), (1, .commit),
      (0, .call (.transitionVersion 9 none 1 .staging)),
      (0, .call (.transitionVersion 9 none 1 .production)),
      (0, request 1 .production false),
      (3, .claim "worker" 60 []), (3, .commit), (3, .load),
      (2, .call (.transitionVersion 8 none 2 .archived)), (3, .commit)]

/-- The rule at the end of `approvalRun`, which has a PRODUCTION version and a deployment of it. -/
theorem approved_of_reach_approvalRun :
    ∃ s, Reach (step id) (fun _ _ => True) .init s ∧
      (s.shared.versions.get? 1).map ModelVersion.stage = some .production ∧
      (s.shared.deployments.get? 1).map Deployment.status = some .deploying ∧
      (∀ v ∈ s.shared.versions, v.stage ∈ [.approved, .staging, .production] →
        v.approvedAt.isSome = true ∧ v.approvedBy.isSome = true ∧
          ∃ e ∈ s.shared.versionEvents, e.modelVersionId = v.id ∧ e.toStage = .approved ∧
            e.recordedBy = .approveVersion) ∧
      (∀ d ∈ s.shared.deployments, d.environment ∈ [.staging, .production] →
        ∃ v ∈ s.shared.versions, v.id = d.modelVersionId ∧
          v.approvedAt.isSome = true ∧ v.approvedBy.isSome = true) := by
  have hreach := exec_reach (step id) (fun _ _ => True) .init approvalRun
  exact ⟨_, hreach, by decide, by decide, approved_of_reach hreach⟩

end MlopsPlatform
