import MlopsPlatform.Answers
import MlopsPlatform.Registry.Keys

/-!
# Concurrent creation of models and versions

`create_model` and `create_version` check that a key or a version string is free, and insert it
later. The unique constraints keep the tables right whatever comes in between, but neither service
catches the `IntegrityError` that they raise: the call fails, where a sequential one would have got
a key with a suffix or a `ConflictError`. In every run a creating call is answered as it should be
exactly when, at its commit, nobody has stored what its check has found free
(`creation_answered_of_trace`).
-/

namespace MlopsPlatform

open Transition

variable {lower : String → String}

/-! ## What the calls promise -/

/-- The call registers a model or a version. -/
def Call.creates : Call → Bool
  | createModel _ _ => true
  | createVersion _ _ _ _ => true
  | _ => false

/-- The answers that a creating call may give: a model is always registered, and a version is, or
the version string is taken or the model does not exist. -/
def Call.MayAnswer (db : Db) (ans : Answer) : Call → Prop
  | createModel _ _ => ans = .returned
  | createVersion _ _ modelId _ => ans = .returned ∨
      (∃ message, ans = .raised (.conflictError message)) ∨
      (db.models.get? modelId = none ∧ ∃ message, ans = .raised (.notFoundError message))
  | _ => True

/-- A creating call that takes this step has read and goes on to its commit, or it gives one of its
answers. -/
def CreationAnswered (lower : String → String) (x : State × (ℕ × Action)) : Prop :=
  ∀ call, calling x.1 x.2 = some call → call.creates = true →
    (x.2.2 = .start call ∧ ∃ u, call.stage lower x.1.shared = .ok (some u)) ∨
      ∃ ans, answer lower x.1 x.2 = some ans ∧ call.MayAnswer x.1.shared ans

/-- The key, or the version string of the model, that a unit of work inserts is stored already. -/
def UnitOfWork.duplicates (db : Db) : UnitOfWork → Bool
  | insertModel model => (model.1 db.models.next).key ∈ db.modelKeys
  | insertVersion version _ => db.versions.rows.any fun v =>
      v.modelId = (version.1 db.versions.next).modelId &&
        v.version = (version.1 db.versions.next).version
  | _ => false

/-- The step is the commit of a creating call, and what it inserts is stored already. -/
def collides (lower : String → String) (x : State × (ℕ × Action)) : Bool :=
  (calling x.1 x.2).any Call.creates &&
    (committed lower x.1.shared (x.1.locals x.2.1) x.2.2).any fun y => y.2.duplicates x.1.shared

/-! ## What the constraints ask of an insert -/

/-- The constraints accept a new version exactly when its model does not have its version string. -/
theorem constraints_insertVersion {db : Db} (hdb : db.Constraints)
    (version : Table.Draft ModelVersion.id) (event : Uuid → Table.Draft ModelVersionEvent.id) :
    (db.write (.insertVersion version event)).Constraints ↔
      ∀ v ∈ db.versions, ¬(v.modelId = (version.1 db.versions.next).modelId ∧
        v.version = (version.1 db.versions.next).version) := by
  obtain ⟨hkey, hversion, hidempotency, hactive⟩ := hdb
  have hrows : (db.write (.insertVersion version event)).UniqueModelVersion ↔
      ∀ v ∈ db.versions, ¬(v.modelId = (version.1 db.versions.next).modelId ∧
        v.version = (version.1 db.versions.next).version) := by
    unfold Db.UniqueModelVersion
    show (db.versions.rows ++ [version.1 db.versions.next]).Pairwise _ ↔ _
    rw [List.pairwise_append]
    constructor
    · rintro ⟨-, -, hnew⟩ v hv
      exact hnew v hv _ (List.mem_singleton_self _)
    · intro hfree
      refine ⟨hversion, List.pairwise_singleton _ _, fun v hv v' hv' => ?_⟩
      rw [List.mem_singleton.mp hv']
      exact hfree v hv
  constructor
  · rintro ⟨-, hunique, -, -⟩
    exact hrows.mp hunique
  · intro hfree
    exact ⟨hkey, hrows.mpr hfree, hidempotency, hactive⟩

/-- The unit of work of a creating call is an insert, which the constraints accept exactly when it
duplicates nothing. -/
theorem Call.Returns.accepted_iff {read db : Db} {call : Call} {u : UnitOfWork}
    (h : call.Returns lower read u) (hcreates : call.creates = true) (hdb : db.Constraints) :
    (db.write u).Constraints ↔ u.duplicates db = false := by
  cases call with
  | createModel actorId data =>
    obtain ⟨key, -, rfl⟩ := Option.map_eq_some_iff.mp h
    rw [constraints_insertModel hdb, UnitOfWork.duplicates, decide_eq_false_iff_not]
  | createVersion actorId correlationId modelId data =>
    obtain ⟨-, -, rfl⟩ := createVersion_eq_ok.mp h
    rw [constraints_insertVersion hdb]
    simp [UnitOfWork.duplicates, Table.mem_rows]
  | _ => exact absurd hcreates Bool.false_ne_true

/-- A creating call duplicates nothing in the database that it has read. -/
theorem Call.Returns.not_duplicates {db : Db} {call : Call} {u : UnitOfWork}
    (h : call.Returns lower db u) (hcreates : call.creates = true) : u.duplicates db = false := by
  cases call with
  | createModel actorId data =>
    obtain ⟨n, model, hleast, hcreate, hrow⟩ := createModel_spec lower db actorId data
    obtain rfl := Option.some.inj (hcreate.symm.trans h)
    rw [UnitOfWork.duplicates, decide_eq_false_iff_not, hrow]
    exact hleast.1
  | createVersion actorId correlationId modelId data =>
    obtain ⟨-, hfree, rfl⟩ := createVersion_eq_ok.mp h
    rw [UnitOfWork.duplicates, List.any_eq_false]
    intro v hv
    simpa using hfree v hv
  | _ => exact absurd hcreates Bool.false_ne_true

/-- A creating call returns at its commit, or a duplicate ends it with an error that it does not
catch. -/
theorem Call.Returns.commitAnswer_eq {read db : Db} {call : Call} {u : UnitOfWork}
    (h : call.Returns lower read u) (hcreates : call.creates = true) (hdb : db.Constraints) :
    call.commitAnswer db u = if u.duplicates db = true then .integrityError else .returned := by
  have haccepted := h.accepted_iff hcreates hdb
  unfold Call.commitAnswer Db.commit
  split_ifs with hcons hdup hdup
  · rw [haccepted.mp hcons] at hdup
    exact absurd hdup Bool.false_ne_true
  · cases call with
    | createModel actorId data =>
      obtain ⟨key, -, rfl⟩ := Option.map_eq_some_iff.mp h
      rfl
    | createVersion actorId correlationId modelId data =>
      obtain ⟨-, -, rfl⟩ := createVersion_eq_ok.mp h
      rfl
    | _ => exact absurd hcreates Bool.false_ne_true
  · cases call with
    | createModel actorId data => rfl
    | createVersion actorId correlationId modelId data => rfl
    | _ => exact absurd hcreates Bool.false_ne_true
  · rw [haccepted] at hcons
    exact absurd (Bool.eq_false_iff.mpr hdup) hcons

/-- `create_version` raises when the model does not exist or has the version string already. -/
theorem createVersion_eq_error {db : Db} {actorId modelId : Uuid} {correlationId : Option String}
    {data : ModelVersionCreate} {e : DomainError}
    (h : createVersion db actorId correlationId modelId data = .error e) :
    (db.models.get? modelId = none ∧ ∃ message, e = .notFoundError message) ∨
      ∃ message, e = .conflictError message := by
  unfold createVersion getModel at h
  cases hm : db.models.get? modelId with
  | none =>
    simp only [hm, bind, Except.bind, Except.error.injEq] at h
    exact Or.inl ⟨rfl, _, h.symm⟩
  | some model =>
    simp only [hm, bind, Except.bind] at h
    split at h
    · simp only [Except.error.injEq] at h
      exact Or.inr ⟨_, h.symm⟩
    · exact absurd h (by simp)

/-- A creating call whose check succeeds has a unit of work, and whose check fails raises one of the
errors that it may. -/
theorem Call.stage_of_creates (lower : String → String) (db : Db) {call : Call}
    (hcreates : call.creates = true) :
    (∃ u, call.stage lower db = .ok (some u)) ∨
      ∃ e, call.stage lower db = .error e ∧ call.MayAnswer db (.raised e) := by
  cases call with
  | createModel actorId data =>
    obtain ⟨n, model, -, hcreate, -⟩ := createModel_spec lower db actorId data
    exact Or.inl ⟨_, congrArg Except.ok hcreate⟩
  | createVersion actorId correlationId modelId data =>
    cases hread : MlopsPlatform.createVersion db actorId correlationId modelId data with
    | ok u => exact Or.inl ⟨u, by rw [stage, hread]; rfl⟩
    | error e =>
      refine Or.inr ⟨e, by rw [stage, hread]; rfl, ?_⟩
      rcases createVersion_eq_error hread with ⟨hmodel, message, rfl⟩ | ⟨message, rfl⟩
      · exact Or.inr (Or.inr ⟨hmodel, message, rfl⟩)
      · exact Or.inr (Or.inl ⟨message, rfl⟩)
  | _ => exact absurd hcreates Bool.false_ne_true

/-! ## Runs -/

/-- A creating call may return. -/
theorem Call.mayAnswer_returned (db : Db) {call : Call} (hcreates : call.creates = true) :
    call.MayAnswer db .returned ∧ ¬call.MayAnswer db .integrityError := by
  cases call with
  | createModel actorId data => exact ⟨rfl, by simp [MayAnswer]⟩
  | createVersion actorId correlationId modelId data => exact ⟨Or.inl rfl, by simp [MayAnswer]⟩
  | _ => exact absurd hcreates Bool.false_ne_true

/-- A creating call that commits in a step is answered as it should be exactly when the step does
not collide. -/
theorem mayAnswer_commit_iff {read db : Db} {call : Call} {u : UnitOfWork}
    (h : call.Returns lower read u) (hcreates : call.creates = true) (hdb : db.Constraints) :
    call.MayAnswer db (call.commitAnswer db u) ↔ u.duplicates db = false := by
  rw [h.commitAnswer_eq hcreates hdb]
  obtain ⟨hreturned, hnot⟩ := Call.mayAnswer_returned db hcreates
  split_ifs with hdup
  · rw [hdup]
    exact ⟨fun hans => absurd hans hnot, fun hfalse => absurd hfalse (by simp)⟩
  · exact ⟨fun _ => Bool.eq_false_iff.mpr hdup, fun _ => hreturned⟩

/-- A creating call whose check fails is answered with the error. -/
theorem Call.readAnswer_of_creates {db : Db} {call : Call} {e : DomainError}
    (hcreates : call.creates = true) (h : call.stage lower db = .error e) :
    call.readAnswer lower db = some (.raised e) := by
  cases call with
  | createModel actorId data => exact absurd h (by simp [stage])
  | createVersion actorId correlationId modelId data => simp only [readAnswer, h]
  | _ => exact absurd hcreates Bool.false_ne_true

/-- A creating call that checks and does not commit yet does not collide, and goes on or is answered
as it should be. -/
theorem creationAnswered_start {s : State} {i : ℕ} (hi : s.locals i = .idle) (call : Call) :
    CreationAnswered lower (s, (i, .start call)) ∧
      collides lower (s, (i, .start call)) = false := by
  constructor
  · unfold CreationAnswered
    simp only [calling, answer, hi]
    intro call' hcall hcreates
    obtain rfl := Option.some.inj hcall
    rcases Call.stage_of_creates lower s.shared hcreates with ⟨u, hu⟩ | ⟨e, he, hmay⟩
    · exact Or.inl ⟨rfl, u, hu⟩
    · exact Or.inr ⟨_, Call.readAnswer_of_creates hcreates he, hmay⟩
  · unfold collides
    dsimp only
    rw [committed_of_splits (.start call), Option.any_none, Bool.and_false]

/-- A creating call that checks and commits at once does not collide either. Nothing comes between
the check and the commit. -/
theorem creationAnswered_call {s : State} {i : ℕ} (hi : s.locals i = .idle)
    (hdb : s.shared.Constraints) (call : Call) :
    CreationAnswered lower (s, (i, .call call)) ∧
      collides lower (s, (i, .call call)) = false := by
  unfold CreationAnswered collides
  simp only [calling, answer, hi, Option.any_some]
  cases hcreates : call.creates with
  | false => simp [hcreates]
  | true =>
    rcases Call.stage_of_creates lower s.shared hcreates with ⟨u, hu⟩ | ⟨e, he, hmay⟩
    · have hret := Call.stage_eq_ok hu
      have hfree := hret.not_duplicates hcreates
      have hcom : committed lower s.shared .idle (.call call) = some (.api call, u) := by
        simp [committed, plan, hu]
      simp only [hcom, hu, Option.any_some, hfree, Bool.and_false, and_true]
      intro call' hcall _
      obtain rfl := Option.some.inj hcall
      exact Or.inr ⟨_, rfl, (mayAnswer_commit_iff hret hcreates hdb).mpr hfree⟩
    · have hcom : committed lower s.shared .idle (.call call) = none := by
        simp [committed, plan, he]
      simp only [hcom, he, Option.any_none, Bool.and_false, and_true]
      intro call' hcall _
      obtain rfl := Option.some.inj hcall
      exact Or.inr ⟨_, Call.readAnswer_of_creates hcreates he, hmay⟩

/-- A creating call that commits what it has staged is answered as it should be exactly when it does
not collide. -/
theorem creationAnswered_commit_iff {read : Db} {s : State} {i : ℕ} {call : Call} {u : UnitOfWork}
    (hi : s.locals i = .api call u) (hret : call.Returns lower read u)
    (hdb : s.shared.Constraints) :
    CreationAnswered lower (s, (i, .commit)) ↔ collides lower (s, (i, .commit)) = false := by
  have hcom : committed lower s.shared (.api call u) .commit = some (.api call, u) := rfl
  unfold CreationAnswered collides
  simp only [calling, answer, hi, hcom, Option.any_some]
  cases hcreates : call.creates with
  | false => simp [hcreates]
  | true =>
    rw [Bool.true_and, ← mayAnswer_commit_iff hret hcreates hdb]
    constructor
    · intro hans
      rcases hans call rfl hcreates with ⟨hstart, -⟩ | ⟨ans, hsome, hmay⟩
      · exact absurd hstart (by simp)
      · obtain rfl := Option.some.inj hsome
        exact hmay
    · intro hmay call' hcall _
      obtain rfl := Option.some.inj hcall
      exact Or.inr ⟨_, rfl, hmay⟩

/-- A creating call that takes a step in a reachable state is answered as it should be exactly when
the step does not collide. -/
theorem creationAnswered_iff {ok : State → ℕ × Action → Prop} {s : State}
    (h : Reach (step lower) ok .init s) (i : ℕ) (a : Action) :
    CreationAnswered lower (s, (i, a)) ↔ collides lower (s, (i, a)) = false := by
  have hdb := reach_constraints h
  have hboth : ∀ {P : Prop} {b : Bool}, P ∧ b = false → (P ↔ b = false) :=
    fun h => iff_of_true h.1 h.2
  cases hi : s.locals i with
  | idle =>
    cases a with
    | start call => exact hboth (creationAnswered_start hi call)
    | call call => exact hboth (creationAnswered_call hi hdb call)
    | _ => simp [CreationAnswered, collides, calling, hi]
  | api call u =>
    cases a with
    | commit =>
      have hcom : committed lower s.shared (s.locals i) .commit = some (.api call, u) := by
        rw [hi]
        rfl
      obtain ⟨read, hret⟩ := returns_of_reach h hcom
      exact creationAnswered_commit_iff hi hret hdb
    | _ => simp [CreationAnswered, collides, calling, hi]
  | _ => simp [CreationAnswered, collides, calling, hi]

/-! ## What comes between the check and the commit -/

/-- What a registration takes: a key, or a version string of a model. -/
inductive Registered
  | key (key : String)
  | version (modelId : Uuid) (version : String)
  deriving DecidableEq

/-- What a unit of work registers. -/
def UnitOfWork.registers (db : Db) : UnitOfWork → Option Registered
  | insertModel model => some (.key (model.1 db.models.next).key)
  | insertVersion version _ => some (.version (version.1 db.versions.next).modelId
      (version.1 db.versions.next).version)
  | _ => none

/-- It is taken. -/
def Db.Has (db : Db) : Registered → Prop
  | .key key => key ∈ db.modelKeys
  | .version modelId version => ∃ v ∈ db.versions, v.modelId = modelId ∧ v.version = version

/-- The step registers it. -/
def registersIn (lower : String → String) (name : Registered) (x : State × (ℕ × Action)) : Bool :=
  (written lower x.1 x.2).any fun y => y.2.registers x.1.shared = some name

/-- What a creating call commits in the step is registered by another session since the reads of the
call. -/
def TakenSince (lower : String → String) (before : List (State × (ℕ × Action)))
    (x : State × (ℕ × Action)) : Prop :=
  ∃ name, (calling x.1 x.2).any Call.creates = true ∧
    (∃ y ∈ committed lower x.1.shared (x.1.locals x.2.1) x.2.2,
      y.2.registers x.1.shared = some name) ∧
    ∃ earlier y since, before = earlier ++ y :: since ∧ y.2.1 = x.2.1 ∧ y.2.2.isStart = true ∧
      (∀ z ∈ since, z.2.1 ≠ x.2.1) ∧ ∃ z ∈ since, registersIn lower name z = true

/-- A unit of work duplicates something exactly when what it registers is taken. -/
theorem UnitOfWork.duplicates_iff {db : Db} {u : UnitOfWork} :
    u.duplicates db = true ↔ ∃ name, u.registers db = some name ∧ db.Has name := by
  cases u <;> simp [duplicates, registers, Db.Has, Table.mem_rows]

/-- What is taken after a write was taken before, or the write registers it. -/
theorem Db.has_write {db : Db} {u : UnitOfWork} {name : Registered} :
    (db.write u).Has name ↔ db.Has name ∨ u.registers db = some name := by
  cases name with
  | key key =>
    cases u <;>
      simp [Db.Has, modelKeys, write, Table.insert, UnitOfWork.registers, or_comm, eq_comm]
  | version modelId version =>
    constructor
    · rintro ⟨v, hv, hmodel, hversion⟩
      rcases Db.mem_versions_write hv with ⟨w, hw, rfl⟩ | ⟨draft, event, rfl, rfl⟩
      · rw [u.onVersion_modelId] at hmodel
        rw [u.onVersion_version] at hversion
        exact Or.inl ⟨w, hw, hmodel, hversion⟩
      · exact Or.inr (by simp [UnitOfWork.registers, hmodel, hversion])
    · rintro (⟨v, hv, hmodel, hversion⟩ | hregisters)
      · have hkept := Db.get?_versions_write u (Table.get?_key hv)
        refine ⟨u.onVersion v, (Table.get?_eq_some.mp hkept).1, ?_, ?_⟩
        · rw [u.onVersion_modelId, hmodel]
        · rw [u.onVersion_version, hversion]
      · cases u with
        | insertVersion draft event =>
          obtain ⟨rfl, rfl⟩ := Registered.version.inj (Option.some.inj hregisters)
          exact ⟨_, Table.mem_insert.mpr (Or.inr rfl), rfl, rfl⟩
        | _ => exact absurd hregisters (by simp [UnitOfWork.registers])

/-- A creating call registers the same in every database. -/
theorem Call.Returns.registers {read : Db} {call : Call} {u : UnitOfWork}
    (h : call.Returns lower read u) (hcreates : call.creates = true) (db : Db) :
    ∃ name, u.registers db = some name ∧ u.registers read = some name := by
  cases call with
  | createModel actorId data =>
    obtain ⟨key, -, rfl⟩ := Option.map_eq_some_iff.mp h
    exact ⟨_, rfl, rfl⟩
  | createVersion actorId correlationId modelId data =>
    obtain ⟨-, -, rfl⟩ := createVersion_eq_ok.mp h
    exact ⟨_, rfl, rfl⟩
  | _ => exact absurd hcreates Bool.false_ne_true

/-- What is taken at the end of a run was taken at its start, or one of its steps registers it. -/
theorem has_iff_of_trace {ok : State → ℕ × Action → Prop} {steps : List (State × (ℕ × Action))}
    {s t : State} (h : Trace (step lower) ok t steps s) (name : Registered) :
    s.shared.Has name ↔ t.shared.Has name ∨ ∃ z ∈ steps, registersIn lower name z = true := by
  induction h with
  | nil => simp
  | @snoc steps s s' p hr ha hs ih =>
    obtain ⟨i, a⟩ := p
    have hlast : s'.shared.Has name ↔
        s.shared.Has name ∨ registersIn lower name (s, (i, a)) = true := by
      rcases step_cases hs with ⟨l, hwritten, -, rfl⟩ | ⟨w, u, l, hwritten, -, rfl⟩
      · simp [registersIn, hwritten]
      · simp only [registersIn, hwritten, Option.any_some, decide_eq_true_eq]
        exact Db.has_write
    rw [hlast, ih]
    simp only [List.mem_append, List.mem_singleton, or_and_right, exists_or, exists_eq_left,
      or_assoc]

/-- A call that has staged something has read for it in an earlier step, and its session has done
nothing since. -/
theorem since_reads {ok : State → ℕ × Action → Prop} {steps : List (State × (ℕ × Action))}
    {s : State} (h : Trace (step lower) ok .init steps s) {i : ℕ} {call : Call} {u : UnitOfWork}
    (hi : s.locals i = .api call u) :
    ∃ y since, Since (step lower) ok .init (fun t => call.Returns lower t.shared u) steps s
        (y :: since) ∧
      y.2 = (i, .start call) ∧ ∀ z ∈ since, z.2.1 ≠ i := by
  induction h with
  | nil => exact absurd hi (by simp [State.init])
  | @snoc steps s s' p hr ha hs ih =>
    obtain ⟨j, a⟩ := p
    obtain ⟨db, l, hact, rfl⟩ := Config.step_eq_some.mp hs
    rcases s.locals_update db j i l with ⟨rfl, hl⟩ | ⟨hne, hl⟩
    · -- The session has just read.
      rw [hl] at hi
      subst hi
      rcases act_planned hact with ⟨rfl, hplan⟩ | ⟨w, v, -, hplan, -, -⟩
      · dsimp only at hplan hs ha
        generalize hlocal : s.locals i = l at hplan
        cases hplan with
        | start hu => exact ⟨_, [], (hr.since (Call.stage_eq_ok hu)).snoc ha hs, rfl, by simp⟩
      · rcases hplan.commit_cases.2 with hnone | ⟨d, hd⟩
        · exact absurd hnone (by simp [Session.held])
        · exact absurd hd (by simp [Session.held])
    · rw [hl] at hi
      obtain ⟨y, since, hsince, hy, hothers⟩ := ih hi
      refine ⟨y, since ++ [(s, (j, a))], hsince.snoc ha hs, hy, fun z hz => ?_⟩
      rcases List.mem_append.mp hz with hz | hz
      · exact hothers z hz
      · rw [List.mem_singleton.mp hz]
        exact fun heq => hne heq.symm

/-- The commit of a creating call collides exactly when the call has been overtaken. -/
theorem collides_iff {ok : State → ℕ × Action → Prop} {before : List (State × (ℕ × Action))}
    {s : State} (h : Trace (step lower) ok .init before s) (i : ℕ) (a : Action) :
    collides lower (s, (i, a)) = true ↔ TakenSince lower before (s, (i, a)) := by
  constructor
  · intro hcollides
    obtain ⟨hcreates, hdup⟩ := Bool.and_eq_true_iff.mp hcollides
    cases hi : s.locals i with
    | idle =>
      -- The reads and the commit are one step, or there is no commit.
      cases a with
      | start call =>
        rw [(creationAnswered_start hi call).2] at hcollides
        exact absurd hcollides Bool.false_ne_true
      | call call =>
        rw [(creationAnswered_call hi (reach_constraints h.reach) call).2] at hcollides
        exact absurd hcollides Bool.false_ne_true
      | _ => exact absurd hcreates (by simp [calling, hi])
    | api call u =>
      cases a with
      | commit =>
        have hcom : committed lower s.shared (s.locals i) .commit = some (.api call, u) := by
          rw [hi]
          rfl
        have hcall : call.creates = true := by simpa [calling, hi] using hcreates
        obtain ⟨name, hname, htaken⟩ := UnitOfWork.duplicates_iff.mp (by simpa [hcom] using hdup)
        obtain ⟨y, since, ⟨earlier, t, rfl, htrace, hsince, hreturns⟩, hy, hothers⟩ :=
          since_reads h hi
        -- What is registered was free at the reads, so that a step since then has registered it.
        have hfree : ¬t.shared.Has name := by
          intro hhas
          obtain ⟨name', hcommit, hread⟩ := hreturns.registers hcall s.shared
          obtain rfl := Option.some.inj (hname.symm.trans hcommit)
          have hdup' := UnitOfWork.duplicates_iff.mpr ⟨name, hread, hhas⟩
          rw [hreturns.not_duplicates hcall] at hdup'
          exact absurd hdup' Bool.false_ne_true
        rcases (has_iff_of_trace hsince name).mp htaken with hhas | ⟨z, hz, hregisters⟩
        · exact absurd hhas hfree
        · refine ⟨name, hcreates, ⟨_, hcom, hname⟩, earlier, y, since, rfl, by rw [hy],
            by rw [hy]; rfl, hothers, z, ?_, hregisters⟩
          rcases List.mem_cons.mp hz with rfl | hz
          · -- The reads write nothing.
            simp [registersIn, written, hy, committed_of_splits (.start call)] at hregisters
          · exact hz
      | _ => exact absurd hcreates (by simp [calling, hi])
    | _ => exact absurd hcreates (by simp [calling, hi])
  · rintro ⟨name, hcreates, ⟨y, hy, hname⟩, earlier, y', since, rfl, -, -, -, z, hz, hregisters⟩
    have htaken : s.shared.Has name := by
      refine (has_iff_of_trace h name).mpr (Or.inr ⟨z, ?_, hregisters⟩)
      exact List.mem_append_right _ (List.mem_cons_of_mem _ hz)
    refine Bool.and_eq_true_iff.mpr ⟨hcreates, (Option.any_eq_true _ _).mpr ⟨y, hy, ?_⟩⟩
    exact UnitOfWork.duplicates_iff.mpr ⟨name, hname, htaken⟩

/-- What a creating call goes on with is free in the state that it has read. -/
theorem not_has_of_stage {db : Db} {call : Call} {u : UnitOfWork} {name : Registered}
    (hu : call.stage lower db = .ok (some u)) (hcreates : call.creates = true)
    (hname : u.registers db = some name) : ¬db.Has name := by
  intro htaken
  have hdup : u.duplicates db = true := UnitOfWork.duplicates_iff.mpr ⟨name, hname, htaken⟩
  rw [(Call.stage_eq_ok hu).not_duplicates hcreates] at hdup
  exact absurd hdup Bool.false_ne_true

/-- A step of a creating call that reads and commits at once is answered as it should be. -/
theorem creationAnswered_atomic {ok : State → ℕ × Action → Prop} {s : State}
    (h : Reach (step lower) ok .init s) (i : ℕ) (call : Call) :
    CreationAnswered lower (s, (i, .call call)) := by
  cases hi : s.locals i with
  | idle => exact (creationAnswered_call hi (reach_constraints h) call).1
  | _ => simp [CreationAnswered, calling, hi]

/-- Registration is safe in a run. -/
structure SafeRegistration (lower : String → String) (steps : List (State × (ℕ × Action)))
    (s : State) : Prop where
  /-- The keys of models are unique. -/
  keys : s.shared.UniqueModelKey
  /-- A model has each version string once. -/
  versions : s.shared.UniqueModelVersion
  /-- A creating call is answered as it should be exactly if no other session has registered,
  between the reads and the commit of the call, what it commits. -/
  answered : ∀ before x after, steps = before ++ x :: after →
    (CreationAnswered lower x ↔ ¬TakenSince lower before x)
  /-- What a creating call goes on with was free when it read. -/
  free : ∀ x ∈ steps, ∀ call u name, call.creates = true → x.2.2 = .start call →
    call.stage lower x.1.shared = .ok (some u) → u.registers x.1.shared = some name →
      ¬x.1.shared.Has name
  /-- A creating call that reads and commits at once is answered as it should be. -/
  atomic : ∀ x ∈ steps, ∀ call, x.2.2 = .call call → CreationAnswered lower x

/-- Registration under concurrency. In every run, however the checks and the commits of its calls
interleave, the keys are unique and a model has each version string once. A call that registers a
model is answered with it, and one that registers a version with it or with the error for a taken
version string or a missing model, exactly if no other session has registered, between the reads and
the commit of the call, what it commits. -/
theorem creation_answered_of_trace {ok : State → ℕ × Action → Prop}
    {steps : List (State × (ℕ × Action))} {s : State}
    (h : Trace (step lower) ok .init steps s) : SafeRegistration lower steps s := by
  obtain ⟨hkey, hversion, -, -⟩ := reach_constraints h.reach
  refine ⟨hkey, hversion, ?_, ?_, ?_⟩
  · rintro before ⟨t, i, a⟩ after rfl
    have hbefore := h.of_append
    rw [creationAnswered_iff hbefore.reach, ← collides_iff hbefore, Bool.not_eq_true]
  · intro x _ call u name hcreates _ hu hname
    exact not_has_of_stage hu hcreates hname
  · rintro ⟨t, i, a⟩ hmem call rfl
    exact creationAnswered_atomic (h.of_mem hmem).1 i call

/-- Two calls register a model of the same name, and both check before either commits. -/
def racingModels : List (ℕ × Action) :=
  [(0, .start (.createModel 9 { name := "pump", owner := "ops", framework := .pytorch })),
    (1, .start (.createModel 9 { name := "pump", owner := "ops", framework := .keras })),
    (0, .commit)]

/-- Two calls register the same version of a model, and both check before either commits. -/
def racingVersions : List (ℕ × Action) :=
  [(0, .call (.createModel 9 { name := "pump", owner := "ops", framework := .pytorch })),
    (0, .start (.createVersion 9 none 1 { version := "1.0", artifactUri := "s3://pump/1" })),
    (1, .start (.createVersion 9 none 1 { version := "1.0", artifactUri := "s3://pump/1" })),
    (0, .commit)]

/-- Creating calls are not always answered as they should be: the second commits of `racingModels`
and of `racingVersions` end in an `IntegrityError`. -/
theorem not_creationAnswered_of_reach :
    (∃ s, Reach (step id) (fun _ _ => True) .init s ∧ s.shared.modelKeys = ["pump"] ∧
        ¬CreationAnswered id (s, (1, .commit))) ∧
      ∃ s, Reach (step id) (fun _ _ => True) .init s ∧
        s.shared.versions.rows.map ModelVersion.version = ["1.0"] ∧
        ¬CreationAnswered id (s, (1, .commit)) := by
  have hmodels := exec_reach (step id) (fun _ _ => True) .init racingModels
  have hversions := exec_reach (step id) (fun _ _ => True) .init racingVersions
  refine ⟨⟨_, hmodels, by decide, ?_⟩, ⟨_, hversions, by decide, ?_⟩⟩
  · rw [creationAnswered_iff hmodels]
    decide
  · rw [creationAnswered_iff hversions]
    decide

/-- The steps of `racingModels` and of the second commit, which alone collides. -/
theorem creation_answered_of_trace_racingModels :
    ∃ steps s, Trace (step id) (fun _ _ => True) .init steps s ∧ steps.length = 4 ∧
      steps.countP (collides id) = 1 ∧ SafeRegistration id steps s := by
  have htrace := exec_trace (step id) (fun _ _ => True) .init (racingModels ++ [(1, .commit)])
  exact ⟨_, _, htrace, by decide, by decide, creation_answered_of_trace htrace⟩

end MlopsPlatform
