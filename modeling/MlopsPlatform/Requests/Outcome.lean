import MlopsPlatform.Answers
import MlopsPlatform.Queue.Exclusivity

/-!
# The outcome of a request

`request_deployment` tells a request with a key from one without in two ways. Its lookup goes by the
truth value of the key, for which an empty string is none; the unique column goes by null, for which
it is a key like any other. So the first request with an empty key is stored under it, and every
later one is refused by the column, with the message of the other constraint (`emptyKey_refused`).
For all other requests the outcome is the one that `RequestOutcome` lists.
-/

namespace MlopsPlatform

open Transition

variable {lower : String → String}

/-! ## The lookup of a key -/

/-- The lookup returns a stored deployment with the key, which is not empty. -/
theorem findByKey_eq_some {db : Db} {k : Option String} {d : Deployment}
    (h : findByKey db k = some d) :
    d ∈ db.deployments ∧ ∃ key, key ≠ "" ∧ k = some key ∧ d.idempotencyKey = some key := by
  cases k with
  | none => exact absurd h (by simp [findByKey])
  | some key =>
    simp only [findByKey] at h
    split_ifs at h with hempty
    obtain ⟨hmem, hkey, -⟩ := Table.first?_eq_some.mp h
    exact ⟨hmem, key, hempty, rfl, by simpa using hkey⟩

/-- Two deployments with one key are one deployment. -/
theorem Db.UniqueIdempotencyKey.eq {db : Db} (h : db.UniqueIdempotencyKey) {a b : Deployment}
    (ha : a ∈ db.deployments) (hb : b ∈ db.deployments) {key : String}
    (hka : a.idempotencyKey = some key) (hkb : b.idempotencyKey = some key) : a = b := by
  have hpair : ∀ a ∈ db.deployments, ∀ b ∈ db.deployments, a.id ≠ b.id →
      ¬(a.idempotencyKey.isSome ∧ a.idempotencyKey = b.idempotencyKey) := by
    refine (Table.pairwise_iff ?_).mp h
    rintro a b hab ⟨hsome, heq⟩
    exact hab ⟨by rw [← heq]; exact hsome, heq.symm⟩
  by_contra hne
  refine hpair a ha b hb (fun hid => hne (db.deployments.eq_of_key_eq ha hb hid)) ⟨?_, ?_⟩
  · rw [hka]
    rfl
  · rw [hka, hkb]

/-- A key that is not empty is looked up: the deployment that carries it is found. -/
theorem findByKey_of_mem {db : Db} (h : db.UniqueIdempotencyKey) {d : Deployment}
    (hd : d ∈ db.deployments) {key : String} (hkey : d.idempotencyKey = some key)
    (hempty : key ≠ "") : findByKey db (some key) = some d := by
  cases hfound : findByKey db (some key) with
  | some e =>
    obtain ⟨he, key', -, hk, hkey'⟩ := findByKey_eq_some hfound
    obtain rfl := Option.some.inj hk
    rw [h.eq he hd hkey' hkey]
  | none =>
    rw [findByKey, if_neg hempty] at hfound
    have hmiss := Table.first?_eq_none.mp hfound d hd
    simp [hkey] at hmiss

/-- A key that is found by no lookup is carried by no row, unless it is empty. -/
theorem not_mem_of_findByKey {db : Db} (h : db.UniqueIdempotencyKey) {key : String}
    (hnone : findByKey db (some key) = none) (hempty : key ≠ "") :
    ∀ d ∈ db.deployments, d.idempotencyKey ≠ some key := by
  intro d hd hkey
  rw [findByKey_of_mem h hd hkey hempty] at hnone
  exact absurd hnone (by simp)

/-! ## The cases of a request -/

/-- A deployment of a version's model is in flight in an environment. -/
def Db.InFlight (db : Db) (v : ModelVersion) (environment : Environment) : Prop :=
  ∃ d ∈ db.deployments, d.inFlight = true ∧ d.environment = environment ∧
    (db.versions.get? d.modelVersionId).map ModelVersion.modelId = some v.modelId

/-- What a request adds: one REQUESTED row for the version and the environment, which has not been
claimed and is of the version's model, and one event for it. -/
def Db.AddsRequest (db db' : Db) (data : DeploymentCreate) (v : ModelVersion)
    (d : Deployment) : Prop :=
  db'.deployments.rows = db.deployments.rows ++ [d] ∧ d.status = .requested ∧ d.attempts = 0 ∧
    d.modelId = v.modelId ∧ d.modelVersionId = data.modelVersionId ∧
    d.environment = data.environment ∧ d.idempotencyKey = data.idempotencyKey ∧
    ∃ e : DeploymentEvent, db'.deploymentEvents.rows = db.deploymentEvents.rows ++ [e] ∧
      e.deploymentId = d.id ∧ e.event = "requested" ∧ e.status = .requested

/-- All that a request can come to. -/
inductive RequestCase (db : Db) (data : DeploymentCreate) : Answer → Db → Prop
  /-- A key that is not empty is stored. -/
  | replay {d : Deployment} : findByKey db data.idempotencyKey = some d →
    RequestCase db data (.requested d false) db
  /-- The version does not exist. -/
  | notFound {message : String} : findByKey db data.idempotencyKey = none →
    db.versions.get? data.modelVersionId = none →
    RequestCase db data (.raised (.notFoundError message)) db
  /-- The stage of the version does not allow the environment. -/
  | ineligible {v : ModelVersion} : findByKey db data.idempotencyKey = none →
    db.versions.get? data.modelVersionId = some v →
    isDeployable v.stage data.environment = false →
    RequestCase db data (.raised (.conflictError
      s!"A {v.stage.value} version cannot be deployed to {data.environment.value}")) db
  /-- A constraint rejects the row: its key is stored, or a deployment is in flight. -/
  | rejected {v : ModelVersion} : findByKey db data.idempotencyKey = none →
    db.versions.get? data.modelVersionId = some v →
    isDeployable v.stage data.environment = true →
    (∃ d ∈ db.deployments, d.idempotencyKey.isSome = true ∧
      d.idempotencyKey = data.idempotencyKey) ∨ db.InFlight v data.environment →
    RequestCase db data (.raised (.conflictError (requestInProgress data.environment))) db
  /-- A new row is stored. -/
  | created {v : ModelVersion} {d : Deployment} {db' : Db} :
    findByKey db data.idempotencyKey = none →
    db.versions.get? data.modelVersionId = some v →
    isDeployable v.stage data.environment = true →
    (∀ e ∈ db.deployments, e.idempotencyKey.isSome = true →
      e.idempotencyKey ≠ data.idempotencyKey) →
    ¬db.InFlight v data.environment → db.AddsRequest db' data v d →
    RequestCase db data (.requested d true) db'

/-- In a database whose deployments are joined to their versions, a version's model is in flight
exactly when a row with its `model_id` is. -/
theorem inFlight_iff {db : Db} (hjoined : db.Joined) {v : ModelVersion}
    {environment : Environment} : db.InFlight v environment ↔
      ∃ d ∈ db.deployments, d.inFlight = true ∧ d.modelId = v.modelId ∧
        d.environment = environment := by
  have hmodel : ∀ d ∈ db.deployments,
      (db.versions.get? d.modelVersionId).map ModelVersion.modelId = some d.modelId := by
    intro d hd
    obtain ⟨w, hw, hm⟩ := hjoined d hd
    rw [hw, Option.map_some, hm]
  constructor
  · rintro ⟨d, hd, hflight, henvironment, hm⟩
    rw [hmodel d hd] at hm
    exact ⟨d, hd, hflight, Option.some.inj hm, henvironment⟩
  · rintro ⟨d, hd, hflight, hm, henvironment⟩
    exact ⟨d, hd, hflight, henvironment, by rw [hmodel d hd, hm]⟩

/-- The constraints accept the row of a request exactly when its key is not stored and no deployment
of the version's model is in flight in the environment. -/
theorem request_accepted_iff {db : Db} (hcons : db.Constraints) (hjoined : db.Joined)
    {actorId : Uuid} {correlationId : Option String} {data : DeploymentCreate} {u : UnitOfWork}
    (h : requestDeployment db actorId correlationId data = .ok (.staged u)) {v : ModelVersion}
    (hv : db.versions.get? data.modelVersionId = some v) :
    (db.write u).Constraints ↔ (∀ e ∈ db.deployments, e.idempotencyKey.isSome = true →
      e.idempotencyKey ≠ data.idempotencyKey) ∧ ¬db.InFlight v data.environment := by
  obtain ⟨v', deployment, event, -, hv', -, rfl, hrow⟩ := requestDeployment_eq_staged h
  obtain rfl := Option.some.inj (hv.symm.trans hv')
  rw [constraints_insertDeployment_iff hcons (hrow _).1, inFlight_iff hjoined]
  refine and_congr_right fun _ => ?_
  constructor
  · rintro hfree ⟨d, hd, hflight, hm, henvironment⟩
    exact hfree d hd hflight rfl hm henvironment
  · rintro hfree e he hflight - hm henvironment
    exact hfree ⟨e, he, hflight, hm, henvironment⟩

/-- What a request has staged adds its row and its event, and the row is what it answers with once
it is stored. -/
theorem request_adds {db : Db} {actorId : Uuid} {correlationId : Option String}
    {data : DeploymentCreate} {u : UnitOfWork}
    (h : requestDeployment db actorId correlationId data = .ok (.staged u)) {v : ModelVersion}
    (hv : db.versions.get? data.modelVersionId = some v) :
    ∃ d, db.AddsRequest (db.write u) data v d ∧ ((db.write u).Constraints →
      (Call.requestDeployment actorId correlationId data).commitAnswer db u =
        .requested d true) := by
  obtain ⟨v', deployment, event, -, hv', -, rfl, hrow⟩ := requestDeployment_eq_staged h
  obtain rfl := Option.some.inj (hv.symm.trans hv')
  obtain ⟨hd, hevent⟩ := hrow db.deployments.next
  refine ⟨deployment.1 db.deployments.next, ⟨rfl, ?_⟩, fun haccepted => ?_⟩
  · rw [hd]
    refine ⟨rfl, rfl, rfl, rfl, rfl, rfl,
      (event db.deployments.next).1 db.deploymentEvents.next, rfl, ?_⟩
    rw [hevent, hd]
    exact ⟨rfl, rfl, rfl⟩
  · simp only [Call.commitAnswer, Db.commit, haccepted, if_true]

/-- A request that reads and commits at once comes to one of the cases. -/
theorem requestCase_of_step {s s' : State} {i : ℕ} {actorId : Uuid}
    {correlationId : Option String} {data : DeploymentCreate} (hcons : s.shared.Constraints)
    (hjoined : s.shared.Joined) (hi : s.locals i = .idle)
    (hstep : step lower s (i, .call (.requestDeployment actorId correlationId data)) = some s') :
    ∃ ans, answer lower s (i, .call (.requestDeployment actorId correlationId data)) = some ans ∧
      RequestCase s.shared data ans s'.shared := by
  cases hk : findByKey s.shared data.idempotencyKey with
  | some d =>
    have hr : requestDeployment s.shared actorId correlationId data = .ok (.existing d) := by
      simp only [requestDeployment, hk]
    obtain ⟨hdb, hans⟩ := step_call_read hi (by simp [Call.stage, hr, Except.map]) hstep
    rw [hdb, hans]
    exact ⟨_, by simp only [Call.readAnswer, hr], .replay hk⟩
  | none =>
    cases hv : s.shared.versions.get? data.modelVersionId with
    | none =>
      have hr : requestDeployment s.shared actorId correlationId data =
          .error (.notFoundError s!"Model version {data.modelVersionId} not found") := by
        simp only [requestDeployment, hk, hv]
      obtain ⟨hdb, hans⟩ := step_call_read hi (by simp [Call.stage, hr, Except.map]) hstep
      rw [hdb, hans]
      refine ⟨.raised (.notFoundError s!"Model version {data.modelVersionId} not found"), ?_,
        .notFound hk hv⟩
      simp only [Call.readAnswer, hr]
    | some v =>
      cases hgate : isDeployable v.stage data.environment with
      | false =>
        have hr : requestDeployment s.shared actorId correlationId data = .error (.conflictError
            s!"A {v.stage.value} version cannot be deployed to {data.environment.value}") := by
          simp [requestDeployment, hk, hv, assertDeployable, hgate, bind, Except.bind]
        obtain ⟨hdb, hans⟩ := step_call_read hi (by simp [Call.stage, hr, Except.map]) hstep
        rw [hdb, hans]
        refine ⟨_, ?_, .ineligible hk hv hgate⟩
        simp only [Call.readAnswer, hr]
      | true =>
        have hstaged : ∃ u, requestDeployment s.shared actorId correlationId data =
            .ok (.staged u) := by
          simp [requestDeployment, hk, hv, assertDeployable, hgate, bind, Except.bind]
        obtain ⟨u, hr⟩ := hstaged
        have hreturns : (Call.requestDeployment actorId correlationId data).Returns lower s.shared u
          := hr
        obtain ⟨hdb, hans⟩ := step_call hi hreturns.stage hstep
        have hiff := request_accepted_iff hcons hjoined hr hv
        rw [hdb, hans]
        refine ⟨_, rfl, ?_⟩
        -- The row is stored unless its key is, or a deployment is in flight.
        by_cases haccepted : (s.shared.write u).Constraints
        · obtain ⟨hkey, hflight⟩ := hiff.mp haccepted
          obtain ⟨d, hadds, hd⟩ := request_adds hr hv
          rw [hd haccepted, Db.commit, if_pos haccepted, Option.getD_some]
          exact .created hk hv hgate hkey hflight hadds
        · simp only [Call.commitAnswer, Db.commit, haccepted, if_false, Call.rejected,
            Option.getD_none]
          refine .rejected hk hv hgate ?_
          by_contra hno
          push Not at hno
          exact haccepted (hiff.mpr hno)

/-! ## The contract of a request -/

/-- No stored deployment carries the key of a request. -/
def Db.KeyFree (db : Db) (data : DeploymentCreate) : Prop :=
  ∀ d ∈ db.deployments, d.idempotencyKey.isSome = true → d.idempotencyKey ≠ data.idempotencyKey

/-- What a request is to come to. -/
structure RequestContract (db : Db) (data : DeploymentCreate) (ans : Answer) (db' : Db) :
    Prop where
  /-- A stored deployment of the version in the environment that carries the key is returned, in
  whichever status it is, and nothing changes. -/
  replay : ∀ d ∈ db.deployments, d.idempotencyKey.isSome = true →
    d.idempotencyKey = data.idempotencyKey → d.modelVersionId = data.modelVersionId →
    d.environment = data.environment → ans = .requested d false ∧ db' = db
  /-- With a key that is not stored, `NotFoundError` says that the version does not exist. -/
  notFound : db.KeyFree data →
    ((∃ message, ans = .raised (.notFoundError message)) ↔
      db.versions.get? data.modelVersionId = none)
  /-- With a key that is not stored, `ConflictError` says that the stage does not allow the
  environment or that a deployment is in flight. -/
  conflict : db.KeyFree data →
    ((∃ message, ans = .raised (.conflictError message)) ↔
      ∃ v, db.versions.get? data.modelVersionId = some v ∧
        (isDeployable v.stage data.environment = false ∨ db.InFlight v data.environment))
  /-- In the remaining case one row and one event are added. -/
  created : db.KeyFree data → ∀ v, db.versions.get? data.modelVersionId = some v →
    isDeployable v.stage data.environment = true → ¬db.InFlight v data.environment →
    ∃ d, ans = .requested d true ∧ db.AddsRequest db' data v d
  /-- A request is refused as already in progress only if a deployment is in flight. -/
  inProgress : ans = .raised (.conflictError (requestInProgress data.environment)) →
    ∃ v, db.versions.get? data.modelVersionId = some v ∧ db.InFlight v data.environment

/-- The key of the request is empty and is stored: with a deployment of the same version in the same
environment, or while nothing else is in the way of the request. -/
def Db.EmptyKeyClash (db : Db) (data : DeploymentCreate) : Prop :=
  data.idempotencyKey = some "" ∧ ∃ d ∈ db.deployments, d.idempotencyKey = some "" ∧
    ((d.modelVersionId = data.modelVersionId ∧ d.environment = data.environment) ∨
      ∃ v, db.versions.get? data.modelVersionId = some v ∧
        isDeployable v.stage data.environment = true ∧ ¬db.InFlight v data.environment)

/-- The refusals of the gate and of the index have different messages. -/
theorem requestInProgress_ne (stage : LifecycleStage) (environment : Environment) :
    s!"A {stage.value} version cannot be deployed to {environment.value}" ≠
      requestInProgress environment := by
  cases stage <;> cases environment <;> decide

/-- A stored key that the lookup does not find is empty. -/
theorem key_eq_empty {db : Db} (h : db.UniqueIdempotencyKey) {k : Option String}
    (hnone : findByKey db k = none) {d : Deployment} (hd : d ∈ db.deployments)
    (hsome : d.idempotencyKey.isSome = true) (hkey : d.idempotencyKey = k) : k = some "" := by
  obtain ⟨key, hk⟩ := Option.isSome_iff_exists.mp hsome
  obtain rfl := hkey.symm.trans hk
  by_contra hne
  exact not_mem_of_findByKey h hnone (fun hempty => hne (congrArg some hempty)) d hd hk

/-- A request whose key clashes as an empty one does not meet the contract. -/
theorem RequestCase.not_contract {db db' : Db} {data : DeploymentCreate} {ans : Answer}
    (h : RequestCase db data ans db') (hclash : db.EmptyKeyClash data) :
    ¬RequestContract db data ans db' := by
  intro hcontract
  obtain ⟨hempty, d, hd, hkey, hclash⟩ := hclash
  have hsome : d.idempotencyKey.isSome = true := by
    rw [hkey]
    rfl
  have hlookup : findByKey db data.idempotencyKey = none := by
    rw [hempty]
    simp [findByKey]
  rcases hclash with ⟨hversion, henvironment⟩ | ⟨v, hv, hgate, hflight⟩
  · -- The stored deployment is not returned.
    obtain ⟨hans, -⟩ :=
      hcontract.replay d hd hsome (hkey.trans hempty.symm) hversion henvironment
    cases h with
    | replay hfound =>
      rw [hlookup] at hfound
      exact absurd hfound (by simp)
    | _ => exact absurd hans (by simp)
  · -- The request is refused as in progress, although nothing is in flight.
    cases h with
    | replay hfound =>
      rw [hlookup] at hfound
      exact absurd hfound (by simp)
    | notFound hnone hv' =>
      rw [hv] at hv'
      exact absurd hv' (by simp)
    | ineligible hnone hv' hgate' =>
      obtain rfl := Option.some.inj (hv.symm.trans hv')
      rw [hgate] at hgate'
      exact absurd hgate' (by decide)
    | rejected hnone hv' hgate' hwhy =>
      obtain ⟨v', hv'', hin⟩ := hcontract.inProgress rfl
      obtain rfl := Option.some.inj (hv.symm.trans hv'')
      exact hflight hin
    | created hnone hv' hgate' hfree hflight' hadds =>
      exact hfree d hd hsome (hkey.trans hempty.symm)

/-- No stored deployment of the version in the environment carries the key of the request. -/
def Db.NothingToReplay (db : Db) (data : DeploymentCreate) : Prop :=
  ∀ d ∈ db.deployments, d.idempotencyKey.isSome = true → d.idempotencyKey = data.idempotencyKey →
    d.modelVersionId = data.modelVersionId → d.environment ≠ data.environment

/-- A replay meets the contract. -/
theorem contract_of_replay {db : Db} {data : DeploymentCreate} {d : Deployment}
    (hkeys : db.UniqueIdempotencyKey) (hfound : findByKey db data.idempotencyKey = some d) :
    RequestContract db data (.requested d false) db := by
  obtain ⟨hd, key, -, hk, hkey⟩ := findByKey_eq_some hfound
  have hstored : ¬db.KeyFree data := by
    intro hfree
    refine hfree d hd ?_ (hkey.trans hk.symm)
    rw [hkey]
    rfl
  refine ⟨fun e he _ hkey' _ _ => ?_, fun hfree => absurd hfree hstored,
    fun hfree => absurd hfree hstored, fun hfree => absurd hfree hstored, by simp⟩
  rw [hkeys.eq he hd (hkey'.trans hk) hkey]
  exact ⟨rfl, rfl⟩

/-- The refusal of the gate meets the contract, if there is nothing to replay. -/
theorem contract_of_ineligible {db : Db} {data : DeploymentCreate} {v : ModelVersion}
    (hmissed : db.NothingToReplay data) (hv : db.versions.get? data.modelVersionId = some v)
    (hgate : isDeployable v.stage data.environment = false) :
    RequestContract db data (.raised (.conflictError
      s!"A {v.stage.value} version cannot be deployed to {data.environment.value}")) db := by
  refine ⟨fun d hd hsome hkey hversion henvironment =>
    absurd henvironment (hmissed d hd hsome hkey hversion), fun _ => ?_, fun _ => ?_,
    fun _ v' hv' hgate' => ?_, fun hans => ?_⟩
  · exact iff_of_false (by simp) (by rw [hv]; simp)
  · exact iff_of_true ⟨_, rfl⟩ ⟨v, hv, Or.inl hgate⟩
  · obtain rfl := Option.some.inj (hv.symm.trans hv')
    rw [hgate] at hgate'
    exact absurd hgate' (by decide)
  · injection hans with hans
    injection hans with hans
    exact absurd hans (requestInProgress_ne v.stage data.environment)

/-- The refusal of the constraints meets the contract, if there is nothing to replay and a
deployment is in flight. -/
theorem contract_of_rejected {db : Db} {data : DeploymentCreate} {v : ModelVersion}
    (hmissed : db.NothingToReplay data) (hv : db.versions.get? data.modelVersionId = some v)
    (hflight : db.InFlight v data.environment) :
    RequestContract db data (.raised (.conflictError (requestInProgress data.environment))) db := by
  refine ⟨fun d hd hsome hkey hversion henvironment =>
    absurd henvironment (hmissed d hd hsome hkey hversion), fun _ => ?_, fun _ => ?_,
    fun _ v' hv' _ hno => ?_, fun _ => ⟨v, hv, hflight⟩⟩
  · exact iff_of_false (by simp) (by rw [hv]; simp)
  · exact iff_of_true ⟨_, rfl⟩ ⟨v, hv, Or.inr hflight⟩
  · obtain rfl := Option.some.inj (hv.symm.trans hv')
    exact absurd hflight hno

/-- A request that comes to one of the cases meets the contract exactly when its key does not clash
as an empty one. -/
theorem RequestCase.contract_iff {db db' : Db} {data : DeploymentCreate} {ans : Answer}
    (hkeys : db.UniqueIdempotencyKey) (h : RequestCase db data ans db') :
    RequestContract db data ans db' ↔ ¬db.EmptyKeyClash data := by
  refine ⟨fun hcontract hclash => h.not_contract hclash hcontract, fun hclash => ?_⟩
  -- Without a clash no row that the lookup passes over is one to replay.
  have hmissed : findByKey db data.idempotencyKey = none → db.NothingToReplay data := by
    intro hnone d hd hsome hkey hversion henvironment
    have hempty := key_eq_empty hkeys hnone hd hsome hkey
    exact hclash ⟨hempty, d, hd, hkey.trans hempty, Or.inl ⟨hversion, henvironment⟩⟩
  cases h with
  | replay hfound => exact contract_of_replay hkeys hfound
  | notFound hnone hv =>
    refine ⟨fun d hd hsome hkey hversion henvironment =>
      absurd henvironment (hmissed hnone d hd hsome hkey hversion), fun _ => ?_, fun _ => ?_,
      fun _ v hv' => ?_, by simp⟩
    · exact iff_of_true ⟨_, rfl⟩ hv
    · refine iff_of_false (by simp) ?_
      rintro ⟨v, hv', -⟩
      rw [hv] at hv'
      exact absurd hv' (by simp)
    · rw [hv] at hv'
      exact absurd hv' (by simp)
  | ineligible hnone hv hgate => exact contract_of_ineligible (hmissed hnone) hv hgate
  | @rejected v hnone hv hgate hwhy =>
    apply contract_of_rejected (hmissed hnone) hv
    rcases hwhy with ⟨d, hd, hsome, hkey⟩ | hflight
    · -- The key that the column rejects is empty, so a deployment must be in flight as well.
      by_contra hflight
      have hempty := key_eq_empty hkeys hnone hd hsome hkey
      exact hclash ⟨hempty, d, hd, hkey.trans hempty, Or.inr ⟨v, hv, hgate, hflight⟩⟩
    · exact hflight
  | @created v d₀ db' hnone hv hgate hfree hflight hadds =>
    refine ⟨fun d hd hsome hkey _ _ => absurd hkey (hfree d hd hsome), fun _ => ?_, fun _ => ?_,
      fun _ v' hv' _ _ => ?_, by simp⟩
    · exact iff_of_false (by simp) (by rw [hv]; simp)
    · refine iff_of_false (by simp) ?_
      rintro ⟨v', hv', hwhy⟩
      obtain rfl := Option.some.inj (hv.symm.trans hv')
      rcases hwhy with hgate' | hflight'
      · rw [hgate] at hgate'
        exact absurd hgate' (by decide)
      · exact hflight hflight'
    · obtain rfl := Option.some.inj (hv.symm.trans hv')
      exact ⟨d₀, rfl, hadds⟩

/-- In every state that atomic steps reach, an idle session's request is answered, and it meets the
contract if and only if its key does not clash as an empty one. -/
theorem requestContract_iff_of_reach {s : State} (h : Reach (step lower) AtomicSteps .init s)
    {i : ℕ} (hi : s.locals i = .idle) (actorId : Uuid) (correlationId : Option String)
    (data : DeploymentCreate) :
    ∃ s' ans, step lower s (i, .call (.requestDeployment actorId correlationId data)) = some s' ∧
      answer lower s (i, .call (.requestDeployment actorId correlationId data)) = some ans ∧
      (RequestContract s.shared data ans s'.shared ↔ ¬s.shared.EmptyKeyClash data) := by
  have hcons := reach_constraints h
  have hempty : ∀ d, d ∉ State.init.shared.deployments := fun d => List.not_mem_nil (a := d)
  have hjoined := (reach_exclusive (fun _ _ => rfl) hempty (fun _ => rfl) h).1.1
  have hcan : ∃ s', step lower s
      (i, .call (.requestDeployment actorId correlationId data)) = some s' :=
    exists_step_call hi _
  obtain ⟨s', hstep⟩ := hcan
  obtain ⟨ans, hans, hcase⟩ := requestCase_of_step hcons hjoined hi hstep
  exact ⟨s', ans, hstep, hans, hcase.contract_iff hcons.2.2.1⟩

/-- A request for the deployment of a version to development, with a key. -/
def keyedRequest (versionId : Uuid) (key : String) : Call :=
  .requestDeployment 9 none
    { modelVersionId := versionId, environment := .development, idempotencyKey := some key
      simulateFailure := false }

/-- Version 1 is deployed to development under a key. -/
def keyedRun (key : String) : List (ℕ × Action) :=
  registration ++ [(0, .call (keyedRequest 1 key))] ++ executeJob 1 "a" 10

/-- A request with the key of `keyedRun`, which is not empty. -/
theorem requestContract_iff_of_reach_keyedRun :
    ∃ s, Reach (step id) AtomicSteps .init s ∧ s.locals 0 = .idle ∧
      s.shared.deployments.rows.map (fun d => (d.status, d.idempotencyKey)) =
        [(.succeeded, some "release-1")] ∧
      ∃ s' ans, step id s (0, .call (keyedRequest 1 "release-1")) = some s' ∧
        answer id s (0, .call (keyedRequest 1 "release-1")) = some ans ∧
        (RequestContract s.shared
            { modelVersionId := 1, environment := .development, idempotencyKey := some "release-1"
              simulateFailure := false } ans s'.shared ↔
          ¬s.shared.EmptyKeyClash
            { modelVersionId := 1, environment := .development, idempotencyKey := some "release-1"
              simulateFailure := false }) := by
  have hs := exec_reach (step id) AtomicSteps .init (keyedRun "release-1")
  exact ⟨_, hs, rfl, by decide, requestContract_iff_of_reach hs rfl 9 none _⟩

/-- Under the empty key the deployment is stored, and neither its replay nor a request for the other
version, for whose model nothing is in flight, meets the contract: both are refused as already in
progress. -/
theorem emptyKey_refused :
    ∃ s, Reach (step id) AtomicSteps .init s ∧
      s.shared.deployments.rows.map (fun d => (d.status, d.idempotencyKey)) =
        [(.succeeded, some "")] ∧
      ∀ versionId ∈ [1, 2], ∃ s' ans,
        step id s (0, .call (keyedRequest versionId "")) = some s' ∧
        answer id s (0, .call (keyedRequest versionId "")) = some ans ∧
        ans = .raised (.conflictError (requestInProgress .development)) ∧
        s'.shared.deployments.rows.length = 1 ∧
        ¬RequestContract s.shared
          { modelVersionId := versionId, environment := .development, idempotencyKey := some ""
            simulateFailure := false } ans s'.shared := by
  have hidle : ∀ d ∈ (exec (step id) AtomicSteps .init (keyedRun "")).shared.deployments.rows,
      d.inFlight = false := by decide
  refine ⟨_, exec_reach (step id) AtomicSteps .init (keyedRun ""), by decide, ?_⟩
  intro versionId hversion
  have hstep : ((step id (exec (step id) AtomicSteps .init (keyedRun ""))
      (0, .call (keyedRequest versionId ""))).map fun s' => s'.shared.deployments.rows.length) =
        some 1 := by
    revert versionId
    decide
  have hans : answer id (exec (step id) AtomicSteps .init (keyedRun ""))
      (0, .call (keyedRequest versionId "")) =
        some (.raised (.conflictError (requestInProgress .development))) := by
    simp only [List.mem_cons, List.not_mem_nil, or_false] at hversion
    rcases hversion with rfl | rfl <;> rfl
  obtain ⟨s', hs', hrows⟩ := Option.map_eq_some_iff.mp hstep
  refine ⟨s', _, hs', hans, rfl, hrows, fun hcontract => ?_⟩
  -- Such a refusal says that a deployment is in flight.
  obtain ⟨v, -, d, hd, hflight, -⟩ := hcontract.inProgress rfl
  rw [hidle d hd] at hflight
  exact absurd hflight Bool.false_ne_true

end MlopsPlatform
