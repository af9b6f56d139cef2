import MlopsPlatform.Requests.Outcome

/-!
# What a successful request answers for

Idempotency keys are one namespace over all users, models, and environments, and a request whose key
is stored is a replay: it returns the stored deployment before it looks at any other field of the
payload. So a request that creates its row answers for what it asks. One that does not answers for
what the request that created the row had asked, and that may be another version or environment
(`replay_of_another`). `Originates` follows every stored row back to the request that created it.
-/

namespace MlopsPlatform

open Transition

variable {lower : String → String}

/-! ## Where a row comes from -/

/-- Some earlier step of the run is a request that was answered with a new row, which this row still
is: it has its key, and deploys what that request asked for. -/
def Originates (lower : String → String) (steps : List (State × (ℕ × Action))) (d : Deployment) :
    Prop :=
  ∃ t q actorId correlationId data d₀, (t, q) ∈ steps ∧
    calling t q = some (.requestDeployment actorId correlationId data) ∧
    answer lower t q = some (.requested d₀ true) ∧ d₀.id = d.id ∧
    d.idempotencyKey = data.idempotencyKey ∧ d.modelVersionId = data.modelVersionId ∧
    d.environment = data.environment

/-- A row that a commit has updated has the origin of the row before. -/
theorem Originates.mono {steps steps' : List (State × (ℕ × Action))} {d d' : Deployment}
    (h : Originates lower steps d) (hsteps : ∀ x ∈ steps, x ∈ steps') (hid : d'.id = d.id)
    (hkey : d'.idempotencyKey = d.idempotencyKey) (hversion : d'.modelVersionId = d.modelVersionId)
    (henvironment : d'.environment = d.environment) : Originates lower steps' d' := by
  obtain ⟨t, q, actorId, correlationId, data, d₀, hmem, hcall, hans, hid₀, hk, hv, he⟩ := h
  exact ⟨t, q, actorId, correlationId, data, d₀, hsteps _ hmem, hcall, hans, hid₀.trans hid.symm,
    hkey.trans hk, hversion.trans hv, henvironment.trans he⟩

/-- A request that is answered with a new row has written it, and it deploys what the request asks
for. -/
theorem created_of_written {ok : State → ℕ × Action → Prop} {s : State}
    (h : Reach (step lower) ok .init s) {i : ℕ} {a : Action} {w : Writer}
    {deployment : Table.Draft Deployment.id} {event : Uuid → Table.Draft DeploymentEvent.id}
    (hwritten : written lower s (i, a) = some (w, .insertDeployment deployment event)) :
    ∃ actorId correlationId data,
      calling s (i, a) = some (.requestDeployment actorId correlationId data) ∧
      answer lower s (i, a) =
        some (.requested (deployment.1 s.shared.deployments.next) true) ∧
      ∀ id, (deployment.1 id).idempotencyKey = data.idempotencyKey ∧
        (deployment.1 id).modelVersionId = data.modelVersionId ∧
        (deployment.1 id).environment = data.environment := by
  obtain ⟨hcom, hcons⟩ := written_eq_some.mp hwritten
  obtain ⟨actorId, correlationId, data, db, rfl, hr⟩ := request_of_insert h hcom
  obtain ⟨hcall, hans⟩ := answer_of_written hwritten
  refine ⟨actorId, correlationId, data, hcall, ?_, fun id => ?_⟩
  · rw [hans]
    simp only [Call.commitAnswer, Db.commit, hcons, if_true]
  · obtain ⟨v, deployment', event', -, -, -, hu, hrow⟩ := requestDeployment_eq_staged hr
    obtain ⟨rfl, -⟩ := UnitOfWork.insertDeployment.inj hu
    rw [(hrow id).1]
    exact ⟨rfl, rfl, rfl⟩

/-- In a run, every stored deployment was created by a request of the run. -/
theorem originates_of_trace {ok : State → ℕ × Action → Prop} {s : State}
    {steps : List (State × (ℕ × Action))} (h : Trace (step lower) ok .init steps s) :
    ∀ d ∈ s.shared.deployments, Originates lower steps d := by
  induction h with
  | nil => exact fun d hd => absurd hd (List.not_mem_nil (a := d))
  | @snoc steps s s' p htrace hok hstep ih =>
    obtain ⟨i, a⟩ := p
    have hsteps : ∀ x ∈ steps, x ∈ steps ++ [(s, (i, a))] := fun x hx => List.mem_append_left _ hx
    intro d hd
    rcases step_cases hstep with ⟨l, -, -, rfl⟩ | ⟨w, u, l, hwritten, -, rfl⟩
    · exact (ih d hd).mono hsteps rfl rfl rfl rfl
    · rcases Db.mem_deployments_write hd with ⟨e, he, rfl⟩ | ⟨deployment, event, rfl, rfl⟩
      · obtain ⟨-, hversion, henvironment⟩ := u.onDeployment_frame e
        exact (ih e he).mono hsteps (u.onDeployment_id e) (u.onDeployment_idempotencyKey e)
          hversion henvironment
      · -- The step is the request that creates the row.
        obtain ⟨actorId, correlationId, data, hcall, hans, hrow⟩ :=
          created_of_written htrace.reach hwritten
        obtain ⟨hkey, hversion, henvironment⟩ := hrow s.shared.deployments.next
        exact ⟨s, (i, a), actorId, correlationId, data, _,
          List.mem_append_right _ (List.mem_singleton_self _), hcall, hans, rfl, hkey, hversion,
          henvironment⟩

/-! ## What an answer is about -/

/-- A request that ends with its reads and returns a deployment returns the stored one that carries
its key. -/
theorem readAnswer_requested {db : Db} {actorId : Uuid} {correlationId : Option String}
    {data : DeploymentCreate} {d : Deployment} {created : Bool}
    (h : (Call.requestDeployment actorId correlationId data).readAnswer lower db =
      some (.requested d created)) :
    created = false ∧ findByKey db data.idempotencyKey = some d := by
  simp only [Call.readAnswer] at h
  split at h
  · exact absurd h (by simp)
  · rename_i e he
    simp only [Option.some.injEq, Answer.requested.injEq] at h
    obtain ⟨rfl, rfl⟩ := h
    exact ⟨rfl, requestDeployment_eq_existing.mp he⟩
  · exact absurd h (by simp)

/-- A request that returns a deployment at its commit returns the row that it has inserted. -/
theorem commitAnswer_requested {db : Db} {actorId : Uuid} {correlationId : Option String}
    {data : DeploymentCreate} {u : UnitOfWork} {d : Deployment} {created : Bool}
    (h : (Call.requestDeployment actorId correlationId data).commitAnswer db u =
      .requested d created) :
    created = true ∧ ∃ deployment event, u = .insertDeployment deployment event ∧
      d = deployment.1 db.deployments.next := by
  unfold Call.commitAnswer at h
  split at h
  · split at h
    · obtain ⟨rfl, rfl⟩ := Answer.requested.inj h
      exact ⟨rfl, _, _, rfl, rfl⟩
    · exact absurd h (by simp)
  · exact absurd h (by simp [Call.rejected])

/-- In every interleaving of calls, workers, and reapers, a request that returns `(d, created)`
without an error answers for what was asked if it has created `d`. Otherwise `d` is the stored
deployment with the request's key, which is not empty, and it answers for what an earlier request
with that key had asked when it created `d`. -/
theorem requested_of_trace {ok : State → ℕ × Action → Prop} {s : State}
    {steps : List (State × (ℕ × Action))} (h : Trace (step lower) ok .init steps s) {i : ℕ}
    {a : Action} {actorId : Uuid} {correlationId : Option String} {data : DeploymentCreate}
    {d : Deployment} {created : Bool}
    (hcall : calling s (i, a) = some (.requestDeployment actorId correlationId data))
    (hans : answer lower s (i, a) = some (.requested d created)) :
    (created = true → d.modelVersionId = data.modelVersionId ∧
      d.environment = data.environment) ∧
    (created = false → d ∈ s.shared.deployments ∧
      (∃ key, key ≠ "" ∧ data.idempotencyKey = some key ∧ d.idempotencyKey = some key) ∧
      ∃ t q actorId₀ correlationId₀ data₀ d₀, (t, q) ∈ steps ∧
        calling t q = some (.requestDeployment actorId₀ correlationId₀ data₀) ∧
        answer lower t q = some (.requested d₀ true) ∧ d₀.id = d.id ∧
        data₀.idempotencyKey = data.idempotencyKey ∧
        d.modelVersionId = data₀.modelVersionId ∧ d.environment = data₀.environment) := by
  rcases answer_cases hcall hans with ⟨hread, -⟩ | ⟨u, hcom, hcommit⟩
  · obtain ⟨rfl, hfound⟩ := readAnswer_requested hread
    obtain ⟨hd, key, hempty, hk, hkey⟩ := findByKey_eq_some hfound
    refine ⟨fun hfalse => absurd hfalse (by decide), fun _ => ⟨hd, ⟨key, hempty, hk, hkey⟩, ?_⟩⟩
    obtain ⟨t, q, actorId₀, correlationId₀, data₀, d₀, hmem, hcall₀, hans₀, hid, hkey₀, hversion,
      henvironment⟩ := originates_of_trace h d hd
    exact ⟨t, q, actorId₀, correlationId₀, data₀, d₀, hmem, hcall₀, hans₀, hid,
      hkey₀.symm.trans (hkey.trans hk.symm), hversion, henvironment⟩
  · obtain ⟨rfl, deployment, event, rfl, rfl⟩ := commitAnswer_requested hcommit
    refine ⟨fun _ => ?_, fun hfalse => absurd hfalse (by decide)⟩
    -- What the call has staged, in whichever state it has read, is for the version asked for.
    obtain ⟨db, hr⟩ := returns_of_reach h.reach hcom
    obtain ⟨v, deployment', event', -, -, -, hu, hrow⟩ := requestDeployment_eq_staged hr
    obtain ⟨rfl, -⟩ := UnitOfWork.insertDeployment.inj hu
    rw [(hrow _).1]
    exact ⟨rfl, rfl⟩

/-- The replay of the request of `keyedRun`. -/
theorem requested_of_trace_keyedRun :
    ∃ steps s d, Trace (step id) AtomicSteps .init steps s ∧
      calling s (0, .call (keyedRequest 1 "release-1")) = some (keyedRequest 1 "release-1") ∧
      answer id s (0, .call (keyedRequest 1 "release-1")) = some (.requested d false) ∧
      (false = true → d.modelVersionId = 1 ∧ d.environment = .development) ∧
      (false = false → d ∈ s.shared.deployments ∧
        (∃ key, key ≠ "" ∧ some "release-1" = some key ∧ d.idempotencyKey = some key) ∧
        ∃ t q actorId₀ correlationId₀ data₀ d₀, (t, q) ∈ steps ∧
          calling t q = some (.requestDeployment actorId₀ correlationId₀ data₀) ∧
          answer id t q = some (.requested d₀ true) ∧ d₀.id = d.id ∧
          data₀.idempotencyKey = some "release-1" ∧
          d.modelVersionId = data₀.modelVersionId ∧ d.environment = data₀.environment) := by
  obtain ⟨steps, htrace⟩ :=
    (exec_reach (step id) AtomicSteps .init (keyedRun "release-1")).exists_trace
  have hcall : calling (exec (step id) AtomicSteps .init (keyedRun "release-1"))
      (0, .call (keyedRequest 1 "release-1")) = some (keyedRequest 1 "release-1") := rfl
  have hans : ∃ d, answer id (exec (step id) AtomicSteps .init (keyedRun "release-1"))
      (0, .call (keyedRequest 1 "release-1")) = some (.requested d false) := ⟨_, rfl⟩
  obtain ⟨d, hans⟩ := hans
  exact ⟨steps, _, d, htrace, hcall, hans, requested_of_trace htrace hcall hans⟩

/-- A request for version 2 with the key of `keyedRun` is answered with the deployment of
version 1. -/
theorem replay_of_another :
    ∃ s d, Reach (step id) AtomicSteps .init s ∧
      answer id s (0, .call (keyedRequest 2 "release-1")) = some (.requested d false) ∧
      d.modelVersionId ≠ 2 :=
  ⟨_, _, exec_reach (step id) AtomicSteps .init (keyedRun "release-1"), rfl, by decide⟩

end MlopsPlatform
