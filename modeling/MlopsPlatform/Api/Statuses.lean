import MlopsPlatform.Api.Routes
import MlopsPlatform.Requests.WakeUp
import MlopsPlatform.Widths

/-!
# What a status tells

A client learns from the status of a response what has become of its request. `respond` ends at the
commit of a call. `reply` goes on as the services do: a value that PostgreSQL finds too long for its
column raises a `DataError` that nothing catches, and a request and a retry go on to `notify`, whose
exceptions nothing catches either. So there is one error that follows a write: that of a request or
a retry whose signal is `lost`.

Over every run of the server whose writes fit their columns, whatever is interleaved with it: any
other error leaves the database as it was, the responses that return a written row are as many as
the writes of the API less the lost signals, and the rows of the registry can be counted by the
statuses. There is a model or a version for every 201, and a deployment for every 202 and for every
request whose signal was lost.
-/

namespace MlopsPlatform.Api

open Transition

/-- The response returns a row that its step has written. -/
def Response.returnsWritten (r : Response) : Bool :=
  match r.body with
  | .row (.requested _ created) => created
  | .row .returned => true
  | _ => false

/-- The API writes in the step. -/
def apiWrites (env : Env) (x : Server × (ℕ × ServerAction)) : Bool :=
  (writes env x.1 x.2).any fun w => w.1.isApi

/-- The step gives a response that meets a test. -/
def responds (env : Env) (test : Response → Bool) (x : Server × (ℕ × ServerAction)) : Bool :=
  (respond env x.1 x.2).any test

/-! ## What follows the commit -/

/-- The response to an exception that no handler takes. -/
def internalServerError : Response := ⟨500, .detail "Internal Server Error"⟩

/-- Flush and commit to PostgreSQL, which checks the widths of the columns, or to SQLite, which does
not. -/
def commitOn (postgresql : Bool) (db : Db) (u : UnitOfWork) : Except DbError Db :=
  if postgresql then db.commitStrict u
  else
    match db.commit u with
    | some db' => .ok db'
    | none => .error .integrityError

/-- The writer is a request or a retry. -/
def enqueuing : Writer → Bool
  | .api call => call.enqueues
  | _ => false

/-- The writer is a request. -/
def requesting : Writer → Bool
  | .api (.requestDeployment _ _ _) => true
  | _ => false

section

variable {E : Type} (env : Env) (postgresql : Bool)

/-- The response to a call that commits. -/
def commitResponse (signal : Signal E) (db : Db) (call : Call) (u : UnitOfWork) : Response :=
  match commitOn postgresql db u with
  -- The services catch an `IntegrityError` and no `DataError`.
  | .error .dataError => internalServerError
  | .error .integrityError => respondTo call (call.rejected u)
  | .ok _ =>
    match if call.enqueues then notify postgresql signal else .ok () with
    | .error _ => internalServerError
    | .ok _ => respondTo call (call.commitAnswer db u)

/-- The response that a client receives in a step. -/
def reply (signal : Signal E) (s : Server) (p : ℕ × ServerAction) : Option Response :=
  match s.platform.locals p.1, p.2 with
  | .api call u, .proceed .commit =>
    some (commitResponse postgresql signal s.platform.shared call u)
  | _, _ => respond env s p

/-- The client receives a response that meets a test. What becomes of `notify` may differ from step
to step. -/
def replies (signal : Server × (ℕ × ServerAction) → Signal E) (test : Response → Bool)
    (x : Server × (ℕ × ServerAction)) : Bool :=
  (reply env postgresql (signal x) x.1 x.2).any test

/-- The step writes a request or a retry, and then `notify` raises. -/
def lost (signal : Server × (ℕ × ServerAction) → Signal E) (x : Server × (ℕ × ServerAction)) :
    Bool :=
  (writes env x.1 x.2).any fun w => enqueuing w.1 && !(notify postgresql (signal x)).isOk

/-- The step writes a request. -/
def writesRequest (x : Server × (ℕ × ServerAction)) : Bool :=
  (writes env x.1 x.2).any fun w => requesting w.1

/-- The steps of runs in which all that is written to PostgreSQL fits its columns. -/
def Fits (s : Server) (p : ℕ × ServerAction) : Prop :=
  postgresql = true → ∀ w ∈ writes env s p,
    w.2.rowsFit s.platform.shared = true ∧ w.2.eventsFit s.platform.shared = true

instance (s : Server) (p : ℕ × ServerAction) : Decidable (Fits env postgresql s p) :=
  inferInstanceAs (Decidable (_ → _))

end

/-! ## The response of a step -/

/-- A call that answers with its reads has not written: it is an error, or a replay. -/
theorem respondTo_readAnswer {lower : String → String} {db : Db} {call : Call} {ans : Answer}
    (h : call.readAnswer lower db = some ans) :
    (respondTo call ans).returnsWritten = false ∧
      ((respondTo call ans).status = 200 ∨ 400 ≤ (respondTo call ans).status) := by
  have hraised : ∀ e, (respondTo call (.raised e)).returnsWritten = false ∧
      ((respondTo call (.raised e)).status = 200 ∨
        400 ≤ (respondTo call (.raised e)).status) := by
    intro e
    refine ⟨rfl, Or.inr ?_⟩
    cases e <;> simp [respondTo, domainErrorHandler, domainErrorStatus]
  cases call with
  | requestDeployment actorId correlationId data =>
    simp only [Call.readAnswer] at h
    split at h
    · obtain rfl := Option.some.inj h
      exact hraised _
    · obtain rfl := Option.some.inj h
      exact ⟨rfl, Or.inl rfl⟩
    · exact absurd h (by simp)
  | _ =>
    simp only [Call.readAnswer] at h
    split at h
    · obtain rfl := Option.some.inj h
      exact hraised _
    · exact absurd h (by simp)

/-- A call that the constraints reject answers with an error. -/
theorem respondTo_rejected (call : Call) (u : UnitOfWork) :
    (respondTo call (call.rejected u)).returnsWritten = false ∧
      400 ≤ (respondTo call (call.rejected u)).status := by
  have hrejected : (∃ e, call.rejected u = .raised (.conflictError e)) ∨
      call.rejected u = .integrityError := by
    cases call with
    | requestDeployment actorId correlationId data => exact Or.inl ⟨_, rfl⟩
    | retryDeployment actorId deploymentId =>
      simp only [Call.rejected]
      split
      · exact Or.inl ⟨_, rfl⟩
      · exact Or.inr rfl
    | _ => exact Or.inr rfl
  rcases hrejected with ⟨e, he⟩ | he
  · rw [he]
    exact ⟨rfl, by simp [respondTo, domainErrorHandler, domainErrorStatus]⟩
  · rw [he]
    exact ⟨rfl, by simp [respondTo]⟩

variable {env : Env}

/-- A response that a step gives without a write of the API: an error, a replay, or that of a
login. -/
def Response.Idle (r : Response) : Prop :=
  r.returnsWritten = false ∧ (r.status = 200 ∨ 400 ≤ r.status)

/-- A request that is turned away, and a login, have not written. -/
theorem idle_of_isolated {s : Server} {p : ℕ × ServerAction} {resp : Response}
    (h : respond env s p = some resp) (hp : p.2.onPlatform env = none)
    (hisolated : p.2.isolated = true) : resp.Idle := by
  obtain ⟨i, a⟩ := p
  cases a with
  | login username password now =>
    obtain rfl := Option.some.inj h
    unfold login
    split
    · exact ⟨rfl, Or.inr (by simp)⟩
    · exact ⟨rfl, Or.inl rfl⟩
  | request r =>
    cases hg : r.guard env with
    | ok u => simp [ServerAction.onPlatform, hg] at hp
    | error e =>
      obtain rfl : e.response = resp := by simpa [respond, hg] using h
      refine ⟨rfl, Or.inr ?_⟩
      -- The guard raises with 401 or with 403.
      have hstatus : e.status = 401 ∨ e.status = 403 := by
        unfold HttpRequest.guard guardRoles at hg
        cases hu : getCurrentUser env.crypto env.settings env.users r.now r.credentials with
        | error e' =>
          obtain rfl : e' = e := by simpa [hu, bind, Except.bind] using hg
          unfold getCurrentUser at hu
          repeat' split at hu
          all_goals first
            | exact Or.inl (by obtain rfl := Except.error.inj hu; rfl)
            | exact absurd hu (by simp)
        | ok u =>
          rw [hu] at hg
          have hrole : requireRoles r.request.roles u = .error e := hg
          unfold requireRoles at hrole
          split_ifs at hrole
          obtain rfl := Except.error.inj hrole
          exact Or.inr rfl
      show 400 ≤ e.status
      omega
  | proceed a => exact absurd hisolated (by simp [ServerAction.isolated])

/-- A response tells of a write of the API in its step, or of none. -/
theorem respond_cases {s s' : Server} {p : ℕ × ServerAction} {resp : Response}
    (hs : serve env s p = some s') (h : respond env s p = some resp) :
    (∃ call u, writes env s p = some (.api call, u) ∧
        resp = respondTo call (call.commitAnswer s.platform.shared u)) ∨
      (writes env s p = none ∧ resp.Idle) := by
  obtain ⟨i, a⟩ := p
  cases hp : a.onPlatform env with
  | none =>
    refine Or.inr ⟨by simp [writes, hp], idle_of_isolated h hp ?_⟩
    simp only [serve, hp] at hs
    split_ifs at hs with hisolated
    exact hisolated
  | some b =>
    -- The step is one of the platform, and answers a call.
    obtain ⟨call, ans, hcall, hans, rfl⟩ : ∃ call ans, calling s.platform (i, b) = some call ∧
        answer env.lower s.platform (i, b) = some ans ∧ resp = respondTo call ans := by
      cases a with
      | login username password now => simp [ServerAction.onPlatform] at hp
      | request r =>
        cases hg : r.guard env with
        | error e => simp [ServerAction.onPlatform, hg] at hp
        | ok u =>
          obtain rfl : Action.start (r.call u) = b := by
            simpa [ServerAction.onPlatform, hg] using hp
          obtain ⟨ans, hans, rfl⟩ : ∃ ans,
              answer env.lower s.platform (i, .start (r.call u)) = some ans ∧
                respondTo (r.call u) ans = resp := by simpa [respond, hg] using h
          refine ⟨r.call u, ans, ?_, hans, rfl⟩
          -- A session that answers the reads of a call was idle.
          simp only [answer] at hans
          simp only [calling]
          cases hl : s.platform.locals i <;> simp [hl] at hans ⊢
      | proceed c =>
        obtain rfl : c = b := by
          simp only [ServerAction.onPlatform] at hp
          split_ifs at hp
          exact Option.some.inj hp
        simp only [respond] at h
        cases hc : calling s.platform (i, c) with
        | none => simp [hc] at h
        | some call =>
          rw [hc] at h
          obtain ⟨ans, hans, rfl⟩ := Option.map_eq_some_iff.mp h
          exact ⟨call, ans, rfl, hans, rfl⟩
    rcases answer_cases hcall hans with ⟨hread, hcom⟩ | ⟨u, hcom, rfl⟩
    · refine Or.inr ⟨by simp [writes, hp, written, hcom], ?_⟩
      exact respondTo_readAnswer hread
    · by_cases hcons : (s.platform.shared.write u).Constraints
      · refine Or.inl ⟨call, u, ?_, rfl⟩
        simp only [writes, hp]
        exact written_eq_some.mpr ⟨hcom, hcons⟩
      · refine Or.inr ⟨by simp [writes, hp, written, hcom, hcons], ?_⟩
        have hnone : s.platform.shared.commit u = none := by simp [Db.commit, hcons]
        have hrejected := respondTo_rejected call u
        simp only [Call.commitAnswer, hnone]
        exact ⟨hrejected.1, Or.inr hrejected.2⟩

/-- A write of the API is answered in its step, with what the call returns. -/
theorem respond_of_writes {s : Server} {p : ℕ × ServerAction} {call : Call} {u : UnitOfWork}
    (h : writes env s p = some (.api call, u)) :
    respond env s p = some (respondTo call (call.commitAnswer s.platform.shared u)) := by
  obtain ⟨i, a⟩ := p
  cases a with
  | login username password now => simp [writes, ServerAction.onPlatform] at h
  | request r =>
    cases hg : r.guard env with
    | error e => simp [writes, ServerAction.onPlatform, hg] at h
    | ok v =>
      -- The reads of a request write nothing.
      have hwritten :
          written env.lower s.platform (i, .start (r.call v)) = some (.api call, u) := by
        simpa [writes, ServerAction.onPlatform, hg] using h
      rw [written, committed_of_splits (.start (r.call v))] at hwritten
      exact absurd hwritten (by simp)
  | proceed a =>
    cases hmakes : makesCall a with
    | true => simp [writes, ServerAction.onPlatform, hmakes] at h
    | false =>
      have hwritten : written env.lower s.platform (i, a) = some (.api call, u) := by
        simpa [writes, ServerAction.onPlatform, hmakes] using h
      obtain ⟨hcall, hans⟩ := answer_of_written hwritten
      simp only [respond, hcall, hans, Option.map_some]

/-- The API writes in a step exactly if the step responds with a written row. -/
theorem apiWrites_iff {s s' : Server} {p : ℕ × ServerAction} (hs : serve env s p = some s') :
    apiWrites env (s, p) = true ↔ responds env Response.returnsWritten (s, p) = true := by
  simp only [apiWrites, responds, Option.any_eq_true]
  constructor
  · rintro ⟨⟨w, u⟩, hw, hapi⟩
    cases w with
    | api call =>
      refine ⟨_, respond_of_writes hw, ?_⟩
      have hcons : (s.platform.shared.write u).Constraints := by
        simp only [writes] at hw
        split at hw
        · exact (written_eq_some.mp hw).2
        · exact absurd hw (by simp)
      have hcommit : s.platform.shared.commit u = some (s.platform.shared.write u) :=
        Db.commit_eq_some.mpr ⟨hcons, rfl⟩
      simp only [Call.commitAnswer, hcommit]
      cases u <;> rfl
    | _ => exact absurd hapi (by simp [Writer.isApi])
  · rintro ⟨resp, hresp, hreturns⟩
    rcases respond_cases hs hresp with ⟨call, u, hw, -⟩ | ⟨-, hidle⟩
    · exact ⟨_, hw, rfl⟩
    · rw [hidle.1] at hreturns
      exact absurd hreturns (by simp)

/-! ## The rows that a response accounts for -/

/-- The status of a call that has written tells what it has added. -/
theorem added_of_returns {lower : String → String} {db₀ db : Db} {call : Call} {u : UnitOfWork}
    (h : call.Returns lower db₀ u) (hcons : (db.write u).Constraints) :
    (respondTo call (call.commitAnswer db u)).status < 400 ∧
      (db.write u).models.rows.length + (db.write u).versions.rows.length =
        db.models.rows.length + db.versions.rows.length +
          (if (respondTo call (call.commitAnswer db u)).status = 201 then 1 else 0) ∧
      (db.write u).deployments.rows.length = db.deployments.rows.length +
        (if (respondTo call (call.commitAnswer db u)).status = 202 then 1 else 0) := by
  have hcommit : db.commit u = some (db.write u) := Db.commit_eq_some.mpr ⟨hcons, rfl⟩
  simp only [Call.commitAnswer, hcommit]
  cases call with
  | createModel actorId data =>
    obtain ⟨key, -, rfl⟩ := Option.map_eq_some_iff.mp h
    simp only [respondTo, successStatus, Db.write, Table.insert, List.length_append]
    simp
    omega
  | createVersion actorId correlationId modelId data =>
    obtain ⟨-, -, rfl⟩ := createVersion_eq_ok.mp h
    simp only [respondTo, successStatus, Db.write, Table.insert, List.length_append]
    simp
    omega
  | approveVersion actorId correlationId versionId now =>
    obtain ⟨v, -, -, rfl⟩ := approveVersion_eq_ok.mp h
    simp [respondTo, successStatus, Db.write, Table.mapRows]
  | transitionVersion actorId correlationId versionId target =>
    obtain ⟨v, -, -, -, rfl⟩ := transitionVersion_eq_ok.mp h
    simp [respondTo, successStatus, Db.write, Table.mapRows]
  | requestDeployment actorId correlationId data =>
    obtain ⟨v, deployment, event, -, -, -, rfl, -⟩ := requestDeployment_eq_staged h
    simp [respondTo, Db.write, Table.insert]
  | retryDeployment actorId deploymentId =>
    obtain ⟨d, -, -, rfl⟩ := retryDeployment_eq_ok.mp h
    simp [respondTo, successStatus, Db.write, Table.mapRows]
  | rollbackDeployment actorId deploymentId =>
    obtain ⟨d, t, -, -, -, rfl⟩ := rollbackDeployment_eq_ok.mp h
    simp [respondTo, successStatus, Db.write, Table.mapRows]

/-- Workers and reapers commit changes of deployments only. -/
theorem updates_of_reach {lower : String → String} {ok : State → ℕ × Action → Prop} {s : State}
    (h : Reach (step lower) ok .init s) {i : ℕ} {a : Action} {w : Writer} {u : UnitOfWork}
    (hcom : committed lower s.shared (s.locals i) a = some (w, u)) (hw : w.isApi = false) :
    ∃ dirty events, u = .updateDeployments dirty events := by
  have hheld : s.Holds fun _ w u => w.isApi = false → ∃ dirty events,
      u = .updateDeployments dirty events :=
    reach_holds (K := fun w u => w.isApi = false → ∃ dirty events,
        u = .updateDeployments dirty events) h (fun d _ => ⟨_, _, rfl⟩)
      fun _ _ _ _ _ _ _ hreads hapi => hreads.staged.updateDeployments hapi
  rcases hheld.committed hcom with hu | hreads
  · exact hu hw
  · exact hreads.staged.updateDeployments hw

/-- A step that writes nothing leaves the database as it was. -/
theorem shared_of_writes_eq_none {s s' : Server} {p : ℕ × ServerAction}
    (hs : serve env s p = some s') (h : writes env s p = none) :
    s'.platform.shared = s.platform.shared := by
  rcases serve_cases hs with ⟨a, ha, hstep, -⟩ | ⟨-, hplatform, -⟩
  · simp only [writes, ha] at h
    exact shared_of_written_eq_none hstep h
  · rw [hplatform]

/-- A step adds a model or a version if it responds with 201, and a deployment if with 202. -/
theorem added_of_serve {ok : Server → ℕ × ServerAction → Prop} {s s' : Server}
    {p : ℕ × ServerAction} (hr : Reach (serve env) ok .init s) (hs : serve env s p = some s') :
    s'.platform.shared.models.rows.length + s'.platform.shared.versions.rows.length =
        s.platform.shared.models.rows.length + s.platform.shared.versions.rows.length +
          (if responds env (fun r => r.status = 201) (s, p) then 1 else 0) ∧
      s'.platform.shared.deployments.rows.length = s.platform.shared.deployments.rows.length +
        (if responds env (fun r => r.status = 202) (s, p) then 1 else 0) := by
  -- A step without a write of the API gives neither status.
  have hidle : (∀ call u, writes env s p ≠ some (.api call, u)) →
      responds env (fun r => r.status = 201) (s, p) = false ∧
        responds env (fun r => r.status = 202) (s, p) = false := by
    intro hnot
    unfold responds
    cases hresp : respond env s p with
    | none => exact ⟨rfl, rfl⟩
    | some resp =>
      rcases respond_cases hs hresp with ⟨call, u, hw, -⟩ | ⟨-, -, hstatus⟩
      · exact absurd hw (hnot call u)
      · constructor <;> simp only [Option.any_some, decide_eq_false_iff_not] <;> omega
  cases hw : writes env s p with
  | none =>
    obtain ⟨h201, h202⟩ := hidle (by simp [hw])
    rw [shared_of_writes_eq_none hs hw, h201, h202]
    exact ⟨rfl, rfl⟩
  | some x =>
    obtain ⟨w, u⟩ := x
    rcases serve_cases hs with ⟨a, ha, hstep, -⟩ | ⟨hnone, -⟩
    · have hwritten : written env.lower s.platform (p.1, a) = some (w, u) := by
        simpa only [writes, ha] using hw
      obtain ⟨hcom, hcons⟩ := written_eq_some.mp hwritten
      have hplatform := platform_of_reach hr
      rw [shared_of_written hstep hwritten]
      cases w with
      | api call =>
        obtain ⟨db₀, hreturns⟩ := returns_of_reach hplatform hcom
        obtain ⟨-, hregistry, hdeployments⟩ := added_of_returns hreturns hcons
        simp only [responds, respond_of_writes hw, Option.any_some, decide_eq_true_eq]
        exact ⟨hregistry, hdeployments⟩
      | _ =>
        obtain ⟨h201, h202⟩ := hidle (by simp [hw])
        obtain ⟨dirty, events, rfl⟩ := updates_of_reach hplatform hcom rfl
        rw [h201, h202]
        simp [Db.write, Table.mapRows]
    · simp [writes, hnone] at hw

/-! ## Whole runs -/

/-- What the statuses of a run tell where the responses end at the commit. One with an error comes
from a step that has left the database as it was; the API has written as often as it has returned a
written row; and there is a model or a version for every 201, and a deployment for every 202. -/
theorem responds_account {ok : Server → ℕ × ServerAction → Prop}
    {steps : List (Server × (ℕ × ServerAction))} {s : Server}
    (h : Trace (serve env) ok .init steps s) :
    (∀ x ∈ steps, responds env (fun r => 400 ≤ r.status) x = true →
      ∃ s', serve env x.1 x.2 = some s' ∧ s'.platform.shared = x.1.platform.shared) ∧
      steps.countP (apiWrites env) = steps.countP (responds env Response.returnsWritten) ∧
      s.platform.shared.models.rows.length + s.platform.shared.versions.rows.length =
        steps.countP (responds env fun r => r.status = 201) ∧
      s.platform.shared.deployments.rows.length =
        steps.countP (responds env fun r => r.status = 202) := by
  refine ⟨?_, ?_, ?_, ?_⟩
  · rintro ⟨s₁, p⟩ hx herror
    obtain ⟨hr, -, s', hs, -⟩ := h.of_mem hx
    refine ⟨s', hs, ?_⟩
    obtain ⟨resp, hresp, hstatus⟩ := (Option.any_eq_true _ _).mp herror
    rcases respond_cases hs hresp with ⟨call, u, hw, rfl⟩ | ⟨hnone, -⟩
    · -- A call that has written does not answer with an error.
      rcases serve_cases hs with ⟨a, ha, -, -⟩ | ⟨hisolated, -⟩
      · simp only [writes, ha] at hw
        obtain ⟨hcom, hcons⟩ := written_eq_some.mp hw
        obtain ⟨db₀, hreturns⟩ := returns_of_reach (platform_of_reach hr) hcom
        have hlt := (added_of_returns hreturns hcons).1
        have hle := of_decide_eq_true hstatus
        omega
      · simp [writes, hisolated] at hw
    · exact shared_of_writes_eq_none hs hnone
  · apply List.countP_congr
    rintro ⟨s₁, p⟩ hx
    obtain ⟨-, -, s', hs, -⟩ := h.of_mem hx
    exact apiWrites_iff hs
  · exact h.countP_eq
      (f := fun s => s.platform.shared.models.rows.length + s.platform.shared.versions.rows.length)
      rfl fun s₁ p s₂ hr _ hs => (added_of_serve hr hs).1
  · exact h.countP_eq (f := fun s => s.platform.shared.deployments.rows.length) rfl
      fun s₁ p s₂ hr _ hs => (added_of_serve hr hs).2

/-! ## What is stored fits -/

/-- A row that is updated with values that fit still fits. -/
theorem fits_onDeployment {db : Db} {u : UnitOfWork} (hrows : u.rowsFit db = true) {d : Deployment}
    (hd : d.fits = true) : (u.onDeployment d).fits = true := by
  rcases u.onDeployment_cases d with heq | ⟨dirty, events, x, rfl, hx, -, heq⟩
  · rw [heq]
    exact hd
  · have hassigned := List.all_eq_true.mp hrows x hx
    rw [heq]
    simp only [Deployment.fits, Bool.and_eq_true] at hd hassigned ⊢
    obtain ⟨⟨⟨⟨⟨henvironment, -⟩, hkey⟩, hworker⟩, herror⟩, hcorrelation⟩ := hd
    -- A column holds what was stored, or what was assigned.
    refine ⟨⟨⟨⟨⟨henvironment, DeploymentStatus.fitsColumn_value _⟩, hkey⟩, ?_⟩, ?_⟩, hcorrelation⟩
    · rcases flushColumn_cases x.loaded.workerId x.assigned.workerId d.workerId with
        ⟨-, hs⟩ | ⟨-, hs⟩
      · exact (congrArg _ hs).trans hworker
      · exact (congrArg _ hs).trans hassigned.1.2
    · rcases flushColumn_cases x.loaded.error x.assigned.error d.error with ⟨-, hs⟩ | ⟨-, hs⟩
      · exact (congrArg _ hs).trans herror
      · exact (congrArg _ hs).trans hassigned.2

/-- Where all that is written fits, so do the deployments that are stored. -/
theorem fits_of_reach {s : Server} (h : Reach (serve env) (Fits env true) .init s) :
    ∀ d ∈ s.platform.shared.deployments, d.fits = true := by
  refine h.invariant (I := fun s => ∀ d ∈ s.platform.shared.deployments, d.fits = true)
    (fun d hd => absurd hd (List.not_mem_nil (a := d))) ?_
  intro s p s' _ hstored hfits hs d hd
  cases hw : writes env s p with
  | none =>
    rw [shared_of_writes_eq_none hs hw] at hd
    exact hstored d hd
  | some x =>
    obtain ⟨hrows, -⟩ := hfits rfl x hw
    have hshared : s'.platform.shared = s.platform.shared.write x.2 := by
      rcases serve_cases hs with ⟨a, ha, hstep, -⟩ | ⟨hnone, -⟩
      · simp only [writes, ha] at hw
        exact shared_of_written hstep hw
      · simp [writes, hnone] at hw
    rw [hshared] at hd
    rcases Db.mem_deployments_write hd with ⟨e, he, rfl⟩ | ⟨deployment, event, hu, rfl⟩
    · exact fits_onDeployment hrows (hstored e he)
    · rw [hu] at hrows
      exact hrows

/-! ## Up to the response -/

section

variable {E : Type} {postgresql : Bool}

/-- Where a write fits, the constraints decide about it. -/
theorem commitOn_of_fits {db : Db} {u : UnitOfWork}
    (hfits : postgresql = true → u.rowsFit db = true ∧ u.eventsFit db = true) :
    commitOn postgresql db u =
      if (db.write u).Constraints then .ok (db.write u) else .error .integrityError := by
  unfold commitOn
  cases postgresql with
  | false => by_cases hcons : (db.write u).Constraints <;> simp [Db.commit, hcons]
  | true =>
    obtain ⟨hrows, hevents⟩ := hfits rfl
    by_cases hcons : (db.write u).Constraints <;>
      simp [Db.commitStrict, Db.commit, hrows, hevents, hcons]

/-- Where a write fits and the signal goes through, the response is that of the call. -/
theorem commitResponse_of_fits {signal : Signal E} {db : Db} {call : Call} {u : UnitOfWork}
    (hfits : postgresql = true → u.rowsFit db = true ∧ u.eventsFit db = true)
    (hsignal : postgresql = true → signal.Delivered) :
    commitResponse postgresql signal db call u = respondTo call (call.commitAnswer db u) := by
  unfold commitResponse
  rw [commitOn_of_fits hfits, notify_eq_ok.mpr hsignal, ite_self]
  by_cases hcons : (db.write u).Constraints
  · rw [if_pos hcons]
  · have hnone : db.commit u = none := by simp [Db.commit, hcons]
    rw [if_neg hcons]
    simp only [Call.commitAnswer, hnone]

/-- The API writes in the steps in which a session commits what it has staged. -/
theorem staged_of_writes {s : Server} {i : ℕ} {a : ServerAction} {call : Call} {u : UnitOfWork}
    (h : writes env s (i, a) = some (.api call, u)) :
    s.platform.locals i = .api call u ∧ a = .proceed .commit := by
  have hplanned : ∀ {l : Session} {b : Action}, makesCall b = false →
      committed env.lower s.platform.shared l b = some (.api call, u) →
        l = .api call u ∧ b = .commit := by
    intro l b hmakes hcom
    unfold committed at hcom
    split at hcom
    · rename_i w v after hp
      obtain ⟨rfl, rfl⟩ := Prod.mk.inj (Option.some.inj hcom)
      cases planned hp with
      | call hu => exact absurd hmakes (by simp [makesCall])
      | commitCall => exact ⟨rfl, rfl⟩
    · exact absurd hcom (by simp)
  cases a with
  | login username password now => simp [writes, ServerAction.onPlatform] at h
  | request r =>
    -- The reads of a request write nothing.
    cases hg : r.guard env with
    | error e => simp [writes, ServerAction.onPlatform, hg] at h
    | ok v =>
      have hwritten :
          written env.lower s.platform (i, .start (r.call v)) = some (.api call, u) := by
        simpa [writes, ServerAction.onPlatform, hg] using h
      rw [written, committed_of_splits (.start (r.call v))] at hwritten
      exact absurd hwritten (by simp)
  | proceed b =>
    cases hmakes : makesCall b with
    | true => simp [writes, ServerAction.onPlatform, hmakes] at h
    | false =>
      have hwritten : written env.lower s.platform (i, b) = some (.api call, u) := by
        simpa [writes, ServerAction.onPlatform, hmakes] using h
      obtain ⟨hl, rfl⟩ := hplanned hmakes (written_eq_some.mp hwritten).1
      exact ⟨hl, rfl⟩

/-- What a step of the API writes was returned by its call, and the constraints accept it. -/
theorem returns_of_writes {ok : Server → ℕ × ServerAction → Prop} {s : Server}
    (hr : Reach (serve env) ok .init s) {p : ℕ × ServerAction} {call : Call} {u : UnitOfWork}
    (h : writes env s p = some (.api call, u)) :
    (∃ db, call.Returns env.lower db u) ∧ (s.platform.shared.write u).Constraints := by
  cases ha : p.2.onPlatform env with
  | none => simp [writes, ha] at h
  | some a =>
    simp only [writes, ha] at h
    obtain ⟨hcom, hcons⟩ := written_eq_some.mp h
    exact ⟨returns_of_reach (platform_of_reach hr) hcom, hcons⟩

/-- A call whose write fits is answered with what it returns, or with the error of its signal. -/
theorem reply_of_writes {s : Server} {p : ℕ × ServerAction} {call : Call} {u : UnitOfWork}
    (h : writes env s p = some (.api call, u)) (hcons : (s.platform.shared.write u).Constraints)
    (hfits : Fits env postgresql s p) (signal : Signal E) :
    reply env postgresql signal s p =
      if call.enqueues && !(notify postgresql signal).isOk then some internalServerError
      else respond env s p := by
  obtain ⟨i, a⟩ := p
  have hresponse := respond_of_writes h
  obtain ⟨hl, rfl⟩ := staged_of_writes h
  have hcommit : commitOn postgresql s.platform.shared u = .ok (s.platform.shared.write u) := by
    rw [commitOn_of_fits fun hp => hfits hp _ h, if_pos hcons]
  have hreply : reply env postgresql signal s (i, .proceed .commit) =
      some (commitResponse postgresql signal s.platform.shared call u) := by
    simp only [reply, hl]
  rw [hreply, hresponse]
  unfold commitResponse
  rw [hcommit]
  cases henqueues : call.enqueues with
  | false => rfl
  | true =>
    cases hnotify : notify postgresql signal with
    | ok _ => simp [Except.isOk, Except.toBool]
    | error e => simp [Except.isOk, Except.toBool]

/-- A step in which the API writes nothing gives the response of its call, but for a `DataError` in
place of another error. -/
theorem reply_of_not_writes {s s' : Server} {p : ℕ × ServerAction} (hs : serve env s p = some s')
    (h : ∀ call u, writes env s p ≠ some (.api call, u)) (signal : Signal E) :
    reply env postgresql signal s p = respond env s p ∨
      (reply env postgresql signal s p = some internalServerError ∧
        ∃ resp, respond env s p = some resp ∧ resp.returnsWritten = false ∧ 400 ≤ resp.status) := by
  obtain ⟨i, a⟩ := p
  by_cases hcommit : ∃ call u, s.platform.locals i = .api call u ∧ a = .proceed .commit
  · obtain ⟨call, u, hl, rfl⟩ := hcommit
    have hcons : ¬(s.platform.shared.write u).Constraints := by
      intro hcons
      refine h call u ?_
      have hcom : committed env.lower s.platform.shared (s.platform.locals i) .commit =
          some (.api call, u) := by
        rw [hl]
        rfl
      exact written_eq_some.mpr ⟨hcom, hcons⟩
    have hnone : s.platform.shared.commit u = none := by simp [Db.commit, hcons]
    have hresponse : respond env s (i, .proceed .commit) =
        some (respondTo call (call.rejected u)) := by
      simp [respond, calling, answer, hl, Call.commitAnswer, hnone]
    have hreply : reply env postgresql signal s (i, .proceed .commit) =
        some (commitResponse postgresql signal s.platform.shared call u) := by
      simp only [reply, hl]
    have herror : commitOn postgresql s.platform.shared u = .error .integrityError ∨
        commitOn postgresql s.platform.shared u = .error .dataError := by
      cases postgresql with
      | false => exact Or.inl (by simp [commitOn, hnone])
      | true =>
        cases hrows : u.rowsFit s.platform.shared with
        | false => exact Or.inr (by simp [commitOn, Db.commitStrict, hrows])
        | true => exact Or.inl (by simp [commitOn, Db.commitStrict, hrows, hnone])
    rw [hreply, hresponse]
    unfold commitResponse
    rcases herror with herror | herror
    · rw [herror]
      exact Or.inl rfl
    · rw [herror]
      exact Or.inr ⟨rfl, _, rfl, respondTo_rejected call u⟩
  · refine Or.inl ?_
    unfold reply
    split
    · rename_i call u hl ha
      exact absurd ⟨call, u, hl, ha⟩ hcommit
    · rfl

/-- The call that enqueues a deployment returns it with 202, or with 200. -/
theorem status_of_enqueues {lower : String → String} {db₀ db : Db} {call : Call} {u : UnitOfWork}
    (h : call.Returns lower db₀ u) (hcons : (db.write u).Constraints)
    (henqueues : call.enqueues = true) :
    (respondTo call (call.commitAnswer db u)).status =
        (if requesting (.api call) then 202 else 200) ∧
      (respondTo call (call.commitAnswer db u)).returnsWritten = true := by
  have hcommit : db.commit u = some (db.write u) := Db.commit_eq_some.mpr ⟨hcons, rfl⟩
  simp only [Call.commitAnswer, hcommit]
  cases call with
  | requestDeployment actorId correlationId data =>
    obtain ⟨v, deployment, event, -, -, -, rfl, -⟩ := requestDeployment_eq_staged h
    exact ⟨rfl, rfl⟩
  | retryDeployment actorId deploymentId =>
    obtain ⟨d, -, -, rfl⟩ := retryDeployment_eq_ok.mp h
    exact ⟨rfl, rfl⟩
  | _ => exact absurd henqueues (by simp [Call.enqueues])

variable (signal : Server × (ℕ × ServerAction) → Signal E)

/-- What becomes of a step's signal. If it is lost, the client receives a 500 in place of the row
that the call has written. Otherwise it receives the response of the call, up to the kind of
error. -/
theorem reply_cases {ok : Server → ℕ × ServerAction → Prop} {s s' : Server} {p : ℕ × ServerAction}
    (hr : Reach (serve env) ok .init s) (hs : serve env s p = some s')
    (hfits : Fits env postgresql s p) :
    (lost env postgresql signal (s, p) = true ∧
        reply env postgresql (signal (s, p)) s p = some internalServerError ∧
        ∃ resp, respond env s p = some resp ∧ resp.returnsWritten = true ∧
          resp.status = if writesRequest env (s, p) then 202 else 200) ∨
      (lost env postgresql signal (s, p) = false ∧
        (reply env postgresql (signal (s, p)) s p = respond env s p ∨
          (reply env postgresql (signal (s, p)) s p = some internalServerError ∧
            ∃ resp, respond env s p = some resp ∧ resp.returnsWritten = false ∧
              400 ≤ resp.status))) := by
  by_cases hw : ∃ call u, writes env s p = some (.api call, u)
  · obtain ⟨call, u, hw⟩ := hw
    obtain ⟨⟨db₀, hreturns⟩, hcons⟩ := returns_of_writes hr hw
    have hreply := reply_of_writes hw hcons hfits (signal (s, p))
    have hlost : lost env postgresql signal (s, p) =
        (call.enqueues && !(notify postgresql (signal (s, p))).isOk) := by
      simp only [lost, hw, Option.any_some]
      rfl
    cases hl : lost env postgresql signal (s, p) with
    | false =>
      rw [← hlost, hl] at hreply
      exact Or.inr ⟨rfl, Or.inl hreply⟩
    | true =>
      rw [← hlost, hl] at hreply
      have henqueues : call.enqueues = true := by
        rw [hlost, Bool.and_eq_true] at hl
        exact hl.1
      obtain ⟨hstatus, hwritten⟩ := status_of_enqueues hreturns hcons henqueues
      refine Or.inl ⟨rfl, hreply, _, respond_of_writes hw, hwritten, ?_⟩
      rw [hstatus, writesRequest, hw]
      rfl
  · simp only [not_exists] at hw
    refine Or.inr ⟨?_, reply_of_not_writes hs hw (signal (s, p))⟩
    rw [lost]
    cases hx : writes env s p with
    | none => rfl
    | some x =>
      obtain ⟨w, u⟩ := x
      cases w with
      | api call => exact absurd hx (hw call u)
      | worker => rfl
      | reaper => rfl

/-- A test that does not tell errors apart counts what the client receives, and what was lost. -/
theorem replies_split {ok : Server → ℕ × ServerAction → Prop} {s s' : Server}
    {p : ℕ × ServerAction} (hr : Reach (serve env) ok .init s) (hs : serve env s p = some s')
    (hfits : Fits env postgresql s p) {test : Response → Bool}
    (herror : ∀ r : Response, r.returnsWritten = false → 400 ≤ r.status → test r = false)
    {accounted : Server × (ℕ × ServerAction) → Bool}
    (haccounted : ∀ resp, respond env s p = some resp → resp.returnsWritten = true →
      resp.status = (if writesRequest env (s, p) then 202 else 200) →
        test resp = accounted (s, p)) :
    (if responds env test (s, p) then 1 else 0) =
      (if replies env postgresql signal test (s, p) then 1 else 0) +
        if lost env postgresql signal (s, p) && accounted (s, p) then 1 else 0 := by
  have hinternal : test internalServerError = false := herror _ rfl (by decide)
  rcases reply_cases signal hr hs hfits with
    ⟨hlost, hreply, resp, hresp, hwritten, hstatus⟩ |
      ⟨hlost, hreply | ⟨hreply, resp, hresp, hnot, hstatus⟩⟩
  · simp [responds, replies, hlost, hreply, hresp, hinternal,
      haccounted resp hresp hwritten hstatus]
  · have hsame : replies env postgresql signal test (s, p) = responds env test (s, p) := by
      rw [replies, hreply, responds]
    simp [hsame, hlost]
  · simp [responds, replies, hlost, hreply, hresp, hinternal, herror resp hnot hstatus]

end

/-- The account of a run. -/
structure Account {E : Type} (env : Env) (postgresql : Bool)
    (signal : Server × (ℕ × ServerAction) → Signal E)
    (steps : List (Server × (ℕ × ServerAction))) (s : Server) : Prop where
  /-- An error comes from a step that has left the database as it was, unless it is that of a lost
  signal. -/
  error : ∀ x ∈ steps, replies env postgresql signal (fun r => 400 ≤ r.status) x = true →
    lost env postgresql signal x = false →
      ∃ s', serve env x.1 x.2 = some s' ∧ s'.platform.shared = x.1.platform.shared
  /-- A lost signal is answered with a 500. -/
  internal : ∀ x ∈ steps, lost env postgresql signal x = true →
    reply env postgresql (signal x) x.1 x.2 = some internalServerError
  /-- The API has written as often as it has returned a written row or lost a signal. -/
  writes : steps.countP (apiWrites env) =
    steps.countP (replies env postgresql signal Response.returnsWritten) +
      steps.countP (lost env postgresql signal)
  /-- There is a model or a version for every 201. -/
  registry : s.platform.shared.models.rows.length + s.platform.shared.versions.rows.length =
    steps.countP (replies env postgresql signal fun r => r.status = 201)
  /-- There is a deployment for every 202, and for every request whose signal was lost. -/
  deployments : s.platform.shared.deployments.rows.length =
    steps.countP (replies env postgresql signal fun r => r.status = 202) +
      steps.countP fun x => lost env postgresql signal x && writesRequest env x

/-- What the statuses of a run tell, on SQLite and on PostgreSQL, if all that is written fits its
columns, whatever becomes of the signals. -/
theorem statuses_account {E : Type} {postgresql : Bool}
    {signal : Server × (ℕ × ServerAction) → Signal E}
    {steps : List (Server × (ℕ × ServerAction))} {s : Server}
    (h : Trace (serve env) (Fits env postgresql) .init steps s) :
    Account env postgresql signal steps s := by
  obtain ⟨herror, hwrites, hregistry, hdeployments⟩ := responds_account h
  have hstep : ∀ {test : Response → Bool} (accounted : Server × (ℕ × ServerAction) → Bool),
      (∀ r : Response, r.returnsWritten = false → 400 ≤ r.status → test r = false) →
      (∀ x ∈ steps, ∀ resp, respond env x.1 x.2 = some resp → resp.returnsWritten = true →
        resp.status = (if writesRequest env x then 202 else 200) → test resp = accounted x) →
      steps.countP (responds env test) = steps.countP (replies env postgresql signal test) +
        steps.countP fun x => lost env postgresql signal x && accounted x := by
    intro test accounted htest haccounted
    apply countP_eq_add
    rintro ⟨s₁, p⟩ hx
    obtain ⟨hr, hfits, s', hs, -⟩ := h.of_mem hx
    exact replies_split signal hr hs hfits htest (haccounted _ hx)
  refine ⟨?_, ?_, ?_, ?_, ?_⟩
  · rintro ⟨s₁, p⟩ hx hstatus hkept
    obtain ⟨hr, hfits, s', hs, -⟩ := h.of_mem hx
    refine herror _ hx ?_
    rcases reply_cases signal hr hs hfits with
      ⟨hlost, -⟩ | ⟨-, hreply | ⟨hreply, resp, hresp, -, hresponse⟩⟩
    · exact absurd (hkept.symm.trans hlost) Bool.false_ne_true
    · rwa [replies, hreply] at hstatus
    · rw [responds, hresp]
      exact decide_eq_true hresponse
  · rintro ⟨s₁, p⟩ hx hlost
    obtain ⟨hr, hfits, s', hs, -⟩ := h.of_mem hx
    rcases reply_cases signal hr hs hfits with ⟨-, hreply, -⟩ | ⟨hkept, -⟩
    · exact hreply
    · exact absurd (hkept.symm.trans hlost) Bool.false_ne_true
  · rw [hwrites, hstep (fun _ => true) (fun r hr _ => hr)
      fun x _ resp _ hwritten _ => hwritten]
    simp only [Bool.and_true]
  · rw [hregistry, hstep (fun _ => false) ?_ ?_]
    · simp
    · intro r _ hstatus
      exact decide_eq_false (by omega)
    · intro x _ resp _ _ hstatus
      rw [hstatus]
      split_ifs <;> decide
  · rw [hdeployments, hstep (writesRequest env) ?_ ?_]
    · intro r _ hstatus
      exact decide_eq_false (by omega)
    · intro x _ resp _ _ hstatus
      rw [hstatus]
      cases writesRequest env x <;> decide

/-- A viewer may not register a model, a version is registered twice, and a deployment is requested
twice under one key. -/
def refusedRun : List (ℕ × ServerAction) :=
  demoLogins ++
    post "viewer" pumpRequest ++
    post "engineer" pumpRequest ++
    post "engineer" (.createVersion 1 { version := "1.0", artifactUri := "s3://pump/1" }) ++
    post "engineer" (.createVersion 1 { version := "1.0", artifactUri := "s3://pump/2" }) ++
    post "approver" (.promoteVersion 1 1 .validated) ++
    post "engineer" (.requestDeployment ⟨1, .development, some "k", false⟩) ++
    post "engineer" (.requestDeployment ⟨1, .development, some "k", false⟩)

/-- The first signal is lost: `NOTIFY` raises. -/
def firstSignalLost (x : Server × (ℕ × ServerAction)) : Signal Unit :=
  if x.1.platform.shared.deployments.rows = [] then ⟨.error (), .ok ()⟩ else ⟨.ok (), .ok ()⟩

/-- The account of `refusedRun` on PostgreSQL: two rows of the registry; and the deployment was
answered with a 500 at first, and with a 200 when the request came again. -/
theorem statuses_account_refusedRun :
    ∃ steps s, Trace (serve demoEnv) (Fits demoEnv true) .init steps s ∧
      Account demoEnv true firstSignalLost steps s ∧
      s.platform.shared.models.rows.length + s.platform.shared.versions.rows.length = 2 ∧
      s.platform.shared.deployments.rows.length = 1 ∧
      steps.countP (lost demoEnv true firstSignalLost) = 1 ∧
      steps.countP (apiWrites demoEnv) = 4 := by
  have htrace := exec_trace (serve demoEnv) (Fits demoEnv true) .init refusedRun
  have haccount : Account demoEnv true firstSignalLost _ _ := statuses_account htrace
  exact ⟨_, _, htrace, haccount, by decide +kernel, by decide +kernel, by decide +kernel,
    by decide +kernel⟩

end MlopsPlatform.Api
