import MlopsPlatform.Api.Authorization
import MlopsPlatform.Api.Statuses
import MlopsPlatform.Console.AuthService
import MlopsPlatform.Queue.Retries
import MlopsPlatform.Registry.Governance
import MlopsPlatform.Rollback.CompletionOrder
import MlopsPlatform.Worker.Runner

/-!
# What the console offers

The console decides from the role of its user and from a row which buttons it shows: `hasRole` of
`core/auth.service.ts`, `PROMOTE_TARGETS` of `core/registry.models.ts`, `DEPLOYABLE_STAGES` and the
guards of `features/models/model-detail.ts`, and those of the drawer in
`features/deployments/deployment-list.html`. The tables of the API are written down a second time
there. `offers_of_reach` compares the two: in every state that the server reaches, a request that a
session serves with nothing in between succeeds if it is offered, and not otherwise. The console
does not know of three things: whether a deployment is in flight, which deployment a rollback would
fall back to, and to which environments the stage of a version may deploy. It leaves the
transition to APPROVED to the approval. On PostgreSQL a request also fails if its tracing header is
longer than the column for it, or if `notify` raises after the commit; `Unhindered` says that
neither is so.
-/

namespace MlopsPlatform.Console

open Transition Api

/-! ## The pages -/

/-- `PROMOTE_TARGETS`. -/
def promoteTargets (version : ModelVersion) : List LifecycleStage :=
  match version.stage with
  | .draft => [.validated, .archived]
  | .validated => [.archived]
  | .approved => [.staging, .archived]
  | .staging => [.production, .archived]
  | .production => [.archived]
  | .archived => []

/-- `DEPLOYABLE_STAGES`. -/
def deployableStages : List LifecycleStage := [.validated, .approved, .staging, .production]

section

variable (user : Option Profile)

/-- `canApprove`. -/
def canApprove : Bool := hasRole user [.approver]

/-- `canDeploy`. -/
def canDeploy : Bool := hasRole user [.engineer]

/-- `canRollback`. -/
def canRollback : Bool := hasRole user [.admin]

/-- The page shows the button that approves a version. -/
def canApproveVersion (version : ModelVersion) : Bool :=
  canApprove user && version.stage = .validated

/-- The menu of a version has a stage to promote it to. -/
def canPromoteVersion (version : ModelVersion) (target : LifecycleStage) : Bool :=
  canApprove user && target ∈ promoteTargets version

/-- The page shows the button that deploys a version. -/
def canDeployVersion (version : ModelVersion) : Bool :=
  canDeploy user && version.stage ∈ deployableStages

/-- The drawer shows the button that retries a deployment. -/
def canRetryDeployment (deployment : Deployment) : Bool :=
  canDeploy user && deployment.status = .failed

/-- The drawer shows the button that rolls a deployment back. -/
def canRollbackDeployment (deployment : Deployment) : Bool :=
  canRollback user && deployment.status = .succeeded

end

/-- The console deploys a version if some environment takes its stage. -/
theorem mem_deployableStages_iff (version : ModelVersion) :
    version.stage ∈ deployableStages ↔
      ∃ environment, isDeployable version.stage environment = true := by
  constructor
  · intro h
    exact ⟨.development, decide_eq_true h⟩
  · rintro ⟨environment, h⟩
    cases environment <;> cases hs : version.stage <;> rw [hs] at h <;> revert h <;> decide

/-- The targets of the console are the transitions of the API, less the approval. -/
theorem mem_promoteTargets_iff {version : ModelVersion} {target : LifecycleStage}
    (h : target ≠ .approved) :
    target ∈ promoteTargets version ↔ canTransition version.stage target = true := by
  unfold promoteTargets canTransition
  cases version.stage <;> cases target <;> first | exact absurd rfl h | decide

/-! ## A request with nothing in between -/

/-- The response to a request that a session serves with nothing in between: to its reads, or to
its commit and what follows that. -/
def exchange {E : Type} (env : Env) (postgresql : Bool) (signal : Signal E) (s : Server) (i : ℕ)
    (r : HttpRequest) : Option Response :=
  match reply env postgresql signal s (i, .request r) with
  | some response => some response
  | none => (serve env s (i, .request r)).bind fun s' =>
    reply env postgresql signal s' (i, .proceed .commit)

/-- The request succeeds. -/
def Succeeds {E : Type} (env : Env) (postgresql : Bool) (signal : Signal E) (s : Server) (i : ℕ)
    (r : HttpRequest) : Prop :=
  ∃ response, exchange env postgresql signal s i r = some response ∧ response.status < 400

/-- On PostgreSQL, the header of the request fits its column and the signal goes through. -/
structure Unhindered {E : Type} (postgresql : Bool) (signal : Signal E)
    (header : Option String) : Prop where
  header : postgresql = true → HeaderFits header
  signal : postgresql = true → signal.Delivered

section

variable {E : Type} {env : Env} {postgresql : Bool} {signal : Signal E} {s : Server} {i : ℕ}
variable {r : HttpRequest} {user : User}

/-- The reads of a request are answered as they are. -/
theorem reply_request : reply env postgresql signal s (i, .request r) =
    respond env s (i, .request r) := by
  unfold reply
  split
  · rename_i hrequest
    exact absurd hrequest (by simp)
  · rfl

/-- A request that its guard lets through, and whose call stages a unit of work, is answered at the
commit. -/
theorem exchange_of_staged (hi : s.platform.locals i = .idle) (hguard : r.guard env = .ok user)
    {u : UnitOfWork} (hu : (r.call user).stage env.lower s.platform.shared = .ok (some u))
    (hfits : postgresql = true →
      u.rowsFit s.platform.shared = true ∧ u.eventsFit s.platform.shared = true)
    (hsignal : postgresql = true → signal.Delivered) :
    exchange env postgresql signal s i r =
      some (respondTo (r.call user) ((r.call user).commitAnswer s.platform.shared u)) := by
  have hreads : respond env s (i, .request r) = none := by
    simp [respond, hguard, answer, hi, Call.readAnswer_of_stage hu]
  have hserve : serve env s (i, .request r) = some { s with platform :=
      ⟨s.platform.shared, Function.update s.platform.locals i (.api (r.call user) u)⟩ } := by
    simp [serve, ServerAction.onPlatform, hguard, step, stepWith, Config.step, act, plan, hi, hu]
  unfold exchange
  rw [reply_request, hreads, hserve]
  simp [reply, commitResponse_of_fits hfits hsignal]

/-- A call that raises at its reads answers there. -/
theorem readAnswer_of_error {lower : String → String} {db : Db} {call : Call} {e : DomainError}
    (h : call.stage lower db = .error e) : call.readAnswer lower db = some (.raised e) := by
  cases call with
  | requestDeployment actorId correlationId data =>
    simp only [Call.stage] at h
    simp only [Call.readAnswer]
    cases hr : requestDeployment db actorId correlationId data with
    | error e' =>
      rw [hr] at h
      obtain rfl := Except.error.inj h
      rfl
    | ok outcome =>
      rw [hr] at h
      exact absurd h (by simp [Except.map])
  | _ => simp only [Call.readAnswer, h]

/-- A request whose write fits, and whose signal goes through, succeeds if its guard lets it
through, its call stages a unit of work, and the constraints accept that. -/
theorem succeeds_iff (hi : s.platform.locals i = .idle)
    (huser : getCurrentUser env.crypto env.settings env.users r.now r.credentials = .ok user)
    (hnew : (r.call user).stage env.lower s.platform.shared ≠ .ok none)
    (hfits : postgresql = true → ∀ u, (r.call user).Returns env.lower s.platform.shared u →
      u.rowsFit s.platform.shared = true ∧ u.eventsFit s.platform.shared = true)
    (hsignal : postgresql = true → signal.Delivered) :
    Succeeds env postgresql signal s i r ↔ user.role ∈ allowedSet r.request.roles ∧
      ∃ u, (r.call user).Returns env.lower s.platform.shared u ∧
        (s.platform.shared.write u).Constraints := by
  have hrefused : ∀ response, exchange env postgresql signal s i r = some response →
      400 ≤ response.status → ¬Succeeds env postgresql signal s i r := by
    rintro response hresponse hstatus ⟨response', hresponse', hlt⟩
    obtain rfl := Option.some.inj (hresponse.symm.trans hresponse')
    exact absurd hlt (Nat.not_lt.mpr hstatus)
  by_cases hrole : user.role ∈ allowedSet r.request.roles
  · have hguard : r.guard env = .ok user := guardRoles_eq_ok.mpr ⟨huser, hrole⟩
    cases hstage : (r.call user).stage env.lower s.platform.shared with
    | error e =>
      -- The reads raise, and their error is the response.
      have hresponse : exchange env postgresql signal s i r = some (domainErrorHandler e) := by
        simp [exchange, reply_request, respond, hguard, answer, hi, readAnswer_of_error hstage,
          respondTo]
      refine iff_of_false (hrefused _ hresponse ?_) ?_
      · cases e <;> simp [domainErrorHandler, domainErrorStatus]
      · rintro ⟨-, u, hreturns, -⟩
        rw [hreturns.stage] at hstage
        exact absurd hstage (by simp)
    | ok staged =>
      cases staged with
      | none => exact absurd hstage hnew
      | some u =>
        have hreturns : (r.call user).Returns env.lower s.platform.shared u :=
          Call.stage_eq_ok hstage
        have hresponse := exchange_of_staged hi hguard hstage (fun hp => hfits hp u hreturns)
          hsignal
        by_cases hcons : (s.platform.shared.write u).Constraints
        · exact iff_of_true ⟨_, hresponse, (added_of_returns hreturns hcons).1⟩
            ⟨hrole, u, hreturns, hcons⟩
        · have hnone : s.platform.shared.commit u = none := by simp [Db.commit, hcons]
          simp only [Call.commitAnswer, hnone] at hresponse
          refine iff_of_false (hrefused _ hresponse (respondTo_rejected _ u).2) ?_
          rintro ⟨-, u', hreturns', hcons'⟩
          obtain rfl : u = u' := by
            have hsame := hstage.symm.trans hreturns'.stage
            exact Option.some.inj (Except.ok.inj hsame)
          exact hcons hcons'
  · -- The guard raises a 403.
    have hguard : r.guard env =
        .error { status := 403, detail := roleError r.request.roles user.role } := by
      unfold HttpRequest.guard guardRoles
      rw [huser]
      exact if_pos hrole
    have hresponse : exchange env postgresql signal s i r =
        some ⟨403, .detail (roleError r.request.roles user.role)⟩ := by
      simp [exchange, reply_request, respond, hguard, HttpException.response]
    exact iff_of_false (hrefused _ hresponse (by simp)) fun h => hrole h.1

end

/-! ## What is offered and what is accepted -/

/-- A deployment of the version's model is in flight in the environment. -/
def Occupied (db : Db) (version : ModelVersion) (environment : Environment) : Prop :=
  ∃ d ∈ db.deployments, d.inFlight = true ∧ d.modelId = version.modelId ∧
    d.environment = environment

section

variable {E : Type} {env : Env} {postgresql : Bool} {signal : Signal E} {s : Server} {i : ℕ}
variable {user : User} {credentials header : Option String}
variable {generated : GeneratedId} {now : Time} {v : ModelVersion} {d : Deployment}

/-- A call that maps what it returns stages it. -/
theorem map_some_ne_none {x : Except DomainError UnitOfWork} : x.map some ≠ .ok none := by
  cases x <;> simp [Except.map]

/-- What a request with such a header writes to the versions or inserts fits. -/
theorem fits_of_header {lower : String → String} {r : WriteRequest} {db : Db} {u : UnitOfWork}
    (hdb : db.Constraints) (hr : r.Admissible) (hheader : HeaderFits header)
    (hu : (r.call (correlationIdOf header generated)).Returns lower db u) :
    u.rowsFit db = true ∧ u.eventsFit db = true := by
  obtain ⟨hevents, hrows⟩ := fits_of_returns hdb hr hu
  rw [(fits_correlationIdOf header generated).mpr hheader] at hevents hrows
  refine ⟨?_, hevents⟩
  rcases hrows with ⟨hrows, -⟩ | hrows
  · exact hrows
  · exact hrows

/-- An approval succeeds if it is offered. -/
theorem approve_iff (hi : s.platform.locals i = .idle)
    (huser : getCurrentUser env.crypto env.settings env.users now credentials = .ok user)
    (hunhindered : Unhindered postgresql signal header)
    (hcons : s.platform.shared.Constraints) (hv : v ∈ s.platform.shared.versions)
    (modelId : Uuid) :
    Succeeds env postgresql signal s i
        ⟨.approveVersion modelId v.id, credentials, header, generated, now⟩ ↔
      canApproveVersion (some (profile user)) v = true := by
  have hsucceeds := succeeds_iff (r := ⟨.approveVersion modelId v.id, credentials, header,
    generated, now⟩) hi huser map_some_ne_none (fun hp u hu => fits_of_header
      (r := .approveVersion user.id v.id now) hcons trivial (hunhindered.header hp) hu)
    hunhindered.signal
  rw [hsucceeds, canApproveVersion, canApprove, Bool.and_eq_true, hasRole_iff, decide_eq_true_iff]
  refine and_congr_right fun _ => ⟨?_, fun hs => ?_⟩
  · rintro ⟨u, hu, -⟩
    obtain ⟨w, hw, hs, -⟩ := approveVersion_eq_ok.mp hu
    obtain rfl := Option.some.inj ((Table.get?_key hv).symm.trans hw)
    exact hs
  · exact ⟨_, approveVersion_eq_ok.mpr ⟨v, Table.get?_key hv, hs, rfl⟩,
      constraints_updateVersion hcons _ _ _⟩

/-- A promotion succeeds if it is offered. Where the stage asks for an approval, the version has
one. -/
theorem promote_iff (hi : s.platform.locals i = .idle)
    (huser : getCurrentUser env.crypto env.settings env.users now credentials = .ok user)
    (hunhindered : Unhindered postgresql signal header)
    (hcons : s.platform.shared.Constraints) (hgoverned : s.platform.shared.Governed)
    (hv : v ∈ s.platform.shared.versions) (modelId : Uuid) {target : LifecycleStage}
    (htarget : target ≠ .approved) :
    Succeeds env postgresql signal s i
        ⟨.promoteVersion modelId v.id target, credentials, header, generated, now⟩ ↔
      canPromoteVersion (some (profile user)) v target = true := by
  have hsucceeds := succeeds_iff (r := ⟨.promoteVersion modelId v.id target, credentials, header,
    generated, now⟩) hi huser map_some_ne_none (fun hp u hu => fits_of_header
      (r := .transitionVersion user.id v.id target) hcons trivial (hunhindered.header hp) hu)
    hunhindered.signal
  rw [hsucceeds, canPromoteVersion, canApprove, Bool.and_eq_true,
    hasRole_iff, decide_eq_true_iff, mem_promoteTargets_iff htarget]
  refine and_congr_right fun _ => ⟨?_, fun ht => ?_⟩
  · rintro ⟨u, hu, -⟩
    obtain ⟨w, hw, ht, -⟩ := transitionVersion_eq_ok.mp hu
    obtain rfl := Option.some.inj ((Table.get?_key hv).symm.trans hw)
    exact ht
  · refine ⟨_, transitionVersion_eq_ok.mpr ⟨v, Table.get?_key hv, ht, fun hrequires => ?_, rfl⟩,
      constraints_updateVersion hcons _ _ _⟩
    -- Only an approved stage leads to another one that requires approval.
    have hstage : v.stage ∈ requiresApproval := by
      revert ht hrequires htarget
      cases v.stage <;> cases target <;> decide
    obtain ⟨w, hw, happroved, -⟩ := hgoverned.version v hv (Or.inl hstage)
    obtain rfl := Option.some.inj ((Table.get?_key hv).symm.trans hw)
    exact happroved

/-- A deployment succeeds if it is offered, the environment takes the stage of the version, and no
deployment of its model is in flight there. -/
theorem deploy_iff (hi : s.platform.locals i = .idle)
    (huser : getCurrentUser env.crypto env.settings env.users now credentials = .ok user)
    (hunhindered : Unhindered postgresql signal header)
    (hcons : s.platform.shared.Constraints) (hv : v ∈ s.platform.shared.versions)
    (environment : Environment) (simulateFailure : Bool) :
    Succeeds env postgresql signal s i ⟨.requestDeployment ⟨v.id, environment, none,
        simulateFailure⟩, credentials, header, generated, now⟩ ↔
      canDeployVersion (some (profile user)) v = true ∧ isDeployable v.stage environment = true ∧
        ¬Occupied s.platform.shared v environment := by
  have hnew : (Call.requestDeployment user.id (some (correlationIdOf header generated))
      ⟨v.id, environment, none, simulateFailure⟩).stage env.lower s.platform.shared ≠ .ok none := by
    simp only [Call.stage]
    cases hr : requestDeployment s.platform.shared user.id (some (correlationIdOf header generated))
        ⟨v.id, environment, none, simulateFailure⟩ with
    | error e => simp [Except.map]
    | ok outcome =>
      cases outcome with
      | existing deployment =>
        -- Without a key none is looked up.
        exact absurd (requestDeployment_eq_existing.mp hr) (by simp [findByKey])
      | staged u => simp [Except.map]
  have hsucceeds := succeeds_iff (r := ⟨.requestDeployment ⟨v.id, environment, none,
    simulateFailure⟩, credentials, header, generated, now⟩) hi huser hnew
    (fun hp u hu => fits_of_header (r := .requestDeployment user.id ⟨v.id, environment, none,
      simulateFailure⟩) hcons ⟨by simp⟩ (hunhindered.header hp) hu) hunhindered.signal
  rw [hsucceeds, canDeployVersion, canDeploy, Bool.and_eq_true, hasRole_iff, decide_eq_true_iff,
    mem_deployableStages_iff, and_assoc]
  refine and_congr_right fun _ => ⟨?_, ?_⟩
  · rintro ⟨u, hu, haccepted⟩
    obtain ⟨w, deployment, event, -, hw, hdeployable, rfl, hrow⟩ := requestDeployment_eq_staged hu
    obtain rfl := Option.some.inj ((Table.get?_key hv).symm.trans hw)
    refine ⟨⟨environment, hdeployable⟩, hdeployable, ?_⟩
    rintro ⟨e, he, hflight, hmodel, henvironment⟩
    exact ((constraints_insertDeployment_iff hcons (hrow _).1).mp haccepted).2 e he hflight rfl
      hmodel henvironment
  · rintro ⟨-, hdeployable, hfree⟩
    have hstaged : ∃ u, requestDeployment s.platform.shared user.id
        (some (correlationIdOf header generated)) ⟨v.id, environment, none, simulateFailure⟩ =
          .ok (.staged u) := by
      simp [requestDeployment, findByKey, Table.get?_key hv, assertDeployable, hdeployable, bind,
        Except.bind]
    obtain ⟨u, hu⟩ := hstaged
    refine ⟨u, hu, ?_⟩
    obtain ⟨w, deployment, event, -, hw, -, rfl, hrow⟩ := requestDeployment_eq_staged hu
    obtain rfl := Option.some.inj ((Table.get?_key hv).symm.trans hw)
    refine (constraints_insertDeployment_iff hcons (hrow _).1).mpr ⟨fun e _ hkey => ?_,
      fun e he hflight _ hmodel henvironment => hfree ⟨e, he, hflight, hmodel, henvironment⟩⟩
    intro hsame
    rw [hsame] at hkey
    exact absurd hkey (by simp)

/-- A retry succeeds if it is offered, and no other deployment is in flight in its place. -/
theorem retry_iff (hi : s.platform.locals i = .idle)
    (huser : getCurrentUser env.crypto env.settings env.users now credentials = .ok user)
    (hunhindered : Unhindered postgresql signal header) (hfits : postgresql = true → d.fits = true)
    (hcons : s.platform.shared.Constraints) (hd : d ∈ s.platform.shared.deployments) :
    Succeeds env postgresql signal s i
        ⟨.retryDeployment d.id, credentials, header, generated, now⟩ ↔
      canRetryDeployment (some (profile user)) d = true ∧ ¬s.platform.shared.Contended d := by
  have hwritten : postgresql = true → ∀ u,
      retryDeployment s.platform.shared user.id d.id = .ok u →
        u.rowsFit s.platform.shared = true ∧ u.eventsFit s.platform.shared = true := by
    intro hp u hu
    obtain ⟨e, he, -, rfl⟩ := retryDeployment_eq_ok.mp hu
    obtain rfl := Option.some.inj ((Table.get?_key hd).symm.trans he)
    have hstored := hfits hp
    simp only [Deployment.fits, Bool.and_eq_true] at hstored
    exact ⟨by simp [UnitOfWork.rowsFit, DeploymentStatus.fitsColumn_value],
      by simpa [UnitOfWork.eventsFit, recordEvent, DeploymentEvent.fits] using
        ⟨⟨rfl, rfl⟩, hstored.2⟩⟩
  have hsucceeds := succeeds_iff (r := ⟨.retryDeployment d.id, credentials, header, generated,
    now⟩) hi huser map_some_ne_none hwritten hunhindered.signal
  rw [hsucceeds, canRetryDeployment, canDeploy, Bool.and_eq_true,
    hasRole_iff, decide_eq_true_iff, and_assoc]
  refine and_congr_right fun _ => ⟨?_, ?_⟩
  · rintro ⟨u, hu, haccepted⟩
    obtain ⟨e, he, hs, -⟩ := retryDeployment_eq_ok.mp hu
    obtain rfl := Option.some.inj ((Table.get?_key hd).symm.trans he)
    exact ⟨hs, fun hcontended => hcontended.rejects hd (sets_of_retry hu).2 haccepted⟩
  · rintro ⟨hs, hfree⟩
    obtain ⟨u, hu⟩ : ∃ u, retryDeployment s.platform.shared user.id d.id = .ok u :=
      ⟨_, retryDeployment_eq_ok.mpr ⟨d, Table.get?_key hd, hs, rfl⟩⟩
    exact ⟨u, hu, retry_accepted hcons hu hd rfl hfree⟩

/-- A rollback succeeds if it is offered, and there is a deployment to fall back to. -/
theorem rollback_iff (hi : s.platform.locals i = .idle)
    (huser : getCurrentUser env.crypto env.settings env.users now credentials = .ok user)
    (hunhindered : Unhindered postgresql signal header) (hfits : postgresql = true → d.fits = true)
    (hcons : s.platform.shared.Constraints) (hd : d ∈ s.platform.shared.deployments) :
    Succeeds env postgresql signal s i
        ⟨.rollbackDeployment d.id, credentials, header, generated, now⟩ ↔
      canRollbackDeployment (some (profile user)) d = true ∧
        (rollbackTarget s.platform.shared d).isSome = true := by
  have hwritten : postgresql = true → ∀ u,
      rollbackDeployment s.platform.shared user.id d.id = .ok u →
        u.rowsFit s.platform.shared = true ∧ u.eventsFit s.platform.shared = true := by
    intro hp u hu
    obtain ⟨e, t, he, -, -, rfl⟩ := rollbackDeployment_eq_ok.mp hu
    obtain rfl := Option.some.inj ((Table.get?_key hd).symm.trans he)
    have hstored := hfits hp
    simp only [Deployment.fits, Bool.and_eq_true] at hstored
    obtain ⟨⟨⟨-, hworker⟩, herror⟩, hcorrelation⟩ := hstored
    exact ⟨by simpa [UnitOfWork.rowsFit] using ⟨⟨rfl, hworker⟩, herror⟩,
      by simpa [UnitOfWork.eventsFit, recordEvent, DeploymentEvent.fits] using
        ⟨⟨rfl, rfl⟩, hcorrelation⟩⟩
  have hsucceeds := succeeds_iff (r := ⟨.rollbackDeployment d.id, credentials, header, generated,
    now⟩) hi huser map_some_ne_none hwritten hunhindered.signal
  rw [hsucceeds, canRollbackDeployment, canRollback,
    Bool.and_eq_true, hasRole_iff, decide_eq_true_iff, and_assoc]
  refine and_congr_right fun _ => ⟨?_, ?_⟩
  · rintro ⟨u, hu, -⟩
    obtain ⟨e, t, he, hs, ht, -⟩ := rollbackDeployment_eq_ok.mp hu
    obtain rfl := Option.some.inj ((Table.get?_key hd).symm.trans he)
    exact ⟨hs, Option.isSome_of_eq_some ht⟩
  · rintro ⟨hs, htarget⟩
    obtain ⟨t, ht⟩ := Option.isSome_iff_exists.mp htarget
    obtain ⟨u, hu⟩ : ∃ u, rollbackDeployment s.platform.shared user.id d.id = .ok u :=
      ⟨_, rollbackDeployment_eq_ok.mpr ⟨d, t, Table.get?_key hd, hs, ht, rfl⟩⟩
    exact ⟨u, hu, (Db.commit_eq_some.mp (commit_rollback hcons hu)).1⟩

end

/-- What the console offers a user is what the API accepts of the user's requests, in a state of the
server. -/
structure OffersAgree {E : Type} (env : Env) (postgresql : Bool) (signal : Signal E) (s : Server)
    (i : ℕ) (r : HttpRequest) (user : User) : Prop where
  approve : ∀ v ∈ s.platform.shared.versions, ∀ modelId,
    r.request = .approveVersion modelId v.id →
      (Succeeds env postgresql signal s i r ↔ canApproveVersion (some (profile user)) v = true)
  promote : ∀ v ∈ s.platform.shared.versions, ∀ modelId target, target ≠ .approved →
    r.request = .promoteVersion modelId v.id target →
      (Succeeds env postgresql signal s i r ↔
        canPromoteVersion (some (profile user)) v target = true)
  deploy : ∀ v ∈ s.platform.shared.versions, ∀ environment simulateFailure,
    r.request = .requestDeployment ⟨v.id, environment, none, simulateFailure⟩ →
      (Succeeds env postgresql signal s i r ↔ canDeployVersion (some (profile user)) v = true ∧
        isDeployable v.stage environment = true ∧
        ¬Occupied s.platform.shared v environment)
  retry : ∀ d ∈ s.platform.shared.deployments, r.request = .retryDeployment d.id →
    (Succeeds env postgresql signal s i r ↔ canRetryDeployment (some (profile user)) d = true ∧
      ¬s.platform.shared.Contended d)
  rollback : ∀ d ∈ s.platform.shared.deployments, r.request = .rollbackDeployment d.id →
    (Succeeds env postgresql signal s i r ↔ canRollbackDeployment (some (profile user)) d = true ∧
      (rollbackTarget s.platform.shared d).isSome = true)

/-- The demo approver. -/
def demoApprover : User :=
  ⟨2, "approver", "approver@example.com", "Priya Approver", "demo1234", .approver⟩

/-- The approver promotes the approved version after `Api.rolledBackRun`. -/
def stagingRequest : HttpRequest :=
  ⟨.promoteVersion 1 1 .staging, some "approver", none, someGeneratedId, 100⟩

end MlopsPlatform.Console
