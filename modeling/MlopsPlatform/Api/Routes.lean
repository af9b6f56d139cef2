import MlopsPlatform.Api.Security
import MlopsPlatform.Requests.Tracing

/-!
# The routes that write, and the server

`api/routes/models.py`, `api/routes/deployments.py` and `api/routes/auth.py`, with the error handler
of `main.py`. A route resolves its guard, calls one service function for the user, and maps the
answer to a status. The server is the platform behind these routes: a login issues a token, a
request that the guard lets through makes its call, and every other step is one of the platform.
Values arrive as the schemas have validated them.

`Server.issued` has the tokens that were handed out. The program does not store them: they are kept
here so that results about runs can say where a token comes from.
-/

namespace MlopsPlatform.Api

open Transition

/-! ## Requests -/

/-- A request to a route that writes. -/
inductive Request
  | createModel (payload : ModelCreate)
  | createVersion (modelId : Uuid) (payload : ModelVersionCreate)
  | approveVersion (modelId versionId : Uuid)
  | promoteVersion (modelId versionId : Uuid) (targetStage : LifecycleStage)
  | requestDeployment (payload : DeploymentCreate)
  | retryDeployment (deploymentId : Uuid)
  | rollbackDeployment (deploymentId : Uuid)

/-- The roles that the route requires. -/
def Request.roles : Request → List Role
  | createModel _ => [.engineer]
  | createVersion _ _ => [.engineer]
  | approveVersion _ _ => [.approver]
  | promoteVersion _ _ _ => [.approver]
  | requestDeployment _ => [.engineer]
  | retryDeployment _ => [.engineer]
  | rollbackDeployment _ => [.admin]

/-- The service call that the route makes for a user. -/
def Request.call (userId : Uuid) (correlationId : Option String) (now : Time) : Request → Call
  | createModel payload => .createModel userId payload
  | createVersion modelId payload => .createVersion userId correlationId modelId payload
  -- The model of the path is not passed on.
  | approveVersion _ versionId => .approveVersion userId correlationId versionId now
  | promoteVersion _ versionId targetStage =>
    .transitionVersion userId correlationId versionId targetStage
  | requestDeployment payload => .requestDeployment userId correlationId payload
  | retryDeployment deploymentId => .retryDeployment userId deploymentId
  | rollbackDeployment deploymentId => .rollbackDeployment userId deploymentId

/-- A request as it arrives. -/
structure HttpRequest where
  request : Request
  /-- The bearer token. -/
  credentials : Option String
  /-- The `X-Request-ID` header. -/
  header : Option String
  /-- The id that the middleware draws if there is no header. -/
  generated : GeneratedId
  now : Time

/-- The service call of a request, with the correlation id that the middleware has bound. -/
def HttpRequest.call (r : HttpRequest) (user : User) : Call :=
  r.request.call user.id (some (correlationIdOf r.header r.generated)) r.now

/-! ## Responses -/

/-- The body of a response. -/
inductive Body
  /-- The row that the service returns. -/
  | row (answer : Answer)
  /-- A `TokenResponse`. -/
  | token (accessToken : String)
  /-- The message of an error. -/
  | detail (message : String)

/-- A response. -/
structure Response where
  status : ℕ
  body : Body

/-- The response to an exception of a guard. -/
def HttpException.response (e : HttpException) : Response := ⟨e.status, .detail e.detail⟩

/-- `_DOMAIN_ERROR_STATUS`. -/
def domainErrorStatus : DomainError → ℕ
  | .notFoundError _ => 404
  | .conflictError _ => 409
  | .invalidStateTransition _ => 409
  | .approvalRequired _ => 409

/-- The message of a domain error. -/
def domainErrorMessage : DomainError → String
  | .notFoundError message => message
  | .conflictError message => message
  | .invalidStateTransition message => message
  | .approvalRequired message => message

/-- `domain_error_handler`. -/
def domainErrorHandler (e : DomainError) : Response :=
  ⟨domainErrorStatus e, .detail (domainErrorMessage e)⟩

/-- The status of a route whose call returns. -/
def successStatus : Call → ℕ
  | .createModel _ _ => 201
  | .createVersion _ _ _ _ => 201
  | _ => 200

/-- The response to a call. -/
def respondTo (call : Call) : Answer → Response
  -- 202 for a newly queued deployment, 200 for an idempotent replay.
  | .requested deployment created =>
    ⟨if created then 202 else 200, .row (.requested deployment created)⟩
  | .returned => ⟨successStatus call, .row .returned⟩
  | .raised e => domainErrorHandler e
  | .integrityError => ⟨500, .detail "Internal Server Error"⟩

/-! ## The server -/

/-- What the server runs with. -/
structure Env where
  lower : String → String
  crypto : Crypto
  settings : Settings
  users : Users

/-- The platform, and the tokens that were handed out. -/
structure Server where
  platform : State
  issued : List String

/-- No rows, no sessions, and no tokens. -/
def Server.init : Server := ⟨.init, []⟩

/-- What happens at the server. -/
inductive ServerAction
  /-- `POST /auth/login`. -/
  | login (username password : String) (now : Time)
  /-- A request arrives, and its call reads. -/
  | request (r : HttpRequest)
  /-- The commit of a request, or a step of a worker or of the reaper. -/
  | proceed (a : Action)

/-- The action makes a call of the API. -/
def makesCall : Action → Bool
  | .start _ => true
  | .call _ => true
  | _ => false

section

variable (env : Env)

/-- `login`: the response, with a token if the credentials are valid. -/
def login (username password : String) (now : Time) : Response :=
  match authenticate env.crypto env.users username password with
  | none => ⟨401, .detail "Incorrect username or password"⟩
  | some user =>
    ⟨200, .token (createAccessToken env.crypto env.settings now user.username user.role.value)⟩

/-- `me`: the current user. -/
def me (now : Time) (credentials : Option String) : Except HttpException User :=
  getCurrentUser env.crypto env.settings env.users now credentials

/-- The token of a response. -/
def Response.token? (r : Response) : Option String :=
  match r.body with
  | .token accessToken => some accessToken
  | _ => none

/-- The guard of a request's route. -/
def HttpRequest.guard (r : HttpRequest) : Except HttpException User :=
  guardRoles env.crypto env.settings env.users r.now r.credentials r.request.roles

/-- What a step of the server is on the platform, if it is a step of the platform. A request that
the guard turns away is none. -/
def ServerAction.onPlatform : ServerAction → Option Action
  | login _ _ _ => none
  | request r =>
    match r.guard env with
    | .ok user => some (.start (r.call user))
    | .error _ => none
  | proceed a => if makesCall a then none else some a

/-- The tokens that a step hands out. -/
def ServerAction.issues : ServerAction → List String
  | login username password now => ((Api.login env username password now).token?).toList
  | _ => []

/-- The step can be taken apart from the platform. -/
def ServerAction.isolated : ServerAction → Bool
  | proceed _ => false
  | _ => true

/-- A step of the server. -/
def serve (s : Server) (p : ℕ × ServerAction) : Option Server :=
  match p.2.onPlatform env with
  | some a =>
    (step env.lower s.platform (p.1, a)).map fun platform => { s with platform }
  | none =>
    if p.2.isolated then some { s with issued := s.issued ++ p.2.issues env } else none

/-- The response that a step gives. -/
def respond (s : Server) (p : ℕ × ServerAction) : Option Response :=
  match p.2 with
  | .login username password now => some (login env username password now)
  | .request r =>
    match r.guard env with
    | .error e => some e.response
    | .ok user =>
      (answer env.lower s.platform (p.1, .start (r.call user))).map (respondTo (r.call user))
  | .proceed a =>
    match calling s.platform (p.1, a) with
    | some call => (answer env.lower s.platform (p.1, a)).map (respondTo call)
    | none => none

/-- What a step of the server writes. -/
def writes (s : Server) (p : ℕ × ServerAction) : Option (Writer × UnitOfWork) :=
  match p.2.onPlatform env with
  | some a => written env.lower s.platform (p.1, a)
  | none => none

end

/-! ## The server and the platform -/

variable {env : Env}

/-- A step of the server is a step of the platform, or it leaves the platform as it is. -/
theorem serve_cases {s s' : Server} {p : ℕ × ServerAction} (h : serve env s p = some s') :
    (∃ a, p.2.onPlatform env = some a ∧
        step env.lower s.platform (p.1, a) = some s'.platform ∧ s'.issued = s.issued) ∨
      (p.2.onPlatform env = none ∧ s'.platform = s.platform ∧
        s'.issued = s.issued ++ p.2.issues env) := by
  unfold serve at h
  cases ha : p.2.onPlatform env with
  | some a =>
    rw [ha] at h
    obtain ⟨platform, hstep, rfl⟩ := Option.map_eq_some_iff.mp h
    exact Or.inl ⟨a, rfl, hstep, rfl⟩
  | none =>
    rw [ha] at h
    dsimp only at h
    split_ifs at h
    obtain rfl := Option.some.inj h
    exact Or.inr ⟨rfl, rfl, rfl⟩

/-- The server refines the platform: its runs are runs of the platform whose steps come from the
server's actions. -/
theorem platform_of_reach {ok : Server → ℕ × ServerAction → Prop} {s : Server}
    (h : Reach (serve env) ok .init s) :
    Reach (step env.lower) (fun _ p => ∃ x : ServerAction, x.onPlatform env = some p.2) .init
      s.platform := by
  induction h with
  | refl => exact .refl
  | tail _ _ hs ih =>
    rcases serve_cases hs with ⟨a, ha, hstep, -⟩ | ⟨-, hplatform, -⟩
    · exact ih.tail ⟨_, ha⟩ hstep
    · rw [hplatform]
      exact ih

/-! ## A server on concrete inputs -/

/-- The users that `seed_demo_users` creates, with a password in place of its hash. -/
def demoUsers : Users where
  rows := Table.empty.insertAll
    [⟨fun id => ⟨id, "admin", "admin@example.com", "Ada Admin", "demo1234", .admin⟩, fun _ => rfl⟩,
      ⟨fun id => ⟨id, "approver", "approver@example.com", "Priya Approver", "demo1234", .approver⟩,
        fun _ => rfl⟩,
      ⟨fun id => ⟨id, "engineer", "engineer@example.com", "Eli Engineer", "demo1234", .engineer⟩,
        fun _ => rfl⟩,
      ⟨fun id => ⟨id, "viewer", "viewer@example.com", "Vic Viewer", "demo1234", .viewer⟩,
        fun _ => rfl⟩]
  username_unique := by decide
  email_unique := by decide

/-- The claims of the tokens that the demo users are given at time 0. -/
def demoPayloads : List Payload :=
  [⟨some "admin", "ADMIN", 0, 28800⟩, ⟨some "approver", "APPROVER", 0, 28800⟩,
    ⟨some "engineer", "ENGINEER", 0, 28800⟩, ⟨some "viewer", "VIEWER", 0, 28800⟩]

/-- The token of a demo user is the user's name, and it is valid for eight hours. -/
def demoCrypto : Crypto where
  encode payload _ _ := if payload ∈ demoPayloads then payload.sub.getD "" else ""
  decode now token _ _ := demoPayloads.find? fun payload =>
    decide (payload.sub = some token ∧ payload.iat ≤ now ∧ now < payload.exp)
  checkpw plain hashed := some (decide (plain = hashed))

/-- A server with the demo users. -/
def demoEnv : Env := ⟨id, demoCrypto, {}, demoUsers⟩

/-- The demo users log in at time 0. -/
def demoLogins : List (ℕ × ServerAction) :=
  ["admin", "approver", "engineer", "viewer"].map fun name => (0, .login name "demo1234" 0)

/-- A request to register a model. -/
def pumpRequest : Request :=
  .createModel { name := "pump failure", owner := "ops", framework := .pytorch }

/-- Session 0 serves a request at time 10. -/
def post (token : String) (r : Request) : List (ℕ × ServerAction) :=
  [(0, .request ⟨r, some token, none, someGeneratedId, 10⟩), (0, .proceed .commit)]

/-- Session 1 claims a job at a time and processes it. -/
def demoJob (now : Time) : List (ℕ × ServerAction) :=
  [(1, .proceed (.claim "worker-1" now [])), (1, .proceed .commit), (1, .proceed .work),
    (1, .proceed .work)]

end MlopsPlatform.Api
