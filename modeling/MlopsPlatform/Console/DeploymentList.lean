import MlopsPlatform.Console.MonitoringDashboard
import MlopsPlatform.Console.Offers
import MlopsPlatform.Queue.Retries
import MlopsPlatform.Requests.Search

/-!
# The list of deployments

`features/deployments/deployment-list.ts`: a page of the deployments and, in a drawer, one of them
with its timeline. The page runs beside the platform. It sends its requests again every two seconds
for as long as something that it shows is in flight. A request that reads is answered from the
database as it is at some time after it was sent, a request that writes is handled by a session of
the platform, and the responses arrive at any time and in any order.

So what is shown may be old, and an old response may take the place of a new one. But a deployment
that is not in flight changes only if it is retried or rolled back, or if the commit of a worker or
of a reaper comes too late. `upToDate_of_trace` says what follows for the page: what it shows is as
it is stored, or the next poll asks for it again, or one of these has happened since it was read.
-/

namespace MlopsPlatform.Console

open Transition
open Like (CaseFold)

/-! ## The component -/

/-- A deployment with its timeline. -/
structure DeploymentDetail where
  deployment : Deployment
  events : List DeploymentEvent

/-- A request of the page. -/
inductive ListRequest
  /-- `GET /deployments`. -/
  | list (limit offset : ℕ) (q : Option String)
  /-- `GET /deployments/{deployment_id}`. -/
  | get (deploymentId : Uuid)
  /-- `POST /deployments`. -/
  | create (payload : DeploymentCreate)
  /-- `POST /deployments/{deployment_id}/retry`. -/
  | retry (deploymentId : Uuid)
  /-- `POST /deployments/{deployment_id}/rollback`. -/
  | rollback (deploymentId : Uuid)

/-- What the server sends back. -/
inductive ListResponse
  | page (items : List Deployment) (total : ℕ)
  | detail (detail : DeploymentDetail)
  /-- The request failed, with the message that the console shows. -/
  | error (message : String)

/-- `IN_FLIGHT`. -/
def inFlightStatuses : List DeploymentStatus := [.requested, .validating, .deploying]

/-- `isInFlight`: the worker is still acting. -/
def isInFlight (status : DeploymentStatus) : Bool := status ∈ inFlightStatuses

/-- The signals of the component, its search field, and its requests that are not answered. -/
structure DeploymentList where
  deployments : List Deployment
  total : ℕ
  pageIndex : ℕ
  pageSize : ℕ
  search : String
  loading : Bool
  error : Option String
  detail : Option DeploymentDetail
  drawerOpen : Bool
  /-- What was typed since `searchInput$` was quiet for 300 ms. -/
  typed : Option String
  /-- The text that `distinctUntilChanged` let through last. -/
  emitted : Option String
  requests : List ListRequest

namespace DeploymentList

/-- Send a request. -/
def send (s : DeploymentList) (request : ListRequest) : DeploymentList :=
  { s with requests := s.requests ++ [request] }

/-- The request for the page that is shown. -/
def listRequest (s : DeploymentList) : ListRequest :=
  .list s.pageSize (s.pageIndex * s.pageSize) (truthy (some s.search))

/-- Load the page. -/
def loadList (s : DeploymentList) (quiet : Bool) : DeploymentList :=
  let s := if quiet then s else { s with loading := true }
  send { s with error := none } s.listRequest

/-- Load a deployment with its timeline. -/
def loadDetail (s : DeploymentList) (id : Uuid) : DeploymentList := s.send (.get id)

/-- The component once it is constructed. -/
def init : DeploymentList :=
  loadList
    { deployments := [], total := 0, pageIndex := 0, pageSize := 10, search := "", loading := true
      error := none, detail := none, drawerOpen := false, typed := none, emitted := none
      requests := [] } false

/-- Poll the list if something in it is in flight. -/
def pollList (s : DeploymentList) : DeploymentList :=
  if s.deployments.any fun d => isInFlight d.status then s.loadList true else s

/-- Poll for live status while anything is in flight (list) or the drawer is open. -/
def poll (s : DeploymentList) : DeploymentList :=
  let s := s.pollList
  match s.detail with
  | some d =>
    if s.drawerOpen && isInFlight d.deployment.status then s.loadDetail d.deployment.id else s
  | none => s

/-- Type into the search field. -/
def onSearch (s : DeploymentList) (value : String) : DeploymentList :=
  { s with typed := some value }

/-- The search field has been quiet for 300 ms: search, unless the text is the last one again. -/
def debounced (s : DeploymentList) : DeploymentList :=
  match s.typed with
  | some q =>
    if s.emitted = some q then { s with typed := none }
    else loadList { s with typed := none, emitted := some q, search := q, pageIndex := 0 } false
  | none => s

/-- Go to another page. -/
def onPage (s : DeploymentList) (pageIndex pageSize : ℕ) : DeploymentList :=
  loadList { s with pageIndex, pageSize } false

/-- Open the drawer for a deployment. -/
def openDetail (s : DeploymentList) (dep : Deployment) : DeploymentList :=
  loadDetail { s with detail := none, drawerOpen := true } dep.id

/-- Close the drawer. -/
def closeDrawer (s : DeploymentList) : DeploymentList := { s with drawerOpen := false }

/-- An action on a deployment has succeeded. -/
def afterAction (s : DeploymentList) (id : Uuid) : DeploymentList := (s.loadDetail id).loadList true

/-- A response to a request has arrived. -/
def receive (s : DeploymentList) : ListRequest → ListResponse → DeploymentList
  | .list _ _ _, .page items total => { s with deployments := items, total, loading := false }
  | .list _ _ _, .error message => { s with error := some message, loading := false }
  | .get _, .detail d => { s with detail := some d }
  | .create _, .detail d =>
    { loadList { s with pageIndex := 0 } false with detail := some d, drawerOpen := true }
  | .retry id, .detail _ => s.afterAction id
  | .rollback id, .detail _ => s.afterAction id
  -- The error of an action is shown for a while, and nothing is subscribed to those of `get`.
  | _, _ => s

/-- The table is shown: nothing is loading, nothing has failed, and there are deployments. -/
def showsTable (s : DeploymentList) : Bool := !s.loading && s.error.isNone && 0 < s.total

/-- What the next poll asks for. -/
def asked (s : DeploymentList) : List ListRequest := s.poll.requests.drop s.requests.length

end DeploymentList

/-! ## The server -/

/-- `GET /deployments/{deployment_id}`: the deployment with its timeline. -/
def detailOf (db : Db) (deploymentId : Uuid) : Except DomainError DeploymentDetail :=
  (getDeployment db deploymentId).map fun deployment =>
    ⟨deployment, db.deploymentEvents.select fun e => e.deploymentId = deployment.id⟩

/-- The response with a deployment, or with the error that was raised. -/
def ListResponse.ofDetail : Except DomainError DeploymentDetail → ListResponse
  | .ok d => .detail d
  | .error e => .error (Api.domainErrorMessage e)

namespace ListRequest

/-- The answer to a request that reads. -/
def serve (f : CaseFold) (db : Db) : ListRequest → Option ListResponse
  | list limit offset q =>
    let (items, total) := listDeployments f db limit offset q
    some (.page items total)
  | get id => some (.ofDetail (detailOf db id))
  | _ => none

/-- The service call of a request that writes. -/
def call (userId : Uuid) (correlationId : Option String) : ListRequest → Option Call
  | create payload => some (.requestDeployment userId correlationId payload)
  | retry id => some (.retryDeployment userId id)
  | rollback id => some (.rollbackDeployment userId id)
  | _ => none

/-- The response to a request that writes, once its call has answered. The service refreshes the row
that it returns. -/
def reply (db : Db) (request : ListRequest) : Answer → ListResponse
  | .requested deployment _ => .ofDetail (detailOf db deployment.id)
  | .returned =>
    match request with
    | retry id => .ofDetail (detailOf db id)
    | rollback id => .ofDetail (detailOf db id)
    | _ => .error "Something went wrong"
  | .raised e => .error (Api.domainErrorMessage e)
  | .integrityError => .error "Something went wrong"

end ListRequest

/-! ## The page beside the platform -/

/-- The platform, the page, the requests that its sessions handle, and the responses that are on
their way, with their requests. -/
structure ListState where
  platform : State
  page : DeploymentList
  handling : ℕ → Option ListRequest
  responses : List (ListRequest × ListResponse)

/-- What happens while the page is open. -/
inductive ListAction
  /-- A session of the platform takes a step. -/
  | platform (session : ℕ) (action : Action)
  /-- Two seconds have passed. -/
  | poll
  /-- The button that loads the page again after an error. -/
  | loadList
  | onSearch (value : String)
  | debounced
  | onPage (pageIndex pageSize : ℕ)
  /-- One of the deployments is clicked. -/
  | openDetail (index : ℕ)
  | closeDrawer
  /-- The dialog closes with a request. -/
  | create (payload : DeploymentCreate)
  | retry
  | rollback
  /-- The server answers a request that reads. -/
  | serve (index : ℕ)
  /-- A session starts to handle a request that writes. -/
  | handle (index session : ℕ) (correlationId : Option String)
  /-- A request fails before it is handled. -/
  | fail (index : ℕ) (message : String)
  /-- A response arrives. -/
  | respond (index : ℕ)

/-- The page after an action of the user or of the clock. The buttons of the drawer are those that
`Console.Offers` has. -/
def DeploymentList.step (user : Profile) (s : DeploymentList) : ListAction → Option DeploymentList
  | .poll => some s.poll
  | .loadList => if s.error.isSome && !s.loading then some (s.loadList false) else none
  | .onSearch value => some (s.onSearch value)
  | .debounced => some s.debounced
  | .onPage pageIndex pageSize => if s.showsTable then some (s.onPage pageIndex pageSize) else none
  | .openDetail index => if s.showsTable then s.deployments[index]?.map s.openDetail else none
  | .closeDrawer => some s.closeDrawer
  | .create payload => if canDeploy (some user) then some (s.send (.create payload)) else none
  | .retry =>
    (s.detail.filter fun d => s.drawerOpen && canRetryDeployment (some user) d.deployment).map
      fun d => s.send (.retry d.deployment.id)
  | .rollback =>
    (s.detail.filter fun d => s.drawerOpen && canRollbackDeployment (some user) d.deployment).map
      fun d => s.send (.rollback d.deployment.id)
  | _ => none

namespace ListState

/-- The page is opened. -/
def opened (platform : State) : ListState := ⟨platform, .init, fun _ => none, []⟩

/-- A request is taken from those that are not answered. -/
def take (s : ListState) (index : ℕ) : ListState :=
  { s with page := { s.page with requests := s.page.requests.eraseIdx index } }

/-- A response is sent. -/
def reply (s : ListState) (request : ListRequest) (response : ListResponse) : ListState :=
  { s with responses := s.responses ++ [(request, response)] }

section

variable (lower : String → String) (user : Profile) (f : CaseFold)

/-- A session of the platform takes a step. If it handles a request of the page, the answer of its
call is the response, and if it dies there is none. -/
def proceed (s : ListState) (session : ℕ) (action : Action) : Option ListState :=
  (MlopsPlatform.step lower s.platform (session, action)).map fun p =>
    let done := { s with platform := p, handling := Function.update s.handling session none }
    match s.handling session, answer lower s.platform (session, action) with
    | some request, some ans => done.reply request (request.reply p.shared ans)
    | _, _ => if (p.locals session).isIdle then done else { s with platform := p }

/-- One step of the platform, the server, the network, the clock, or the user. -/
def step (s : ListState) : ListAction → Option ListState
  | .platform session action => s.proceed lower session action
  | .serve index =>
    s.page.requests[index]?.bind fun request =>
      (request.serve f s.platform.shared).map fun response => (s.take index).reply request response
  | .handle index session correlationId =>
    s.page.requests[index]?.bind fun request =>
      (request.call user.id correlationId).bind fun call =>
        proceed lower { s.take index with
          handling := Function.update s.handling session (some request) } session (.start call)
  | .fail index message =>
    s.page.requests[index]?.map fun request => (s.take index).reply request (.error message)
  | .respond index =>
    s.responses[index]?.map fun x =>
      { s with page := s.page.receive x.1 x.2, responses := s.responses.eraseIdx index }
  | a => (s.page.step user a).map fun page => { s with page }

end

end ListState

/-! ## Deployments that have settled -/

/-- The unit of work updates the deployment, or records an entry of its timeline. -/
def Concerns (u : UnitOfWork) (id : Uuid) : Bool :=
  match u with
  | .updateDeployments dirty events =>
    dirty.any (fun x => x.loaded.id = id) || events.any fun e => (e.1 0).deploymentId = id
  | _ => false

/-- The step is the commit of a worker or of a reaper for a deployment that is no longer in
flight. -/
def lateCommit (lower : String → String) (id : Uuid) (x : State × (ℕ × Action)) : Bool :=
  (written lower x.1 x.2).any fun y => !y.1.isApi && Concerns y.2 id &&
    (x.1.shared.deployments.get? id).any fun d => !d.inFlight

/-- The step reopens a deployment that is not in flight. -/
def reopens (lower : String → String) (id : Uuid) (x : State × (ℕ × Action)) : Bool :=
  retries lower id x || rollsBack lower id x || lateCommit lower id x

section

variable {lower : String → String}

/-- Workers and reapers record entries as `record_event` writes them. -/
theorem events_of_staged {db : Db} {w : Writer} {u : UnitOfWork} (h : Staged lower db w u)
    (hw : w.isApi = false) {x : Table.Draft DeploymentEvent.id} (hx : u.Records x) :
    ∃ d name message actor, x = recordEvent d name message actor := by
  cases h with
  | call hc => exact absurd hw (by simp [Writer.isApi])
  | claim hclaim => exact absurd hx List.not_mem_nil
  | segment hs =>
    obtain ⟨d, assigned, event, message, -, -, rfl⟩ := processDeployment_eq_some hs
    exact ⟨assigned, event, message, _, List.mem_singleton.mp hx⟩
  | reap hr =>
    obtain ⟨stuck, -, rfl⟩ := reapStuck_eq_some hr
    obtain ⟨d, -, rfl⟩ := List.mem_map.mp hx
    unfold reapEvent
    split_ifs
    · exact ⟨_, _, _, _, rfl⟩
    · exact ⟨_, _, _, _, rfl⟩

/-- What sessions hold: a call has returned it for some database, and the entries of the others are
as `record_event` writes them. -/
def Held (lower : String → String) (w : Writer) (u : UnitOfWork) : Prop :=
  match w with
  | .api call => ∃ db, call.Returns lower db u
  | _ => (∃ dirty events, u = .updateDeployments dirty events) ∧
    ∀ x, u.Records x → ∃ d name message actor, x = recordEvent d name message actor

/-- What is staged is so. -/
theorem held_of_staged {db : Db} {w : Writer} {u : UnitOfWork} (h : Staged lower db w u) :
    Held lower w u := by
  cases w with
  | api call =>
    cases h with
    | call hc => exact ⟨db, Call.stage_eq_ok hc⟩
  | worker => exact ⟨h.updateDeployments rfl, fun x hx => events_of_staged h rfl hx⟩
  | reaper => exact ⟨h.updateDeployments rfl, fun x hx => events_of_staged h rfl hx⟩

/-- Whatever is committed in a run is so. -/
theorem held_of_committed {ok : State → ℕ × Action → Prop} {s : State}
    (h : Reach (MlopsPlatform.step lower) ok .init s) {i : ℕ} {a : Action} {w : Writer}
    {u : UnitOfWork} (hcom : committed lower s.shared (s.locals i) a = some (w, u)) :
    Held lower w u := by
  have hholds : s.Holds fun _ w u => Held lower w u := by
    refine reach_holds (K := Held lower) h (fun d => ?_) ?_
    · exact ⟨⟨_, _, rfl⟩, fun x hx => ⟨_, _, _, _, List.mem_singleton.mp hx⟩⟩
    · exact fun s i a w u _ _ hreads => held_of_staged hreads.staged
  rcases hholds.committed hcom with hheld | hreads
  · exact hheld
  · exact held_of_staged hreads.staged

/-- A unit of work that does not concern a deployment does not update it. -/
theorem dirtyFor_of_concerns {u : UnitOfWork} {id : Uuid} (h : Concerns u id = false) :
    u.dirtyFor id = none := by
  cases hx : u.dirtyFor id with
  | none => rfl
  | some x =>
    obtain ⟨dirty, events, rfl, hmem, hid⟩ := UnitOfWork.dirtyFor_eq_some hx
    have hany : dirty.any (fun x => x.loaded.id = id) = true :=
      List.any_eq_true.mpr ⟨x, hmem, decide_eq_true hid⟩
    rw [Concerns, hany, Bool.true_or] at h
    exact absurd h (by simp)

/-- A deployment and its timeline are the same in two databases. -/
structure SameDetail (db db' : Db) (id : Uuid) : Prop where
  row : db'.deployments.get? id = db.deployments.get? id
  events : (db'.deploymentEvents.select fun e => e.deploymentId = id) =
    db.deploymentEvents.select fun e => e.deploymentId = id

/-- An update that does not concern a deployment leaves it as it is, with its timeline. -/
theorem sameDetail_of_concerns {db : Db} {u : UnitOfWork} {id : Uuid}
    (hheld : (∃ dirty events, u = .updateDeployments dirty events) ∧
      ∀ x, u.Records x → ∃ d name message actor, x = recordEvent d name message actor)
    (hconcerns : Concerns u id = false)
    (hrow : u.dirtyFor id = none →
      (db.write u).deployments.get? id = db.deployments.get? id) :
    SameDetail db (db.write u) id := by
  refine ⟨hrow (dirtyFor_of_concerns hconcerns), ?_⟩
  obtain ⟨⟨dirty, events, rfl⟩, hrecords⟩ := hheld
  refine Table.select_insertAll fun x hx n => ?_
  obtain ⟨d, name, message, actor, rfl⟩ := hrecords x hx
  obtain ⟨-, hevents⟩ := Bool.or_eq_false_iff.mp hconcerns
  have hne := List.any_eq_false.mp hevents _ hx
  exact decide_eq_false fun hid => hne (decide_eq_true hid)

/-- A commit leaves a deployment as it is, with its timeline, unless it retries it or rolls it back,
or is that of a worker or of a reaper and concerns it. -/
theorem sameDetail_write {db : Db} {w : Writer} {u : UnitOfWork} {d : Deployment}
    (hd : db.deployments.get? d.id = some d) (hheld : Held lower w u)
    (hretries : w.retries d.id = false) (hrolls : w.rollsBack d.id = false)
    (hconcerns : w.isApi = false → Concerns u d.id = false) : SameDetail db (db.write u) d.id := by
  have hrow : u.dirtyFor d.id = none →
      (db.write u).deployments.get? d.id = db.deployments.get? d.id := by
    intro hnone
    rw [Db.get?_deployments_write u hd, UnitOfWork.onDeployment_of_dirtyFor hnone, hd]
  cases w with
  | api call =>
    obtain ⟨db₀, hreturns⟩ := hheld
    have hnone : u.dirtyFor d.id = none := by
      cases hx : u.dirtyFor d.id with
      | none => rfl
      | some x =>
        cases hreturns.callUpdate hx with
        | retry actorId hd hs => exact absurd hretries (by simp [Writer.retries])
        | rollback actorId hd hs ht => exact absurd hrolls (by simp [Writer.rollsBack])
    refine ⟨hrow hnone, ?_⟩
    rcases hreturns.deploymentWrite with hleaves | hwrite
    · rw [(UnitOfWork.write_of_not_writesDeployments hleaves db).2.1]
    · cases hwrite with
      | @request actorId correlationId data deployment event hr hevent =>
        -- The entry is for the deployment that is inserted, which is a new one.
        have hne : db.deployments.next ≠ d.id :=
          (Table.key_lt_next (Table.get?_eq_some.mp hd).1).ne'
        show (db.deploymentEvents.insert (event db.deployments.next)).select _ = _
        rw [Table.select_insert, hevent]
        simp [recordEvent, deployment.2, hne]
      | @update _ id x name message actor hupdate hevent =>
        have hid : x.loaded.id ≠ d.id := by
          intro hsame
          rw [UnitOfWork.dirtyFor_single, if_pos hsame] at hnone
          exact absurd hnone (by simp)
        refine Table.select_insertAll fun y hy n => ?_
        obtain rfl := List.mem_singleton.mp hy
        simp [recordEvent, hupdate.loaded.2.2, hid]
  | worker => exact sameDetail_of_concerns hheld (hconcerns rfl) hrow
  | reaper => exact sameDetail_of_concerns hheld (hconcerns rfl) hrow

/-- A step leaves a deployment that is not in flight as it is, with its timeline, unless it reopens
it. -/
theorem sameDetail_of_step {ok : State → ℕ × Action → Prop} {p p' : State}
    (hp : Reach (MlopsPlatform.step lower) ok .init p) {x : ℕ × Action}
    (h : MlopsPlatform.step lower p x = some p') {d : Deployment}
    (hd : p.shared.deployments.get? d.id = some d) (hsettled : d.inFlight = false)
    (hreopens : reopens lower d.id (p, x) = false) : SameDetail p.shared p'.shared d.id := by
  obtain ⟨i, a⟩ := x
  rcases step_cases h with ⟨l, -, -, rfl⟩ | ⟨w, u, l, hwritten, -, rfl⟩
  · exact ⟨rfl, rfl⟩
  · have hcom : committed lower p.shared (p.locals i) a = some (w, u) :=
      (Option.filter_eq_some_iff.mp hwritten).1
    simp only [reopens, retries, rollsBack, lateCommit, hwritten, Option.any_some, hd, hsettled,
      Bool.not_false, Bool.and_true, Bool.or_eq_false_iff] at hreopens
    obtain ⟨⟨hretries, hrolls⟩, hlate⟩ := hreopens
    refine sameDetail_write hd (held_of_committed hp hcom) hretries hrolls fun hw => ?_
    rwa [hw, Bool.not_false, Bool.true_and] at hlate

end

/-! ## What a response tells -/

/-- The deployment is stored as it is shown. -/
def IsStored (d : Deployment) (db : Db) : Prop := db.deployments.get? d.id = some d

/-- The deployment is stored as it is shown, with this timeline. -/
def IsTold (x : DeploymentDetail) (db : Db) : Prop := detailOf db x.deployment.id = .ok x

/-- The detail of a deployment is the stored row, with the entries of its timeline. -/
theorem detailOf_eq_ok {db : Db} {id : Uuid} {x : DeploymentDetail} :
    detailOf db id = .ok x ↔ db.deployments.get? id = some x.deployment ∧
      x.events = db.deploymentEvents.select fun e => e.deploymentId = id := by
  unfold detailOf
  cases hget : getDeployment db id with
  | error e =>
    refine iff_of_false (by simp [Except.map]) fun h => ?_
    rw [getDeployment_eq_ok.mpr h.1] at hget
    exact absurd hget (by simp)
  | ok d =>
    have hd := getDeployment_eq_ok.mp hget
    obtain rfl := (Table.get?_eq_some.mp hd).2
    rw [hd]
    constructor
    · intro h
      obtain rfl := Except.ok.inj h
      exact ⟨rfl, rfl⟩
    · rintro ⟨hrow, hevents⟩
      obtain ⟨deployment, events⟩ := x
      obtain rfl := Option.some.inj hrow
      obtain rfl := hevents
      rfl

/-- A response to a request for a deployment has its detail. -/
theorem isTold_of_detailOf {db : Db} {id : Uuid} {x : DeploymentDetail}
    (h : detailOf db id = .ok x) : IsTold x db := by
  obtain rfl := (Table.get?_eq_some.mp (detailOf_eq_ok.mp h).1).2
  exact h

/-- A deployment that a step leaves as it is goes on being stored as it is shown. -/
theorem IsStored.same {d : Deployment} {db db' : Db} (h : IsStored d db)
    (hsame : SameDetail db db' d.id) : IsStored d db' := hsame.row.trans h

/-- So does its timeline. -/
theorem IsTold.same {x : DeploymentDetail} {db db' : Db} (h : IsTold x db)
    (hsame : SameDetail db db' x.deployment.id) : IsTold x db' := by
  obtain ⟨hrow, hevents⟩ := detailOf_eq_ok.mp h
  exact detailOf_eq_ok.mpr ⟨hsame.row.trans hrow, hevents.trans hsame.events.symm⟩

/-- The deployments of a response meet one condition, and its detail another. -/
def ListResponse.Tells (P : Deployment → Prop) (Q : DeploymentDetail → Prop) :
    ListResponse → Prop
  | page items _ => ∀ d ∈ items, P d
  | detail x => Q x
  | error _ => True

/-- A response tells what follows from what it tells. -/
theorem ListResponse.Tells.mono {P P' : Deployment → Prop} {Q Q' : DeploymentDetail → Prop}
    {response : ListResponse} (h : response.Tells P Q) (hP : ∀ d, P d → P' d)
    (hQ : ∀ x, Q x → Q' x) : response.Tells P' Q' := by
  cases response with
  | page items total => exact fun d hd => hP d (h d hd)
  | detail x => exact hQ x h
  | error message => trivial

/-- The deployments of a page are stored. -/
theorem mem_of_listDeployments {f : CaseFold} {db : Db} {limit offset : ℕ} {q : Option String}
    {d : Deployment} (h : d ∈ (listDeployments f db limit offset q).1) : d ∈ db.deployments := by
  unfold listDeployments at h
  split at h
  · obtain ⟨⟨e, m, v⟩, hx, rfl⟩ := List.mem_map.mp (mem_of_mem_page h)
    exact (mem_joined.mp (List.mem_of_mem_filter hx)).1
  · exact mem_of_mem_page h

section

variable {P : Deployment → Prop} {Q : DeploymentDetail → Prop} {db : Db}

/-- The response with a deployment tells what is stored. -/
theorem tells_ofDetail (hQ : ∀ x, IsTold x db → Q x) (id : Uuid) :
    (ListResponse.ofDetail (detailOf db id)).Tells P Q := by
  cases hdetail : detailOf db id with
  | error e => trivial
  | ok x => exact hQ x (isTold_of_detailOf hdetail)

/-- The answer to a request that reads tells what is stored. -/
theorem tells_serve {f : CaseFold} {request : ListRequest} {response : ListResponse}
    (hP : ∀ d, IsStored d db → P d) (hQ : ∀ x, IsTold x db → Q x)
    (h : request.serve f db = some response) : response.Tells P Q := by
  cases request with
  | list limit offset q =>
    obtain rfl := Option.some.inj h
    exact fun d hd => hP d (Table.get?_key (mem_of_listDeployments hd))
  | get id =>
    obtain rfl := Option.some.inj h
    exact tells_ofDetail hQ id
  | _ => exact absurd h (by simp [ListRequest.serve])

/-- The response to a request that writes tells what is stored. -/
theorem tells_reply (hQ : ∀ x, IsTold x db → Q x) (request : ListRequest) (ans : Answer) :
    (request.reply db ans).Tells P Q := by
  cases ans with
  | requested deployment created => exact tells_ofDetail hQ _
  | returned =>
    cases request with
    | retry id => exact tells_ofDetail hQ id
    | rollback id => exact tells_ofDetail hQ id
    | _ => trivial
  | raised e => trivial
  | integrityError => trivial

/-! ## What a step shows -/

/-- What the page shows, and what is on its way to it. -/
structure ListState.Shows (P : Deployment → Prop) (Q : DeploymentDetail → Prop)
    (s : ListState) : Prop where
  /-- The table. -/
  table : ∀ d ∈ s.page.deployments, P d
  /-- The drawer. -/
  drawer : ∀ x, s.page.detail = some x → Q x
  /-- The responses. -/
  arriving : ∀ y ∈ s.responses, y.2.Tells P Q

/-- The page shows what follows from what it shows. -/
theorem ListState.Shows.mono {P' : Deployment → Prop} {Q' : DeploymentDetail → Prop}
    {s : ListState} (h : s.Shows P Q) (hP : ∀ d, P d → P' d) (hQ : ∀ x, Q x → Q' x) :
    s.Shows P' Q' :=
  ⟨fun d hd => hP d (h.table d hd), fun x hx => hQ x (h.drawer x hx),
    fun y hy => (h.arriving y hy).mono hP hQ⟩

/-- Loading the page leaves what is shown. -/
theorem DeploymentList.loadList_shown (s : DeploymentList) (quiet : Bool) :
    (s.loadList quiet).deployments = s.deployments ∧ (s.loadList quiet).detail = s.detail := by
  cases quiet <;> exact ⟨rfl, rfl⟩

/-- A poll leaves what is shown. -/
theorem DeploymentList.poll_shown (s : DeploymentList) :
    s.poll.deployments = s.deployments ∧ s.poll.detail = s.detail := by
  have hlist : s.pollList.deployments = s.deployments ∧ s.pollList.detail = s.detail := by
    unfold pollList
    split_ifs
    · exact s.loadList_shown true
    · exact ⟨rfl, rfl⟩
  unfold poll
  dsimp only
  split
  · split_ifs
    · exact hlist
    · exact hlist
  · exact hlist

/-- An action of the user or of the clock leaves the table, and leaves the drawer or empties it. -/
theorem DeploymentList.step_shown {user : Profile} {s s' : DeploymentList} {a : ListAction}
    (h : s.step user a = some s') :
    s'.deployments = s.deployments ∧ (s'.detail = s.detail ∨ s'.detail = none) := by
  cases a with
  | poll =>
    obtain rfl := Option.some.inj h
    exact s.poll_shown.imp_right Or.inl
  | loadList =>
    obtain ⟨-, heq⟩ := Option.ite_none_right_eq_some.mp h
    obtain rfl := Option.some.inj heq
    exact (s.loadList_shown false).imp_right Or.inl
  | onSearch value =>
    obtain rfl := Option.some.inj h
    exact ⟨rfl, Or.inl rfl⟩
  | debounced =>
    obtain rfl := Option.some.inj h
    unfold debounced
    split
    · split_ifs
      · exact ⟨rfl, Or.inl rfl⟩
      · exact ⟨rfl, Or.inl rfl⟩
    · exact ⟨rfl, Or.inl rfl⟩
  | onPage pageIndex pageSize =>
    obtain ⟨-, heq⟩ := Option.ite_none_right_eq_some.mp h
    obtain rfl := Option.some.inj heq
    exact ⟨rfl, Or.inl rfl⟩
  | openDetail index =>
    obtain ⟨-, heq⟩ := Option.ite_none_right_eq_some.mp h
    obtain ⟨dep, -, rfl⟩ := Option.map_eq_some_iff.mp heq
    exact ⟨rfl, Or.inr rfl⟩
  | closeDrawer =>
    obtain rfl := Option.some.inj h
    exact ⟨rfl, Or.inl rfl⟩
  | create payload =>
    obtain ⟨-, heq⟩ := Option.ite_none_right_eq_some.mp h
    obtain rfl := Option.some.inj heq
    exact ⟨rfl, Or.inl rfl⟩
  | retry =>
    obtain ⟨d, -, rfl⟩ := Option.map_eq_some_iff.mp h
    exact ⟨rfl, Or.inl rfl⟩
  | rollback =>
    obtain ⟨d, -, rfl⟩ := Option.map_eq_some_iff.mp h
    exact ⟨rfl, Or.inl rfl⟩
  | _ => exact absurd h (by simp [step])

/-- A response that arrives leaves what is shown, or shows what it tells. -/
theorem DeploymentList.receive_shown {s : DeploymentList} (request : ListRequest)
    {response : ListResponse} (htable : ∀ d ∈ s.deployments, P d)
    (hdrawer : ∀ x, s.detail = some x → Q x) (h : response.Tells P Q) :
    (∀ d ∈ (s.receive request response).deployments, P d) ∧
      ∀ x, (s.receive request response).detail = some x → Q x := by
  cases request with
  | list limit offset q =>
    cases response with
    | page items total => exact ⟨h, hdrawer⟩
    | _ => exact ⟨htable, hdrawer⟩
  | get id =>
    cases response with
    | detail d =>
      refine ⟨htable, fun x hx => ?_⟩
      obtain rfl := Option.some.inj hx
      exact h
    | _ => exact ⟨htable, hdrawer⟩
  | create payload =>
    cases response with
    | detail d =>
      refine ⟨htable, fun x hx => ?_⟩
      obtain rfl := Option.some.inj hx
      exact h
    | _ => exact ⟨htable, hdrawer⟩
  | retry id => cases response <;> exact ⟨htable, hdrawer⟩
  | rollback id => cases response <;> exact ⟨htable, hdrawer⟩

end

namespace ListState

section

variable {lower : String → String} {user : Profile} {f : CaseFold}
variable {P : Deployment → Prop} {Q : DeploymentDetail → Prop}

/-- A response that is sent is on its way. -/
theorem Shows.reply {s : ListState} (h : s.Shows P Q) {request : ListRequest}
    {response : ListResponse} (hresponse : response.Tells P Q) :
    (s.reply request response).Shows P Q := by
  refine ⟨h.table, h.drawer, fun y hy => ?_⟩
  rcases List.mem_append.mp hy with hold | hnew
  · exact h.arriving y hold
  · rw [List.mem_singleton.mp hnew]
    exact hresponse

/-- What a session of the platform does: a step of it, and at its end perhaps a response. -/
theorem shows_proceed {s s' : ListState} {session : ℕ} {action : Action}
    (h : s.proceed lower session action = some s') :
    MlopsPlatform.step lower s.platform (session, action) = some s'.platform ∧
      (s.Shows P Q → (∀ x, IsTold x s'.platform.shared → Q x) → s'.Shows P Q) := by
  obtain ⟨p, hp, rfl⟩ := Option.map_eq_some_iff.mp h
  dsimp only
  split
  · rename_i request ans hrequest hans
    refine ⟨hp, fun hs hQ => Shows.reply ?_ (tells_reply hQ request ans)⟩
    exact ⟨hs.table, hs.drawer, hs.arriving⟩
  · split_ifs
    · exact ⟨hp, fun hs _ => ⟨hs.table, hs.drawer, hs.arriving⟩⟩
    · exact ⟨hp, fun hs _ => ⟨hs.table, hs.drawer, hs.arriving⟩⟩

/-- The platform takes a step, of which the page knows, or stays as it is. What the page shows
afterwards, it has shown, or it was stored in the last state. -/
theorem step_shown {s s' : ListState} {a : ListAction} (h : s.step lower user f a = some s') :
    (s'.platform = s.platform ∨ ∃ session action,
        MlopsPlatform.step lower s.platform (session, action) = some s'.platform ∧
        (a = .platform session action ∨ ∃ call, action = .start call)) ∧
      (s.Shows P Q → (∀ d, IsStored d s'.platform.shared → P d) →
        (∀ x, IsTold x s'.platform.shared → Q x) → s'.Shows P Q) := by
  cases a with
  | platform session action =>
    obtain ⟨hp, hshows⟩ := shows_proceed (P := P) (Q := Q) h
    exact ⟨Or.inr ⟨session, action, hp, Or.inl rfl⟩, fun hs _ hQ => hshows hs hQ⟩
  | serve index =>
    obtain ⟨request, -, h⟩ := Option.bind_eq_some_iff.mp h
    obtain ⟨response, hserve, rfl⟩ := Option.map_eq_some_iff.mp h
    refine ⟨Or.inl rfl, fun hs hP hQ => Shows.reply ?_ (tells_serve hP hQ hserve)⟩
    exact ⟨hs.table, hs.drawer, hs.arriving⟩
  | handle index session correlationId =>
    obtain ⟨request, -, h⟩ := Option.bind_eq_some_iff.mp h
    obtain ⟨call, -, h⟩ := Option.bind_eq_some_iff.mp h
    obtain ⟨hp, hshows⟩ := shows_proceed (P := P) (Q := Q) h
    refine ⟨Or.inr ⟨session, _, hp, Or.inr ⟨call, rfl⟩⟩, fun hs _ hQ => hshows ?_ hQ⟩
    exact ⟨hs.table, hs.drawer, hs.arriving⟩
  | fail index message =>
    obtain ⟨request, -, rfl⟩ := Option.map_eq_some_iff.mp h
    refine ⟨Or.inl rfl, fun hs _ _ => Shows.reply ?_ trivial⟩
    exact ⟨hs.table, hs.drawer, hs.arriving⟩
  | respond index =>
    obtain ⟨x, hx, rfl⟩ := Option.map_eq_some_iff.mp h
    refine ⟨Or.inl rfl, fun hs _ _ => ?_⟩
    obtain ⟨htable, hdrawer⟩ := DeploymentList.receive_shown x.1 hs.table hs.drawer
      (hs.arriving x (List.mem_of_getElem? hx))
    exact ⟨htable, hdrawer, fun y hy => hs.arriving y (List.mem_of_mem_eraseIdx hy)⟩
  | _ =>
    simp only [step, Option.map_eq_some_iff] at h
    obtain ⟨page, hpage, rfl⟩ := h
    obtain ⟨htable, hdrawer⟩ := DeploymentList.step_shown hpage
    refine ⟨Or.inl rfl, fun hs _ _ => ⟨fun d hd => hs.table d (htable ▸ hd), fun x hx => ?_,
      hs.arriving⟩⟩
    rcases hdrawer with hsame | hnone
    · exact hs.drawer x (hsame ▸ hx)
    · exact absurd (hnone.symm.trans hx) (by simp)

end

end ListState

/-! ## What a poll asks for -/

namespace DeploymentList

/-- A poll sends the requests for the drawer after those for the list. -/
theorem poll_requests (s : DeploymentList) :
    (∃ more, s.pollList.requests = s.requests ++ more) ∧
      ∃ more, s.poll.requests = s.pollList.requests ++ more := by
  constructor
  · unfold pollList
    split_ifs
    · exact ⟨[s.listRequest], rfl⟩
    · exact ⟨[], (List.append_nil _).symm⟩
  · unfold poll
    dsimp only
    split
    · split_ifs
      · exact ⟨[_], rfl⟩
      · exact ⟨[], (List.append_nil _).symm⟩
    · exact ⟨[], (List.append_nil _).symm⟩

/-- A poll asks for the list if something in it is in flight. -/
theorem listRequest_mem_asked {s : DeploymentList} {d : Deployment} (hd : d ∈ s.deployments)
    (hflight : isInFlight d.status = true) : s.listRequest ∈ s.asked := by
  have hany : s.deployments.any (fun d => isInFlight d.status) = true :=
    List.any_eq_true.mpr ⟨d, hd, hflight⟩
  have hlist : s.pollList.requests = s.requests ++ [s.listRequest] := by
    unfold pollList
    rw [if_pos hany]
    rfl
  obtain ⟨more, hmore⟩ := s.poll_requests.2
  rw [asked, hmore, hlist, List.append_assoc, List.drop_left]
  exact List.mem_cons_self

/-- A poll asks for the deployment in the drawer if that is in flight. -/
theorem get_mem_asked {s : DeploymentList} {x : DeploymentDetail} (hx : s.detail = some x)
    (hopen : s.drawerOpen = true) (hflight : isInFlight x.deployment.status = true) :
    .get x.deployment.id ∈ s.asked := by
  have hsame : s.pollList.detail = s.detail ∧ s.pollList.drawerOpen = s.drawerOpen := by
    unfold pollList
    split_ifs
    · exact ⟨rfl, rfl⟩
    · exact ⟨rfl, rfl⟩
  have hpoll : s.poll.requests = s.pollList.requests ++ [.get x.deployment.id] := by
    simp only [poll, hsame.1, hsame.2, hx, hopen, hflight, Bool.and_self, if_true]
    rfl
  obtain ⟨more, hmore⟩ := s.poll_requests.1
  rw [asked, hpoll, hmore, List.append_assoc, List.drop_left]
  exact List.mem_append_right _ List.mem_cons_self

end DeploymentList

/-- The console and the constraint take the same deployments for in flight. -/
theorem isInFlight_status (d : Deployment) : isInFlight d.status = d.inFlight := by
  unfold Deployment.inFlight
  cases d.status <;> rfl

/-! ## Runs -/

namespace ListState

/-- The step reopens a deployment that is not in flight. -/
def reopened (lower : String → String) (id : Uuid) (x : ListState × ListAction) : Bool :=
  match x.2 with
  | .platform session action => reopens lower id (x.1.platform, (session, action))
  | _ => false

section

variable {lower : String → String} {user : Profile} {f : CaseFold} {p : State}

/-- The reads of a call reopen nothing. -/
theorem reopens_start {q : State} {session : ℕ} {call : Call} {id : Uuid} :
    reopens lower id (q, (session, .start call)) = false := by
  simp [reopens, retries, rollsBack, lateCommit, written, committed_of_splits (.start call)]

/-- The platform runs on while the page is open. -/
theorem platform_of_reach {s : ListState}
    (h : Reach (step lower user f) (fun _ _ => True) (.opened p) s) :
    Reach (MlopsPlatform.step lower) (fun _ _ => True) p s.platform := by
  induction h with
  | refl => exact .refl
  | tail _ _ hs ih =>
    rcases (step_shown (P := fun _ => True) (Q := fun _ => True) hs).1 with hsame |
      ⟨session, action, hp, -⟩
    · rw [hsame]
      exact ih
    · exact ih.tail trivial hp

/-- A step leaves a deployment that is not in flight as it is, unless it reopens it. -/
theorem sameDetail_of_reach {s s' : ListState} {a : ListAction} {d : Deployment}
    (hp : Reach (MlopsPlatform.step lower) (fun _ _ => True) .init p)
    (hs : Reach (step lower user f) (fun _ _ => True) (.opened p) s)
    (h : s.step lower user f a = some s') (hd : IsStored d s.platform.shared)
    (hsettled : isInFlight d.status = false) (hreopened : reopened lower d.id (s, a) = false) :
    SameDetail s.platform.shared s'.platform.shared d.id := by
  rcases (step_shown (P := fun _ => True) (Q := fun _ => True) h).1 with hsame |
    ⟨session, action, hstep, ha⟩
  · rw [hsame]
    exact ⟨rfl, rfl⟩
  · have hno : reopens lower d.id (s.platform, (session, action)) = false := by
      rcases ha with rfl | ⟨call, rfl⟩
      · exact hreopened
      · exact reopens_start
    rw [isInFlight_status] at hsettled
    exact sameDetail_of_step (hp.trans (platform_of_reach hs)) hstep hd hsettled hno

/-- Whatever the page shows was stored at a state of the run. -/
theorem shows_of_trace {steps : List (ListState × ListAction)} {s : ListState}
    (h : Trace (step lower user f) (fun _ _ => True) (.opened p) steps s) :
    s.Shows
      (fun d => ∃ after, Since (step lower user f) (fun _ _ => True) (.opened p)
        (fun t => IsStored d t.platform.shared) steps s after)
      fun x => ∃ after, Since (step lower user f) (fun _ _ => True) (.opened p)
        (fun t => IsTold x t.platform.shared) steps s after := by
  induction h with
  | nil =>
    have hempty : (opened p).page.detail = none := rfl
    refine ⟨fun d hd => absurd hd List.not_mem_nil, fun x hx => ?_,
      fun y hy => absurd hy List.not_mem_nil⟩
    exact absurd (hempty.symm.trans hx) (by simp)
  | @snoc steps s s' a hr ha hs ih =>
    refine (step_shown hs).2 (ih.mono (fun d hd => ?_) fun x hx => ?_) (fun d hd => ?_) ?_
    · obtain ⟨after, hsince⟩ := hd
      exact ⟨_, hsince.snoc ha hs⟩
    · obtain ⟨after, hsince⟩ := hx
      exact ⟨_, hsince.snoc ha hs⟩
    · exact ⟨[], (hr.snoc ha hs).since hd⟩
    · exact fun x hx => ⟨[], (hr.snoc ha hs).since hx⟩

end

section

variable (lower : String → String) (user : Profile) (f : CaseFold) (p : State)

/-- What the page shows of a deployment was true at a state of the run. It is true still, or the
next poll sends a request for it, or the deployment has been reopened since. -/
def UpToDate (steps : List (ListState × ListAction)) (s : ListState) (id : Uuid) (P : Db → Prop)
    (request : ListRequest) : Prop :=
  ∃ after, Since (step lower user f) (fun _ _ => True) (.opened p)
      (fun t => P t.platform.shared) steps s after ∧
    (P s.platform.shared ∨ request ∈ s.page.asked ∨ ∃ x ∈ after, reopened lower id x = true)

end

end ListState

section

variable {lower : String → String} {user : Profile} {f : CaseFold} {p : State}

/-- What the list of deployments shows, in every run of the page beside the platform, whenever its
requests are answered or fail and its responses arrive, and whatever others do meanwhile. Each
deployment in the table, and the one in an open drawer with its timeline, was stored as it is shown
at a state of the run; and it is stored so still, or the next poll sends its request again, or a
retry, a rollback, or a late commit of a worker or of a reaper has reopened it since. A response
reads one state here; the server counts, reads the page and reads the events by statements of their
own. -/
theorem upToDate_of_trace (hp : Reach (MlopsPlatform.step lower) (fun _ _ => True) .init p)
    {steps : List (ListState × ListAction)} {s : ListState}
    (h : Trace (ListState.step lower user f) (fun _ _ => True) (.opened p) steps s) :
    (∀ d ∈ s.page.deployments,
        s.UpToDate lower user f p steps d.id (IsStored d) s.page.listRequest) ∧
      ∀ x, s.page.detail = some x → s.page.drawerOpen = true →
        s.UpToDate lower user f p steps x.deployment.id (IsTold x) (.get x.deployment.id) := by
  have hshows := ListState.shows_of_trace h
  constructor
  · intro d hd
    obtain ⟨after, hsince⟩ := hshows.table d hd
    refine ⟨after, hsince, ?_⟩
    cases hflight : isInFlight d.status with
    | true => exact Or.inr (Or.inl (DeploymentList.listRequest_mem_asked hd hflight))
    | false =>
      refine (hsince.holds_or fun s a s' hs _ hstep hstored hno => ?_).imp_right Or.inr
      exact hstored.same (ListState.sameDetail_of_reach hp hs hstep hstored hflight hno)
  · intro x hx hopen
    obtain ⟨after, hsince⟩ := hshows.drawer x hx
    refine ⟨after, hsince, ?_⟩
    cases hflight : isInFlight x.deployment.status with
    | true => exact Or.inr (Or.inl (DeploymentList.get_mem_asked hx hopen hflight))
    | false =>
      refine (hsince.holds_or fun s a s' hs _ hstep htold hno => ?_).imp_right Or.inr
      have hstored : IsStored x.deployment s.platform.shared := (detailOf_eq_ok.mp htold).1
      exact htold.same (ListState.sameDetail_of_reach hp hs hstep hstored hflight hno)

end

/-- A deployment has failed. -/
def failedDeployment : State :=
  exec (MlopsPlatform.step id) (fun _ _ => True) .init
    (registration ++ [(0, request 1 .development true)] ++ executeJob 1 "a" 10)

/-- The page reads the list, and somebody retries the deployment before the response arrives. -/
def retriedMeanwhile : List ListAction :=
  [.serve 0, .platform 5 (.call (.retryDeployment 9 1)), .respond 0]

/-- The page after it, for an engineer. -/
def retriedEnd : ListState :=
  exec (ListState.step id ⟨3, "engineer", "engineer@example.com", "Eli Engineer", .engineer⟩ .ascii)
    (fun _ _ => True) (.opened failedDeployment) retriedMeanwhile

/-- The page shows the deployment as FAILED although it is REQUESTED, and polls no more. It was
reopened. -/
theorem upToDate_of_trace_retriedMeanwhile :
    retriedEnd.page.deployments.map Deployment.status = [.failed] ∧
      retriedEnd.platform.shared.deployments.rows.map Deployment.status = [.requested] ∧
      retriedEnd.page.asked = [] ∧
      ∃ steps, Trace (ListState.step id
          ⟨3, "engineer", "engineer@example.com", "Eli Engineer", .engineer⟩ .ascii)
        (fun _ _ => True) (.opened failedDeployment) steps retriedEnd ∧
        ∃ x ∈ steps, ListState.reopened id 1 x = true := by
  have hp : Reach (MlopsPlatform.step id) (fun _ _ => True) .init failedDeployment :=
    exec_reach _ _ _ _
  have htrace := exec_trace (ListState.step id
    ⟨3, "engineer", "engineer@example.com", "Eli Engineer", .engineer⟩ .ascii) (fun _ _ => True)
    (.opened failedDeployment) retriedMeanwhile
  have hshown : retriedEnd.page.deployments.map Deployment.status = [.failed] := by decide +kernel
  have hid : retriedEnd.page.deployments.map Deployment.id = [1] := by decide +kernel
  have hstored : retriedEnd.platform.shared.deployments.rows.map Deployment.status =
      [.requested] := by decide +kernel
  have hasked : retriedEnd.page.asked = [] :=
    List.eq_nil_of_length_eq_zero (by decide +kernel)
  refine ⟨hshown, hstored, hasked, _, htrace, ?_⟩
  obtain ⟨d, hd⟩ : ∃ d, retriedEnd.page.deployments = [d] :=
    List.length_eq_one_iff.mp (by decide +kernel)
  rw [hd] at hshown hid
  have hstatus : d.status = .failed := List.singleton_inj.mp hshown
  obtain ⟨after, ⟨before, t, hsteps, -⟩, hcases⟩ :=
    (upToDate_of_trace hp htrace).1 d (by rw [← retriedEnd, hd]; exact List.mem_singleton_self d)
  rw [List.singleton_inj.mp hid] at hcases
  rcases hcases with hsame | hask | ⟨x, hx, hreopened⟩
  · -- The stored row has another status.
    have hmem := List.mem_map_of_mem (f := Deployment.status) (Table.get?_eq_some.mp hsame).1
    rw [← retriedEnd, hstored, hstatus] at hmem
    exact absurd hmem (by decide)
  · rw [← retriedEnd, hasked] at hask
    exact absurd hask List.not_mem_nil
  · exact ⟨x, hsteps ▸ List.mem_append_right before hx, hreopened⟩

end MlopsPlatform.Console
