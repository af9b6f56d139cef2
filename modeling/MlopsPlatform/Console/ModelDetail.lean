import MlopsPlatform.Library.Transition
import MlopsPlatform.Services.ModelService

/-!
# The page of a model

`features/models/model-detail.ts` and the part of `core/registry.service.ts` that it calls: the
versions of a model, the drawer with the history of one of them, and the actions on versions. As in
the dashboard, each HTTP call is a request that stays outstanding until its response arrives.
Requesting a deployment leads away from the page and is left out.
-/

namespace MlopsPlatform.Console

/-- A request of the page, under the path of its model. -/
inductive DetailRequest
  | getModel
  | listVersions (limit offset : ℕ)
  | listVersionEvents (versionId : Uuid) (limit offset : ℕ)
  | createVersion
  | approveVersion (versionId : Uuid)
  | promoteVersion (versionId : Uuid) (targetStage : LifecycleStage)
  deriving DecidableEq

/-- What the server sends back. -/
inductive DetailResponse
  | model (model : Model)
  | versions (items : List ModelVersion) (total : ℕ)
  | events (items : List ModelVersionEvent) (total : ℕ)
  /-- An action on a version is done. -/
  | done
  /-- The request failed, with the message that the console shows. -/
  | error (message : String)

/-- The response is one that the server gives to the request: a page of events is about the version
whose events were requested. -/
def DetailResponse.answers (request : DetailRequest) : DetailResponse → Bool
  | model _ =>
    match request with
    | .getModel => true
    | _ => false
  | versions _ _ =>
    match request with
    | .listVersions _ _ => true
    | _ => false
  | events items _ =>
    match request with
    | .listVersionEvents versionId _ _ => items.all fun e => e.modelVersionId = versionId
    | _ => false
  | done =>
    match request with
    | .createVersion => true
    | .approveVersion _ => true
    | .promoteVersion _ _ => true
    | _ => false
  | error _ => true

/-- The events that the API lists answer the request for them. -/
theorem answers_listVersionEvents {db : Db} {versionId : Uuid} {limit offset : ℕ}
    {p : List ModelVersionEvent × ℕ} (h : listVersionEvents db versionId limit offset = .ok p) :
    (DetailResponse.events p.1 p.2).answers (.listVersionEvents versionId limit offset) = true :=
  List.all_eq_true.mpr fun e he => decide_eq_true ((listVersionEvents_eq_ok h).2 e he)

/-- The signals of the component, and its outstanding requests. -/
structure ModelDetail where
  model : Option Model
  versions : List ModelVersion
  total : ℕ
  pageIndex : ℕ
  pageSize : ℕ
  loading : Bool
  error : Option String
  historyVersion : Option ModelVersion
  historyEvents : List ModelVersionEvent
  drawerOpen : Bool
  /-- The requests without a response, in the order in which they were sent. -/
  requests : List DetailRequest

namespace ModelDetail

/-- Send a request. -/
def send (s : ModelDetail) (request : DetailRequest) : ModelDetail :=
  { s with requests := s.requests ++ [request] }

/-- Load the model, and then its versions. -/
def load (s : ModelDetail) : ModelDetail :=
  let s := { s with loading := true, error := none }
  s.send .getModel

/-- The component once it is constructed. -/
def init : ModelDetail :=
  load
    { model := none, versions := [], total := 0, pageIndex := 0, pageSize := 10, loading := true
      error := none, historyVersion := none, historyEvents := [], drawerOpen := false
      requests := [] }

/-- Load the page of versions. -/
def loadVersions (s : ModelDetail) : ModelDetail :=
  s.send (.listVersions s.pageSize (s.pageIndex * s.pageSize))

/-- Open the drawer with the history of a version, and request its events. -/
def openHistory (s : ModelDetail) (version : ModelVersion) : ModelDetail :=
  let s := { s with historyVersion := some version, historyEvents := [], drawerOpen := true }
  s.send (.listVersionEvents version.id 100 0)

/-- Close the drawer. -/
def closeDrawer (s : ModelDetail) : ModelDetail := { s with drawerOpen := false }

/-- Go to another page. -/
def onPage (s : ModelDetail) (pageIndex pageSize : ℕ) : ModelDetail :=
  loadVersions { s with pageIndex, pageSize }

/-- Register a version. -/
def addVersion (s : ModelDetail) : ModelDetail := s.send .createVersion

/-- Approve a version. -/
def approve (s : ModelDetail) (version : ModelVersion) : ModelDetail :=
  s.send (.approveVersion version.id)

/-- Promote a version. -/
def promote (s : ModelDetail) (version : ModelVersion) (target : LifecycleStage) : ModelDetail :=
  s.send (.promoteVersion version.id target)

/-- An action is done: load the versions, and refresh the open history drawer so the new transition
shows up. -/
def afterAction (s : ModelDetail) : ModelDetail :=
  let s := s.loadVersions
  match s.drawerOpen, s.historyVersion with
  | true, some v => s.send (.listVersionEvents v.id 100 0)
  | _, _ => s

/-- A request has failed. Nothing is subscribed to the errors of `listVersionEvents`, and the other
actions show theirs in a snack bar. -/
def failed (s : ModelDetail) (message : String) : DetailRequest → ModelDetail
  | .getModel => { s with error := some message, loading := false }
  | .listVersions _ _ => { s with error := some message, loading := false }
  | _ => s

/-- A response to a request has arrived. -/
def receive (s : ModelDetail) (request : DetailRequest) : DetailResponse → ModelDetail
  | .model model => loadVersions { s with model := some model }
  | .versions items total => { s with versions := items, total, loading := false }
  | .events items _ => { s with historyEvents := items }
  | .done =>
    match request with
    | .createVersion => afterAction { s with pageIndex := 0 }
    | _ => s.afterAction
  | .error message => s.failed message request

end ModelDetail

/-- What happens to the page. -/
inductive DetailAction
  | load
  | onPage (pageIndex pageSize : ℕ)
  | openHistory (version : ModelVersion)
  | closeDrawer
  | addVersion
  | approve (version : ModelVersion)
  | promote (version : ModelVersion) (target : LifecycleStage)
  /-- The response to an outstanding request arrives. -/
  | respond (index : ℕ) (response : DetailResponse)

namespace ModelDetail

/-- One action. A response arrives for a request that is outstanding, and is one that the server
gives to it. -/
def step (s : ModelDetail) : DetailAction → Option ModelDetail
  | .load => some s.load
  | .onPage pageIndex pageSize => some (s.onPage pageIndex pageSize)
  | .openHistory version => some (s.openHistory version)
  | .closeDrawer => some s.closeDrawer
  | .addVersion => some s.addVersion
  | .approve version => some (s.approve version)
  | .promote version target => some (s.promote version target)
  | .respond index response =>
    match s.requests[index]? with
    | some request =>
      if response.answers request then
        some (receive { s with requests := s.requests.eraseIdx index } request response)
      else none
    | none => none

end ModelDetail

end MlopsPlatform.Console
