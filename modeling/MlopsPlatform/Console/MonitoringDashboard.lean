import MlopsPlatform.Library.Transition
import MlopsPlatform.Services.MetricService

/-!
# The monitoring dashboard

`features/monitoring/monitoring-dashboard.ts` and `core/monitoring.service.ts` of the console. Each
HTTP call of the component is a request that stays outstanding until its response arrives, and
responses arrive at any time and in any order. A handler is a function on the component's signals;
what the user does and what arrives are its actions. The ids and the rows that responses carry are
those of the API.
-/

namespace MlopsPlatform.Console

/-! ## Requests -/

/-- A (version, environment) combination that has metrics, as the API sends it. -/
structure SeriesRef where
  version : String
  environment : String
  deriving DecidableEq

/-- A combination in the JSON of the API. -/
def SeriesRef.ofSeries (series : String × Environment) : SeriesRef := ⟨series.1, series.2.value⟩

/-- A request of the dashboard. -/
inductive DashboardRequest
  /-- `GET /monitoring`. -/
  | overview (limit offset : ℕ) (q : Option String)
  /-- `GET /models/{model_id}/metrics`. -/
  | modelMetrics (modelId : Uuid) (version environment : Option String)
  deriving DecidableEq

/-- `if (value)`: an empty string is left out, as a missing one is. -/
def truthy (value : Option String) : Option String := value.filter fun text => text ≠ ""

/-- `overview` of the monitoring service. -/
def overview (limit offset : ℕ) (q : Option String) : DashboardRequest :=
  .overview limit offset (truthy q)

/-- `modelMetrics` of the monitoring service. -/
def modelMetrics (modelId : Uuid) (version environment : Option String) : DashboardRequest :=
  .modelMetrics modelId (truthy version) (truthy environment)

/-- What the server sends back. -/
inductive DashboardResponse
  /-- A page of the health overview. -/
  | overview (items : List MonitoringItem) (total : ℕ)
  /-- The summary of a model. -/
  | modelMetrics (summary : MonitoringSummary)
  /-- The request failed, with the message that the console shows. -/
  | error (message : String)

/-- The response is one that the server gives to the request: a summary is that of the model whose
metrics were requested. -/
def DashboardResponse.answers (request : DashboardRequest) : DashboardResponse → Bool
  | overview _ _ =>
    match request with
    | .overview _ _ _ => true
    | _ => false
  | modelMetrics summary =>
    match request with
    | .modelMetrics modelId _ _ => summary.modelId = modelId
    | _ => false
  | error _ => true

/-- The summary that the API returns answers the request for it. -/
theorem answers_getModelMetrics {orders : MetricOrders} {db : Db} {metrics : Table Metric.id}
    {modelId : Uuid} {version : Option String} {environment : Option Environment} {points : ℕ}
    {summary : MonitoringSummary}
    (h : getModelMetrics orders db metrics modelId version environment points = .ok summary)
    (versionParam environmentParam : Option String) :
    (DashboardResponse.modelMetrics summary).answers
      (modelMetrics modelId versionParam environmentParam) = true := by
  obtain ⟨model, hmodel, hsummary⟩ := bind_eq_ok.mp h
  obtain rfl := Except.ok.inj hsummary
  have hid : model.id = modelId := by
    unfold getModel at hmodel
    split at hmodel
    · rename_i stored hstored
      rw [← Except.ok.inj hmodel]
      exact (Table.get?_eq_some.mp hstored).2
    · exact absurd hmodel (by simp)
  exact decide_eq_true hid

/-! ## The selector of versions and environments -/

/-- A stable value for a (version, environment) combo, for the selector. -/
def refKey (ref : SeriesRef) : String := s!"{ref.version}|{ref.environment}"

/-- `key.split('|')`. -/
def splitKey (key : String) : List String := (key.toList.splitOn '|').map String.ofList

/-! ## The component -/

/-- The signals of the component, its search field, and its outstanding requests. -/
structure MonitoringDashboard where
  items : List MonitoringItem
  total : ℕ
  pageIndex : ℕ
  pageSize : ℕ
  search : String
  loading : Bool
  error : Option String
  selected : Option MonitoringSummary
  selectedId : Option Uuid
  /-- What was typed since `searchInput$` was quiet for 300 ms. -/
  typed : Option String
  /-- The text that `distinctUntilChanged` let through last. -/
  emitted : Option String
  /-- The requests without a response, in the order in which they were sent. -/
  requests : List DashboardRequest

namespace MonitoringDashboard

/-- Send a request. -/
def send (s : MonitoringDashboard) (request : DashboardRequest) : MonitoringDashboard :=
  { s with requests := s.requests ++ [request] }

/-- Load the page of the overview. -/
def load (s : MonitoringDashboard) : MonitoringDashboard :=
  let s := { s with loading := true, error := none }
  s.send (Console.overview s.pageSize (s.pageIndex * s.pageSize) (some s.search))

/-- The component once it is constructed. -/
def init : MonitoringDashboard :=
  load
    { items := [], total := 0, pageIndex := 0, pageSize := 12, search := "", loading := true
      error := none, selected := none, selectedId := none, typed := none, emitted := none
      requests := [] }

/-- Select a model, and request its metrics. -/
def select (s : MonitoringDashboard) (item : MonitoringItem) : MonitoringDashboard :=
  let s := { s with selectedId := some item.modelId, selected := none }
  s.send (Console.modelMetrics item.modelId none none)

/-- The overview has arrived: auto-select the first model with data on this page. -/
def overviewArrived (s : MonitoringDashboard) (items : List MonitoringItem) (total : ℕ) :
    MonitoringDashboard :=
  let s := { s with items, total, loading := false }
  match (items.find? fun i => i.latest.isSome).or items.head? with
  | some first => s.select first
  | none => { s with selected := none }

/-- Type into the search field. -/
def onSearch (s : MonitoringDashboard) (value : String) : MonitoringDashboard :=
  { s with typed := some value }

/-- The search field has been quiet for 300 ms: search, unless the text is the last one again. -/
def debounced (s : MonitoringDashboard) : MonitoringDashboard :=
  match s.typed with
  | some q =>
    if s.emitted = some q then { s with typed := none }
    else load { s with typed := none, emitted := some q, search := q, pageIndex := 0 }
  | none => s

/-- Go to another page. -/
def onPage (s : MonitoringDashboard) (pageIndex pageSize : ℕ) : MonitoringDashboard :=
  load { s with pageIndex, pageSize }

/-- The value that the selector shows. -/
def currentKey (s : MonitoringDashboard) : String :=
  match s.selected with
  | some summary =>
    match truthy summary.version, summary.environment with
    | some version, some environment => refKey ⟨version, environment.value⟩
    | _, _ => ""
  | none => ""

/-- Choose a combination. -/
def changeCombo (s : MonitoringDashboard) (key : String) : MonitoringDashboard :=
  match s.selectedId with
  | some id =>
    let parts := splitKey key
    s.send (Console.modelMetrics id parts[0]? parts[1]?)
  | none => s

/-- A response to a request has arrived. Nothing is subscribed to the errors of `modelMetrics`. -/
def receive (s : MonitoringDashboard) (request : DashboardRequest) :
    DashboardResponse → MonitoringDashboard
  | .overview items total => s.overviewArrived items total
  | .modelMetrics summary => { s with selected := some summary }
  | .error message =>
    match request with
    | .overview _ _ _ => { s with error := some message, loading := false }
    | .modelMetrics _ _ _ => s

end MonitoringDashboard

/-- What happens to the dashboard. -/
inductive DashboardAction
  | load
  | select (item : MonitoringItem)
  | changeCombo (key : String)
  | onSearch (value : String)
  | debounced
  | onPage (pageIndex pageSize : ℕ)
  /-- The response to an outstanding request arrives. -/
  | respond (index : ℕ) (response : DashboardResponse)

namespace MonitoringDashboard

/-- One action. A response arrives for a request that is outstanding, and is one that the server
gives to it. -/
def step (s : MonitoringDashboard) : DashboardAction → Option MonitoringDashboard
  | .load => some s.load
  | .select item => some (s.select item)
  | .changeCombo key => some (s.changeCombo key)
  | .onSearch value => some (s.onSearch value)
  | .debounced => some s.debounced
  | .onPage pageIndex pageSize => some (s.onPage pageIndex pageSize)
  | .respond index response =>
    match s.requests[index]? with
    | some request =>
      if response.answers request then
        some (receive { s with requests := s.requests.eraseIdx index } request response)
      else none
    | none => none

end MonitoringDashboard

end MlopsPlatform.Console
