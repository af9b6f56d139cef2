import MlopsPlatform.Console.MonitoringDashboard
import MlopsPlatform.Console.Offers
import MlopsPlatform.Requests.Listings

/-!
# The list of models

`features/models/model-list.ts` and `features/models/model-form-dialog.ts`: a page of the registry,
a search, and the dialog that registers a model. The page runs beside the platform. A request for a
page is answered from the database as it is at some time after it was sent, a model that is
submitted is registered by a session of the platform, and others register models meanwhile.

Models are listed newest first and stay as they are. So whatever the table shows is a page of the
registry, moved by as many rows as have been registered since it was read. It is the page that the
search field and the paginator say, if responses arrive in the order of their requests: nothing
cancels a request that another one replaces. `listed_of_trace` says both, and that the page shows a
model that its user has registered.
-/

namespace MlopsPlatform.Console

open Transition
open Like (CaseFold)

/-! ## The component -/

/-- The form of the dialog. A control that is empty has no value. -/
structure ModelForm where
  name : String
  owner : String
  framework : Option Framework

/-- The body of `POST /models` that the dialog closes with, if the form is valid. -/
def ModelForm.submit (form : ModelForm) : Option ModelCreate :=
  match form.framework with
  | some framework =>
    if form.name = "" ∨ form.owner = "" then none
    else some { name := form.name, owner := form.owner, framework }
  | none => none

/-- `GET /models`. -/
structure PageRequest where
  limit : ℕ
  offset : ℕ
  q : Option String

/-- What the server sends back. -/
inductive PageResponse
  | page (items : List Model) (total : ℕ)
  /-- The request failed, with the message that the console shows. -/
  | error (message : String)

/-- What it sends back for `POST /models`. -/
inductive CreationResponse
  | created (model : Model)
  | error (message : String)

/-- The signals of the component, its search field, and its requests. -/
structure ModelList where
  models : List Model
  total : ℕ
  pageIndex : ℕ
  pageSize : ℕ
  search : String
  loading : Bool
  error : Option String
  /-- What was typed since `searchInput$` was quiet for 300 ms. -/
  typed : Option String
  /-- The text that `distinctUntilChanged` let through last. -/
  emitted : Option String
  /-- The requests for pages whose responses have not arrived, in the order in which they were sent,
  with the responses that are on their way. -/
  loads : List (PageRequest × Option PageResponse)
  /-- The models that were submitted, and that no session handles yet. -/
  creations : List ModelCreate

namespace ModelList

/-- The request for the page that is shown. -/
def request (s : ModelList) : PageRequest :=
  ⟨s.pageSize, s.pageIndex * s.pageSize, truthy (some s.search)⟩

/-- Load the page. -/
def load (s : ModelList) : ModelList :=
  { s with loading := true, error := none, loads := s.loads ++ [(s.request, none)] }

/-- The component once it is constructed. -/
def init : ModelList :=
  load
    { models := [], total := 0, pageIndex := 0, pageSize := 20, search := "", loading := true
      error := none, typed := none, emitted := none, loads := [], creations := [] }

/-- Type into the search field. -/
def onSearch (s : ModelList) (value : String) : ModelList := { s with typed := some value }

/-- The search field has been quiet for 300 ms: search, unless the text is the last one again. -/
def debounced (s : ModelList) : ModelList :=
  match s.typed with
  | some q =>
    if s.emitted = some q then { s with typed := none }
    else load { s with typed := none, emitted := some q, search := q, pageIndex := 0 }
  | none => s

/-- Go to another page. -/
def onPage (s : ModelList) (pageIndex pageSize : ℕ) : ModelList :=
  load { s with pageIndex, pageSize }

/-- The dialog is closed with a model. -/
def createModel (s : ModelList) (payload : ModelCreate) : ModelList :=
  { s with creations := s.creations ++ [payload] }

/-- A page has arrived. -/
def receive (s : ModelList) : PageResponse → ModelList
  | .page items total => { s with models := items, total, loading := false }
  | .error message => { s with error := some message, loading := false }

/-- The response to a submitted model has arrived. An error is shown for a while. -/
def created (s : ModelList) : CreationResponse → ModelList
  | .created _ => load { s with pageIndex := 0 }
  | .error _ => s

/-- The paginator is shown. -/
def showsPaginator (s : ModelList) : Bool := !s.loading && s.error.isNone && 0 < s.total

end ModelList

/-- `canCreate`. -/
def canCreate (user : Option Profile) : Bool := hasRole user [.engineer]

/-! ## The page beside the platform -/

/-- The answer to a request for a page. -/
def PageRequest.serve (f : CaseFold) (db : Db) (r : PageRequest) : PageResponse :=
  let (items, total) := listModels f db r.limit r.offset r.q
  .page items total

/-- The response to a submitted model, once its call has answered: the row that was inserted, which
the service refreshes. -/
def CreationResponse.ofAnswer (db db' : Db) : Answer → CreationResponse
  | .returned =>
    match db'.models.get? db.models.next with
    | some model => .created model
    | none => .error "Something went wrong"
  | .raised e => .error (Api.domainErrorMessage e)
  | _ => .error "Something went wrong"

/-- The platform, the page, the sessions that handle a submitted model, and the responses to these
that are on their way. -/
structure ModelListState where
  platform : State
  page : ModelList
  handling : ℕ → Bool
  replies : List CreationResponse

/-- What happens while the page is open. -/
inductive ModelListAction
  /-- A session of the platform takes a step. -/
  | platform (session : ℕ) (action : Action)
  /-- The button that loads the page again after an error. -/
  | load
  | onSearch (value : String)
  | debounced
  | onPage (pageIndex pageSize : ℕ)
  /-- The dialog is submitted. -/
  | createModel (form : ModelForm)
  /-- The server answers a request for a page. -/
  | serve (index : ℕ)
  /-- A request for a page fails, or its response is lost. -/
  | failLoad (index : ℕ) (message : String)
  /-- The response to a request for a page arrives. -/
  | arrive (index : ℕ)
  /-- A session starts to register a submitted model. -/
  | handle (index session : ℕ)
  /-- A submitted model never reaches the server. -/
  | failCreation (index : ℕ) (message : String)
  /-- The response to a submitted model is lost. -/
  | loseReply (index : ℕ) (message : String)
  /-- The response to a submitted model arrives. -/
  | arriveCreation (index : ℕ)

/-- The page after an action of the user or of the clock. -/
def ModelList.step (user : Profile) (s : ModelList) : ModelListAction → Option ModelList
  | .load => if s.error.isSome && !s.loading then some s.load else none
  | .onSearch value => some (s.onSearch value)
  | .debounced => some s.debounced
  | .onPage pageIndex pageSize =>
    if s.showsPaginator then some (s.onPage pageIndex pageSize) else none
  | .createModel form => if canCreate (some user) then form.submit.map s.createModel else none
  | _ => none

namespace ModelListState

/-- The page is opened. -/
def opened (platform : State) : ModelListState := ⟨platform, .init, fun _ => false, []⟩

/-- The page waits for other responses. -/
def withLoads (s : ModelListState) (loads : List (PageRequest × Option PageResponse)) :
    ModelListState :=
  { s with page := { s.page with loads } }

section

variable (lower : String → String) (user : Profile) (f : CaseFold)

/-- A session of the platform takes a step. If it registers a submitted model, the answer of its
call is the response, and if it dies there is none. -/
def proceed (s : ModelListState) (session : ℕ) (action : Action) : Option ModelListState :=
  (MlopsPlatform.step lower s.platform (session, action)).map fun p =>
    let done := { s with platform := p, handling := Function.update s.handling session false }
    match s.handling session, answer lower s.platform (session, action) with
    | true, some ans =>
      { done with replies := s.replies ++ [.ofAnswer s.platform.shared p.shared ans] }
    | _, _ => if (p.locals session).isIdle then done else { s with platform := p }

/-- One step of the platform, the server, the network, the clock, or the user. -/
def step (s : ModelListState) : ModelListAction → Option ModelListState
  | .platform session action => s.proceed lower session action
  | .serve index =>
    (s.page.loads[index]?.filter fun x => x.2.isNone).map fun x =>
      s.withLoads (s.page.loads.set index (x.1, some (x.1.serve f s.platform.shared)))
  | .failLoad index message =>
    s.page.loads[index]?.map fun x =>
      s.withLoads (s.page.loads.set index (x.1, some (.error message)))
  | .arrive index =>
    s.page.loads[index]?.bind fun x => x.2.map fun response =>
      { s with page := { s.page with loads := s.page.loads.eraseIdx index }.receive response }
  | .handle index session =>
    s.page.creations[index]?.bind fun payload =>
      proceed lower
        { s with
          page := { s.page with creations := s.page.creations.eraseIdx index }
          handling := Function.update s.handling session true }
        session (.start (.createModel user.id payload))
  | .failCreation index message =>
    s.page.creations[index]?.map fun _ =>
      { s with
        page := { s.page with creations := s.page.creations.eraseIdx index }
        replies := s.replies ++ [.error message] }
  | .loseReply index message =>
    s.replies[index]?.map fun _ => { s with replies := s.replies.set index (.error message) }
  | .arriveCreation index =>
    s.replies[index]?.map fun response =>
      { s with page := s.page.created response, replies := s.replies.eraseIdx index }
  | a => (s.page.step user a).map fun page => { s with page }

end

/-- The model whose registration a step tells the page of. -/
def told (x : ModelListState × ModelListAction) : Option Model :=
  match x.2 with
  | .arriveCreation index =>
    match x.1.replies[index]? with
    | some (.created model) => some model
    | _ => none
  | _ => none

end ModelListState

/-- A response to a request for a page does not arrive before those to earlier ones. -/
def ModelListAction.inOrder : ModelListAction → Bool
  | .arrive index => index = 0
  | _ => true

/-! ## What a page is -/

/-- The models that a search lists, newest first. -/
def listed (f : CaseFold) (db : Db) (q : Option String) : List Model :=
  (db.models.select (searched f q)).reverse

/-- A page is that of the registry, moved by the models that have been registered since. -/
def ShowsPage (f : CaseFold) (db : Db) (r : PageRequest) (items : List Model) (total : ℕ) : Prop :=
  ∃ new, total + new = (listed f db r.q).length ∧
    items = ((listed f db r.q).drop (r.offset + new)).take r.limit

/-- A page was read when the registry had these models, and no others before them. -/
def WasRead (f : CaseFold) (db : Db) (P : Model → Prop) (r : PageRequest) (items : List Model)
    (total : ℕ) : Prop :=
  ∃ rows, rows <+: db.models.rows ∧ (∀ m, P m → m ∈ rows) ∧
    (items, total) = page (rows.filter (searched f r.q)) r.limit r.offset

section

variable {f : CaseFold} {db : Db} {P : Model → Prop} {r : PageRequest} {items : List Model}
variable {total : ℕ}

/-- What was read goes on having been read. -/
theorem WasRead.mono {db' : Db} {P' : Model → Prop} (h : WasRead f db P r items total)
    (hdb : db.models.rows <+: db'.models.rows) (hP : ∀ m, P' m → P m) :
    WasRead f db' P' r items total := by
  obtain ⟨rows, hrows, hmem, hpage⟩ := h
  exact ⟨rows, hrows.trans hdb, fun m hm => hmem m (hP m hm), hpage⟩

/-- What is read now. -/
theorem wasRead_listModels (hP : ∀ m, P m → m ∈ db.models.rows)
    (h : (items, total) = listModels f db r.limit r.offset r.q) : WasRead f db P r items total :=
  ⟨db.models.rows, List.prefix_rfl, hP, h.trans (listModels_eq f db r.limit r.offset r.q)⟩

/-- An empty table is a page of the empty registry. -/
theorem wasRead_empty (f : CaseFold) (db : Db) (r : PageRequest) :
    WasRead f db (fun _ => False) r [] 0 := by
  refine ⟨[], List.nil_prefix, fun m hm => hm.elim, ?_⟩
  rw [page, List.filter_nil, List.reverse_nil, List.drop_nil, List.take_nil]
  rfl

/-- A page that was read is one of the registry still, but for the models that have been registered
since. -/
theorem WasRead.showsPage (h : WasRead f db P r items total) : ShowsPage f db r items total := by
  obtain ⟨rows, hrows, -, hpage⟩ := h
  obtain ⟨rfl, rfl⟩ := Prod.mk.inj hpage
  have hgrown : (rows.filter (searched f r.q)).reverse <:+ listed f db r.q :=
    List.reverse_suffix.mpr (hrows.filter _)
  obtain ⟨new, hlength, htake⟩ := Paging.exists_shift_of_suffix hgrown r.offset r.limit
  rw [List.length_reverse] at hlength
  exact ⟨new, hlength, htake⟩

/-- A model that the search lists is on the first page, or that page is full of newer ones. -/
theorem WasRead.mem_or (h : WasRead f db P r items total) (hoffset : r.offset = 0) {m : Model}
    (hm : P m) (hlists : searched f r.q m = true) :
    m ∈ items ∨ (items.length = r.limit ∧ ∀ m' ∈ items, m.id < m'.id) := by
  obtain ⟨rows, hrows, hP, hpage⟩ := h
  obtain ⟨rfl, -⟩ := Prod.mk.inj hpage
  rw [hoffset, List.drop_zero]
  have hsorted : (rows.filter (searched f r.q)).reverse.Pairwise fun a b => b.id < a.id :=
    List.pairwise_reverse.mpr ((db.models.sorted.sublist hrows.sublist).filter _)
  refine Paging.mem_take_or hsorted (List.mem_reverse.mpr ?_) r.limit
  exact List.mem_filter.mpr ⟨hP m hm, hlists⟩

end

/-! ## What a step does -/

/-- The table, what it should show, and the requests for pages stay as they are. -/
structure ModelList.Keeps (s s' : ModelList) : Prop where
  loads : s'.loads = s.loads
  request : s'.request = s.request
  models : s'.models = s.models
  total : s'.total = s.total
  error : s'.error = s.error

/-- A page is requested, and the table stays as it is. -/
structure ModelList.Loads (s s' : ModelList) : Prop where
  loads : s'.loads = s.loads ++ [(s'.request, none)]
  models : s'.models = s.models
  total : s'.total = s.total

/-- What the user and the clock do to the table: it is kept, or a page is requested. -/
theorem ModelList.step_cases {user : Profile} {s s' : ModelList} {a : ModelListAction}
    (h : s.step user a = some s') : s.Keeps s' ∨ s.Loads s' := by
  cases a with
  | load =>
    obtain ⟨-, heq⟩ := Option.ite_none_right_eq_some.mp h
    obtain rfl := Option.some.inj heq
    exact Or.inr ⟨rfl, rfl, rfl⟩
  | onSearch value =>
    obtain rfl := Option.some.inj h
    exact Or.inl ⟨rfl, rfl, rfl, rfl, rfl⟩
  | debounced =>
    obtain rfl := Option.some.inj h
    unfold debounced
    split
    · split_ifs
      · exact Or.inl ⟨rfl, rfl, rfl, rfl, rfl⟩
      · exact Or.inr ⟨rfl, rfl, rfl⟩
    · exact Or.inl ⟨rfl, rfl, rfl, rfl, rfl⟩
  | onPage pageIndex pageSize =>
    obtain ⟨-, heq⟩ := Option.ite_none_right_eq_some.mp h
    obtain rfl := Option.some.inj heq
    exact Or.inr ⟨rfl, rfl, rfl⟩
  | createModel form =>
    obtain ⟨-, heq⟩ := Option.ite_none_right_eq_some.mp h
    obtain ⟨payload, -, rfl⟩ := Option.map_eq_some_iff.mp heq
    exact Or.inl ⟨rfl, rfl, rfl, rfl, rfl⟩
  | _ => exact absurd h (by simp [step])

namespace ModelListState

/-- Models stay registered, and the page is told of registered ones. -/
structure Registers (s s' : ModelListState) : Prop where
  models : s.platform.shared.models.rows <+: s'.platform.shared.models.rows
  replies : ∀ m, .created m ∈ s'.replies →
    .created m ∈ s.replies ∨ m ∈ s'.platform.shared.models.rows

/-- What a step does to the table and to the requests for pages. -/
inductive Effect (f : CaseFold) (s : ModelListState) (a : ModelListAction)
    (s' : ModelListState) : Prop
  /-- Nothing. -/
  | quiet : told (s, a) = none → s.page.Keeps s'.page → Effect f s a s'
  /-- A page is requested. -/
  | load : s.page.Loads s'.page → Effect f s a s'
  /-- The request for a page is answered, or fails. -/
  | answer {index : ℕ} {r : PageRequest} {old : Option PageResponse} {response : PageResponse} :
    told (s, a) = none → s.page.loads[index]? = some (r, old) →
    (∀ items total, response = .page items total →
      (items, total) = listModels f s.platform.shared r.limit r.offset r.q) →
    s'.page = { s.page with loads := s.page.loads.set index (r, some response) } →
    Effect f s a s'
  /-- The response arrives. -/
  | arrive {index : ℕ} {r : PageRequest} {response : PageResponse} : a = .arrive index →
    s.page.loads[index]? = some (r, some response) →
    s'.page = { s.page with loads := s.page.loads.eraseIdx index }.receive response →
    Effect f s a s'

variable {lower : String → String} {user : Profile} {f : CaseFold}

/-- The platform stays as it is, and so do the responses. -/
theorem Registers.of_eq {s s' : ModelListState} (hplatform : s'.platform = s.platform)
    (hreplies : ∀ m, .created m ∈ s'.replies → .created m ∈ s.replies) : s.Registers s' := by
  refine ⟨?_, fun m hm => Or.inl (hreplies m hm)⟩
  rw [hplatform]

/-- A response to a submitted model is about one that is registered. -/
theorem mem_of_ofAnswer {db db' : Db} {ans : Answer} {m : Model}
    (h : CreationResponse.created m = .ofAnswer db db' ans) : m ∈ db'.models.rows := by
  cases ans with
  | returned =>
    unfold CreationResponse.ofAnswer at h
    dsimp only at h
    split at h
    · rename_i model hmodel
      obtain rfl := CreationResponse.created.inj h
      exact (Table.get?_eq_some.mp hmodel).1
    · exact absurd h (by simp)
  | _ => exact absurd h (by simp [CreationResponse.ofAnswer])

/-- A session of the platform leaves the page as it is. -/
theorem proceed_spec {s s' : ModelListState} {session : ℕ} {action : Action}
    (h : s.proceed lower session action = some s') : s'.page = s.page ∧ s.Registers s' := by
  obtain ⟨p, hp, rfl⟩ := Option.map_eq_some_iff.mp h
  have hreach : Reach (MlopsPlatform.step lower) (fun _ _ => True) s.platform p :=
    Reach.refl.tail trivial hp
  have hmodels : s.platform.shared.models.rows <+: p.shared.models.rows :=
    (extends_of_reach hreach).models
  dsimp only
  split
  · refine ⟨rfl, hmodels, fun m hm => ?_⟩
    exact (List.mem_append.mp hm).imp_right fun hnew => mem_of_ofAnswer (List.mem_singleton.mp hnew)
  · split_ifs
    · exact ⟨rfl, hmodels, fun m hm => Or.inl hm⟩
    · exact ⟨rfl, hmodels, fun m hm => Or.inl hm⟩

/-- The page is told by a response that is on its way. -/
theorem mem_of_told {s : ModelListState} {a : ModelListAction} {m : Model}
    (h : told (s, a) = some m) : .created m ∈ s.replies := by
  unfold told at h
  split at h
  · split at h
    · rename_i model hmodel
      obtain rfl := Option.some.inj h
      exact List.mem_of_getElem? hmodel
    · exact absurd h (by simp)
  · exact absurd h (by simp)

/-- What a step does. -/
theorem step_spec {s s' : ModelListState} {a : ModelListAction}
    (h : s.step lower user f a = some s') : s.Registers s' ∧ Effect f s a s' := by
  have hkeeps : ∀ {t : ModelListState}, t.page = s.page → s.page.Keeps t.page := by
    intro t ht
    rw [ht]
    exact ⟨rfl, rfl, rfl, rfl, rfl⟩
  cases a with
  | platform session action =>
    obtain ⟨hpage, hregisters⟩ := proceed_spec h
    exact ⟨hregisters, .quiet rfl (hkeeps hpage)⟩
  | serve index =>
    obtain ⟨⟨r, old⟩, hx, rfl⟩ := Option.map_eq_some_iff.mp h
    refine ⟨.of_eq rfl fun m hm => hm, ?_⟩
    refine .answer rfl (Option.filter_eq_some_iff.mp hx).1 (fun items total hserve => ?_) rfl
    obtain ⟨rfl, rfl⟩ := PageResponse.page.inj hserve
    rfl
  | failLoad index message =>
    obtain ⟨⟨r, old⟩, hx, rfl⟩ := Option.map_eq_some_iff.mp h
    refine ⟨.of_eq rfl fun m hm => hm, ?_⟩
    exact .answer rfl hx (fun items total herror => absurd herror (by simp)) rfl
  | arrive index =>
    obtain ⟨⟨r, answered⟩, hx, h⟩ := Option.bind_eq_some_iff.mp h
    obtain ⟨response, rfl, rfl⟩ := Option.map_eq_some_iff.mp h
    exact ⟨.of_eq rfl fun m hm => hm, .arrive rfl hx rfl⟩
  | handle index session =>
    obtain ⟨payload, -, h⟩ := Option.bind_eq_some_iff.mp h
    obtain ⟨hpage, hregisters⟩ := proceed_spec h
    refine ⟨⟨hregisters.models, hregisters.replies⟩, .quiet rfl ?_⟩
    rw [hpage]
    exact ⟨rfl, rfl, rfl, rfl, rfl⟩
  | failCreation index message =>
    obtain ⟨payload, -, rfl⟩ := Option.map_eq_some_iff.mp h
    refine ⟨.of_eq rfl fun m hm => ?_, .quiet rfl ⟨rfl, rfl, rfl, rfl, rfl⟩⟩
    exact (List.mem_append.mp hm).resolve_right (by simp)
  | loseReply index message =>
    obtain ⟨reply, -, rfl⟩ := Option.map_eq_some_iff.mp h
    refine ⟨.of_eq rfl fun m hm => ?_, .quiet rfl (hkeeps rfl)⟩
    exact (List.mem_or_eq_of_mem_set hm).resolve_right (by simp)
  | arriveCreation index =>
    obtain ⟨response, hresponse, rfl⟩ := Option.map_eq_some_iff.mp h
    refine ⟨.of_eq rfl fun m hm => List.mem_of_mem_eraseIdx hm, ?_⟩
    cases response with
    | created model => exact .load ⟨rfl, rfl, rfl⟩
    | error message => exact .quiet (by simp only [told, hresponse]) (hkeeps rfl)
  | _ =>
    simp only [step, Option.map_eq_some_iff] at h
    obtain ⟨page, hpage, rfl⟩ := h
    refine ⟨.of_eq rfl fun m hm => hm, ?_⟩
    rcases ModelList.step_cases hpage with hkeep | hload
    · exact .quiet rfl hkeep
    · exact .load hload

/-! ## What the table shows -/

/-- The table shows a page that was asked for, and so will the responses. -/
structure ShowsAsked (f : CaseFold) (asked : PageRequest → Prop) (s : ModelListState) : Prop where
  shown : ∃ r, asked r ∧
    WasRead f s.platform.shared (fun _ => False) r s.page.models s.page.total
  answered : ∀ x ∈ s.page.loads, asked x.1 ∧ ∀ items total, x.2 = some (.page items total) →
    WasRead f s.platform.shared (fun _ => False) x.1 items total

/-- A step goes on so, if what it requests was asked for. -/
theorem ShowsAsked.step {asked asked' : PageRequest → Prop} {s s' : ModelListState}
    {a : ModelListAction} (hs : s.ShowsAsked f asked) (h : s.step lower user f a = some s')
    (hasked : ∀ r, asked r → asked' r) (hrequest : asked' s'.page.request) :
    s'.ShowsAsked f asked' := by
  obtain ⟨hregisters, heffect⟩ := step_spec h
  -- What has been read so far.
  have hshown : ∃ r, asked' r ∧
      WasRead f s'.platform.shared (fun _ => False) r s.page.models s.page.total := by
    obtain ⟨r, hr, hread⟩ := hs.shown
    exact ⟨r, hasked r hr, hread.mono hregisters.models fun _ hm => hm⟩
  have hanswered : ∀ x ∈ s.page.loads, asked' x.1 ∧ ∀ items total,
      x.2 = some (.page items total) →
        WasRead f s'.platform.shared (fun _ => False) x.1 items total := fun x hx =>
    ⟨hasked x.1 (hs.answered x hx).1, fun items total hpage =>
      ((hs.answered x hx).2 items total hpage).mono hregisters.models fun _ hm => hm⟩
  cases heffect with
  | quiet _ hkeep =>
    refine ⟨?_, fun x hx => hanswered x (hkeep.loads ▸ hx)⟩
    rw [hkeep.models, hkeep.total]
    exact hshown
  | load hload =>
    refine ⟨?_, fun x hx => ?_⟩
    · rw [hload.models, hload.total]
      exact hshown
    · rw [hload.loads] at hx
      rcases List.mem_append.mp hx with hold | hnew
      · exact hanswered x hold
      · obtain rfl := List.mem_singleton.mp hnew
        exact ⟨hrequest, fun items total hpage => absurd hpage (by simp)⟩
  | @answer index r old response _ hr hserve hpage =>
    refine ⟨?_, fun x hx => ?_⟩
    · rw [hpage]
      exact hshown
    · rw [hpage] at hx
      rcases List.mem_or_eq_of_mem_set hx with hold | rfl
      · exact hanswered x hold
      · refine ⟨(hanswered _ (List.mem_of_getElem? hr)).1, fun items total hitems => ?_⟩
        have hread : WasRead f s.platform.shared (fun _ => False) r items total :=
          wasRead_listModels (fun m hm => hm.elim) (hserve items total (Option.some.inj hitems))
        exact hread.mono hregisters.models fun _ hm => hm
  | @arrive index r response _ hr hpage =>
    obtain ⟨hr', hread⟩ := hanswered _ (List.mem_of_getElem? hr)
    have hloads : s'.page.loads = s.page.loads.eraseIdx index := by
      rw [hpage]
      cases response <;> rfl
    refine ⟨?_, fun x hx => hanswered x (List.mem_of_mem_eraseIdx (hloads ▸ hx))⟩
    rw [hpage]
    cases response with
    | page items total => exact ⟨r, hr', hread items total rfl⟩
    | error message => exact hshown

/-- The last request for a page is for the one that should be shown. Where it is answered, and where
its answer has arrived, the page was read when the models of which the page had been told were
registered. -/
structure InTime (f : CaseFold) (P : Model → Prop) (s : ModelListState) : Prop where
  registered : ∀ m, P m → m ∈ s.platform.shared.models.rows
  replies : ∀ m, .created m ∈ s.replies → m ∈ s.platform.shared.models.rows
  last : ∀ r response, s.page.loads.getLast? = some (r, response) → r = s.page.request ∧
    ∀ items total, response = some (.page items total) →
      WasRead f s.platform.shared P r items total
  shown : s.page.loads = [] → s.page.error = none →
    WasRead f s.platform.shared P s.page.request s.page.models s.page.total

/-- A step in order goes on so. -/
theorem InTime.step {P P' : Model → Prop} {s s' : ModelListState} {a : ModelListAction}
    (hs : s.InTime f P) (horder : a.inOrder = true) (h : s.step lower user f a = some s')
    (hP : ∀ m, P' m → P m ∨ told (s, a) = some m) : s'.InTime f P' := by
  obtain ⟨hregisters, heffect⟩ := step_spec h
  have hregistered : ∀ m, P' m → m ∈ s'.platform.shared.models.rows := fun m hm =>
    hregisters.models.subset <|
      (hP m hm).elim (hs.registered m) fun htold => hs.replies m (mem_of_told htold)
  have hreplies : ∀ m, .created m ∈ s'.replies → m ∈ s'.platform.shared.models.rows := fun m hm =>
    (hregisters.replies m hm).elim (fun hold => hregisters.models.subset (hs.replies m hold)) id
  have hsame : told (s, a) = none → ∀ m, P' m → P m := fun hnone m hm =>
    (hP m hm).resolve_right (by simp [hnone])
  cases heffect with
  | quiet htold hkeep =>
    refine ⟨hregistered, hreplies, fun r response hlast => ?_, fun hnil herror => ?_⟩
    · rw [hkeep.request]
      obtain ⟨hr, hread⟩ := hs.last r response (hkeep.loads ▸ hlast)
      exact ⟨hr, fun items total hpage =>
        (hread items total hpage).mono hregisters.models (hsame htold)⟩
    · rw [hkeep.request, hkeep.models, hkeep.total]
      exact (hs.shown (hkeep.loads ▸ hnil) (hkeep.error ▸ herror)).mono hregisters.models
        (hsame htold)
  | load hload =>
    -- The new request is the last one, and it is not answered.
    refine ⟨hregistered, hreplies, fun r response hlast => ?_, fun hnil _ => ?_⟩
    · rw [hload.loads, List.getLast?_concat] at hlast
      obtain ⟨rfl, rfl⟩ := Prod.mk.inj (Option.some.inj hlast)
      exact ⟨rfl, fun items total hpage => absurd hpage (by simp)⟩
    · exact absurd (hload.loads.symm.trans hnil) (by simp)
  | @answer index r old response htold hr hserve hpage =>
    have hrequest : s'.page.request = s.page.request := by
      rw [hpage]
      rfl
    refine ⟨hregistered, hreplies, fun r' response' hlast => ?_, fun hnil _ => ?_⟩
    · rw [hrequest]
      rw [hpage, List.getLast?_eq_getElem?, List.length_set, List.getElem?_set] at hlast
      split_ifs at hlast with hindex hlength
      · -- The last request is answered from the registry as it is.
        obtain ⟨rfl, rfl⟩ := Prod.mk.inj (Option.some.inj hlast)
        have hold : s.page.loads.getLast? = some (r, old) := by
          rw [List.getLast?_eq_getElem?, ← hindex, hr]
        refine ⟨(hs.last r old hold).1, fun items total hitems => ?_⟩
        have hread : WasRead f s.platform.shared P r items total :=
          wasRead_listModels hs.registered (hserve items total (Option.some.inj hitems))
        exact hread.mono hregisters.models (hsame htold)
      · rw [← List.getLast?_eq_getElem?] at hlast
        obtain ⟨hr', hread⟩ := hs.last r' response' hlast
        exact ⟨hr', fun items total hitems =>
          (hread items total hitems).mono hregisters.models (hsame htold)⟩
    · rw [hpage] at hnil
      rw [(List.set_eq_nil_iff _ _).mp hnil] at hr
      exact absurd hr (by simp)
  | @arrive index r response ha hr hpage =>
    obtain rfl := ha
    obtain rfl : index = 0 := of_decide_eq_true horder
    obtain ⟨rest, hrest⟩ : ∃ rest, s.page.loads = (r, some response) :: rest := by
      cases hloads : s.page.loads with
      | nil => exact absurd (hloads ▸ hr) (by simp)
      | cons x rest =>
        rw [hloads] at hr
        exact ⟨rest, by rw [Option.some.inj hr]⟩
    have hpage' : s'.page.loads = rest ∧ s'.page.request = s.page.request := by
      rw [hpage, hrest]
      cases response <;> exact ⟨rfl, rfl⟩
    refine ⟨hregistered, hreplies, fun r' response' hlast => ?_, fun hnil herror => ?_⟩
    · rw [hpage'.2]
      rw [hpage'.1] at hlast
      have hold : s.page.loads.getLast? = some (r', response') := by
        rw [hrest, List.getLast?_cons, hlast]
        rfl
      obtain ⟨hr', hread⟩ := hs.last r' response' hold
      exact ⟨hr', fun items total hitems =>
        (hread items total hitems).mono hregisters.models (hsame rfl)⟩
    · rw [hpage'.1] at hnil
      have honly : s.page.loads.getLast? = some (r, some response) := by
        rw [hrest, hnil]
        rfl
      obtain ⟨hr', hread⟩ := hs.last r (some response) honly
      rw [hpage'.2, ← hr']
      rw [hpage] at herror ⊢
      cases response with
      | page items total => exact (hread items total rfl).mono hregisters.models (hsame rfl)
      | error message => exact absurd herror (by simp [ModelList.receive])

/-! ## Runs -/

/-- The page should have been shown at a state of the run. -/
def Asked (steps : List (ModelListState × ModelListAction)) (s : ModelListState)
    (r : PageRequest) : Prop :=
  r = s.page.request ∨ ∃ x ∈ steps, r = x.1.page.request

variable {p : State}

/-- The table shows a page that was asked for. -/
theorem showsAsked_of_trace {steps : List (ModelListState × ModelListAction)} {s : ModelListState}
    (h : Trace (step lower user f) (fun _ _ => True) (.opened p) steps s) :
    s.ShowsAsked f (Asked steps s) := by
  induction h with
  | nil =>
    refine ⟨⟨_, Or.inl rfl, wasRead_empty f _ _⟩, fun x hx => ?_⟩
    obtain rfl := List.mem_singleton.mp hx
    exact ⟨Or.inl rfl, fun items total hpage => absurd hpage (by simp)⟩
  | @snoc steps s s' a _ _ hs ih =>
    refine ih.step hs ?_ (Or.inl rfl)
    rintro r (rfl | ⟨x, hx, rfl⟩)
    · exact Or.inr ⟨(s, a), by simp, rfl⟩
    · exact Or.inr ⟨x, List.mem_append_left _ hx, rfl⟩

/-- In order, it will show the one that should be shown. -/
theorem inTime_of_trace {steps : List (ModelListState × ModelListAction)} {s : ModelListState}
    (h : Trace (step lower user f) (fun _ _ => True) (.opened p) steps s)
    (horder : ∀ x ∈ steps, x.2.inOrder = true) :
    s.InTime f fun m => ∃ x ∈ steps, told x = some m := by
  induction h with
  | nil =>
    refine ⟨fun m hm => ?_, fun m hm => absurd hm List.not_mem_nil, fun r response hlast => ?_,
      fun hnil => absurd hnil (by simp [opened, ModelList.init, ModelList.load])⟩
    · obtain ⟨x, hx, -⟩ := hm
      exact absurd hx List.not_mem_nil
    · obtain ⟨rfl, rfl⟩ := Prod.mk.inj (Option.some.inj hlast)
      exact ⟨rfl, fun items total hpage => absurd hpage (by simp)⟩
  | @snoc steps s s' a _ _ hs ih =>
    have hprior := ih fun x hx => horder x (List.mem_append_left _ hx)
    refine hprior.step (horder (s, a) (by simp)) hs ?_
    rintro m ⟨x, hx, htold⟩
    rcases List.mem_append.mp hx with hold | hnew
    · exact Or.inl ⟨x, hold, htold⟩
    · exact Or.inr (List.mem_singleton.mp hnew ▸ htold)

end ModelListState

section

open ModelListState

variable {lower : String → String} {user : Profile} {f : CaseFold} {p : State}

/-- What the list of models shows, in every run of the page beside the platform, whenever its
requests are answered or fail, and whatever others register meanwhile. The table shows a page that
was asked for on the way: what the registry lists there now, moved by as many models as have been
registered since it was read. If no page arrives before one that was requested earlier, then, as
soon as nothing is outstanding and nothing has failed, it is the page of the search and of the
paginator; and if that is the first one, it has every model whose registration the page was told of,
as far as the search lists it and the page is not full of newer ones. The server counts and reads a
page by two statements; here they read one state, and ids follow the order of the commits. -/
theorem listed_of_trace {steps : List (ModelListState × ModelListAction)} {s : ModelListState}
    (h : Trace (ModelListState.step lower user f) (fun _ _ => True) (.opened p) steps s) :
    (∃ r, Asked steps s r ∧ ShowsPage f s.platform.shared r s.page.models s.page.total) ∧
      ((∀ x ∈ steps, x.2.inOrder = true) → s.page.loads = [] → s.page.error = none →
        ShowsPage f s.platform.shared s.page.request s.page.models s.page.total ∧
        ∀ x ∈ steps, ∀ m, told x = some m → searched f s.page.request.q m = true →
          s.page.pageIndex = 0 →
            m ∈ s.page.models ∨
              (s.page.models.length = s.page.pageSize ∧ ∀ m' ∈ s.page.models, m.id < m'.id)) := by
  constructor
  · obtain ⟨r, hr, hread⟩ := (showsAsked_of_trace h).shown
    exact ⟨r, hr, hread.showsPage⟩
  · intro horder hnil herror
    have hread := (inTime_of_trace h horder).shown hnil herror
    refine ⟨hread.showsPage, fun x hx m htold hlists hfirst => ?_⟩
    have hoffset : s.page.request.offset = 0 := by
      show s.page.pageIndex * s.page.pageSize = 0
      rw [hfirst, Nat.zero_mul]
    exact hread.mem_or hoffset ⟨x, hx, htold⟩ hlists

end

/-- The user of the page. -/
def engineerProfile : Profile := ⟨3, "engineer", "engineer@example.com", "Eli Engineer", .engineer⟩

/-- The user registers a fan, and somebody else a belt before the response with the list arrives. -/
def fanRun : List ModelListAction :=
  [.serve 0, .arrive 0, .createModel ⟨"fan", "ops", some .keras⟩, .handle 0 4, .platform 4 .commit,
    .arriveCreation 0, .serve 0,
    .platform 5 (.call (.createModel 9 { name := "belt", owner := "ops", framework := .onnx })),
    .arrive 0]

/-- The page after it. -/
def fanEnd : ModelListState :=
  exec (ModelListState.step id engineerProfile .ascii) (fun _ _ => True) (.opened secondModel)
    fanRun

/-- The page shows the fan before the two models that were there. The belt would be in front of
it. -/
theorem listed_of_trace_fanRun :
    fanEnd.page.models.map Model.name = ["fan", "valve", "pump failure"] ∧
      ShowsPage .ascii fanEnd.platform.shared fanEnd.page.request fanEnd.page.models 3 ∧
      (listed .ascii fanEnd.platform.shared none).map Model.name =
        ["belt", "fan", "valve", "pump failure"] ∧
      ∃ m ∈ fanEnd.page.models, m.name = "fan" := by
  have htrace := exec_trace (ModelListState.step id engineerProfile .ascii) (fun _ _ => True)
    (.opened secondModel) fanRun
  have horder : (execSteps (ModelListState.step id engineerProfile .ascii) (fun _ _ => True)
      (.opened secondModel) fanRun).all (fun x => x.2.inOrder) = true := by decide +kernel
  have htold : (execSteps (ModelListState.step id engineerProfile .ascii) (fun _ _ => True)
      (.opened secondModel) fanRun).any
        (fun x => (ModelListState.told x).any fun m => m.name = "fan") = true := by decide +kernel
  have hnil : fanEnd.page.loads = [] := List.eq_nil_of_length_eq_zero (by decide +kernel)
  have herror : fanEnd.page.error = none := by decide +kernel
  have hq : fanEnd.page.request.q = none := by decide +kernel
  have hfirst : fanEnd.page.pageIndex = 0 := by decide +kernel
  have htotal : fanEnd.page.total = 3 := by decide +kernel
  have hfull : fanEnd.page.models.length ≠ fanEnd.page.pageSize := by decide +kernel
  obtain ⟨x, hx, hany⟩ := List.any_eq_true.mp htold
  obtain ⟨m, hm, hname⟩ := (Option.any_eq_true _ _).mp hany
  obtain ⟨hpage, hmodels⟩ :=
    (listed_of_trace htrace).2 (fun y hy => List.all_eq_true.mp horder y hy) hnil herror
  refine ⟨by decide +kernel, htotal ▸ hpage, by decide +kernel, m, ?_, of_decide_eq_true hname⟩
  refine (hmodels x hx m hm ?_ hfirst).resolve_right fun hnot => hfull hnot.1
  show searched .ascii fanEnd.page.request.q m = true
  rw [hq]
  rfl

/-- Out of order, the table can show what the user no longer searches for. -/
example :
    let s := exec (ModelListState.step id engineerProfile .ascii) (fun _ _ => True)
      (.opened secondModel)
      [.onSearch "pump", .debounced, .serve 0, .serve 1, .arrive 1, .arrive 0]
    s.page.search = "pump" ∧ s.page.loads.length = 0 ∧ s.page.error = none ∧
      s.page.models.map Model.name = ["valve", "pump failure"] := by
  decide +kernel

end MlopsPlatform.Console
