import MlopsPlatform.Requests.Outcome
import MlopsPlatform.Requests.VersionPaths
import MlopsPlatform.Services.Listing

/-!
# The dialog that requests a deployment

`features/deployments/deployment-form-dialog.ts`: the user searches for a model, selects it, and
selects one of its versions, or the dialog is opened from a version. The dialog runs beside the
platform. The server reads the database when it answers a request, at any time after it was sent,
and the response arrives at any time after that; a request that fails has no effect, and is one that
is never answered.

Selecting a model clears the versions that are offered, but not the request that is outstanding for
those of another one. So the dialog offers versions of the model that it shows exactly as long as no
response arrives for another model (`deploys_of_trace`); after that, the version that is submitted,
and the deployment that is created, are of a model that the dialog does not show.
-/

namespace MlopsPlatform.Console

open Transition
open Like (CaseFold)

/-! ## The dialog -/

/-- The version that a dialog is opened from. -/
structure DeployDialogData where
  modelId : Uuid
  versionId : Uuid

/-- The form. A control that is empty has no value. -/
structure DeployForm where
  modelId : Option Uuid
  modelVersionId : Option Uuid
  environment : Option Environment
  simulateFailure : Bool

/-- A request of the dialog. -/
inductive DialogRequest
  | listModels (limit offset : ℕ) (q : Option String)
  | listVersions (modelId : Uuid) (limit offset : ℕ)

/-- A page that the server sends back. -/
inductive DialogResponse
  | models (items : List Model) (total : ℕ)
  | versions (items : List ModelVersion) (total : ℕ)

/-- The signals of the component, its form, and its requests that the server has not answered. -/
structure DeploymentFormDialog where
  data : Option DeployDialogData
  models : List Model
  selectedModel : Option Model
  versions : List ModelVersion
  versionQuery : String
  form : DeployForm
  requests : List DialogRequest

namespace DeploymentFormDialog

/-- Send a request. -/
def send (s : DeploymentFormDialog) (request : DialogRequest) : DeploymentFormDialog :=
  { s with requests := s.requests ++ [request] }

/-- Search for models. -/
def searchModels (s : DeploymentFormDialog) (term : String) : DeploymentFormDialog :=
  s.send (.listModels 20 0 (if term = "" then none else some term))

/-- The dialog once it is constructed: model and version are fixed, or the models are searched for
so that the dropdown is not empty. -/
def init (data : Option DeployDialogData) : DeploymentFormDialog :=
  let s : DeploymentFormDialog :=
    { data, models := [], selectedModel := none, versions := [], versionQuery := ""
      form :=
        { modelId := none, modelVersionId := none, environment := none, simulateFailure := false }
      requests := [] }
  match data with
  | some data =>
    { s with
      form := { s.form with modelId := some data.modelId, modelVersionId := some data.versionId } }
  | none => s.searchModels ""

/-- The models to select from: the selected one stays among them. -/
def modelOptions (s : DeploymentFormDialog) : List Model :=
  match s.selectedModel with
  | some sel => if s.models.any fun m => m.id = sel.id then s.models else sel :: s.models
  | none => s.models

/-- The versions to select from. -/
def filteredVersions (toLowerCase : String → String) (s : DeploymentFormDialog) :
    List ModelVersion :=
  let q := toLowerCase s.versionQuery
  if q = "" then s.versions
  else
    s.versions.filter fun v =>
      decide (q.toList <:+: (toLowerCase s!"v{v.version} {v.stage.value}").toList)

/-- Another model is selected. -/
def onModelChange (s : DeploymentFormDialog) (modelId : Uuid) : DeploymentFormDialog :=
  let model := s.modelOptions.find? fun m => m.id = modelId
  let s :=
    { s with
      selectedModel := model, form := { s.form with modelVersionId := none }, versions := []
      versionQuery := "" }
  match model with
  | some model => s.send (.listVersions model.id 100 0)
  | none => s

/-- Search among the versions. -/
def onVersionSearch (s : DeploymentFormDialog) (term : String) : DeploymentFormDialog :=
  { s with versionQuery := term }

/-- A response has arrived. -/
def receive (s : DeploymentFormDialog) : DialogResponse → DeploymentFormDialog
  | .models items _ => { s with models := items }
  | .versions items _ => { s with versions := items }

/-- The body of `POST /deployments` that the dialog closes with, if the form is valid. -/
def submit (s : DeploymentFormDialog) : Option DeploymentCreate :=
  match s.form.modelId, s.form.modelVersionId, s.form.environment with
  | some _, some modelVersionId, some environment =>
    some
      { modelVersionId, environment, idempotencyKey := none
        simulateFailure := s.form.simulateFailure }
  | _, _, _ => none

end DeploymentFormDialog

/-- The answer of the server to a request, unless it raises. -/
def DialogRequest.serve (f : CaseFold) (db : Db) : DialogRequest → Option DialogResponse
  | listModels limit offset q =>
    let (items, total) := MlopsPlatform.listModels f db limit offset q
    some (.models items total)
  | listVersions modelId limit offset =>
    match MlopsPlatform.listVersions db modelId limit offset with
    | .ok (items, total) => some (.versions items total)
    | .error _ => none

/-! ## The dialog beside the platform -/

/-- The platform, the dialog, and the responses that are on their way, with their requests. -/
structure DialogState where
  platform : State
  dialog : DeploymentFormDialog
  responses : List (DialogRequest × DialogResponse)

/-- What happens while the dialog is open. -/
inductive DialogAction
  /-- A session of the platform takes a step. -/
  | platform (session : ℕ) (action : Action)
  | searchModels (term : String)
  /-- Another one of the models is selected. -/
  | selectModel (modelId : Uuid)
  | onVersionSearch (term : String)
  /-- One of the versions is selected. -/
  | selectVersion (versionId : Uuid)
  | selectEnvironment (environment : Environment)
  | toggleSimulateFailure
  /-- The server answers an outstanding request. -/
  | serve (index : ℕ)
  /-- A response arrives. -/
  | respond (index : ℕ)

/-- The dialog after an action of the user. The two selectors and their searches are there unless
the dialog was opened from a version. -/
def DeploymentFormDialog.step (toLowerCase : String → String) (s : DeploymentFormDialog) :
    DialogAction → Option DeploymentFormDialog
  | .searchModels term => if s.data.isNone then some (s.searchModels term) else none
  | .selectModel modelId =>
    if s.data.isNone ∧ s.form.modelId ≠ some modelId ∧ modelId ∈ s.modelOptions.map Model.id then
      some (onModelChange { s with form := { s.form with modelId := some modelId } } modelId)
    else none
  | .onVersionSearch term => if s.data.isNone then some (s.onVersionSearch term) else none
  | .selectVersion versionId =>
    if s.data.isNone ∧ s.form.modelId.isSome ∧
        versionId ∈ (s.filteredVersions toLowerCase).map ModelVersion.id then
      some { s with form := { s.form with modelVersionId := some versionId } }
    else none
  | .selectEnvironment environment =>
    some { s with form := { s.form with environment := some environment } }
  | .toggleSimulateFailure =>
    some { s with form := { s.form with simulateFailure := !s.form.simulateFailure } }
  | _ => none

namespace DialogState

/-- The dialog is opened. -/
def opened (platform : State) (data : Option DeployDialogData) : DialogState :=
  ⟨platform, .init data, []⟩

section

variable (lower toLowerCase : String → String) (f : CaseFold)

/-- One step of the platform, the server, the network, or the user. -/
def step (s : DialogState) : DialogAction → Option DialogState
  | .platform session action =>
    (MlopsPlatform.step lower s.platform (session, action)).map fun p => { s with platform := p }
  | .serve index =>
    match s.dialog.requests[index]? with
    | some request =>
      (request.serve f s.platform.shared).map fun response =>
        { s with
          dialog := { s.dialog with requests := s.dialog.requests.eraseIdx index }
          responses := s.responses ++ [(request, response)] }
    | none => none
  | .respond index =>
    s.responses[index]?.map fun x =>
      { s with dialog := s.dialog.receive x.2, responses := s.responses.eraseIdx index }
  | a => (s.dialog.step toLowerCase a).map fun dialog => { s with dialog }

end

/-- What the dialog offers, and what is selected in it, are versions of the model that it shows. -/
structure Shows (s : DialogState) : Prop where
  /-- The versions that are offered. -/
  offered : ∀ v ∈ s.dialog.versions, s.dialog.form.modelId = some v.modelId
  /-- The version that is selected. -/
  selected : ∀ versionId v, s.dialog.form.modelVersionId = some versionId →
    s.platform.shared.versions.get? versionId = some v →
    s.dialog.form.modelId = some v.modelId

/-- The step is the arrival of versions, at least one, that were requested for another model than
the one that the dialog shows. -/
def late (x : DialogState × DialogAction) : Bool :=
  match x.2 with
  | .respond index =>
    match x.1.responses[index]? with
    | some (.listVersions modelId _ _, .versions items _) =>
      !items.isEmpty && decide (x.1.dialog.form.modelId ≠ some modelId)
    | _ => false
  | _ => false

end DialogState

/-! ## What a step can do -/

/-- A dialog that is opened offers no versions. -/
theorem DeploymentFormDialog.versions_init (data : Option DeployDialogData) :
    (init data).versions = [] := by
  cases data <;> rfl

/-- Its model and version are those that it is opened from. -/
theorem DeploymentFormDialog.form_init (data : Option DeployDialogData) :
    (init data).form.modelId = data.map DeployDialogData.modelId ∧
      (init data).form.modelVersionId = data.map DeployDialogData.versionId := by
  cases data with
  | none => exact ⟨rfl, rfl⟩
  | some data => exact ⟨rfl, rfl⟩

/-- The versions to select from are among those that arrived. -/
theorem DeploymentFormDialog.mem_of_filteredVersions {toLowerCase : String → String}
    {s : DeploymentFormDialog} {v : ModelVersion} (h : v ∈ s.filteredVersions toLowerCase) :
    v ∈ s.versions := by
  unfold filteredVersions at h
  dsimp only at h
  split_ifs at h
  · exact h
  · exact List.mem_of_mem_filter h

/-- What the user does to the model, the version and the offered versions of the dialog. -/
theorem DeploymentFormDialog.step_cases {toLowerCase : String → String}
    {s s' : DeploymentFormDialog} {a : DialogAction} (h : s.step toLowerCase a = some s') :
    (s'.versions = s.versions ∧ s'.form.modelId = s.form.modelId ∧
        s'.form.modelVersionId = s.form.modelVersionId) ∨
      (s'.versions = [] ∧ s'.form.modelVersionId = none) ∨
      ∃ v ∈ s.versions, s'.versions = s.versions ∧ s'.form.modelId = s.form.modelId ∧
        s'.form.modelVersionId = some v.id := by
  cases a with
  | searchModels term =>
    obtain ⟨-, heq⟩ := Option.ite_none_right_eq_some.mp h
    obtain rfl := Option.some.inj heq
    exact Or.inl ⟨rfl, rfl, rfl⟩
  | selectModel modelId =>
    obtain ⟨-, heq⟩ := Option.ite_none_right_eq_some.mp h
    obtain rfl := Option.some.inj heq
    refine Or.inr (Or.inl ?_)
    unfold onModelChange
    dsimp only
    split
    · exact ⟨rfl, rfl⟩
    · exact ⟨rfl, rfl⟩
  | onVersionSearch term =>
    obtain ⟨-, heq⟩ := Option.ite_none_right_eq_some.mp h
    obtain rfl := Option.some.inj heq
    exact Or.inl ⟨rfl, rfl, rfl⟩
  | selectVersion versionId =>
    obtain ⟨⟨-, -, hmem⟩, heq⟩ := Option.ite_none_right_eq_some.mp h
    obtain rfl := Option.some.inj heq
    obtain ⟨v, hv, rfl⟩ := List.mem_map.mp hmem
    exact Or.inr (Or.inr ⟨v, mem_of_filteredVersions hv, rfl, rfl, rfl⟩)
  | selectEnvironment environment =>
    obtain rfl := Option.some.inj h
    exact Or.inl ⟨rfl, rfl, rfl⟩
  | toggleSimulateFailure =>
    obtain rfl := Option.some.inj h
    exact Or.inl ⟨rfl, rfl, rfl⟩
  | platform session action => exact absurd h (by simp [step])
  | serve index => exact absurd h (by simp [step])
  | respond index => exact absurd h (by simp [step])

namespace DialogState

section

variable {lower toLowerCase : String → String} {f : CaseFold}

/-- What a step does: the platform takes one, a request is answered from the database as it is, a
response arrives, or the user acts. -/
theorem step_cases {s s' : DialogState} {a : DialogAction}
    (h : s.step lower toLowerCase f a = some s') :
    (∃ session action p, a = .platform session action ∧
        MlopsPlatform.step lower s.platform (session, action) = some p ∧
        s' = { s with platform := p }) ∨
      (∃ index request response, a = .serve index ∧
        request.serve f s.platform.shared = some response ∧
        s' = ⟨s.platform, { s.dialog with requests := s.dialog.requests.eraseIdx index },
          s.responses ++ [(request, response)]⟩) ∨
      (∃ index x, a = .respond index ∧ s.responses[index]? = some x ∧
        s' = ⟨s.platform, s.dialog.receive x.2, s.responses.eraseIdx index⟩) ∨
      ∃ dialog, s.dialog.step toLowerCase a = some dialog ∧ s' = { s with dialog } := by
  cases a with
  | platform session action =>
    obtain ⟨p, hp, rfl⟩ := Option.map_eq_some_iff.mp h
    exact Or.inl ⟨session, action, p, rfl, hp, rfl⟩
  | serve index =>
    simp only [step] at h
    split at h
    · rename_i request hrequest
      obtain ⟨response, hserve, rfl⟩ := Option.map_eq_some_iff.mp h
      exact Or.inr (Or.inl ⟨index, request, response, rfl, hserve, rfl⟩)
    · exact absurd h (by simp)
  | respond index =>
    obtain ⟨x, hx, rfl⟩ := Option.map_eq_some_iff.mp h
    exact Or.inr (Or.inr (Or.inl ⟨index, x, rfl, hx, rfl⟩))
  | _ =>
    simp only [step, Option.map_eq_some_iff] at h
    obtain ⟨dialog, hdialog, rfl⟩ := h
    exact Or.inr (Or.inr (Or.inr ⟨dialog, hdialog, rfl⟩))

end

end DialogState

/-! ## What the console knows -/

/-- A version that the server sent is stored, as a version of its model. -/
def Stores (db : Db) (v : ModelVersion) : Prop :=
  ∃ w, db.versions.get? v.id = some w ∧ w.modelId = v.modelId

/-- A response is one that the server has given to its request: the versions are those of the model
that they were requested for. -/
def Answered (db : Db) : DialogRequest × DialogResponse → Prop
  | (.listVersions modelId _ _, .versions items _) =>
    ∀ v ∈ items, v.modelId = modelId ∧ Stores db v
  | (.listModels _ _ _, .versions _ _) => False
  | (_, .models _ _) => True

/-- What the server answers is a response to the request. -/
theorem answered_serve {f : CaseFold} {db : Db} {request : DialogRequest}
    {response : DialogResponse} (h : request.serve f db = some response) :
    Answered db (request, response) := by
  cases request with
  | listModels limit offset q =>
    obtain rfl := Option.some.inj h
    trivial
  | listVersions modelId limit offset =>
    simp only [DialogRequest.serve] at h
    split at h
    · rename_i items total hpage
      obtain rfl := Option.some.inj h
      intro v hv
      obtain ⟨hmem, hmodel⟩ := listVersions_eq_ok hpage v hv
      exact ⟨hmodel, v, Table.get?_key hmem, rfl⟩
    · exact absurd h (by simp)

/-- Everything that the console has of versions is stored. -/
structure DialogState.Known (s : DialogState) : Prop where
  /-- The versions that are offered. -/
  offered : ∀ v ∈ s.dialog.versions, Stores s.platform.shared v
  /-- The version that is selected. -/
  selected : ∀ versionId, s.dialog.form.modelVersionId = some versionId →
    ∃ v, s.platform.shared.versions.get? versionId = some v
  /-- The responses that are on their way. -/
  arriving : ∀ x ∈ s.responses, Answered s.platform.shared x

/-- No step of the platform takes a version from its model. -/
theorem modelId_of_step {lower : String → String} {p p' : State} {x : ℕ × Action}
    (h : MlopsPlatform.step lower p x = some p') {id : Uuid} {v : ModelVersion}
    (hv : p.shared.versions.get? id = some v) :
    ∃ w, p'.shared.versions.get? id = some w ∧ w.modelId = v.modelId := by
  have hreach : Reach (MlopsPlatform.step lower) (fun _ _ => True) p p' := .tail .refl trivial h
  exact modelId_of_reach hreach hv

/-- A version that is stored stays so. -/
theorem Stores.step {lower : String → String} {p p' : State} {x : ℕ × Action}
    (h : MlopsPlatform.step lower p x = some p') {v : ModelVersion} (hv : Stores p.shared v) :
    Stores p'.shared v := by
  obtain ⟨w, hw, hmodel⟩ := hv
  obtain ⟨w', hw', hmodel'⟩ := modelId_of_step h hw
  exact ⟨w', hw', hmodel'.trans hmodel⟩

/-- A response stays one that the server has given. -/
theorem Answered.step {lower : String → String} {p p' : State} {x : ℕ × Action}
    (h : MlopsPlatform.step lower p x = some p') {y : DialogRequest × DialogResponse}
    (hy : Answered p.shared y) : Answered p'.shared y := by
  obtain ⟨request, response⟩ := y
  cases response with
  | models items total =>
    cases request with
    | listModels limit offset q => trivial
    | listVersions modelId limit offset => trivial
  | versions items total =>
    cases request with
    | listModels limit offset q => exact hy
    | listVersions modelId limit offset => exact fun v hv => ⟨(hy v hv).1, (hy v hv).2.step h⟩

namespace DialogState

section

variable {lower toLowerCase : String → String} {f : CaseFold}

/-- A response that arrives and offers other versions is one to a request for them. -/
theorem receive_cases {db : Db} {x : DialogRequest × DialogResponse} (hx : Answered db x)
    (s : DeploymentFormDialog) :
    (s.receive x.2).versions = s.versions ∨
      ∃ modelId limit offset items total,
        x = (.listVersions modelId limit offset, .versions items total) ∧
          (s.receive x.2).versions = items ∧ ∀ v ∈ items, v.modelId = modelId ∧ Stores db v := by
  obtain ⟨request, response⟩ := x
  cases response with
  | models items total => exact Or.inl rfl
  | versions items total =>
    cases request with
    | listModels limit offset q => exact hx.elim
    | listVersions modelId limit offset =>
      exact Or.inr ⟨modelId, limit, offset, items, total, rfl, rfl, hx⟩

/-- A response leaves the form as it is. -/
theorem form_receive (s : DeploymentFormDialog) (response : DialogResponse) :
    (s.receive response).form = s.form := by
  cases response <;> rfl

/-- The version that a dialog is opened from is stored. -/
theorem known_opened {p : State} {data : Option DeployDialogData}
    (hdata : ∀ x ∈ data, ∃ v, p.shared.versions.get? x.versionId = some v ∧
      v.modelId = x.modelId) : (opened p data).Known := by
  refine ⟨fun v hv => ?_, fun versionId hid => ?_, fun x hx => absurd hx List.not_mem_nil⟩
  · exact absurd (DeploymentFormDialog.versions_init data ▸ hv) List.not_mem_nil
  · obtain ⟨x, hx, rfl⟩ :=
      Option.map_eq_some_iff.mp ((DeploymentFormDialog.form_init data).2.symm.trans hid)
    obtain ⟨v, hv, -⟩ := hdata x hx
    exact ⟨v, hv⟩

/-- It is a version of the model that the dialog shows. -/
theorem shows_opened {p : State} {data : Option DeployDialogData}
    (hdata : ∀ x ∈ data, ∃ v, p.shared.versions.get? x.versionId = some v ∧
      v.modelId = x.modelId) : (opened p data).Shows := by
  obtain ⟨hmodel, hversion⟩ := DeploymentFormDialog.form_init data
  refine ⟨fun v hv => ?_, fun versionId v hid hv => ?_⟩
  · exact absurd (DeploymentFormDialog.versions_init data ▸ hv) List.not_mem_nil
  · obtain ⟨x, hx, rfl⟩ := Option.map_eq_some_iff.mp (hversion.symm.trans hid)
    obtain ⟨w, hw, heq⟩ := hdata x hx
    obtain rfl := Option.some.inj (hv.symm.trans hw)
    rw [heq]
    exact hmodel.trans (by rw [hx]; rfl)

/-- Every step keeps what the console has of versions stored. -/
theorem known_step {s s' : DialogState} {a : DialogAction} (hs : s.Known)
    (h : s.step lower toLowerCase f a = some s') : s'.Known := by
  rcases step_cases h with ⟨session, action, p, -, hp, rfl⟩ | ⟨index, request, response, -, hserve,
    rfl⟩ | ⟨index, x, -, hx, rfl⟩ | ⟨dialog, hdialog, rfl⟩
  · refine ⟨fun v hv => (hs.offered v hv).step hp, fun versionId hid => ?_,
      fun y hy => (hs.arriving y hy).step hp⟩
    obtain ⟨v, hv⟩ := hs.selected versionId hid
    obtain ⟨w, hw, -⟩ := modelId_of_step hp hv
    exact ⟨w, hw⟩
  · refine ⟨hs.offered, hs.selected, fun y hy => ?_⟩
    rcases List.mem_append.mp hy with hold | hnew
    · exact hs.arriving y hold
    · rw [List.mem_singleton.mp hnew]
      exact answered_serve hserve
  · have hanswered := hs.arriving x (List.mem_of_getElem? hx)
    refine ⟨fun v hv => ?_, fun versionId hid => ?_, fun y hy => ?_⟩
    · rcases receive_cases hanswered s.dialog with hsame | ⟨modelId, limit, offset, items, total,
        -, hitems, hstored⟩
      · exact hs.offered v (hsame ▸ hv)
      · exact (hstored v (hitems ▸ hv)).2
    · exact hs.selected versionId ((form_receive s.dialog x.2) ▸ hid)
    · exact hs.arriving y (List.mem_of_mem_eraseIdx hy)
  · rcases s.dialog.step_cases hdialog with ⟨hversions, -, hselected⟩ | ⟨hnone, hcleared⟩ |
      ⟨v, hv, hversions, -, hselected⟩
    · exact ⟨fun v hv => hs.offered v (hversions ▸ hv),
        fun versionId hid => hs.selected versionId (hselected ▸ hid), hs.arriving⟩
    · refine ⟨fun v hv => ?_, fun versionId hid => ?_, hs.arriving⟩
      · exact absurd (hnone ▸ hv) List.not_mem_nil
      · exact absurd (hcleared.symm.trans hid) (by simp)
    · refine ⟨fun w hw => hs.offered w (hversions ▸ hw), fun versionId hid => ?_, hs.arriving⟩
      obtain ⟨w, hw, -⟩ := hs.offered v hv
      obtain rfl := Option.some.inj (hselected.symm.trans hid)
      exact ⟨w, hw⟩

/-- A step that is not a late arrival keeps what the dialog offers of the model that it shows. -/
theorem shows_step {s s' : DialogState} {a : DialogAction} (hs : s.Known)
    (h : s.step lower toLowerCase f a = some s') (hlate : ¬late (s, a) = true) (hshows : s.Shows) :
    s'.Shows := by
  rcases step_cases h with ⟨session, action, p, -, hp, rfl⟩ | ⟨index, request, response, -, hserve,
    rfl⟩ | ⟨index, x, rfl, hx, rfl⟩ | ⟨dialog, hdialog, rfl⟩
  · refine ⟨hshows.offered, fun versionId w hid hw => ?_⟩
    obtain ⟨v, hv⟩ := hs.selected versionId hid
    obtain ⟨w', hw', hmodel⟩ := modelId_of_step hp hv
    obtain rfl := Option.some.inj (hw.symm.trans hw')
    rw [hmodel]
    exact hshows.selected versionId v hid hv
  · exact ⟨hshows.offered, hshows.selected⟩
  · have hform := form_receive s.dialog x.2
    refine ⟨fun v hv => ?_, fun versionId v hid hv => ?_⟩
    · rw [hform]
      rcases receive_cases (hs.arriving x (List.mem_of_getElem? hx)) s.dialog with hsame | ⟨modelId,
        limit, offset, items, total, rfl, hitems, hstored⟩
      · exact hshows.offered v (hsame ▸ hv)
      · have hv : v ∈ items := hitems ▸ hv
        by_contra hother
        rw [(hstored v hv).1] at hother
        refine hlate ?_
        have hsome : items.isEmpty = false := List.isEmpty_eq_false_iff_exists_mem.mpr ⟨v, hv⟩
        simp only [late, hx, hsome, Bool.not_false, Bool.true_and, decide_eq_true_eq]
        exact hother
    · rw [hform] at hid ⊢
      exact hshows.selected versionId v hid hv
  · rcases s.dialog.step_cases hdialog with ⟨hversions, hmodel, hselected⟩ | ⟨hnone, hcleared⟩ |
      ⟨v, hv, hversions, hmodel, hselected⟩
    · refine ⟨fun v hv => ?_, fun versionId v hid hv => ?_⟩
      · exact hmodel.trans (hshows.offered v (hversions ▸ hv))
      · exact hmodel.trans (hshows.selected versionId v (hselected ▸ hid) hv)
    · refine ⟨fun v hv => ?_, fun versionId v hid hv => ?_⟩
      · exact absurd (hnone ▸ hv) List.not_mem_nil
      · exact absurd (hcleared.symm.trans hid) (by simp)
    · refine ⟨fun w hw => ?_, fun versionId w hid hw => ?_⟩
      · exact hmodel.trans (hshows.offered w (hversions ▸ hw))
      · obtain ⟨w', hw', hstored⟩ := hs.offered v hv
        obtain rfl := Option.some.inj (hselected.symm.trans hid)
        obtain rfl := Option.some.inj (hw.symm.trans hw')
        rw [hstored]
        exact hmodel.trans (hshows.offered v hv)

/-- After a late arrival the dialog offers a version of another model. -/
theorem not_shows_step {s s' : DialogState} {a : DialogAction} (hs : s.Known)
    (h : s.step lower toLowerCase f a = some s') (hlate : late (s, a) = true) : ¬s'.Shows := by
  intro hshows
  rcases step_cases h with ⟨session, action, p, rfl, -, -⟩ | ⟨index, request, response, rfl, -, -⟩ |
    ⟨index, x, rfl, hx, rfl⟩ | ⟨dialog, hdialog, -⟩
  · exact absurd hlate (by simp [late])
  · exact absurd hlate (by simp [late])
  · have hanswered := hs.arriving x (List.mem_of_getElem? hx)
    obtain ⟨request, response⟩ := x
    simp only [late, hx] at hlate
    cases response with
    | models items total => exact absurd hlate (by simp)
    | versions items total =>
      cases request with
      | listModels limit offset q => exact hanswered.elim
      | listVersions modelId limit offset =>
        obtain ⟨hsome, hother⟩ := Bool.and_eq_true_iff.mp hlate
        obtain ⟨v, hv⟩ := List.isEmpty_eq_false_iff_exists_mem.mp (by simpa using hsome)
        have hshown := hshows.offered v hv
        rw [(hanswered v hv).1] at hshown
        exact of_decide_eq_true hother hshown
  · cases a with
    | respond index => exact absurd hdialog (by simp [DeploymentFormDialog.step])
    | _ => exact absurd hlate (by simp [late])

end

end DialogState

/-! ## What is deployed -/

/-- A request without a key for a version that is stored is not refused because something is
missing, and what it commits, to whatever database, adds a deployment of the version's model, with
what the request says. -/
theorem requestDeployment_adds {db : Db} {payload : DeploymentCreate} {v : ModelVersion}
    (hkey : payload.idempotencyKey = none)
    (hv : db.versions.get? payload.modelVersionId = some v) (actorId : Uuid)
    (correlationId : Option String) :
    (∀ message, requestDeployment db actorId correlationId payload ≠
        .error (.notFoundError message)) ∧
      ∀ u, requestDeployment db actorId correlationId payload = .ok (.staged u) →
        ∀ db' : Db, ∃ d, db'.AddsRequest (db'.write u) payload v d ∧
          d.simulateFailure = payload.simulateFailure := by
  constructor
  · intro message hraise
    simp only [requestDeployment, hkey, findByKey, hv, assertDeployable] at hraise
    split_ifs at hraise
    · exact absurd (Except.error.inj hraise) (by simp)
    · exact absurd hraise (by simp [bind, Except.bind])
  · intro u hu db'
    obtain ⟨w, deployment, event, -, hw, -, rfl, hrow⟩ := requestDeployment_eq_staged hu
    obtain rfl := Option.some.inj (hv.symm.trans hw)
    obtain ⟨hd, hevent⟩ := hrow db'.deployments.next
    refine ⟨deployment.1 db'.deployments.next, ⟨rfl, ?_⟩, by rw [hd]⟩
    rw [hd]
    refine ⟨rfl, rfl, rfl, rfl, rfl, rfl,
      (event db'.deployments.next).1 db'.deploymentEvents.next, rfl, ?_⟩
    rw [hevent, hd]
    exact ⟨rfl, rfl, rfl⟩

/-- What the dialog closes with are the values of its form, without a key. -/
theorem DeploymentFormDialog.submit_eq_some {s : DeploymentFormDialog} {payload : DeploymentCreate}
    (h : s.submit = some payload) :
    s.form.modelVersionId = some payload.modelVersionId ∧
      s.form.environment = some payload.environment ∧
      payload.simulateFailure = s.form.simulateFailure ∧ payload.idempotencyKey = none := by
  unfold submit at h
  split at h
  · rename_i modelId versionId environment hmodel hversion henvironment
    obtain rfl := Option.some.inj h
    exact ⟨hversion, henvironment, rfl, rfl⟩
  · exact absurd h (by simp)

section

variable {lower toLowerCase : String → String} {f : CaseFold}

/-- What the dialog deploys, in every run of the dialog beside the platform, whenever requests are
answered and responses arrive. In all states on the way the dialog offers, and has selected,
versions of the model that it shows, if and only if no versions arrive that were requested for
another model than the one shown then. And what it closes with names a stored version, of the model
shown if the last state is such a one: whatever the platform does until the request is handled, it
is not refused because something is missing, and the deployment that it creates is of that version's
model, with the version, the environment and the flag of the form. -/
theorem deploys_of_trace {p : State} {data : Option DeployDialogData}
    (hdata : ∀ x ∈ data, ∃ v, p.shared.versions.get? x.versionId = some v ∧
      v.modelId = x.modelId)
    {steps : List (DialogState × DialogAction)} {s : DialogState}
    (h : Trace (DialogState.step lower toLowerCase f) (fun _ _ => True) (.opened p data) steps s) :
    (((∀ x ∈ steps, x.1.Shows) ∧ s.Shows) ↔ ∀ x ∈ steps, ¬DialogState.late x = true) ∧
      ∀ payload, s.dialog.submit = some payload →
        ∃ v, s.platform.shared.versions.get? payload.modelVersionId = some v ∧
          (s.Shows → s.dialog.form.modelId = some v.modelId) ∧
          ∀ (ok : State → ℕ × Action → Prop) (t : State),
            Reach (MlopsPlatform.step lower) ok s.platform t →
            ∀ (actorId : Uuid) (correlationId : Option String),
              (∀ message, requestDeployment t.shared actorId correlationId payload ≠
                .error (.notFoundError message)) ∧
              ∀ u, requestDeployment t.shared actorId correlationId payload = .ok (.staged u) →
                ∀ db : Db, ∃ d, db.deployments.rows ++ [d] = (db.write u).deployments.rows ∧
                  d.modelId = v.modelId ∧
                  s.dialog.form.modelVersionId = some d.modelVersionId ∧
                  s.dialog.form.environment = some d.environment ∧
                  s.dialog.form.simulateFailure = d.simulateFailure := by
  have hknown : ∀ t, Reach (DialogState.step lower toLowerCase f) (fun _ _ => True)
      (.opened p data) t → t.Known := by
    intro t ht
    refine ht.invariant (DialogState.known_opened hdata) ?_
    exact fun s a s' _ hs _ hstep => DialogState.known_step hs hstep
  constructor
  · refine h.forall_iff (P := DialogState.Shows) ?_ ?_ ?_
    · exact DialogState.shows_opened hdata
    · exact fun s a s' hs _ hstep hlate hshows =>
        DialogState.shows_step (hknown s hs) hstep hlate hshows
    · exact fun s a s' hs _ hstep hlate => DialogState.not_shows_step (hknown s hs) hstep hlate
  · intro payload hpayload
    obtain ⟨hversion, henvironment, hflag, hkey⟩ := s.dialog.submit_eq_some hpayload
    obtain ⟨v, hv⟩ := (hknown s h.reach).selected payload.modelVersionId hversion
    refine ⟨v, hv, fun hshows => hshows.selected _ v hversion hv, ?_⟩
    intro ok t ht actorId correlationId
    obtain ⟨w, hw, hmodel⟩ := modelId_of_reach ht hv
    obtain ⟨hfound, hadds⟩ := requestDeployment_adds hkey hw actorId correlationId
    refine ⟨hfound, fun u hu db => ?_⟩
    obtain ⟨d, ⟨hrows, -, -, hdmodel, hdversion, hdenvironment, -⟩, hdflag⟩ := hadds u hu db
    refine ⟨d, hrows.symm, hdmodel.trans hmodel, ?_, ?_, ?_⟩
    · rw [hdversion, hversion]
    · rw [hdenvironment, henvironment]
    · rw [hdflag, hflag]

end

/-- Model 1 has the versions 1 and 2, and model 2 has version 3. All are validated. -/
def twoModels : State :=
  exec (MlopsPlatform.step id) (fun _ _ => True) .init <| secondModelRun ++
    [(0, .call (.createVersion 9 none 2 { version := "1.0", artifactUri := "s3://valve/1" })),
      (0, .call (.transitionVersion 9 none 3 .validated))]

/-- Model 1 is selected and then model 2, whose versions arrive first. Version 1, which is offered
last, is selected. -/
def overtakenDialog : List DialogAction :=
  [.serve 0, .respond 0, .selectModel 1, .selectModel 2, .serve 0, .serve 0, .respond 1, .respond 0,
    .selectVersion 1, .selectEnvironment .development]

/-- The dialog after it. -/
def overtakenEnd : DialogState :=
  exec (DialogState.step id id .ascii) (fun _ _ => True) (.opened twoModels none) overtakenDialog

/-- A request creates a deployment, unless it is rejected. -/
def stages : Except DomainError RequestOutcome → Bool
  | .ok (.staged _) => true
  | _ => false

/-- A request that creates one stages a unit of work. -/
theorem exists_staged {r : Except DomainError RequestOutcome} (h : stages r = true) :
    ∃ u, r = .ok (.staged u) := by
  cases r with
  | error e => exact absurd h (by simp [stages])
  | ok outcome =>
    cases outcome with
    | existing d => exact absurd h (by simp [stages])
    | staged u => exact ⟨u, rfl⟩

/-- Versions arrive late in this run: the dialog shows model 2, and what it closes with creates a
deployment of model 1. -/
theorem deploys_of_trace_overtakenDialog :
    ¬((∀ x ∈ execSteps (DialogState.step id id .ascii) (fun _ _ => True) (.opened twoModels none)
        overtakenDialog, x.1.Shows) ∧ overtakenEnd.Shows) ∧
      overtakenEnd.dialog.form.modelId = some 2 ∧
      ∃ payload u, overtakenEnd.dialog.submit = some payload ∧
        requestDeployment overtakenEnd.platform.shared 9 none payload = .ok (.staged u) ∧
        ∀ db : Db, ∃ d, db.deployments.rows ++ [d] = (db.write u).deployments.rows ∧
          d.modelId = 1 ∧ d.environment = .development := by
  have hdata : ∀ x ∈ (none : Option DeployDialogData),
      ∃ v, twoModels.shared.versions.get? x.versionId = some v ∧ v.modelId = x.modelId :=
    fun x hx => absurd hx (by simp)
  obtain ⟨hiff, hdeploys⟩ := deploys_of_trace hdata
    (exec_trace (DialogState.step id id .ascii) (fun _ _ => True) (.opened twoModels none)
      overtakenDialog)
  have hlate : (execSteps (DialogState.step id id .ascii) (fun _ _ => True)
      (.opened twoModels none) overtakenDialog).any DialogState.late = true := by decide +kernel
  have hversion : overtakenEnd.dialog.submit.map DeploymentCreate.modelVersionId = some 1 := by
    decide +kernel
  have henvironment : overtakenEnd.dialog.form.environment = some .development := by decide +kernel
  have hmodel : (overtakenEnd.platform.shared.versions.get? 1).map ModelVersion.modelId =
      some 1 := by decide +kernel
  obtain ⟨payload, hpayload, hid⟩ := Option.map_eq_some_iff.mp hversion
  obtain ⟨v, hv, -, hcreates⟩ := hdeploys payload hpayload
  obtain ⟨w, hw, hwmodel⟩ := Option.map_eq_some_iff.mp hmodel
  rw [hid] at hv
  obtain rfl := Option.some.inj (hw.symm.trans hv)
  have hstages : (overtakenEnd.dialog.submit.map fun payload =>
      stages (requestDeployment overtakenEnd.platform.shared 9 none payload)) = some true := by
    decide +kernel
  rw [hpayload, Option.map_some] at hstages
  obtain ⟨u, hu⟩ := exists_staged (Option.some.inj hstages)
  refine ⟨fun hall => ?_, by decide +kernel, payload, u, hpayload, hu, fun db => ?_⟩
  · obtain ⟨x, hx, hbad⟩ := List.any_eq_true.mp hlate
    exact hiff.mp hall x hx hbad
  · obtain ⟨-, hadds⟩ := hcreates (fun _ _ => True) _ .refl 9 none
    obtain ⟨d, hrows, hdmodel, -, hdenvironment, -⟩ := hadds u hu db
    refine ⟨d, hrows, hdmodel.trans hwmodel, ?_⟩
    exact (Option.some.inj (henvironment.symm.trans hdenvironment)).symm

end MlopsPlatform.Console
