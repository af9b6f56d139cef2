import MlopsPlatform.Console.ModelDetail
import MlopsPlatform.Console.MonitoringDashboard

/-!
# Responses that come late

The dashboard clears the summary that it shows when another model is selected, and the page of a
model clears the events when the history of another version is opened. Neither cancels the requests
that are outstanding, and every response overwrites what is shown. So the console shows the data of
what is selected exactly as long as no response arrives that was requested for something else
(`shows_iff_of_trace`). A request is sent for what is selected then, so that this happens only if
something else has been selected since (`changed_of_late`).
-/

namespace MlopsPlatform.Console

open Transition

/-! ## The dashboard -/

namespace MonitoringDashboard

/-- The summary that is shown is that of the selected model. -/
def ShowsSelected (s : MonitoringDashboard) : Prop :=
  ∀ summary, s.selected = some summary → s.selectedId = some summary.modelId

/-- The step is the arrival of a summary that was requested for another model than the selected
one. -/
def late (x : MonitoringDashboard × DashboardAction) : Bool :=
  match x.2 with
  | .respond index (.modelMetrics _) =>
    match x.1.requests[index]? with
    | some (.modelMetrics modelId _ _) => x.1.selectedId ≠ some modelId
    | _ => false
  | _ => false

/-- The summary that is shown is cleared, or stays with the selection. -/
def Keeps (s s' : MonitoringDashboard) : Prop :=
  s'.selected = none ∨ (s'.selected = s.selected ∧ s'.selectedId = s.selectedId)

/-- A search keeps what is shown until the overview arrives. -/
theorem keeps_debounced (s : MonitoringDashboard) : s.Keeps s.debounced := by
  unfold debounced
  split
  · split_ifs
    · exact Or.inr ⟨rfl, rfl⟩
    · exact Or.inr ⟨rfl, rfl⟩
  · exact Or.inr ⟨rfl, rfl⟩

/-- Choosing a combination keeps what is shown until the summary arrives. -/
theorem keeps_changeCombo (s : MonitoringDashboard) (key : String) :
    s.Keeps (s.changeCombo key) := by
  unfold changeCombo
  split
  · exact Or.inr ⟨rfl, rfl⟩
  · exact Or.inr ⟨rfl, rfl⟩

/-- The overview selects a model, or clears what is shown. -/
theorem keeps_overviewArrived (s : MonitoringDashboard) (items : List MonitoringItem) (total : ℕ) :
    s.Keeps (s.overviewArrived items total) := by
  unfold overviewArrived
  dsimp only
  split
  · exact Or.inl rfl
  · exact Or.inl rfl

/-- What an action does to the summary that is shown: it is cleared or stays with the selection, or
it is replaced by the one that arrives, which is of the model whose metrics were requested. -/
theorem step_cases {s s' : MonitoringDashboard} {a : DashboardAction} (h : s.step a = some s') :
    (s.Keeps s' ∧ late (s, a) = false) ∨
      ∃ index summary version environment, a = .respond index (.modelMetrics summary) ∧
        s.requests[index]? = some (.modelMetrics summary.modelId version environment) ∧
        s'.selected = some summary ∧ s'.selectedId = s.selectedId := by
  cases a with
  | load =>
    obtain rfl := Option.some.inj h
    exact Or.inl ⟨Or.inr ⟨rfl, rfl⟩, rfl⟩
  | select item =>
    obtain rfl := Option.some.inj h
    exact Or.inl ⟨Or.inl rfl, rfl⟩
  | changeCombo key =>
    obtain rfl := Option.some.inj h
    exact Or.inl ⟨s.keeps_changeCombo key, rfl⟩
  | onSearch value =>
    obtain rfl := Option.some.inj h
    exact Or.inl ⟨Or.inr ⟨rfl, rfl⟩, rfl⟩
  | debounced =>
    obtain rfl := Option.some.inj h
    exact Or.inl ⟨s.keeps_debounced, rfl⟩
  | onPage pageIndex pageSize =>
    obtain rfl := Option.some.inj h
    exact Or.inl ⟨Or.inr ⟨rfl, rfl⟩, rfl⟩
  | respond index response =>
    simp only [step] at h
    split at h
    · rename_i request hrequest
      split_ifs at h with hanswers
      obtain rfl := Option.some.inj h
      cases response with
      | overview items total =>
        exact Or.inl ⟨keeps_overviewArrived _ items total, rfl⟩
      | modelMetrics summary =>
        cases request with
        | overview limit offset q => exact absurd hanswers (by simp [DashboardResponse.answers])
        | modelMetrics modelId version environment =>
          obtain rfl : summary.modelId = modelId := of_decide_eq_true hanswers
          exact Or.inr ⟨index, summary, version, environment, rfl, hrequest, rfl, rfl⟩
      | error message =>
        cases request with
        | overview limit offset q => exact Or.inl ⟨Or.inr ⟨rfl, rfl⟩, rfl⟩
        | modelMetrics modelId version environment => exact Or.inl ⟨Or.inr ⟨rfl, rfl⟩, rfl⟩
    · exact absurd h (by simp)

/-- A step that is not a late arrival keeps the summary that is shown that of the selected model. -/
theorem showsSelected_step {s s' : MonitoringDashboard} {a : DashboardAction}
    (h : s.step a = some s') (hlate : ¬late (s, a) = true) (hs : s.ShowsSelected) :
    s'.ShowsSelected := by
  intro summary hsummary
  rcases step_cases h with ⟨hnone | ⟨hsame, hid⟩, -⟩ |
    ⟨index, arrived, version, environment, rfl, hrequest, hshown, hid⟩
  · rw [hnone] at hsummary
    exact absurd hsummary (by simp)
  · rw [hid]
    exact hs summary (hsame ▸ hsummary)
  · rw [hshown] at hsummary
    obtain rfl := Option.some.inj hsummary
    simp only [late, hrequest, decide_eq_true_eq, not_not] at hlate
    rw [hid, hlate]

/-- After a late arrival the summary that is shown is not that of the selected model. -/
theorem not_showsSelected_step {s s' : MonitoringDashboard} {a : DashboardAction}
    (h : s.step a = some s') (hlate : late (s, a) = true) : ¬s'.ShowsSelected := by
  intro hshows
  rcases step_cases h with ⟨-, hnot⟩ | ⟨index, arrived, version, environment, rfl, hrequest, hshown,
    hid⟩
  · rw [hlate] at hnot
    exact absurd hnot (by decide)
  · simp only [late, hrequest, decide_eq_true_eq] at hlate
    exact hlate (hid ▸ hshows arrived hshown)

/-- What was not requested before is requested for the selected model. -/
def SendsForSelected (s s' : MonitoringDashboard) : Prop :=
  ∀ modelId version environment,
    DashboardRequest.modelMetrics modelId version environment ∈ s'.requests →
      DashboardRequest.modelMetrics modelId version environment ∈ s.requests ∨
        s'.selectedId = some modelId

/-- Loading the overview requests no metrics. -/
theorem sendsForSelected_load (s : MonitoringDashboard) : s.SendsForSelected s.load := by
  intro modelId version environment hsent
  rcases List.mem_append.mp hsent with hold | hnew
  · exact Or.inl hold
  · exact absurd (List.mem_singleton.mp hnew) (by simp [Console.overview])

/-- Selecting a model requests its metrics. -/
theorem sendsForSelected_select (s : MonitoringDashboard) (item : MonitoringItem) :
    s.SendsForSelected (s.select item) := by
  intro modelId version environment hsent
  rcases List.mem_append.mp hsent with hold | hnew
  · exact Or.inl hold
  · obtain ⟨rfl, -⟩ := DashboardRequest.modelMetrics.inj (List.mem_singleton.mp hnew)
    exact Or.inr rfl

/-- Choosing a combination requests metrics of the selected model. -/
theorem sendsForSelected_changeCombo (s : MonitoringDashboard) (key : String) :
    s.SendsForSelected (s.changeCombo key) := by
  intro modelId version environment hsent
  unfold changeCombo at *
  split at hsent
  · rename_i id hselected
    rcases List.mem_append.mp hsent with hold | hnew
    · exact Or.inl hold
    · obtain ⟨rfl, -⟩ := DashboardRequest.modelMetrics.inj (List.mem_singleton.mp hnew)
      exact Or.inr hselected
  · exact Or.inl hsent

/-- A search requests no metrics. -/
theorem sendsForSelected_debounced (s : MonitoringDashboard) : s.SendsForSelected s.debounced := by
  unfold debounced
  split
  · split_ifs
    · exact fun _ _ _ hsent => Or.inl hsent
    · exact sendsForSelected_load _
  · exact fun _ _ _ hsent => Or.inl hsent

/-- What a response sends is for the selected model. -/
theorem sendsForSelected_receive (s : MonitoringDashboard) (request : DashboardRequest)
    (response : DashboardResponse) : s.SendsForSelected (s.receive request response) := by
  cases response with
  | overview items total =>
    unfold receive overviewArrived
    dsimp only
    split
    · exact sendsForSelected_select _ _
    · exact fun _ _ _ hsent => Or.inl hsent
  | modelMetrics summary => exact fun _ _ _ hsent => Or.inl hsent
  | error message =>
    cases request with
    | overview limit offset q => exact fun _ _ _ hsent => Or.inl hsent
    | modelMetrics modelId version environment => exact fun _ _ _ hsent => Or.inl hsent

/-- A step requests metrics only of the model that is selected then. -/
theorem sendsForSelected_step {s s' : MonitoringDashboard} {a : DashboardAction}
    (h : s.step a = some s') : s.SendsForSelected s' := by
  cases a with
  | load =>
    obtain rfl := Option.some.inj h
    exact s.sendsForSelected_load
  | select item =>
    obtain rfl := Option.some.inj h
    exact s.sendsForSelected_select item
  | changeCombo key =>
    obtain rfl := Option.some.inj h
    exact s.sendsForSelected_changeCombo key
  | onSearch value =>
    obtain rfl := Option.some.inj h
    exact fun _ _ _ hsent => Or.inl hsent
  | debounced =>
    obtain rfl := Option.some.inj h
    exact s.sendsForSelected_debounced
  | onPage pageIndex pageSize =>
    obtain rfl := Option.some.inj h
    exact sendsForSelected_load _
  | respond index response =>
    simp only [step] at h
    split at h
    · split_ifs at h
      obtain rfl := Option.some.inj h
      intro modelId version environment hsent
      exact (sendsForSelected_receive _ _ response modelId version environment hsent).imp_left
        List.mem_of_mem_eraseIdx
    · exact absurd h (by simp)

/-- A summary arrives late only if another model was selected when it was requested. -/
theorem changed_of_late {ok : MonitoringDashboard → DashboardAction → Prop}
    {s : MonitoringDashboard} {a : DashboardAction} (h : Reach step ok .init s)
    (hlate : late (s, a) = true) :
    ∃ t modelId, Reach step ok .init t ∧ Reach step ok t s ∧ t.selectedId = some modelId ∧
      s.selectedId ≠ some modelId := by
  unfold late at hlate
  split at hlate
  · split at hlate
    · rename_i modelId version environment hrequest
      obtain ⟨t, ht, hts, hselected⟩ := h.exists_source
        (P := fun s => DashboardRequest.modelMetrics modelId version environment ∈ s.requests)
        (Q := fun s => s.selectedId = some modelId)
        (by simp [init, load, send, Console.overview])
        (fun s a s' hstep => sendsForSelected_step hstep modelId version environment)
        (List.mem_of_getElem? hrequest)
      exact ⟨t, modelId, ht, hts, hselected, of_decide_eq_true hlate⟩
    · exact absurd hlate Bool.false_ne_true
  · exact absurd hlate Bool.false_ne_true

end MonitoringDashboard

/-! ## The page of a model -/

namespace ModelDetail

/-- The events that are shown are about the version whose history is shown. -/
def ShowsHistory (s : ModelDetail) : Prop :=
  ∀ e ∈ s.historyEvents, ∃ v, s.historyVersion = some v ∧ e.modelVersionId = v.id

/-- The step is the arrival of events, at least one, that were requested for another version than
the one whose history is shown. -/
def late (x : ModelDetail × DetailAction) : Bool :=
  match x.2 with
  | .respond index (.events items _) =>
    match x.1.requests[index]? with
    | some (.listVersionEvents versionId _ _) =>
      !items.isEmpty && decide (x.1.historyVersion.map ModelVersion.id ≠ some versionId)
    | _ => false
  | _ => false

/-- The events that are shown are cleared, or stay with their version. -/
def Keeps (s s' : ModelDetail) : Prop :=
  s'.historyEvents = [] ∨
    (s'.historyEvents = s.historyEvents ∧ s'.historyVersion = s.historyVersion)

/-- What is done after an action keeps what is shown until the events arrive. -/
theorem keeps_afterAction (s : ModelDetail) : s.Keeps s.afterAction := by
  unfold afterAction
  dsimp only
  split
  · exact Or.inr ⟨rfl, rfl⟩
  · exact Or.inr ⟨rfl, rfl⟩

/-- A failed request keeps what is shown. -/
theorem keeps_failed (s : ModelDetail) (message : String) (request : DetailRequest) :
    s.Keeps (s.failed message request) := by
  cases request <;> exact Or.inr ⟨rfl, rfl⟩

/-- What an action does to the events that are shown: they are cleared or stay with their version,
or they are replaced by those that arrive, which are about the version that they were requested
for. -/
theorem step_cases {s s' : ModelDetail} {a : DetailAction} (h : s.step a = some s') :
    (s.Keeps s' ∧ late (s, a) = false) ∨
      ∃ index items total versionId limit offset, a = .respond index (.events items total) ∧
        s.requests[index]? = some (.listVersionEvents versionId limit offset) ∧
        (∀ e ∈ items, e.modelVersionId = versionId) ∧ s'.historyEvents = items ∧
        s'.historyVersion = s.historyVersion := by
  have hkeeps : ∀ {t : ModelDetail}, t.historyEvents = s.historyEvents →
      t.historyVersion = s.historyVersion → s.Keeps t := fun h₁ h₂ => Or.inr ⟨h₁, h₂⟩
  cases a with
  | load =>
    obtain rfl := Option.some.inj h
    exact Or.inl ⟨hkeeps rfl rfl, rfl⟩
  | onPage pageIndex pageSize =>
    obtain rfl := Option.some.inj h
    exact Or.inl ⟨hkeeps rfl rfl, rfl⟩
  | openHistory version =>
    obtain rfl := Option.some.inj h
    exact Or.inl ⟨Or.inl rfl, rfl⟩
  | closeDrawer =>
    obtain rfl := Option.some.inj h
    exact Or.inl ⟨hkeeps rfl rfl, rfl⟩
  | addVersion =>
    obtain rfl := Option.some.inj h
    exact Or.inl ⟨hkeeps rfl rfl, rfl⟩
  | approve version =>
    obtain rfl := Option.some.inj h
    exact Or.inl ⟨hkeeps rfl rfl, rfl⟩
  | promote version target =>
    obtain rfl := Option.some.inj h
    exact Or.inl ⟨hkeeps rfl rfl, rfl⟩
  | respond index response =>
    simp only [step] at h
    split at h
    · rename_i request hrequest
      split_ifs at h with hanswers
      obtain rfl := Option.some.inj h
      cases response with
      | model model => exact Or.inl ⟨hkeeps rfl rfl, rfl⟩
      | versions items total => exact Or.inl ⟨hkeeps rfl rfl, rfl⟩
      | events items total =>
        cases request with
        | listVersionEvents versionId limit offset =>
          have habout : ∀ e ∈ items, e.modelVersionId = versionId := fun e he =>
            of_decide_eq_true (List.all_eq_true.mp hanswers e he)
          exact Or.inr ⟨index, items, total, versionId, limit, offset, rfl, hrequest, habout, rfl,
            rfl⟩
        | _ => exact absurd hanswers (by simp [DetailResponse.answers])
      | done =>
        refine Or.inl ⟨?_, rfl⟩
        cases request with
        | createVersion =>
          exact keeps_afterAction
            { s with requests := s.requests.eraseIdx index, pageIndex := 0 }
        | _ => exact keeps_afterAction { s with requests := s.requests.eraseIdx index }
      | error message => exact Or.inl ⟨keeps_failed _ message request, rfl⟩
    · exact absurd h (by simp)

/-- A step that is not a late arrival keeps the events that are shown about the version whose
history is shown. -/
theorem showsHistory_step {s s' : ModelDetail} {a : DetailAction} (h : s.step a = some s')
    (hlate : ¬late (s, a) = true) (hs : s.ShowsHistory) : s'.ShowsHistory := by
  intro e he
  rcases step_cases h with ⟨hnone | ⟨hsame, hversion⟩, -⟩ |
    ⟨index, items, total, versionId, limit, offset, rfl, hrequest, habout, hshown, hversion⟩
  · rw [hnone] at he
    exact absurd he List.not_mem_nil
  · rw [hversion]
    exact hs e (hsame ▸ he)
  · rw [hshown] at he
    have hopen : s.historyVersion.map ModelVersion.id = some versionId := by
      by_contra hother
      refine hlate ?_
      have hitems : items.isEmpty = false := List.isEmpty_eq_false_iff_exists_mem.mpr ⟨e, he⟩
      simp only [late, hrequest, hitems, Bool.not_false, Bool.true_and, decide_eq_true_eq]
      exact hother
    obtain ⟨v, hv, hid⟩ := Option.map_eq_some_iff.mp hopen
    exact ⟨v, hversion.trans hv, (habout e he).trans hid.symm⟩

/-- After a late arrival the events that are shown are not about the version whose history is
shown. -/
theorem not_showsHistory_step {s s' : ModelDetail} {a : DetailAction} (h : s.step a = some s')
    (hlate : late (s, a) = true) : ¬s'.ShowsHistory := by
  intro hshows
  rcases step_cases h with ⟨-, hnot⟩ |
    ⟨index, items, total, versionId, limit, offset, rfl, hrequest, habout, hshown, hversion⟩
  · rw [hlate] at hnot
    exact absurd hnot (by decide)
  · simp only [late, hrequest, Bool.and_eq_true, Bool.not_eq_true', decide_eq_true_eq] at hlate
    obtain ⟨hitems, hother⟩ := hlate
    obtain ⟨e, he⟩ := List.isEmpty_eq_false_iff_exists_mem.mp hitems
    obtain ⟨v, hv, hid⟩ := hshows e (hshown ▸ he)
    rw [hversion] at hv
    rw [hv, Option.map_some, ← hid, habout e he] at hother
    exact hother rfl

/-- What was not requested before is requested for the version whose history is shown. -/
def SendsForShown (s s' : ModelDetail) : Prop :=
  ∀ versionId limit offset, DetailRequest.listVersionEvents versionId limit offset ∈ s'.requests →
    DetailRequest.listVersionEvents versionId limit offset ∈ s.requests ∨
      s'.historyVersion.map ModelVersion.id = some versionId

/-- Another request is none for events. -/
theorem sendsForShown_send (s : ModelDetail) {request : DetailRequest}
    (hother : ∀ versionId limit offset, .listVersionEvents versionId limit offset ≠ request) :
    s.SendsForShown (s.send request) := by
  intro versionId limit offset hsent
  rcases List.mem_append.mp hsent with hold | hnew
  · exact Or.inl hold
  · exact absurd (List.mem_singleton.mp hnew) (hother versionId limit offset)

/-- Opening a history requests its events. -/
theorem sendsForShown_openHistory (s : ModelDetail) (version : ModelVersion) :
    s.SendsForShown (s.openHistory version) := by
  intro versionId limit offset hsent
  rcases List.mem_append.mp hsent with hold | hnew
  · exact Or.inl hold
  · obtain ⟨rfl, -⟩ := DetailRequest.listVersionEvents.inj (List.mem_singleton.mp hnew)
    exact Or.inr rfl

/-- What is done after an action requests the events of the history that is open. -/
theorem sendsForShown_afterAction (s : ModelDetail) : s.SendsForShown s.afterAction := by
  have hversions : s.SendsForShown s.loadVersions :=
    s.sendsForShown_send fun _ _ _ => DetailRequest.noConfusion
  intro versionId limit offset hsent
  unfold afterAction at *
  dsimp only at *
  split at hsent
  · rename_i v hopen hv
    rcases List.mem_append.mp hsent with hold | hnew
    · exact hversions versionId limit offset hold
    · obtain ⟨rfl, -⟩ := DetailRequest.listVersionEvents.inj (List.mem_singleton.mp hnew)
      exact Or.inr (congrArg (Option.map ModelVersion.id) hv)
  · exact hversions versionId limit offset hsent

/-- What a response sends is for the version whose history is shown. -/
theorem sendsForShown_receive (s : ModelDetail) (request : DetailRequest)
    (response : DetailResponse) : s.SendsForShown (s.receive request response) := by
  cases response with
  | model model => exact sendsForShown_send _ fun _ _ _ => DetailRequest.noConfusion
  | versions items total => exact fun _ _ _ hsent => Or.inl hsent
  | events items total => exact fun _ _ _ hsent => Or.inl hsent
  | done =>
    cases request with
    | createVersion => exact sendsForShown_afterAction { s with pageIndex := 0 }
    | _ => exact s.sendsForShown_afterAction
  | error message =>
    cases request with
    | getModel => exact fun _ _ _ hsent => Or.inl hsent
    | listVersions limit offset => exact fun _ _ _ hsent => Or.inl hsent
    | _ => exact fun _ _ _ hsent => Or.inl hsent

/-- A step requests events only of the version whose history is shown then. -/
theorem sendsForShown_step {s s' : ModelDetail} {a : DetailAction} (h : s.step a = some s') :
    s.SendsForShown s' := by
  cases a with
  | load =>
    obtain rfl := Option.some.inj h
    exact sendsForShown_send _ fun _ _ _ => DetailRequest.noConfusion
  | onPage pageIndex pageSize =>
    obtain rfl := Option.some.inj h
    exact sendsForShown_send _ fun _ _ _ => DetailRequest.noConfusion
  | openHistory version =>
    obtain rfl := Option.some.inj h
    exact s.sendsForShown_openHistory version
  | closeDrawer =>
    obtain rfl := Option.some.inj h
    exact fun _ _ _ hsent => Or.inl hsent
  | addVersion =>
    obtain rfl := Option.some.inj h
    exact s.sendsForShown_send fun _ _ _ => DetailRequest.noConfusion
  | approve version =>
    obtain rfl := Option.some.inj h
    exact s.sendsForShown_send fun _ _ _ => DetailRequest.noConfusion
  | promote version target =>
    obtain rfl := Option.some.inj h
    exact s.sendsForShown_send fun _ _ _ => DetailRequest.noConfusion
  | respond index response =>
    simp only [step] at h
    split at h
    · split_ifs at h
      obtain rfl := Option.some.inj h
      intro versionId limit offset hsent
      exact (sendsForShown_receive _ _ response versionId limit offset hsent).imp_left
        List.mem_of_mem_eraseIdx
    · exact absurd h (by simp)

/-- Events arrive late only if the history of another version was shown when they were requested. -/
theorem changed_of_late {ok : ModelDetail → DetailAction → Prop} {s : ModelDetail}
    {a : DetailAction} (h : Reach step ok .init s) (hlate : late (s, a) = true) :
    ∃ t versionId, Reach step ok .init t ∧ Reach step ok t s ∧
      t.historyVersion.map ModelVersion.id = some versionId ∧
      s.historyVersion.map ModelVersion.id ≠ some versionId := by
  unfold late at hlate
  split at hlate
  · split at hlate
    · rename_i versionId limit offset hrequest
      obtain ⟨t, ht, hts, hshown⟩ := h.exists_source
        (P := fun s => DetailRequest.listVersionEvents versionId limit offset ∈ s.requests)
        (Q := fun s => s.historyVersion.map ModelVersion.id = some versionId)
        (by simp [init, load, send])
        (fun s a s' hstep => sendsForShown_step hstep versionId limit offset)
        (List.mem_of_getElem? hrequest)
      rw [Bool.and_eq_true] at hlate
      exact ⟨t, versionId, ht, hts, hshown, of_decide_eq_true hlate.2⟩
    · exact absurd hlate Bool.false_ne_true
  · exact absurd hlate Bool.false_ne_true

end ModelDetail

/-! ## Runs -/

/-- The console shows the data of what is selected exactly as long as nothing arrives late. In every
run of the dashboard, the summary that is shown is that of the selected model in all states on the
way if and only if no summary arrives that was requested for another model than the one selected
then. In every run of the page of a model, the events that are shown are about the version whose
history is shown if and only if no events arrive that were requested for another version than the
one whose history is shown then. -/
theorem shows_iff_of_trace {steps : List (MonitoringDashboard × DashboardAction)}
    {s : MonitoringDashboard} (h : Trace MonitoringDashboard.step (fun _ _ => True) .init steps s)
    {steps' : List (ModelDetail × DetailAction)} {s' : ModelDetail}
    (h' : Trace ModelDetail.step (fun _ _ => True) .init steps' s') :
    (((∀ x ∈ steps, x.1.ShowsSelected) ∧ s.ShowsSelected) ↔
        ∀ x ∈ steps, ¬MonitoringDashboard.late x = true) ∧
      (((∀ x ∈ steps', x.1.ShowsHistory) ∧ s'.ShowsHistory) ↔
        ∀ x ∈ steps', ¬ModelDetail.late x = true) := by
  constructor
  · refine h.forall_iff (P := fun s => s.ShowsSelected) ?_ ?_ ?_
    · intro summary hsummary
      exact absurd hsummary (by simp [MonitoringDashboard.init, MonitoringDashboard.load,
        MonitoringDashboard.send])
    · exact fun s a s' _ _ hstep hlate hs => MonitoringDashboard.showsSelected_step hstep hlate hs
    · exact fun s a s' _ _ hstep hlate => MonitoringDashboard.not_showsSelected_step hstep hlate
  · refine h'.forall_iff (P := fun s => s.ShowsHistory) ?_ ?_ ?_
    · intro e he
      exact absurd he List.not_mem_nil
    · exact fun s a s' _ _ hstep hlate hs => ModelDetail.showsHistory_step hstep hlate hs
    · exact fun s a s' _ _ hstep hlate => ModelDetail.not_showsHistory_step hstep hlate

/-- A model on the overview. -/
def overviewItem (modelId : Uuid) (name : String) : MonitoringItem :=
  { modelId, modelKey := name, name, monitoringStatus := .noData, lastInferenceAt := none
    latest := none }

/-- Its summary. -/
def emptySummary (modelId : Uuid) (name : String) : MonitoringSummary :=
  { modelId, modelKey := name, name, monitoringStatus := .noData, lastInferenceAt := none
    version := none, environment := none, latest := none, series := [], available := [] }

/-- The pump is selected when the overview arrives, and the valve by the user. The summary of the
valve arrives first. -/
def overtakenSummary : List DashboardAction :=
  [.respond 0 (.overview [overviewItem 1 "pump", overviewItem 2 "valve"] 2),
    .select (overviewItem 2 "valve"), .respond 1 (.modelMetrics (emptySummary 2 "valve")),
    .respond 0 (.modelMetrics (emptySummary 1 "pump"))]

/-- The summary of the pump arrives before the user selects the valve. -/
def summariesInOrder : List DashboardAction :=
  [.respond 0 (.overview [overviewItem 1 "pump", overviewItem 2 "valve"] 2),
    .respond 0 (.modelMetrics (emptySummary 1 "pump")), .select (overviewItem 2 "valve"),
    .respond 0 (.modelMetrics (emptySummary 2 "valve"))]

/-- A version of the pump. -/
def pumpVersion (id : Uuid) (version : String) : ModelVersion :=
  { id, modelId := 1, version, stage := .draft, algorithm := none, artifactUri := "s3://pump"
    trainingDataRef := none, tags := [], approvedBy := none, approvedAt := none
    createdBy := none }

/-- The event of its creation. -/
def creationEvent (id versionId : Uuid) : ModelVersionEvent :=
  (recordVersionEvent versionId none .draft 9 none .createVersion).1 id

/-- The history of version `1.0` is opened, and then that of `2.0`, whose events arrive first. -/
def overtakenHistory : List DetailAction :=
  [.respond 0 (.model ⟨1, "pump", "pump", "ops", "pytorch", [], none⟩),
    .respond 0 (.versions [pumpVersion 2 "2.0", pumpVersion 1 "1.0"] 2),
    .openHistory (pumpVersion 1 "1.0"), .openHistory (pumpVersion 2 "2.0"),
    .respond 1 (.events [creationEvent 2 2] 1), .respond 0 (.events [creationEvent 1 1] 1)]

/-- The events of `1.0` arrive before the history of `2.0` is opened. -/
def historiesInOrder : List DetailAction :=
  [.respond 0 (.model ⟨1, "pump", "pump", "ops", "pytorch", [], none⟩),
    .respond 0 (.versions [pumpVersion 2 "2.0", pumpVersion 1 "1.0"] 2),
    .openHistory (pumpVersion 1 "1.0"), .respond 0 (.events [creationEvent 1 1] 1),
    .openHistory (pumpVersion 2 "2.0"), .respond 0 (.events [creationEvent 2 2] 1)]

/-- The console does not always show the data of what is selected: in the end of `overtakenSummary`
the summary of the pump is shown for the valve, and in the end of `overtakenHistory` the history of
`1.0` for `2.0`. -/
theorem not_shows_of_reach :
    (¬∀ s, Reach MonitoringDashboard.step (fun _ _ => True) .init s → s.ShowsSelected) ∧
      ¬∀ s, Reach ModelDetail.step (fun _ _ => True) .init s → s.ShowsHistory := by
  constructor
  · intro h
    generalize hs : exec MonitoringDashboard.step (fun _ _ => True) .init overtakenSummary = s
    have hselected : s.selected.map MonitoringSummary.modelId = some 1 := by
      rw [← hs]
      decide
    have hid : s.selectedId = some 2 := by
      rw [← hs]
      decide
    obtain ⟨summary, hsummary, hmodel⟩ := Option.map_eq_some_iff.mp hselected
    have hshows := h s (hs ▸ exec_reach _ _ _ _) summary hsummary
    rw [hid, hmodel] at hshows
    exact absurd hshows (by decide)
  · intro h
    generalize hs : exec ModelDetail.step (fun _ _ => True) .init overtakenHistory = s
    have hevents : s.historyEvents.map ModelVersionEvent.modelVersionId = [1] := by
      rw [← hs]
      decide
    have hversion : s.historyVersion.map ModelVersion.id = some 2 := by
      rw [← hs]
      decide
    obtain ⟨e, he, habout⟩ := List.mem_map.mp (hevents ▸ List.mem_singleton_self 1)
    obtain ⟨v, hv, hid⟩ := h s (hs ▸ exec_reach _ _ _ _) e he
    rw [hv, Option.map_some, ← hid, habout] at hversion
    exact absurd hversion (by decide)

/-- In the runs in which a response is overtaken something arrives late; in the other two nothing
does. -/
theorem shows_iff_of_trace_overtaken :
    ¬((∀ x ∈ execSteps MonitoringDashboard.step (fun _ _ => True) .init overtakenSummary,
        x.1.ShowsSelected) ∧
      (exec MonitoringDashboard.step (fun _ _ => True) .init overtakenSummary).ShowsSelected) ∧
    ¬((∀ x ∈ execSteps ModelDetail.step (fun _ _ => True) .init overtakenHistory,
        x.1.ShowsHistory) ∧
      (exec ModelDetail.step (fun _ _ => True) .init overtakenHistory).ShowsHistory) ∧
    (exec MonitoringDashboard.step (fun _ _ => True) .init summariesInOrder).ShowsSelected ∧
    (exec ModelDetail.step (fun _ _ => True) .init historiesInOrder).ShowsHistory := by
  obtain ⟨hsummary, hhistory⟩ := shows_iff_of_trace
    (exec_trace MonitoringDashboard.step (fun _ _ => True) .init overtakenSummary)
    (exec_trace ModelDetail.step (fun _ _ => True) .init overtakenHistory)
  obtain ⟨hsummary', hhistory'⟩ := shows_iff_of_trace
    (exec_trace MonitoringDashboard.step (fun _ _ => True) .init summariesInOrder)
    (exec_trace ModelDetail.step (fun _ _ => True) .init historiesInOrder)
  have hlate : (execSteps MonitoringDashboard.step (fun _ _ => True) .init overtakenSummary).any
      MonitoringDashboard.late = true := by decide
  have hlate' : (execSteps ModelDetail.step (fun _ _ => True) .init overtakenHistory).any
      ModelDetail.late = true := by decide
  have horder : (execSteps MonitoringDashboard.step (fun _ _ => True) .init summariesInOrder).any
      MonitoringDashboard.late = false := by decide
  have horder' : (execSteps ModelDetail.step (fun _ _ => True) .init historiesInOrder).any
      ModelDetail.late = false := by decide
  obtain ⟨x, hx, hbad⟩ := List.any_eq_true.mp hlate
  obtain ⟨x', hx', hbad'⟩ := List.any_eq_true.mp hlate'
  exact ⟨fun hshows => hsummary.mp hshows x hx hbad,
    fun hshows => hhistory.mp hshows x' hx' hbad',
    (hsummary'.mpr fun x hx => List.any_eq_false.mp horder x hx).2,
    (hhistory'.mpr fun x hx => List.any_eq_false.mp horder' x hx).2⟩

end MlopsPlatform.Console
