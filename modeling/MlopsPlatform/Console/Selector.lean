import MlopsPlatform.Console.MonitoringDashboard
import MlopsPlatform.Widths

/-!
# The selector of versions and environments

The dashboard joins the version and the environment of a combination with `|` to make the value of
its option, and splits the value at `|` when the option is chosen. The environments have no `|`, so
that the last one separates the two and different combinations have different values
(`refKey_injective`). The split takes the first one instead: it gives the combination back exactly
if the version has no `|` (`changeCombo_refKey_iff`), and the API admits any characters there.
-/

namespace MlopsPlatform.Console

/-- No environment has a `|`. -/
theorem bar_notMem_environment (environment : Environment) : '|' ∉ environment.value.toList := by
  cases environment <;> decide

/-- The characters of an option's value. -/
theorem toList_refKey (version : String) (environment : Environment) :
    (refKey (.ofSeries (version, environment))).toList =
      version.toList ++ '|' :: environment.value.toList := by
  show (version ++ "|" ++ environment.value).toList = _
  rw [String.toList_append, String.toList_append, List.append_assoc]
  rfl

/-- Two texts that end in a separator and a part without it are the same only if both are. -/
theorem append_cons_inj {α : Type} [DecidableEq α] {x : α} {as bs cs ds : List α} (hbs : x ∉ bs)
    (hds : x ∉ ds) (h : as ++ x :: bs = cs ++ x :: ds) : as = cs ∧ bs = ds := by
  -- Read backwards, the separator is the first one.
  have hreverse : bs.reverse ++ x :: as.reverse = ds.reverse ++ x :: cs.reverse := by
    have h' := congrArg List.reverse h
    simpa using h'
  have hbs' : x ∉ bs.reverse := mt List.mem_reverse.mp hbs
  have hds' : x ∉ ds.reverse := mt List.mem_reverse.mp hds
  have hsplit := congrArg (List.splitOn x) hreverse
  rw [List.splitOn_append_cons_self_of_not_mem hbs', List.splitOn_append_cons_self_of_not_mem hds']
    at hsplit
  obtain ⟨hlast, -⟩ := List.cons.inj hsplit
  have hsame : bs = ds := List.reverse_inj.mp hlast
  rw [hsame] at h
  exact ⟨List.append_cancel_right h, hsame⟩

/-- Different combinations have different values. -/
theorem refKey_injective {version version' : String} {environment environment' : Environment}
    (h : refKey (.ofSeries (version, environment)) = refKey (.ofSeries (version', environment'))) :
    version = version' ∧ environment = environment' := by
  have hlists := congrArg String.toList h
  rw [toList_refKey, toList_refKey] at hlists
  obtain ⟨hversion, hvalue⟩ := append_cons_inj (bar_notMem_environment environment)
    (bar_notMem_environment environment') hlists
  refine ⟨String.toList_inj.mp hversion, ?_⟩
  have hvalues : environment.value = environment'.value := String.toList_inj.mp hvalue
  revert hvalues
  cases environment <;> cases environment' <;> decide

/-- The split of an option's value gives a version without `|` back, and the environment. -/
theorem splitKey_refKey {version : String} (h : '|' ∉ version.toList) (environment : Environment) :
    splitKey (refKey (.ofSeries (version, environment))) = [version, environment.value] := by
  unfold splitKey
  rw [toList_refKey, List.splitOn_append_cons_self_of_not_mem h,
    List.splitOn_eq_singleton (bar_notMem_environment environment)]
  simp only [List.map_cons, List.map_nil, String.ofList_toList]

/-- The split of an option's value gives of a version with a `|` what is before the first one. -/
theorem splitKey_refKey_of_mem {version : String} (h : '|' ∈ version.toList)
    (environment : Environment) :
    ∃ first rest, splitKey (refKey (.ofSeries (version, environment))) = first :: rest ∧
      first ≠ version := by
  obtain ⟨before, after, hlist, hbefore⟩ := List.eq_append_cons_of_mem h
  refine ⟨String.ofList before, ((after ++ '|' :: environment.value.toList).splitOn '|').map
    String.ofList, ?_, ?_⟩
  · unfold splitKey
    rw [toList_refKey, hlist, List.append_assoc, List.cons_append,
      List.splitOn_append_cons_self_of_not_mem hbefore, List.map_cons]
  · intro heq
    have hsame : before = version.toList := by
      rw [← heq, String.toList_ofList]
    rw [hsame] at hbefore
    exact hbefore h

/-- A text that is not empty is left in. -/
theorem truthy_some {text : String} (h : text ≠ "") : truthy (some text) = some text := by
  simp [truthy, h]

/-- What is left in is the text. -/
theorem truthy_eq_some {value : Option String} {text : String} (h : truthy value = some text) :
    value = some text := (Option.filter_eq_some_iff.mp h).1

/-- No environment is empty. -/
theorem environment_ne_empty (environment : Environment) : environment.value ≠ "" := by
  cases environment <;> decide

section

variable {s : MonitoringDashboard} {version : String} {environment : Environment}

/-- Choosing an option requests the metrics for the first two parts of its value. -/
theorem requests_changeCombo {id : Uuid} (hid : s.selectedId = some id) (key : String) :
    (s.changeCombo key).requests =
      s.requests ++ [modelMetrics id (splitKey key)[0]? (splitKey key)[1]?] := by
  unfold MonitoringDashboard.changeCombo
  rw [hid]
  rfl

/-- The option of a combination is decoded exactly if the version has no `|`. -/
theorem requests_changeCombo_refKey {id : Uuid} (hid : s.selectedId = some id)
    (hne : version ≠ "") :
    (s.changeCombo (refKey (.ofSeries (version, environment)))).requests =
        s.requests ++ [.modelMetrics id (some version) (some environment.value)] ↔
      '|' ∉ version.toList := by
  rw [requests_changeCombo hid, List.append_cancel_left_eq, List.singleton_inj]
  constructor
  · intro hdecoded hbar
    obtain ⟨first, rest, hsplit, hfirst⟩ := splitKey_refKey_of_mem hbar environment
    rw [hsplit] at hdecoded
    obtain ⟨-, hparam, -⟩ := DashboardRequest.modelMetrics.inj hdecoded
    exact hfirst (Option.some.inj (truthy_eq_some hparam))
  · intro hbar
    rw [splitKey_refKey hbar]
    show modelMetrics id (some version) (some environment.value) = _
    rw [modelMetrics, truthy_some hne, truthy_some (environment_ne_empty environment)]

/-- The value of an option is not empty. -/
theorem refKey_ne_empty : refKey (.ofSeries (version, environment)) ≠ "" := by
  intro h
  have hlist := congrArg String.toList h
  rw [toList_refKey] at hlist
  exact absurd hlist (by simp)

/-- The selector shows the option of a combination exactly if the summary is the combination's. -/
theorem currentKey_eq_refKey (hne : version ≠ "") :
    s.currentKey = refKey (.ofSeries (version, environment)) ↔
      ∃ summary, s.selected = some summary ∧ summary.version = some version ∧
        summary.environment = some environment := by
  unfold MonitoringDashboard.currentKey
  constructor
  · intro h
    split at h
    · rename_i summary hsummary
      split at h
      · rename_i shown shownIn hshown hshownIn
        obtain ⟨rfl, rfl⟩ := refKey_injective (h : refKey (.ofSeries (shown, shownIn)) = _)
        exact ⟨summary, hsummary, truthy_eq_some hshown, hshownIn⟩
      · exact absurd h.symm refKey_ne_empty
    · exact absurd h.symm refKey_ne_empty
  · rintro ⟨summary, hsummary, hshown, hshownIn⟩
    simp only [hsummary, hshown, hshownIn, truthy_some hne]
    rfl

end

/-- The selector decodes what it encoded. For every combination with a version that the API admits:
choosing its option requests the metrics of exactly that version and environment if and only if the
version has no `|`. Its value is that of no other combination, whatever the versions, and is the
selector's current one exactly if the summary that is shown is the combination's. -/
theorem changeCombo_refKey_iff {version : String}
    (hversion : 1 ≤ version.length ∧ version.length ≤ 64) (environment : Environment) :
    (∀ (s : MonitoringDashboard) (id : Uuid), s.selectedId = some id →
      ((s.changeCombo (refKey (.ofSeries (version, environment)))).requests =
          s.requests ++ [.modelMetrics id (some version) (some environment.value)] ↔
        '|' ∉ version.toList)) ∧
      (∀ (version' : String) (environment' : Environment),
        refKey (.ofSeries (version', environment')) = refKey (.ofSeries (version, environment)) →
          version' = version ∧ environment' = environment) ∧
      ∀ s : MonitoringDashboard, s.currentKey = refKey (.ofSeries (version, environment)) ↔
        ∃ summary, s.selected = some summary ∧ summary.version = some version ∧
          summary.environment = some environment := by
  have hne : version ≠ "" := by
    rintro rfl
    exact absurd hversion.1 (by decide)
  exact ⟨fun s id hid => requests_changeCombo_refKey hid hne,
    fun version' environment' => refKey_injective, fun s => currentKey_eq_refKey hne⟩

/-- A dashboard that shows model 1. -/
def shown : MonitoringDashboard := { MonitoringDashboard.init with selectedId := some 1 }

/-- Not every option decodes: of version `1.0|rc1` in staging it requests version `1.0` in an
environment `rc1`. -/
theorem not_changeCombo_refKey :
    ¬∀ (version : String) (environment : Environment),
      1 ≤ version.length ∧ version.length ≤ 64 → ∀ (s : MonitoringDashboard) (id : Uuid),
        s.selectedId = some id →
          (s.changeCombo (refKey (.ofSeries (version, environment)))).requests =
            s.requests ++ [.modelMetrics id (some version) (some environment.value)] := by
  intro h
  have hrequests := h "1.0|rc1" .staging (by decide) shown 1 rfl
  have hdecoded : (shown.changeCombo (refKey (.ofSeries ("1.0|rc1", .staging)))).requests =
      shown.requests ++ [.modelMetrics 1 (some "1.0") (some "rc1")] := by decide
  rw [hdecoded] at hrequests
  exact absurd hrequests (by decide)

/-- Version `1.0` in staging is decoded. -/
theorem changeCombo_refKey_iff_staging :
    (shown.changeCombo (refKey (.ofSeries ("1.0", .staging)))).requests =
      shown.requests ++ [.modelMetrics 1 (some "1.0") (some "STAGING")] := by
  obtain ⟨hdecodes, -, -⟩ := @changeCombo_refKey_iff "1.0" (by decide) .staging
  exact (hdecodes shown 1 rfl).mpr (by decide)

end MlopsPlatform.Console
