import MlopsPlatform.Atomic
import MlopsPlatform.Library.Descent

/-!
# Rollback chains

A rollback records its target, and the target may be rolled back later, or by another administrator
between the read of the first rollback and its commit. So `rolled_back_to_id` may lead to a
deployment that is itself ROLLED_BACK. It leads to one with a smaller id that SUCCEEDED, though, and
what SUCCEEDED can only be rolled back in its turn (`RowStep.finished`). Hence following the
pointers comes to an end at a deployment that is SUCCEEDED now, in the same environment, and no
environment is left without one.
-/

namespace MlopsPlatform

open Transition

variable {lower : String → String}

/-! ## Pointers -/

/-- The call is a rollback. -/
def Call.isRollback : Call → Bool
  | rollbackDeployment _ _ => true
  | _ => false

/-- The steps of runs in which a rollback may commit later than it reads, and all else is atomic. -/
abbrev RollbackSteps : State → ℕ × Action → Prop := AtomicExcept Call.isRollback

/-- Two states of one deployment: they agree in what its request has fixed. -/
def Deployment.SameRequest (e d : Deployment) : Prop :=
  e.id = d.id ∧ e.modelId = d.modelId ∧ e.modelVersionId = d.modelVersionId ∧
    e.environment = d.environment

/-- A write leaves what the request of a deployment has fixed. -/
theorem Deployment.sameRequest_onDeployment (u : UnitOfWork) (d : Deployment) :
    (u.onDeployment d).SameRequest d :=
  ⟨u.onDeployment_id d, u.onDeployment_frame d⟩

/-- A pointer from a deployment leads to an older finished deployment of its model and environment,
of another version. -/
def Db.PointsTo (db : Db) (d : Deployment) (id : Uuid) : Prop :=
  ∃ t, db.deployments.get? id = some t ∧ t.finished = true ∧ t.id < d.id ∧ t.modelId = d.modelId ∧
    t.environment = d.environment ∧ t.modelVersionId ≠ d.modelVersionId

/-- The ROLLED_BACK deployments have a good pointer, and no other ones have any. -/
def Db.Pointed (db : Db) : Prop :=
  ∀ d ∈ db.deployments,
    (d.status = .rolledBack → ∃ id, d.rolledBackToId = some id ∧ db.PointsTo d id) ∧
    (d.status ≠ .rolledBack → d.rolledBackToId = none)

/-- Every finished deployment stays and is still finished. -/
def Db.KeepsPointers (db db' : Db) : Prop :=
  ∀ id d, db.deployments.get? id = some d → d.finished = true →
    ∃ d', db'.deployments.get? id = some d' ∧ d'.finished = true ∧ d'.SameRequest d

/-- Where finished deployments stay, pointers stay good. -/
theorem Db.PointsTo.mono {db db' : Db} (h : db.KeepsPointers db') {d e : Deployment} {id : Uuid}
    (hd : db.PointsTo d id) (hed : e.SameRequest d) : db'.PointsTo e id := by
  obtain ⟨t, ht, hfin, hlt, hmodel, henvironment, hversion⟩ := hd
  obtain ⟨t', ht', hfin', hid', hmodel', hversion', henvironment'⟩ := h id t ht hfin
  obtain ⟨hid, hm, hv, he⟩ := hed
  refine ⟨t', ht', hfin', ?_, ?_, ?_, ?_⟩
  · rw [hid', hid]
    exact hlt
  · rw [hmodel', hmodel, hm]
  · rw [henvironment', henvironment, he]
  · rw [hversion', hv]
    exact hversion

/-- A write that leaves the finished deployments finished keeps the pointers good. -/
theorem keepsPointers_write {db : Db} {u : UnitOfWork}
    (h : ∀ d ∈ db.deployments, d.finished = true → (u.onDeployment d).finished = true) :
    db.KeepsPointers (db.write u) := by
  intro id d hd hfin
  exact ⟨_, Db.get?_deployments_write u hd, h d (Table.get?_eq_some.mp hd).1 hfin,
    Deployment.sameRequest_onDeployment u d⟩

/-! ## Rollbacks between their read and their commit -/

/-- What a rollback has staged: it makes a deployment that it has read as SUCCEEDED, and that is
still finished, ROLLED_BACK with a good pointer. -/
def Db.Pending (db : Db) (u : UnitOfWork) : Prop :=
  ∃ d id events,
    u = .updateDeployments
      [⟨d, { d with status := .rolledBack, rolledBackToId := some id }⟩] events ∧
    d.status = .succeeded ∧ d.rolledBackToId = none ∧ db.PointsTo d id ∧
    ∃ stored, db.deployments.get? d.id = some stored ∧ stored.finished = true ∧
      stored.SameRequest d

/-- A rollback that has read its target is pending. -/
theorem pending_of_returns {db : Db} (hdb : db.Pointed) {call : Call} {u : UnitOfWork}
    (hcall : call.isRollback = true) (hc : call.Returns lower db u) : db.Pending u := by
  cases call with
  | rollbackDeployment actorId deploymentId =>
    obtain ⟨d, t, hd, hs, ht, rfl⟩ := rollbackDeployment_eq_ok.mp hc
    obtain ⟨htmem, ⟨henvironment, hstatus, hmodel, hversion, hlt⟩, -⟩ :=
      rollbackTarget_eq_some.mp ht
    have hmem := (Table.get?_eq_some.mp hd).1
    -- A SUCCEEDED row has no pointer yet.
    have hpointer : d.rolledBackToId = none := (hdb d hmem).2 (by simp [hs])
    refine ⟨d, t.id, _, rfl, hs, hpointer, ?_, d, Table.get?_key hmem, ?_, rfl, rfl, rfl, rfl⟩
    · exact ⟨t, Table.get?_key htmem, by simp [Deployment.finished, hstatus], hlt, hmodel,
        henvironment, hversion⟩
    · simp [Deployment.finished, hs]
  | _ => exact absurd hcall (by simp [Call.isRollback])

/-- A pending rollback stays so while finished deployments stay. -/
theorem Db.Pending.mono {db db' : Db} {u : UnitOfWork} (h : db.KeepsPointers db')
    (hu : db.Pending u) : db'.Pending u := by
  obtain ⟨d, id, events, rfl, hs, hpointer, hpoints, stored, hstored, hfin, hsame⟩ := hu
  obtain ⟨stored', hstored', hfin', hid', hmodel', hversion', henvironment'⟩ :=
    h d.id stored hstored hfin
  obtain ⟨hid, hmodel, hversion, henvironment⟩ := hsame
  refine ⟨d, id, events, rfl, hs, hpointer, hpoints.mono h ⟨rfl, rfl, rfl, rfl⟩, stored', hstored',
    hfin', hid'.trans hid, hmodel'.trans hmodel, hversion'.trans hversion,
    henvironment'.trans henvironment⟩

/-! ## What a commit does to the pointers -/

/-- A row is left as it is, moves between other statuses with its pointer as it is, or becomes
ROLLED_BACK with a good pointer. -/
def Db.PointerStep (db : Db) (d d' : Deployment) : Prop :=
  d' = d ∨
    (d.status ≠ .rolledBack ∧ d'.status ≠ .rolledBack ∧ d'.rolledBackToId = d.rolledBackToId) ∨
    (d'.status = .rolledBack ∧ ∃ id, d'.rolledBackToId = some id ∧ db.PointsTo d id)

/-- The commit of a pending rollback leaves a row as it is, or makes it ROLLED_BACK with a good
pointer. -/
theorem Db.Pending.onDeployment_cases {db : Db} {u : UnitOfWork} (hu : db.Pending u)
    {e : Deployment} (he : e ∈ db.deployments) :
    u.onDeployment e = e ∨
      ((u.onDeployment e).status = .rolledBack ∧
        ∃ id, (u.onDeployment e).rolledBackToId = some id ∧ db.PointsTo e id) := by
  obtain ⟨d, id, events, rfl, hs, hpointer, hpoints, stored, hstored, -, hsame⟩ := hu
  rcases UnitOfWork.onDeployment_cases _ e with heq | ⟨dirty, events', x, hx, hmem, hid, heq⟩
  · exact Or.inl heq
  · obtain ⟨rfl, -⟩ := UnitOfWork.updateDeployments.inj hx
    obtain rfl := List.mem_singleton.mp hmem
    obtain ⟨hmem', hkey⟩ := Table.get?_eq_some.mp hstored
    -- The update lands on the row that was read, whatever its status is by now.
    obtain rfl : stored = e := db.deployments.eq_of_key_eq hmem' he (hkey.trans hid)
    have hpoints' : db.PointsTo stored id :=
      hpoints.mono (fun id d hd hfin => ⟨d, hd, hfin, rfl, rfl, rfl, rfl⟩) hsame
    rw [heq]
    refine Or.inr ⟨?_, id, ?_, hpoints'⟩
    · show flushColumn d.status .rolledBack stored.status = .rolledBack
      rw [flushColumn, hs, if_neg (by decide)]
    · show flushColumn d.rolledBackToId (some id) stored.rolledBackToId = some id
      rw [flushColumn, hpointer, if_neg (by simp)]

/-- An atomic step takes the rows through pointer steps. -/
theorem RowStep.pointerStep {db : Db} {w : Writer} {d d' : Deployment} (h : RowStep db w d d') :
    db.PointerStep d d' := by
  cases h with
  | same => exact Or.inl rfl
  | claim workerId now hs => exact Or.inr (Or.inl ⟨by simp [hs], by simp, rfl⟩)
  | work hrun hwrite =>
    obtain ⟨-, hne⟩ := Deployment.status_of_running hrun
    refine Or.inr (Or.inl ?_)
    cases hwrite with
    | deploy hv => exact ⟨hne, by simp, rfl⟩
    | reject hv => exact ⟨hne, by simp, rfl⟩
    | timeout hf => exact ⟨hne, by simp, rfl⟩
    | complete hf => exact ⟨hne, by simp, rfl⟩
  | reap hrun =>
    obtain ⟨-, hne⟩ := Deployment.status_of_running hrun
    refine Or.inr (Or.inl ⟨hne, ?_⟩)
    unfold reaped
    split_ifs
    · exact ⟨by simp, rfl⟩
    · exact ⟨by simp, rfl⟩
  | retry actorId hs => exact Or.inr (Or.inl ⟨by simp [hs], by simp, rfl⟩)
  | @rollback d t actorId hs ht =>
    obtain ⟨htmem, ⟨henvironment, hstatus, hmodel, hversion, hlt⟩, -⟩ :=
      rollbackTarget_eq_some.mp ht
    exact Or.inr (Or.inr ⟨rfl, t.id, rfl, t, Table.get?_key htmem,
      by simp [Deployment.finished, hstatus], hlt, hmodel, henvironment, hversion⟩)

/-- A write that takes the rows through pointer steps and keeps the finished ones keeps all pointers
good, if it inserts none. -/
theorem pointed_write {db : Db} {u : UnitOfWork} (hdb : db.Pointed)
    (hkeeps : db.KeepsPointers (db.write u))
    (hstep : ∀ d ∈ db.deployments, db.PointerStep d (u.onDeployment d))
    (hinsert : ∀ deployment event, u = .insertDeployment deployment event →
      ∀ id, (deployment.1 id).status ≠ .rolledBack ∧ (deployment.1 id).rolledBackToId = none) :
    (db.write u).Pointed := by
  intro d' hd'
  rcases Db.mem_deployments_write hd' with ⟨d, hd, rfl⟩ | ⟨deployment, event, hu, rfl⟩
  · have hsame := Deployment.sameRequest_onDeployment u d
    rcases hstep d hd with heq | ⟨hne, hne', hpointer⟩ | ⟨hs, id, hpointer, hpoints⟩
    · rw [heq] at hsame ⊢
      refine ⟨fun hs => ?_, (hdb d hd).2⟩
      obtain ⟨id, hpointer, hpoints⟩ := (hdb d hd).1 hs
      exact ⟨id, hpointer, hpoints.mono hkeeps hsame⟩
    · refine ⟨fun hs => absurd hs hne', fun _ => ?_⟩
      rw [hpointer]
      exact (hdb d hd).2 hne
    · exact ⟨fun _ => ⟨id, hpointer, hpoints.mono hkeeps hsame⟩, fun hne => absurd hs hne⟩
  · obtain ⟨hne, hpointer⟩ := hinsert deployment event hu db.deployments.next
    exact ⟨fun hs => absurd hs hne, fun _ => hpointer⟩

/-- A commit of a run with split rollbacks keeps the pointers good, and the finished deployments. -/
theorem pointed_committed {db : Db} {w : Writer} {u : UnitOfWork} (hdb : db.Pointed)
    (hu : (∃ call, w = .api call ∧ call.isRollback = true ∧ db.Pending u) ∨
      AtomicWrite lower db w u) :
    (db.write u).Pointed ∧ db.KeepsPointers (db.write u) := by
  rcases hu with ⟨call, -, -, hpending⟩ | hatomic
  · have hkeeps : db.KeepsPointers (db.write u) := by
      refine keepsPointers_write fun d hd hfin => ?_
      rcases hpending.onDeployment_cases hd with heq | ⟨hs, -⟩
      · rw [heq]
        exact hfin
      · simp [Deployment.finished, hs]
    have hstep : ∀ d ∈ db.deployments, db.PointerStep d (u.onDeployment d) :=
      fun d hd => (hpending.onDeployment_cases hd).imp_right Or.inr
    refine ⟨pointed_write hdb hkeeps hstep ?_, hkeeps⟩
    rintro deployment event rfl
    obtain ⟨d, id, events, hupdate, -⟩ := hpending
    exact absurd hupdate (by simp)
  · have hkeeps : db.KeepsPointers (db.write u) :=
      keepsPointers_write fun d hd hfin => (hatomic.rowStep hd).finished hfin
    refine ⟨pointed_write hdb hkeeps (fun d hd => (hatomic.rowStep hd).pointerStep) ?_, hkeeps⟩
    rintro deployment event rfl id
    obtain ⟨actorId, correlationId, data, v, -, -, -, hrow⟩ := hatomic.insert
    rw [hrow]
    exact ⟨by simp, rfl⟩

/-! ## Runs -/

/-- In runs with split rollbacks all pointers are good, and so are those of the pending rollbacks.
-/
theorem reach_pointed {s : State} (h : Reach (step lower) RollbackSteps .init s) :
    s.shared.Pointed ∧ s.Holds fun db w u => (w = .worker ∧ ∃ d, u = startValidation d) ∨
      ∃ call, w = .api call ∧ call.isRollback = true ∧ db.Pending u := by
  refine reach_atomicExcept (R := Db.KeepsPointers) h ?_ (fun _ => rfl) ?_ ?_ ?_ ?_
  · exact fun d hd => absurd hd (List.not_mem_nil (a := d))
  · intro db call u hdb hcall hc
    exact pending_of_returns hdb hcall hc
  · intro db w u hdb hu _
    exact pointed_committed hdb hu
  · exact fun db id d hd hfin => ⟨d, hd, hfin, rfl, rfl, rfl, rfl⟩
  · exact fun db db' u hkeeps hu => hu.mono hkeeps

/-- In runs with split rollbacks finished deployments stay from one state to a later one. -/
theorem keepsPointers_of_reach {s t : State} (hs : Reach (step lower) RollbackSteps .init s)
    (ht : Reach (step lower) RollbackSteps s t) : s.shared.KeepsPointers t.shared := by
  refine ht.rel (R := fun s t => s.shared.KeepsPointers t.shared) ?_ ?_ ?_
  · exact fun s id d hd hfin => ⟨d, hd, hfin, rfl, rfl, rfl, rfl⟩
  · intro a b c hab hbc id d hd hfin
    obtain ⟨d', hd', hfin', hid, hmodel, hversion, henvironment⟩ := hab id d hd hfin
    obtain ⟨d'', hd'', hfin'', hid', hmodel', hversion', henvironment'⟩ := hbc id d' hd' hfin'
    exact ⟨d'', hd'', hfin'', hid'.trans hid, hmodel'.trans hmodel, hversion'.trans hversion,
      henvironment'.trans henvironment⟩
  · rintro a ⟨i, action⟩ b hsa hok hstep
    rcases stepWith_cases hstep with hsame | ⟨w, u, hcom, hwritten, -⟩
    · rw [hsame]
      exact fun id d hd hfin => ⟨d, hd, hfin, rfl, rfl, rfl, rfl⟩
    · obtain ⟨hpointed, hheld⟩ := reach_pointed (hs.trans hsa)
      rw [hwritten]
      exact (pointed_committed hpointed (committed_atomicExcept hheld hok hcom)).2

/-- The deployment that a ROLLED_BACK one was rolled back to. -/
def Db.fallback (db : Db) (d : Deployment) : Option Deployment :=
  if d.status = .rolledBack then d.rolledBackToId.bind db.deployments.get? else none

/-- Each hop goes to an older finished deployment of the same model and environment, of another
version. -/
theorem Db.Pointed.fallback {db : Db} (h : db.Pointed) {d : Deployment} (hd : d ∈ db.deployments)
    (hs : d.status = .rolledBack) :
    ∃ e, db.fallback d = some e ∧ e ∈ db.deployments ∧ e.finished = true ∧ e.id < d.id ∧
      e.modelId = d.modelId ∧ e.environment = d.environment ∧
      e.modelVersionId ≠ d.modelVersionId := by
  obtain ⟨id, hpointer, e, he, hfin, hlt, hmodel, henvironment, hversion⟩ := (h d hd).1 hs
  refine ⟨e, ?_, (Table.get?_eq_some.mp he).1, hfin, hlt, hmodel, henvironment, hversion⟩
  rw [Db.fallback, if_pos hs, hpointer]
  exact he

/-- From a finished deployment the hops lead to a SUCCEEDED one of its model and environment. -/
theorem Db.Pointed.exists_succeeded {db : Db} (h : db.Pointed) {d : Deployment}
    (hd : d ∈ db.deployments) (hfin : d.finished = true) :
    ∃ e ∈ db.deployments, e.status = .succeeded ∧ Descent.Leads db.fallback d e ∧
      e.modelId = d.modelId ∧ e.environment = d.environment := by
  have hhop : ∀ a b : Deployment,
      (a ∈ db.deployments ∧ a.finished = true ∧ a.modelId = d.modelId ∧
        a.environment = d.environment) → db.fallback a = some b →
      (b ∈ db.deployments ∧ b.finished = true ∧ b.modelId = d.modelId ∧
        b.environment = d.environment) ∧ b.id < a.id := by
    rintro a b ⟨ha, -, hmodel, henvironment⟩ hab
    have hs : a.status = .rolledBack := by
      by_contra hne
      rw [Db.fallback, if_neg hne] at hab
      exact absurd hab (by simp)
    obtain ⟨f, hf, hmem, hfin', hlt, hmodel', henvironment', -⟩ := h.fallback ha hs
    obtain rfl := Option.some.inj (hab.symm.trans hf)
    exact ⟨⟨hmem, hfin', hmodel'.trans hmodel, henvironment'.trans henvironment⟩, hlt⟩
  obtain ⟨e, hleads, hend, he, hfin', hmodel, henvironment⟩ :=
    Descent.exists_end Deployment.id hhop ⟨hd, hfin, rfl, rfl⟩
  refine ⟨e, he, ?_, hleads, hmodel, henvironment⟩
  -- The end is not ROLLED_BACK, or there would be another hop.
  by_contra hne
  have hs : e.status = .rolledBack := by
    simp only [Deployment.finished, Bool.or_eq_true, decide_eq_true_eq] at hfin'
    exact hfin'.resolve_left hne
  obtain ⟨f, hf, -⟩ := h.fallback he hs
  rw [hend] at hf
  exact absurd hf (by simp)

/-- In every run in which rollbacks are interleaved between their read and their commit and all else
is atomic: each hop from a ROLLED_BACK deployment goes to a smaller id in the same model and
environment and changes the version, the hops lead to a deployment that is SUCCEEDED now, and a
model that had a SUCCEEDED deployment in an environment has one there in every later state. -/
theorem chains_of_reach {s t : State} (hs : Reach (step lower) RollbackSteps .init s)
    (ht : Reach (step lower) RollbackSteps s t) :
    (∀ d ∈ t.shared.deployments, d.status = .rolledBack →
      ∃ e, t.shared.fallback d = some e ∧ e.id < d.id ∧ e.modelId = d.modelId ∧
        e.environment = d.environment ∧ e.modelVersionId ≠ d.modelVersionId) ∧
    (∀ d ∈ t.shared.deployments, d.status = .rolledBack →
      ∃ e ∈ t.shared.deployments, e.status = .succeeded ∧ Descent.Leads t.shared.fallback d e ∧
        e.modelId = d.modelId ∧ e.environment = d.environment) ∧
    (∀ d ∈ s.shared.deployments, d.status = .succeeded →
      ∃ e ∈ t.shared.deployments, e.status = .succeeded ∧ e.modelId = d.modelId ∧
        e.environment = d.environment) := by
  obtain ⟨hpointed, -⟩ := reach_pointed (hs.trans ht)
  refine ⟨fun d hd hback => ?_, fun d hd hback => ?_, fun d hd hsucceeded => ?_⟩
  · obtain ⟨e, he, -, -, hlt, hmodel, henvironment, hversion⟩ := hpointed.fallback hd hback
    exact ⟨e, he, hlt, hmodel, henvironment, hversion⟩
  · exact hpointed.exists_succeeded hd (by simp [Deployment.finished, hback])
  · -- The deployment is still finished, and the hops from it end at a SUCCEEDED one.
    obtain ⟨d', hd', hfin, -, hmodel, -, henvironment⟩ := keepsPointers_of_reach hs ht d.id d
      (Table.get?_key hd) (by simp [Deployment.finished, hsucceeded])
    obtain ⟨e, he, hs', -, hmodel', henvironment'⟩ :=
      hpointed.exists_succeeded (Table.get?_eq_some.mp hd').1 hfin
    exact ⟨e, he, hs', hmodel'.trans hmodel, henvironment'.trans henvironment⟩

/-- Versions 1, 2, and 1 again are deployed to development, and two administrators read the target
of a rollback each, of the third deployment and of the second one. -/
def pendingRollbacksRun : List (ℕ × Action) :=
  twoDeployments ++ [(0, request 1 .development false)] ++ executeJob 1 "a" 30 ++
    [(2, .start (.rollbackDeployment 7 3)), (3, .start (.rollbackDeployment 8 2))]

/-- The chain after both rollbacks have committed, the second deployment's first. -/
theorem chains_of_reach_pendingRollbacksRun :
    ∃ s t, Reach (step id) RollbackSteps .init s ∧ Reach (step id) RollbackSteps s t ∧
      s.shared.deployments.rows.map Deployment.status = [.succeeded, .succeeded, .succeeded] ∧
      t.shared.deployments.rows.map (fun d => (d.status, d.rolledBackToId)) =
        [(.succeeded, none), (.rolledBack, some 1), (.rolledBack, some 2)] ∧
      (∀ d ∈ t.shared.deployments, d.status = .rolledBack →
        ∃ e, t.shared.fallback d = some e ∧ e.id < d.id ∧ e.modelId = d.modelId ∧
          e.environment = d.environment ∧ e.modelVersionId ≠ d.modelVersionId) ∧
      (∀ d ∈ t.shared.deployments, d.status = .rolledBack →
        ∃ e ∈ t.shared.deployments, e.status = .succeeded ∧ Descent.Leads t.shared.fallback d e ∧
          e.modelId = d.modelId ∧ e.environment = d.environment) ∧
      (∀ d ∈ s.shared.deployments, d.status = .succeeded →
        ∃ e ∈ t.shared.deployments, e.status = .succeeded ∧ e.modelId = d.modelId ∧
          e.environment = d.environment) := by
  have hs := exec_reach (step id) RollbackSteps .init pendingRollbacksRun
  have ht := exec_reach (step id) RollbackSteps
    (exec (step id) RollbackSteps .init pendingRollbacksRun) [(3, .commit), (2, .commit)]
  exact ⟨_, _, hs, ht, by decide, by decide, chains_of_reach hs ht⟩

end MlopsPlatform
