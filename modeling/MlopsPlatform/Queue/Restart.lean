import MlopsPlatform.Queue.Draining
import MlopsPlatform.Queue.Recovery
import Mathlib.Data.Finset.Order

/-!
# Restarting the workers

When all processes have died, what is left of them is in the table. A restarted worker reaps and
drains. `restarted_of_reach` says what comes of it: from every state of a run that loses no lock,
one pass of the reaper, late enough for all locks to have timed out, and one run of `_drain_all` by
any number of workers leave no deployment in flight, and what becomes of each deployment depends on
its row and on the version alone (`restarted`).
-/

namespace MlopsPlatform

open Transition

variable {lower : String → String}

/-! ## The pass of the reaper -/

/-- `reap_stuck` with its SELECT and its commit at once. -/
def Db.reap (db : Db) (now timeoutSeconds : Time) : Db :=
  match reapStuck db now timeoutSeconds with
  | some u => db.write u
  | none => db

/-- What the reaper makes of a row once its lock has timed out. -/
def Deployment.released (d : Deployment) : Deployment := if d.running then reaped d else d

/-- What becomes of a deployment if all workers have died, and one is restarted. -/
def restarted (db : Db) (workerId : String) (d : Deployment) : Deployment :=
  if d.released.status = .requested then drained db workerId d.released else d.released

/-- The locks of all running jobs are older than the cutoff. -/
def Db.TimedOut (db : Db) (cutoff : Time) : Prop :=
  ∀ d ∈ db.deployments, d.running = true → isStuck cutoff d = true

/-- A released row has kept its id. -/
theorem Deployment.released_id (d : Deployment) : d.released.id = d.id := by
  unfold released reaped
  split_ifs
  · rfl
  · rfl
  · rfl

/-- No worker holds a released row. -/
theorem Deployment.released_running (d : Deployment) : d.released.running = false := by
  unfold released
  split_ifs with hrunning
  · exact reaped_running d
  · exact Bool.eq_false_iff.mpr hrunning

/-- A released row is in flight only if it is in the queue. -/
theorem Deployment.released_inFlight {d : Deployment} (h : d.released.status ≠ .requested) :
    d.released.inFlight = false := by
  have hrunning := d.released_running
  simp only [running, inFlight, Bool.or_eq_false_iff, decide_eq_false_iff_not] at hrunning ⊢
  exact ⟨⟨h, hrunning.1⟩, hrunning.2⟩

/-- All locks of running jobs have timed out from some time on. -/
theorem exists_late {db : Db} (h : db.Locked) (timeoutSeconds : Time) :
    ∃ t, ∀ now, t ≤ now → db.TimedOut (now - timeoutSeconds) := by
  obtain ⟨t, ht⟩ := (db.deployments.rows.filterMap Deployment.lockedAt).toFinset.exists_le
  refine ⟨t + timeoutSeconds + 1, fun now hnow d hd hrunning => ?_⟩
  obtain ⟨locked, hlocked⟩ := Option.isSome_iff_exists.mp (h d hd hrunning)
  have hle : locked ≤ t := by
    refine ht locked (List.mem_toFinset.mpr ?_)
    exact List.mem_filterMap.mpr ⟨d, hd, hlocked⟩
  have hlate : locked < now - timeoutSeconds := by
    have hlt : t < now - timeoutSeconds := by
      rw [lt_sub_iff_add_lt]
      exact lt_of_lt_of_le (Int.lt_succ _) hnow
    exact lt_of_le_of_lt hle hlt
  simp [isStuck, hrunning, hlocked, hlate]

section

variable {db : Db} {now timeoutSeconds : Time}

/-- A late pass of the reaper assigns to the rows what releases them. -/
theorem onDeployment_reap (hlate : db.TimedOut (now - timeoutSeconds)) {u : UnitOfWork}
    (hu : reapStuck db now timeoutSeconds = some u) {d : Deployment} (hd : d ∈ db.deployments) :
    u.onDeployment d = d.released := by
  rw [onDeployment_reapStuck hu hd, Deployment.released]
  by_cases hrunning : d.running = true
  · rw [if_pos (hlate d hd hrunning), if_pos hrunning]
  · rw [if_neg hrunning, if_neg fun hstuck => hrunning (running_of_isStuck hstuck)]

/-- If the reaper finds nothing, no row has to be released. -/
theorem released_of_reapStuck_eq_none (hlate : db.TimedOut (now - timeoutSeconds))
    (hnone : reapStuck db now timeoutSeconds = none) {d : Deployment} (hd : d ∈ db.deployments) :
    d.released = d := by
  refine if_neg fun hrunning => ?_
  obtain ⟨u, hu, -⟩ := reapStuck_of_isStuck hd (hlate d hd hrunning)
  rw [hnone] at hu
  exact absurd hu (by simp)

/-- A late pass of the reaper releases every row. -/
theorem get?_reap (hlate : db.TimedOut (now - timeoutSeconds)) {d : Deployment}
    (hd : d ∈ db.deployments) :
    (db.reap now timeoutSeconds).deployments.get? d.id = some d.released := by
  unfold Db.reap
  cases hu : reapStuck db now timeoutSeconds with
  | some u =>
    dsimp only
    rw [Db.get?_deployments_write u (Table.get?_key hd), onDeployment_reap hlate hu hd]
  | none =>
    dsimp only
    rw [released_of_reapStuck_eq_none hlate hu hd, Table.get?_key hd]

/-- A row after a late pass of the reaper is a released one. -/
theorem mem_reap (hlate : db.TimedOut (now - timeoutSeconds)) {d : Deployment}
    (hd : d ∈ (db.reap now timeoutSeconds).deployments) : ∃ e ∈ db.deployments, d = e.released := by
  unfold Db.reap at hd
  cases hu : reapStuck db now timeoutSeconds with
  | some u =>
    rw [hu] at hd
    obtain ⟨stuck, -, rfl⟩ := reapStuck_eq_some hu
    obtain ⟨e, he, rfl⟩ := Db.mem_deployments_update.mp hd
    exact ⟨e, he, onDeployment_reap hlate hu he⟩
  | none =>
    rw [hu] at hd
    exact ⟨d, hd, (released_of_reapStuck_eq_none hlate hu hd).symm⟩

/-- The reaper does not touch the versions. -/
theorem versions_reap : (db.reap now timeoutSeconds).versions = db.versions := by
  unfold Db.reap
  cases hu : reapStuck db now timeoutSeconds with
  | some u =>
    obtain ⟨stuck, -, rfl⟩ := reapStuck_eq_some hu
    rfl
  | none => rfl

/-- A late pass of the reaper is accepted. -/
theorem constraints_reap (hcons : db.Constraints) (hlate : db.TimedOut (now - timeoutSeconds)) :
    (db.reap now timeoutSeconds).Constraints := by
  unfold Db.reap
  cases hu : reapStuck db now timeoutSeconds with
  | some u =>
    obtain ⟨stuck, -, rfl⟩ := reapStuck_eq_some hu
    refine constraints_updateDeployments hcons fun d hd hflight => ?_
    -- A released row that is in flight was in flight before.
    rw [onDeployment_reap hlate hu hd] at hflight
    by_cases hrunning : d.running = true
    · exact Deployment.inFlight_of_running hrunning
    · rwa [Deployment.released, if_neg hrunning] at hflight
  | none => exact hcons

/-- What becomes of a released job does not depend on what the reaper has written. -/
theorem drained_reap (workerId : String) (d : Deployment) :
    drained (db.reap now timeoutSeconds) workerId d = drained db workerId d := by
  unfold drained
  rw [versionDeployable_congr versions_reap rfl rfl]

end

/-! ## The restart -/

section

variable {ι : Type} [Fintype ι] {workerId : ι → String}
variable {db : Db} {now timeoutSeconds : Time}
variable {steps : List (Workers ι × (ι × DrainAction))} {s : Workers ι}

/-- After a late pass of the reaper and a drain every deployment is as `restarted` says. -/
theorem Drained.restarted [Nonempty ι]
    (h : Drained (db.reap now timeoutSeconds) workerId steps s)
    (hlate : db.TimedOut (now - timeoutSeconds)) {d : Deployment} (hd : d ∈ db.deployments) :
    ∃ i, s.shared.deployments.get? d.id = some (restarted db (workerId i) d) := by
  have hrow := get?_reap hlate hd
  have hmem := Table.get?_eq_some.mp hrow
  by_cases hrequested : d.released.status = .requested
  · obtain ⟨i, -, hdrained, -⟩ := h.jobs d.released (mem_queue.mpr ⟨hmem.1, hrequested⟩)
    refine ⟨i, ?_⟩
    rw [Deployment.released_id, drained_reap] at hdrained
    rw [hdrained, MlopsPlatform.restarted, if_pos hrequested]
  · refine ⟨Classical.arbitrary ι, ?_⟩
    have hothers : ∀ e ∈ (db.reap now timeoutSeconds).queue, e.id ≠ d.id := by
      intro e he hid
      obtain ⟨hstored, hstatus⟩ := mem_queue.mp he
      obtain rfl := Table.eq_of_key_eq _ hstored hmem.1 (hid.trans d.released_id.symm)
      exact hrequested hstatus
    rw [(h.others d.id hothers).1, hrow, MlopsPlatform.restarted, if_neg hrequested]

/-- After a late pass of the reaper and a drain no deployment is in flight. -/
theorem Drained.quiet (h : Drained (db.reap now timeoutSeconds) workerId steps s)
    (hlate : db.TimedOut (now - timeoutSeconds)) {d : Deployment} (hd : d ∈ s.shared.deployments) :
    d.inFlight = false := by
  by_cases hjob : ∃ e ∈ (db.reap now timeoutSeconds).queue, e.id = d.id
  · obtain ⟨e, he, hid⟩ := hjob
    exact h.inactive e he d (hid ▸ Table.get?_key hd)
  · push Not at hjob
    have hrow : (db.reap now timeoutSeconds).deployments.get? d.id = some d := by
      rw [← (h.others d.id hjob).1]
      exact Table.get?_key hd
    have hmem := (Table.get?_eq_some.mp hrow).1
    obtain ⟨e, -, rfl⟩ := mem_reap hlate hmem
    exact Deployment.released_inFlight fun hrequested =>
      hjob _ (mem_queue.mpr ⟨hmem, hrequested⟩) rfl

end

end MlopsPlatform
