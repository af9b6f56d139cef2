import MlopsPlatform.Models

/-!
# Job-queue primitives over the deployments table

`worker/queue.py`: event recording, `claim_one`, and `reap_stuck`. As in the services, a function is
modelled from its first query to its commit, and returns what it commits.
-/

namespace MlopsPlatform

/-- The claims after which a stuck job is failed and no longer re-queued. -/
def maxAttempts : ℕ := 3

/-- Append an event with the status that the deployment has in the session. -/
def recordEvent (deployment : Deployment) (event : String) (message actor : Option String) :
    Table.Draft DeploymentEvent.id :=
  ⟨fun id =>
    { id, deploymentId := deployment.id, status := deployment.status, event, message, actor
      correlationId := deployment.correlationId }, fun _ => rfl⟩

/-- Claim the oldest REQUESTED deployment: `FOR UPDATE SKIP LOCKED` passes over the rows that other
transactions have `locked`. The row goes to VALIDATING with the worker and lock metadata. -/
def claimOne (db : Db) (workerId : String) (now : Time) (locked : List Uuid) :
    Option DirtyDeployment :=
  (db.deployments.first? fun d => d.status = .requested && !(d.id ∈ locked)).map fun d =>
    ⟨d, { d with
      status := .validating
      workerId := some workerId
      lockedAt := some now
      attempts := d.attempts + 1 }⟩

/-- Whether the reaper takes a row: it is in a transient status and its lock is older than the
cutoff. A null `locked_at` is never older. -/
def isStuck (cutoff : Time) (d : Deployment) : Bool :=
  d.running && match d.lockedAt with
    | some t => t < cutoff
    | none => false

/-- What the reaper assigns to a stuck row: it re-queues the job, or fails it once its attempts are
exhausted. -/
def reaped (d : Deployment) : Deployment :=
  -- A job that is failed keeps its worker and its lock.
  if d.attempts ≥ maxAttempts then { d with status := .failed, error := some "worker_lost" }
  else { d with status := .requested, workerId := none, lockedAt := none }

/-- The event that the reaper records for a stuck row. -/
def reapEvent (d : Deployment) : Table.Draft DeploymentEvent.id :=
  if d.attempts ≥ maxAttempts then
    recordEvent (reaped d) "worker_lost" (some "exceeded max attempts") (some "reaper")
  else recordEvent (reaped d) "requeued" (some "reclaimed after timeout") (some "reaper")

/-- Recover the jobs stuck in a transient status past the visibility timeout; `none` when there are
none, in which case nothing is committed. -/
def reapStuck (db : Db) (now timeoutSeconds : Time) : Option UnitOfWork :=
  match db.deployments.select (isStuck (now - timeoutSeconds)) with
  | [] => none
  | stuck => some (.updateDeployments (stuck.map fun d => ⟨d, reaped d⟩) (stuck.map reapEvent))

/-! ## What a claim and a pass of the reaper stage -/

/-- A claim takes a REQUESTED row, and no older one unless it is locked. -/
theorem claimOne_eq_some {db : Db} {workerId : String} {now : Time} {locked : List Uuid}
    {x : DirtyDeployment} :
    claimOne db workerId now locked = some x ↔
      x.loaded ∈ db.deployments ∧ x.loaded.status = .requested ∧ x.loaded.id ∉ locked ∧
        (∀ d ∈ db.deployments, d.status = .requested → d.id ∉ locked → x.loaded.id ≤ d.id) ∧
        x.assigned = { x.loaded with
          status := .validating
          workerId := some workerId
          lockedAt := some now
          attempts := x.loaded.attempts + 1 } := by
  obtain ⟨loaded, assigned⟩ := x
  simp only [claimOne, Option.map_eq_some_iff, DirtyDeployment.mk.injEq]
  constructor
  · rintro ⟨d, hd, rfl, rfl⟩
    obtain ⟨hmem, hp, hmin⟩ := Table.first?_eq_some.mp hd
    simp only [Bool.and_eq_true, decide_eq_true_eq, Bool.not_eq_true', decide_eq_false_iff_not]
      at hp hmin
    exact ⟨hmem, hp.1, hp.2, fun e he hs hl => hmin e he ⟨hs, hl⟩, rfl⟩
  · rintro ⟨hmem, hs, hl, hmin, rfl⟩
    refine ⟨loaded, Table.first?_eq_some.mpr ⟨hmem, ?_, fun e he hp => ?_⟩, rfl, rfl⟩
    · simp [hs, hl]
    · simp only [Bool.and_eq_true, decide_eq_true_eq, Bool.not_eq_true', decide_eq_false_iff_not]
        at hp
      exact hmin e he hp.1 hp.2

/-- A stuck row is running. -/
theorem running_of_isStuck {cutoff : Time} {d : Deployment} (h : isStuck cutoff d = true) :
    d.running = true := by
  simp only [isStuck, Bool.and_eq_true] at h
  exact h.1

/-- The reaper ends a job or puts it back into the queue. -/
theorem reaped_running (d : Deployment) : (reaped d).running = false := by
  unfold reaped
  split_ifs
  · rfl
  · rfl

/-- The reaper does not complete a job, and rolls none back. -/
theorem reaped_status (d : Deployment) :
    (reaped d).status ≠ .succeeded ∧ (reaped d).status ≠ .rolledBack := by
  unfold reaped
  split_ifs
  · exact ⟨by simp, by simp⟩
  · exact ⟨by simp, by simp⟩

/-- The reaper does not count claims. -/
theorem reaped_attempts (d : Deployment) : (reaped d).attempts = d.attempts := by
  unfold reaped
  split_ifs
  · rfl
  · rfl

/-- A pass of the reaper loads the stuck rows and assigns `reaped` to each. -/
theorem reapStuck_eq_some {db : Db} {now timeoutSeconds : Time} {u : UnitOfWork}
    (h : reapStuck db now timeoutSeconds = some u) :
    ∃ stuck : List Deployment,
      (∀ d, d ∈ stuck ↔ d ∈ db.deployments ∧ isStuck (now - timeoutSeconds) d = true) ∧
      u = .updateDeployments (stuck.map fun d => ⟨d, reaped d⟩) (stuck.map reapEvent) := by
  unfold reapStuck at h
  split at h
  · simp at h
  · exact ⟨_, fun d => Table.mem_select, (Option.some.inj h).symm⟩

/-- A pass of the reaper assigns to every stuck row. -/
theorem reapStuck_of_isStuck {db : Db} {now timeoutSeconds : Time} {d : Deployment}
    (hd : d ∈ db.deployments) (hstuck : isStuck (now - timeoutSeconds) d = true) :
    ∃ u, reapStuck db now timeoutSeconds = some u ∧ u.dirtyFor d.id = some ⟨d, reaped d⟩ := by
  have hselected : d ∈ db.deployments.select (isStuck (now - timeoutSeconds)) :=
    Table.mem_select.mpr ⟨hd, hstuck⟩
  unfold reapStuck
  split
  · rename_i hnil
    rw [hnil] at hselected
    exact absurd hselected List.not_mem_nil
  · refine ⟨_, rfl, ?_⟩
    rw [UnitOfWork.dirtyFor]
    cases hx : ((db.deployments.select (isStuck (now - timeoutSeconds))).map
        fun d => (⟨d, reaped d⟩ : DirtyDeployment)).find? fun x => x.loaded.id = d.id with
    | none =>
      have hmiss := List.find?_eq_none.mp hx _ (List.mem_map.mpr ⟨d, hselected, rfl⟩)
      exact absurd hmiss (by simp)
    | some x =>
      -- The object that is found was loaded from this row.
      obtain ⟨e, he, rfl⟩ := List.mem_map.mp (List.mem_of_find?_eq_some hx)
      have hid : e.id = d.id := by simpa using List.find?_some hx
      rw [db.deployments.eq_of_key_eq (Table.mem_select.mp he).1 hd hid]

end MlopsPlatform
