import MlopsPlatform.Library.Descending
import MlopsPlatform.Queue.Timeline
import MlopsPlatform.Seeding.Coherence
import MlopsPlatform.Seeding.Recording

/-!
# The order of a deployment's events

The detail response of a deployment lists its events `ORDER BY created_at`. The column is the
`now()` of the transaction that has recorded the event: on PostgreSQL the time at which that
transaction began, and on SQLite a time in seconds. So events of one transaction have the same
`created_at`, and a later transaction need not have a later one. The trail of a version is ordered
by id, which does not depend on a clock.

`Clocked` is the platform with its seeder, where each transaction has its time. The API, the worker,
and the reaper record at most one event of a deployment in a transaction (`UnitOfWork.Refers`); the
seeder records the whole timeline of a deployment at once (`Adds.told`). In a run the events of
every deployment are listed in the order of their ids, whichever way the database orders equal
times, as long as each transaction is later than the events that are there of the deployments whose
timelines it continues, and no seeder makes a deployment; and no longer
(`chronological_iff_of_trace`).
-/

namespace MlopsPlatform

open Transition Transaction Seeding

/-! ## The detail response -/

/-- A way to answer `ORDER BY created_at`. -/
abbrev EventOrder (createdAt : Uuid → Time) := Ascending fun e : DeploymentEvent => createdAt e.id

/-- The deployment of a detail response, with its events. -/
def deploymentDetail {createdAt : Uuid → Time} (order : EventOrder createdAt) (db : Db)
    (deploymentId : Uuid) : Except DomainError (Deployment × List DeploymentEvent) :=
  (getDeployment db deploymentId).map fun deployment =>
    (deployment, order.sort (db.deploymentEvents.select fun e => e.deploymentId = deployment.id))

/-! ## Runs with times -/

/-- The platform and its seeders. -/
structure Clocked where
  platform : State
  metrics : Table Metric.id
  /-- The seeders that have found the registry empty. -/
  seeding : ℕ → Bool
  /-- `created_at` of the events that are stored. -/
  createdAt : Uuid → Time

namespace Clocked

/-- The database. -/
abbrev db (s : Clocked) : Db := s.platform.shared

/-- The tables that the seeder adds rows to. -/
def store (s : Clocked) : SampleStore := ⟨s.db, s.metrics⟩

/-- No rows, no sessions, and no seeders. -/
def init : Clocked := ⟨.init, .empty, fun _ => false, fun _ => 0⟩

/-- What is done in a step. -/
inductive Deed
  /-- A session of the API, a worker, or a reaper takes a step. -/
  | platform (p : ℕ × Action)
  /-- A seeder looks whether the registry is empty. -/
  | countModels (seeder : ℕ)
  /-- A seeder that has found the registry empty goes on to its commit. -/
  | seed (seeder : ℕ) (ctx : SeedContext) (files : SampleFiles)

/-- The rows that a transaction inserts get its `now()`. -/
def stamped (s : Clocked) (now : Time) (id : Uuid) : Time :=
  if id < s.db.deploymentEvents.next then s.createdAt id else now

section

variable (lower : String → String) (postgresql : Bool)

/-- A step, where `now()` returns the time in its transaction. -/
def step (s : Clocked) : Time × Deed → Option Clocked
  | (now, .platform p) => (MlopsPlatform.step lower s.platform p).map fun platform =>
      { s with platform, createdAt := s.stamped now }
  | (_, .countModels i) =>
      some { s with seeding := Function.update s.seeding i s.db.models.rows.isEmpty }
  | (now, .seed i ctx files) =>
      if s.seeding i then
        let after := seedsTo ctx postgresql files s.store
        some
          { platform := { s.platform with shared := after.db }
            metrics := after.metrics
            seeding := Function.update s.seeding i false
            createdAt := s.stamped now }
      else none

/-- A transaction of the platform is later than the events that are there of the deployments that it
records an event of. A seeder makes no deployment. -/
def OnTime (s : Clocked) : Time × Deed → Prop
  | (now, .platform p) => ∀ x ∈ written lower s.platform p,
      ∀ b ∈ (s.db.write x.2).deploymentEvents, s.db.deploymentEvents.next ≤ b.id →
        ∀ a ∈ s.db.deploymentEvents, a.deploymentId = b.deploymentId → s.createdAt a.id < now
  | (_, .countModels _) => True
  | (_, .seed _ ctx files) =>
      (seedsTo ctx postgresql files s.store).db.deployments.rows.length =
        s.db.deployments.rows.length

instance (s : Clocked) : DecidablePred (s.OnTime lower postgresql)
  | (now, .platform p) => inferInstanceAs (Decidable (∀ x ∈ written lower s.platform p,
      ∀ b ∈ (s.db.write x.2).deploymentEvents.rows, s.db.deploymentEvents.next ≤ b.id →
        ∀ a ∈ s.db.deploymentEvents.rows, a.deploymentId = b.deploymentId →
          s.createdAt a.id < now))
  | (_, .countModels _) => inferInstanceAs (Decidable True)
  | (_, .seed _ _ _) => inferInstanceAs (Decidable (_ = _))

end

/-- The events of every deployment are listed in the order of their ids, whichever way the database
orders events with equal times. -/
def Chronological (s : Clocked) : Prop :=
  ∀ (order : EventOrder s.createdAt) (deploymentId : Uuid) (d : Deployment)
    (events : List DeploymentEvent), deploymentDetail order s.db deploymentId = .ok (d, events) →
      events.Pairwise fun a b => a.id < b.id

/-! ## Times that go up with the ids -/

/-- Of two events of a deployment the one with the greater id has the later time. -/
def InOrder (createdAt : Uuid → Time) (db : Db) : Prop :=
  ∀ a ∈ db.deploymentEvents, ∀ b ∈ db.deploymentEvents, a.deploymentId = b.deploymentId →
    a.id < b.id → createdAt a.id < createdAt b.id

/-- Every event is about a deployment that is there. -/
def Known (db : Db) : Prop :=
  ∀ e ∈ db.deploymentEvents, ∃ d ∈ db.deployments, d.id = e.deploymentId

/-- Every deployment's events are listed in the order of their ids if and only if their times go up
with their ids. -/
theorem chronological_iff {s : Clocked} (hknown : Known s.db) :
    s.Chronological ↔ InOrder s.createdAt s.db := by
  have hselect : ∀ d : Deployment, (s.db.deploymentEvents.select fun e =>
      e.deploymentId = d.id).Pairwise fun a b => a.id < b.id := fun d =>
    s.db.deploymentEvents.sorted.sublist List.filter_sublist
  constructor
  · intro h a ha b hb hab hlt
    obtain ⟨d, hd, hid⟩ := hknown a ha
    have hget : getDeployment s.db d.id = .ok d := by
      rw [getDeployment, Table.get?_key hd]
    have hall : ∀ order : EventOrder s.createdAt, (order.sort (s.db.deploymentEvents.select
        fun e => e.deploymentId = d.id)).Pairwise fun a b => a.id < b.id := by
      intro order
      refine h order d.id d _ ?_
      rw [deploymentDetail, hget]
      rfl
    have hmem : ∀ e ∈ s.db.deploymentEvents, e.deploymentId = d.id →
        e ∈ s.db.deploymentEvents.select fun e => e.deploymentId = d.id :=
      fun e he heid => Table.mem_select.mpr ⟨he, decide_eq_true heid⟩
    exact (Ascending.pairwise_sort_iff (hselect d)).mp hall a (hmem a ha hid.symm) b
      (hmem b hb (hab.symm.trans hid.symm)) hlt
  · intro h order deploymentId d events hdetail
    unfold deploymentDetail at hdetail
    cases hget : getDeployment s.db deploymentId with
    | error e =>
      rw [hget] at hdetail
      exact absurd hdetail (by simp [Except.map])
    | ok d' =>
      rw [hget] at hdetail
      obtain ⟨rfl, rfl⟩ := Prod.mk.inj (Except.ok.inj hdetail)
      refine (Ascending.pairwise_sort_iff (hselect d')).mpr ?_ order
      intro a ha b hb hlt
      obtain ⟨ha, hda⟩ := Table.mem_select.mp ha
      obtain ⟨hb, hdb⟩ := Table.mem_select.mp hb
      exact h a ha b hb ((of_decide_eq_true hda).trans (of_decide_eq_true hdb).symm) hlt

/-- The events of a database stay, and events that come after them are added. -/
structure Continues (db db' : Db) : Prop where
  events : ∀ e ∈ db.deploymentEvents, e ∈ db'.deploymentEvents
  fresh : ∀ e ∈ db'.deploymentEvents, e ∈ db.deploymentEvents ∨ db.deploymentEvents.next ≤ e.id

/-- The times go up after a transaction exactly if they did before, the transaction is later than
what it continues, and no deployment gets two events in it. -/
theorem inOrder_stamped {s : Clocked} {now : Time} {db' : Db} (h : Continues s.db db') :
    InOrder (s.stamped now) db' ↔ InOrder s.createdAt s.db ∧
      (∀ b ∈ db'.deploymentEvents, s.db.deploymentEvents.next ≤ b.id →
        ∀ a ∈ s.db.deploymentEvents, a.deploymentId = b.deploymentId → s.createdAt a.id < now) ∧
      ∀ a ∈ db'.deploymentEvents, ∀ b ∈ db'.deploymentEvents,
        s.db.deploymentEvents.next ≤ a.id → a.deploymentId = b.deploymentId → ¬a.id < b.id := by
  have hold : ∀ e ∈ s.db.deploymentEvents, s.stamped now e.id = s.createdAt e.id :=
    fun e he => if_pos (Table.key_lt_next he)
  have hnew : ∀ id, s.db.deploymentEvents.next ≤ id → s.stamped now id = now :=
    fun id hid => if_neg (Nat.not_lt.mpr hid)
  constructor
  · intro hall
    refine ⟨fun a ha b hb hab hlt => ?_, fun b hb hbnext a ha hab => ?_,
      fun a ha b hb hanext hab hlt => ?_⟩
    · have htimes := hall a (h.events a ha) b (h.events b hb) hab hlt
      rwa [hold a ha, hold b hb] at htimes
    · have htimes := hall a (h.events a ha) b hb hab ((Table.key_lt_next ha).trans_le hbnext)
      rwa [hold a ha, hnew b.id hbnext] at htimes
    · have htimes := hall a ha b hb hab hlt
      rw [hnew a.id hanext, hnew b.id (hanext.trans hlt.le)] at htimes
      exact absurd htimes (lt_irrefl now)
  · rintro ⟨hbefore, hlater, honce⟩ a ha b hb hab hlt
    rcases h.fresh a ha with hold_a | hanext
    · rcases h.fresh b hb with hold_b | hbnext
      · rw [hold a hold_a, hold b hold_b]
        exact hbefore a hold_a b hold_b hab hlt
      · rw [hold a hold_a, hnew b.id hbnext]
        exact hlater b hb hbnext a hold_a hab
    · exact absurd hlt (honce a ha b hb hanext hab)

end Clocked

/-! ## The events of a unit of work -/

/-- The events that a unit of work records are about deployments that are there, and no two of them
are about the same one. -/
def UnitOfWork.Refers (db : Db) : UnitOfWork → Prop
  | insertDeployment deployment event =>
      ∀ id n, ((event id).1 n).deploymentId = (deployment.1 id).id
  | updateDeployments _ events =>
      (events.Pairwise fun x y => ∀ m n, (x.1 m).deploymentId ≠ (y.1 n).deploymentId) ∧
        ∀ x ∈ events, ∀ n, ∃ d ∈ db.deployments, d.id = (x.1 n).deploymentId
  | _ => True

variable {lower : String → String}

/-- A unit of work that records one event. -/
theorem refers_single {db : Db} {dirty : List DirtyDeployment} {d assigned : Deployment}
    {name : String} {message actor : Option String} (hd : d ∈ db.deployments)
    (hid : d.id = assigned.id) :
    (UnitOfWork.updateDeployments dirty [recordEvent assigned name message actor]).Refers db := by
  refine ⟨List.pairwise_singleton _ _, fun x hx n => ?_⟩
  obtain rfl := List.mem_singleton.mp hx
  exact ⟨d, hd, hid⟩

/-- A call records at most one event. -/
theorem Call.Returns.refers {db : Db} {call : Call} {u : UnitOfWork}
    (h : call.Returns lower db u) : u.Refers db := by
  rcases h.deploymentWrite with hleaves | hwrite
  · cases u with
    | insertDeployment deployment event =>
      exact absurd hleaves (by simp [UnitOfWork.writesDeployments])
    | updateDeployments dirty events =>
      exact absurd hleaves (by simp [UnitOfWork.writesDeployments])
    | _ => exact trivial
  · cases hwrite with
    | request hr hrow =>
      intro id n
      rw [hrow]
      rfl
    | update hupdate hevent => exact refers_single hupdate.loaded.1 hupdate.loaded.2.2.symm

/-- A pass of the reaper records one event for each stuck deployment. -/
theorem refers_reap {db : Db} {now timeoutSeconds : Time} {u : UnitOfWork}
    (h : reapStuck db now timeoutSeconds = some u) : u.Refers db := by
  have hsorted : (db.deployments.select (isStuck (now - timeoutSeconds))).Pairwise
      fun a b => a.id < b.id := db.deployments.sorted.sublist List.filter_sublist
  have hstuck : ∀ d ∈ db.deployments.select (isStuck (now - timeoutSeconds)),
      d ∈ db.deployments := fun d hd => (Table.mem_select.mp hd).1
  unfold reapStuck at h
  split at h
  · exact absurd h (by simp)
  · obtain rfl := Option.some.inj h
    refine ⟨List.pairwise_map.mpr (hsorted.imp fun hlt m n => ?_), fun x hx n => ?_⟩
    · rw [(reapEvent_status _ m).1, (reapEvent_status _ n).1]
      exact hlt.ne
    · obtain ⟨d, hd, rfl⟩ := List.mem_map.mp hx
      exact ⟨d, hstuck d hd, (reapEvent_status d n).1.symm⟩

/-- What reads stage records at most one event of a deployment. -/
theorem Staged.refers {db : Db} {w : Writer} {u : UnitOfWork} (h : Staged lower db w u) :
    u.Refers db := by
  cases h with
  | call hc => exact (Call.stage_eq_ok hc).refers
  | claim hx => exact ⟨List.Pairwise.nil, fun x hx => absurd hx List.not_mem_nil⟩
  | segment hs =>
    obtain ⟨d, assigned, event, message, hd, hwrite, rfl⟩ := processDeployment_eq_some hs
    refine refers_single (Table.get?_eq_some.mp hd).1 ?_
    cases hwrite <;> rfl
  | reap hr => exact refers_reap hr

/-- The first commit of `process_deployment` records an event of a deployment that is there. -/
theorem refers_startValidation {db : Db} {d e : Deployment} (hd : d ∈ db.deployments)
    (hid : d.id = e.id) : (startValidation e).Refers db := refers_single hd hid

/-- Deployments stay. -/
theorem UnitOfWork.Refers.stable {u : UnitOfWork} {db db' : Db} (h : u.Refers db)
    (hstay : ∀ d ∈ db.deployments, ∃ d' ∈ db'.deployments, d'.id = d.id) : u.Refers db' := by
  cases u with
  | updateDeployments dirty events =>
    refine ⟨h.1, fun x hx n => ?_⟩
    obtain ⟨d, hd, hid⟩ := h.2 x hx n
    obtain ⟨d', hd', hid'⟩ := hstay d hd
    exact ⟨d', hd', hid'.trans hid⟩
  | insertDeployment deployment event => exact h
  | insertModel model => trivial
  | insertVersion version event => trivial
  | updateVersion loaded assigned event => trivial

/-- A write keeps the deployments, under their ids. -/
theorem Db.exists_deployment_write {db : Db} (u : UnitOfWork) :
    ∀ d ∈ db.deployments, ∃ d' ∈ (db.write u).deployments, d'.id = d.id :=
  fun d hd => ⟨u.onDeployment d, db.onDeployment_mem_write u hd, u.onDeployment_id d⟩

/-- A write adds events that come after those that are there. -/
theorem continues_write (db : Db) (u : UnitOfWork) : Clocked.Continues db (db.write u) := by
  refine ⟨fun e he => db.mem_deploymentEvents_of_mem u he, fun e he => ?_⟩
  cases u with
  | insertDeployment deployment event =>
    refine (Table.mem_insert.mp he).imp_right ?_
    rintro rfl
    exact ((event db.deployments.next).2 _).ge
  | updateDeployments dirty events =>
    rcases Table.mem_insertAll he with he | ⟨x, -, n, hn, rfl⟩
    · exact Or.inl he
    · exact Or.inr (hn.trans (x.2 n).ge)
  | insertModel model => exact Or.inl he
  | insertVersion version event => exact Or.inl he
  | updateVersion loaded assigned event => exact Or.inl he

/-- What a write records is about deployments that are there. -/
theorem UnitOfWork.Refers.known {u : UnitOfWork} {db : Db} (h : u.Refers db)
    (hknown : Clocked.Known db) : Clocked.Known (db.write u) := by
  have hstay : ∀ e ∈ db.deploymentEvents,
      ∃ d ∈ (db.write u).deployments, d.id = e.deploymentId := by
    intro e he
    obtain ⟨d, hd, hid⟩ := hknown e he
    obtain ⟨d', hd', hid'⟩ := db.exists_deployment_write u d hd
    exact ⟨d', hd', hid'.trans hid⟩
  intro e he
  cases u with
  | insertDeployment deployment event =>
    rcases Table.mem_insert.mp he with he | rfl
    · exact hstay e he
    · exact ⟨_, Table.mem_insert.mpr (Or.inr rfl), (h _ _).symm⟩
  | updateDeployments dirty events =>
    rcases Table.mem_insertAll he with he | ⟨x, hx, n, -, rfl⟩
    · exact hstay e he
    · obtain ⟨d, hd, hid⟩ := h.2 x hx n
      obtain ⟨d', hd', hid'⟩ := db.exists_deployment_write (.updateDeployments dirty events) d hd
      exact ⟨d', hd', hid'.trans hid⟩
  | insertModel model => exact hstay e he
  | insertVersion version event => exact hstay e he
  | updateVersion loaded assigned event => exact hstay e he

/-- A write does not record two events of a deployment. -/
theorem UnitOfWork.Refers.once {u : UnitOfWork} {db : Db} (h : u.Refers db)
    {a b : DeploymentEvent} (ha : a ∈ (db.write u).deploymentEvents)
    (hb : b ∈ (db.write u).deploymentEvents) (hanext : db.deploymentEvents.next ≤ a.id)
    (hsame : a.deploymentId = b.deploymentId) : ¬a.id < b.id := by
  intro hlt
  have hold : ∀ e : DeploymentEvent, db.deploymentEvents.next ≤ e.id →
      e ∉ db.deploymentEvents := fun e he hmem =>
    absurd (Table.key_lt_next hmem) (Nat.not_lt.mpr he)
  have holda := hold a hanext
  have holdb := hold b (hanext.trans hlt.le)
  cases u with
  | insertDeployment deployment event =>
    obtain rfl := (Table.mem_insert.mp ha).resolve_left holda
    obtain rfl := (Table.mem_insert.mp hb).resolve_left holdb
    exact absurd hlt (Nat.lt_irrefl _)
  | updateDeployments dirty events =>
    obtain ⟨i, x, hx, rfl⟩ := (Table.mem_insertAll_iff.mp ha).resolve_left holda
    obtain ⟨j, y, hy, rfl⟩ := (Table.mem_insertAll_iff.mp hb).resolve_left holdb
    -- The ids are drawn in the order of the events.
    have hids : db.deploymentEvents.next + i < db.deploymentEvents.next + j :=
      (x.2 _).symm.trans_lt (hlt.trans_eq (y.2 _))
    have hij : i < j := Nat.lt_of_add_lt_add_left hids
    obtain ⟨hi, rfl⟩ := List.getElem?_eq_some_iff.mp hx
    obtain ⟨hj, rfl⟩ := List.getElem?_eq_some_iff.mp hy
    exact List.pairwise_iff_getElem.mp h.1 i j hi hj hij _ _ hsame
  | insertModel model => exact absurd ha holda
  | insertVersion version event => exact absurd ha holda
  | updateVersion loaded assigned event => exact absurd ha holda

/-! ## Runs -/

namespace Clocked

variable {postgresql : Bool} {s s' : Clocked}

/-- What holds in every state that is reached: every event is about a deployment that is there, and
what a session has staged records at most one event of a deployment. -/
structure Sound (s : Clocked) : Prop where
  known : Known s.db
  held : ∀ i w u, (s.platform.locals i).held = some (w, u) → u.Refers s.db

/-- At first there is nothing. -/
theorem sound_init : init.Sound :=
  ⟨fun _ he => absurd he (Table.not_mem_empty _), State.init_holds fun db _ u => u.Refers db⟩

/-- What a step of the platform writes records at most one event of a deployment. -/
theorem Sound.written (h : s.Sound) {p : ℕ × Action} {w : Writer} {u : UnitOfWork}
    (hwritten : written lower s.platform p = some (w, u)) : u.Refers s.db :=
  (committed_cases (written_eq_some.mp hwritten).1).elim (h.held _ _ _) fun hreads =>
    hreads.staged.refers

/-- After a commit a session has staged nothing, or the first event of the job that it has claimed.
-/
theorem refers_of_commit {db : Db} {l l' : Session} {a : Action} {w w' : Writer} {u v : UnitOfWork}
    (h : Planned lower db l a (.commit w u l')) (hv : l'.held = some (w', v)) :
    v.Refers (db.write u) := by
  cases h with
  | @claim workerId now locked x hx =>
    obtain ⟨hmem, -, -, -, hassigned⟩ := claimOne_eq_some.mp hx
    obtain ⟨-, rfl⟩ := Prod.mk.inj (Option.some.inj hv)
    obtain ⟨d, hd, hid⟩ := db.exists_deployment_write (.updateDeployments [x] []) x.loaded hmem
    refine refers_startValidation hd (hid.trans ?_)
    rw [hassigned]
  | work hs => exact absurd hv (by simp)
  | commitWork => exact absurd hv (by simp)
  | call hu => exact absurd hv (by simp [Session.held])
  | reap hu => exact absurd hv (by simp [Session.held])
  | commitCall => exact absurd hv (by simp [Session.held])
  | commitReap => exact absurd hv (by simp [Session.held])

/-- A step of the platform keeps it. -/
theorem Sound.platform (h : s.Sound) {i : ℕ} {a : Action} {platform : State}
    {createdAt : Uuid → Time} (hstep : MlopsPlatform.step lower s.platform (i, a) = some platform) :
    Sound { s with platform, createdAt } := by
  rcases step_cases hstep with ⟨l, -, hplan, rfl⟩ | ⟨w, u, l, hwritten, hplan, rfl⟩
  · refine ⟨h.known, fun j w v hv => ?_⟩
    rcases s.platform.locals_update s.db i j l with ⟨-, hl⟩ | ⟨-, hl⟩
    · exact (hplan.keep_cases (hl ▸ hv)).2.staged.refers
    · exact h.held j w v (hl ▸ hv)
  · refine ⟨(h.written hwritten).known h.known, fun j w' v hv => ?_⟩
    rcases s.platform.locals_update (s.db.write u) i j l with ⟨-, hl⟩ | ⟨-, hl⟩
    · exact refers_of_commit hplan (hl ▸ hv)
    · exact (h.held j w' v (hl ▸ hv)).stable (s.db.exists_deployment_write u)

/-- A step keeps it. -/
theorem Sound.step (h : s.Sound) {x : Time × Deed}
    (hstep : step lower postgresql s x = some s') : s'.Sound := by
  obtain ⟨now, p | i | ⟨i, ctx, files⟩⟩ := x
  · obtain ⟨platform, hplatform, rfl⟩ := Option.map_eq_some_iff.mp hstep
    exact h.platform hplatform
  · obtain rfl := Option.some.inj hstep
    exact ⟨h.known, h.held⟩
  · simp only [Clocked.step] at hstep
    split_ifs at hstep
    obtain rfl := Option.some.inj hstep
    have hadds := adds_seedsTo ctx postgresql files s.store
    have hstay : ∀ d ∈ s.db.deployments,
        ∃ d' ∈ (seedsTo ctx postgresql files s.store).db.deployments, d'.id = d.id :=
      fun d hd => ⟨d, hadds.deployments.subset hd, rfl⟩
    refine ⟨fun e he => ?_, fun j w u hu => (h.held j w u hu).stable hstay⟩
    rcases hadds.known e he with he | ⟨-, hnew⟩
    · obtain ⟨d, hd, hid⟩ := h.known e he
      exact ⟨d, hadds.deployments.subset hd, hid⟩
    · exact hnew

/-- It holds in every state that is reached. -/
theorem sound_reach {ok : Clocked → Time × Deed → Prop}
    (h : Reach (Clocked.step lower postgresql) ok init s) : s.Sound :=
  h.invariant sound_init fun _ _ _ _ hs _ hstep => hs.step hstep

/-- Times that go up with the ids do so after a step if and only if it is on time. -/
theorem Sound.inOrder_step (h : s.Sound) {x : Time × Deed}
    (hstep : Clocked.step lower postgresql s x = some s') :
    InOrder s'.createdAt s'.db ↔
      InOrder s.createdAt s.db ∧ s.OnTime lower postgresql x := by
  obtain ⟨now, ⟨i, a⟩ | i | ⟨i, ctx, files⟩⟩ := x
  · obtain ⟨platform, hplatform, rfl⟩ := Option.map_eq_some_iff.mp hstep
    rcases step_cases hplatform with ⟨l, hnone, -, rfl⟩ | ⟨w, u, l, hwritten, -, rfl⟩
    · have hrefl : Continues s.db s.db := ⟨fun _ he => he, fun _ he => Or.inl he⟩
      have hnew : ∀ e ∈ s.db.deploymentEvents, ¬s.db.deploymentEvents.next ≤ e.id :=
        fun e he => Nat.not_le.mpr (Table.key_lt_next he)
      refine (inOrder_stamped hrefl).trans (and_congr_right fun _ => ?_)
      refine iff_of_true ⟨fun b hb hbnext => absurd hbnext (hnew b hb),
        fun a ha b _ hanext => absurd hanext (hnew a ha)⟩ fun x hx => ?_
      rw [hnone] at hx
      exact absurd hx (Option.not_mem_none x)
    · refine (inOrder_stamped (continues_write s.db u)).trans (and_congr_right fun _ => ?_)
      constructor
      · rintro ⟨hlater, -⟩ y hy
        obtain rfl := Option.some.inj (hwritten.symm.trans hy)
        exact hlater
      · exact fun hlater => ⟨hlater (w, u) hwritten, fun a ha b hb hanext hab =>
          (h.written hwritten).once ha hb hanext hab⟩
  · obtain rfl := Option.some.inj hstep
    exact (and_iff_left trivial).symm
  · simp only [Clocked.step] at hstep
    split_ifs at hstep
    obtain rfl := Option.some.inj hstep
    have hadds := adds_seedsTo ctx postgresql files s.store
    have hcontinues : Continues s.db (seedsTo ctx postgresql files s.store).db :=
      ⟨hadds.events, fun e he => (hadds.known e he).imp_right And.left⟩
    refine (inOrder_stamped hcontinues).trans (and_congr_right fun _ => ?_)
    constructor
    · rintro ⟨-, honce⟩
      rcases hadds.told with ⟨hnone, -⟩ | ⟨-, d, -, a, ha, b, hb, hanext, hlt, had, hbd⟩
      · exact congrArg (fun t => t.rows.length) hnone
      · exact absurd hlt (honce a ha b hb hanext (had.trans hbd.symm))
    · intro hnone
      have hevents : (seedsTo ctx postgresql files s.store).db.deploymentEvents =
          s.db.deploymentEvents := by
        rcases hadds.told with ⟨-, hevents⟩ | ⟨hlt, -⟩
        · exact hevents
        · exact absurd hnone hlt.ne'
      have hnew : ∀ e ∈ (seedsTo ctx postgresql files s.store).db.deploymentEvents,
          ¬s.db.deploymentEvents.next ≤ e.id := by
        rw [hevents]
        exact fun e he => Nat.not_le.mpr (Table.key_lt_next he)
      exact ⟨fun b hb hbnext => absurd hbnext (hnew b hb),
        fun a ha b _ hanext => absurd hanext (hnew a ha)⟩

/-- A step keeps the events in the order of their ids if and only if it is on time. -/
theorem Sound.chronological_step (h : s.Sound) {x : Time × Deed}
    (hstep : Clocked.step lower postgresql s x = some s') :
    s'.Chronological ↔ s.Chronological ∧ s.OnTime lower postgresql x := by
  rw [chronological_iff h.known, chronological_iff (h.step hstep).known]
  exact h.inOrder_step hstep

/-- In a run the events of every deployment are listed in the order of their ids, in every state,
exactly if each transaction of the platform is later than what it continues and no seeder makes a
deployment. -/
theorem chronological_iff_of_trace {steps : List (Clocked × (Time × Deed))}
    (h : Trace (Clocked.step lower postgresql) (fun _ _ => True) init steps s) :
    ((∀ x ∈ steps, x.1.Chronological) ∧ s.Chronological) ↔
      ∀ x ∈ steps, x.1.OnTime lower postgresql x.2 := by
  suffices hiff : ((∀ x ∈ steps, x.1.Chronological) ∧ s.Chronological) ↔
      ∀ x ∈ steps, ¬¬x.1.OnTime lower postgresql x.2 by
    rw [hiff]
    exact forall₂_congr fun x _ => not_not
  refine h.forall_iff ?_ ?_ ?_
  · rw [chronological_iff sound_init.known]
    exact fun e he => absurd he (Table.not_mem_empty e)
  · intro t x t' hreach _ hstep hontime hchronological
    exact ((sound_reach hreach).chronological_step hstep).mpr ⟨hchronological, not_not.mp hontime⟩
  · intro t x t' hreach _ hstep hlate hchronological
    exact hlate (((sound_reach hreach).chronological_step hstep).mp hchronological).2

/-- A model is registered, and a version of it deployed, each transaction later than the one before.
A seeder that has found the registry empty cannot read its files. -/
def deployedRun : List (Time × Deed) :=
  [(0, .countModels 5)] ++ registration.map (fun p => (1, .platform p)) ++
    [(2, .platform (0, request 1 .development false)), (3, .platform (1, .claim "a" 3 [])),
      (4, .platform (1, .commit)), (5, .platform (1, .work)), (6, .platform (1, .work)),
      (7, .seed 5 pumpContext ⟨none, [], none⟩)]

/-- Its events are always listed in their order. -/
theorem chronological_iff_of_trace_deployedRun :
    (exec (Clocked.step id true) (fun _ _ => True) init deployedRun).Chronological :=
  ((chronological_iff_of_trace (exec_trace (Clocked.step id true) (fun _ _ => True) init
    deployedRun)).mpr (by decide)).2

/-- A seeder finds the registry empty and seeds a model. -/
def seededRun : List (Time × Deed) := [(0, .countModels 5), (0, .seed 5 pumpContext pumpFiles)]

/-- A deployment that the seeder has made may be listed as completed before it was requested. -/
theorem not_chronological_of_reach :
    ∃ s, Reach (Clocked.step id true) (fun _ _ => True) init s ∧
      ∃ (order : EventOrder s.createdAt) (d : Deployment) (events : List DeploymentEvent),
        deploymentDetail order s.db 1 = .ok (d, events) ∧ d.status = .succeeded ∧
          events.map DeploymentEvent.event = ["deployment_completed", "requested",
            "validation_started", "deployment_started"] ∧
          ¬events.Pairwise fun a b => a.id < b.id :=
  ⟨_, exec_reach (Clocked.step id true) (fun _ _ => True) init seededRun,
    Descending.prefer _ fun e => decide (e.id = 4), _, _, rfl, rfl, rfl, by decide⟩

end Clocked

end MlopsPlatform
