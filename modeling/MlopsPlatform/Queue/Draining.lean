import MlopsPlatform.Queue.Processing
import Mathlib.Algebra.BigOperators.Group.Finset.Piecewise
import Mathlib.Algebra.Order.BigOperators.Group.Finset
import Mathlib.Data.Fintype.Basic

/-!
# Draining the queue with any number of workers

Workers that run `_drain_all` over one database, in any interleaving of their claims, reads and
commits. `Draining` is what holds along such a run: a job of the queue is as it was, or its one
claimant is at it, or has processed it. No step of a worker touches another job (`Leaves`), so what
becomes of a job does not depend on the schedule (`drained_of_trace`). A worker takes at most six
steps for each job that it claims, and one more to find the queue empty.
-/

namespace MlopsPlatform

open Transition

variable {lower : String → String}

/-! ## The workers -/

section

variable {ι : Type}

/-- The job that a step claims. -/
def takes (x : Workers ι × (ι × DrainAction)) : Option Uuid :=
  match (x.1.locals x.2.1).drain, x.2.2 with
  | .looping .idle, .claim now =>
    (claimOne x.1.shared (x.1.locals x.2.1).workerId now []).map fun y => y.loaded.id
  | _, _ => none

/-- The workers that have claimed a job. -/
def claimants (steps : List (Workers ι × (ι × DrainAction))) (id : Uuid) : List ι :=
  (steps.filter fun x => takes x = some id).map fun x => x.2.1

/-- A step adds its worker to the claimants of the job that it claims. -/
theorem claimants_snoc {steps : List (Workers ι × (ι × DrainAction))} {s : Workers ι} {i : ι}
    {a : DrainAction} {id : Uuid} : claimants (steps ++ [(s, (i, a))]) id =
      claimants steps id ++ if takes (s, (i, a)) = some id then [i] else [] := by
  rw [claimants, List.filter_append, List.map_append, List.filter_singleton]
  by_cases h : takes (s, (i, a)) = some id
  · simp [h, claimants]
  · simp [h, claimants]

/-- A worker that is not idle claims nothing. -/
theorem takes_of_busy {s : Workers ι} {i : ι} {a : DrainAction} {l : Session}
    (hl : (s.locals i).drain = .looping l) (hidle : l ≠ .idle) : takes (s, (i, a)) = none := by
  cases l with
  | idle => exact absurd rfl hidle
  | _ => simp [takes, hl]

/-- An idle worker claims the first job of the queue. -/
theorem takes_claim {s : Workers ι} {i : ι} {now : Time}
    (hl : (s.locals i).drain = .looping .idle) :
    takes (s, (i, .claim now)) = s.shared.queue.head?.map Deployment.id := by
  simp only [takes, hl, claimOne_eq_queue, Option.map_map]
  rfl

/-- A step that claims a job is the claim of an idle worker, and the job is the first one. -/
theorem takes_eq_some {s : Workers ι} {i : ι} {a : DrainAction} {id : Uuid}
    (h : takes (s, (i, a)) = some id) :
    (s.locals i).drain = .looping .idle ∧ ∃ r rest, s.shared.queue = r :: rest ∧ r.id = id := by
  by_cases hl : (s.locals i).drain = .looping .idle
  · refine ⟨hl, ?_⟩
    cases a with
    | claim now =>
      rw [takes_claim hl, Option.map_eq_some_iff] at h
      obtain ⟨r, hr, hid⟩ := h
      obtain ⟨rest, hrest⟩ := List.head?_eq_some_iff.mp hr
      exact ⟨r, rest, hrest, hid⟩
    | _ => exact absurd h (by simp [takes, hl])
  · cases hdrain : (s.locals i).drain with
    | looping l =>
      have hidle : l ≠ .idle := fun hidle => hl (hidle ▸ hdrain)
      exact absurd h (by simp [takes_of_busy hdrain hidle])
    | _ => exact absurd h (by simp [takes, hdrain])

/-- The claimants of a job have claimed it. -/
theorem mem_claimants {steps : List (Workers ι × (ι × DrainAction))} {id : Uuid} {i : ι}
    (h : i ∈ claimants steps id) : id ∈ steps.filterMap takes := by
  obtain ⟨x, hx, -⟩ := List.mem_map.mp h
  obtain ⟨hmem, htakes⟩ := List.mem_filter.mp hx
  exact List.mem_filterMap.mpr ⟨x, hmem, of_decide_eq_true htakes⟩

/-- No worker has claimed the job. -/
structure Waiting (db : Db) (steps : List (Workers ι × (ι × DrainAction))) (s : Workers ι)
    (d : Deployment) : Prop where
  /-- The row is as it was. -/
  row : s.shared.deployments.get? d.id = some d
  /-- Its timeline is as it was. -/
  timeline : s.shared.timeline d.id = db.timeline d.id
  /-- It has no claimant. -/
  claimants : claimants steps d.id = []

/-- A worker is with its session at a job, and it alone has claimed it. -/
def AtJob (db : Db) (steps : List (Workers ι × (ι × DrainAction))) (s : Workers ι) (i : ι)
    (d : Deployment) (l : Session) : Prop :=
  ∃ r entries, Working db (s.locals i).workerId d l r entries ∧
    s.shared.deployments.get? d.id = some r ∧
    s.shared.timeline d.id = db.timeline d.id ++ entries ∧ claimants steps d.id = [i]

/-- A step leaves a deployment as it is, with its timeline and its claimants. -/
structure Leaves (steps : List (Workers ι × (ι × DrainAction))) (s s' : Workers ι)
    (x : Workers ι × (ι × DrainAction)) (id : Uuid) : Prop where
  row : s'.shared.deployments.get? id = s.shared.deployments.get? id
  timeline : s'.shared.timeline id = s.shared.timeline id
  claimants : claimants (steps ++ [x]) id = claimants steps id

section

variable {db : Db} {workerId : ι → String} {steps : List (Workers ι × (ι × DrainAction))}
variable {s s' : Workers ι} {i : ι} {a : DrainAction} {x : Workers ι × (ι × DrainAction)}

/-- A job that a step leaves alone goes on waiting. -/
theorem Waiting.snoc {d : Deployment} (h : Waiting db steps s d)
    (hleaves : Leaves steps s s' x d.id) : Waiting db (steps ++ [x]) s' d :=
  ⟨hleaves.row.trans h.row, hleaves.timeline.trans h.timeline, hleaves.claimants.trans h.claimants⟩

/-- A worker stays at a job that a step leaves alone. -/
theorem AtJob.snoc {d : Deployment} {l : Session} (h : AtJob db steps s i d l)
    (hleaves : Leaves steps s s' x d.id) (hid : (s'.locals i).workerId = (s.locals i).workerId) :
    AtJob db (steps ++ [x]) s' i d l := by
  obtain ⟨r, entries, hworking, hr, htimeline, hclaimants⟩ := h
  refine ⟨r, entries, ?_, hleaves.row.trans hr, hleaves.timeline.trans htimeline,
    hleaves.claimants.trans hclaimants⟩
  rwa [hid]

/-- A step that claims nothing leaves every deployment alone that its commit leaves alone. -/
theorem leaves_of_takes {id : Uuid}
    (hrow : s'.shared.deployments.get? id = s.shared.deployments.get? id)
    (htimeline : s'.shared.timeline id = s.shared.timeline id)
    (htakes : takes (s, (i, a)) ≠ some id) : Leaves steps s s' (s, (i, a)) id := by
  refine ⟨hrow, htimeline, ?_⟩
  rw [claimants_snoc, if_neg htakes, List.append_nil]

/-- A commit leaves the deployments alone that it does not advance. -/
theorem leaves_of_write {locals : ι → Worker} {u : UnitOfWork} {r r' : Deployment}
    {entries : List DeploymentEvent} {id : Uuid} (hadvances : u.Advances r r' entries)
    (hid : id ≠ r.id) (htakes : takes (s, (i, a)) ≠ some id) :
    Leaves steps s ⟨s.shared.write u, locals⟩ (s, (i, a)) id := by
  refine leaves_of_takes (hadvances.get?_of_ne hid) ?_ htakes
  have htimeline := hadvances.timeline s.shared id
  rwa [if_neg hid, List.append_nil] at htimeline

end

variable [DecidableEq ι]

/-- How many steps a worker has taken. -/
def turns (steps : List (Workers ι × (ι × DrainAction))) (i : ι) : ℕ :=
  steps.countP fun x => x.2.1 = i

/-- How many jobs a worker has claimed. -/
def taken (steps : List (Workers ι × (ι × DrainAction))) (i : ι) : ℕ :=
  steps.countP fun x => x.2.1 = i && (takes x).isSome

/-- What is left of `_drain_all` for a worker that claims no other job. -/
def Drain.left : Drain → ℕ
  | looping session => session.rank + 1
  | _ => 0

/-- The jobs that a worker has claimed and is not done with. -/
def Drain.unfinished : Drain → ℕ
  | looping session => if session.isIdle then 0 else 1
  | _ => 0

/-- What holds while workers drain the queue of `db`. -/
structure Draining (db : Db) (workerId : ι → String)
    (steps : List (Workers ι × (ι × DrainAction))) (s : Workers ι) : Prop where
  /-- The workers keep their ids. -/
  workerIds : ∀ i, (s.locals i).workerId = workerId i
  /-- The constraints hold. -/
  constraints : s.shared.Constraints
  /-- The models and the versions are as they were. -/
  registry : s.shared.models = db.models ∧ s.shared.versions = db.versions ∧
    s.shared.versionEvents = db.versionEvents
  /-- A job is waiting, or its claimant is at it, or has processed it. -/
  jobs : ∀ d ∈ db.queue, Waiting db steps s d ∨
    ∃ i l, AtJob db steps s i d l ∧ (l = .idle ∨ (s.locals i).drain = .looping l)
  /-- A worker whose session is not idle is at a job. -/
  busy : ∀ i l, (s.locals i).drain = .looping l → l ≠ .idle → ∃ d ∈ db.queue, AtJob db steps s i d l
  /-- The other deployments are as they were. -/
  others : ∀ id, (∀ d ∈ db.queue, d.id ≠ id) →
    s.shared.deployments.get? id = db.deployments.get? id ∧ s.shared.timeline id = db.timeline id
  /-- The jobs are claimed in the order of the queue. -/
  order : steps.filterMap takes ++ s.shared.queue.map Deployment.id = db.queue.map Deployment.id
  /-- A worker that has returned has found the queue empty. -/
  returned : ∀ i, (s.locals i).drain = .returned → s.shared.queue = []
  /-- No commit is rejected. -/
  accepted : ∀ i, (s.locals i).drain ≠ .raised
  /-- A worker has counted the jobs that it has claimed, up to the one that it is at. -/
  counted : ∀ i, (s.locals i).processed + (s.locals i).drain.unfinished = taken steps i
  /-- A worker has taken at most six steps for each of its jobs, and one to find the queue empty. -/
  bounded : ∀ i, turns steps i + (s.locals i).drain.left ≤ 6 * taken steps i + 1

/-- All that a step of a worker can do. -/
inductive DrainCase (db : Db) (steps : List (Workers ι × (ι × DrainAction))) (s : Workers ι)
    (i : ι) : DrainAction → Workers ι → Prop
  /-- The queue is empty, and the worker returns. -/
  | exhausted {now : Time} : (s.locals i).drain = .looping .idle → s.shared.queue = [] →
    DrainCase db steps s i (.claim now)
      ⟨s.shared, Function.update s.locals i { s.locals i with drain := .returned }⟩
  /-- The worker claims the first job of the queue. -/
  | claim {now : Time} {r : Deployment} {rest : List Deployment} {u : UnitOfWork} {l : Session} :
    (s.locals i).drain = .looping .idle → s.shared.queue = r :: rest →
    u.Advances r (r.claimedBy (s.locals i).workerId now) [] →
    Working db (s.locals i).workerId r l (r.claimedBy (s.locals i).workerId now) [] →
    l ≠ .idle → l.rank = 5 →
    DrainCase db steps s i (.claim now)
      ⟨s.shared.write u, Function.update s.locals i { s.locals i with drain := .looping l }⟩
  /-- The worker reads for its job. -/
  | load {a : DrainAction} {d r : Deployment} {entries : List DeploymentEvent} {l l' : Session} :
    (s.locals i).drain = .looping l → l ≠ .idle → d ∈ db.queue →
    Working db (s.locals i).workerId d l r entries → s.shared.deployments.get? d.id = some r →
    s.shared.timeline d.id = db.timeline d.id ++ entries → claimants steps d.id = [i] →
    Working db (s.locals i).workerId d l' r entries → l' ≠ .idle → l'.rank < l.rank →
    DrainCase db steps s i a
      ⟨s.shared, Function.update s.locals i { s.locals i with drain := .looping l' }⟩
  /-- The worker commits for its job. -/
  | commit {a : DrainAction} {d r r' : Deployment} {entries : List DeploymentEvent}
      {e : DeploymentEvent} {u : UnitOfWork} {l l' : Session} :
    (s.locals i).drain = .looping l → l ≠ .idle → d ∈ db.queue →
    Working db (s.locals i).workerId d l r entries → s.shared.deployments.get? d.id = some r →
    s.shared.timeline d.id = db.timeline d.id ++ entries → claimants steps d.id = [i] →
    u.Advances r r' [e] →
    Working db (s.locals i).workerId d l' r' (entries ++ [e]) → l'.rank < l.rank →
    DrainCase db steps s i a
      ⟨s.shared.write u, Function.update s.locals i { s.locals i with
        processed := (s.locals i).processed + if l'.isIdle then 1 else 0
        drain := .looping l' }⟩

/-- A step of a worker does one of these. -/
theorem Draining.step {db : Db} {workerId : ι → String}
    {steps : List (Workers ι × (ι × DrainAction))} {s s' : Workers ι} {i : ι} {a : DrainAction}
    (h : Draining db workerId steps s) (hstep : drainStep lower s (i, a) = some s') :
    DrainCase db steps s i a s' := by
  obtain ⟨db', worker', hact, rfl⟩ := Config.step_eq_some.mp hstep
  dsimp only at hact
  cases hl : (s.locals i).drain with
  | returned => exact absurd hact (by simp [Worker.act, hl])
  | raised => exact absurd hact (by simp [Worker.act, hl])
  | looping l =>
    simp only [Worker.act, hl] at hact
    obtain ⟨p, hp, hact⟩ := Option.map_eq_some_iff.mp hact
    by_cases hidle : l = .idle
    · subst hidle
      -- An idle session can only claim.
      cases a with
      | claim now =>
        simp only [DrainAction.onSession, plan, claimOne_eq_queue] at hp
        cases hqueue : s.shared.queue with
        | nil =>
          simp only [hqueue, List.head?_nil, Option.map_none, Option.some.injEq] at hp
          obtain rfl := hp
          obtain ⟨rfl, rfl⟩ := Prod.mk.inj hact
          exact .exhausted hl hqueue
        | cons r rest =>
          simp only [hqueue, List.head?_cons, Option.map_some, Option.some.injEq] at hp
          obtain rfl := hp
          have hr : r ∈ s.shared.queue := by rw [hqueue]; exact List.mem_cons_self
          obtain ⟨hmem, hrequested⟩ := mem_queue.mp hr
          have hadvances : (UnitOfWork.updateDeployments
              [⟨r, r.claimedBy (s.locals i).workerId now⟩] []).Advances r
                (r.claimedBy (s.locals i).workerId now) [] :=
            advances_claim (Deployment.flush_self rfl)
          have hcons := hadvances.constraints h.constraints hmem
            (by simp [Deployment.inFlight, hrequested])
          simp only [Db.commit, hcons, if_true, Session.isIdle, Bool.false_eq_true, if_false,
            Nat.add_zero, Prod.mk.injEq] at hact
          obtain ⟨rfl, rfl⟩ := hact
          exact .claim hl hqueue hadvances (.claimed rfl) (by simp) rfl
      | _ => exact absurd hp (by simp [plan, DrainAction.onSession])
    · obtain ⟨d, hd, hat⟩ := h.busy i l hl hidle
      obtain ⟨r, entries, hworking, hr, htimeline, hclaimants⟩ := hat
      cases hworking.step hidle h.registry.2.1 hr hp with
      | @load l' hworking' hl' hrank =>
        have hact : (s.shared, { s.locals i with drain := .looping l' }) = (db', worker') := by
          cases l' with
          | idle => exact absurd rfl hl'
          | _ => exact hact
        obtain ⟨rfl, rfl⟩ := Prod.mk.inj hact
        exact .load hl hidle hd hworking hr htimeline hclaimants hworking' hl' hrank
      | @commit u l' r' e hadvances hworking' hrank =>
        have hflight := Deployment.inFlight_of_running (hworking.running hidle).1
        have hcons := hadvances.constraints h.constraints (Table.get?_eq_some.mp hr).1 hflight
        simp only [Db.commit, hcons, if_true, Prod.mk.injEq] at hact
        obtain ⟨rfl, rfl⟩ := hact
        exact .commit hl hidle hd hworking hr htimeline hclaimants hadvances hworking' hrank

/-! ## What a step keeps -/

section

variable {db : Db} {workerId : ι → String} {steps : List (Workers ι × (ι × DrainAction))}
variable {s s' : Workers ι} {i : ι} {a : DrainAction}

/-- A step is a turn of its worker. -/
theorem turns_snoc {j : ι} :
    turns (steps ++ [(s, (i, a))]) j = turns steps j + if i = j then 1 else 0 := by
  rw [turns, List.countP_append, List.countP_singleton]
  simp [turns]

/-- A step that claims a job adds it to those of its worker. -/
theorem taken_snoc {j : ι} : taken (steps ++ [(s, (i, a))]) j =
    taken steps j + if i = j then if (takes (s, (i, a))).isSome then 1 else 0 else 0 := by
  rw [taken, List.countP_append, List.countP_singleton]
  by_cases hij : i = j
  · simp [hij, taken]
  · simp [hij, taken]

/-- The counts of the workers after a step of one of them. -/
theorem Draining.counts (h : Draining db workerId steps s)
    (hlocals : ∀ j, j ≠ i → s'.locals j = s.locals j)
    (hcount : (s'.locals i).processed + (s'.locals i).drain.unfinished =
      (s.locals i).processed + (s.locals i).drain.unfinished +
        if (takes (s, (i, a))).isSome then 1 else 0)
    (hleft : (s'.locals i).drain.left + 1 ≤
      (s.locals i).drain.left + if (takes (s, (i, a))).isSome then 6 else 0) (j : ι) :
    (s'.locals j).processed + (s'.locals j).drain.unfinished =
        taken (steps ++ [(s, (i, a))]) j ∧
      turns (steps ++ [(s, (i, a))]) j + (s'.locals j).drain.left ≤
        6 * taken (steps ++ [(s, (i, a))]) j + 1 := by
  have hcounted := h.counted j
  have hbounded := h.bounded j
  rw [turns_snoc, taken_snoc]
  by_cases hij : i = j
  · subst hij
    rw [if_pos rfl, if_pos rfl]
    cases htakes : (takes (s, (i, a))).isSome with
    | false =>
      simp only [htakes, Bool.false_eq_true, if_false] at hcount hleft ⊢
      omega
    | true =>
      simp only [htakes, if_true] at hcount hleft ⊢
      omega
  · rw [if_neg hij, if_neg hij, hlocals j (Ne.symm hij)]
    exact ⟨hcounted, hbounded⟩

/-- A job that is in the queue was there from the start, and has not been claimed. -/
theorem Draining.waiting_of_mem (h : Draining db workerId steps s) {r : Deployment}
    (hr : r ∈ s.shared.queue) : r ∈ db.queue ∧ Waiting db steps s r := by
  have hmem : r.id ∈ db.queue.map Deployment.id := by
    rw [← h.order]
    exact List.mem_append_right _ (List.mem_map_of_mem hr)
  obtain ⟨d, hd, hid⟩ := List.mem_map.mp hmem
  have hrow : s.shared.deployments.get? d.id = some r := by
    rw [hid]
    exact Table.get?_key (mem_queue.mp hr).1
  rcases h.jobs d hd with hwaiting | ⟨j, l, ⟨r', entries, hworking, hr', -⟩, -⟩
  · obtain rfl := Option.some.inj (hwaiting.row.symm.trans hrow)
    exact ⟨hd, hwaiting⟩
  · obtain rfl := Option.some.inj (hr'.symm.trans hrow)
    exact absurd (mem_queue.mp hr).2 hworking.row.2

/-- The step of a worker at a job, whose other jobs and workers stay as they were. -/
theorem Draining.moved (h : Draining db workerId steps s) {d : Deployment} {l' : Session}
    (hd : d ∈ db.queue) (hat : AtJob db (steps ++ [(s, (i, a))]) s' i d l')
    (hdrain : (s'.locals i).drain = .looping l')
    (hids : ∀ j, (s'.locals j).workerId = (s.locals j).workerId)
    (hlocals : ∀ j, j ≠ i → s'.locals j = s.locals j)
    (hfree : ∀ l, (s.locals i).drain = .looping l → l ≠ .idle → l.job? = some d.id)
    (hclaimants : claimants steps d.id = [] ∨ claimants steps d.id = [i])
    (hleaves : ∀ id, id ≠ d.id → Leaves steps s s' (s, (i, a)) id)
    (hcons : s'.shared.Constraints)
    (hregistry : s'.shared.models = s.shared.models ∧ s'.shared.versions = s.shared.versions ∧
      s'.shared.versionEvents = s.shared.versionEvents)
    (horder : (takes (s, (i, a))).toList ++ s'.shared.queue.map Deployment.id =
      s.shared.queue.map Deployment.id)
    (hcount : (s'.locals i).processed + (s'.locals i).drain.unfinished =
      (s.locals i).processed + (s.locals i).drain.unfinished +
        if (takes (s, (i, a))).isSome then 1 else 0)
    (hleft : (s'.locals i).drain.left + 1 ≤
      (s.locals i).drain.left + if (takes (s, (i, a))).isSome then 6 else 0) :
    Draining db workerId (steps ++ [(s, (i, a))]) s' where
  workerIds j := (hids j).trans (h.workerIds j)
  constraints := hcons
  registry := ⟨hregistry.1.trans h.registry.1, hregistry.2.1.trans h.registry.2.1,
    hregistry.2.2.trans h.registry.2.2⟩
  jobs d' hd' := by
    by_cases hsame : d'.id = d.id
    · obtain rfl := db.deployments.eq_of_key_eq (mem_queue.mp hd').1 (mem_queue.mp hd).1 hsame
      exact Or.inr ⟨i, l', hat, Or.inr hdrain⟩
    · rcases h.jobs d' hd' with hwaiting | ⟨j, l, hatj, hl⟩
      · exact Or.inl (hwaiting.snoc (hleaves _ hsame))
      · refine Or.inr ⟨j, l, hatj.snoc (hleaves _ hsame) (hids j), ?_⟩
        rcases hl with hl | hl
        · exact Or.inl hl
        · by_cases hidle : l = .idle
          · exact Or.inl hidle
          -- The worker that moves is at no other job.
          · refine Or.inr ?_
            rw [hlocals j ?_]
            · exact hl
            · rintro rfl
              obtain ⟨r, entries, hworking, -⟩ := hatj
              have hjob := (hfree l hl hidle).symm.trans (hworking.running hidle).2
              exact hsame (Option.some.inj hjob).symm
  busy j l hl hidle := by
    by_cases hji : j = i
    · subst hji
      obtain rfl : l' = l := Drain.looping.inj (hdrain.symm.trans hl)
      exact ⟨d, hd, hat⟩
    · rw [hlocals j hji] at hl
      obtain ⟨d', hd', hatj⟩ := h.busy j l hl hidle
      refine ⟨d', hd', hatj.snoc (hleaves _ fun hsame => ?_) (hids j)⟩
      -- Nobody but the worker that moves has claimed its job.
      obtain ⟨-, -, -, -, -, hclaimantsj⟩ := hatj
      rw [hsame] at hclaimantsj
      rcases hclaimants with hnone | hone
      · exact absurd (hclaimantsj.symm.trans hnone) (List.cons_ne_nil _ _)
      · exact hji (List.cons.inj (hclaimantsj.symm.trans hone)).1
  others id hid := by
    obtain ⟨hrow, htimeline⟩ := h.others id hid
    have hleft := hleaves id (hid d hd).symm
    exact ⟨hleft.row.trans hrow, hleft.timeline.trans htimeline⟩
  order := by
    rw [List.filterMap_append, List.append_assoc, ← h.order, ← horder]
    cases htakes : takes (s, (i, a)) <;> simp [htakes]
  returned j hj := by
    by_cases hji : j = i
    · subst hji
      exact absurd (hdrain.symm.trans hj) (by simp)
    · rw [hlocals j hji] at hj
      rw [h.returned j hj, List.map_nil] at horder
      exact List.map_eq_nil_iff.mp (List.append_eq_nil_iff.mp horder).2
  accepted j := by
    by_cases hji : j = i
    · subst hji
      simp [hdrain]
    · rw [hlocals j hji]
      exact h.accepted j
  counted j := (h.counts hlocals hcount hleft j).1
  bounded j := (h.counts hlocals hcount hleft j).2

/-- The step of a worker that finds the queue empty. -/
theorem Draining.exhausted (h : Draining db workerId steps s)
    (hdrain : (s'.locals i).drain = .returned) (hl : (s.locals i).drain = .looping .idle)
    (hids : ∀ j, (s'.locals j).workerId = (s.locals j).workerId)
    (hlocals : ∀ j, j ≠ i → s'.locals j = s.locals j)
    (hprocessed : (s'.locals i).processed = (s.locals i).processed)
    (hshared : s'.shared = s.shared) (hqueue : s.shared.queue = [])
    (htakes : takes (s, (i, a)) = none) : Draining db workerId (steps ++ [(s, (i, a))]) s' := by
  have hleaves : ∀ id, Leaves steps s s' (s, (i, a)) id := fun id =>
    leaves_of_takes (by rw [hshared]) (by rw [hshared]) (by simp [htakes])
  have hcounts := h.counts hlocals (a := a)
    (by simp [hdrain, hl, hprocessed, htakes, Drain.unfinished, Session.isIdle])
    (by simp [hdrain, hl, htakes, Drain.left, Session.rank])
  refine ⟨fun j => (hids j).trans (h.workerIds j), hshared ▸ h.constraints, hshared ▸ h.registry,
    fun d hd => ?_, fun j l hj hidle => ?_, hshared ▸ h.others, ?_, fun j _ => hshared ▸ hqueue,
    fun j => ?_, fun j => (hcounts j).1, fun j => (hcounts j).2⟩
  · rcases h.jobs d hd with hwaiting | ⟨j, l, hat, hj⟩
    · exact Or.inl (hwaiting.snoc (hleaves _))
    · refine Or.inr ⟨j, l, hat.snoc (hleaves _) (hids j), ?_⟩
      rcases hj with hj | hj
      · exact Or.inl hj
      · by_cases hji : j = i
        · subst hji
          exact Or.inl (Drain.looping.inj (hj.symm.trans hl))
        · rw [hlocals j hji]
          exact Or.inr hj
  · by_cases hji : j = i
    · subst hji
      exact absurd (hdrain.symm.trans hj) (by simp)
    · rw [hlocals j hji] at hj
      obtain ⟨d, hd, hat⟩ := h.busy j l hj hidle
      exact ⟨d, hd, hat.snoc (hleaves _) (hids j)⟩
  · rw [List.filterMap_append, hshared, ← h.order]
    simp [htakes]
  · by_cases hji : j = i
    · subst hji
      simp [hdrain]
    · rw [hlocals j hji]
      exact h.accepted j

/-- A worker that changes in its step keeps its id. -/
theorem workerId_update {w : Worker} (hw : w.workerId = (s.locals i).workerId) (j : ι) :
    (Function.update s.locals i w j).workerId = (s.locals j).workerId := by
  by_cases hji : j = i
  · rw [hji, Function.update_self, hw]
  · rw [Function.update_of_ne hji]

/-- Every step of a worker keeps what holds while the workers drain the queue. -/
theorem Draining.snoc (h : Draining db workerId steps s)
    (hstep : drainStep lower s (i, a) = some s') :
    Draining db workerId (steps ++ [(s, (i, a))]) s' := by
  cases h.step hstep with
  | exhausted hl hqueue =>
    refine h.exhausted (by simp) hl (workerId_update rfl) (fun j hj => Function.update_of_ne hj _ _)
      (by simp) rfl hqueue ?_
    rw [takes_claim hl, hqueue]
    rfl
  | @claim now r rest u l hl hqueue hadvances hworking hidle hrank =>
    have hr : r ∈ s.shared.queue := by rw [hqueue]; exact List.mem_cons_self
    obtain ⟨hmem, hrequested⟩ := mem_queue.mp hr
    obtain ⟨hjob, hwaiting⟩ := h.waiting_of_mem hr
    have htakes : takes (s, (i, .claim now)) = some r.id := by
      rw [takes_claim hl, hqueue]
      rfl
    have htimeline := hadvances.timeline s.shared r.id
    rw [if_pos rfl, hwaiting.timeline] at htimeline
    refine h.moved hjob ⟨_, [], ?_, hadvances.get?_self hmem, htimeline, ?_⟩
      (show _ = Drain.looping l by simp) (workerId_update rfl)
      (fun j hj => Function.update_of_ne hj _ _) (fun l' hl' hidle' => ?_)
      (Or.inl hwaiting.claimants) (fun id hid => leaves_of_write hadvances hid ?_)
      (hadvances.constraints h.constraints hmem (by simp [Deployment.inFlight, hrequested]))
      hadvances.registry ?_ ?_ ?_
    · simpa using hworking
    · rw [claimants_snoc, if_pos htakes, hwaiting.claimants, List.nil_append]
    · exact absurd (Drain.looping.inj (hl'.symm.trans hl)) hidle'
    · rw [htakes]
      exact fun h => hid (Option.some.inj h).symm
    · rw [hadvances.queue hmem hworking.row.2, filter_queue hqueue, htakes, hqueue]
      rfl
    · simp [htakes, hl, Drain.unfinished, hidle]
    · have hstart : Session.idle.rank = 0 := rfl
      simp [htakes, hl, Drain.left, hrank, hstart]
  | @load a d r entries l l' hl hidle hd hworking hr htimeline hclaimants hworking' hl' hrank =>
    have htakes := takes_of_busy (a := a) hl hidle
    refine h.moved hd ⟨r, entries, ?_, hr, htimeline, ?_⟩
      (show _ = Drain.looping l' by simp) (workerId_update rfl)
      (fun j hj => Function.update_of_ne hj _ _) (fun l'' hl'' _ => ?_) (Or.inr hclaimants)
      (fun id _ => leaves_of_takes rfl rfl (by simp [htakes])) h.constraints ⟨rfl, rfl, rfl⟩
      ?_ ?_ ?_
    · simpa using hworking'
    · rw [claimants_snoc, htakes, if_neg (by simp), List.append_nil, hclaimants]
    · obtain rfl := Drain.looping.inj (hl''.symm.trans hl)
      exact (hworking.running hidle).2
    · rw [htakes]
      rfl
    · simp [htakes, hl, Drain.unfinished, hidle, hl']
    · simp only [htakes, hl, Drain.left, Function.update_self]
      omega
  | @commit a d r r' entries e u l l' hl hidle hd hworking hr htimeline hclaimants hadvances
      hworking' hrank =>
    have htakes := takes_of_busy (a := a) hl hidle
    obtain ⟨hmem, hid⟩ := Table.get?_eq_some.mp hr
    have hrow := hadvances.get?_self hmem
    have htimeline' := hadvances.timeline s.shared d.id
    rw [if_pos hid.symm, htimeline, List.append_assoc] at htimeline'
    rw [hid] at hrow
    refine h.moved hd ⟨r', entries ++ [e], ?_, hrow, htimeline', ?_⟩
      (show _ = Drain.looping l' by simp) (workerId_update rfl)
      (fun j hj => Function.update_of_ne hj _ _) (fun l'' hl'' _ => ?_) (Or.inr hclaimants)
      (fun id hne => leaves_of_write hadvances (hid ▸ hne) (by simp [htakes]))
      (hadvances.constraints h.constraints hmem
        (Deployment.inFlight_of_running (hworking.running hidle).1))
      hadvances.registry ?_ ?_ ?_
    · simpa using hworking'
    · rw [claimants_snoc, htakes, if_neg (by simp), List.append_nil, hclaimants]
    · obtain rfl := Drain.looping.inj (hl''.symm.trans hl)
      exact (hworking.running hidle).2
    · rw [hadvances.queue_eq hmem hworking.row.2 hworking'.row.2, htakes]
      rfl
    · by_cases hdone : l' = .idle
      · simp [htakes, hl, Drain.unfinished, hidle, hdone]
      · simp [htakes, hl, Drain.unfinished, hidle, hdone]
    · simp only [htakes, hl, Drain.left, Function.update_self]
      omega

/-- Before the first step every job is waiting. -/
theorem draining_start (workerId : ι → String) {db : Db} (hcons : db.Constraints) :
    Draining db workerId [] (Workers.start workerId db) where
  workerIds _ := rfl
  constraints := hcons
  registry := ⟨rfl, rfl, rfl⟩
  jobs d hd := Or.inl ⟨Table.get?_key (mem_queue.mp hd).1, rfl, rfl⟩
  busy _ _ hl hidle := absurd (Drain.looping.inj hl).symm hidle
  others _ _ := ⟨rfl, rfl⟩
  order := rfl
  returned _ hi := absurd hi (by simp [Workers.start])
  accepted _ := by simp [Workers.start]
  counted _ := rfl
  bounded _ := Nat.le_refl _

/-- It holds in every run of the workers. -/
theorem draining_of_trace {ok : Workers ι → ι × DrainAction → Prop} (hcons : db.Constraints)
    (htrace : Trace (drainStep lower) ok (Workers.start workerId db) steps s) :
    Draining db workerId steps s := by
  induction htrace with
  | nil => exact draining_start workerId hcons
  | @snoc steps s s' x _ _ hstep ih => exact ih.snoc hstep

/-! ## Termination -/

/-- A worker that has not returned can go on. -/
theorem Draining.enabled (h : Draining db workerId steps s) (i : ι)
    (hi : (s.locals i).drain ≠ .returned) : ∃ a s', drainStep lower s (i, a) = some s' := by
  have hplan : ∃ (l : Session) (a : DrainAction) (p : Plan), (s.locals i).drain = .looping l ∧
      plan lower s.shared l (a.onSession (s.locals i).workerId) = some p := by
    cases hl : (s.locals i).drain with
    | returned => exact absurd hl hi
    | raised => exact absurd hl (h.accepted i)
    | looping l =>
      by_cases hidle : l = .idle
      · subst hidle
        refine ⟨.idle, .claim 0, ?_⟩
        simp only [DrainAction.onSession, plan]
        cases claimOne s.shared (s.locals i).workerId 0 [] with
        | none => exact ⟨_, trivial, rfl⟩
        | some y => exact ⟨_, trivial, rfl⟩
      · obtain ⟨d, -, r, entries, hworking, hr, -⟩ := h.busy i l hl hidle
        have henabled : ∃ (a : DrainAction) (p : Plan),
            plan lower s.shared l (a.onSession (s.locals i).workerId) = some p :=
          hworking.enabled hidle hr
        obtain ⟨a, p, hp⟩ := henabled
        exact ⟨l, a, p, rfl, hp⟩
  obtain ⟨l, a, p, hl, hp⟩ := hplan
  exact ⟨a, Option.isSome_iff_exists.mp (by simp [Config.step, Worker.act, hl, hp])⟩

end

end

section

variable {ι : Type} [DecidableEq ι] {db : Db} {workerId : ι → String}
variable {steps : List (Workers ι × (ι × DrainAction))} {s : Workers ι}

/-- The claims of a worker are claims of the run. -/
theorem taken_le (i : ι) : taken steps i ≤ (steps.filterMap takes).length := by
  rw [List.length_filterMap_eq_countP]
  exact List.countP_mono_left fun x _ hx => by simpa using And.right (by simpa using hx)

/-- A worker takes a bounded number of steps, whatever the other workers do. -/
theorem Draining.turns_le (h : Draining db workerId steps s) (i : ι) :
    turns steps i ≤ 6 * db.queue.length + 1 := by
  have horder := congrArg List.length h.order
  simp only [List.length_append, List.length_map] at horder
  have htaken : taken steps i ≤ db.queue.length := by
    calc taken steps i
        ≤ (steps.filterMap takes).length := taken_le i
      _ ≤ (steps.filterMap takes).length + s.shared.queue.length := Nat.le_add_right _ _
      _ = db.queue.length := horder
  calc turns steps i
      ≤ turns steps i + (s.locals i).drain.left := Nat.le_add_right _ _
    _ ≤ 6 * taken steps i + 1 := h.bounded i
    _ ≤ 6 * db.queue.length + 1 := by omega

variable [Fintype ι]

/-- Counting for each worker counts all. -/
theorem sum_countP {β : Type} (worker : β → ι) (p : β → Bool) (xs : List β) :
    ∑ i, xs.countP (fun x => worker x = i && p x) = xs.countP p := by
  induction xs with
  | nil => simp
  | cons x xs ih =>
    simp only [List.countP_cons, Finset.sum_add_distrib, ih]
    cases p x <;> simp

/-- Every step is a turn of some worker. -/
theorem sum_turns : ∑ i, turns steps i = steps.length := by
  have hsum := sum_countP (fun x : Workers ι × (ι × DrainAction) => x.2.1) (fun _ => true) steps
  simpa [turns] using hsum

/-- Every claim is one of some worker. -/
theorem sum_taken : ∑ i, taken steps i = (steps.filterMap takes).length := by
  rw [List.length_filterMap_eq_countP]
  exact sum_countP (fun x : Workers ι × (ι × DrainAction) => x.2.1) (fun x => (takes x).isSome)
    steps

end

/-! ## The result -/

/-- A run of the workers until all of them have returned. -/
structure DrainRun {ι : Type} [DecidableEq ι] (lower : String → String) (workerId : ι → String)
    (db : Db) (steps : List (Workers ι × (ι × DrainAction))) (s : Workers ι) : Prop where
  /-- The steps lead from the start to the last state. -/
  trace : Trace (drainStep lower) (fun _ _ => True) (Workers.start workerId db) steps s
  /-- All workers have returned. -/
  returned : ∀ i, (s.locals i).drain = .returned

/-- Every job of the queue of `db` was claimed once and processed, and nothing else has changed. -/
structure Drained {ι : Type} [Fintype ι] (db : Db) (workerId : ι → String)
    (steps : List (Workers ι × (ι × DrainAction))) (s : Workers ι) : Prop where
  /-- One worker has claimed the job, and what it made of the job is in its row and timeline. -/
  jobs : ∀ d ∈ db.queue, ∃ i, claimants steps d.id = [i] ∧
    s.shared.deployments.get? d.id = some (drained db (workerId i) d) ∧
    s.shared.timeline d.id = db.timeline d.id ++ drainedTimeline db d
  /-- No job is active any more. -/
  inactive : ∀ d ∈ db.queue, ∀ r, s.shared.deployments.get? d.id = some r → r.inFlight = false
  /-- The other deployments are as they were. -/
  others : ∀ id, (∀ d ∈ db.queue, d.id ≠ id) →
    s.shared.deployments.get? id = db.deployments.get? id ∧ s.shared.timeline id = db.timeline id
  /-- The models and the versions are as they were. -/
  registry : s.shared.models = db.models ∧ s.shared.versions = db.versions ∧
    s.shared.versionEvents = db.versionEvents
  /-- The returned counts add up to the number of jobs. -/
  processed : ∑ i, (s.locals i).processed = db.queue.length

/-- The databases agree up to the ids of workers and of timeline entries. -/
structure Db.Agree (db db' : Db) : Prop where
  /-- The models and the versions are the same. -/
  registry : db.models = db'.models ∧ db.versions = db'.versions ∧
    db.versionEvents = db'.versionEvents
  /-- The deployments are the same, but for their workers. -/
  rows : ∀ id, (db.deployments.get? id).map Deployment.withoutWorker =
    (db'.deployments.get? id).map Deployment.withoutWorker
  /-- The timelines are the same. -/
  timelines : ∀ id, db.timeline id = db'.timeline id

/-- Any two workers that drain a queue leave the same result. -/
theorem Drained.agree {ι κ : Type} [Fintype ι] [Fintype κ] {db : Db} {workerId : ι → String}
    {workerId' : κ → String} {steps : List (Workers ι × (ι × DrainAction))}
    {steps' : List (Workers κ × (κ × DrainAction))} {s : Workers ι} {s' : Workers κ}
    (h : Drained db workerId steps s) (h' : Drained db workerId' steps' s') :
    s.shared.Agree s'.shared := by
  have hid : ∀ id, (s.shared.deployments.get? id).map Deployment.withoutWorker =
      (s'.shared.deployments.get? id).map Deployment.withoutWorker ∧
        s.shared.timeline id = s'.shared.timeline id := by
    intro id
    by_cases hjob : ∃ d ∈ db.queue, d.id = id
    · obtain ⟨d, hd, rfl⟩ := hjob
      obtain ⟨i, -, hrow, htimeline⟩ := h.jobs d hd
      obtain ⟨j, -, hrow', htimeline'⟩ := h'.jobs d hd
      refine ⟨?_, htimeline.trans htimeline'.symm⟩
      rw [hrow, hrow', Option.map_some, Option.map_some, withoutWorker_drained]
    · push Not at hjob
      obtain ⟨hrow, htimeline⟩ := h.others id hjob
      obtain ⟨hrow', htimeline'⟩ := h'.others id hjob
      exact ⟨by rw [hrow, hrow'], htimeline.trans htimeline'.symm⟩
  obtain ⟨hmodels, hversions, hevents⟩ := h.registry
  obtain ⟨hmodels', hversions', hevents'⟩ := h'.registry
  exact ⟨⟨hmodels.trans hmodels'.symm, hversions.trans hversions'.symm,
    hevents.trans hevents'.symm⟩, fun id => (hid id).1, fun id => (hid id).2⟩

section

variable {ι : Type} [DecidableEq ι] {db : Db} {workerId : ι → String}
variable {steps : List (Workers ι × (ι × DrainAction))} {s : Workers ι}

/-- When all workers have returned, they have processed every job. -/
theorem Draining.drained [Fintype ι] [Nonempty ι] (h : Draining db workerId steps s)
    (hreturned : ∀ i, (s.locals i).drain = .returned) : Drained db workerId steps s := by
  have hempty : s.shared.queue = [] := h.returned _ (hreturned (Classical.arbitrary ι))
  have hjobs : ∀ d ∈ db.queue, ∃ i, claimants steps d.id = [i] ∧
      s.shared.deployments.get? d.id = some (MlopsPlatform.drained db (workerId i) d) ∧
      s.shared.timeline d.id = db.timeline d.id ++ drainedTimeline db d := by
    intro d hd
    rcases h.jobs d hd with hwaiting | ⟨i, l, ⟨r, entries, hworking, hr, htimeline, hone⟩, hl⟩
    · -- A waiting job is still in the queue.
      have hmem : d ∈ s.shared.queue :=
        mem_queue.mpr ⟨(Table.get?_eq_some.mp hwaiting.row).1, (mem_queue.mp hd).2⟩
      exact absurd (hempty ▸ hmem) List.not_mem_nil
    · rcases hl with rfl | hl
      · obtain ⟨rfl, rfl⟩ := hworking.of_idle
        rw [h.workerIds] at hr
        exact ⟨i, hone, hr, htimeline⟩
      · exact absurd ((hreturned i).symm.trans hl) (by simp)
  refine ⟨hjobs, fun d hd r hr => ?_, h.others, h.registry, ?_⟩
  · obtain ⟨i, -, hrow, -⟩ := hjobs d hd
    obtain rfl := Option.some.inj (hrow.symm.trans hr)
    exact inFlight_drained
  · -- No worker is at a job, so that its count is the number of its claims.
    have hcounts : ∀ i, (s.locals i).processed = taken steps i := by
      intro i
      have hcounted := h.counted i
      rwa [hreturned i] at hcounted
    have horder := congrArg List.length h.order
    rw [hempty, List.map_nil, List.append_nil, List.length_map] at horder
    calc ∑ i, (s.locals i).processed
        = ∑ i, taken steps i := Finset.sum_congr rfl fun i _ => hcounts i
      _ = (steps.filterMap takes).length := sum_taken
      _ = db.queue.length := horder

/-- One worker alone processes the jobs in the order of their ids: when it claims a job, those with
smaller ids are processed, and the others are as they were. -/
theorem Draining.ascending (h : Draining db workerId steps s) (hone : ∀ i j : ι, i = j) {i : ι}
    {a : DrainAction} {id : Uuid} (htakes : takes (s, (i, a)) = some id) {d : Deployment}
    (hd : d ∈ db.queue) :
    (d.id < id → s.shared.deployments.get? d.id = some (MlopsPlatform.drained db (workerId i) d) ∧
      s.shared.timeline d.id = db.timeline d.id ++ drainedTimeline db d) ∧
    (id ≤ d.id → s.shared.deployments.get? d.id = some d ∧
      s.shared.timeline d.id = db.timeline d.id) := by
  obtain ⟨hidle, r, rest, hqueue, rfl⟩ := takes_eq_some htakes
  have hsorted := queue_sorted s.shared
  rw [hqueue, List.pairwise_cons] at hsorted
  rcases h.jobs d hd with hwaiting | ⟨j, l, ⟨r', entries, hworking, hr', htimeline, hclaimants⟩, hl⟩
  · -- A waiting job is the first one in the queue or comes after it.
    refine ⟨fun hlt => ?_, fun _ => ⟨hwaiting.row, hwaiting.timeline⟩⟩
    have hmem : d ∈ s.shared.queue :=
      mem_queue.mpr ⟨(Table.get?_eq_some.mp hwaiting.row).1, (mem_queue.mp hd).2⟩
    rw [hqueue] at hmem
    rcases List.mem_cons.mp hmem with rfl | hmem
    · exact absurd hlt (Nat.lt_irrefl _)
    · exact absurd (hsorted.1 d hmem) (Nat.lt_asymm hlt)
  · obtain rfl := hone i j
    obtain rfl : l = .idle := hl.elim id fun hl => Drain.looping.inj (hl.symm.trans hidle)
    obtain ⟨rfl, rfl⟩ := hworking.of_idle
    rw [h.workerIds] at hr'
    refine ⟨fun _ => ⟨hr', htimeline⟩, fun hle => ?_⟩
    -- A job that has been claimed comes before those that are still in the queue.
    have hclaimed : d.id ∈ steps.filterMap takes :=
      mem_claimants (hclaimants ▸ List.mem_singleton_self i)
    have horder : (db.queue.map Deployment.id).Pairwise (· < ·) :=
      List.pairwise_map.mpr (queue_sorted db)
    rw [← h.order, hqueue, List.pairwise_append] at horder
    have hlt := horder.2.2 d.id hclaimed r.id (by simp)
    exact absurd hlt (Nat.not_lt.mpr hle)

end

/-- A run of the workers until all of them have returned drains the queue. -/
theorem DrainRun.drained {ι : Type} [DecidableEq ι] [Fintype ι] [Nonempty ι]
    {workerId : ι → String} {db : Db} {steps : List (Workers ι × (ι × DrainAction))}
    {s : Workers ι} (h : DrainRun lower workerId db steps s) (hcons : db.Constraints) :
    Drained db workerId steps s := (draining_of_trace hcons h.trace).drained h.returned

/-- There is a run of the workers until all of them have returned. -/
theorem exists_drainRun {ι : Type} [DecidableEq ι] [Fintype ι] (workerId : ι → String) {db : Db}
    (hcons : db.Constraints) : ∃ steps s, DrainRun lower workerId db steps s := by
  have hrun : ∃ steps s, Trace (drainStep lower) (fun _ _ => True) (Workers.start workerId db)
      steps s ∧ ∀ i, (s.locals i).drain = .returned := by
    refine exists_trace_final (n := ∑ _i : ι, (6 * db.queue.length + 1)) ?_ ?_
    · intro steps s htrace
      rw [← sum_turns]
      exact Finset.sum_le_sum fun i _ => (draining_of_trace hcons htrace).turns_le i
    · intro steps s htrace hnot
      push Not at hnot
      obtain ⟨i, hi⟩ := hnot
      obtain ⟨a, s', hstep⟩ := (draining_of_trace hcons htrace).enabled i hi
      exact ⟨(i, a), s', trivial, hstep⟩
  obtain ⟨steps, s, htrace, hreturned⟩ := hrun
  exact ⟨steps, s, htrace, hreturned⟩

/-- Draining with any number of workers is draining with one. A worker takes a bounded number of
steps, and can go on until it returns. When all have returned, every job was claimed by one worker
and processed, and nothing else has changed; the result is the one that a single worker leaves, up
to the ids of the workers. One worker alone goes through the jobs in the order of their ids. -/
theorem drained_of_trace {ι : Type} [DecidableEq ι] [Fintype ι] [Nonempty ι]
    {workerId : ι → String} {db : Db} {steps : List (Workers ι × (ι × DrainAction))}
    {s : Workers ι} (hcons : db.Constraints)
    (htrace : Trace (drainStep lower) (fun _ _ => True) (Workers.start workerId db) steps s) :
    (∀ i, turns steps i ≤ 6 * db.queue.length + 1 ∧
      ((s.locals i).drain = .returned ∨ ∃ a s', drainStep lower s (i, a) = some s')) ∧
    ((∀ i, (s.locals i).drain = .returned) → Drained db workerId steps s ∧
      ∀ single : String, (∃ steps₁ s₁, DrainRun lower (fun _ : Unit => single) db steps₁ s₁) ∧
        ∀ steps₁ s₁, DrainRun lower (fun _ : Unit => single) db steps₁ s₁ →
          s.shared.Agree s₁.shared) ∧
    ((∀ i j : ι, i = j) → ∀ x ∈ steps, ∀ id, takes x = some id → ∀ d ∈ db.queue,
      (d.id < id → x.1.shared.deployments.get? d.id = some (drained db (workerId x.2.1) d) ∧
        x.1.shared.timeline d.id = db.timeline d.id ++ drainedTimeline db d) ∧
      (id ≤ d.id → x.1.shared.deployments.get? d.id = some d ∧
        x.1.shared.timeline d.id = db.timeline d.id)) := by
  have hdraining := draining_of_trace hcons htrace
  refine ⟨fun i => ⟨hdraining.turns_le i, ?_⟩, fun hreturned => ⟨hdraining.drained hreturned, ?_⟩,
    fun hone x hx id htakes d hd => ?_⟩
  · by_cases hi : (s.locals i).drain = .returned
    · exact Or.inl hi
    · exact Or.inr (hdraining.enabled i hi)
  · intro single
    exact ⟨exists_drainRun _ hcons, fun steps₁ s₁ h₁ =>
      (hdraining.drained hreturned).agree (h₁.drained hcons)⟩
  · obtain ⟨before, hbefore⟩ := htrace.exists_before hx
    exact (draining_of_trace hcons hbefore).ascending hone htakes hd

/-- A queue of two jobs, the second of which is to fail. -/
def twoJobs : Db :=
  (exec (step id) AtomicSteps .init (registration ++ [(0, .call (.createModel 9
      { name := "fan failure", owner := "ops", framework := .pytorch })),
    (0, .call (.createVersion 9 none 2 { version := "1.0", artifactUri := "s3://fan/1" })),
    (0, .call (.transitionVersion 9 none 3 .validated)),
    (0, request 1 .development false), (0, request 3 .development true)])).shared

/-- Two workers that take a job each. -/
def interleaved : List (Bool × DrainAction) :=
  [(false, .claim 10), (true, .claim 11), (true, .commit), (false, .commit), (false, .load),
    (true, .work), (false, .commit), (true, .work), (true, .claim 20), (false, .work),
    (false, .claim 21)]

/-- The ids of the two workers. -/
def twoWorkers (i : Bool) : String := if i then "b" else "a"

set_option maxRecDepth 4096 in
/-- The end of `interleaved`, at which the second worker has processed the second job. -/
theorem drained_of_trace_interleaved :
    ∃ steps s, DrainRun id twoWorkers twoJobs steps s ∧
      s.shared.deployments.rows.map (fun d => (d.status, d.workerId, d.error)) =
        [(.succeeded, some "a", none), (.failed, some "b", some "runtime_timeout")] ∧
      (∀ i, turns steps i ≤ 6 * twoJobs.queue.length + 1) ∧
      Drained twoJobs twoWorkers steps s ∧
      ∀ steps₁ s₁, DrainRun id (fun _ : Unit => "c") twoJobs steps₁ s₁ →
        s.shared.Agree s₁.shared := by
  have htrace := exec_trace (drainStep id) (fun _ _ => True) (Workers.start twoWorkers twoJobs)
    interleaved
  have hreturned : ∀ i, ((exec (drainStep id) (fun _ _ => True) (Workers.start twoWorkers twoJobs)
      interleaved).locals i).drain = .returned := by
    intro i
    cases i <;> rfl
  have hcons : twoJobs.Constraints := reach_constraints (exec_reach (step id) AtomicSteps .init _)
  obtain ⟨hworkers, hresult, -⟩ := drained_of_trace hcons htrace
  obtain ⟨hdrained, hagree⟩ := hresult hreturned
  exact ⟨_, _, ⟨htrace, hreturned⟩, by decide, fun i => (hworkers i).1, hdrained, (hagree "c").2⟩

end MlopsPlatform
