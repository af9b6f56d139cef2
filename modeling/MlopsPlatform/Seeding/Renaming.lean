import Mathlib.Logic.Equiv.Defs
import MlopsPlatform.Seeding.Dataset

/-!
# The order of the rows

In another order the rows of `metrics.csv` lead to the same dataset, up to ids: the deployments are
made in another order, and take each other's ids. `Renamed` says what it is for two stores to be the
same but for that. `rename` sends the id of a deployment to the one that the deployment of the same
job has in the other store, and all that has to be known about it is `place_rename`.
-/

namespace MlopsPlatform

/-! ## The same dataset up to ids -/

/-- A timeline entry without its ids. -/
def DeploymentEvent.withoutIds (e : DeploymentEvent) : DeploymentEvent :=
  { e with id := 0, deploymentId := 0 }

/-- A metric without its own id. -/
def Metric.withoutId (m : Metric) : Metric := { m with id := 0 }

/-- A metric whose deployment has another id. -/
def Metric.renamed (σ : Uuid → Uuid) (m : Metric) : Metric :=
  { m with deploymentId := m.deploymentId.map σ }

/-- A deployment under other ids. -/
def Deployment.renamed (σ : Uuid → Uuid) (d : Deployment) : Deployment :=
  { d with id := σ d.id, rolledBackToId := d.rolledBackToId.map σ }

/-- The timeline of a deployment without ids, in the order in which it was recorded. -/
def SampleStore.timeline (s : SampleStore) (id : Uuid) : List DeploymentEvent :=
  (s.db.deploymentEvents.select fun e => e.deploymentId = id).map DeploymentEvent.withoutIds

/-- The stores hold the same, but for the order and the ids of deployments, timeline entries, and
metrics: `σ` sends the ids of the deployments of one to those of the other. -/
structure SampleStore.Renamed (σ : Equiv.Perm Uuid) (s s' : SampleStore) : Prop where
  models : s'.db.models = s.db.models
  versions : s'.db.versions = s.db.versions
  versionEvents : s'.db.versionEvents = s.db.versionEvents
  deployments : (s.db.deployments.rows.map (Deployment.renamed σ)).Perm s'.db.deployments.rows
  timelines : ∀ id, s'.timeline (σ id) = s.timeline id
  metrics : (s.metrics.rows.map fun m => (m.renamed σ).withoutId).Perm
    (s'.metrics.rows.map Metric.withoutId)

/-- What is the same for rows that differ in their ids holds of the rows of both stores. -/
theorem all_of_perm {α : Type} {l l' : List α} {f g : α → α} {p : α → Bool}
    (h : (l.map f).Perm (l'.map g)) (hf : ∀ a, p (f a) = p a) (hg : ∀ a, p (g a) = p a)
    (hall : l.all p = true) : l'.all p = true := by
  rw [List.all_eq_true] at *
  intro a ha
  obtain ⟨b, hb, hba⟩ := List.mem_map.mp (h.mem_iff.mpr (List.mem_map_of_mem (f := g) ha))
  rw [← hg, ← hba, hf]
  exact hall b hb

/-- What no two rows are to each other, whatever their ids, no two rows of the other store are. -/
theorem pairwise_of_renamed {l l' : List Deployment} {σ : Uuid → Uuid}
    {R : Deployment → Deployment → Prop} (h : (l.map (Deployment.renamed σ)).Perm l')
    (hR : ∀ a b, R a b → R (a.renamed σ) (b.renamed σ)) (hsymm : ∀ {a b}, R a b → R b a)
    (hall : l.Pairwise R) : l'.Pairwise R := by
  rw [← h.pairwise_iff hsymm, List.pairwise_map]
  exact hall.imp fun {a b} => hR a b

/-- The database accepts a store exactly if it accepts the same store under other ids. -/
theorem SampleStore.Renamed.accepted {σ : Equiv.Perm Uuid} {s s' : SampleStore}
    (h : s.Renamed σ s') {postgresql : Bool} (haccepted : s.accepted postgresql = true) :
    s'.accepted postgresql = true := by
  simp only [SampleStore.accepted, Bool.and_eq_true, decide_eq_true_eq, Bool.or_eq_true,
    SampleStore.fits] at *
  obtain ⟨⟨hkey, hversion, hidempotency, hactive⟩, hfits⟩ := haccepted
  have hrows : (s.db.deployments.rows.map (Deployment.renamed σ)).Perm
      (s'.db.deployments.rows.map id) := by
    rw [List.map_id]
    exact h.deployments
  refine ⟨⟨?_, ?_, ?_, ?_⟩, hfits.imp_right ?_⟩
  · rw [Db.UniqueModelKey, h.models]
    exact hkey
  · rw [Db.UniqueModelVersion, h.versions]
    exact hversion
  · refine pairwise_of_renamed h.deployments (fun a b => id) ?_ hidempotency
    rintro a b hab ⟨hsome, hsame⟩
    exact hab ⟨hsame ▸ hsome, hsame.symm⟩
  · refine pairwise_of_renamed h.deployments (fun a b => id) ?_ hactive
    rintro a b hab ⟨hb, ha, hmodel, henvironment⟩
    exact hab ⟨ha, hb, hmodel.symm, henvironment.symm⟩
  · rintro ⟨⟨⟨⟨⟨hmodels, hversions⟩, hversionEvents⟩, hdeployments⟩, hevents⟩, hmetrics⟩
    refine ⟨⟨⟨⟨⟨?_, ?_⟩, ?_⟩, ?_⟩, ?_⟩, ?_⟩
    · rw [h.models]
      exact hmodels
    · rw [h.versions]
      exact hversions
    · rw [h.versionEvents]
      exact hversionEvents
    · exact all_of_perm hrows (fun _ => rfl) (fun _ => rfl) hdeployments
    · rw [List.all_eq_true] at hevents ⊢
      intro e he
      -- The entry is in the timeline of a deployment, which is also there under its other id.
      have hmem : e.withoutIds ∈ s'.timeline (σ (σ.symm e.deploymentId)) := by
        rw [Equiv.apply_symm_apply]
        exact List.mem_map_of_mem (Table.mem_select.mpr ⟨he, decide_eq_true rfl⟩)
      rw [h.timelines] at hmem
      obtain ⟨e', he', hsame⟩ := List.mem_map.mp hmem
      have hfits' := hevents e' (Table.mem_select.mp he').1
      have hsame' := congrArg DeploymentEvent.fits hsame
      exact hsame'.symm.trans hfits'
    · exact all_of_perm h.metrics (fun _ => rfl) (fun _ => rfl) hmetrics

namespace Seeding

/-! ## Ids of the items of a list -/

section

variable {α : Type} {n : ℕ} {l l' : List α}

/-- The item of a list that has an id, where the ids begin with `n`. -/
def place (n : ℕ) (l : List α) (id : ℕ) : Option α := if n ≤ id then l[id - n]? else none

/-- An item that has an id is in the list. -/
theorem mem_of_place {id : ℕ} {a : α} (h : place n l id = some a) : a ∈ l := by
  unfold place at h
  split_ifs at h
  exact List.mem_of_getElem? h

/-- Lists of the same length have items under the same ids. -/
theorem place_eq_none (hlength : l.length = l'.length) {id : ℕ} (h : place n l id = none) :
    place n l' id = none := by
  unfold place at *
  split_ifs at * with hle
  · rw [List.getElem?_eq_none_iff] at *
    omega
  · rfl

/-- The first item has the first id. -/
theorem place_cons (a : α) (id : ℕ) :
    place n (a :: l) id = if id = n then some a else place (n + 1) l id := by
  unfold place
  by_cases hid : id = n
  · rw [if_pos hid, if_pos hid.ge, hid, Nat.sub_self]
    rfl
  · rw [if_neg hid]
    by_cases hle : n + 1 ≤ id
    · rw [if_pos hle, if_pos (by omega), show id - n = id - (n + 1) + 1 by omega,
        List.getElem?_cons_succ]
    · rw [if_neg hle, if_neg (by omega)]

/-- What comes after a list has the ids after those of the list. -/
theorem place_append (rest : List α) (id : ℕ) :
    place n (l ++ rest) id = (place n l id).or (place (n + l.length) rest id) := by
  unfold place
  by_cases hle : n ≤ id
  · rw [if_pos hle, if_pos hle, List.getElem?_append]
    by_cases hlt : id - n < l.length
    · rw [if_pos hlt, List.getElem?_eq_getElem hlt]
      rfl
    · have hnone : l[id - n]? = none := List.getElem?_eq_none (Nat.le_of_not_lt hlt)
      rw [if_neg hlt, if_pos (by omega), hnone, Option.none_or, Nat.sub_sub]
  · rw [if_neg hle, if_neg hle, if_neg (by omega)]
    rfl

variable [DecidableEq α]

/-- The id of an item of one list becomes its id in the other, and other ids stay. -/
def rename (n : ℕ) (l l' : List α) (id : ℕ) : ℕ :=
  match place n l id with
  | some a => n + l'.idxOf a
  | none => id

/-- An item of a list has the id of its first occurrence. -/
theorem place_idxOf {a : α} (h : a ∈ l) : place n l (n + l.idxOf a) = some a := by
  rw [place, if_pos (Nat.le_add_right _ _), Nat.add_sub_cancel_left]
  exact List.getElem?_eq_some_iff.mpr ⟨List.idxOf_lt_length_of_mem h, List.getElem_idxOf _⟩

/-- An item that is not repeated has no other id. -/
theorem eq_of_place (hl : l.Nodup) {id : ℕ} {a : α} (h : place n l id = some a) :
    id = n + l.idxOf a := by
  unfold place at h
  split_ifs at h with hle
  obtain ⟨hlt, rfl⟩ := List.getElem?_eq_some_iff.mp h
  rw [hl.idxOf_getElem]
  omega

/-- A renamed item is the same item. -/
theorem place_rename (h : l.Perm l') (rest : List α) (id : ℕ) :
    place n (l' ++ rest) (rename n l l' id) = place n (l ++ rest) id := by
  rw [place_append, place_append, ← h.length_eq]
  unfold rename
  cases hplace : place n l id with
  | some a => rw [place_idxOf (h.mem_iff.mp (mem_of_place hplace))]; rfl
  | none => rw [place_eq_none h.length_eq hplace]

/-- Renaming there and back changes nothing. -/
theorem rename_rename (hl : l.Nodup) (h : l.Perm l') (id : ℕ) :
    rename n l' l (rename n l l' id) = id := by
  have hback := place_rename h ([] : List α) id (n := n)
  rw [List.append_nil, List.append_nil] at hback
  rw [rename, hback]
  cases hplace : place n l id with
  | some a => exact (eq_of_place hl hplace).symm
  | none =>
    show rename n l l' id = id
    rw [rename, hplace]

/-- The renaming between two lists of the same items. -/
def renamePerm (n : ℕ) (hl : l.Nodup) (h : l.Perm l') : Equiv.Perm ℕ where
  toFun := rename n l l'
  invFun := rename n l' l
  left_inv := rename_rename hl h
  right_inv := rename_rename (h.nodup_iff.mp hl) h.symm

end

/-! ## The rows of a dataset -/

section

variable {base : SampleStore} {actorId : Option Uuid} {jobs jobs' failed : List Job}
variable {samples samples' : List Sample}

/-- The tables of runs have no rows. -/
structure Idle (base : SampleStore) : Prop where
  deployments : base.db.deployments.rows = []
  deploymentEvents : base.db.deploymentEvents.rows = []
  metrics : base.metrics.rows = []

/-- A deployment of a dataset is that of the job that has its id. -/
theorem mem_deployments_dataset (h : Idle base) {d : Deployment} :
    d ∈ (dataset base actorId jobs samples).db.deployments ↔
      ∃ id job, place base.db.deployments.next jobs id = some job ∧
        d = (job.draft actorId).1 id := by
  have hold : d ∉ base.db.deployments := fun hd => by
    rw [← Table.mem_rows, h.deployments] at hd
    exact List.not_mem_nil hd
  rw [dataset, Table.mem_insertAll_iff, or_iff_right hold]
  constructor
  · rintro ⟨i, draft, hdraft, rfl⟩
    rw [List.getElem?_map] at hdraft
    obtain ⟨job, hjob, rfl⟩ := Option.map_eq_some_iff.mp hdraft
    refine ⟨base.db.deployments.next + i, job, ?_, rfl⟩
    rw [place, if_pos (Nat.le_add_right _ _), Nat.add_sub_cancel_left]
    exact hjob
  · rintro ⟨id, job, hjob, rfl⟩
    unfold place at hjob
    split_ifs at hjob with hle
    refine ⟨id - base.db.deployments.next, job.draft actorId, ?_, ?_⟩
    · rw [List.getElem?_map, hjob]
      rfl
    · rw [Nat.add_sub_cancel' hle]

/-- The timeline that `_make_deployment` records, without ids. -/
def Job.story (job : Job) : List DeploymentEvent :=
  (steps job.status job.error).map fun step => deploymentEventRow 0 step 0

/-- Of the timelines of jobs, the one of a deployment is that of the job that has its id. -/
theorem filter_timelines (n : ℕ) (jobs : List Job) (id : Uuid) :
    ((timelines n jobs).filter fun d => (d.1 0).deploymentId = id).map
        (fun d => (d.1 0).withoutIds) = ((place n jobs id).map Job.story).getD [] := by
  induction jobs generalizing n with
  | nil => simp [timelines, place]
  | cons job jobs ih =>
    rw [timelines, List.filter_append, List.map_append, ih, place_cons]
    by_cases hid : id = n
    · subst hid
      have hall : ((job.timeline id).filter fun d => (d.1 0).deploymentId = id) =
          job.timeline id := by
        rw [List.filter_eq_self]
        intro d hd
        obtain ⟨step, -, rfl⟩ := List.mem_map.mp hd
        exact decide_eq_true rfl
      rw [if_pos rfl, hall, place, if_neg (Nat.not_succ_le_self _), Job.timeline, List.map_map]
      exact List.append_nil _
    · have hother : ((job.timeline n).filter fun d => (d.1 0).deploymentId = id) = [] := by
        rw [List.filter_eq_nil_iff]
        intro d hd
        obtain ⟨step, -, rfl⟩ := List.mem_map.mp hd
        exact fun hsame => hid (of_decide_eq_true hsame).symm
      rw [if_neg hid, hother]
      rfl

/-- The timeline of a deployment of a dataset. -/
theorem timeline_dataset (h : Idle base) (id : Uuid) :
    (dataset base actorId jobs samples).timeline id =
      ((place base.db.deployments.next jobs id).map Job.story).getD [] := by
  have hids : ∀ d ∈ timelines base.db.deployments.next jobs, ∀ n m,
      (d.1 n).deploymentId = (d.1 m).deploymentId ∧
        (d.1 n).withoutIds = (d.1 m).withoutIds := by
    generalize base.db.deployments.next = first
    intro d hd n m
    induction jobs generalizing first with
    | nil => exact absurd hd List.not_mem_nil
    | cons job jobs ih =>
      rcases List.mem_append.mp hd with hd | hd
      · obtain ⟨step, -, rfl⟩ := List.mem_map.mp hd
        exact ⟨rfl, rfl⟩
      · exact ih _ hd
  rw [SampleStore.timeline, dataset, Table.map_select_insertAll, ← filter_timelines, Table.select,
    h.deploymentEvents]
  · rfl
  · intro d hd n m
    rw [(hids d hd n m).1]
  · exact fun d hd n m => (hids d hd n m).2

/-- A column of the metrics of a dataset, other than the id. -/
theorem map_metrics_dataset {β : Type} (h : Idle base) {f : Metric → β}
    (hf : ∀ m id, f { m with id } = f m) :
    (dataset base actorId jobs samples).metrics.rows.map f =
      samples.map fun o => f ((o.draft base.db.deployments.next jobs).1 0) := by
  rw [dataset, Table.map_rows_insertAll, h.metrics, List.map_map]
  · rfl
  · intro d hd n m
    obtain ⟨o, -, rfl⟩ := List.mem_map.mp hd
    exact (hf _ n).symm.trans (hf ((o.draft base.db.deployments.next jobs).1 m) n)

/-- The same jobs and samples in another order make the same dataset up to ids. -/
theorem renamed_dataset (h : Idle base) (hjobs : jobs.Nodup) (hperm : jobs.Perm jobs')
    (hsamples : samples.Perm samples') (hlinked : ∀ o ∈ samples, o.job ∈ jobs) :
    (dataset base actorId (jobs ++ failed) samples).Renamed
      (renamePerm base.db.deployments.next hjobs hperm)
      (dataset base actorId (jobs' ++ failed) samples') := by
  -- The deployment of a job keeps it under its new id.
  have hplace : ∀ id, place base.db.deployments.next (jobs' ++ failed)
      (renamePerm base.db.deployments.next hjobs hperm id) =
        place base.db.deployments.next (jobs ++ failed) id := place_rename hperm failed
  refine ⟨rfl, rfl, rfl, ?_, fun id => ?_, ?_⟩
  · refine (List.perm_ext_iff_of_nodup ?_ (Table.nodup_rows _)).mpr fun d => ?_
    · refine (Table.nodup_rows _).map_on fun d hd e he hsame => ?_
      have hid : d.id = e.id := Equiv.injective _ (congrArg Deployment.id hsame)
      exact Table.eq_of_key_eq _ hd he hid
    · rw [List.mem_map, Table.mem_rows, mem_deployments_dataset h]
      constructor
      · rintro ⟨e, he, rfl⟩
        obtain ⟨id, job, hjob, rfl⟩ := (mem_deployments_dataset h).mp he
        exact ⟨_, job, (hplace id).trans hjob, rfl⟩
      · rintro ⟨id, job, hjob, rfl⟩
        refine ⟨(job.draft actorId).1 ((renamePerm base.db.deployments.next hjobs hperm).symm id),
          (mem_deployments_dataset h).mpr ⟨_, job, ?_, rfl⟩, ?_⟩
        · rw [← hplace, Equiv.apply_symm_apply, hjob]
        · show (job.draft actorId).1 (renamePerm base.db.deployments.next hjobs hperm
            ((renamePerm base.db.deployments.next hjobs hperm).symm id)) = _
          rw [Equiv.apply_symm_apply]
  · rw [timeline_dataset h, timeline_dataset h, hplace]
  · rw [map_metrics_dataset h fun _ _ => rfl, map_metrics_dataset h fun _ _ => rfl]
    refine .trans (.of_eq (List.map_congr_left fun o ho => ?_)) (hsamples.map _)
    -- The deployment of a sample is that of its job.
    have hjob := hlinked o ho
    have hrenamed : renamePerm base.db.deployments.next hjobs hperm
        (base.db.deployments.next + jobs.idxOf o.job) =
          base.db.deployments.next + jobs'.idxOf o.job := by
      show rename _ _ _ _ = _
      rw [rename, place_idxOf hjob]
    rw [Sample.draft_of_longer (List.prefix_append jobs failed) hjob,
      Sample.draft_of_longer (List.prefix_append jobs' failed) (hperm.mem_iff.mp hjob)]
    simp only [Sample.draft, newMetric, metricRow, Metric.renamed, Metric.withoutId,
      Option.map_some, hrenamed]

end

end Seeding

end MlopsPlatform
