import MlopsPlatform.Queue.Attempts
import MlopsPlatform.Queue.Bookkeeping

/-!
# The newest event of a deployment

Requests, retries, rollbacks, the reaper and the later commits of `process_deployment` write a
status and its event in one commit (`UnitOfWork.Tells`). `claim_one` does not: it commits VALIDATING
and no event, and the event of the claim comes with the worker's next commit. A worker that dies in
between leaves a VALIDATING row whose newest event says REQUESTED, until the reaper takes the job.
So the newest event of a deployment has the status of its row exactly when every claim of it has
been followed by another commit for it (`newestEvent_iff_of_trace`).
-/

namespace MlopsPlatform

open Transition

variable {lower : String → String}

/-- The newest event of a deployment. -/
def Db.newestEvent (db : Db) (id : Uuid) : Option DeploymentEvent :=
  db.deploymentEvents.last? fun e => e.deploymentId = id

/-- The status that the timeline of a deployment tells. -/
def Db.toldStatus (db : Db) (id : Uuid) : Option DeploymentStatus :=
  (db.newestEvent id).map DeploymentEvent.status

/-- The step is a further commit for a deployment, and not a claim: of a retry, a rollback or the
reaper that assigns to its row, or of the worker that has claimed it. -/
def goesOn (lower : String → String) (id : Uuid) (x : State × (ℕ × Action)) : Bool :=
  !x.2.2.isClaim && (written lower x.1 x.2).any fun y =>
    (y.2.dirtyFor id).isSome ||
      (x.1.locals x.2.1).claim?.any fun claim => claim.deploymentId = id

/-! ## What a commit tells -/

/-- Events of other deployments leave the newest event of a deployment as it is. -/
theorem newestEvent_update {db : Db} {dirty : List DirtyDeployment}
    {events : List (Table.Draft DeploymentEvent.id)} {id : Uuid}
    (h : ∀ x ∈ events, ∀ n, (x.1 n).deploymentId ≠ id) :
    (db.write (.updateDeployments dirty events)).newestEvent id = db.newestEvent id := by
  apply Table.last?_insertAll
  intro x hx n
  exact decide_eq_false (h x hx n)

/-- If all events that are recorded for a deployment have one status, and there is one, then its
timeline tells that status. -/
theorem toldStatus_update {db : Db} {dirty : List DirtyDeployment}
    {events : List (Table.Draft DeploymentEvent.id)} {x : Table.Draft DeploymentEvent.id}
    {id : Uuid} {status : DeploymentStatus} (hx : x ∈ events) (hid : ∀ n, (x.1 n).deploymentId = id)
    (h : ∀ y ∈ events, ∀ n, (y.1 n).deploymentId = id → (y.1 n).status = status) :
    (db.write (.updateDeployments dirty events)).toldStatus id = some status := by
  obtain ⟨y, hy, n, hp, hlast⟩ := Table.last?_insertAll_of_mem (t := db.deploymentEvents)
    (p := fun e => decide (e.deploymentId = id)) hx fun n => decide_eq_true (hid n)
  have hnewest : (db.write (.updateDeployments dirty events)).newestEvent id = some (y.1 n) := hlast
  rw [Db.toldStatus, hnewest, Option.map_some, h y hy n (of_decide_eq_true hp)]

/-- A unit of work tells what it does to a deployment: it assigns to the row and its timeline tells
the status that the row is left in, or it does not touch row and timeline. -/
def UnitOfWork.Tells (u : UnitOfWork) (db : Db) (d : Deployment) : Prop :=
  ((u.dirtyFor d.id).isSome = true ∧
      (db.write u).toldStatus d.id = some (u.onDeployment d).status) ∨
    (u.dirtyFor d.id = none ∧ (db.write u).newestEvent d.id = db.newestEvent d.id)

/-- An update of one row with one event tells what it does. -/
theorem tells_single {db : Db} {e assigned d : Deployment} {name : String}
    {message actor : Option String} (he : e ∈ db.deployments) (hd : d ∈ db.deployments)
    (hid : assigned.id = e.id) (hflush : e.flush assigned e = assigned) :
    (UnitOfWork.updateDeployments [⟨e, assigned⟩] [recordEvent assigned name message actor]).Tells
      db d := by
  unfold UnitOfWork.Tells
  rw [UnitOfWork.dirtyFor_single]
  by_cases heq : e.id = d.id
  · obtain rfl := db.deployments.eq_of_key_eq he hd heq
    refine Or.inl ⟨by simp, ?_⟩
    rw [onDeployment_loaded hflush]
    apply toldStatus_update (List.mem_singleton_self _) (fun _ => hid)
    intro y hy n _
    rw [List.mem_singleton.mp hy]
    rfl
  · refine Or.inr ⟨by simp [heq], newestEvent_update ?_⟩
    intro x hx n hxd
    obtain rfl := List.mem_singleton.mp hx
    exact heq (hid.symm.trans hxd)

/-- A call tells what it does. -/
theorem Call.Returns.tells {db : Db} {call : Call} {u : UnitOfWork} (h : call.Returns lower db u)
    {d : Deployment} (hd : d ∈ db.deployments) : u.Tells db d := by
  rcases h.deploymentWrite with hleaves | hwrite
  · obtain ⟨-, hevents, hdirty⟩ := u.write_of_not_writesDeployments hleaves db
    refine Or.inr ⟨hdirty d.id, ?_⟩
    rw [Db.newestEvent, hevents]
    rfl
  · cases hwrite with
    | @request _ _ _ deployment event hr hrow =>
      refine Or.inr ⟨rfl, ?_⟩
      -- The event is that of the row that is inserted, which has a new id.
      have hinsert : (db.write (.insertDeployment deployment event)).newestEvent d.id =
          (db.deploymentEvents.insertAll [event db.deployments.next]).last? fun e =>
            decide (e.deploymentId = d.id) := rfl
      rw [hinsert]
      apply Table.last?_insertAll
      intro x hx n
      rw [List.mem_singleton.mp hx, hrow]
      refine decide_eq_false fun hsame => ?_
      have hlt := Table.key_lt_next hd
      have hid : d.id = db.deployments.next := hsame.symm.trans (deployment.2 _)
      rw [hid] at hlt
      exact absurd hlt (Nat.lt_irrefl _)
    | update hupdate hevent =>
      obtain ⟨hloaded, -, hid⟩ := hupdate.loaded
      refine tells_single hloaded hd hid ?_
      cases hupdate with
      | retry actorId he hs => exact Deployment.flush_self rfl
      | rollback actorId he hs ht => exact Deployment.flush_self rfl

/-- The event that the reaper records for a row has the status that it assigns. -/
theorem reapEvent_status (d : Deployment) (n : Uuid) :
    ((reapEvent d).1 n).deploymentId = d.id ∧ ((reapEvent d).1 n).status = (reaped d).status := by
  have hid : (reaped d).id = d.id := by
    unfold reaped
    split_ifs <;> rfl
  unfold reapEvent
  split_ifs
  · exact ⟨hid, rfl⟩
  · exact ⟨hid, rfl⟩

/-- A pass of the reaper tells what it does. -/
theorem tells_reap {db : Db} {now timeoutSeconds : Time} {u : UnitOfWork}
    (h : reapStuck db now timeoutSeconds = some u) {d : Deployment} (hd : d ∈ db.deployments) :
    u.Tells db d := by
  by_cases hstuck : isStuck (now - timeoutSeconds) d = true
  · have hrow := onDeployment_reapStuck h hd
    rw [if_pos hstuck] at hrow
    obtain ⟨v, hv, hdirty⟩ := reapStuck_of_isStuck hd hstuck
    obtain rfl := Option.some.inj (h.symm.trans hv)
    obtain ⟨stuck, hmem, rfl⟩ := reapStuck_eq_some h
    refine Or.inl ⟨by rw [hdirty]; rfl, ?_⟩
    rw [hrow]
    refine toldStatus_update (List.mem_map_of_mem ((hmem d).mpr ⟨hd, hstuck⟩))
      (fun n => (reapEvent_status d n).1) ?_
    intro y hy n hyd
    obtain ⟨e, he, rfl⟩ := List.mem_map.mp hy
    -- The event is that of this row.
    have hid : e.id = d.id := (reapEvent_status e n).1.symm.trans hyd
    obtain rfl := db.deployments.eq_of_key_eq ((hmem e).mp he).1 hd hid
    exact (reapEvent_status e n).2
  · obtain ⟨stuck, hmem, rfl⟩ := reapStuck_eq_some h
    have hother : ∀ e ∈ stuck, e.id ≠ d.id := by
      intro e he hid
      obtain ⟨hstored, hstuck'⟩ := (hmem e).mp he
      obtain rfl := db.deployments.eq_of_key_eq hstored hd hid
      exact hstuck hstuck'
    refine Or.inr ⟨?_, newestEvent_update ?_⟩
    · rw [UnitOfWork.dirtyFor, List.find?_eq_none]
      intro x hx
      obtain ⟨e, he, rfl⟩ := List.mem_map.mp hx
      simpa using hother e he
    · intro x hx n hxd
      obtain ⟨e, he, rfl⟩ := List.mem_map.mp hx
      exact hother e he ((reapEvent_status e n).1.symm.trans hxd)

/-! ## The first commit of a worker -/

/-- What a worker holds after its claim is the validation event for the row that it has claimed and
left VALIDATING. -/
def State.HoldsFirst (s : State) : Prop :=
  ∀ i claim u next, s.locals i = .workerCommit claim u next →
    ∃ d, u = startValidation d ∧ d.id = claim.deploymentId ∧ d.status = .validating

/-- In a run of atomic steps, workers hold the validation events for the rows they have claimed. -/
theorem holdsFirst_reach {s₀ s : State} (hidle : ∀ i, s₀.locals i = .idle)
    (h : Reach (step lower) AtomicSteps s₀ s) : s.HoldsFirst := by
  refine h.invariant (I := State.HoldsFirst) ?_ ?_
  · intro i claim u next hi
    rw [hidle i] at hi
    exact absurd hi (by simp)
  rintro s ⟨i, a⟩ s' - hfirst hok hstep j claim v next hj
  obtain ⟨db, l, hact, rfl⟩ := Config.step_eq_some.mp hstep
  dsimp only at hact
  rcases s.locals_update db i j l with ⟨-, hl⟩ | ⟨-, hl⟩
  · rw [hl] at hj
    subst hj
    have hatomic : (s.locals i).atomicAction (fun _ => false) s.shared a = true := hok
    -- A session comes to hold such a commit by a claim, or by reads that are no atomic step.
    rcases act_planned hact with ⟨-, hplan⟩ | ⟨w, u, -, hplan, -, -⟩
    · generalize s.locals i = l₀ at hplan hatomic
      cases hplan with
      | load hu => exact absurd hatomic Bool.false_ne_true
    · generalize s.locals i = l₀ at hplan
      generalize hl₀ : Session.workerCommit claim v next = l at hplan
      cases hplan with
      | @claim workerId now locked x hx =>
        obtain ⟨rfl, rfl, -⟩ := Session.workerCommit.inj hl₀
        obtain ⟨-, -, -, -, hassigned⟩ := claimOne_eq_some.mp hx
        exact ⟨x.assigned, rfl, by rw [hassigned]; rfl, by rw [hassigned]⟩
      | @work claim' phase u next' hu =>
        cases next' <;> exact absurd hl₀ (by simp [Session.afterCommit])
      | @commitWork claim' u next' =>
        cases next' <;> exact absurd hl₀ (by simp [Session.afterCommit])
      | call hu => exact absurd hl₀ (by simp)
      | reap hu => exact absurd hl₀ (by simp)
      | commitCall => exact absurd hl₀ (by simp)
      | commitReap => exact absurd hl₀ (by simp)
  · rw [hl] at hj
    exact hfirst j claim v next hj

/-! ## The newest event -/

/-- What a commit that is not a claim does to a stored deployment. It is one for it, and the
timeline tells the status that the row is left in, or it leaves row and timeline as they are. -/
def Told (lower : String → String) (s : State) (p : ℕ × Action) (u : UnitOfWork) (d : Deployment) :
    Prop :=
  (goesOn lower d.id (s, p) = true ∧
      (s.shared.write u).toldStatus d.id = some (u.onDeployment d).status) ∨
    (goesOn lower d.id (s, p) = false ∧ u.onDeployment d = d ∧
      (s.shared.write u).newestEvent d.id = s.shared.newestEvent d.id)

/-- A unit of work that tells what it does, and assigns to the row of the session's own claim. -/
theorem Told.of_tells {s : State} {p : ℕ × Action} {u : UnitOfWork} {d : Deployment} {own : Bool}
    (hgo : goesOn lower d.id (s, p) = ((u.dirtyFor d.id).isSome || own)) (h : u.Tells s.shared d)
    (hown : own = true → (u.dirtyFor d.id).isSome = true) : Told lower s p u d := by
  unfold Told
  rcases h with ⟨hsome, htold⟩ | ⟨hnone, hsame⟩
  · exact Or.inl ⟨by rw [hgo, hsome, Bool.true_or], htold⟩
  · refine Or.inr ⟨?_, UnitOfWork.onDeployment_of_dirtyFor hnone, hsame⟩
    rw [hnone, Option.isSome_none] at hgo hown
    rw [hgo, Bool.false_or]
    exact Bool.eq_false_iff.mpr fun htrue => Bool.false_ne_true (hown htrue)

/-- The validation event of a claimed row tells that it is VALIDATING, which it is while its worker
holds the claim. -/
theorem told_startValidation {s : State} {p : ℕ × Action} {claim : Claim} {e d : Deployment}
    (hgo : goesOn lower d.id (s, p) = decide (claim.deploymentId = d.id))
    (hid : e.id = claim.deploymentId) (hs : e.status = .validating)
    (hrow : claim.deploymentId = d.id → d.status = .validating) :
    Told lower s p (startValidation e) d := by
  unfold Told
  by_cases heq : claim.deploymentId = d.id
  · refine Or.inl ⟨by rw [hgo, decide_eq_true heq], ?_⟩
    have hvalidating : ((startValidation e).onDeployment d).status = .validating := hrow heq
    rw [hvalidating]
    apply toldStatus_update (List.mem_singleton_self _) (fun _ => hid.trans heq)
    intro y hy n _
    rw [List.mem_singleton.mp hy]
    exact hs
  · refine Or.inr ⟨by rw [hgo, decide_eq_false heq], rfl, newestEvent_update ?_⟩
    intro x hx n hxd
    obtain rfl := List.mem_singleton.mp hx
    exact heq (hid.symm.trans hxd)

/-- A commit that is not a claim tells of every stored deployment, if it is one for it. -/
theorem told_step {s : State} {i : ℕ} {a : Action} {w : Writer} {u : UnitOfWork} {l : Session}
    (hheld : s.HoldsValidations) (hfirst : s.HoldsFirst) (htrack : s.OnTrack)
    (hok : AtomicSteps s (i, a)) (hwritten : written lower s (i, a) = some (w, u))
    (hplan : Planned lower s.shared (s.locals i) a (.commit w u l)) (hclaim : a.isClaim = false)
    {d : Deployment} (hd : d ∈ s.shared.deployments) : Told lower s (i, a) u d := by
  have hgo : goesOn lower d.id (s, (i, a)) = ((u.dirtyFor d.id).isSome ||
      (s.locals i).claim?.any fun claim => claim.deploymentId = d.id) := by
    simp only [goesOn, hwritten, hclaim, Bool.not_false, Bool.true_and, Option.any_some]
  have hact : (s.locals i).atomicAction (fun _ => false) s.shared a = true := hok
  have hheld_i := hheld i w u
  have hfirst_i := hfirst i
  have hrow := htrack.row i
  generalize s.locals i = l₀ at hplan hact hheld_i hfirst_i hrow hgo
  cases hplan with
  | call hu =>
    exact Told.of_tells hgo ((Call.stage_eq_ok hu).tells hd) fun hany =>
      absurd hany (by simp [Session.claim?])
  | reap hu =>
    exact Told.of_tells hgo (tells_reap hu hd) fun hany => absurd hany (by simp [Session.claim?])
  | commitCall => exact absurd (hheld_i rfl).1 (by simp)
  | commitReap => exact absurd (hheld_i rfl).1 (by simp)
  | claim hx => exact absurd hclaim (by simp [Action.isClaim])
  | @work claim phase u next hu =>
    obtain ⟨e, assigned, event, message, he, hwrite, rfl⟩ := processDeployment_eq_some hu
    obtain ⟨hmem, hid⟩ := Table.get?_eq_some.mp he
    refine Told.of_tells hgo (tells_single hmem hd ?_ hwrite.flush_self) ?_
    · cases hwrite <;> rfl
    · intro hany
      -- The row of the claim is the one that the worker assigns to.
      simp only [Session.claim?, Option.any_some, decide_eq_true_eq] at hany
      rw [UnitOfWork.dirtyFor_single, if_pos (hid.trans hany)]
      rfl
  | @commitWork claim u next =>
    obtain ⟨e, rfl, hid, hs⟩ := hfirst_i claim u next rfl
    simp only [Session.claim?, Option.any_some] at hgo
    apply told_startValidation hgo hid hs
    intro heq
    -- The worker still holds its claim, so the row is as the claim has left it.
    obtain ⟨d', hd', -, hstatus⟩ := hrow claim rfl
    have hcarries : d'.carries claim = true := by
      simp only [Session.atomicAction, Session.holdsClaim, hd', Option.any_some] at hact
      exact hact
    rw [heq] at hd'
    obtain rfl := Option.some.inj (hd'.symm.trans (Table.get?_key hd))
    exact hstatus hcarries

/-- What `claim_one` commits. -/
theorem Planned.of_isClaim {db : Db} {l l' : Session} {a : Action} {w : Writer} {u : UnitOfWork}
    (h : Planned lower db l a (.commit w u l')) (hclaim : a.isClaim = true) :
    ∃ workerId now locked x, claimOne db workerId now locked = some x ∧
      u = .updateDeployments [x] [] := by
  cases h with
  | claim hx => exact ⟨_, _, _, _, hx, rfl⟩
  | _ => exact absurd hclaim (by simp [Action.isClaim])

/-- The newest event of a row that a request inserts is the one that the request records. -/
theorem told_insert {db : Db} {w : Writer} {deployment : Table.Draft Deployment.id}
    {event : Uuid → Table.Draft DeploymentEvent.id}
    (h : AtomicWrite lower db w (.insertDeployment deployment event)) :
    (db.write (.insertDeployment deployment event)).toldStatus
        (deployment.1 db.deployments.next).id =
      some (deployment.1 db.deployments.next).status := by
  generalize hu : UnitOfWork.insertDeployment deployment event = u at h
  cases h with
  | @call call u hc =>
    obtain rfl := hu
    obtain ⟨actorId, correlationId, data, -, hr⟩ := hc.of_insertDeployment
    obtain ⟨v, dep, ev, -, -, -, heq, hrow⟩ := requestDeployment_eq_staged hr
    obtain ⟨rfl, rfl⟩ := UnitOfWork.insertDeployment.inj heq
    obtain ⟨-, hevent⟩ := hrow db.deployments.next
    obtain ⟨y, hy, n, -, hlast⟩ := Table.last?_insertAll_of_mem (t := db.deploymentEvents)
      (d := event db.deployments.next) (List.mem_singleton_self _)
      (p := fun e => decide (e.deploymentId = (deployment.1 db.deployments.next).id))
      (by rw [hevent]; exact fun _ => decide_eq_true rfl)
    obtain rfl := List.mem_singleton.mp hy
    have hnewest : (db.write (.insertDeployment deployment event)).newestEvent
        (deployment.1 db.deployments.next).id = some ((event db.deployments.next).1 n) := hlast
    rw [Db.toldStatus, hnewest, hevent]
    rfl
  | claim hx => exact absurd hu (by simp)
  | validation => exact absurd hu (by simp [startValidation])
  | segment hmem hrun hwrite => exact absurd hu (by simp)
  | reap hr =>
    obtain ⟨stuck, -, rfl⟩ := reapStuck_eq_some hr
    exact absurd hu (by simp)

/-- Where the newest event of a row is, in a run with these steps: it has the status of the row, and
every claim has been followed, or the row has been claimed and its newest event says REQUESTED. A
deployment that does not exist has not been claimed. -/
def ToldBy (lower : String → String) (steps : List (State × (ℕ × Action))) (db : Db) (id : Uuid) :
    Prop :=
  match db.deployments.get? id with
  | some d =>
    (Followed (claims lower id) (goesOn lower id) steps ∧ db.toldStatus id = some d.status) ∨
      (¬Followed (claims lower id) (goesOn lower id) steps ∧
        db.toldStatus id = some .requested ∧ d.status = .validating)
  | none => Followed (claims lower id) (goesOn lower id) steps

/-- A step that is neither a claim nor a further commit for a row, and leaves row and timeline as
they are, leaves the newest event where it is. -/
theorem ToldBy.other {steps : List (State × (ℕ × Action))} {x : State × (ℕ × Action)} {db db' : Db}
    {d : Deployment} (h : ToldBy lower steps db d.id) (hd : db.deployments.get? d.id = some d)
    (hd' : db'.deployments.get? d.id = some d) (hclaims : claims lower d.id x = false)
    (hgo : goesOn lower d.id x = false) (hnewest : db'.newestEvent d.id = db.newestEvent d.id) :
    ToldBy lower (steps ++ [x]) db' d.id := by
  unfold ToldBy at h ⊢
  simp only [hd] at h
  simp only [hd', followed_snoc_iff hclaims hgo, Db.toldStatus, hnewest]
  exact h

/-- A deployment that is not stored is not claimed, and its first event is that of the request. -/
theorem ToldBy.absent {steps : List (State × (ℕ × Action))} {s : State} {p : ℕ × Action}
    {w : Writer} {u : UnitOfWork} {id : Uuid} (h : ToldBy lower steps s.shared id)
    (hnone : s.shared.deployments.get? id = none) (hwritten : written lower s p = some (w, u))
    (hatomic : AtomicWrite lower s.shared w u) :
    ToldBy lower (steps ++ [(s, p)]) (s.shared.write u) id := by
  unfold ToldBy at h ⊢
  simp only [hnone] at h
  have hnot : u.dirtyFor id = none := by
    cases hx : u.dirtyFor id with
    | none => rfl
    | some x =>
      obtain ⟨hmem, hid⟩ := hatomic.dirtyFor_mem hx
      exact absurd hid (Table.get?_eq_none.mp hnone _ hmem)
  have hclaims : claims lower id (s, p) = false := by simp [claims, hwritten, hnot]
  have hfollowed : Followed (claims lower id) (goesOn lower id) (steps ++ [(s, p)]) := by
    cases hgo : goesOn lower id (s, p) with
    | true => exact followed_snoc hclaims hgo
    | false => exact (followed_snoc_iff hclaims hgo).mpr h
  cases hd : (s.shared.write u).deployments.get? id with
  | none => exact hfollowed
  | some d =>
    refine Or.inl ⟨hfollowed, ?_⟩
    obtain ⟨deployment, event, rfl, rfl⟩ := hatomic.inserted hnone hd
    obtain ⟨-, rfl⟩ := Table.get?_eq_some.mp hd
    exact told_insert hatomic

/-- A claim of a row leaves the newest event behind: the row was REQUESTED, and its timeline goes on
saying so. -/
theorem ToldBy.claim {steps : List (State × (ℕ × Action))} {s : State} {i : ℕ} {a : Action}
    {w : Writer} {u : UnitOfWork} {l : Session} {d : Deployment}
    (h : ToldBy lower steps s.shared d.id) (hd : d ∈ s.shared.deployments)
    (hwritten : written lower s (i, a) = some (w, u))
    (hplan : Planned lower s.shared (s.locals i) a (.commit w u l)) (hclaim : a.isClaim = true) :
    ToldBy lower (steps ++ [(s, (i, a))]) (s.shared.write u) d.id := by
  have hstored := Table.get?_key hd
  have hgo : goesOn lower d.id (s, (i, a)) = false := by simp [goesOn, hclaim]
  have hclaims : claims lower d.id (s, (i, a)) = (u.dirtyFor d.id).isSome := by
    simp [claims, hclaim, hwritten]
  obtain ⟨workerId, now, locked, x, hx, rfl⟩ := hplan.of_isClaim hclaim
  have hrow := Db.get?_deployments_write (.updateDeployments [x] []) hstored
  have hnewest : (s.shared.write (.updateDeployments [x] [])).newestEvent d.id =
      s.shared.newestEvent d.id := newestEvent_update fun y hy => absurd hy List.not_mem_nil
  by_cases hid : x.loaded.id = d.id
  · obtain ⟨hloaded, hrequested, -, -, hassigned⟩ := claimOne_eq_some.mp hx
    obtain rfl := s.shared.deployments.eq_of_key_eq hloaded hd hid
    rw [UnitOfWork.dirtyFor_single, if_pos rfl] at hclaims
    unfold ToldBy at h ⊢
    simp only [hstored] at h
    simp only [hrow, onDeployment_claimed hx, Db.toldStatus, hnewest]
    refine Or.inr ⟨not_followed_snoc hclaims, ?_, by rw [hassigned]⟩
    rcases h with ⟨-, htold⟩ | ⟨-, -, hvalidating⟩
    · rw [← hrequested]
      exact htold
    · rw [hrequested] at hvalidating
      exact absurd hvalidating (by simp)
  · have hnone : (UnitOfWork.updateDeployments [x] []).dirtyFor d.id = none := by
      rw [UnitOfWork.dirtyFor_single, if_neg hid]
    rw [hnone] at hclaims
    rw [UnitOfWork.onDeployment_of_dirtyFor hnone] at hrow
    exact h.other hstored hrow hclaims hgo hnewest

/-- In every run of atomic steps the newest event of every row is the one of the last commit that
was not a claim. -/
theorem toldBy_of_trace {steps : List (State × (ℕ × Action))} {s : State}
    (h : Trace (step lower) AtomicSteps .init steps s) (id : Uuid) :
    ToldBy lower steps s.shared id := by
  induction h with
  | nil => exact followed_nil
  | @snoc steps s s' p htrace hok hstep ih =>
    obtain ⟨i, a⟩ := p
    have hreach := htrace.reach
    have hheld := holdsValidations_of_reach (fun _ => rfl) hreach
    rcases step_cases hstep with ⟨l, hwritten, -, rfl⟩ | ⟨w, u, l, hwritten, hplan, rfl⟩
    · -- Nothing is written.
      have hclaims : claims lower id (s, (i, a)) = false := by simp [claims, hwritten]
      have hgo : goesOn lower id (s, (i, a)) = false := by simp [goesOn, hwritten]
      unfold ToldBy at ih ⊢
      simpa only [followed_snoc_iff hclaims hgo] using ih
    · have hatomic := hheld.committed hok (written_eq_some.mp hwritten).1
      cases hd : s.shared.deployments.get? id with
      | none => exact ih.absent hd hwritten hatomic
      | some d =>
        obtain ⟨hmem, rfl⟩ := Table.get?_eq_some.mp hd
        cases hclaim : a.isClaim with
        | true => exact ih.claim hmem hwritten hplan hclaim
        | false =>
          have hclaims : claims lower d.id (s, (i, a)) = false := by simp [claims, hclaim]
          have hrow := Db.get?_deployments_write u hd
          rcases told_step hheld (holdsFirst_reach (fun _ => rfl) hreach)
            (onTrack_reach (fun _ => rfl) hreach) hok hwritten hplan hclaim hmem with
            ⟨hgo, htold⟩ | ⟨hgo, hsame, hnewest⟩
          · simp only [ToldBy, hrow]
            exact Or.inl ⟨followed_snoc hclaims hgo, htold⟩
          · rw [hsame] at hrow
            exact ih.other hd hrow hclaims hgo hnewest

/-- Events and status. In every run of atomic steps, with workers that crash at any point, the
newest event of a deployment has the status of its row exactly when every claim of the deployment
has been followed by a further commit for it. -/
theorem newestEvent_iff_of_trace {steps : List (State × (ℕ × Action))} {s : State}
    (h : Trace (step lower) AtomicSteps .init steps s) {d : Deployment}
    (hd : d ∈ s.shared.deployments) :
    s.shared.toldStatus d.id = some d.status ↔
      Followed (claims lower d.id) (goesOn lower d.id) steps := by
  have htold := toldBy_of_trace h d.id
  simp only [ToldBy, Table.get?_key hd] at htold
  rcases htold with ⟨hfollowed, htold⟩ | ⟨hnot, htold, hvalidating⟩
  · exact ⟨fun _ => hfollowed, fun _ => htold⟩
  · refine ⟨fun hsame => ?_, fun hfollowed => absurd hfollowed hnot⟩
    rw [htold, hvalidating] at hsame
    exact absurd hsame (by simp)

/-- A job is requested, a worker claims it and crashes before its next commit. -/
def claimedRun : List (ℕ × Action) :=
  registration ++ [(0, request 1 .development false), (1, .claim "a" 10 []), (1, .crash)]

/-- The newest event does not always have the status of the row: after `claimedRun` the row is
VALIDATING, and its timeline says REQUESTED. -/
theorem not_newestEvent_of_reach :
    ¬∀ s, Reach (step id) AtomicSteps .init s → ∀ d ∈ s.shared.deployments,
      s.shared.toldStatus d.id = some d.status := by
  intro h
  have hreach := exec_reach (step id) AtomicSteps .init claimedRun
  have hall : ∀ d ∈ (exec (step id) AtomicSteps .init claimedRun).shared.deployments.rows,
      (exec (step id) AtomicSteps .init claimedRun).shared.toldStatus d.id = some d.status :=
    fun d hd => h _ hreach d hd
  revert hall
  decide

/-- The reaper takes the job of `claimedRun`, and the timeline tells its status again. -/
theorem newestEvent_iff_of_trace_claimedRun :
    ∃ steps s, Trace (step id) AtomicSteps .init steps s ∧
      (s.shared.deployments.rows.map fun d => (d.status, s.shared.toldStatus d.id)) =
        [(.requested, some .requested)] ∧
      ∀ d ∈ s.shared.deployments, (s.shared.toldStatus d.id = some d.status ↔
        Followed (claims id d.id) (goesOn id d.id) steps) := by
  have htrace := exec_trace (step id) AtomicSteps .init (claimedRun ++ [(2, .reap 200 120)])
  exact ⟨_, _, htrace, by decide, fun d hd => newestEvent_iff_of_trace htrace hd⟩

end MlopsPlatform
