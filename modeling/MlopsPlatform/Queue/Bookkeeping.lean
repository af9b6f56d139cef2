import MlopsPlatform.Queue.Exclusivity
import MlopsPlatform.Queue.Fencing

/-!
# The columns of a deployment agree with its status

Eight places in the services, the worker and the reaper assign to the columns of a deployment, and
each sets or clears only some of them. `Deployment.Booked` is what they keep together, and
`statusMoves` lists the changes of status that they make. Which change a worker makes depends on
where it is in `process_deployment`, and the row does not say where that is. So the moves also rest
on the claims: no two sessions have claimed a row with the same `attempts`, and as long as the row
carries a session's claim it has the status that the session left it in (`State.OnTrack`).
-/

namespace MlopsPlatform

open Transition

variable {lower : String → String}

/-! ## Where the holder of a claim is -/

/-- The status of a job at a phase of `process_deployment`. -/
def Phase.status : Phase → DeploymentStatus
  | check => .validating
  | rollout => .deploying

/-- The status in which a session that works on a job has left it. -/
def Session.leftIn : Session → DeploymentStatus
  | worker _ phase => phase.status
  | _ => .validating

/-- Sessions have claimed jobs at different times, and where a row still carries a claim it has the
status in which the session of the claim has left it. -/
structure State.OnTrack (s : State) : Prop where
  /-- The row has been claimed at least as often as at the time of the claim. -/
  row : ∀ i claim, (s.locals i).claim? = some claim →
    ∃ d, s.shared.deployments.get? claim.deploymentId = some d ∧ claim.attempts ≤ d.attempts ∧
      (d.carries claim = true → d.status = (s.locals i).leftIn)
  /-- The claims of a row differ in `attempts`. -/
  unique : ∀ i j claim claim', i ≠ j → (s.locals i).claim? = some claim →
    (s.locals j).claim? = some claim' → claim.deploymentId = claim'.deploymentId →
      claim.attempts ≠ claim'.attempts
  /-- What a worker holds is the first commit of `process_deployment`. -/
  first : ∀ i claim u next, s.locals i = .workerCommit claim u next →
    next = some .check ∧ ∃ d, u = startValidation d

/-- A step of one session keeps all sessions on track if it does so for the rows of the others, and
if its own claim, should it have one then, is on track and differs from theirs. -/
theorem State.OnTrack.update {s : State} (h : s.OnTrack) {i : ℕ} {db : Db} {l : Session}
    (hothers : ∀ j claim, j ≠ i → (s.locals j).claim? = some claim →
      ∃ d, db.deployments.get? claim.deploymentId = some d ∧ claim.attempts ≤ d.attempts ∧
        (d.carries claim = true → d.status = (s.locals j).leftIn))
    (hown : ∀ claim, l.claim? = some claim →
      (∃ d, db.deployments.get? claim.deploymentId = some d ∧ claim.attempts ≤ d.attempts ∧
        (d.carries claim = true → d.status = l.leftIn)) ∧
      ∀ j claim', j ≠ i → (s.locals j).claim? = some claim' →
        claim.deploymentId = claim'.deploymentId → claim.attempts ≠ claim'.attempts)
    (hfirst : ∀ claim u next, l = .workerCommit claim u next →
      next = some .check ∧ ∃ d, u = startValidation d) :
    State.OnTrack ⟨db, Function.update s.locals i l⟩ := by
  -- Session `i` is in `l` after the step, and the others are as before.
  have hat := fun j => s.locals_update db i j l
  refine ⟨fun j claim hj => ?_, fun j k claim claim' hjk hj hk hid => ?_,
    fun j claim u next hj => ?_⟩
  · -- `row`
    rcases hat j with ⟨-, hl⟩ | ⟨hne, hl⟩
    · rw [hl] at hj ⊢
      exact (hown claim hj).1
    · rw [hl] at hj ⊢
      exact hothers j claim hne hj
  · -- `unique`
    rcases hat j with ⟨rfl, hl⟩ | ⟨hne, hl⟩
    · rcases hat k with ⟨rfl, -⟩ | ⟨hne', hl'⟩
      · exact absurd rfl hjk
      · rw [hl] at hj
        rw [hl'] at hk
        exact (hown claim hj).2 k claim' hne' hk hid
    · rcases hat k with ⟨rfl, hl'⟩ | ⟨hne', hl'⟩
      · rw [hl] at hj
        rw [hl'] at hk
        exact ((hown claim' hk).2 j claim hne hj hid.symm).symm
      · rw [hl] at hj
        rw [hl'] at hk
        exact h.unique j k claim claim' hjk hj hk hid
  · -- `first`
    rcases hat j with ⟨-, hl⟩ | ⟨-, hl⟩
    · rw [hl] at hj
      exact hfirst claim u next hj
    · rw [hl] at hj
      exact h.first j claim u next hj

/-- A commit keeps a session on track if it leaves the row of its claim as it is, or takes the row
from it. -/
theorem onTrack_commit {db : Db} {u : UnitOfWork} {claim : Claim} {status : DeploymentStatus}
    (h : ∃ d, db.deployments.get? claim.deploymentId = some d ∧ claim.attempts ≤ d.attempts ∧
      (d.carries claim = true → d.status = status))
    (hkeep : ∀ d ∈ db.deployments, d.id = claim.deploymentId → claim.attempts ≤ d.attempts →
      u.onDeployment d = d ∨
        (d.attempts ≤ (u.onDeployment d).attempts ∧ (u.onDeployment d).carries claim = false)) :
    ∃ d, (db.write u).deployments.get? claim.deploymentId = some d ∧ claim.attempts ≤ d.attempts ∧
      (d.carries claim = true → d.status = status) := by
  obtain ⟨d, hd, hle, hstatus⟩ := h
  refine ⟨_, Db.get?_deployments_write u hd, ?_⟩
  obtain ⟨hmem, hid⟩ := Table.get?_eq_some.mp hd
  rcases hkeep d hmem hid hle with hsame | ⟨hup, hlost⟩
  · rw [hsame]
    exact ⟨hle, hstatus⟩
  · refine ⟨Nat.le_trans hle hup, fun hcarries => ?_⟩
    rw [hlost] at hcarries
    exact absurd hcarries Bool.false_ne_true

/-- A row that is not running carries no claim. -/
theorem Deployment.carries_of_not_running {d : Deployment} (h : d.running = false) (c : Claim) :
    d.carries c = false := by
  simp [carries, h]

/-- A row that has been claimed at another time does not carry a claim. -/
theorem Deployment.carries_of_attempts {d : Deployment} {c : Claim} (h : d.attempts ≠ c.attempts) :
    d.carries c = false := by
  simp [carries, h]

/-- The commit of an atomic step by a call or the reaper leaves a row as it is, or takes it from
the worker. -/
theorem RowStep.releases {db : Db} {w : Writer} {d d' : Deployment} (h : RowStep db w d d')
    (hw : w ≠ .worker) : d' = d ∨ (d'.attempts = d.attempts ∧ d'.running = false) := by
  cases h with
  | same => exact Or.inl rfl
  | claim workerId now hs => exact absurd rfl hw
  | work hrun hwrite => exact absurd rfl hw
  | reap hrun => exact Or.inr ⟨reaped_attempts d, reaped_running d⟩
  | retry actorId hs => exact Or.inr ⟨rfl, rfl⟩
  | rollback actorId hs ht => exact Or.inr ⟨rfl, rfl⟩

/-- A session that has no claim afterwards is on track if the step leaves the others so. -/
theorem State.OnTrack.release {s : State} (h : s.OnTrack) {i : ℕ} {db : Db}
    (hothers : ∀ j claim, j ≠ i → (s.locals j).claim? = some claim →
      ∃ d, db.deployments.get? claim.deploymentId = some d ∧ claim.attempts ≤ d.attempts ∧
        (d.carries claim = true → d.status = (s.locals j).leftIn)) :
    State.OnTrack ⟨db, Function.update s.locals i .idle⟩ := by
  refine h.update hothers (fun claim hl => ?_) fun claim u next hl => ?_
  · exact absurd hl (by simp [Session.claim?])
  · exact absurd hl (by simp)

/-- Calls and the reaper take rows from their workers. -/
theorem State.OnTrack.taken {s : State} (h : s.OnTrack) (i : ℕ) {w : Writer} {u : UnitOfWork}
    (hatomic : AtomicWrite lower s.shared w u) (hw : w ≠ .worker) :
    State.OnTrack ⟨s.shared.write u, Function.update s.locals i .idle⟩ := by
  refine h.release fun j claim _ hj => onTrack_commit (h.row j claim hj) ?_
  intro d hd _ _
  refine ((hatomic.rowStep hd).releases hw).imp_right ?_
  rintro ⟨hattempts, hrun⟩
  exact ⟨Nat.le_of_eq hattempts.symm, Deployment.carries_of_not_running hrun claim⟩

/-- A claim takes a row at a time at which no other session has claimed it. -/
theorem State.OnTrack.claim {s : State} (h : s.OnTrack) (i : ℕ) {workerId : String} {now : Time}
    {locked : List Uuid} {x : DirtyDeployment}
    (hx : claimOne s.shared workerId now locked = some x) :
    State.OnTrack ⟨s.shared.write (.updateDeployments [x] []), Function.update s.locals i
      (.workerCommit (.ofClaimed workerId x) (startValidation x.assigned) (some .check))⟩ := by
  obtain ⟨hmem, hrequested, -, -, hassigned⟩ := claimOne_eq_some.mp hx
  have hatomic : AtomicWrite id s.shared .worker (.updateDeployments [x] []) := .claim hx
  have hclaimed : (Claim.ofClaimed workerId x).attempts = x.loaded.attempts + 1 := by
    simp [Claim.ofClaimed, hassigned]
  refine h.update (fun j claim _ hj => onTrack_commit (h.row j claim hj) ?_) ?_ ?_
  · intro d hd _ hle
    generalize hd' : UnitOfWork.onDeployment (.updateDeployments [x] []) d = d'
    have hstep := hatomic.rowStep hd
    rw [hd'] at hstep
    cases hstep with
    | same => exact Or.inl rfl
    | claim workerId now hs =>
      -- The row has been claimed once more than the session knows.
      refine Or.inr ⟨Nat.le_succ _, Deployment.carries_of_attempts ?_⟩
      exact Nat.ne_of_gt (Nat.lt_succ_of_le hle)
    | work hrun hwrite =>
      rw [← hd']
      exact Or.inl (onDeployment_of_claimOne hx hd hrun).2
  · intro claim hl
    obtain rfl := Option.some.inj hl
    refine ⟨⟨_, get?_write_claimOne hx, Nat.le_refl _, fun _ => by rw [hassigned]; rfl⟩, ?_⟩
    intro j claim' _ hj hid
    -- Every earlier claim of the row has fewer attempts.
    obtain ⟨d', hd', hle, -⟩ := h.row j claim' hj
    rw [← hid] at hd'
    obtain rfl := Option.some.inj ((Table.get?_key hmem).symm.trans hd')
    rw [hclaimed]
    exact Nat.ne_of_gt (Nat.lt_succ_of_le hle)
  · intro claim u next hl
    injection hl with _ hu hnext
    exact ⟨hnext.symm, _, hu.symm⟩

/-- A worker leaves the row of its claim in the status of its next phase, and those of other claims
as they are. -/
theorem State.OnTrack.work {s : State} (h : s.OnTrack) {i : ℕ} {claim : Claim} {phase : Phase}
    {u : UnitOfWork} {next : Option Phase} (hi : (s.locals i).claim? = some claim)
    (hcarries : ∀ d, s.shared.deployments.get? claim.deploymentId = some d →
      d.carries claim = true)
    (hu : processDeployment s.shared claim.deploymentId phase = some (u, next)) :
    State.OnTrack ⟨s.shared.write u, Function.update s.locals i (.afterCommit claim next)⟩ := by
  obtain ⟨d, assigned, event, message, hd, hwrite, rfl⟩ := processDeployment_eq_some hu
  obtain ⟨hmem, hid⟩ := Table.get?_eq_some.mp hd
  have hattempts : d.attempts = claim.attempts := by
    have hcarried := hcarries d hd
    simp only [Deployment.carries, Bool.and_eq_true, decide_eq_true_eq] at hcarried
    exact hcarried.2
  refine h.update (fun j claim' hne hj => onTrack_commit (h.row j claim' hj) ?_) ?_ ?_
  · intro e he hide _
    rcases onDeployment_single hmem he with hsame | ⟨rfl, hflush⟩
    · exact Or.inl hsame
    · -- The other session has claimed the row at another time.
      have hother := h.unique i j claim claim' hne.symm hi hj (hid.symm.trans hide)
      rw [hflush, hwrite.flush_self]
      refine Or.inr ⟨Nat.le_of_eq hwrite.attempts.symm, Deployment.carries_of_attempts ?_⟩
      rw [hwrite.attempts, hattempts]
      exact hother
  · intro claim' hl
    cases hwrite with
    | deploy hv =>
      obtain rfl := Option.some.inj hl
      rw [← hid]
      refine ⟨⟨_, get?_write_single hmem (Deployment.flush_self rfl), ?_, fun _ => rfl⟩, ?_⟩
      · exact Nat.le_of_eq hattempts.symm
      · intro j claim'' hne hj hid'
        exact h.unique i j claim claim'' hne.symm hi hj (hid.symm.trans hid')
    | reject hv => exact absurd hl (by simp [Session.afterCommit, Session.claim?])
    | timeout hf => exact absurd hl (by simp [Session.afterCommit, Session.claim?])
    | complete hf => exact absurd hl (by simp [Session.afterCommit, Session.claim?])
  · intro claim' u next' hl
    cases next <;> exact absurd hl (by simp [Session.afterCommit])

/-- The first commit of `process_deployment` changes no row. -/
theorem State.OnTrack.validate {s : State} (h : s.OnTrack) {i : ℕ} {claim : Claim} {u : UnitOfWork}
    {next : Option Phase} (hi : s.locals i = .workerCommit claim u next) :
    State.OnTrack ⟨s.shared.write u, Function.update s.locals i (.afterCommit claim next)⟩ := by
  obtain ⟨rfl, d, rfl⟩ := h.first i claim u next hi
  have hclaim : (s.locals i).claim? = some claim := by
    rw [hi]
    rfl
  have hleft : (s.locals i).leftIn = .validating := by
    rw [hi]
    rfl
  have hsame : ∀ j claim, (s.locals j).claim? = some claim →
      ∃ e, (s.shared.write (startValidation d)).deployments.get? claim.deploymentId = some e ∧
        claim.attempts ≤ e.attempts ∧ (e.carries claim = true → e.status = (s.locals j).leftIn) :=
    fun j claim hj => onTrack_commit (h.row j claim hj) fun _ _ _ _ => Or.inl rfl
  refine h.update (fun j claim' _ hj => hsame j claim' hj) (fun claim' hl => ?_)
    fun claim' u next' hl => ?_
  · obtain rfl := Option.some.inj hl
    have hown := hsame i claim hclaim
    rw [hleft] at hown
    exact ⟨hown, fun j claim' hne hj hid => h.unique i j claim claim' hne.symm hclaim hj hid⟩
  · exact absurd hl (by simp [Session.afterCommit])

/-- The claims of every session stay on track in a run of atomic steps. -/
theorem onTrack_reach {s₀ s : State} (hidle : ∀ i, s₀.locals i = .idle)
    (h : Reach (step lower) AtomicSteps s₀ s) : s.OnTrack := by
  refine h.invariant ⟨fun i claim hi => ?_, fun i j claim claim' _ hi => ?_,
    fun i claim u next hi => ?_⟩ ?_
  · rw [hidle i] at hi
    exact absurd hi (by simp [Session.claim?])
  · rw [hidle i] at hi
    exact absurd hi (by simp [Session.claim?])
  · rw [hidle i] at hi
    exact absurd hi (by simp)
  rintro s ⟨i, a⟩ s' hreach htrack hok hstep
  have hact : (s.locals i).atomicAction (fun _ => false) s.shared a = true := hok
  rcases step_cases hstep with ⟨l, -, hplan, rfl⟩ | ⟨w, u, l, hwritten, hplan, rfl⟩
  · -- Nothing is committed: of the atomic steps only those that give up.
    have hl : l = .idle := by
      generalize s.locals i = l₀ at hplan hact
      cases hplan with
      | giveUp => rfl
      | start hu => exact absurd hact Bool.false_ne_true
      | select hu => exact absurd hact Bool.false_ne_true
      | load hu => exact absurd hact Bool.false_ne_true
    rw [hl]
    exact htrack.release fun j claim _ hj => htrack.row j claim hj
  · have hheld := holdsValidations_of_reach hidle hreach
    have hatomic := hheld.committed hok (written_eq_some.mp hwritten).1
    have hheld_i := hheld i w u
    generalize hi : s.locals i = l₀ at hplan hact hheld_i
    cases hplan with
    | call hu => exact htrack.taken i hatomic (by simp)
    | reap hu => exact htrack.taken i hatomic (by simp)
    | commitCall => exact absurd (hheld_i rfl).1 (by simp)
    | commitReap => exact absurd (hheld_i rfl).1 (by simp)
    | claim hx => exact htrack.claim i hx
    | work hu =>
      exact htrack.work (by rw [hi]; rfl) (fun d hd => Session.carries_of_atomicAction hact hd) hu
    | commitWork => exact htrack.validate hi

/-- A worker that completes a job finds it DEPLOYING: in a run of atomic steps a commit that makes a
row SUCCEEDED finds it so already, or DEPLOYING. -/
theorem deploying_of_succeeded {s₀ s : State} (hidle : ∀ i, s₀.locals i = .idle)
    (h : Reach (step lower) AtomicSteps s₀ s) {i : ℕ} {a : Action} (hok : AtomicSteps s (i, a))
    {w : Writer} {u : UnitOfWork} (hcom : committed lower s.shared (s.locals i) a = some (w, u))
    {d : Deployment} (hd : d ∈ s.shared.deployments)
    (hdone : (u.onDeployment d).status = .succeeded) :
    d.status = .succeeded ∨ d.status = .deploying := by
  have htrack := onTrack_reach hidle h
  have hheld := holdsValidations_of_reach hidle h
  rcases State.Holds.committed hheld hcom with ⟨-, e, rfl⟩ | hreads
  · exact Or.inl hdone
  · have hatomic := hreads.atomicWrite hok hcom
    rcases (hatomic.rowStep hd).succeeded hdone with hs | ⟨rfl, hrun⟩
    · exact Or.inl hs
    · have hact : (s.locals i).atomicAction (fun _ => false) s.shared a = true := hok
      have hrow := htrack.row i
      generalize s.locals i = l₀ at hreads hact hrow
      cases hreads with
      | load hs => exact absurd hact Bool.false_ne_true
      | claim hx =>
        -- A claim leaves a running job alone.
        rw [(onDeployment_of_claimOne hx hd hrun).2] at hdone
        exact Or.inl hdone
      | @work claim phase u next hu =>
        obtain ⟨e, assigned, event, message, he, hwrite, rfl⟩ := processDeployment_eq_some hu
        obtain ⟨hmem, hid⟩ := Table.get?_eq_some.mp he
        rcases onDeployment_single hmem hd with hsame | ⟨rfl, hflush⟩
        · rw [hsame] at hdone
          exact Or.inl hdone
        · rw [hflush, hwrite.flush_self] at hdone
          have hcarries := Session.carries_of_atomicAction hact he
          obtain ⟨e', he', -, hstatus⟩ := hrow claim rfl
          obtain rfl := Option.some.inj (he.symm.trans he')
          cases hwrite with
          | complete hf => exact Or.inr (hstatus hcarries)
          | deploy hv => exact absurd hdone (by simp)
          | reject hv => exact absurd hdone (by simp)
          | timeout hf => exact absurd hdone (by simp)

/-! ## Bookkeeping -/

/-- The columns of a deployment agree with its status. -/
structure Deployment.Booked (d : Deployment) : Prop where
  /-- The error is that of a job that FAILED. -/
  error : d.error.isSome = true ↔ d.status = .failed
  /-- The target is that of a job that was rolled back. -/
  rolledBackTo : d.rolledBackToId.isSome = true ↔ d.status = .rolledBack
  /-- A queued job has no worker and no lock. -/
  requested : d.status = .requested → d.workerId = none ∧ d.lockedAt = none
  /-- A job that a worker holds has both, and has been claimed. -/
  running : d.running = true →
    d.workerId.isSome = true ∧ d.lockedAt.isSome = true ∧ 1 ≤ d.attempts
  /-- A job that is over has no lock, and has been claimed. -/
  finished : d.finished = true → d.lockedAt = none ∧ 1 ≤ d.attempts

/-- A job that has not FAILED has no error. -/
theorem Deployment.Booked.error_eq_none {d : Deployment} (h : d.Booked) (hs : d.status ≠ .failed) :
    d.error = none := by
  rw [← Option.not_isSome_iff_eq_none, h.error]
  exact hs

/-- A job that was not rolled back has no target. -/
theorem Deployment.Booked.target_eq_none {d : Deployment} (h : d.Booked)
    (hs : d.status ≠ .rolledBack) : d.rolledBackToId = none := by
  rw [← Option.not_isSome_iff_eq_none, h.rolledBackTo]
  exact hs

/-- What a worker assigns to a running job agrees with the status that it assigns. -/
theorem WorkerWrite.booked {db : Db} {d assigned : Deployment} {phase : Phase} {event : String}
    {message : Option String} {next : Option Phase}
    (h : WorkerWrite db d phase assigned event message next) (hd : d.Booked)
    (hrun : d.running = true) : assigned.Booked := by
  obtain ⟨hnotFailed, hnotRolledBack⟩ := Deployment.status_of_running hrun
  have herror := hd.error_eq_none hnotFailed
  have htarget := hd.target_eq_none hnotRolledBack
  have hclaimed := hd.running hrun
  cases h with
  | deploy hv =>
    exact ⟨by simp [herror], by simp [htarget], by simp, fun _ => hclaimed,
      fun hf => absurd hf (by simp [Deployment.finished])⟩
  | reject hv =>
    exact ⟨by simp, by simp [htarget], by simp, fun hr => absurd hr (by simp [Deployment.running]),
      fun hf => absurd hf (by simp [Deployment.finished])⟩
  | timeout hf =>
    exact ⟨by simp, by simp [htarget], by simp, fun hr => absurd hr (by simp [Deployment.running]),
      fun hf => absurd hf (by simp [Deployment.finished])⟩
  | complete hf =>
    exact ⟨by simp, by simp [htarget], by simp, fun hr => absurd hr (by simp [Deployment.running]),
      fun _ => ⟨rfl, hclaimed.2.2⟩⟩

/-- The commit of an atomic step keeps the columns of a row in agreement with its status. -/
theorem RowStep.booked {db : Db} {w : Writer} {d d' : Deployment} (h : RowStep db w d d')
    (hd : d.Booked) : d'.Booked := by
  cases h with
  | same => exact hd
  | claim workerId now hs =>
    have herror := hd.error_eq_none (by simp [hs])
    have htarget := hd.target_eq_none (by simp [hs])
    exact ⟨by simp [herror], by simp [htarget], by simp,
      fun _ => ⟨rfl, rfl, Nat.le_add_left _ _⟩, fun hf => absurd hf (by simp [Deployment.finished])⟩
  | work hrun hwrite => exact hwrite.booked hd hrun
  | reap hrun =>
    obtain ⟨hnotFailed, hnotRolledBack⟩ := Deployment.status_of_running hrun
    have herror := hd.error_eq_none hnotFailed
    have htarget := hd.target_eq_none hnotRolledBack
    unfold reaped
    split_ifs
    · exact ⟨by simp, by simp [htarget], by simp,
        fun hr => absurd hr (by simp [Deployment.running]),
        fun hf => absurd hf (by simp [Deployment.finished])⟩
    · exact ⟨by simp [herror], by simp [htarget], fun _ => ⟨rfl, rfl⟩,
        fun hr => absurd hr (by simp [Deployment.running]),
        fun hf => absurd hf (by simp [Deployment.finished])⟩
  | retry actorId hs =>
    have htarget := hd.target_eq_none (by simp [hs])
    exact ⟨by simp, by simp [htarget], fun _ => ⟨rfl, rfl⟩,
      fun hr => absurd hr (by simp [Deployment.running]),
      fun hf => absurd hf (by simp [Deployment.finished])⟩
  | rollback actorId hs ht =>
    have herror := hd.error_eq_none (by simp [hs])
    exact ⟨by simp [herror], by simp, by simp, fun hr => absurd hr (by simp [Deployment.running]),
      fun _ => hd.finished (by simp [Deployment.finished, hs])⟩

/-- The changes of status, where a row that is not stored has none. -/
def statusMoves : List (Option DeploymentStatus × DeploymentStatus) :=
  [(none, .requested), (some .requested, .validating), (some .validating, .deploying),
    (some .validating, .failed), (some .deploying, .failed), (some .validating, .requested),
    (some .deploying, .requested), (some .deploying, .succeeded), (some .failed, .requested),
    (some .succeeded, .rolledBack)]

/-- The commit of an atomic step that makes only a DEPLOYING job SUCCEEDED changes the status of a
row by one of the moves, if at all. -/
theorem RowStep.statusMove {db : Db} {w : Writer} {d d' : Deployment} (h : RowStep db w d d')
    (hdone : d'.status = .succeeded → d.status = .succeeded ∨ d.status = .deploying) :
    d'.status = d.status ∨ (some d.status, d'.status) ∈ statusMoves := by
  cases h with
  | same => exact Or.inl rfl
  | claim workerId now hs =>
    rw [hs]
    exact Or.inr (by simp [statusMoves])
  | work hrun hwrite =>
    simp only [Deployment.running, Bool.or_eq_true, decide_eq_true_eq] at hrun
    cases hwrite with
    | deploy hv => rcases hrun with hs | hs <;> simp [hs, statusMoves]
    | reject hv => rcases hrun with hs | hs <;> simp [hs, statusMoves]
    | timeout hf => rcases hrun with hs | hs <;> simp [hs, statusMoves]
    | complete hf => rcases hdone rfl with hs | hs <;> simp [hs, statusMoves]
  | reap hrun =>
    simp only [Deployment.running, Bool.or_eq_true, decide_eq_true_eq] at hrun
    unfold reaped
    split_ifs
    · rcases hrun with hs | hs <;> simp [hs, statusMoves]
    · rcases hrun with hs | hs <;> simp [hs, statusMoves]
  | retry actorId hs =>
    rw [hs]
    exact Or.inr (by simp [statusMoves])
  | rollback actorId hs ht =>
    rw [hs]
    exact Or.inr (by simp [statusMoves])

/-- A deployment that a request inserts agrees with its status. -/
theorem AtomicWrite.insert_booked {db : Db} {w : Writer} {deployment : Table.Draft Deployment.id}
    {event : Uuid → Table.Draft DeploymentEvent.id}
    (h : AtomicWrite lower db w (.insertDeployment deployment event)) (id : Uuid) :
    (deployment.1 id).Booked ∧ (deployment.1 id).status = .requested := by
  obtain ⟨actorId, correlationId, data, v, -, -, -, hrow⟩ := h.insert
  rw [hrow id]
  exact ⟨⟨by simp, by simp, fun _ => ⟨rfl, rfl⟩, fun hr => absurd hr (by simp [Deployment.running]),
    fun hf => absurd hf (by simp [Deployment.finished])⟩, rfl⟩

/-- In every run of atomic steps from an empty deployments table, the columns of every row agree
with its status. -/
theorem booked_reach {s₀ s : State} (hempty : ∀ d, d ∉ s₀.shared.deployments)
    (hidle : ∀ i, s₀.locals i = .idle) (h : Reach (step lower) AtomicSteps s₀ s) :
    ∀ d ∈ s.shared.deployments, d.Booked := by
  refine (reach_atomic (I := fun db => ∀ d ∈ db.deployments, d.Booked) h
    (fun d hd => absurd hd (hempty d)) hidle ?_).1
  intro db w u hdb hatomic _ d hd
  rcases hatomic.mem_deployments hd with ⟨e, he, hrow, -⟩ | ⟨deployment, event, rfl, rfl⟩
  · exact hrow.booked (hdb e he)
  · exact (hatomic.insert_booked _).1

/-- In every run of atomic steps from an empty deployments table, the columns of every row agree
with its status, and the next step changes the status of a deployment by one of the moves, if at
all. -/
theorem bookkeeping_of_reach {s₀ s : State} (hempty : ∀ d, d ∉ s₀.shared.deployments)
    (hidle : ∀ i, s₀.locals i = .idle) (h : Reach (step lower) AtomicSteps s₀ s) :
    (∀ d ∈ s.shared.deployments, d.Booked) ∧
      ∀ i a s', AtomicSteps s (i, a) → step lower s (i, a) = some s' → ∀ id,
        (s'.shared.deployments.get? id).map Deployment.status =
            (s.shared.deployments.get? id).map Deployment.status ∨
          ∃ status, (s'.shared.deployments.get? id).map Deployment.status = some status ∧
            ((s.shared.deployments.get? id).map Deployment.status, status) ∈ statusMoves := by
  refine ⟨booked_reach hempty hidle h, fun i a s' hok hstep id => ?_⟩
  rcases step_cases hstep with ⟨l, -, -, rfl⟩ | ⟨w, u, l, hwritten, -, rfl⟩
  · exact Or.inl rfl
  · obtain ⟨hcom, -⟩ := written_eq_some.mp hwritten
    have hheld := holdsValidations_of_reach hidle h
    have hatomic := hheld.committed hok hcom
    cases hd : s.shared.deployments.get? id with
    | some d =>
      -- The row is stored, and takes a row step.
      have hmem := (Table.get?_eq_some.mp hd).1
      dsimp only
      rw [Db.get?_deployments_write u hd, Option.map_some, Option.map_some]
      rcases (hatomic.rowStep hmem).statusMove
        (deploying_of_succeeded hidle h hok hcom hmem) with hsame | hmove
      · exact Or.inl (congrArg some hsame)
      · exact Or.inr ⟨_, rfl, hmove⟩
    | none =>
      dsimp only
      cases hd' : (s.shared.write u).deployments.get? id with
      | none => exact Or.inl rfl
      | some d' =>
        -- The row is new, and only a request inserts one.
        obtain ⟨deployment, event, rfl, rfl⟩ := hatomic.inserted hd hd'
        exact Or.inr ⟨.requested, congrArg some (hatomic.insert_booked _).2, by decide⟩

/-- A job is deployed, rolled out again in another version, and rolled back. -/
def rolledBackRun : List (ℕ × Action) :=
  [(0, request 1 .development false)] ++ executeJob 1 "a" 10 ++
    [(0, request 2 .development false)] ++ executeJob 2 "b" 20 ++
    [(0, .call (.rollbackDeployment 9 2))]

/-- The bookkeeping at the end of `rolledBackRun`. -/
theorem bookkeeping_of_reach_rolledBackRun :
    ∃ s₀ s, (∀ d, d ∉ s₀.shared.deployments) ∧ (∀ i, s₀.locals i = .idle) ∧
      Reach (step id) AtomicSteps s₀ s ∧
      s.shared.deployments.rows.map Deployment.status = [.succeeded, .rolledBack] ∧
      (∀ d ∈ s.shared.deployments, d.Booked) ∧
      ∀ i a s', AtomicSteps s (i, a) → step id s (i, a) = some s' → ∀ k,
        (s'.shared.deployments.get? k).map Deployment.status =
            (s.shared.deployments.get? k).map Deployment.status ∨
          ∃ status, (s'.shared.deployments.get? k).map Deployment.status = some status ∧
            ((s.shared.deployments.get? k).map Deployment.status, status) ∈ statusMoves := by
  have hempty : ∀ d, d ∉ registered.shared.deployments := fun d => List.not_mem_nil (a := d)
  have hreach := exec_reach (step id) AtomicSteps registered rolledBackRun
  obtain ⟨hbooked, hmoves⟩ := bookkeeping_of_reach hempty (fun _ => rfl) hreach
  exact ⟨registered, _, hempty, fun _ => rfl, hreach, by decide, hbooked, hmoves⟩

end MlopsPlatform
