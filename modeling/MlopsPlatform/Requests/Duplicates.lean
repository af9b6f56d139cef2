import MlopsPlatform.Requests.Replay
import Mathlib.Data.Finset.Card

/-!
# Simultaneous duplicates of a request

The same request is made any number of times: a double click, or a client that retries. Each call
looks its key up and later commits its insert. A call that looks up after another's commit is
answered with the row. One that has looked up before that commit inserts a row of its own, which the
unique column rejects, and the handler of the `IntegrityError` does not look the key up again: it
raises the `ConflictError` of the other index. So duplicates come out as they should exactly when
no lookup of one falls between the lookup and the commit of another (`duplicates_iff_of_trace`).
-/

namespace MlopsPlatform

open Transition

variable {lower : String → String} {data : DeploymentCreate}

/-! ## Runs of duplicates -/

/-- The call is a request with this payload, whoever makes it. -/
def Call.requests (data : DeploymentCreate) : Call → Bool
  | requestDeployment _ _ payload => payload = data
  | _ => false

/-- The session is between the lookup and the commit of a request with this payload. -/
def Session.requests (data : DeploymentCreate) : Session → Bool
  | api call _ => call.requests data
  | _ => false

/-- The action of a session is the lookup or the commit of such a request. -/
def Action.requests (data : DeploymentCreate) (l : Session) : Action → Bool
  | start request => request.requests data
  | commit => l.requests data
  | _ => false

/-- The steps of the runs of duplicates. -/
def DuplicateSteps (data : DeploymentCreate) (s : State) (p : ℕ × Action) : Prop :=
  p.2.requests data (s.locals p.1) = true

instance (s : State) (p : ℕ × Action) : Decidable (DuplicateSteps data s p) :=
  inferInstanceAs (Decidable (_ = true))

/-- No duplicate is between its lookup and its commit. -/
def State.Settled (data : DeploymentCreate) (s : State) : Prop :=
  ∀ i, (s.locals i).requests data = false

/-- The lookup of the step, if it is one, falls between the lookup and the commit of no duplicate.
-/
def Apart (data : DeploymentCreate) (x : State × (ℕ × Action)) : Prop :=
  x.2.2.isStart = true → x.1.Settled data

/-- A single request with the payload would return a deployment. -/
def State.Grants (lower : String → String) (data : DeploymentCreate) (s : State) : Prop :=
  ∃ i actorId correlationId d created, s.locals i = .idle ∧
    answer lower s (i, .call (.requestDeployment actorId correlationId data)) =
      some (.requested d created)

/-- A row with the key of the request is stored. -/
def Db.KeyStored (db : Db) (data : DeploymentCreate) : Prop :=
  ∃ d ∈ db.deployments, d.idempotencyKey = data.idempotencyKey

/-- A call is answered in the step. -/
def answers (lower : String → String) (x : State × (ℕ × Action)) : Bool :=
  (answer lower x.1 x.2).isSome

/-- The answer is a deployment with `created=True`. -/
def Answer.isCreated : Answer → Bool
  | requested _ created => created
  | _ => false

/-- A request is answered in the step with a row that it has created. -/
def creates (lower : String → String) (x : State × (ℕ × Action)) : Bool :=
  (answer lower x.1 x.2).any Answer.isCreated

/-- What the duplicates are to come to: exactly one stored row has their key, all of them return
that row, and exactly one has created it. -/
def RequestedOnce (lower : String → String) (data : DeploymentCreate)
    (steps : List (State × (ℕ × Action))) (s : State) : Prop :=
  ∃ d, (∀ e, (e ∈ s.shared.deployments ∧ e.idempotencyKey = data.idempotencyKey) ↔ e = d) ∧
    (∀ x ∈ steps, ∀ ans, answer lower x.1 x.2 = some ans → ∃ created, ans = .requested d created) ∧
    steps.countP (creates lower) = 1

/-! ## What a step of such a run can do -/

/-- All that a lookup or a commit of a duplicate can do, with its answer. -/
inductive DuplicateCase (data : DeploymentCreate) (s : State) (i : ℕ) :
    Action → Option Answer → State → Prop
  /-- The lookup finds the key. -/
  | replay {call : Call} {d : Deployment} : s.locals i = .idle →
    findByKey s.shared data.idempotencyKey = some d →
    DuplicateCase data s i (.start call) (some (.requested d false))
      ⟨s.shared, Function.update s.locals i .idle⟩
  /-- The reads raise. -/
  | refused {actorId : Uuid} {correlationId : Option String} {e : DomainError} :
    s.locals i = .idle → requestDeployment s.shared actorId correlationId data = .error e →
    DuplicateCase data s i (.start (.requestDeployment actorId correlationId data))
      (some (.raised e)) ⟨s.shared, Function.update s.locals i .idle⟩
  /-- The reads stage the insert. -/
  | staged {actorId : Uuid} {correlationId : Option String} {u : UnitOfWork} :
    s.locals i = .idle → requestDeployment s.shared actorId correlationId data = .ok (.staged u) →
    DuplicateCase data s i (.start (.requestDeployment actorId correlationId data)) none
      ⟨s.shared, Function.update s.locals i
        (.api (.requestDeployment actorId correlationId data) u)⟩
  /-- A constraint rejects the insert. -/
  | rejected {actorId : Uuid} {correlationId : Option String} {u : UnitOfWork} :
    s.locals i = .api (.requestDeployment actorId correlationId data) u →
    ¬(s.shared.write u).Constraints →
    DuplicateCase data s i .commit
      (some (.raised (.conflictError (requestInProgress data.environment))))
      ⟨s.shared, Function.update s.locals i .idle⟩
  /-- The row is stored. -/
  | created {actorId : Uuid} {correlationId : Option String}
      {deployment : Table.Draft Deployment.id} {event : Uuid → Table.Draft DeploymentEvent.id} :
    s.locals i = .api (.requestDeployment actorId correlationId data)
      (.insertDeployment deployment event) →
    (∀ id, (deployment.1 id).idempotencyKey = data.idempotencyKey) →
    (s.shared.write (.insertDeployment deployment event)).Constraints →
    DuplicateCase data s i .commit
      (some (.requested (deployment.1 s.shared.deployments.next) true))
      ⟨s.shared.write (.insertDeployment deployment event), Function.update s.locals i .idle⟩

/-- A call that is a request with a payload. -/
theorem Call.requests_eq_true {call : Call} (h : call.requests data = true) :
    ∃ actorId correlationId, call = .requestDeployment actorId correlationId data := by
  cases call with
  | requestDeployment actorId correlationId payload =>
    have hpayload : payload = data := by simpa [requests] using h
    exact ⟨actorId, correlationId, by rw [hpayload]⟩
  | _ => exact absurd h (by simp [requests])

/-- A session that is between the lookup and the commit of a duplicate. -/
theorem Session.requests_eq_true {l : Session} (h : l.requests data = true) :
    ∃ actorId correlationId u, l = .api (.requestDeployment actorId correlationId data) u := by
  cases l with
  | api call u =>
    obtain ⟨actorId, correlationId, rfl⟩ := Call.requests_eq_true h
    exact ⟨actorId, correlationId, u, rfl⟩
  | _ => exact absurd h (by simp [requests])

/-- A step of a run of duplicates does one of these. -/
theorem duplicateCase_of_step {ok : State → ℕ × Action → Prop} {s s' : State} {i : ℕ} {a : Action}
    (h : Reach (step lower) ok .init s) (hok : DuplicateSteps data s (i, a))
    (hstep : step lower s (i, a) = some s') :
    DuplicateCase data s i a (answer lower s (i, a)) s' := by
  obtain ⟨db, l, hact, rfl⟩ := Config.step_eq_some.mp hstep
  cases a with
  | start call =>
    obtain ⟨actorId, correlationId, rfl⟩ := Call.requests_eq_true hok
    -- Only an idle session can start a call.
    have hi : s.locals i = .idle := by
      dsimp only at hact
      generalize s.locals i = l₀ at hact
      cases l₀ with
      | idle => rfl
      | _ => exact absurd hact (by simp [act, plan])
    cases hr : requestDeployment s.shared actorId correlationId data with
    | error e =>
      simp only [act, hi, plan, Call.stage, hr, Except.map, Option.map_some, Option.some.injEq,
        Prod.mk.injEq] at hact
      obtain ⟨rfl, rfl⟩ := hact
      simp only [answer, hi, Call.readAnswer, hr]
      exact .refused hi hr
    | ok outcome =>
      cases outcome with
      | existing d =>
        simp only [act, hi, plan, Call.stage, hr, Except.map, Option.map_some, Option.some.injEq,
          Prod.mk.injEq] at hact
        obtain ⟨rfl, rfl⟩ := hact
        simp only [answer, hi, Call.readAnswer, hr]
        exact .replay hi (requestDeployment_eq_existing.mp hr)
      | staged u =>
        simp only [act, hi, plan, Call.stage, hr, Except.map, Option.map_some, Option.some.injEq,
          Prod.mk.injEq] at hact
        obtain ⟨rfl, rfl⟩ := hact
        simp only [answer, hi, Call.readAnswer, hr]
        exact .staged hi hr
  | commit =>
    obtain ⟨actorId, correlationId, u, hi⟩ := Session.requests_eq_true hok
    dsimp only at hi
    have hcom : committed lower s.shared (s.locals i) .commit =
        some (.api (.requestDeployment actorId correlationId data), u) := by
      rw [hi]
      rfl
    obtain ⟨db₀, hr⟩ := returns_of_reach h hcom
    obtain ⟨v, deployment, event, -, -, -, rfl, hrow⟩ := requestDeployment_eq_staged hr
    simp only [act, hi, plan, Option.map_some, commitAs, if_true, Option.some.injEq] at hact
    by_cases hcons : (s.shared.write (.insertDeployment deployment event)).Constraints
    · simp only [Db.commit, hcons, if_true, Prod.mk.injEq] at hact
      obtain ⟨rfl, rfl⟩ := hact
      simp only [answer, hi, Call.commitAnswer, Db.commit, hcons, if_true]
      exact .created hi (fun id => by rw [(hrow id).1]) hcons
    · simp only [Db.commit, hcons, if_false, Prod.mk.injEq] at hact
      obtain ⟨rfl, rfl⟩ := hact
      simp only [answer, hi, Call.commitAnswer, Db.commit, hcons, if_false, Call.rejected]
      exact .rejected hi hcons
  | _ => exact absurd hok (by simp [DuplicateSteps, Action.requests])

/-! ## Keys and constraints -/

/-- A write keeps the keys that are stored. -/
theorem Db.KeyStored.write {db : Db} (h : db.KeyStored data) (u : UnitOfWork) :
    (db.write u).KeyStored data := by
  obtain ⟨d, hd, hkey⟩ := h
  exact ⟨_, Db.onDeployment_mem_write u hd, (u.onDeployment_idempotencyKey d).trans hkey⟩

/-- Without a stored row that has the key of a request, the key is free. -/
theorem Db.keyFree_iff {db : Db} {key : String} (hkey : data.idempotencyKey = some key) :
    db.KeyFree data ↔ ¬db.KeyStored data := by
  constructor
  · rintro hfree ⟨d, hd, hd'⟩
    exact hfree d hd (by rw [hd', hkey]; rfl) hd'
  · intro hno d hd _ hd'
    exact hno ⟨d, hd, hd'⟩

/-- The constraints reject an insert under a key that is stored. -/
theorem not_constraints_of_keyStored {db : Db} (hcons : db.Constraints) {key : String}
    (hkey : data.idempotencyKey = some key) (h : db.KeyStored data)
    {deployment : Table.Draft Deployment.id} {event : Uuid → Table.Draft DeploymentEvent.id}
    (hrow : ∀ id, (deployment.1 id).idempotencyKey = data.idempotencyKey) :
    ¬(db.write (.insertDeployment deployment event)).Constraints := by
  intro haccepted
  obtain ⟨d, hd, hd'⟩ := h
  obtain ⟨hfree, -⟩ := (constraints_insertDeployment_iff hcons rfl).mp haccepted
  exact hfree d hd (by rw [hd', hkey]; rfl) (by rw [hd', hrow])

/-- Requests with one payload stage the same row, up to who makes them, and the constraints accept
either all of them or none. -/
theorem staged_congr {db : Db} (hcons : db.Constraints) {actorId : Uuid}
    {correlationId : Option String} {u : UnitOfWork}
    (h : requestDeployment db actorId correlationId data = .ok (.staged u)) (actorId' : Uuid)
    (correlationId' : Option String) :
    ∃ u', requestDeployment db actorId' correlationId' data = .ok (.staged u') ∧
      ((db.write u).Constraints ↔ (db.write u').Constraints) := by
  obtain ⟨v, deployment, event, hnone, hv, hgate, rfl, hrow⟩ := requestDeployment_eq_staged h
  have hstaged : ∃ u', requestDeployment db actorId' correlationId' data = .ok (.staged u') := by
    simp [requestDeployment, hnone, hv, assertDeployable, hgate, bind, Except.bind]
  obtain ⟨u', hr⟩ := hstaged
  refine ⟨u', hr, ?_⟩
  obtain ⟨v', deployment', event', -, hv', -, rfl, hrow'⟩ := requestDeployment_eq_staged hr
  obtain rfl := Option.some.inj (hv.symm.trans hv')
  rw [constraints_insertDeployment_iff hcons (hrow _).1,
    constraints_insertDeployment_iff hcons (hrow' _).1]
  rfl

/-- In a state in which a single request would return a deployment, and in which its key is free,
every such request stages an insert, and the constraints accept it. -/
theorem State.Grants.staged {s : State} (h : s.Grants lower data) (hcons : s.shared.Constraints)
    (hno : ¬s.shared.KeyStored data) (actorId : Uuid) (correlationId : Option String) :
    ∃ u, requestDeployment s.shared actorId correlationId data = .ok (.staged u) ∧
      (s.shared.write u).Constraints := by
  obtain ⟨i, actorId₀, correlationId₀, d, created, hi, hans⟩ := h
  rcases answer_cases (by rw [calling, hi]) hans with ⟨hread, -⟩ | ⟨u, hcom, hcommit⟩
  · -- It would not have been answered with a stored row.
    obtain ⟨-, hfound⟩ := readAnswer_requested hread
    obtain ⟨hd, key, -, hk, hkey⟩ := findByKey_eq_some hfound
    exact absurd ⟨d, hd, hkey.trans hk.symm⟩ hno
  · have haccepted : (s.shared.write u).Constraints := by
      by_contra hrejected
      simp [Call.commitAnswer, Db.commit, hrejected, Call.rejected] at hcommit
    have hr : requestDeployment s.shared actorId₀ correlationId₀ data = .ok (.staged u) := by
      rcases committed_cases hcom with hheld | hreads
      · exact absurd hheld (by simp [hi, Session.held])
      · exact hreads.returns
    obtain ⟨u', hr', hiff⟩ := staged_congr hcons hr actorId correlationId
    exact ⟨u', hr', hiff.mp haccepted⟩

/-! ## Every call is answered once -/

section

variable {ok : State → ℕ × Action → Prop} {s₀ s : State} {steps : List (State × (ℕ × Action))}

/-- The states of a run of duplicates from a reachable state are reachable. -/
theorem reach_of_duplicates (h₀ : Reach (step lower) ok .init s₀)
    (h : Trace (step lower) (DuplicateSteps data) s₀ steps s) :
    Reach (step lower) (fun _ _ => True) .init s :=
  (h₀.mono fun _ _ _ => trivial).trans (h.reach.mono fun _ _ _ => trivial)

/-- The calls that have been answered, and those between their lookup and their commit, are those
that have been made. -/
theorem answers_add_card (h₀ : Reach (step lower) ok .init s₀) (hsettled : s₀.Settled data)
    (h : Trace (step lower) (DuplicateSteps data) s₀ steps s) :
    ∃ pending : Finset ℕ, (∀ i, i ∈ pending ↔ (s.locals i).requests data = true) ∧
      steps.countP (answers lower) + pending.card = steps.countP fun x => x.2.2.isStart := by
  induction h with
  | nil => exact ⟨∅, fun i => by simp [hsettled i], rfl⟩
  | @snoc steps s s' p htrace hok hstep ih =>
    obtain ⟨i, a⟩ := p
    obtain ⟨pending, hmem, hcount⟩ := ih
    have hcase := duplicateCase_of_step (reach_of_duplicates h₀ htrace) hok hstep
    have hanswers : answers lower (s, (i, a)) = (answer lower s (i, a)).isSome := rfl
    simp only [List.countP_append, List.countP_singleton, hanswers]
    generalize answer lower s (i, a) = ans at hcase hanswers ⊢
    have hstarts : ∀ call, (Action.start call).isStart = true := fun _ => rfl
    have hcommits : Action.commit.isStart = false := rfl
    -- Idle sessions are not pending, and a session that commits no longer is.
    have hidle : ∀ {db : Db}, s.locals i = .idle → ∀ j, j ∈ pending ↔
        ((⟨db, Function.update s.locals i .idle⟩ : State).locals j).requests data = true := by
      intro db hi j
      rw [hmem]
      by_cases hji : j = i
      · subst hji
        simp [hi]
      · simp [Function.update_of_ne hji]
    have hends : ∀ (db : Db) {actorId : Uuid} {correlationId : Option String} {u : UnitOfWork},
        s.locals i = .api (.requestDeployment actorId correlationId data) u → i ∈ pending ∧
          ∀ j, j ∈ pending.erase i ↔
            ((⟨db, Function.update s.locals i .idle⟩ : State).locals j).requests data = true := by
      intro db actorId correlationId u hi
      refine ⟨(hmem i).mpr (by simp [hi, Session.requests, Call.requests]), fun j => ?_⟩
      rw [Finset.mem_erase, hmem]
      by_cases hji : j = i
      · subst hji
        simp [Session.requests]
      · simp [hji]
    cases hcase with
    | replay hi hfound =>
      exact ⟨pending, hidle hi, by simp [hstarts]; omega⟩
    | refused hi hr =>
      exact ⟨pending, hidle hi, by simp [hstarts]; omega⟩
    | staged hi hr =>
      refine ⟨insert i pending, fun j => ?_, ?_⟩
      · rw [Finset.mem_insert, hmem]
        by_cases hji : j = i
        · subst hji
          simp [Session.requests, Call.requests]
        · simp [hji]
      · have hnot : i ∉ pending := by
          rw [hmem, hi]
          simp [Session.requests]
        rw [Finset.card_insert_of_notMem hnot]
        simp [hstarts]
        omega
    | rejected hi hcons =>
      obtain ⟨hpending, hrest⟩ := hends s.shared hi
      refine ⟨pending.erase i, hrest, ?_⟩
      have hcard := Finset.card_erase_add_one hpending
      simp [hcommits]
      omega
    | created hi hrow hcons =>
      obtain ⟨hpending, hrest⟩ := hends s.shared hi
      refine ⟨pending.erase i, hrest, ?_⟩
      have hcard := Finset.card_erase_add_one hpending
      simp [hcommits]
      omega

/-! ## A lookup between the lookup and the commit of a duplicate -/

/-- While the key is stored, no request with it creates a row. -/
theorem creates_of_keyStored (h₀ : Reach (step lower) ok .init s₀) {key : String}
    (hkey : data.idempotencyKey = some key) (hstored : s₀.shared.KeyStored data)
    (h : Trace (step lower) (DuplicateSteps data) s₀ steps s) :
    s.shared.KeyStored data ∧ steps.countP (creates lower) = 0 := by
  induction h with
  | nil => exact ⟨hstored, rfl⟩
  | @snoc steps s s' p htrace hok hstep ih =>
    obtain ⟨i, a⟩ := p
    obtain ⟨hs, hcount⟩ := ih
    have hreach := reach_of_duplicates h₀ htrace
    have hcase := duplicateCase_of_step hreach hok hstep
    have hcreates : creates lower (s, (i, a)) = (answer lower s (i, a)).any Answer.isCreated := rfl
    rw [List.countP_append, List.countP_singleton, hcount, hcreates]
    generalize answer lower s (i, a) = ans at hcase
    cases hcase with
    | replay hi hfound => exact ⟨hs, rfl⟩
    | refused hi hr => exact ⟨hs, rfl⟩
    | staged hi hr => exact ⟨hs, rfl⟩
    | rejected hi hcons => exact ⟨hs, rfl⟩
    | created hi hrow hcons =>
      exact absurd hcons (not_constraints_of_keyStored (reach_constraints hreach) hkey hs hrow)

/-- A duplicate has been refused, or some duplicate that has looked its key up will be: the key is
stored by now, or two of them are to commit. -/
def Overtaken (lower : String → String) (data : DeploymentCreate)
    (steps : List (State × (ℕ × Action))) (s : State) : Prop :=
  (∃ x ∈ steps, ∃ e, answer lower x.1 x.2 = some (.raised e)) ∨
    (s.shared.KeyStored data ∧ ∃ i, (s.locals i).requests data = true) ∨
    ∃ i j, i ≠ j ∧ (s.locals i).requests data = true ∧ (s.locals j).requests data = true

/-- A duplicate that does not take the step stays between its lookup and its commit. -/
theorem requests_update {db : Db} {l : Session} {i j : ℕ}
    (hj : (s.locals j).requests data = true) (hji : j ≠ i) :
    ((⟨db, Function.update s.locals i l⟩ : State).locals j).requests data = true := by
  simpa only [Function.update_of_ne hji] using hj

/-- An idle session is not between the lookup and the commit of a duplicate. -/
theorem ne_of_idle {i j : ℕ} (hj : (s.locals j).requests data = true) (hi : s.locals i = .idle) :
    j ≠ i := by
  rintro rfl
  exact absurd hj (by simp [hi, Session.requests])

/-- A session between the lookup and the commit of a duplicate is one of those that are pending. -/
theorem not_settled {i : ℕ} {actorId : Uuid} {correlationId : Option String} {u : UnitOfWork}
    (hi : s.locals i = .api (.requestDeployment actorId correlationId data) u) :
    ¬s.Settled data := by
  intro hs
  have hfalse := hs i
  rw [hi] at hfalse
  exact absurd hfalse (by simp [Session.requests, Call.requests])

/-- A duplicate that is refused is refused for good. -/
theorem overtaken_of_raised {s' : State} {p : ℕ × Action} {e : DomainError}
    (h : answer lower s p = some (.raised e)) : Overtaken lower data (steps ++ [(s, p)]) s' :=
  Or.inl ⟨_, List.mem_append_right _ (List.mem_singleton_self _), e, h⟩

/-- What overtakes a duplicate is not undone by a step. -/
theorem Overtaken.step {s' : State} {i : ℕ} {a : Action} {ans : Option Answer} {key : String}
    (h : Overtaken lower data steps s) (hcons : s.shared.Constraints)
    (hkey : data.idempotencyKey = some key) (hans : answer lower s (i, a) = ans)
    (hcase : DuplicateCase data s i a ans s') :
    Overtaken lower data (steps ++ [(s, (i, a))]) s' := by
  rcases h with ⟨x, hx, e, he⟩ | ⟨hstored, j, hj⟩ | ⟨j, k, hjk, hj, hk⟩
  · exact Or.inl ⟨x, List.mem_append_left _ hx, e, he⟩
  · cases hcase with
    | replay hi hfound =>
      exact Or.inr (Or.inl ⟨hstored, j, requests_update hj (ne_of_idle hj hi)⟩)
    | refused hi hr => exact overtaken_of_raised hans
    | staged hi hr => exact Or.inr (Or.inl ⟨hstored, j, requests_update hj (ne_of_idle hj hi)⟩)
    | rejected hi hrejected => exact overtaken_of_raised hans
    | created hi hrow haccepted =>
      exact absurd haccepted (not_constraints_of_keyStored hcons hkey hstored hrow)
  · cases hcase with
    | replay hi hfound =>
      exact Or.inr (Or.inr ⟨j, k, hjk, requests_update hj (ne_of_idle hj hi),
        requests_update hk (ne_of_idle hk hi)⟩)
    | refused hi hr => exact overtaken_of_raised hans
    | staged hi hr =>
      exact Or.inr (Or.inr ⟨j, k, hjk, requests_update hj (ne_of_idle hj hi),
        requests_update hk (ne_of_idle hk hi)⟩)
    | rejected hi hrejected => exact overtaken_of_raised hans
    | @created actorId correlationId deployment event hi hrow haccepted =>
      -- The first of the two stores the key, and the other one is still to commit.
      have hstored : (s.shared.write (.insertDeployment deployment event)).KeyStored data :=
        ⟨_, Table.mem_insert.mpr (Or.inr rfl), hrow _⟩
      by_cases hji : j = i
      · have hki : k ≠ i := fun hki => hjk (hji.trans hki.symm)
        exact Or.inr (Or.inl ⟨hstored, k, requests_update hk hki⟩)
      · exact Or.inr (Or.inl ⟨hstored, j, requests_update hj hji⟩)

/-- A lookup between the lookup and the commit of a duplicate overtakes it, or will be overtaken. -/
theorem overtaken_of_not_apart {s' : State} {i : ℕ} {a : Action} {ans : Option Answer}
    (hnot : ¬Apart data (s, (i, a))) (hans : answer lower s (i, a) = ans)
    (hcase : DuplicateCase data s i a ans s') :
    Overtaken lower data (steps ++ [(s, (i, a))]) s' := by
  obtain ⟨hstart, hpending⟩ := Classical.not_imp.mp hnot
  obtain ⟨j, hnot⟩ := not_forall.mp hpending
  have hj : (s.locals j).requests data = true := by simpa using hnot
  cases hcase with
  | replay hi hfound =>
    obtain ⟨hd, key', -, hk, hkey'⟩ := findByKey_eq_some hfound
    exact Or.inr (Or.inl ⟨⟨_, hd, hkey'.trans hk.symm⟩, j, requests_update hj (ne_of_idle hj hi)⟩)
  | refused hi hr => exact overtaken_of_raised hans
  | staged hi hr =>
    have hij := ne_of_idle hj hi
    refine Or.inr (Or.inr ⟨i, j, hij.symm, ?_, requests_update hj hij⟩)
    simp [Session.requests, Call.requests]
  | rejected hi hrejected => exact absurd hstart Bool.false_ne_true
  | created hi hrow haccepted => exact absurd hstart Bool.false_ne_true

/-- Once a lookup has fallen between the lookup and the commit of a duplicate, a duplicate has been
refused or will be. -/
theorem overtaken_of_trace (h₀ : Reach (step lower) ok .init s₀) {key : String}
    (hkey : data.idempotencyKey = some key)
    (h : Trace (step lower) (DuplicateSteps data) s₀ steps s) (hx : ∃ x ∈ steps, ¬Apart data x) :
    Overtaken lower data steps s := by
  induction h with
  | nil =>
    obtain ⟨x, hx, -⟩ := hx
    exact absurd hx List.not_mem_nil
  | @snoc steps s s' p htrace hok hstep ih =>
    obtain ⟨i, a⟩ := p
    have hreach := reach_of_duplicates h₀ htrace
    have hcase := duplicateCase_of_step hreach hok hstep
    obtain ⟨x, hx, hnot⟩ := hx
    rcases List.mem_append.mp hx with hx | hx
    · exact (ih ⟨x, hx, hnot⟩).step (reach_constraints hreach) hkey rfl hcase
    · rw [List.mem_singleton.mp hx] at hnot
      exact overtaken_of_not_apart hnot rfl hcase

/-! ## Duplicates one after the other -/

/-- How far a run has come in which every lookup falls between no duplicate's lookup and commit. -/
inductive OneByOne (lower : String → String) (data : DeploymentCreate) (s₀ : State) :
    List (State × (ℕ × Action)) → State → Prop
  /-- No call has been made. -/
  | untouched : OneByOne lower data s₀ [] s₀
  /-- The first call is to commit. -/
  | inserting {steps : List (State × (ℕ × Action))} {s : State} {i : ℕ} {actorId : Uuid}
      {correlationId : Option String} {u : UnitOfWork} :
    (∀ x ∈ steps, answer lower x.1 x.2 = none) → s.shared = s₀.shared →
    s.locals i = .api (.requestDeployment actorId correlationId data) u →
    (∀ j, j ≠ i → (s.locals j).requests data = false) → (s₀.shared.write u).Constraints →
    OneByOne lower data s₀ steps s
  /-- The row is stored. -/
  | inserted {steps : List (State × (ℕ × Action))} {s : State} :
    RequestedOnce lower data steps s → s.Settled data → OneByOne lower data s₀ steps s

/-- The first commit stores the row, and is the first answer. -/
theorem requestedOnce_of_insert {i : ℕ} {a : Action} {deployment : Table.Draft Deployment.id}
    {event : Uuid → Table.Draft DeploymentEvent.id} {locals : ℕ → Session}
    (hno : ¬s.shared.KeyStored data) (hnone : ∀ x ∈ steps, answer lower x.1 x.2 = none)
    (hans : answer lower s (i, a) =
      some (.requested (deployment.1 s.shared.deployments.next) true))
    (hrow : ∀ id, (deployment.1 id).idempotencyKey = data.idempotencyKey) :
    RequestedOnce lower data (steps ++ [(s, (i, a))])
      ⟨s.shared.write (.insertDeployment deployment event), locals⟩ := by
  refine ⟨deployment.1 s.shared.deployments.next, fun e => ?_, fun x hx ans hx' => ?_, ?_⟩
  · have hmem : e ∈ (s.shared.write (.insertDeployment deployment event)).deployments ↔
        e ∈ s.shared.deployments ∨ e = deployment.1 s.shared.deployments.next := Table.mem_insert
    rw [hmem]
    constructor
    · rintro ⟨he | he, hkey⟩
      · exact absurd ⟨e, he, hkey⟩ hno
      · exact he
    · rintro rfl
      exact ⟨Or.inr rfl, hrow _⟩
  · rcases List.mem_append.mp hx with hx | hx
    · rw [hnone x hx] at hx'
      exact absurd hx' (by simp)
    · obtain rfl := List.mem_singleton.mp hx
      exact ⟨true, Option.some.inj (hx'.symm.trans hans)⟩
  · have hold : steps.countP (creates lower) = 0 :=
      List.countP_eq_zero.mpr fun x hx => by simp [creates, hnone x hx]
    rw [List.countP_append, List.countP_singleton, hold]
    simp [creates, hans, Answer.isCreated]

/-- A replay returns the row. -/
theorem RequestedOnce.replay {i : ℕ} {a : Action} {d : Deployment} {locals : ℕ → Session}
    (h : RequestedOnce lower data steps s)
    (hfound : findByKey s.shared data.idempotencyKey = some d)
    (hans : answer lower s (i, a) = some (.requested d false)) :
    RequestedOnce lower data (steps ++ [(s, (i, a))]) ⟨s.shared, locals⟩ := by
  obtain ⟨d', hd', hanswers, hcount⟩ := h
  obtain ⟨hd, key, -, hk, hkey⟩ := findByKey_eq_some hfound
  obtain rfl := (hd' d).mp ⟨hd, hkey.trans hk.symm⟩
  refine ⟨d, hd', fun x hx ans hx' => ?_, ?_⟩
  · rcases List.mem_append.mp hx with hx | hx
    · exact hanswers x hx ans hx'
    · obtain rfl := List.mem_singleton.mp hx
      exact ⟨false, Option.some.inj (hx'.symm.trans hans)⟩
  · rw [List.countP_append, List.countP_singleton, hcount]
    simp [creates, hans, Answer.isCreated]

/-- Without the last one of them, no duplicate is between its lookup and its commit. -/
theorem settled_of_others {i : ℕ} {db : Db}
    (h : ∀ j, j ≠ i → (s.locals j).requests data = false) :
    State.Settled data ⟨db, Function.update s.locals i .idle⟩ := by
  intro j
  by_cases hj : j = i
  · subst hj
    simp [Session.requests]
  · simpa only [Function.update_of_ne hj] using h j hj

/-- The first step is a lookup that stages a row. -/
theorem OneByOne.first {s' : State} {i : ℕ} {a : Action} {ans : Option Answer}
    (hgrants : s₀.Grants lower data) (hsettled : s₀.Settled data)
    (hcons₀ : s₀.shared.Constraints) (hno : ¬s₀.shared.KeyStored data)
    (hans : answer lower s₀ (i, a) = ans) (hcase : DuplicateCase data s₀ i a ans s') :
    OneByOne lower data s₀ [(s₀, (i, a))] s' := by
  cases hcase with
  | replay hi hfound =>
    obtain ⟨hd, key', -, hk, hkey'⟩ := findByKey_eq_some hfound
    exact absurd ⟨_, hd, hkey'.trans hk.symm⟩ hno
  | @refused actorId correlationId e hi hr =>
    obtain ⟨u, hu, -⟩ := hgrants.staged hcons₀ hno actorId correlationId
    rw [hr] at hu
    exact absurd hu (by simp)
  | @staged actorId correlationId u hi hr =>
    obtain ⟨u', hu, haccepted⟩ := hgrants.staged hcons₀ hno actorId correlationId
    rw [hr] at hu
    obtain rfl := RequestOutcome.staged.inj (Except.ok.inj hu)
    refine .inserting (i := i) (fun x hx => ?_) rfl (Function.update_self ..) (fun j hj => ?_)
      haccepted
    · obtain rfl := List.mem_singleton.mp hx
      exact hans
    · simpa only [Function.update_of_ne hj] using hsettled j
  | rejected hi hrejected => exact absurd hsettled (not_settled hi)
  | created hi hrow haccepted => exact absurd hsettled (not_settled hi)

/-- While the first call is to commit, its commit is the only step that the run can take. -/
theorem OneByOne.insert {s' : State} {i k : ℕ} {a : Action} {ans : Option Answer} {actorId : Uuid}
    {correlationId : Option String} {u : UnitOfWork}
    (hnone : ∀ x ∈ steps, answer lower x.1 x.2 = none) (hshared : s.shared = s₀.shared)
    (hk : s.locals k = .api (.requestDeployment actorId correlationId data) u)
    (hothers : ∀ j, j ≠ k → (s.locals j).requests data = false)
    (haccepted₀ : (s₀.shared.write u).Constraints) (hno : ¬s₀.shared.KeyStored data)
    (hapart : Apart data (s, (i, a))) (hans : answer lower s (i, a) = ans)
    (hcase : DuplicateCase data s i a ans s') :
    OneByOne lower data s₀ (steps ++ [(s, (i, a))]) s' := by
  have hik : ∀ {actorId : Uuid} {correlationId : Option String} {u' : UnitOfWork},
      s.locals i = .api (.requestDeployment actorId correlationId data) u' → i = k := by
    intro actorId correlationId u' hi
    by_contra hne
    have hfalse := hothers i hne
    simp [hi, Session.requests, Call.requests] at hfalse
  cases hcase with
  | replay hi hfound => exact absurd (hapart rfl) (not_settled hk)
  | refused hi hr => exact absurd (hapart rfl) (not_settled hk)
  | staged hi hr => exact absurd (hapart rfl) (not_settled hk)
  | rejected hi hrejected =>
    obtain rfl := hik hi
    obtain ⟨-, rfl⟩ := Session.api.inj (hi.symm.trans hk)
    rw [hshared] at hrejected
    exact absurd haccepted₀ hrejected
  | created hi hrow haccepted =>
    obtain rfl := hik hi
    exact .inserted (requestedOnce_of_insert (by rwa [hshared]) hnone hans hrow)
      (settled_of_others hothers)

/-- Once the row is stored, every lookup returns it. -/
theorem OneByOne.again {s' : State} {i : ℕ} {a : Action} {ans : Option Answer} {key : String}
    (honce : RequestedOnce lower data steps s) (hs : s.Settled data)
    (hcons : s.shared.Constraints) (hkey : data.idempotencyKey = some key) (hempty : key ≠ "")
    (hans : answer lower s (i, a) = ans) (hcase : DuplicateCase data s i a ans s') :
    OneByOne lower data s₀ (steps ++ [(s, (i, a))]) s' := by
  have hstored : ∃ d, findByKey s.shared data.idempotencyKey = some d := by
    obtain ⟨d, hd, -⟩ := honce
    obtain ⟨hmem, hkey'⟩ := (hd d).mpr rfl
    rw [hkey] at hkey' ⊢
    exact ⟨d, findByKey_of_mem hcons.2.2.1 hmem hkey' hempty⟩
  obtain ⟨d, hfound⟩ := hstored
  cases hcase with
  | replay hi hfound' =>
    exact .inserted (honce.replay hfound' hans) (settled_of_others fun j _ => hs j)
  | refused hi hr =>
    rw [requestDeployment_eq_existing.mpr hfound] at hr
    exact absurd hr (by simp)
  | staged hi hr =>
    rw [requestDeployment_eq_existing.mpr hfound] at hr
    exact absurd hr (by simp)
  | rejected hi hrejected => exact absurd hs (not_settled hi)
  | created hi hrow haccepted => exact absurd hs (not_settled hi)

/-- A step of a run of duplicates whose lookup falls between no duplicate's lookup and commit takes
the run one step further. -/
theorem OneByOne.step {s' : State} {i : ℕ} {a : Action} {ans : Option Answer} {key : String}
    (h : OneByOne lower data s₀ steps s) (hgrants : s₀.Grants lower data)
    (hsettled : s₀.Settled data) (hcons₀ : s₀.shared.Constraints) (hcons : s.shared.Constraints)
    (hno : ¬s₀.shared.KeyStored data) (hkey : data.idempotencyKey = some key) (hempty : key ≠ "")
    (hapart : Apart data (s, (i, a))) (hans : answer lower s (i, a) = ans)
    (hcase : DuplicateCase data s i a ans s') :
    OneByOne lower data s₀ (steps ++ [(s, (i, a))]) s' := by
  cases h with
  | untouched => exact .first hgrants hsettled hcons₀ hno hans hcase
  | inserting hnone hshared hk hothers haccepted₀ =>
    exact .insert hnone hshared hk hothers haccepted₀ hno hapart hans hcase
  | inserted honce hs => exact .again honce hs hcons hkey hempty hans hcase

/-- A run in which every lookup falls between no duplicate's lookup and commit goes one call after
the other. -/
theorem oneByOne_of_trace (h₀ : Reach (step lower) ok .init s₀) {key : String}
    (hkey : data.idempotencyKey = some key) (hempty : key ≠ "") (hsettled : s₀.Settled data)
    (hgrants : s₀.Grants lower data) (hno : ¬s₀.shared.KeyStored data)
    (h : Trace (step lower) (DuplicateSteps data) s₀ steps s) (hapart : ∀ x ∈ steps, Apart data x) :
    OneByOne lower data s₀ steps s := by
  induction h with
  | nil => exact .untouched
  | @snoc steps s s' p htrace hok hstep ih =>
    obtain ⟨i, a⟩ := p
    have hreach := reach_of_duplicates h₀ htrace
    refine (ih fun x hx => hapart x (List.mem_append_left _ hx)).step hgrants hsettled
      (reach_constraints h₀) (reach_constraints hreach) hno hkey hempty ?_ rfl
      (duplicateCase_of_step hreach hok hstep)
    exact hapart _ (List.mem_append_right _ (List.mem_singleton_self _))

/-- In every interleaving of one or more duplicates of a request, from a reachable state in which a
single one would return a deployment, each call is answered once. Exactly one row with the key is
stored in the end, all calls return it, and exactly one has created it, if and only if the key was
not stored before and no call's lookup falls between the lookup and the commit of another. -/
theorem duplicates_iff_of_trace (h₀ : Reach (step lower) ok .init s₀) {key : String}
    (hkey : data.idempotencyKey = some key) (hempty : key ≠ "") (hgrants : s₀.Grants lower data)
    (h : Trace (step lower) (DuplicateSteps data) s₀ steps s) (hsteps : steps ≠ [])
    (hsettled : s₀.Settled data) (hreturned : s.Settled data) :
    (steps.countP (answers lower) = steps.countP fun x => x.2.2.isStart) ∧
      (RequestedOnce lower data steps s ↔
        s₀.shared.KeyFree data ∧ ∀ x ∈ steps, Apart data x) := by
  refine ⟨?_, ?_⟩
  · obtain ⟨pending, hmem, hcount⟩ := answers_add_card h₀ hsettled h
    have hnone : pending = ∅ := by
      refine Finset.eq_empty_of_forall_notMem fun i hi => ?_
      have hi' := (hmem i).mp hi
      rw [hreturned i] at hi'
      exact absurd hi' Bool.false_ne_true
    rw [hnone] at hcount
    exact hcount
  rw [Db.keyFree_iff hkey]
  constructor
  · rintro ⟨d, -, hanswers, hcreated⟩
    refine ⟨fun hstored => ?_, fun x hx => ?_⟩
    · rw [(creates_of_keyStored h₀ hkey hstored h).2] at hcreated
      exact absurd hcreated (by decide)
    · by_contra hnot
      -- A duplicate that is refused does not return the row.
      rcases overtaken_of_trace h₀ hkey h ⟨x, hx, hnot⟩ with
        ⟨y, hy, e, he⟩ | ⟨-, i, hi⟩ | ⟨i, j, -, hi, -⟩
      · obtain ⟨created, hans⟩ := hanswers y hy _ he
        exact absurd hans (by simp)
      · rw [hreturned i] at hi
        exact absurd hi Bool.false_ne_true
      · rw [hreturned i] at hi
        exact absurd hi Bool.false_ne_true
  · rintro ⟨hno, hapart⟩
    cases oneByOne_of_trace h₀ hkey hempty hsettled hgrants hno h hapart with
    | untouched => exact absurd rfl hsteps
    | inserting hnone hshared hi hothers haccepted => exact absurd hreturned (not_settled hi)
    | inserted honce hs => exact honce

end

/-- A request for the deployment of version 1 to development, under a key. -/
def duplicate : DeploymentCreate :=
  { modelVersionId := 1, environment := .development, idempotencyKey := some "release-1"
    simulateFailure := false }

/-- The state after `registration`. -/
def beforeDuplicates : State := exec (step id) AtomicSteps .init registration

/-- Two requests, the second after the first. -/
def duplicatesInTurn : List (ℕ × Action) :=
  [(1, .start (.requestDeployment 9 none duplicate)), (1, .commit),
    (2, .start (.requestDeployment 9 none duplicate))]

/-- Two requests that both look up their key before either commits. -/
def overlappingDuplicates : List (ℕ × Action) :=
  [(1, .start (.requestDeployment 9 none duplicate)),
    (2, .start (.requestDeployment 9 none duplicate)), (1, .commit), (2, .commit)]

/-- The second of two requests in turn is answered with the row of the first. -/
theorem duplicates_iff_of_trace_inTurn :
    ∃ steps s, Trace (step id) (DuplicateSteps duplicate) beforeDuplicates steps s ∧
      (steps.countP fun x => x.2.2.isStart) = 2 ∧
      (steps.countP (answers id) = steps.countP fun x => x.2.2.isStart) ∧
      (RequestedOnce id duplicate steps s ↔
        beforeDuplicates.shared.KeyFree duplicate ∧ ∀ x ∈ steps, Apart duplicate x) := by
  have htrace := exec_trace (step id) (DuplicateSteps duplicate) beforeDuplicates duplicatesInTurn
  have hsettled : beforeDuplicates.Settled duplicate := by
    intro i
    rcases i with _ | _ | _ | i <;> rfl
  have hreturned : (exec (step id) (DuplicateSteps duplicate) beforeDuplicates
      duplicatesInTurn).Settled duplicate := by
    intro i
    rcases i with _ | _ | _ | i <;> rfl
  have hgrants : beforeDuplicates.Grants id duplicate := ⟨1, 9, none, _, _, rfl, rfl⟩
  have hcalls : ((execSteps (step id) (DuplicateSteps duplicate) beforeDuplicates
      duplicatesInTurn).countP fun x => x.2.2.isStart) = 2 := by decide
  have hsteps : execSteps (step id) (DuplicateSteps duplicate) beforeDuplicates
      duplicatesInTurn ≠ [] := by
    intro hnil
    rw [hnil] at hcalls
    exact absurd hcalls (by decide)
  exact ⟨_, _, htrace, hcalls,
    duplicates_iff_of_trace (exec_reach (step id) AtomicSteps .init registration) rfl (by decide)
      hgrants htrace hsteps hsettled hreturned⟩

/-- The second of two requests that overlap is refused as already in progress, although the row of
the first, which has its key, is stored. -/
theorem overlapping_duplicate_refused :
    ∃ steps s, Reach (step id) AtomicSteps .init beforeDuplicates ∧
      beforeDuplicates.Grants id duplicate ∧
      Trace (step id) (DuplicateSteps duplicate) beforeDuplicates steps s ∧
      s.shared.deployments.rows.map Deployment.idempotencyKey = [some "release-1"] ∧
      (∃ x ∈ steps, answer id x.1 x.2 =
        some (.raised (.conflictError (requestInProgress .development)))) ∧
      ¬RequestedOnce id duplicate steps s := by
  have hrefused : ∃ x ∈ execSteps (step id) (DuplicateSteps duplicate) beforeDuplicates
      overlappingDuplicates, answer id x.1 x.2 =
        some (.raised (.conflictError (requestInProgress .development))) :=
    ⟨_, .tail _ (.tail _ (.tail _ (.head _))), rfl⟩
  refine ⟨_, _, exec_reach (step id) AtomicSteps .init registration, ⟨1, 9, none, _, _, rfl, rfl⟩,
    exec_trace (step id) (DuplicateSteps duplicate) beforeDuplicates overlappingDuplicates,
    by decide, hrefused, ?_⟩
  rintro ⟨d, -, hanswers, -⟩
  obtain ⟨x, hx, hans⟩ := hrefused
  obtain ⟨created, heq⟩ := hanswers x hx _ hans
  exact absurd heq (by simp)

end MlopsPlatform
