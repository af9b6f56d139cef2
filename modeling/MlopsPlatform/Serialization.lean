import MlopsPlatform.Library.Simulation
import MlopsPlatform.Answers

/-!
# Serial runs

In a serial run every call, every segment of `process_deployment` and every pass of the reaper reads
and commits in one step. A commit of an interleaved run is fresh if reads made at the commit would
stage the same unit of work once more. The runs whose commits are all fresh are serializable: each
is matched by a serial run with the same answers and the same writes, on the same databases and in
the same order. The serial run takes each operation where the interleaved one commits it, or where
it answers without a commit.
-/

namespace MlopsPlatform

open Transition

/-- The action only reads, and leaves its commit to a later action. -/
def Action.isSplit : Action → Bool
  | start _ => true
  | load => true
  | select _ _ => true
  | _ => false

/-- The steps of serial runs. -/
def Serial (_ : State) (p : ℕ × Action) : Prop := p.2.isSplit = false

instance (s : State) (p : ℕ × Action) : Decidable (Serial s p) :=
  inferInstanceAs (Decidable (p.2.isSplit = false))

section

variable (lower : String → String)

/-- Reads of the database would stage what the session has staged. -/
def Session.Fresh (db : Db) : Session → Prop
  | api call u => call.stage lower db = .ok (some u)
  -- The first commit of `process_deployment` reads nothing.
  | workerCommit claim u next => (∃ d, u = startValidation d) ∨
    ∃ phase, processDeployment db claim.deploymentId phase = some (u, next)
  | reaper u => ∃ now timeoutSeconds, reapStuck db now timeoutSeconds = some u
  | _ => True

/-- The step commits only what is fresh. -/
def FreshCommit (s : State) (p : ℕ × Action) : Prop :=
  match p.2 with
  | .commit => (s.locals p.1).Fresh lower s.shared
  | _ => True

/-- What is seen of a step from outside: the session, the database that the step finds, the answer
that it gives, and what it writes. -/
structure Observation where
  session : ℕ
  db : Db
  answer : Option Answer
  written : Option (Writer × UnitOfWork)

/-- A step is seen if it answers a call or writes. -/
def observe (p : State × (ℕ × Action)) : Option Observation :=
  match answer lower p.1 p.2, written lower p.1 p.2 with
  | none, none => none
  | ans, w => some ⟨p.2.1, p.1.shared, ans, w⟩

end

variable {lower : String → String}

/-! ## Sessions of the interleaved and of the serial run -/

/-- The session of the serial run that stands for one of the interleaved run. What was staged by
reads is not begun yet. -/
inductive Session.SerializesTo : Session → Session → Prop
  /-- Nothing in progress. -/
  | idle : SerializesTo .idle .idle
  /-- A call that has read. -/
  | api (call : Call) (u : UnitOfWork) : SerializesTo (.api call u) .idle
  /-- A reaper that has selected. -/
  | reaper (u : UnitOfWork) : SerializesTo (.reaper u) .idle
  /-- A worker between two commits. -/
  | worker (claim : Claim) (phase : Phase) :
    SerializesTo (.worker claim phase) (.worker claim phase)
  /-- A worker before its first commit. -/
  | validation (claim : Claim) (d : Deployment) :
    SerializesTo (.workerCommit claim (startValidation d) (some .check))
      (.workerCommit claim (startValidation d) (some .check))
  /-- A worker that has read for its next commit. -/
  | loaded {db : Db} {claim : Claim} {phase : Phase} {u : UnitOfWork} {next : Option Phase} :
    processDeployment db claim.deploymentId phase = some (u, next) →
      SerializesTo (.workerCommit claim u next) (.worker claim phase)

/-- After a commit of `process_deployment` the session is the same in both runs. -/
theorem Session.afterCommit_serializesTo (claim : Claim) (next : Option Phase) :
    (afterCommit claim next).SerializesTo (afterCommit claim next) := by
  cases next with
  | none => exact .idle
  | some phase => exact .worker claim phase

/-- The plan of the serial run does the same to the database, and leaves the session that stands for
the one that the interleaved run leaves. -/
inductive Plan.SerializesTo : Plan → Plan → Prop
  /-- Neither commits. -/
  | keep {l m : Session} : l.SerializesTo m → SerializesTo (.keep l) (.keep m)
  /-- Both commit the same. -/
  | commit {w : Writer} {u : UnitOfWork} {l m : Session} :
    l.SerializesTo m → SerializesTo (.commit w u l) (.commit w u m)

/-- The event that a segment of `process_deployment` records tells its phase. -/
theorem phase_of_processDeployment {db db' : Db} {id id' : Uuid} {phase phase' : Phase}
    {u : UnitOfWork} {next next' : Option Phase}
    (h : processDeployment db id phase = some (u, next))
    (h' : processDeployment db' id' phase' = some (u, next')) : phase = phase' := by
  obtain ⟨d, assigned, event, message, -, hwrite, hu⟩ := processDeployment_eq_some h
  obtain ⟨d', assigned', event', message', -, hwrite', hu'⟩ := processDeployment_eq_some h'
  rw [hu] at hu'
  obtain ⟨-, hevents⟩ := UnitOfWork.updateDeployments.inj hu'
  have hrecord : recordEvent assigned event message (some "worker") =
      recordEvent assigned' event' message' (some "worker") := (List.cons.inj hevents).1
  have hevent : event = event' :=
    congrArg (fun x : Table.Draft DeploymentEvent.id => (x.1 0).event) hrecord
  -- The two phases record different events.
  cases hwrite <;> cases hwrite' <;> first | rfl | exact absurd hevent (by decide)

/-- The first commit of `process_deployment` is not that of a later segment. -/
theorem startValidation_ne_processDeployment {db : Db} {id : Uuid} {phase : Phase}
    {next : Option Phase} (d : Deployment) :
    processDeployment db id phase ≠ some (startValidation d, next) := by
  intro h
  obtain ⟨e, assigned, event, message, -, -, hu⟩ := processDeployment_eq_some h
  exact absurd (UnitOfWork.updateDeployments.inj hu).1 (by simp)

/-! ## One step -/

/-- An action of a serial run plans for a session what an action of the interleaved run plans, and
answers the same. -/
def Mirrors (lower : String → String) (s : State) (t : State) (i : ℕ) (a b : Action) (p : Plan) :
    Prop :=
  b.isSplit = false ∧ (∃ q, plan lower t.shared (t.locals i) b = some q ∧ p.SerializesTo q) ∧
    answer lower t (i, b) = answer lower s (i, a)

/-- The reads of an operation are not seen, and the serial run waits for its commit. Every other
action is mirrored. -/
theorem waits_or_mirrors {s t : State} {i : ℕ} {a : Action} {p : Plan}
    (hshared : s.shared = t.shared) (hi : (s.locals i).SerializesTo (t.locals i))
    (hfresh : FreshCommit lower s (i, a)) (hp : plan lower s.shared (s.locals i) a = some p) :
    (answer lower s (i, a) = none ∧ ∃ l, p = .keep l ∧ l.SerializesTo (t.locals i)) ∨
      ∃ b, Mirrors lower s t i a b p := by
  unfold Mirrors
  simp only [FreshCommit] at hfresh
  simp only [answer, ← hshared]
  generalize s.shared = db at *
  generalize s.locals i = l at *
  generalize t.locals i = m at *
  cases hi with
  | idle =>
    cases a with
    | start call =>
      cases hc : call.stage lower db with
      | error e =>
        obtain rfl : p = .keep .idle := by simpa [plan, hc] using hp.symm
        exact Or.inr ⟨.call call, rfl, ⟨.keep .idle, by simp [plan, hc], .keep .idle⟩, by simp [hc]⟩
      | ok staged =>
        cases staged with
        | none =>
          obtain rfl : p = .keep .idle := by simpa [plan, hc] using hp.symm
          exact Or.inr
            ⟨.call call, rfl, ⟨.keep .idle, by simp [plan, hc], .keep .idle⟩, by simp [hc]⟩
        | some u =>
          obtain rfl : p = .keep (.api call u) := by simpa [plan, hc] using hp.symm
          exact Or.inl ⟨Call.readAnswer_of_stage hc, _, rfl, .api call u⟩
    | select now timeoutSeconds =>
      cases hr : reapStuck db now timeoutSeconds with
      | none =>
        obtain rfl : p = .keep .idle := by simpa [plan, hr] using hp.symm
        exact Or.inl ⟨rfl, _, rfl, .idle⟩
      | some u =>
        obtain rfl : p = .keep (.reaper u) := by simpa [plan, hr] using hp.symm
        exact Or.inl ⟨rfl, _, rfl, .reaper u⟩
    | call call =>
      refine Or.inr ⟨.call call, rfl, ⟨p, hp, ?_⟩, rfl⟩
      cases planned hp with
      | giveUp => exact .keep .idle
      | call hc => exact .commit .idle
    | claim workerId now locked =>
      refine Or.inr ⟨.claim workerId now locked, rfl, ⟨p, hp, ?_⟩, rfl⟩
      cases planned hp with
      | giveUp => exact .keep .idle
      | claim hx => exact .commit (.validation _ _)
    | reap now timeoutSeconds =>
      refine Or.inr ⟨.reap now timeoutSeconds, rfl, ⟨p, hp, ?_⟩, rfl⟩
      cases planned hp with
      | giveUp => exact .keep .idle
      | reap hr => exact .commit .idle
    | crash =>
      obtain rfl : p = .keep .idle := by simpa [plan] using hp.symm
      exact Or.inl ⟨rfl, _, rfl, .idle⟩
    | _ => simp [plan] at hp
  | api call u =>
    cases a with
    | commit =>
      obtain rfl : p = .commit (.api call) u .idle := by simpa [plan] using hp.symm
      have hc : call.stage lower db = .ok (some u) := hfresh
      exact Or.inr ⟨.call call, rfl, ⟨_, by simp only [plan, hc], .commit .idle⟩, by simp only [hc]⟩
    | crash =>
      obtain rfl : p = .keep .idle := by simpa [plan] using hp.symm
      exact Or.inl ⟨rfl, _, rfl, .idle⟩
    | _ => simp [plan] at hp
  | reaper u =>
    cases a with
    | commit =>
      obtain rfl : p = .commit .reaper u .idle := by simpa [plan] using hp.symm
      obtain ⟨now, timeoutSeconds, hr⟩ := hfresh
      exact Or.inr ⟨.reap now timeoutSeconds, rfl, ⟨_, by simp only [plan, hr], .commit .idle⟩, rfl⟩
    | crash =>
      obtain rfl : p = .keep .idle := by simpa [plan] using hp.symm
      exact Or.inl ⟨rfl, _, rfl, .idle⟩
    | _ => simp [plan] at hp
  | worker claim phase =>
    cases a with
    | load =>
      cases hprocess : processDeployment db claim.deploymentId phase with
      | none => simp [plan, hprocess] at hp
      | some x =>
        obtain rfl : p = .keep (.workerCommit claim x.1 x.2) := by
          simpa [plan, hprocess] using hp.symm
        exact Or.inl ⟨rfl, _, rfl, .loaded hprocess⟩
    | work =>
      refine Or.inr ⟨.work, rfl, ⟨p, hp, ?_⟩, rfl⟩
      cases planned hp with
      | giveUp => exact .keep .idle
      | work hx => exact .commit (Session.afterCommit_serializesTo _ _)
    | crash =>
      obtain rfl : p = .keep .idle := by simpa [plan] using hp.symm
      exact Or.inr ⟨.crash, rfl, ⟨.keep .idle, rfl, .keep .idle⟩, rfl⟩
    | _ => simp [plan] at hp
  | validation claim d =>
    cases a with
    | commit =>
      obtain rfl : p = .commit .worker (startValidation d) (.afterCommit claim (some .check)) := by
        simpa [plan] using hp.symm
      exact Or.inr ⟨.commit, rfl, ⟨_, rfl, .commit (Session.afterCommit_serializesTo _ _)⟩, rfl⟩
    | crash =>
      obtain rfl : p = .keep .idle := by simpa [plan] using hp.symm
      exact Or.inr ⟨.crash, rfl, ⟨.keep .idle, rfl, .keep .idle⟩, rfl⟩
    | _ => simp [plan] at hp
  | @loaded db₀ claim phase u next hread =>
    cases a with
    | commit =>
      obtain rfl : p = .commit .worker u (.afterCommit claim next) := by simpa [plan] using hp.symm
      -- The segment that is read again is the one that was read.
      rcases hfresh with ⟨d, rfl⟩ | ⟨phase', hagain⟩
      · exact absurd hread (startValidation_ne_processDeployment d)
      · obtain rfl := phase_of_processDeployment hread hagain
        exact Or.inr ⟨.work, rfl, ⟨_, by simp only [plan, hagain],
          .commit (Session.afterCommit_serializesTo _ _)⟩, rfl⟩
    | crash =>
      obtain rfl : p = .keep .idle := by simpa [plan] using hp.symm
      exact Or.inr ⟨.crash, rfl, ⟨.keep .idle, rfl, .keep .idle⟩, rfl⟩
    | _ => simp [plan] at hp

/-- A plan that the serial run mirrors commits the same. -/
theorem Plan.SerializesTo.committed {db : Db} {l m : Session} {a b : Action} {p q : Plan}
    (h : p.SerializesTo q) (hp : plan lower db l a = some p) (hq : plan lower db m b = some q) :
    committed lower db m b = committed lower db l a := by
  unfold MlopsPlatform.committed
  rw [hp, hq]
  cases h <;> rfl

/-- Carrying out a plan and the one that mirrors it leaves the same database, and sessions that
stand for each other. -/
theorem Plan.SerializesTo.act {db db' : Db} {l l' m : Session} {a b : Action} {p q : Plan}
    (h : p.SerializesTo q) (hp : plan lower db l a = some p) (hq : plan lower db m b = some q)
    (hact : act lower (fun _ => true) db l a = some (db', l')) :
    ∃ m', MlopsPlatform.act lower (fun _ => true) db m b = some (db', m') ∧ l'.SerializesTo m' := by
  simp only [MlopsPlatform.act, hp, hq, Option.map_some, Option.some.injEq] at hact ⊢
  cases h with
  | keep hl =>
    obtain ⟨rfl, rfl⟩ := Prod.mk.inj hact
    exact ⟨_, rfl, hl⟩
  | @commit w u after after' hl =>
    simp only [commitAs, if_true] at hact ⊢
    -- The constraints accept both commits, or reject both.
    cases hdb : db.commit u with
    | none =>
      rw [hdb] at hact
      obtain ⟨rfl, rfl⟩ := Prod.mk.inj hact
      exact ⟨_, rfl, .idle⟩
    | some db₁ =>
      rw [hdb] at hact
      obtain ⟨rfl, rfl⟩ := Prod.mk.inj hact
      exact ⟨_, rfl, hl⟩

/-- A state of the serial run stands for one of the interleaved run: it has the same database, and
sessions that stand for the others. -/
def State.SerializesTo (s t : State) : Prop :=
  s.shared = t.shared ∧ ∀ i, (s.locals i).SerializesTo (t.locals i)

/-- Once a session of each has moved, the sessions stand for each other again. -/
theorem State.SerializesTo.update {s t : State} (h : s.SerializesTo t) (db : Db) (i : ℕ)
    {l m : Session} (hl : l.SerializesTo m) :
    SerializesTo ⟨db, Function.update s.locals i l⟩ ⟨db, Function.update t.locals i m⟩ := by
  refine ⟨rfl, fun j => ?_⟩
  by_cases hji : j = i
  · subst hji
    simpa only [Function.update_self] using hl
  · simpa only [Function.update_of_ne hji] using h.2 j

/-- A step that commits what is fresh is matched by a serial step, or it is not seen. -/
theorem step_matched {s s' t : State} {p : ℕ × Action} (hR : s.SerializesTo t)
    (hfresh : FreshCommit lower s p) (h : step lower s p = some s') :
    Matched (step lower) Serial State.SerializesTo (observe lower) (observe lower) s p s' t := by
  obtain ⟨i, a⟩ := p
  obtain ⟨db, l, hact, rfl⟩ := Config.step_eq_some.mp h
  obtain ⟨p, hp, -⟩ := Option.map_eq_some_iff.mp hact
  rcases waits_or_mirrors hR.1 (hR.2 i) hfresh hp with ⟨hans, l', rfl, hl⟩ | ⟨b, hb, hq, hans⟩
  · -- The serial run waits.
    simp only [act, hp, Option.map_some, Option.some.injEq] at hact
    obtain ⟨rfl, rfl⟩ := Prod.mk.inj hact
    refine Or.inl ⟨?_, hR.1, fun j => ?_⟩
    · have hnone : written lower s (i, a) = none := by simp [written, committed, hp]
      simp only [observe, hans, hnone]
    · rcases s.locals_update s.shared i j l' with ⟨rfl, hj⟩ | ⟨-, hj⟩
      · rw [hj]
        exact hl
      · rw [hj]
        exact hR.2 j
  · obtain ⟨q, hq, hpq⟩ := hq
    rw [← hR.1] at hq
    obtain ⟨m, hact', hm⟩ := hpq.act hp hq hact
    refine Or.inr ⟨(i, b), ⟨db, Function.update t.locals i m⟩, hb, ?_, ?_, hR.update db i hm⟩
    · exact Config.step_eq_some.mpr ⟨db, m, by rw [← hR.1]; exact hact', rfl⟩
    · have hwritten : written lower t (i, b) = written lower s (i, a) := by
        simp only [written, ← hR.1, hpq.committed hp hq]
      simp only [observe, hans, hwritten, hR.1]

/-! ## Whole runs -/

/-- In a serial run, sessions hold nothing but the first commit of `process_deployment`. -/
theorem holds_of_serial {s : State} (h : Reach (step lower) Serial .init s) :
    s.Holds fun _ w u => w = .worker ∧ ∃ d, u = startValidation d := by
  refine reach_holds (K := fun w u => w = .worker ∧ ∃ d, u = startValidation d) h
    (fun d => ⟨rfl, d, rfl⟩) ?_
  rintro s i a w u hserial hsplit -
  have hnot : a.isSplit = false := hserial
  cases hsplit <;> simp [Action.isSplit] at hnot

/-- The commits of a serial run are fresh. -/
theorem freshCommit_of_serial {s : State} (h : Reach (step lower) Serial .init s)
    (p : ℕ × Action) : FreshCommit lower s p := by
  obtain ⟨i, a⟩ := p
  cases a with
  | commit =>
    have hheld := holds_of_serial h i
    show (s.locals i).Fresh lower s.shared
    cases hi : s.locals i with
    | api call u =>
      rw [hi] at hheld
      exact absurd (hheld _ u rfl).1 (by simp)
    | reaper u =>
      rw [hi] at hheld
      exact absurd (hheld _ u rfl).1 (by simp)
    | workerCommit claim u next =>
      rw [hi] at hheld
      exact Or.inl (hheld _ u rfl).2
    | _ => trivial
  | _ => trivial

/-- A serial run is one whose commits are all fresh. -/
theorem fresh_of_serial {s : State} {steps : List (State × (ℕ × Action))}
    (h : Trace (step lower) Serial .init steps s) :
    Trace (step lower) (FreshCommit lower) .init steps s := by
  induction h with
  | nil => exact .nil
  | snoc hr _ hs ih => exact ih.snoc (freshCommit_of_serial hr.reach _) hs

/-- The runs whose commits are all fresh are serializable: what is seen of them, and the databases
that they end in, are exactly those of serial runs. -/
theorem fresh_iff_serial (seen : List Observation) (db : Db) :
    (∃ steps s, Trace (step lower) (FreshCommit lower) .init steps s ∧ s.shared = db ∧
        observations (observe lower) steps = seen) ↔
      ∃ steps t, Trace (step lower) Serial .init steps t ∧ t.shared = db ∧
        observations (observe lower) steps = seen := by
  constructor
  · rintro ⟨steps, s, htrace, rfl, rfl⟩
    have hinit : State.SerializesTo .init .init := ⟨rfl, fun _ => .idle⟩
    obtain ⟨steps', t, htrace', hR, hobs⟩ :
        ∃ steps' t, Trace (step lower) Serial .init steps' t ∧ s.SerializesTo t ∧
          observations (observe lower) steps' = observations (observe lower) steps :=
      htrace.simulate hinit fun _ _ _ _ _ _ hR hok hs => step_matched hR hok hs
    exact ⟨steps', t, htrace', hR.1.symm, hobs⟩
  · rintro ⟨steps, t, htrace, hdb, hseen⟩
    exact ⟨steps, t, fresh_of_serial htrace, hdb, hseen⟩

end MlopsPlatform
