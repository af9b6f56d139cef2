import MlopsPlatform.Api.Routes

/-!
# The calls of a run

Runs of the platform in which every call that is made meets a condition, whatever else is
interleaved with it. `reach_made` is the invariant rule for them: `I` is an invariant of the
database, and `J` is what a staged unit of work brings along from its reads to its commit, through
changes of the database within `R`. The first commit of `process_deployment` brings it along from
the claim.
-/

namespace MlopsPlatform.Api

open Transition

/-- The steps of the platform in which every call that is made meets a condition. -/
def CallsMeet (P : Call → Prop) (_ : State) (p : ℕ × Action) : Prop :=
  ∀ call, p.2 = .start call ∨ p.2 = .call call → P call

variable {lower : String → String} {P : Call → Prop}

/-- An API call reads in the action that makes it. -/
theorem makes_of_reads {db : Db} {l : Session} {a : Action} {call : Call} {u : UnitOfWork}
    (h : Reads lower db l a (.api call) u) : a = .start call ∨ a = .call call := by
  cases h with
  | start hc => exact Or.inl rfl
  | call hc => exact Or.inr rfl

/-- What the reads of a step stage was staged by a call that meets the condition, or not by a call.
-/
theorem made_of_reads {s : State} {i : ℕ} {a : Action} {w : Writer} {u : UnitOfWork}
    (hok : CallsMeet P s (i, a)) (h : Reads lower s.shared (s.locals i) a w u) :
    (∃ call, P call ∧ call.Returns lower s.shared u) ∨
      w.isApi = false ∧ Staged lower s.shared w u := by
  cases w with
  | api call => exact Or.inl ⟨call, hok call (makes_of_reads h), h.returns⟩
  | worker => exact Or.inr ⟨rfl, h.staged⟩
  | reaper => exact Or.inr ⟨rfl, h.staged⟩

/-- The invariant rule for runs in which every call meets a condition. -/
theorem reach_made {I : Db → Prop} {J : Db → UnitOfWork → Prop} {R : Db → Db → Prop} {s : State}
    (h : Reach (step lower) (CallsMeet P) .init s) (hI : I .empty)
    (hcall : ∀ db call u, I db → P call → call.Returns lower db u → J db u)
    (hwork : ∀ db w u, I db → w.isApi = false → Staged lower db w u → J db u)
    (hclaimed : ∀ db x workerId now locked, I db → claimOne db workerId now locked = some x →
      J (db.write (.updateDeployments [x] [])) (startValidation x.assigned))
    (hwrite : ∀ db u, I db → J db u → I (db.write u) ∧ R db (db.write u))
    (hrefl : ∀ db, R db db) (hstable : ∀ db db' u, R db db' → J db u → J db' u) : I s.shared := by
  refine (h.rely_guarantee (P := fun db (l : Session) => ∀ w u, l.held = some (w, u) → J db u)
    (R := R) hI (State.init_holds fun db _ u => J db u) ?_
    fun db db' l hR hl w u hu => hstable db db' u hR (hl w u hu)).1
  intro s i a db' l' hok hIs hheld hact
  have hread : ∀ w u, Reads lower s.shared (s.locals i) a w u → J s.shared u := by
    intro w u hr
    rcases made_of_reads hok hr with ⟨call, hP, hreturns⟩ | ⟨hw, hstaged⟩
    · exact hcall _ call u hIs hP hreturns
    · exact hwork _ w u hIs hw hstaged
  rcases act_planned hact with ⟨rfl, hplan⟩ | ⟨w, u, hcom, hplan, rfl, -⟩
  · exact ⟨hIs, fun w u hu => hread w u (hplan.keep_cases hu).2, hrefl _⟩
  · have hu : J s.shared u := (committed_cases hcom).elim (hheld w u) (hread w u)
    obtain ⟨hI', hR⟩ := hwrite _ u hIs hu
    refine ⟨hI', fun w' v hv => ?_, hR⟩
    generalize s.locals i = l at hplan
    -- Only a claim leaves something staged.
    cases hplan with
    | claim hx =>
      obtain ⟨-, rfl⟩ := Prod.mk.inj (Option.some.inj hv)
      exact hclaimed _ _ _ _ _ hIs hx
    | work hs => exact absurd hv (by simp)
    | commitWork => exact absurd hv (by simp)
    | _ => exact absurd hv (by simp [Session.held])

end MlopsPlatform.Api
