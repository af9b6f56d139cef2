import Mathlib.Algebra.GroupWithZero.Nat
import Mathlib.Data.List.Count
import Mathlib.Logic.Function.Basic
import Mathlib.Tactic.SplitIfs

/-!
# Transition systems and interleaved sessions

A transition system is a partial step function. `Reach step ok s₀ s` says that `s` is reached from
`s₀` by steps that each meet `ok` in the state in which they are taken, so that one system serves
every class of runs: `ok` says which steps a class allows, or the condition that a conditional
result asks of them. `Trace` is a run together with its steps, for results about what has happened
on the way: how often a kind of step was taken, or that some earlier step led to the state.

`Config` is the state of sessions that share a store. Each step belongs to one session and may
change the store and that session's local state. `Reach.rely_guarantee` is the rule for them: an
invariant of the store, an assertion for each session's local state, and a relation `R` that every
step keeps the store within and that no assertion is broken by.
-/

namespace Transition

universe u v w x

/-! ## Runs -/

section Runs

variable {σ : Type u} {α : Type v} {step : σ → α → Option σ} {ok : σ → α → Prop} {s₀ s t : σ}

/-- The states reached from `s₀` by steps that each meet `ok` in the state they are taken in. -/
inductive Reach (step : σ → α → Option σ) (ok : σ → α → Prop) (s₀ : σ) : σ → Prop
  /-- The run without steps. -/
  | refl : Reach step ok s₀ s₀
  /-- A run and one more step. -/
  | tail {s s' : σ} {a : α} :
    Reach step ok s₀ s → ok s a → step s a = some s' → Reach step ok s₀ s'

/-- What holds at the start and is kept by every step of a run holds in every state reached. -/
theorem Reach.invariant {I : σ → Prop} (h : Reach step ok s₀ s) (h₀ : I s₀)
    (hstep : ∀ s a s', Reach step ok s₀ s → I s → ok s a → step s a = some s' → I s') : I s := by
  induction h with
  | refl => exact h₀
  | tail hr ha hs ih => exact hstep _ _ _ hr ih ha hs

/-- A reflexive and transitive relation that every step of a run is in relates its two ends. -/
theorem Reach.rel {R : σ → σ → Prop} (h : Reach step ok s t) (hrefl : ∀ s, R s s)
    (htrans : ∀ a b c, R a b → R b c → R a c)
    (hstep : ∀ s₁ a s₂, Reach step ok s s₁ → ok s₁ a → step s₁ a = some s₂ → R s₁ s₂) : R s t :=
  h.invariant (hrefl s) fun _ _ _ hr ih ha hs => htrans _ _ _ ih (hstep _ _ _ hr ha hs)

/-- Two runs one after the other are a run. -/
theorem Reach.trans (h : Reach step ok s₀ s) (h' : Reach step ok s t) : Reach step ok s₀ t := by
  induction h' with
  | refl => exact h
  | tail _ ha hs ih => exact ih.tail ha hs

/-- What does not hold at the start, and what a step brings about only where something else holds,
goes back to a state on the way in which that held. -/
theorem Reach.exists_source {P Q : σ → Prop} (h : Reach step ok s₀ s) (h₀ : ¬P s₀)
    (hstep : ∀ s a s', step s a = some s' → P s' → P s ∨ Q s') (hs : P s) :
    ∃ t, Reach step ok s₀ t ∧ Reach step ok t s ∧ Q t := by
  induction h with
  | refl => exact absurd hs h₀
  | tail hr ha hstep' ih =>
    rcases hstep _ _ _ hstep' hs with hbefore | hq
    · obtain ⟨t, ht, hts, hq⟩ := ih hbefore
      exact ⟨t, ht, hts.tail ha hstep', hq⟩
    · exact ⟨_, hr.tail ha hstep', .refl, hq⟩

/-- A run whose steps meet a condition meets every weaker one. -/
theorem Reach.mono {ok' : σ → α → Prop} (h : Reach step ok s₀ s) (hok : ∀ s a, ok s a → ok' s a) :
    Reach step ok' s₀ s := by
  induction h with
  | refl => exact .refl
  | tail _ ha hs ih => exact ih.tail (hok _ _ ha) hs

/-- A run whose steps meet a condition meets every other that follows from it in the states that
such runs reach. -/
theorem Reach.mono_of_reach {ok' : σ → α → Prop} (h : Reach step ok s₀ s)
    (hok : ∀ s a, Reach step ok s₀ s → Reach step ok' s₀ s → ok s a → ok' s a) :
    Reach step ok' s₀ s := by
  induction h with
  | refl => exact .refl
  | tail hr ha hs ih => exact ih.tail (hok _ _ hr ih ha) hs

/-- Run a list of actions, leaving out those that are not enabled or not allowed. -/
def exec (step : σ → α → Option σ) (ok : σ → α → Prop) [∀ s a, Decidable (ok s a)] :
    σ → List α → σ
  | s, [] => s
  | s, a :: as => exec step ok (if ok s a then (step s a).getD s else s) as

/-- The state that a list of actions ends in is reached. -/
theorem Reach.exec [∀ s a, Decidable (ok s a)] (as : List α) (h : Reach step ok s₀ s) :
    Reach step ok s₀ (exec step ok s as) := by
  induction as generalizing s with
  | nil => exact h
  | cons a as ih =>
    -- An action that is not allowed, or not enabled, leaves the state as it is.
    refine ih ?_
    split_ifs with ha
    · cases hs : step s a with
      | none => exact h
      | some s' => exact h.tail ha hs
    · exact h

/-- The state that a list of actions ends in is reached from the one it starts in. -/
theorem exec_reach (step : σ → α → Option σ) (ok : σ → α → Prop) [∀ s a, Decidable (ok s a)]
    (s₀ : σ) (as : List α) : Reach step ok s₀ (exec step ok s₀ as) := Reach.exec as .refl

/-- A run with its steps: the actions in their order, each with the state that it was taken in. -/
inductive Trace (step : σ → α → Option σ) (ok : σ → α → Prop) (s₀ : σ) : List (σ × α) → σ → Prop
  /-- The run without steps. -/
  | nil : Trace step ok s₀ [] s₀
  /-- A run and one more step. -/
  | snoc {steps : List (σ × α)} {s s' : σ} {a : α} :
    Trace step ok s₀ steps s → ok s a → step s a = some s' →
      Trace step ok s₀ (steps ++ [(s, a)]) s'

/-- The last state of a trace is reached. -/
theorem Trace.reach {steps : List (σ × α)} (h : Trace step ok s₀ steps s) :
    Reach step ok s₀ s := by
  induction h with
  | nil => exact .refl
  | snoc _ ha hs ih => exact ih.tail ha hs

/-- The rule for as long as a condition holds: what holds when it does at the start, and is kept by
every step from a state in which it holds to another one, holds if the condition does all along. -/
theorem Trace.holds_while {P I : σ → Prop} {steps : List (σ × α)} (h : Trace step ok s₀ steps s)
    (hP : ∀ x ∈ steps, P x.1) (hPs : P s) (h₀ : P s₀ → I s₀)
    (hstep : ∀ s a s', Reach step ok s₀ s → P s → I s → ok s a → step s a = some s' → P s' → I s') :
    I s := by
  induction h with
  | nil => exact h₀ hPs
  | @snoc steps s s' a hr ha hs ih =>
    have hprior : ∀ x ∈ steps, P x.1 := fun x hx => hP x (List.mem_append_left _ hx)
    have hlast : P s := hP (s, a) (by simp)
    exact hstep s a s' hr.reach hlast (ih hprior hlast) ha hs hPs

/-- A state that is reached is the last one of a trace. -/
theorem Reach.exists_trace (h : Reach step ok s₀ s) : ∃ steps, Trace step ok s₀ steps s := by
  induction h with
  | refl => exact ⟨[], .nil⟩
  | tail _ ha hs ih =>
    obtain ⟨steps, hsteps⟩ := ih
    exact ⟨_, hsteps.snoc ha hs⟩

/-- The steps that a list of actions takes, each with the state that it is taken in. -/
def execSteps (step : σ → α → Option σ) (ok : σ → α → Prop) [∀ s a, Decidable (ok s a)] :
    σ → List α → List (σ × α)
  | _, [] => []
  | s, a :: as =>
    if ok s a then
      match step s a with
      | some s' => (s, a) :: execSteps step ok s' as
      | none => execSteps step ok s as
    else execSteps step ok s as

/-- A list of actions extends a run by the steps that it takes. -/
theorem Trace.exec [∀ s a, Decidable (ok s a)] {steps : List (σ × α)} (as : List α)
    (h : Trace step ok s₀ steps s) :
    Trace step ok s₀ (steps ++ execSteps step ok s as) (exec step ok s as) := by
  induction as generalizing s steps with
  | nil =>
    rw [execSteps, List.append_nil]
    exact h
  | cons a as ih =>
    rw [execSteps, Transition.exec]
    split_ifs with ha
    · cases hs : step s a with
      | none => exact ih h
      | some s' =>
        have hrest := ih (h.snoc ha hs)
        rw [List.append_assoc] at hrest
        exact hrest
    · exact ih h

/-- A list of actions is a run with the steps that it takes. -/
theorem exec_trace (step : σ → α → Option σ) (ok : σ → α → Prop) [∀ s a, Decidable (ok s a)]
    (s₀ : σ) (as : List α) : Trace step ok s₀ (execSteps step ok s₀ as) (exec step ok s₀ as) :=
  Trace.exec as .nil

/-- A step of a trace was taken in a state that is reached, and the run went on from its result. -/
theorem Trace.of_mem {steps : List (σ × α)} {a : α} (h : Trace step ok s₀ steps s)
    (hmem : (t, a) ∈ steps) :
    Reach step ok s₀ t ∧ ok t a ∧ ∃ t', step t a = some t' ∧ Reach step ok t' s := by
  induction h with
  | nil => exact absurd hmem List.not_mem_nil
  | snoc hr ha hs ih =>
    rcases List.mem_append.mp hmem with hmem | hmem
    · obtain ⟨ht, hat, t', ht', hrest⟩ := ih hmem
      exact ⟨ht, hat, t', ht', hrest.tail ha hs⟩
    · obtain ⟨rfl, rfl⟩ := Prod.mk.inj (List.mem_singleton.mp hmem)
      exact ⟨hr.reach, ha, _, hs, .refl⟩

/-- A step of a trace ends a shorter one, whose last state it was taken in. -/
theorem Trace.exists_before {steps : List (σ × α)} {x : σ × α} (h : Trace step ok s₀ steps s)
    (hmem : x ∈ steps) : ∃ before, Trace step ok s₀ before x.1 := by
  induction h with
  | nil => exact absurd hmem List.not_mem_nil
  | snoc hr _ _ ih =>
    rcases List.mem_append.mp hmem with hmem | hmem
    · exact ih hmem
    · obtain rfl := List.mem_singleton.mp hmem
      exact ⟨_, hr⟩

/-- A step of a trace was taken in the state that the steps before it lead to. -/
theorem Trace.of_append {before after : List (σ × α)} {x : σ × α}
    (h : Trace step ok s₀ (before ++ x :: after) s) : Trace step ok s₀ before x.1 := by
  generalize hsteps : before ++ x :: after = steps at h
  induction h generalizing after with
  | nil => exact absurd hsteps (by simp)
  | @snoc steps s s' a hr ha hs ih =>
    rcases List.eq_nil_or_concat after with rfl | ⟨after', y, rfl⟩
    · obtain ⟨rfl, hlast⟩ := List.append_inj' hsteps rfl
      obtain rfl := List.singleton_inj.mp hlast
      exact hr
    · rw [List.concat_eq_append, ← List.cons_append, ← List.append_assoc] at hsteps
      exact ih (List.append_inj' hsteps rfl).1

/-- The progress rule: if every run that is not in a final state can go on, and no run goes on
forever, then there is a run to a final state. -/
theorem exists_trace_final {F : σ → Prop} {n : ℕ}
    (hbound : ∀ steps s, Trace step ok s₀ steps s → steps.length ≤ n)
    (hprogress : ∀ steps s, Trace step ok s₀ steps s → ¬F s → ∃ a s', ok s a ∧ step s a = some s') :
    ∃ steps s, Trace step ok s₀ steps s ∧ F s := by
  by_contra hnone
  -- Otherwise there are runs of every length.
  have hlong : ∀ k, ∃ steps s, Trace step ok s₀ steps s ∧ steps.length = k := by
    intro k
    induction k with
    | zero => exact ⟨[], s₀, .nil, rfl⟩
    | succ k ih =>
      obtain ⟨steps, s, htrace, hlength⟩ := ih
      obtain ⟨a, s', ha, hs⟩ := hprogress steps s htrace fun hF => hnone ⟨steps, s, htrace, hF⟩
      exact ⟨_, s', htrace.snoc ha hs, by simp [hlength]⟩
  obtain ⟨steps, s, htrace, hlength⟩ := hlong (n + 1)
  have hle := hbound steps s htrace
  omega

/-- The counting rule: what starts at zero and goes up by one with each step of a kind, and with no
other step, is how often a step of the kind was taken. -/
theorem Trace.countP_eq {steps : List (σ × α)} {f : σ → ℕ} {q : σ × α → Bool}
    (h : Trace step ok s₀ steps s) (h₀ : f s₀ = 0)
    (hstep : ∀ s a s', Reach step ok s₀ s → ok s a → step s a = some s' →
      f s' = f s + if q (s, a) then 1 else 0) : f s = steps.countP q := by
  induction h with
  | nil => exact h₀
  | snoc hr ha hs ih =>
    rw [hstep _ _ _ hr.reach ha hs, ih, List.countP_append, List.countP_singleton]

/-- The charging rule: if every step of a kind is charged to one of the accounts, then there are no
more of these steps than charges in all. -/
theorem countP_le_sum {ι : Type v} {accounts : List ι} {charged : ι → σ × α → Bool}
    {q : σ × α → Bool} {steps : List (σ × α)}
    (h : ∀ x ∈ steps, q x = true → ∃ i ∈ accounts, charged i x = true) :
    steps.countP q ≤ (accounts.map fun i => steps.countP (charged i)).sum := by
  induction steps with
  | nil => exact Nat.zero_le _
  | cons x steps ih =>
    have hrest := ih fun y hy => h y (List.mem_cons_of_mem x hy)
    -- The first step adds one for each account that it is charged to.
    have hsplit : (accounts.map fun i => (x :: steps).countP (charged i)).sum =
        (accounts.map fun i => steps.countP (charged i)).sum +
          accounts.countP fun i => charged i x := by
      clear h ih hrest
      induction accounts with
      | nil => rfl
      | cons i accounts ih =>
        simp only [List.map_cons, List.sum_cons, List.countP_cons] at ih ⊢
        omega
    rw [hsplit, List.countP_cons]
    refine Nat.add_le_add hrest ?_
    split_ifs with hq
    · obtain ⟨i, hi, hcharged⟩ := h x List.mem_cons_self hq
      exact List.countP_pos_iff.mpr ⟨i, hi, hcharged⟩
    · exact Nat.zero_le _

/-- The splitting rule: where every step of a kind is of one of two others, and of one only, and no
other step is of either, there are as many steps of the kind as of the two together. -/
theorem countP_eq_add {q q₁ q₂ : σ × α → Bool} {steps : List (σ × α)}
    (h : ∀ x ∈ steps,
      (if q x then 1 else 0) = (if q₁ x then 1 else 0) + if q₂ x then 1 else 0) :
    steps.countP q = steps.countP q₁ + steps.countP q₂ := by
  induction steps with
  | nil => rfl
  | cons x steps ih =>
    have hrest := ih fun y hy => h y (List.mem_cons_of_mem x hy)
    have hx := h x List.mem_cons_self
    simp only [List.countP_cons]
    omega

/-- The violation rule: if a bad step breaks what holds at the start and every other step keeps it,
then it holds in all states on the way exactly when no step of the run is bad. -/
theorem Trace.forall_iff {P : σ → Prop} {bad : σ × α → Prop} {steps : List (σ × α)}
    (h : Trace step ok s₀ steps s) (h₀ : P s₀)
    (hkeep : ∀ s a s', Reach step ok s₀ s → ok s a → step s a = some s' → ¬bad (s, a) → P s → P s')
    (hbreak : ∀ s a s', Reach step ok s₀ s → ok s a → step s a = some s' → bad (s, a) → ¬P s') :
    ((∀ x ∈ steps, P x.1) ∧ P s) ↔ ∀ x ∈ steps, ¬bad x := by
  induction h with
  | nil => simp [h₀]
  | @snoc steps s s' a hr ha hs ih =>
    simp only [List.forall_mem_append, List.forall_mem_singleton]
    constructor
    · rintro ⟨hall, hlast⟩
      exact ⟨ih.mp hall, fun hbad => hbreak s a s' hr.reach ha hs hbad hlast⟩
    · rintro ⟨hgood, hlast⟩
      have hall := ih.mpr hgood
      exact ⟨hall, hkeep s a s' hr.reach ha hs hlast hall.2⟩

/-- Every step of one kind is followed, later in the run, by a step of another. -/
def Followed (p q : σ × α → Bool) (steps : List (σ × α)) : Prop :=
  ∀ before x after, steps = before ++ x :: after → p x = true → ∃ y ∈ after, q y = true

/-- The empty run has no step to follow. -/
theorem followed_nil {p q : σ × α → Bool} : Followed p q [] := by
  intro before x after h
  exact absurd h (by simp)

/-- A run that ends in a step of the first kind has nothing after it. -/
theorem not_followed_snoc {p q : σ × α → Bool} {steps : List (σ × α)} {x : σ × α}
    (hp : p x = true) : ¬Followed p q (steps ++ [x]) := by
  intro h
  obtain ⟨y, hy, -⟩ := h steps x [] rfl hp
  exact absurd hy List.not_mem_nil

/-- A step of the second kind follows all that came before. -/
theorem followed_snoc {p q : σ × α → Bool} {steps : List (σ × α)} {x : σ × α} (hp : p x = false)
    (hq : q x = true) : Followed p q (steps ++ [x]) := by
  intro before y after h hy
  rcases List.eq_nil_or_concat after with rfl | ⟨after', z, rfl⟩
  · -- The last step is not of the first kind.
    obtain ⟨-, hxy⟩ := List.append_inj' h rfl
    obtain rfl := List.singleton_inj.mp hxy
    rw [hp] at hy
    exact absurd hy Bool.false_ne_true
  · rw [List.concat_eq_append, ← List.cons_append, ← List.append_assoc] at h
    obtain ⟨-, hxz⟩ := List.append_inj' h rfl
    obtain rfl := List.singleton_inj.mp hxz
    exact ⟨x, by simp, hq⟩

/-- A step of neither kind changes nothing. -/
theorem followed_snoc_iff {p q : σ × α → Bool} {steps : List (σ × α)} {x : σ × α}
    (hp : p x = false) (hq : q x = false) :
    Followed p q (steps ++ [x]) ↔ Followed p q steps := by
  constructor
  · intro h before y after hsteps hy
    obtain ⟨z, hz, hqz⟩ := h before y (after ++ [x]) (by rw [hsteps]; simp) hy
    rcases List.mem_append.mp hz with hz | hz
    · exact ⟨z, hz, hqz⟩
    · obtain rfl := List.mem_singleton.mp hz
      rw [hq] at hqz
      exact absurd hqz Bool.false_ne_true
  · intro h before y after hsteps hy
    rcases List.eq_nil_or_concat after with rfl | ⟨after', z, rfl⟩
    · obtain ⟨-, hxy⟩ := List.append_inj' hsteps rfl
      obtain rfl := List.singleton_inj.mp hxy
      rw [hp] at hy
      exact absurd hy Bool.false_ne_true
    · rw [List.concat_eq_append, ← List.cons_append, ← List.append_assoc] at hsteps
      obtain ⟨hbefore, -⟩ := List.append_inj' hsteps rfl
      obtain ⟨w, hw, hqw⟩ := h before y after' hbefore hy
      exact ⟨w, by rw [List.concat_eq_append]; exact List.mem_append_left _ hw, hqw⟩

/-- A run is taken apart at a state in which a condition holds: these are the steps since then. -/
def Since (step : σ → α → Option σ) (ok : σ → α → Prop) (s₀ : σ) (P : σ → Prop)
    (steps : List (σ × α)) (s : σ) (after : List (σ × α)) : Prop :=
  ∃ before t, steps = before ++ after ∧ Trace step ok s₀ before t ∧ Trace step ok t after s ∧ P t

/-- No steps were taken since now. -/
theorem Trace.since {P : σ → Prop} {steps : List (σ × α)} (h : Trace step ok s₀ steps s)
    (hP : P s) : Since step ok s₀ P steps s [] :=
  ⟨steps, s, (List.append_nil _).symm, h, .nil, hP⟩

/-- A step is taken since then. -/
theorem Since.snoc {P : σ → Prop} {steps after : List (σ × α)} {s' : σ} {a : α}
    (h : Since step ok s₀ P steps s after) (ha : ok s a) (hs : step s a = some s') :
    Since step ok s₀ P (steps ++ [(s, a)]) s' (after ++ [(s, a)]) := by
  obtain ⟨before, t, rfl, hbefore, hafter, hP⟩ := h
  exact ⟨before, t, List.append_assoc _ _ _, hbefore, hafter.snoc ha hs, hP⟩

/-- What held then holds still, unless one of the steps that can break it was taken since. -/
theorem Since.holds_or {P : σ → Prop} {q : σ × α → Bool} {steps after : List (σ × α)}
    (h : Since step ok s₀ P steps s after)
    (hstep : ∀ s a s', Reach step ok s₀ s → ok s a → step s a = some s' → P s → q (s, a) = false →
      P s') : P s ∨ ∃ x ∈ after, q x = true := by
  obtain ⟨before, t, -, hbefore, hafter, hP⟩ := h
  induction hafter with
  | nil => exact Or.inl hP
  | @snoc after s s' a hr ha hs ih =>
    rcases ih with hholds | ⟨x, hx, hq⟩
    · cases hq : q (s, a) with
      | false => exact Or.inl (hstep s a s' (hbefore.reach.trans hr.reach) ha hs hholds hq)
      | true => exact Or.inr ⟨(s, a), by simp, hq⟩
    · exact Or.inr ⟨x, List.mem_append_left _ hx, hq⟩

end Runs

/-! ## Sessions over a shared store -/

section Sessions

/-- A store shared by sessions, and the local state of each session. -/
structure Config (ι : Type u) (D : Type v) (L : Type w) where
  /-- The shared store. -/
  shared : D
  /-- What each session holds. -/
  locals : ι → L

variable {ι : Type u} {D : Type v} {L : Type w} {α : Type x} [DecidableEq ι]
variable {act : D → L → α → Option (D × L)}

/-- One step of session `p.1`, with action `p.2`. -/
def Config.step (act : D → L → α → Option (D × L)) (s : Config ι D L) (p : ι × α) :
    Option (Config ι D L) :=
  (act s.shared (s.locals p.1) p.2).map fun r => ⟨r.1, Function.update s.locals p.1 r.2⟩

/-- What a step of a session is: its own action on the store and on its own local state. -/
theorem Config.step_eq_some {s s' : Config ι D L} {p : ι × α} :
    Config.step act s p = some s' ↔ ∃ d l, act s.shared (s.locals p.1) p.2 = some (d, l) ∧
      s' = ⟨d, Function.update s.locals p.1 l⟩ := by
  simp only [Config.step, Option.map_eq_some_iff, Prod.exists]
  constructor
  · rintro ⟨d, l, h, rfl⟩
    exact ⟨d, l, h, rfl⟩
  · rintro ⟨d, l, h, rfl⟩
    exact ⟨d, l, h, rfl⟩

/-- After a step of session `i`, a session is `i` with its new local state, or has kept its own. -/
theorem Config.locals_update (s : Config ι D L) (d : D) (i j : ι) (l : L) :
    j = i ∧ (Config.mk d (Function.update s.locals i l)).locals j = l ∨
      j ≠ i ∧ (Config.mk d (Function.update s.locals i l)).locals j = s.locals j := by
  by_cases hji : j = i
  · subst hji
    exact Or.inl ⟨rfl, Function.update_self _ _ _⟩
  · exact Or.inr ⟨hji, Function.update_of_ne hji _ _⟩

/-- The rely-guarantee rule. If every step that finds the invariant and its own session's assertion
keeps both and changes the store within `R`, and `R` breaks no assertion, then the invariant and
all assertions hold in every state reached. -/
theorem Reach.rely_guarantee {ok : Config ι D L → ι × α → Prop} {s₀ s : Config ι D L}
    {I : D → Prop} {P : D → L → Prop} {R : D → D → Prop}
    (h : Reach (Config.step act) ok s₀ s) (hI : I s₀.shared)
    (hP : ∀ i, P s₀.shared (s₀.locals i))
    (hstep : ∀ s i a d l, ok s (i, a) → I s.shared → P s.shared (s.locals i) →
      act s.shared (s.locals i) a = some (d, l) → I d ∧ P d l ∧ R s.shared d)
    (hstable : ∀ d d' l, R d d' → P d l → P d' l) :
    I s.shared ∧ ∀ i, P s.shared (s.locals i) := by
  refine h.invariant (I := fun s => I s.shared ∧ ∀ i, P s.shared (s.locals i)) ⟨hI, hP⟩ ?_
  rintro s ⟨i, a⟩ s' - ⟨hIs, hPs⟩ hok hs
  obtain ⟨d, l, hact, rfl⟩ := Config.step_eq_some.mp hs
  obtain ⟨hI', hP', hR⟩ := hstep s i a d l hok hIs (hPs i) hact
  refine ⟨hI', fun j => ?_⟩
  -- The session that steps has its new assertion, and the others keep theirs through `R`.
  rcases s.locals_update d i j l with ⟨-, hl⟩ | ⟨-, hl⟩
  · rw [hl]
    exact hP'
  · rw [hl]
    exact hstable _ _ _ hR (hPs j)

end Sessions

end Transition
