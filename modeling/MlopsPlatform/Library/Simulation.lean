import MlopsPlatform.Library.Transition

/-!
# Forward simulation

A relation between the states of two transition systems is a simulation if every step of the first
is matched: by a step of the second with the same observation, or, if it is not observed, by no step
at all. Then every run of the first is matched by a run of the second in which the same things are
observed in the same order (`Trace.simulate`).
-/

namespace Transition

universe u v w x y

variable {σ : Type u} {α : Type v} {τ : Type w} {β : Type x} {ω : Type y}
variable {step : σ → α → Option σ} {ok : σ → α → Prop} {s₀ : σ}
variable {step' : τ → β → Option τ} {ok' : τ → β → Prop} {t₀ : τ}

/-- What is observed of a run, in its order. -/
def observations (observe : σ × α → Option ω) (steps : List (σ × α)) : List ω :=
  steps.filterMap observe

/-- Nothing is observed of the run without steps. -/
@[simp]
theorem observations_nil (observe : σ × α → Option ω) : observations observe [] = [] := rfl

/-- The last step is observed last. -/
theorem observations_snoc (observe : σ × α → Option ω) (steps : List (σ × α)) (x : σ × α) :
    observations observe (steps ++ [x]) = observations observe steps ++ (observe x).toList := by
  rw [observations, List.filterMap_append]
  cases hx : observe x <;> simp [observations, hx]

/-- A step of the first system is matched from a state of the second. -/
def Matched (step' : τ → β → Option τ) (ok' : τ → β → Prop) (R : σ → τ → Prop)
    (observe : σ × α → Option ω) (observe' : τ × β → Option ω) (s : σ) (a : α) (s' : σ) (t : τ) :
    Prop :=
  (observe (s, a) = none ∧ R s' t) ∨
    ∃ b t', ok' t b ∧ step' t b = some t' ∧ observe' (t, b) = observe (s, a) ∧ R s' t'

/-- The simulation rule: if every step that is taken in related states is matched, then every run
from related states is matched by one with the same observations. -/
theorem Trace.simulate {R : σ → τ → Prop} {observe : σ × α → Option ω}
    {observe' : τ × β → Option ω} {steps : List (σ × α)} {s : σ} (h : Trace step ok s₀ steps s)
    (h₀ : R s₀ t₀)
    (hstep : ∀ s a s' t, Reach step ok s₀ s → Reach step' ok' t₀ t → R s t → ok s a →
      step s a = some s' → Matched step' ok' R observe observe' s a s' t) :
    ∃ steps' t, Trace step' ok' t₀ steps' t ∧ R s t ∧
      observations observe' steps' = observations observe steps := by
  induction h with
  | nil => exact ⟨[], t₀, .nil, h₀, rfl⟩
  | @snoc steps s s' a hr ha hs ih =>
    obtain ⟨steps', t, htrace, hR, hobs⟩ := ih
    rcases hstep s a s' t hr.reach htrace.reach hR ha hs with ⟨hsilent, hR'⟩ | hmatch
    · refine ⟨steps', t, htrace, hR', ?_⟩
      rw [observations_snoc, hsilent, hobs, Option.toList_none, List.append_nil]
    · obtain ⟨b, t', hb, ht, hobserve, hR'⟩ := hmatch
      refine ⟨steps' ++ [(t, b)], t', htrace.snoc hb ht, hR', ?_⟩
      rw [observations_snoc, observations_snoc, hobserve, hobs]

end Transition
