import Mathlib.Data.Nat.Basic
import Mathlib.Logic.Relation

/-!
# Descending pointers

A partial function `next` is a pointer that an element may hold to another one, and `Leads next a b`
says that `b` is reached from `a` by following pointers. Pointers that lead to elements of smaller
measure come to an end (`exists_end`).
-/

namespace Descent

universe u

variable {α : Type u} {next : α → Option α} {a : α}

/-- Following pointers from one element leads to another one. -/
def Leads (next : α → Option α) : α → α → Prop := Relation.ReflTransGen fun a b => next a = some b

/-- Where pointers stay within a set and lead to smaller measures, following them from an element of
the set comes to an end in the set. -/
theorem exists_end (m : α → ℕ) {S : α → Prop}
    (hstep : ∀ a b, S a → next a = some b → S b ∧ m b < m a) (ha : S a) :
    ∃ b, Leads next a b ∧ next b = none ∧ S b := by
  -- The induction is on the measure of the element that the pointers have come to.
  induction hm : m a using Nat.strong_induction_on generalizing a with
  | _ n ih =>
    subst hm
    cases hnext : next a with
    | none => exact ⟨a, .refl, hnext, ha⟩
    | some b =>
      obtain ⟨hb, hlt⟩ := hstep a b ha hnext
      obtain ⟨c, hbc, hend, hc⟩ := ih (m b) hlt hb rfl
      exact ⟨c, Relation.ReflTransGen.head hnext hbc, hend, hc⟩

end Descent
