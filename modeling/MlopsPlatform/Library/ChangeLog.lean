import Mathlib.Data.List.Chain
import Mathlib.Data.List.Nodup

/-!
# Change logs

A log kept beside a value, with an entry for each change of it. An entry records the value before
(`src`, none for the entry of the creation) and after (`dst`). `Replays` says that a log leads from
the start value along allowed changes to a value: what an audit trail must do to be believed.
-/

namespace ChangeLog

universe u v

variable {ε : Type u} {σ : Type v} {src : ε → Option σ} {dst : ε → σ} {start : σ} {R : σ → σ → Prop}
variable {log : List ε} {s : σ}

/-- A log leads from the start value along changes in `R` to a value. -/
inductive Replays (src : ε → Option σ) (dst : ε → σ) (start : σ) (R : σ → σ → Prop) :
    List ε → σ → Prop
  /-- The log of a value that was created and never changed. -/
  | created {e : ε} : src e = none → dst e = start → Replays src dst start R [e] start
  /-- A log and the entry of one more change. -/
  | changed {log : List ε} {s : σ} {e : ε} :
    Replays src dst start R log s → src e = some s → R s (dst e) →
      Replays src dst start R (log ++ [e]) (dst e)

/-- A log begins with the creation. -/
theorem Replays.head (h : Replays src dst start R log s) :
    ∃ e rest, log = e :: rest ∧ src e = none ∧ dst e = start := by
  induction h with
  | created hsrc hdst => exact ⟨_, [], rfl, hsrc, hdst⟩
  | @changed log s e _ _ _ ih =>
    obtain ⟨e₀, rest, rfl, hsrc, hdst⟩ := ih
    exact ⟨e₀, rest ++ [e], rfl, hsrc, hdst⟩

/-- The last entry of a log has the value after it. -/
theorem Replays.getLast? (h : Replays src dst start R log s) : log.getLast?.map dst = some s := by
  cases h with
  | created hsrc hdst => simp [hdst]
  | changed _ _ _ => simp

/-- Each entry of a log goes on from the one before it, by an allowed change. -/
theorem Replays.isChain (h : Replays src dst start R log s) :
    log.IsChain fun e f => src f = some (dst e) ∧ R (dst e) (dst f) := by
  induction h with
  | created _ _ => exact List.isChain_singleton _
  | @changed log s e hlog hsrc hmove ih =>
    rw [List.isChain_append]
    refine ⟨ih, List.isChain_singleton _, ?_⟩
    intro x hx y hy
    -- The last entry so far ends in `s`, where the new one begins.
    have hlast := hlog.getLast?
    rw [Option.mem_def.mp hx] at hlast
    obtain rfl : dst x = s := Option.some.inj hlast
    obtain rfl : e = y := by simpa using hy
    exact ⟨hsrc, hmove⟩

/-- Every entry of a log is the creation or an allowed change. -/
theorem Replays.entry (h : Replays src dst start R log s) {e : ε} (he : e ∈ log) :
    (src e = none ∧ dst e = start) ∨ ∃ before, src e = some before ∧ R before (dst e) := by
  induction h with
  | created hsrc hdst =>
    obtain rfl := List.mem_singleton.mp he
    exact Or.inl ⟨hsrc, hdst⟩
  | @changed log s f _ hsrc hmove ih =>
    rcases List.mem_append.mp he with he | he
    · exact ih he
    · obtain rfl := List.mem_singleton.mp he
      exact Or.inr ⟨s, hsrc, hmove⟩

section Measure

variable {f : σ → ℕ} (hR : ∀ a b, R a b → f a < f b)

include hR

/-- Where every change goes up in a measure, no entry is above the value after the log. -/
theorem Replays.le_of_mem (h : Replays src dst start R log s) {e : ε} (he : e ∈ log) :
    f (dst e) ≤ f s := by
  induction h with
  | created _ hdst =>
    obtain rfl := List.mem_singleton.mp he
    rw [hdst]
  | @changed log s g _ _ hmove ih =>
    rcases List.mem_append.mp he with he | he
    · have hle := ih he
      have hlt := hR _ _ hmove
      omega
    · obtain rfl := List.mem_singleton.mp he
      exact le_rfl

/-- Where every change goes up in a measure, no value comes twice. -/
theorem Replays.nodup (h : Replays src dst start R log s) : (log.map dst).Nodup := by
  induction h with
  | created _ _ => simp
  | @changed log s e hlog _ hmove ih =>
    rw [List.map_append, List.map_singleton]
    refine ih.append (List.nodup_singleton _) ?_
    -- Every entry so far is at most `s` in the measure, and the new one is above it.
    intro x hx hxe
    obtain ⟨g, hg, rfl⟩ := List.mem_map.mp hx
    have hle := hlog.le_of_mem hR hg
    have hlt := hR _ _ hmove
    rw [List.mem_singleton.mp hxe] at hle
    omega

end Measure

end ChangeLog
