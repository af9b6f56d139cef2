import MlopsPlatform.Library.Transaction

/-!
# Programs that load a store

A loader stages rows, flushes when it needs the key of one, and commits once, at its end. `Loads` is
a triple for the part before the commit, in a session that has the store for itself. Its conditions
are about what the session has *pending*: the store with the changes that are flushed and those that
are only staged. It says what is pending when the program returns, what is known when it raises, and
that nothing is committed either way. There is a rule for each statement and for a loop, and
`Loads.commit` adds the commit: the store becomes what was pending, or stays as it was.
-/

namespace Transaction

section

variable {S P E α β γ δ : Type}

/-- The store with everything that a session has flushed or staged. -/
def Tx.pending (b : Backend S P E) (tx : Tx S P) : S :=
  (tx.flushed ++ tx.staged).foldl b.write tx.committed

/-- Run alone with `st` pending, the program returns with `Ret`, or it raises and `Exc` holds. It
commits nothing. -/
def Loads (b : Backend S P E) (st : S) (p : Program S P E α) (Ret : α → S → Prop) (Exc : Prop) :
    Prop :=
  ∀ tx : Tx S P, tx.active = true → tx.pending b = st →
    (p.solo b tx).2.committed = tx.committed ∧
      match p.solo b tx with
      | (.ok a, tx') => tx'.active = true ∧ Ret a (tx'.pending b)
      | (.error _, _) => Exc

/-! ## Statements -/

/-- Stage changes one after the other. -/
def addAll : List P → Program S P E Unit
  | [] => pure ()
  | c :: cs => do
    stage fun staged => staged ++ [c]
    addAll cs

/-- Stage a change and flush it; then read the store, where the change has its key. -/
def addFlush (e : E) (c : P) (key : S → α) : Program S P E α := do
  stage fun staged => staged ++ [c]
  flushExcept (raise e)
  let s ← query
  pure (key s)

/-! ## Rules -/

variable {b : Backend S P E} {st : S} {p : Program S P E α}
variable {Ret Ret' : α → S → Prop} {Exc Exc' : Prop}

/-- The rule of consequence. -/
theorem Loads.weaken (h : Loads b st p Ret Exc) (hret : ∀ a st', Ret a st' → Ret' a st')
    (hexc : Exc → Exc') : Loads b st p Ret' Exc' := by
  intro tx hactive hpending
  have hrun := h tx hactive hpending
  refine ⟨hrun.1, ?_⟩
  revert hrun
  rcases p.solo b tx with ⟨e | a, tx'⟩
  · exact fun hrun => hexc hrun.2
  · exact fun hrun => ⟨hrun.2.1, hret a _ hrun.2.2⟩

/-- A program that returns at once. -/
theorem Loads.pure {a : α} (h : Ret a st) : Loads b st (Pure.pure a) Ret Exc := by
  intro tx hactive hpending
  rw [Program.solo_pure]
  exact ⟨rfl, hactive, hpending ▸ h⟩

/-- An exception. -/
theorem Loads.raise {e : E} (h : Exc) : Loads b st (raise e) Ret Exc := by
  intro tx _ _
  rw [Program.solo_raise]
  exact ⟨rfl, h⟩

/-- The rule of sequence. -/
theorem Loads.bind (Mid : β → S → Prop) {q : Program S P E β} {f : β → Program S P E α}
    (hq : Loads b st q Mid Exc) (hf : ∀ x st', Mid x st' → Loads b st' (f x) Ret Exc) :
    Loads b st (q >>= f) Ret Exc := by
  intro tx hactive hpending
  have hrun := hq tx hactive hpending
  rw [Program.solo_bind]
  revert hrun
  rcases q.solo b tx with ⟨e | x, tx'⟩
  · exact fun hrun => ⟨hrun.1, hrun.2⟩
  · intro hrun
    obtain ⟨hcommitted, hnext⟩ := hf x _ hrun.2.2 tx' hrun.2.1 rfl
    exact ⟨hcommitted.trans hrun.1, hnext⟩

/-- A staged change is pending. -/
theorem Loads.stage {c : P} {f : Unit → Program S P E α}
    (h : Loads b (b.write st c) (f ()) Ret Exc) :
    Loads b st ((stage fun staged => staged ++ [c]) >>= f) Ret Exc := by
  refine .bind (fun _ st' => st' = b.write st c) ?_ fun _ _ hst' => hst' ▸ h
  rintro ⟨s, flushed, staged, written, active⟩ hactive hpending
  rw [Program.solo_stage]
  refine ⟨rfl, hactive, ?_⟩
  rw [Tx.pending, ← List.append_assoc, List.foldl_append, ← hpending]
  rfl

/-- Staged changes are pending. -/
theorem Loads.addAll {cs : List P} {f : Unit → Program S P E α}
    (h : Loads b (cs.foldl b.write st) (f ()) Ret Exc) :
    Loads b st (addAll cs >>= f) Ret Exc := by
  refine .bind (fun _ st' => st' = cs.foldl b.write st) ?_ fun _ _ hst' => hst' ▸ h
  clear h
  induction cs generalizing st with
  | nil => exact .pure rfl
  | cons c cs ih => exact .stage ih

/-- A flush raises if the store does not accept what is pending. What is read then is all that is
pending. -/
theorem Loads.addFlush {e : E} {c : P} {key : S → β} {f : β → Program S P E α}
    (hnext : b.accepts (b.write st c) = true →
      Loads b (b.write st c) (f (key (b.write st c))) Ret Exc)
    (hexc : b.accepts (b.write st c) = false → Exc) :
    Loads b st (addFlush e c key >>= f) Ret Exc := by
  refine .bind (fun k st' => k = key (b.write st c) ∧ st' = b.write st c ∧
    b.accepts (b.write st c) = true) ?_ ?_
  · refine .stage ?_
    rintro ⟨s, flushed, staged, written, active⟩ hactive hpending
    obtain rfl : active = true := hactive
    have hview : (flushed ++ staged).foldl b.write s = b.write st c := hpending
    simp only [Program.solo_bind, Program.solo_flushExcept, hview]
    cases haccepts : b.accepts (b.write st c) with
    | true =>
      simp only [if_true, Program.solo_query, Program.solo_pure, hview, true_and, and_true]
      rw [Tx.pending, List.append_nil, hview]
    | false =>
      simp only [Bool.false_eq_true, if_false, Program.solo_raise, true_and]
      exact hexc haccepts
  · rintro k st' ⟨rfl, rfl, haccepts⟩
    exact hnext haccepts

/-- A loop keeps an invariant of what is left to go through. -/
theorem Loads.foldlM {f : β → γ → Program S P E β} (Inv : List γ → β → S → Prop)
    (hstep : ∀ x xs acc st, Inv (x :: xs) acc st → Loads b st (f acc x) (Inv xs) Exc)
    (xs : List γ) (acc : β) (h : Inv xs acc st) : Loads b st (xs.foldlM f acc) (Inv []) Exc := by
  induction xs generalizing acc st with
  | nil => exact .pure h
  | cons x xs ih =>
    rw [List.foldlM_cons]
    exact .bind _ (hstep x xs acc st h) fun acc' st' h' => ih acc' h'

/-- The same for an invariant of what is already gone through. -/
theorem Loads.foldlM_before {f : β → γ → Program S P E β} (Inv : List γ → β → S → Prop)
    {xs : List γ} {acc : β} (h : Inv [] acc st)
    (hstep : ∀ before x rest acc st, xs = before ++ x :: rest → Inv before acc st →
      Loads b st (f acc x) (Inv (before ++ [x])) Exc) :
    Loads b st (xs.foldlM f acc) (Inv xs) Exc := by
  have hloop : Loads b st (xs.foldlM f acc)
      (fun acc st => ∃ before, xs = before ++ [] ∧ Inv before acc st) Exc := by
    refine .foldlM (fun rest acc st => ∃ before, xs = before ++ rest ∧ Inv before acc st) ?_ _ _
      ⟨[], rfl, h⟩
    rintro x rest acc st ⟨before, hxs, hinv⟩
    refine (hstep before x rest acc st hxs hinv).weaken (fun acc' st' hinv' => ?_) id
    exact ⟨before ++ [x], by rw [hxs, List.append_assoc, List.singleton_append], hinv'⟩
  refine hloop.weaken ?_ id
  rintro acc' st' ⟨before, hxs, hinv⟩
  rw [List.append_nil] at hxs
  exact hxs ▸ hinv

/-- A loop over records, each of which is malformed, is skipped, or adds an item to the store. If
what a record leads to is rejected, then so is what all of them lead to. -/
theorem Loads.foldlM_items {f : β → γ → Program S P E β} {item : γ → Option (Option δ)}
    (store : List δ → S) (Inv : List δ → β → Prop) {xs : List γ} {acc : β} (h : Inv [] acc)
    (hless : ∀ items more, b.accepts (store (items ++ more)) = true →
      b.accepts (store items) = true)
    (hstep : ∀ items x acc, Inv items acc →
      ((∀ o, item x = some o → b.accepts (store (items ++ o.toList)) = false) → Exc) →
        Loads b (store items) (f acc x) (fun acc' st' => ∃ o, item x = some o ∧
          Inv (items ++ o.toList) acc' ∧ st' = store (items ++ o.toList)) Exc)
    (hexc : (∀ x ∈ xs, (item x).isSome = true) →
      b.accepts (store (xs.filterMap fun x => (item x).join)) = false → Exc)
    (hmalformed : (¬∀ x ∈ xs, (item x).isSome = true) → Exc) :
    Loads b (store []) (xs.foldlM f acc) (fun acc' st' => (∀ x ∈ xs, (item x).isSome = true) ∧
      Inv (xs.filterMap fun x => (item x).join) acc' ∧
      st' = store (xs.filterMap fun x => (item x).join)) Exc := by
  -- The items of one more record.
  have hconcat : ∀ before x o, item x = some o →
      (before ++ [x]).filterMap (fun x => (item x).join) =
        before.filterMap (fun x => (item x).join) ++ o.toList := by
    intro before x o ho
    rw [List.filterMap_append]
    cases o <;> simp [ho]
  refine .foldlM_before (fun before acc st => (∀ x ∈ before, (item x).isSome = true) ∧
    Inv (before.filterMap fun x => (item x).join) acc ∧
    st = store (before.filterMap fun x => (item x).join)) ?_ ?_
  · exact ⟨fun x hx => absurd hx List.not_mem_nil, h, rfl⟩
  · rintro before x rest acc st hxs ⟨hall, hinv, rfl⟩
    refine (hstep _ x acc hinv fun hrejected => ?_).weaken ?_ id
    · by_cases hreadable : ∀ x ∈ xs, (item x).isSome = true
      · refine hexc hreadable ?_
        obtain ⟨o, ho⟩ := Option.isSome_iff_exists.mp
          (hreadable x (hxs ▸ List.mem_append_right _ List.mem_cons_self))
        have hrecord := hrejected o ho
        have hsplit : xs = (before ++ [x]) ++ rest := by
          rw [hxs, List.append_assoc, List.singleton_append]
        rw [Bool.eq_false_iff] at *
        refine fun haccepted => hrecord (hless _ (rest.filterMap fun x => (item x).join) ?_)
        rw [← hconcat before x o ho, ← List.filterMap_append, ← hsplit]
        exact haccepted
      · exact hmalformed hreadable
    · rintro acc' st' ⟨o, ho, hinv', rfl⟩
      rw [hconcat before x o ho]
      refine ⟨fun y hy => ?_, hinv', rfl⟩
      rcases List.mem_append.mp hy with hold | hnew
      · exact hall y hold
      · rw [List.mem_singleton.mp hnew, ho]
        rfl

/-- The commit: the store becomes what was pending, or it stays as it was. -/
theorem Loads.commit (h : Loads b st p Ret Exc) (e : E) (tx : Tx S P) (hactive : tx.active = true)
    (hpending : tx.pending b = st) :
    match (p >>= fun a => commitExcept (Transaction.raise e) >>= fun _ =>
      Pure.pure a).solo b tx with
    | (.ok a, tx') => Ret a tx'.committed ∧ b.accepts tx'.committed = true
    | (.error _, tx') => tx'.committed = tx.committed ∧
        (Exc ∨ ∃ a st', Ret a st' ∧ b.accepts st' = false) := by
  have hrun := h tx hactive hpending
  rw [Program.solo_bind]
  revert hrun
  rcases p.solo b tx with ⟨e' | a, s, flushed, staged, written, active⟩
  · exact fun hrun => ⟨hrun.1, Or.inl hrun.2⟩
  · rintro ⟨hcommitted, hactive', hret⟩
    obtain rfl : active = true := hactive'
    obtain rfl : s = tx.committed := hcommitted
    simp only [Program.solo_bind, Program.solo_commitExcept]
    cases haccepts : b.accepts ((flushed ++ staged).foldl b.write tx.committed) with
    | true =>
      simp only [if_true, Program.solo_pure]
      exact ⟨hret, haccepts⟩
    | false =>
      simp only [Bool.false_eq_true, if_false, Program.solo_raise, true_and]
      exact Or.inr ⟨a, _, hret, haccepts⟩

end

end Transaction
