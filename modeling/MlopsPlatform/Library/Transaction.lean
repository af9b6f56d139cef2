import Mathlib.Data.Nat.Basic

/-!
# Programs that work in a transaction

A session reads a store, stages changes, flushes them into its transaction, and commits. A `Program`
is a program over these statements, which goes on from what a statement returns: a flush or a commit
returns whether the store has accepted the changes. If it has not, the transaction is rolled back,
and the session takes no other statement than a rollback. What other sessions commit comes in
between: `others c` is what they make of the store before the statement that is taken at clock `c`.

`Undoes` is a Hoare triple for programs that may refuse what they are asked for: if the program ends
with a refusal, its session has committed nothing, and holds nothing that it could commit later.
There is a rule for each statement, and one for their sequence. `Undoes.alone` is what such a triple
comes to: after a refusal the store is what the other sessions alone have made of it. `solo` is the
run of a program that nobody interferes with, computed statement by statement.
-/

namespace Transaction

/-! ## Programs -/

/-- How changes are written to a store, which stores are accepted, and the exception of a session
whose transaction has failed. -/
structure Backend (S P E : Type) where
  /-- The store once a change is written to it. -/
  write : S → P → S
  /-- The constraints accept the store. -/
  accepts : S → Bool
  /-- The exception of a statement after a failure that was not rolled back. -/
  inactive : E

/-- A session and the store that it works on. -/
structure Tx (S P : Type) where
  /-- What the store holds for everyone. -/
  committed : S
  /-- The changes that are flushed and not yet committed. -/
  flushed : List P
  /-- The changes that are staged and not yet flushed. -/
  staged : List P
  /-- The changes that the session has committed. -/
  written : List P
  /-- No statement has failed since the last rollback. -/
  active : Bool

/-- A new session. -/
def Tx.start {S P : Type} (s : S) : Tx S P := ⟨s, [], [], [], true⟩

/-- A program of statements in a session. -/
inductive Program (S P E α : Type)
  /-- Return. -/
  | done (a : α)
  /-- Raise an exception. -/
  | raise (e : E)
  /-- Read the store with the changes that are flushed. -/
  | query (next : S → Program S P E α)
  /-- Change what is staged. -/
  | stage (f : List P → List P) (next : Program S P E α)
  /-- Flush what is staged. -/
  | flush (next : Bool → Program S P E α)
  /-- Flush what is staged, and commit. -/
  | commit (next : Bool → Program S P E α)
  /-- Roll back. -/
  | rollback (next : Program S P E α)

section

variable {S P E α β : Type}

namespace Program

/-- One program after the other. -/
def bind : Program S P E α → (α → Program S P E β) → Program S P E β
  | done a, f => f a
  | raise e, _ => raise e
  | query next, f => query fun s => (next s).bind f
  | stage g next, f => stage g (next.bind f)
  | flush next, f => flush fun accepted => (next accepted).bind f
  | commit next, f => commit fun accepted => (next accepted).bind f
  | rollback next, f => rollback (next.bind f)

instance : Monad (Program S P E) where
  pure := done
  bind := bind

end Program

/-! ## What the statements do -/

/-- How a program ends: what it returns or raises, at which clock, and its session. -/
structure Ended (S P E α : Type) where
  outcome : Except E α
  clock : ℕ
  tx : Tx S P

namespace Tx

variable (b : Backend S P E) (tx : Tx S P)

/-- The store with the changes that are flushed. -/
def view : S := tx.flushed.foldl b.write tx.committed

/-- The store after what others have committed. -/
def meanwhile (f : S → S) : Tx S P := { tx with committed := f tx.committed }

/-- Write what is staged into the transaction, if the store accepts it. -/
def flush? : Option (Tx S P) :=
  let flushed := { tx with flushed := tx.flushed ++ tx.staged, staged := [] }
  if b.accepts (flushed.view b) then some flushed else none

/-- Flush, and make the changes part of the store. -/
def commit? : Option (Tx S P) :=
  (tx.flush? b).map fun flushed =>
    { flushed with
      committed := flushed.view b
      flushed := []
      written := flushed.written ++ flushed.flushed }

/-- The session after a rejected flush: the transaction is rolled back. -/
def fail : Tx S P := { tx with flushed := [], staged := [], active := false }

/-- The session after a rollback. -/
def rolledBack : Tx S P := { tx with flushed := [], staged := [], active := true }

end Tx

/-- A flush commits nothing. -/
theorem Tx.flush?_eq_some {b : Backend S P E} {tx tx' : Tx S P} (h : tx.flush? b = some tx') :
    tx' = { tx with flushed := tx.flushed ++ tx.staged, staged := [] } := by
  simp only [flush?] at h
  split_ifs at h
  exact (Option.some.inj h).symm

/-- Run a program, where `others` commit before each of its statements on the store. -/
def Program.run (b : Backend S P E) (others : ℕ → S → S) :
    Program S P E α → ℕ → Tx S P → Ended S P E α
  | done a, c, tx => ⟨.ok a, c, tx⟩
  | raise e, c, tx => ⟨.error e, c, tx⟩
  | query next, c, tx =>
    let tx := tx.meanwhile (others c)
    if tx.active then (next (tx.view b)).run b others (c + 1) tx
    else ⟨.error b.inactive, c + 1, tx⟩
  | stage f next, c, tx => next.run b others c { tx with staged := f tx.staged }
  | flush next, c, tx =>
    let tx := tx.meanwhile (others c)
    if tx.active then
      match tx.flush? b with
      | some flushed => (next true).run b others (c + 1) flushed
      | none => (next false).run b others (c + 1) tx.fail
    else ⟨.error b.inactive, c + 1, tx⟩
  | commit next, c, tx =>
    let tx := tx.meanwhile (others c)
    if tx.active then
      match tx.commit? b with
      | some committed => (next true).run b others (c + 1) committed
      | none => (next false).run b others (c + 1) tx.fail
    else ⟨.error b.inactive, c + 1, tx⟩
  | rollback next, c, tx => next.run b others (c + 1) (tx.meanwhile (others c)).rolledBack

/-! ## The statements as programs -/

/-- Read the store with the changes that are flushed. -/
def query : Program S P E S := .query .done

/-- Raise an exception. -/
def raise (e : E) : Program S P E α := .raise e

/-- Raise an exception if a condition holds. -/
def raiseIf (condition : Prop) [Decidable condition] (e : E) : Program S P E Unit :=
  if condition then raise e else pure ()

/-- Change what is staged. -/
def stage (f : List P → List P) : Program S P E Unit := .stage f (.done ())

/-- Roll back. -/
def rollback : Program S P E Unit := .rollback (.done ())

/-- Flush; if the changes are rejected, go on with the handler. -/
def flushExcept (handler : Program S P E Unit) : Program S P E Unit :=
  .flush fun accepted => if accepted then .done () else handler

/-- Commit; if the changes are rejected, go on with the handler. -/
def commitExcept (handler : Program S P E Unit) : Program S P E Unit :=
  .commit fun accepted => if accepted then .done () else handler

/-- A sequence runs the second program from where the first one has ended, unless it has raised. -/
theorem Program.run_bind (b : Backend S P E) (others : ℕ → S → S) (p : Program S P E α)
    (f : α → Program S P E β) (c : ℕ) (tx : Tx S P) :
    (p >>= f).run b others c tx =
      match p.run b others c tx with
      | ⟨.ok a, c', tx'⟩ => (f a).run b others c' tx'
      | ⟨.error e, c', tx'⟩ => ⟨.error e, c', tx'⟩ := by
  have hbind : ∀ p : Program S P E α, p >>= f = p.bind f := fun _ => rfl
  rw [hbind]
  induction p generalizing c tx with
  | done a => rfl
  | raise e => rfl
  | query next ih =>
    simp only [bind, run]
    split
    · exact ih _ _ _
    · rfl
  | stage g next ih => exact ih _ _
  | flush next ih =>
    simp only [bind, run]
    split
    · split
      · exact ih _ _ _
      · exact ih _ _ _
    · rfl
  | commit next ih =>
    simp only [bind, run]
    split
    · split
      · exact ih _ _ _
      · exact ih _ _ _
    · rfl
  | rollback next ih => exact ih _ _

/-! ## Programs that undo their changes -/

/-- The session has committed nothing. -/
def Tx.Unwritten (tx : Tx S P) : Prop := tx.written = []

/-- The session has committed nothing, and holds nothing that it could commit. -/
structure Tx.Blank (tx : Tx S P) : Prop where
  written : tx.written = []
  flushed : tx.flushed = []
  staged : tx.staged = []

/-- Run from a session that meets the precondition, the program returns with the postcondition, or
it raises; and if the exception is a refusal, then the session is left blank. -/
def Undoes (b : Backend S P E) (refused : E → Prop) (Pre : Tx S P → Prop) (p : Program S P E α)
    (Post : α → Tx S P → Prop) : Prop :=
  ∀ others c tx, Pre tx →
    match p.run b others c tx with
    | ⟨.ok a, _, tx'⟩ => Post a tx'
    | ⟨.error e, _, tx'⟩ => refused e → tx'.Blank

section

variable {b : Backend S P E} {refused : E → Prop} {Pre Pre' : Tx S P → Prop}
variable {p : Program S P E α} {Post Post' : α → Tx S P → Prop}

/-- The rule of consequence. -/
theorem Undoes.weaken (h : Undoes b refused Pre p Post) (hpre : ∀ tx, Pre' tx → Pre tx)
    (hpost : ∀ a tx, Post a tx → Post' a tx) : Undoes b refused Pre' p Post' := by
  intro others c tx htx
  have hrun := h others c tx (hpre tx htx)
  revert hrun
  rcases p.run b others c tx with ⟨a | a, c', tx'⟩
  · exact id
  · exact hpost a tx'

/-- A program that returns at once. -/
theorem Undoes.pure {a : α} (h : ∀ tx, Pre tx → Post a tx) :
    Undoes b refused Pre (Pure.pure a) Post := fun _ _ tx htx => h tx htx

/-- A refusal of a blank session. -/
theorem Undoes.raise {e : E} (h : ∀ tx, Pre tx → refused e → tx.Blank) :
    Undoes b refused Pre (raise e) Post := fun _ _ tx htx => h tx htx

/-- The rule of sequence. -/
theorem Undoes.bind {Mid : β → Tx S P → Prop} {q : Program S P E β}
    {f : β → Program S P E α} (hq : Undoes b refused Pre q Mid)
    (hf : ∀ x, Undoes b refused (Mid x) (f x) Post) : Undoes b refused Pre (q >>= f) Post := by
  intro others c tx htx
  have hrun := hq others c tx htx
  rw [Program.run_bind]
  revert hrun
  rcases q.run b others c tx with ⟨e | x, c', tx'⟩
  · exact id
  · exact hf x others c' tx'

/-- A read keeps what others cannot change. -/
theorem Undoes.query (hstable : ∀ tx f, Pre tx → Pre (tx.meanwhile f))
    (hinactive : ¬refused b.inactive) :
    Undoes b refused Pre query fun _ => Pre := by
  intro others c tx htx
  simp only [Transaction.query, Program.run]
  split_ifs
  · exact hstable tx _ htx
  · exact fun h => absurd h hinactive

/-- A check that refuses while the session is blank. -/
theorem Undoes.raiseIf {condition : Prop} [Decidable condition] {e : E} :
    Undoes b refused Tx.Blank (raiseIf condition e) fun _ => Tx.Blank := by
  unfold Transaction.raiseIf
  split_ifs
  · exact .raise fun _ htx _ => htx
  · exact .pure fun _ htx => htx

/-- Changes may be staged as long as nothing is committed. -/
theorem Undoes.stage {f : List P → List P} (hpre : ∀ tx, Pre tx → tx.Unwritten) :
    Undoes b refused Pre (stage f) fun _ => Tx.Unwritten := fun _ _ tx htx => hpre tx htx

/-- A rollback leaves nothing in a session that has committed nothing. -/
theorem Undoes.rollback : Undoes b refused Tx.Unwritten rollback fun _ => Tx.Blank :=
  fun _ _ _ htx => ⟨htx, rfl, rfl⟩

/-- A flush, with a handler for the rejection. -/
theorem Undoes.flushExcept {handler : Program S P E Unit} (hinactive : ¬refused b.inactive)
    (hhandler : Undoes b refused Tx.Blank handler fun _ => Tx.Unwritten) :
    Undoes b refused Tx.Unwritten (flushExcept handler) fun _ => Tx.Unwritten := by
  intro others c tx htx
  simp only [Transaction.flushExcept, Program.run]
  by_cases hactive : (tx.meanwhile (others c)).active = true
  · rw [if_pos hactive]
    cases hflush : (tx.meanwhile (others c)).flush? b with
    | some flushed => exact (congrArg Tx.written (Tx.flush?_eq_some hflush)).trans htx
    | none => exact hhandler others (c + 1) (tx.meanwhile (others c)).fail ⟨htx, rfl, rfl⟩
  · rw [if_neg hactive]
    exact fun h => absurd h hinactive

/-- A commit, with a handler for the rejection. -/
theorem Undoes.commitExcept {Mid : Tx S P → Prop} {handler : Program S P E Unit}
    (hinactive : ¬refused b.inactive) (hfail : ∀ tx f, Pre tx → Mid (tx.meanwhile f).fail)
    (hhandler : Undoes b refused Mid handler fun _ _ => True) :
    Undoes b refused Pre (commitExcept handler) fun _ _ => True := by
  intro others c tx htx
  simp only [Transaction.commitExcept, Program.run]
  by_cases hactive : (tx.meanwhile (others c)).active = true
  · rw [if_pos hactive]
    cases hcommit : (tx.meanwhile (others c)).commit? b with
    | some committed => trivial
    | none => exact hhandler others (c + 1) _ (hfail tx (others c) htx)
  · rw [if_neg hactive]
    exact fun h => absurd h hinactive

end

/-! ## What a refusal leaves -/

/-- What the others alone make of a store until a clock. -/
def alone (others : ℕ → S → S) (s : S) : ℕ → S
  | 0 => s
  | c + 1 => others c (alone others s c)

/-- A session that has committed nothing finds the store as the others alone have made it. -/
theorem Program.run_alone {b : Backend S P E} {others : ℕ → S → S} {s : S}
    (p : Program S P E α) {c : ℕ} {tx : Tx S P}
    (h : tx.written = [] → tx.committed = alone others s c) :
    (p.run b others c tx).tx.written = [] →
      (p.run b others c tx).tx.committed = alone others s (p.run b others c tx).clock := by
  -- What the others commit before a statement is the next step of what they do alone.
  have hmeanwhile : ∀ {c : ℕ} {tx : Tx S P}, (tx.written = [] → tx.committed = alone others s c) →
      tx.written = [] → others c tx.committed = alone others s (c + 1) := fun h hwritten =>
    congrArg (others _) (h hwritten)
  induction p generalizing c tx with
  | done a => exact h
  | raise e => exact h
  | stage f next ih => exact ih h
  | rollback next ih => exact ih (hmeanwhile h)
  | query next ih =>
    simp only [run]
    split_ifs
    · exact ih _ (hmeanwhile h)
    · exact hmeanwhile h
  | flush next ih =>
    simp only [run]
    split_ifs
    · cases hflush : (tx.meanwhile (others c)).flush? b with
      | some flushed =>
        obtain rfl := Tx.flush?_eq_some hflush
        exact ih _ (hmeanwhile h)
      | none => exact ih _ (hmeanwhile h)
    · exact hmeanwhile h
  | commit next ih =>
    simp only [run]
    split_ifs
    · cases hcommit : (tx.meanwhile (others c)).commit? b with
      | some committed =>
        obtain ⟨flushed, hflush, rfl⟩ := Option.map_eq_some_iff.mp hcommit
        obtain rfl := Tx.flush?_eq_some hflush
        refine ih _ fun hwritten => ?_
        -- A session that has committed nothing has had nothing to commit.
        obtain ⟨hbefore, hnothing⟩ := List.append_eq_nil_iff.mp hwritten
        exact (congrArg (List.foldl b.write _) hnothing).trans (hmeanwhile h hbefore)
      | none => exact ih _ (hmeanwhile h)
    · exact hmeanwhile h

/-- After a refusal the session is blank, and the store is what the others alone have made of it. -/
theorem Undoes.alone {b : Backend S P E} {refused : E → Prop} {p : Program S P E α}
    {Post : α → Tx S P → Prop} (h : Undoes b refused Tx.Blank p Post) (others : ℕ → S → S) (s : S)
    {e : E} (hraised : (p.run b others 0 (.start s)).outcome = .error e) (he : refused e) :
    (p.run b others 0 (.start s)).tx.Blank ∧
      (p.run b others 0 (.start s)).tx.committed =
        alone others s (p.run b others 0 (.start s)).clock := by
  have hblank : (p.run b others 0 (.start s)).tx.Blank := by
    have hrun := h others 0 (.start s) ⟨rfl, rfl, rfl⟩
    revert hrun hraised
    rcases p.run b others 0 (.start s) with ⟨e' | a, c', tx'⟩
    · intro hraised hrun
      obtain rfl := Except.error.inj hraised
      exact hrun he
    · exact fun hraised => absurd hraised (by simp)
  exact ⟨hblank, p.run_alone (fun _ => rfl) hblank.written⟩

/-- A store that nobody else commits to stays as it is. -/
theorem alone_id (s : S) (c : ℕ) : alone (fun _ => id) s c = s := by
  induction c with
  | zero => rfl
  | succ c ih => exact ih

/-! ## Programs that nobody interferes with -/

namespace Program

/-- Run a program in a session that has the store for itself. -/
def solo (b : Backend S P E) (p : Program S P E α) (tx : Tx S P) : Except E α × Tx S P :=
  ((p.run b (fun _ => id) 0 tx).outcome, (p.run b (fun _ => id) 0 tx).tx)

/-- Without others it does not matter at which clock a program starts. -/
theorem run_id_congr (b : Backend S P E) (p : Program S P E α) (c c' : ℕ) (tx : Tx S P) :
    (p.run b (fun _ => id) c tx).outcome = (p.run b (fun _ => id) c' tx).outcome ∧
      (p.run b (fun _ => id) c tx).tx = (p.run b (fun _ => id) c' tx).tx := by
  induction p generalizing c c' tx with
  | done a => exact ⟨rfl, rfl⟩
  | raise e => exact ⟨rfl, rfl⟩
  | stage f next ih => exact ih _ _ _
  | rollback next ih => exact ih _ _ _
  | query next ih =>
    simp only [run]
    split_ifs
    · exact ih _ _ _ _
    · exact ⟨rfl, rfl⟩
  | flush next ih =>
    simp only [run]
    split_ifs
    · cases (tx.meanwhile id).flush? b with
      | some flushed => exact ih _ _ _ _
      | none => exact ih _ _ _ _
    · exact ⟨rfl, rfl⟩
  | commit next ih =>
    simp only [run]
    split_ifs
    · cases (tx.meanwhile id).commit? b with
      | some committed => exact ih _ _ _ _
      | none => exact ih _ _ _ _
    · exact ⟨rfl, rfl⟩

/-- What a program comes to alone, from whichever clock. -/
theorem solo_eq (b : Backend S P E) (p : Program S P E α) (c : ℕ) (tx : Tx S P) :
    ((p.run b (fun _ => id) c tx).outcome, (p.run b (fun _ => id) c tx).tx) = p.solo b tx :=
  Prod.ext (run_id_congr b p c 0 tx).1 (run_id_congr b p c 0 tx).2

variable {b : Backend S P E} {s : S} {flushed staged written : List P} {active : Bool}

/-- One program after the other. -/
@[simp]
theorem solo_bind (p : Program S P E α) (f : α → Program S P E β) (tx : Tx S P) :
    (p >>= f).solo b tx =
      match p.solo b tx with
      | (.ok a, tx') => (f a).solo b tx'
      | (.error e, tx') => (.error e, tx') := by
  simp only [solo, run_bind]
  rcases p.run b (fun _ => id) 0 tx with ⟨e | a, c, tx'⟩
  · rfl
  · exact solo_eq b (f a) c tx'

/-- A program that returns at once. -/
@[simp]
theorem solo_pure (a : α) (tx : Tx S P) :
    (pure a : Program S P E α).solo b tx = (.ok a, tx) := rfl

/-- An exception leaves the session as it is. -/
@[simp]
theorem solo_raise (e : E) (tx : Tx S P) :
    (Transaction.raise e : Program S P E α).solo b tx = (.error e, tx) := rfl

/-- A read sees what is flushed, and not what is only staged. -/
@[simp]
theorem solo_query : Transaction.query.solo b ⟨s, flushed, staged, written, true⟩ =
    (.ok (flushed.foldl b.write s), ⟨s, flushed, staged, written, true⟩) := rfl

/-- Staging touches neither the store nor the transaction. -/
@[simp]
theorem solo_stage (f : List P → List P) :
    (Transaction.stage f).solo b ⟨s, flushed, staged, written, active⟩ =
      (.ok (), ⟨s, flushed, f staged, written, active⟩) := rfl

/-- A rollback discards what is flushed and what is staged. -/
@[simp]
theorem solo_rollback : Transaction.rollback.solo b ⟨s, flushed, staged, written, active⟩ =
    (.ok (), ⟨s, [], [], written, true⟩) := rfl

/-- A flush is rejected by the store that its changes would lead to. -/
@[simp]
theorem solo_flushExcept (handler : Program S P E Unit) :
    (flushExcept handler).solo b ⟨s, flushed, staged, written, true⟩ =
      if b.accepts ((flushed ++ staged).foldl b.write s) then
        (.ok (), ⟨s, flushed ++ staged, [], written, true⟩)
      else handler.solo b ⟨s, [], [], written, false⟩ := by
  rw [solo]
  cases haccepts : b.accepts ((flushed ++ staged).foldl b.write s) with
  | true =>
    simp only [flushExcept, run, Tx.meanwhile, Tx.flush?, Tx.view, id, if_true, haccepts]
  | false =>
    simp only [flushExcept, run, Tx.meanwhile, Tx.flush?, Tx.view, id, if_true, haccepts,
      Bool.false_eq_true, if_false]
    exact solo_eq b handler _ _

/-- A commit is rejected by the store that its changes would lead to. -/
@[simp]
theorem solo_commitExcept (handler : Program S P E Unit) :
    (commitExcept handler).solo b ⟨s, flushed, staged, written, true⟩ =
      if b.accepts ((flushed ++ staged).foldl b.write s) then
        (.ok (), ⟨(flushed ++ staged).foldl b.write s, [], [],
          written ++ (flushed ++ staged), true⟩)
      else handler.solo b ⟨s, [], [], written, false⟩ := by
  rw [solo]
  cases haccepts : b.accepts ((flushed ++ staged).foldl b.write s) with
  | true =>
    simp only [commitExcept, run, Tx.meanwhile, Tx.commit?, Tx.flush?, Tx.view, id, if_true,
      haccepts, Option.map_some]
  | false =>
    simp only [commitExcept, run, Tx.meanwhile, Tx.commit?, Tx.flush?, Tx.view, id, if_true,
      haccepts, Bool.false_eq_true, if_false, Option.map_none]
    exact solo_eq b handler _ _

end Program

end

end Transaction
