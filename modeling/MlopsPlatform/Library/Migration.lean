import Mathlib.Data.List.Nodup
import MlopsPlatform.Library.Ddl
import MlopsPlatform.Library.Transition

/-!
# Chains of migrations

A database carries the revision of its schema. A migration leads from one revision to the next one,
and its script for the way back may be in error. A command runs the scripts of several migrations in
one transaction: all of them, or none. Between commands the rows change in any way, as long as they
are placed in the tables there are.

A chain is checked once, on catalogs (`Chain`). From this it follows, for all runs and all rows,
that the catalog is a function of the revision, that an upgrade succeeds and leaves all rows as they
are, what a downgrade does, and which revision is never left (`atRevision_of_reach`,
`upgradeToHead_spec`, `downgradeOne_spec`, `version_of_reach`).
-/

namespace Ddl

open Transition

/-- A migration. -/
structure Migration where
  revision : String
  /-- The revision that it follows. -/
  downRevision : Option String
  upgrade : List Operation
  downgrade : List Operation
  deriving DecidableEq

/-- A database with the revision that it is at. -/
structure Versioned where
  version : Option String
  database : Database

/-- The empty database. -/
def Versioned.empty : Versioned := ⟨none, .empty, fun _ => []⟩

section

variable (versions : List Migration)

/-- The migration that follows a revision. -/
def next (version : Option String) : Option Migration :=
  versions.find? fun m => m.downRevision = version

/-- The migration that leads to a revision. -/
def current (version : Option String) : Option Migration :=
  versions.find? fun m => some m.revision = version

/-- The migrations that lead to a revision, the last ones of them. -/
def lineage : ℕ → Option String → List Migration
  | 0, _ => []
  | n + 1, version =>
    match current versions version with
    | some m => lineage n m.downRevision ++ [m]
    | none => []

/-- What the migrations up to a revision make of an empty catalog. -/
def catalogAt (version : Option String) : Catalog :=
  (Catalog.empty.run ((lineage versions versions.length version).flatMap Migration.upgrade)).getD
    .empty

/-- The revision that the upgrades from a revision end at. -/
def walk : ℕ → Option String → Option (Option String)
  | 0, version => if (next versions version).isNone then some version else none
  | n + 1, version =>
    match next versions version with
    | some m => walk n (some m.revision)
    | none => some version

/-! ## Commands -/

/-- Run the next migration. -/
def Versioned.upgradeOne (s : Versioned) : Option Versioned :=
  (next versions s.version).bind fun m =>
    (s.database.run m.upgrade).map fun d => ⟨some m.revision, d⟩

/-- Run the way back of the last migration. -/
def Versioned.downgradeOne (s : Versioned) : Option Versioned :=
  (current versions s.version).bind fun m =>
    (s.database.run m.downgrade).map fun d => ⟨m.downRevision, d⟩

/-- Run all migrations that are pending. -/
def Versioned.upgradeToHead : ℕ → Versioned → Option Versioned
  | 0, s => if (next versions s.version).isNone then some s else none
  | n + 1, s =>
    match next versions s.version with
    | some _ => (s.upgradeOne versions).bind (upgradeToHead n)
    | none => some s

/-- Repeat what can fail. -/
def times (f : Versioned → Option Versioned) : ℕ → Versioned → Option Versioned
  | 0, s => some s
  | n + 1, s => (f s).bind (times f n)

/-- What happens to the database. -/
inductive Command
  | upgradeToHead
  | upgrade (n : ℕ)
  | downgrade (n : ℕ)
  /-- Its sessions write rows. -/
  | write (rows : Rows)

/-- One command, which is one transaction. -/
def Versioned.step (s : Versioned) : Command → Option Versioned
  | .upgradeToHead => s.upgradeToHead versions versions.length
  | .upgrade n => times (Versioned.upgradeOne versions) n s
  | .downgrade n => times (Versioned.downgradeOne versions) n s
  | .write rows => some { s with database := { s.database with rows } }

end

/-- Sessions write to the tables and columns that there are. -/
def Places (s : Versioned) : Command → Prop
  | .write rows => WellPlaced s.database.catalog rows
  | _ => True

/-! ## Chains that are checked -/

/-- What is checked of a chain on catalogs. There is no way back from one of its revisions. -/
structure Chain (versions : List Migration) (last : Option String) : Prop where
  /-- The empty database is at no revision. -/
  base : catalogAt versions none = .empty
  /-- A migration follows another one, or is the first. -/
  linked : ∀ m ∈ versions, m.downRevision ∈ none :: versions.map fun m => some m.revision
  /-- No two of them follow the same one. -/
  linear : (versions.map Migration.downRevision).Nodup
  /-- A migration adds to the catalog of the revision that it follows. -/
  upgrades : ∀ m ∈ versions, harmless [] [] m.upgrade = true ∧
    (catalogAt versions m.downRevision).run m.upgrade = some (catalogAt versions (some m.revision))
  /-- Its way back drops what it has added. That of the last one is in error. -/
  downgrades : ∀ m ∈ versions,
    if some m.revision = last then (catalogAt versions (some m.revision)).run m.downgrade = none
    else dropsOnly m.downgrade = true ∧ (catalogAt versions (some m.revision)).run m.downgrade =
      some (catalogAt versions m.downRevision)

/-- The catalog is that of the revision, and the rows are in their place. -/
structure AtRevision (versions : List Migration) (s : Versioned) : Prop where
  known : s.version ∈ none :: versions.map fun m => some m.revision
  catalog : s.database.catalog = catalogAt versions s.version
  rows : WellPlaced s.database.catalog s.database.rows

section

variable {versions : List Migration} {last : Option String} {s s' : Versioned}

/-- A migration is the one that follows the revision before it. -/
theorem next_downRevision (hchain : Chain versions last) {m : Migration} (hm : m ∈ versions) :
    next versions m.downRevision = some m := by
  have hsome : (next versions m.downRevision).isSome = true :=
    List.find?_isSome.mpr ⟨m, hm, decide_eq_true rfl⟩
  obtain ⟨m', hm'⟩ := Option.isSome_iff_exists.mp hsome
  have hsame : m'.downRevision = m.downRevision := of_decide_eq_true (List.find?_some hm' :)
  obtain rfl :=
    List.inj_on_of_nodup_map hchain.linear (List.mem_of_find?_eq_some hm') hm hsame
  exact hm'

/-- The next migration succeeds, and leaves all rows as they are. -/
theorem upgradeOne_spec (hchain : Chain versions last) (hs : AtRevision versions s) {m : Migration}
    (hm : next versions s.version = some m) :
    ∃ s', s.upgradeOne versions = some s' ∧ s'.version = some m.revision ∧
      s'.database.rows = s.database.rows ∧ AtRevision versions s' := by
  obtain ⟨version, c, rows⟩ := s
  obtain ⟨-, hcatalog, hrows⟩ := hs
  dsimp only at hcatalog hrows hm
  obtain rfl : m.downRevision = version := of_decide_eq_true (List.find?_some hm :)
  obtain ⟨hharmless, hrun⟩ := hchain.upgrades m (List.mem_of_find?_eq_some hm)
  rw [← hcatalog] at hrun
  obtain ⟨hrun', hplaced⟩ := run_of_harmless hharmless hrun hrows (by simp) (by simp)
  have hmem : some m.revision ∈ none :: versions.map fun m => some m.revision :=
    List.mem_cons_of_mem _ (List.mem_map.mpr ⟨m, List.mem_of_find?_eq_some hm, rfl⟩)
  refine ⟨⟨some m.revision, catalogAt versions (some m.revision), rows⟩, ?_, rfl, rfl, hmem, rfl,
    hplaced⟩
  rw [Versioned.upgradeOne, hm, Option.bind_some, hrun', Option.map_some]

/-- From every revision but the last one there is a way back, which leaves the rows of the tables
that remain. -/
theorem downgradeOne_spec (hchain : Chain versions last) (hs : AtRevision versions s)
    (hversion : s.version ≠ last) {m : Migration} (hm : current versions s.version = some m) :
    ∃ s', s.downgradeOne versions = some s' ∧ s'.version = m.downRevision ∧
      (∀ t ∈ s'.database.catalog.tables, s'.database.rows t.name = s.database.rows t.name) ∧
      AtRevision versions s' := by
  obtain ⟨version, c, rows⟩ := s
  obtain ⟨-, hcatalog, hrows⟩ := hs
  dsimp only at hcatalog hrows hversion hm
  obtain rfl : some m.revision = version := of_decide_eq_true (List.find?_some hm :)
  obtain ⟨hdrops, hrun⟩ := (if_neg hversion).mp <|
    hchain.downgrades m (List.mem_of_find?_eq_some hm)
  rw [← hcatalog] at hrun
  obtain ⟨-, rows', hrun', hplaced, hkept⟩ := run_of_dropsOnly hdrops hrun hrows
  refine ⟨⟨m.downRevision, catalogAt versions m.downRevision, rows'⟩, ?_, rfl, hkept,
    hchain.linked m (List.mem_of_find?_eq_some hm), rfl, hplaced⟩
  rw [Versioned.downgradeOne, hm, Option.bind_some, hrun', Option.map_some]

/-- From the last one there is none. -/
theorem downgradeOne_eq_none (hchain : Chain versions last) (hs : AtRevision versions s)
    (hversion : s.version = last) : s.downgradeOne versions = none := by
  rw [Versioned.downgradeOne, Option.bind_eq_none_iff]
  intro m hm
  have hrevision : some m.revision = s.version := of_decide_eq_true (List.find?_some hm :)
  have hnone := (if_pos (hrevision.trans hversion)).mp <|
    hchain.downgrades m (List.mem_of_find?_eq_some hm)
  rw [Option.map_eq_none_iff]
  by_contra hsome
  obtain ⟨d, hd⟩ := Option.ne_none_iff_exists'.mp hsome
  have hrun := Database.catalog_of_run hd
  rw [hs.catalog, ← hrevision, hnone] at hrun
  exact absurd hrun (by simp)

/-- The pending migrations succeed, and leave all rows as they are. -/
theorem upgradeToHead_spec (hchain : Chain versions last) {n : ℕ} {version : Option String}
    (hs : AtRevision versions s) (hwalk : walk versions n s.version = some version) :
    ∃ s', s.upgradeToHead versions n = some s' ∧ s'.version = version ∧
      s'.database.rows = s.database.rows ∧ AtRevision versions s' := by
  induction n generalizing s with
  | zero =>
    obtain ⟨hnone, heq⟩ := Option.ite_none_right_eq_some.mp hwalk
    exact ⟨s, if_pos hnone, Option.some.inj heq, rfl, hs⟩
  | succ n ih =>
    rw [walk] at hwalk
    rw [Versioned.upgradeToHead]
    cases hm : next versions s.version with
    | none =>
      rw [hm] at hwalk
      exact ⟨s, rfl, Option.some.inj hwalk, rfl, hs⟩
    | some m =>
      rw [hm] at hwalk
      obtain ⟨s₁, hs₁, hversion, hrows, hat⟩ := upgradeOne_spec hchain hs hm
      obtain ⟨s', hs', hversion', hrows', hat'⟩ := ih hat (hversion ▸ hwalk)
      exact ⟨s', Option.bind_eq_some_iff.mpr ⟨s₁, hs₁, hs'⟩, hversion', hrows'.trans hrows, hat'⟩

/-- What a step that can fail keeps, its repetition keeps. -/
theorem times_induction {f : Versioned → Option Versioned} {P : Versioned → Prop}
    (hf : ∀ s s', P s → f s = some s' → P s') {n : ℕ} (hs : P s) (h : times f n s = some s') :
    P s' := by
  induction n generalizing s with
  | zero =>
    obtain rfl := Option.some.inj h
    exact hs
  | succ n ih =>
    obtain ⟨s₁, hs₁, hrest⟩ := Option.bind_eq_some_iff.mp h
    exact ih (hf s s₁ hs hs₁) hrest

/-- So do all pending migrations. -/
theorem upgradeToHead_induction {P : Versioned → Prop}
    (hf : ∀ s s', P s → s.upgradeOne versions = some s' → P s') {n : ℕ} (hs : P s)
    (h : s.upgradeToHead versions n = some s') : P s' := by
  induction n generalizing s with
  | zero =>
    obtain ⟨-, heq⟩ := Option.ite_none_right_eq_some.mp h
    obtain rfl := Option.some.inj heq
    exact hs
  | succ n ih =>
    rw [Versioned.upgradeToHead] at h
    split at h
    · obtain ⟨s₁, hs₁, hrest⟩ := Option.bind_eq_some_iff.mp h
      exact ih (hf s s₁ hs hs₁) hrest
    · obtain rfl := Option.some.inj h
      exact hs

/-- A migration that has run has led to its revision. -/
theorem atRevision_upgradeOne (hchain : Chain versions last) (hs : AtRevision versions s)
    (h : s.upgradeOne versions = some s') : AtRevision versions s' := by
  obtain ⟨m, hm, -⟩ := Option.bind_eq_some_iff.mp h
  obtain ⟨s₁, hs₁, -, -, hat⟩ := upgradeOne_spec hchain hs hm
  obtain rfl := Option.some.inj (hs₁.symm.trans h)
  exact hat

/-- So has its way back. -/
theorem atRevision_downgradeOne (hchain : Chain versions last) (hs : AtRevision versions s)
    (h : s.downgradeOne versions = some s') : AtRevision versions s' := by
  by_cases hversion : s.version = last
  · exact absurd ((downgradeOne_eq_none hchain hs hversion).symm.trans h) (by simp)
  · obtain ⟨m, hm, -⟩ := Option.bind_eq_some_iff.mp h
    obtain ⟨s₁, hs₁, -, -, hat⟩ := downgradeOne_spec hchain hs hversion hm
    obtain rfl := Option.some.inj (hs₁.symm.trans h)
    exact hat

/-- In every run the catalog is that of the revision, and the rows are in their place. -/
theorem atRevision_of_reach (hchain : Chain versions last)
    (h : Reach (Versioned.step versions) Places .empty s) : AtRevision versions s := by
  refine h.invariant ⟨List.mem_cons_self, hchain.base.symm, fun name row hrow => ?_⟩
    fun s command s' _ hs hplaces hstep => ?_
  · exact absurd hrow List.not_mem_nil
  · cases command with
    | upgradeToHead =>
      exact upgradeToHead_induction (fun _ _ => atRevision_upgradeOne hchain) hs hstep
    | upgrade n => exact times_induction (fun _ _ => atRevision_upgradeOne hchain) hs hstep
    | downgrade n => exact times_induction (fun _ _ => atRevision_downgradeOne hchain) hs hstep
    | write rows =>
      obtain rfl := Option.some.inj hstep
      exact ⟨hs.known, hs.catalog, hplaces⟩

/-- The last revision, if no migration follows it, is never left. -/
theorem version_of_reach (hchain : Chain versions last) (hlast : next versions last = none)
    (hs : AtRevision versions s) (hversion : s.version = last)
    (h : Reach (Versioned.step versions) Places s s') : s'.version = last := by
  have hup : ∀ t t', AtRevision versions t ∧ t.version = last →
      t.upgradeOne versions = some t' → AtRevision versions t' ∧ t'.version = last := by
    intro t t' ht h
    rw [Versioned.upgradeOne, ht.2, hlast, Option.bind_none] at h
    exact absurd h (by simp)
  have hdown : ∀ t t', AtRevision versions t ∧ t.version = last →
      t.downgradeOne versions = some t' → AtRevision versions t' ∧ t'.version = last := by
    intro t t' ht h
    rw [downgradeOne_eq_none hchain ht.1 ht.2] at h
    exact absurd h (by simp)
  have hstays : AtRevision versions s' ∧ s'.version = last := by
    refine h.invariant (I := fun t => AtRevision versions t ∧ t.version = last)
      ⟨hs, hversion⟩ fun t command t' _ ht hplaces hstep => ?_
    cases command with
    | upgradeToHead => exact upgradeToHead_induction hup ht hstep
    | upgrade n => exact times_induction hup ht hstep
    | downgrade n => exact times_induction hdown ht hstep
    | write rows =>
      obtain rfl := Option.some.inj hstep
      exact ⟨⟨ht.1.known, ht.1.catalog, hplaces⟩, ht.2⟩
  exact hstays.2

end

end Ddl
