import MlopsPlatform.Alembic.Versions
import MlopsPlatform.Models

/-!
# Migrating the database

`upgrade_to_head` of `db/migrations.py`, which every API process runs when it starts, beside the
commands of an operator, and sessions that write rows in between. Every upgrade succeeds on every
database and keeps its rows, and the schema at the head is the one that the models declare, whose
unique constraints are those that the rest of this development takes for granted.

The last migration cannot be undone: its way back drops a constraint without naming it. So whoever
has come to the head stays there (`migrated_of_reach`).
-/

namespace MlopsPlatform.Alembic

open Ddl Transition

/-- `upgrade_to_head`. -/
def upgradeToHead (s : Versioned) : Option Versioned := s.upgradeToHead versions versions.length

/-! ## The rows of the platform -/

/-- A row of `models`, as far as constraints look at it. -/
def storedModel (m : Model) : Row
  | "id" => some (.number m.id)
  | "key" => some (.text m.key)
  | _ => none

/-- A row of `model_versions`. -/
def storedVersion (v : ModelVersion) : Row
  | "id" => some (.number v.id)
  | "model_id" => some (.number v.modelId)
  | "version" => some (.text v.version)
  | _ => none

/-- A row of `model_version_events`. -/
def storedVersionEvent (e : ModelVersionEvent) : Row
  | "id" => some (.number e.id)
  | _ => none

/-- A row of `deployments`. -/
def storedDeployment (d : Deployment) : Row
  | "id" => some (.number d.id)
  | "model_id" => some (.number d.modelId)
  | "environment" => some (.text d.environment.value)
  | "status" => some (.text d.status.value)
  | "idempotency_key" => d.idempotencyKey.map Value.text
  | _ => none

/-- A row of `deployment_events`. -/
def storedDeploymentEvent (e : DeploymentEvent) : Row
  | "id" => some (.number e.id)
  | _ => none

/-- The rows of the platform. Users and metrics are kept elsewhere. -/
def stored (db : Db) : Rows
  | "models" => db.models.rows.map storedModel
  | "model_versions" => db.versions.rows.map storedVersion
  | "model_version_events" => db.versionEvents.rows.map storedVersionEvent
  | "deployments" => db.deployments.rows.map storedDeployment
  | "deployment_events" => db.deploymentEvents.rows.map storedDeploymentEvent
  | _ => []

/-- Ids are stored as they are. -/
theorem number_inj {a b : Uuid} : Value.number a = Value.number b ↔ a = b := by
  rw [Value.number.injEq, Int.natCast_inj]

/-- Primary keys are drawn. -/
theorem holds_id {α : Type} {key : α → ℕ} (t : Table key) {table : String} {row : α → Row}
    {rows : Rows} (h : rows table = t.rows.map row)
    (hid : ∀ a, row a "id" = some (.number (key a))) : Key.Holds ⟨table, ["id"], none⟩ rows := by
  refine (Key.holds_map h).mpr (t.sorted.imp fun {a b} hlt => ?_)
  have hne : Value.number (key a) ≠ Value.number (key b) := fun hsame =>
    Nat.ne_of_lt hlt (number_inj.mp hsame)
  simp only [Key.clash, Key.covers, hid, Bool.true_and, List.all_cons, List.all_nil, Bool.and_true,
    Option.isSome_some, Option.some.injEq, hne, decide_false]

/-- No rows clash where there are none. -/
theorem holds_nil {k : Key} {rows : Rows} (h : rows k.table = []) : k.Holds rows := by
  rw [Key.Holds, h]
  exact List.Pairwise.nil

/-- `ix_models_key`. -/
theorem holds_modelKey {db : Db} :
    Key.Holds ⟨"models", ["key"], none⟩ (stored db) ↔ db.UniqueModelKey := by
  refine (Key.holds_map rfl).trans (List.Pairwise.iff fun a b => ?_)
  simp [Key.clash, Key.covers, storedModel]

/-- `uq_model_version`. -/
theorem holds_modelVersion {db : Db} :
    Key.Holds ⟨"model_versions", ["model_id", "version"], none⟩ (stored db) ↔
      db.UniqueModelVersion := by
  refine (Key.holds_map rfl).trans (List.Pairwise.iff fun a b => ?_)
  simp [Key.clash, Key.covers, storedVersion, -Value.number.injEq, number_inj]

/-- The constraint on `idempotency_key`. -/
theorem holds_idempotencyKey {db : Db} :
    Key.Holds ⟨"deployments", ["idempotency_key"], none⟩ (stored db) ↔
      db.UniqueIdempotencyKey := by
  refine (Key.holds_map rfl).trans (List.Pairwise.iff fun a b => ?_)
  have hsame : a.idempotencyKey.map Value.text = b.idempotencyKey.map Value.text ↔
      a.idempotencyKey = b.idempotencyKey :=
    (Option.map_injective fun _ _ => Value.text.inj).eq_iff
  simp [Key.clash, Key.covers, storedDeployment, hsame]

/-- The condition of `uq_active_deployment` is that the deployment is in flight. -/
theorem covers_inFlightSql {table : String} {columns : List String} (d : Deployment) :
    Key.covers ⟨table, columns, some inFlightSql⟩ (storedDeployment d) = d.inFlight := by
  show decide (Value.text d.status.value ∈ inFlightSql.2.map Value.text) = d.inFlight
  unfold Deployment.inFlight
  cases d.status <;> decide

/-- `uq_active_deployment`. -/
theorem holds_activeDeployment {db : Db} :
    Key.Holds ⟨"deployments", ["model_id", "environment"], some inFlightSql⟩ (stored db) ↔
      db.UniqueActiveDeployment := by
  refine (Key.holds_map rfl).trans (List.Pairwise.iff fun a b => ?_)
  have henvironment : a.environment.value = b.environment.value ↔
      a.environment = b.environment := by
    cases a.environment <;> cases b.environment <;> decide
  simp [Key.clash, covers_inFlightSql, storedDeployment, -Value.number.injEq, number_inj,
    henvironment]

/-- The keys of the schema at the head. -/
theorem keys_head : (catalogAt versions head).keys =
    [⟨"users", ["id"], none⟩, ⟨"users", ["email"], none⟩, ⟨"models", ["id"], none⟩,
      ⟨"model_versions", ["id"], none⟩, ⟨"model_versions", ["model_id", "version"], none⟩,
      ⟨"deployments", ["id"], none⟩, ⟨"deployments", ["idempotency_key"], none⟩,
      ⟨"deployment_events", ["id"], none⟩, ⟨"model_version_events", ["id"], none⟩,
      ⟨"metrics", ["id"], none⟩, ⟨"users", ["username"], none⟩, ⟨"models", ["key"], none⟩,
      ⟨"deployments", ["model_id", "environment"], some inFlightSql⟩] := by
  decide +kernel

/-- The keys of the schema at the head are the constraints of the platform. -/
theorem constraints_iff (db : Db) :
    (∀ k ∈ (catalogAt versions head).keys, k.Holds (stored db)) ↔ db.Constraints := by
  rw [keys_head]
  simp only [List.forall_mem_cons, List.not_mem_nil, false_implies, implies_true, and_true]
  rw [holds_modelKey, holds_modelVersion, holds_idempotencyKey, holds_activeDeployment]
  constructor
  · rintro ⟨-, -, -, -, hversion, -, hkey, -, -, -, -, hmodel, hactive⟩
    exact ⟨hmodel, hversion, hkey, hactive⟩
  · rintro ⟨hmodel, hversion, hkey, hactive⟩
    exact ⟨holds_nil rfl, holds_nil rfl, holds_id db.models rfl fun _ => rfl,
      holds_id db.versions rfl fun _ => rfl, hversion, holds_id db.deployments rfl fun _ => rfl,
      hkey, holds_id db.deploymentEvents rfl fun _ => rfl,
      holds_id db.versionEvents rfl fun _ => rfl, holds_nil rfl, holds_nil rfl, hmodel, hactive⟩

/-! ## The chain -/

/-- The versions are a chain, and there is no way back from the head. -/
theorem chain_versions : Chain versions head where
  base := by decide
  linked := by decide
  linear := by decide
  upgrades := by decide +kernel
  downgrades := by decide +kernel

/-- No migration follows the head. -/
theorem next_head : next versions head = none := by
  decide

/-- The upgrades from every revision end at the head. -/
theorem walk_versions : ∀ version ∈ none :: versions.map (fun m => some m.revision),
    walk versions versions.length version = some head := by
  decide

/-- The schema at the head is the one that the models declare. -/
theorem same_metadata : (catalogAt versions head).Same metadata := by
  decide +kernel

/-! ## Runs -/

section

variable {s : Versioned}

/-- At the head no downgrade succeeds. -/
theorem downgrade_eq_none (hs : AtRevision versions s) (hversion : s.version = head) (n : ℕ) :
    s.step versions (.downgrade (n + 1)) = none := by
  show (s.downgradeOne versions).bind _ = none
  rw [downgradeOne_eq_none chain_versions hs hversion, Option.bind_none]

/-- From every other revision there is a way back and forth. -/
theorem exists_downgrade (hs : AtRevision versions s) {m : Migration}
    (hm : current versions s.version = some m) (hversion : s.version ≠ head) :
    ∃ s', s.step versions (.downgrade 1) = some s' ∧ s'.version = m.downRevision ∧
      (∀ t ∈ s'.database.catalog.tables, s'.database.rows t.name = s.database.rows t.name) ∧
      ∃ s'', s'.step versions (.upgrade 1) = some s'' ∧ s''.version = s.version ∧
        s''.database.catalog = s.database.catalog := by
  have hmem : m ∈ versions := List.mem_of_find?_eq_some hm
  have hrevision : some m.revision = s.version := of_decide_eq_true (List.find?_some hm :)
  obtain ⟨s', hs', hversion', hkept, hat⟩ := downgradeOne_spec chain_versions hs hversion hm
  have hnext : next versions s'.version = some m := by
    rw [hversion']
    exact next_downRevision chain_versions hmem
  obtain ⟨s'', hs'', hversion'', -, hat'⟩ := upgradeOne_spec chain_versions hat hnext
  refine ⟨s', ?_, hversion', hkept, s'', ?_, hversion''.trans hrevision, ?_⟩
  · show (s.downgradeOne versions).bind _ = _
    rw [hs']
    rfl
  · show (s'.upgradeOne versions).bind _ = _
    rw [hs'']
    rfl
  · rw [hat'.catalog, hversion'', hrevision, hs.catalog]

end

/-- Migrating the database, in every run of `upgrade_to_head`, upgrades, downgrades, and writes of
rows, in any order. The schema depends on the revision alone. `upgrade_to_head` succeeds, keeps all
rows, and leaves the schema that the models declare, whose unique constraints hold of the rows of
the platform exactly if `Db.Constraints` does. From every revision before the head a downgrade
succeeds, keeps the rows of the tables that remain, and is undone by the next upgrade. From the head
no downgrade succeeds, and no run leaves it. -/
theorem migrated_of_reach {s : Versioned}
    (h : Reach (Versioned.step versions) Places .empty s) :
    s.database.catalog = catalogAt versions s.version ∧
      (∃ s', upgradeToHead s = some s' ∧ s'.version = head ∧
        s'.database.rows = s.database.rows ∧ s'.database.catalog.Same metadata ∧
        ∀ db : Db, (∀ k ∈ s'.database.catalog.keys, k.Holds (stored db)) ↔ db.Constraints) ∧
      (∀ m, current versions s.version = some m → s.version ≠ head →
        ∃ s', s.step versions (.downgrade 1) = some s' ∧ s'.version = m.downRevision ∧
          (∀ t ∈ s'.database.catalog.tables,
            s'.database.rows t.name = s.database.rows t.name) ∧
          ∃ s'', s'.step versions (.upgrade 1) = some s'' ∧ s''.version = s.version ∧
            s''.database.catalog = s.database.catalog) ∧
      (s.version = head → (∀ n, s.step versions (.downgrade (n + 1)) = none) ∧
        ∀ s', Reach (Versioned.step versions) Places s s' → s'.version = head) := by
  have hs := atRevision_of_reach chain_versions h
  refine ⟨hs.catalog, ?_, fun m hm hversion => exists_downgrade hs hm hversion,
    fun hversion => ⟨downgrade_eq_none hs hversion, fun s' hreach => ?_⟩⟩
  · obtain ⟨s', hs', hversion, hrows, hat⟩ :=
      upgradeToHead_spec chain_versions hs (walk_versions s.version hs.known)
    refine ⟨s', hs', hversion, hrows, ?_⟩
    rw [hat.catalog, hversion]
    exact ⟨same_metadata, constraints_iff⟩
  · exact version_of_reach chain_versions next_head hs hversion hreach

/-- An empty database can be migrated to the head, and not back. -/
theorem migrated_of_reach_empty :
    ∃ s, Reach (Versioned.step versions) Places .empty s ∧ s.version = head ∧
      s.database.catalog.Same metadata ∧ s.step versions (.downgrade 1) = none := by
  obtain ⟨-, ⟨s, hs, hversion, -, hsame, -⟩, -, -⟩ := migrated_of_reach .refl
  have hreach : Reach (Versioned.step versions) Places .empty s :=
    Reach.refl.tail (a := .upgradeToHead) trivial hs
  obtain ⟨-, -, -, hhead⟩ := migrated_of_reach hreach
  exact ⟨s, hreach, hversion, hsame, (hhead hversion).1 0⟩

end MlopsPlatform.Alembic
