import MlopsPlatform.Library.Migration

/-!
# The migrations

`alembic/versions/`, and the tables that the classes of `models/` declare. The names of a
non-native enumeration are those that its column is declared with, and a foreign key that is
declared without a name has none. `op.drop_constraint(None, …)` names no constraint, so that there
is no statement for it.
-/

namespace MlopsPlatform.Alembic

open Ddl

/-! ## Columns -/

/-- `sa.Column(name, type, nullable=False)`. -/
def required (name : String) (type : ColumnType) : Column :=
  { name, type, nullable := false, serverDefault := none }

/-- `sa.Column(name, type, nullable=True)`. -/
def optional (name : String) (type : ColumnType) : Column :=
  { name, type, nullable := true, serverDefault := none }

/-- The columns of `TimestampMixin`. -/
def timestamps : List Column :=
  [{ name := "created_at", type := .dateTime, nullable := false, serverDefault := some "now()" },
    { name := "updated_at", type := .dateTime, nullable := false, serverDefault := some "now()" }]

/-- `sa.ForeignKeyConstraint([column], [table.id])`. -/
def references (column table : String) (onDelete : Option OnDelete) : ForeignKey :=
  { name := none, columns := [column], table, referred := ["id"], onDelete }

/-- The names of `Role`. -/
def role : ColumnType := .enum ["VIEWER", "ENGINEER", "APPROVER", "ADMIN"] 32

/-- The names of `LifecycleStage`. -/
def lifecyclestage : ColumnType :=
  .enum ["DRAFT", "VALIDATED", "APPROVED", "STAGING", "PRODUCTION", "ARCHIVED"] 32

/-- The names of `Environment`. -/
def environment : ColumnType := .enum ["DEVELOPMENT", "STAGING", "PRODUCTION"] 32

/-- The names of `DeploymentStatus`. -/
def deploymentstatus : ColumnType :=
  .enum ["REQUESTED", "VALIDATING", "DEPLOYING", "SUCCEEDED", "FAILED", "ROLLED_BACK"] 32

/-- `_IN_FLIGHT_SQL`. -/
def inFlightSql : String × List String := ("status", ["REQUESTED", "VALIDATING", "DEPLOYING"])

/-! ## The versions -/

/-- `053655f24cad`: the initial schema, users. -/
def initialSchema : Migration where
  revision := "053655f24cad"
  downRevision := none
  upgrade :=
    [.createTable
      { name := "users"
        columns :=
          [required "id" .uuid, required "username" (.string 64), required "email" (.string 255),
            required "full_name" (.string 255), required "hashed_password" (.string 255),
            required "role" role] ++ timestamps
        primaryKey := ["id"]
        uniques := [⟨none, ["email"]⟩]
        foreignKeys := [] },
      .createIndex ⟨"ix_users_username", "users", ["username"], true, none⟩]
  downgrade := [.dropIndex "ix_users_username", .dropTable "users"]

/-- `24a98049d246`: models and versions. -/
def modelRegistry : Migration where
  revision := "24a98049d246"
  downRevision := some "053655f24cad"
  upgrade :=
    [.createTable
      { name := "models"
        columns :=
          [required "id" .uuid, required "key" (.string 128), required "name" (.string 255),
            required "owner" (.string 255), required "framework" (.string 64),
            required "tags" .json, optional "created_by" .uuid] ++ timestamps
        primaryKey := ["id"]
        uniques := []
        foreignKeys := [references "created_by" "users" none] },
      .createIndex ⟨"ix_models_key", "models", ["key"], true, none⟩,
      .createTable
        { name := "model_versions"
          columns :=
            [required "id" .uuid, required "model_id" .uuid, required "version" (.string 64),
              required "stage" lifecyclestage, optional "algorithm" (.string 128),
              required "artifact_uri" (.string 512), optional "training_data_ref" (.string 512),
              required "tags" .json, optional "approved_by" .uuid,
              optional "approved_at" .dateTime, optional "created_by" .uuid] ++ timestamps
          primaryKey := ["id"]
          uniques := [⟨some "uq_model_version", ["model_id", "version"]⟩]
          foreignKeys :=
            [references "approved_by" "users" none, references "created_by" "users" none,
              references "model_id" "models" (some .cascade)] },
      .createIndex ⟨"ix_model_versions_model_id", "model_versions", ["model_id"], false, none⟩]
  downgrade :=
    [.dropIndex "ix_model_versions_model_id", .dropTable "model_versions",
      .dropIndex "ix_models_key", .dropTable "models"]

/-- `0d5b7f5c84e5`: deployments and their events. -/
def deployments : Migration where
  revision := "0d5b7f5c84e5"
  downRevision := some "24a98049d246"
  upgrade :=
    [.createTable
      { name := "deployments"
        columns :=
          [required "id" .uuid, required "model_id" .uuid, required "model_version_id" .uuid,
            required "environment" environment, required "status" deploymentstatus,
            optional "idempotency_key" (.string 128), optional "worker_id" (.string 64),
            optional "locked_at" .dateTime, required "attempts" .integer,
            optional "error" (.string 255), required "simulate_failure" .boolean,
            optional "correlation_id" (.string 64), optional "rolled_back_to_id" .uuid,
            optional "created_by" .uuid] ++ timestamps
        primaryKey := ["id"]
        uniques := [⟨none, ["idempotency_key"]⟩]
        foreignKeys :=
          [references "created_by" "users" none, references "model_id" "models" none,
            references "model_version_id" "model_versions" none,
            references "rolled_back_to_id" "deployments" none] },
      .createIndex ⟨"ix_deployments_model_id", "deployments", ["model_id"], false, none⟩,
      .createIndex
        ⟨"ix_deployments_model_version_id", "deployments", ["model_version_id"], false, none⟩,
      .createIndex ⟨"ix_deployments_status", "deployments", ["status"], false, none⟩,
      .createIndex
        ⟨"uq_active_deployment", "deployments", ["model_id", "environment"], true,
          some inFlightSql⟩,
      .createTable
        { name := "deployment_events"
          columns :=
            [required "id" .uuid, required "deployment_id" .uuid,
              required "status" deploymentstatus, required "event" (.string 64),
              optional "message" (.string 512), optional "actor" (.string 64),
              optional "correlation_id" (.string 64)] ++ timestamps
          primaryKey := ["id"]
          uniques := []
          foreignKeys := [references "deployment_id" "deployments" (some .cascade)] },
      .createIndex
        ⟨"ix_deployment_events_deployment_id", "deployment_events", ["deployment_id"], false,
          none⟩]
  downgrade :=
    [.dropIndex "ix_deployment_events_deployment_id", .dropTable "deployment_events",
      .dropIndex "uq_active_deployment", .dropIndex "ix_deployments_status",
      .dropIndex "ix_deployments_model_version_id", .dropIndex "ix_deployments_model_id",
      .dropTable "deployments"]

/-- `76a83c527317`: the audit trail of the versions. -/
def modelVersionEvents : Migration where
  revision := "76a83c527317"
  downRevision := some "0d5b7f5c84e5"
  upgrade :=
    [.createTable
      { name := "model_version_events"
        columns :=
          [required "id" .uuid, required "model_version_id" .uuid, required "event" (.string 64),
            optional "from_stage" lifecyclestage, required "to_stage" lifecyclestage,
            optional "actor_id" .uuid, optional "correlation_id" (.string 64)] ++ timestamps
        primaryKey := ["id"]
        uniques := []
        foreignKeys :=
          [references "actor_id" "users" none,
            references "model_version_id" "model_versions" (some .cascade)] },
      .createIndex
        ⟨"ix_model_version_events_model_version_id", "model_version_events",
          ["model_version_id"], false, none⟩]
  downgrade :=
    [.dropIndex "ix_model_version_events_model_version_id", .dropTable "model_version_events"]

/-- `9407ef90f9f5`: metrics. -/
def metrics : Migration where
  revision := "9407ef90f9f5"
  downRevision := some "76a83c527317"
  upgrade :=
    [.createTable
      { name := "metrics"
        columns :=
          [required "id" .uuid, required "model_id" .uuid, optional "model_version_id" .uuid,
            required "version" (.string 64), required "environment" environment,
            required "timestamp" .dateTime, required "latency_ms" .float,
            required "throughput_rpm" .float, required "error_rate" .float,
            required "quality_score" .float, required "drift_score" .float,
            required "availability" .float]
        primaryKey := ["id"]
        uniques := []
        foreignKeys :=
          [references "model_id" "models" (some .cascade),
            references "model_version_id" "model_versions" (some .cascade)] },
      .createIndex ⟨"ix_metrics_model_time", "metrics", ["model_id", "timestamp"], false, none⟩]
  downgrade := [.dropIndex "ix_metrics_model_time", .dropTable "metrics"]

/-- `24861727ed25`: the deployment of a metric. -/
def metricDeploymentLink : Migration where
  revision := "24861727ed25"
  downRevision := some "9407ef90f9f5"
  upgrade :=
    [.addColumn "metrics" (optional "deployment_id" .uuid),
      .createForeignKey "metrics" (references "deployment_id" "deployments" (some .setNull))]
  downgrade := [.dropConstraint none "metrics", .dropColumn "metrics" "deployment_id"]

/-- The files of `alembic/versions/`. -/
def versions : List Migration :=
  [initialSchema, deployments, metricDeploymentLink, modelRegistry, modelVersionEvents, metrics]

/-- The revision that no migration follows. -/
def head : Option String := some metricDeploymentLink.revision

/-! ## The tables that the models declare -/

/-- `mapped_column`. -/
structure MappedColumn where
  column : Column
  unique : Bool := false
  index : Bool := false
  foreignKey : Option (String × Option OnDelete) := none

/-- `mapped_column(type, nullable=False)`. -/
def mapped (name : String) (type : ColumnType) : MappedColumn := { column := required name type }

/-- `mapped_column(type, nullable=True)`. -/
def mappedOptional (name : String) (type : ColumnType) : MappedColumn :=
  { column := optional name type }

/-- `ForeignKey("table.id")`. -/
def MappedColumn.refersTo (c : MappedColumn) (table : String) (onDelete : Option OnDelete) :
    MappedColumn :=
  { c with foreignKey := some (table, onDelete) }

/-- A class of `models/`: its own columns, and `__table_args__`. -/
structure OrmClass where
  tablename : String
  columns : List MappedColumn
  /-- It has the columns of `TimestampMixin`. -/
  timestamped : Bool
  uniques : List UniqueConstraint := []
  indexes : List Index := []

namespace OrmClass

/-- The table of a class. `UUIDPrimaryKeyMixin` puts the primary key in front, and a column that is
unique and not indexed has a constraint. -/
def table (k : OrmClass) : TableDef where
  name := k.tablename
  columns := required "id" .uuid :: k.columns.map MappedColumn.column ++
    if k.timestamped then timestamps else []
  primaryKey := ["id"]
  uniques := k.uniques ++
    (k.columns.filter fun c => c.unique && !c.index).map fun c => ⟨none, [c.column.name]⟩
  foreignKeys := k.columns.filterMap fun c =>
    c.foreignKey.map fun (table, onDelete) => references c.column.name table onDelete

/-- The indexes of a class: those of `__table_args__`, and those of its indexed columns, which are
unique if the column is. -/
def allIndexes (k : OrmClass) : List Index :=
  k.indexes ++ (k.columns.filter MappedColumn.index).map fun c =>
    ⟨s!"ix_{k.tablename}_{c.column.name}", k.tablename, [c.column.name], c.unique, none⟩

end OrmClass

/-- `User`. -/
def user : OrmClass where
  tablename := "users"
  columns :=
    [{ mapped "username" (.string 64) with unique := true, index := true },
      { mapped "email" (.string 255) with unique := true }, mapped "full_name" (.string 255),
      mapped "hashed_password" (.string 255), mapped "role" role]
  timestamped := true

/-- `Model`. -/
def model : OrmClass where
  tablename := "models"
  columns :=
    [{ mapped "key" (.string 128) with unique := true, index := true },
      mapped "name" (.string 255), mapped "owner" (.string 255), mapped "framework" (.string 64),
      mapped "tags" .json, (mappedOptional "created_by" .uuid).refersTo "users" none]
  timestamped := true

/-- `ModelVersion`. -/
def modelVersion : OrmClass where
  tablename := "model_versions"
  columns :=
    [{ (mapped "model_id" .uuid).refersTo "models" (some .cascade) with index := true },
      mapped "version" (.string 64), mapped "stage" lifecyclestage,
      mappedOptional "algorithm" (.string 128), mapped "artifact_uri" (.string 512),
      mappedOptional "training_data_ref" (.string 512), mapped "tags" .json,
      (mappedOptional "approved_by" .uuid).refersTo "users" none,
      mappedOptional "approved_at" .dateTime,
      (mappedOptional "created_by" .uuid).refersTo "users" none]
  timestamped := true
  uniques := [⟨some "uq_model_version", ["model_id", "version"]⟩]

/-- `ModelVersionEvent`. -/
def modelVersionEvent : OrmClass where
  tablename := "model_version_events"
  columns :=
    [{ (mapped "model_version_id" .uuid).refersTo "model_versions" (some .cascade) with
        index := true },
      mapped "event" (.string 64), mappedOptional "from_stage" lifecyclestage,
      mapped "to_stage" lifecyclestage, (mappedOptional "actor_id" .uuid).refersTo "users" none,
      mappedOptional "correlation_id" (.string 64)]
  timestamped := true

/-- `Deployment`. -/
def deployment : OrmClass where
  tablename := "deployments"
  columns :=
    [{ (mapped "model_id" .uuid).refersTo "models" none with index := true },
      { (mapped "model_version_id" .uuid).refersTo "model_versions" none with index := true },
      mapped "environment" environment, { mapped "status" deploymentstatus with index := true },
      { mappedOptional "idempotency_key" (.string 128) with unique := true },
      mappedOptional "worker_id" (.string 64), mappedOptional "locked_at" .dateTime,
      mapped "attempts" .integer, mappedOptional "error" (.string 255),
      mapped "simulate_failure" .boolean, mappedOptional "correlation_id" (.string 64),
      (mappedOptional "rolled_back_to_id" .uuid).refersTo "deployments" none,
      (mappedOptional "created_by" .uuid).refersTo "users" none]
  timestamped := true
  indexes :=
    [⟨"uq_active_deployment", "deployments", ["model_id", "environment"], true, some inFlightSql⟩]

/-- `DeploymentEvent`. -/
def deploymentEvent : OrmClass where
  tablename := "deployment_events"
  columns :=
    [{ (mapped "deployment_id" .uuid).refersTo "deployments" (some .cascade) with index := true },
      mapped "status" deploymentstatus, mapped "event" (.string 64),
      mappedOptional "message" (.string 512), mappedOptional "actor" (.string 64),
      mappedOptional "correlation_id" (.string 64)]
  timestamped := true

/-- `Metric`. -/
def metric : OrmClass where
  tablename := "metrics"
  columns :=
    [(mapped "model_id" .uuid).refersTo "models" (some .cascade),
      (mappedOptional "model_version_id" .uuid).refersTo "model_versions" (some .cascade),
      (mappedOptional "deployment_id" .uuid).refersTo "deployments" (some .setNull),
      mapped "version" (.string 64), mapped "environment" environment,
      mapped "timestamp" .dateTime, mapped "latency_ms" .float, mapped "throughput_rpm" .float,
      mapped "error_rate" .float, mapped "quality_score" .float, mapped "drift_score" .float,
      mapped "availability" .float]
  timestamped := false
  indexes := [⟨"ix_metrics_model_time", "metrics", ["model_id", "timestamp"], false, none⟩]

/-- `Base.metadata`. -/
def metadata : Catalog :=
  let classes := [user, model, modelVersion, modelVersionEvent, deployment, deploymentEvent, metric]
  ⟨classes.map OrmClass.table, classes.flatMap OrmClass.allIndexes⟩

end MlopsPlatform.Alembic
