import Mathlib.Data.List.Perm.Basic
import Mathlib.Logic.Function.Basic

/-!
# Schemas, rows, and the operations that change them

The catalog of a relational database, the rows of its tables, and the operations of a migration, as
a database executes them whose DDL is transactional. An operation checks the catalog, and some check
the rows. A script that only adds tables and nullable columns, and constrains no rows but those of
what it has added, is `harmless`: it runs on every database on whose catalog it runs, and leaves all
rows as they are (`run_of_harmless`). A script of drops leaves the rows of the tables that remain
(`run_of_dropsOnly`).
-/

namespace Ddl

/-! ## Catalogs -/

/-- The type of a column. -/
inductive ColumnType
  | uuid | string (length : ℕ) | enum (names : List String) (length : ℕ) | json | dateTime
  | integer | boolean | float
  deriving DecidableEq

/-- A column. -/
structure Column where
  name : String
  type : ColumnType
  nullable : Bool
  serverDefault : Option String
  deriving DecidableEq

/-- What becomes of a row when the row that it refers to is deleted. -/
inductive OnDelete
  | cascade | setNull
  deriving DecidableEq

/-- A foreign key. One without a name is given one by the database. -/
structure ForeignKey where
  name : Option String
  columns : List String
  table : String
  referred : List String
  onDelete : Option OnDelete
  deriving DecidableEq

/-- A unique constraint. -/
structure UniqueConstraint where
  name : Option String
  columns : List String
  deriving DecidableEq

/-- A table. -/
structure TableDef where
  name : String
  columns : List Column
  primaryKey : List String
  uniques : List UniqueConstraint
  foreignKeys : List ForeignKey
  deriving DecidableEq

/-- An index. A condition restricts it to the rows with one of some texts in a column. -/
structure Index where
  name : String
  table : String
  columns : List String
  unique : Bool
  condition : Option (String × List String)
  deriving DecidableEq

/-- The tables and indexes of a database. -/
structure Catalog where
  tables : List TableDef
  indexes : List Index
  deriving DecidableEq

/-- The catalog of an empty database. -/
def Catalog.empty : Catalog := ⟨[], []⟩

/-- Two tables are the same, but for the order of their columns and constraints. -/
def TableDef.Same (t t' : TableDef) : Prop :=
  t.name = t'.name ∧ t.columns.Perm t'.columns ∧ t.primaryKey = t'.primaryKey ∧
    t.uniques.Perm t'.uniques ∧ t.foreignKeys.Perm t'.foreignKeys

instance (t t' : TableDef) : Decidable (t.Same t') := inferInstanceAs (Decidable (_ ∧ _))

/-- Two catalogs have the same tables and indexes. -/
def Catalog.Same (c c' : Catalog) : Prop :=
  (∀ t ∈ c.tables, ∃ t' ∈ c'.tables, t.Same t') ∧ (∀ t' ∈ c'.tables, ∃ t ∈ c.tables, t.Same t') ∧
    c.indexes.Perm c'.indexes

instance (c c' : Catalog) : Decidable (c.Same c') := inferInstanceAs (Decidable (_ ∧ _))

/-- The table with a name. -/
def Catalog.table? (c : Catalog) (name : String) : Option TableDef :=
  c.tables.find? fun t => t.name = name

/-- Change the table with a name. -/
def Catalog.update (c : Catalog) (name : String) (f : TableDef → TableDef) : Catalog :=
  { c with tables := c.tables.map fun t => if t.name = name then f t else t }

/-- The table has columns with these names. -/
def TableDef.hasColumns (t : TableDef) (names : List String) : Bool :=
  names.all fun name => name ∈ t.columns.map Column.name

/-- The columns identify a row of the table, so that a foreign key can refer to them. -/
def TableDef.identifies (t : TableDef) (columns : List String) : Bool :=
  columns = t.primaryKey || t.uniques.any fun u => u.columns = columns

/-! ## Rows -/

/-- What a row holds in a column. -/
inductive Value
  | number (n : Int) | text (s : String)
  deriving DecidableEq

/-- A row: its values by column, or NULL. -/
abbrev Row := String → Option Value

/-- The rows of every table. -/
abbrev Rows := String → List Row

/-- Columns are unique among the rows of a table that meet a condition. -/
structure Key where
  table : String
  columns : List String
  condition : Option (String × List String)
  deriving DecidableEq

/-- The row meets the condition. -/
def Key.covers (k : Key) (row : Row) : Bool :=
  match k.condition with
  | some (column, texts) => (row column).any fun value => value ∈ texts.map Value.text
  | none => true

/-- Two rows have the same values, where NULLs differ from each other. -/
def Key.clash (k : Key) (a b : Row) : Bool :=
  k.covers a && k.covers b && k.columns.all fun column => (a column).isSome && a column = b column

/-- No two rows of the table clash. -/
def Key.Holds (k : Key) (rows : Rows) : Prop :=
  (rows k.table).Pairwise fun a b => k.clash a b = false

instance (k : Key) (rows : Rows) : Decidable (k.Holds rows) :=
  inferInstanceAs (Decidable ((rows k.table).Pairwise _))

/-- Whether the rows of a table clash, where they are given by other data. -/
theorem Key.holds_map {α : Type} {k : Key} {rows : Rows} {xs : List α} {row : α → Row}
    (h : rows k.table = xs.map row) :
    k.Holds rows ↔ xs.Pairwise fun a b => k.clash (row a) (row b) = false := by
  rw [Holds, h, List.pairwise_map]

/-- The key that a unique index keeps. -/
def Index.key (i : Index) : Key := ⟨i.table, i.columns, i.condition⟩

/-- The keys of a catalog: of its primary keys, its unique constraints, and its unique indexes. -/
def Catalog.keys (c : Catalog) : List Key :=
  (c.tables.flatMap fun t =>
      ⟨t.name, t.primaryKey, none⟩ :: t.uniques.map fun u => ⟨t.name, u.columns, none⟩) ++
    (c.indexes.filter Index.unique).map Index.key

/-- The row has a NULL in the foreign key, or there is a row that it refers to. -/
def ForeignKey.Holds (k : ForeignKey) (rows : Rows) (row : Row) : Prop :=
  (∃ column ∈ k.columns, row column = none) ∨
    ∃ target ∈ rows k.table, ∀ p ∈ k.columns.zip k.referred, row p.1 = target p.2

instance (k : ForeignKey) (rows : Rows) (row : Row) : Decidable (k.Holds rows row) :=
  inferInstanceAs (Decidable (_ ∨ _))

/-! ## Operations -/

/-- An operation of a migration. -/
inductive Operation
  | createTable (t : TableDef)
  | dropTable (name : String)
  | createIndex (i : Index)
  | dropIndex (name : String)
  | addColumn (table : String) (column : Column)
  | dropColumn (table column : String)
  | createForeignKey (table : String) (key : ForeignKey)
  | dropConstraint (name : Option String) (table : String)
  deriving DecidableEq

/-- The foreign key has its columns, and refers to columns that identify a row. -/
def Catalog.admits (c : Catalog) (t : TableDef) (k : ForeignKey) : Bool :=
  t.hasColumns k.columns && (c.table? k.table).any fun target => target.identifies k.referred

/-- What an operation makes of the catalog, unless it is in error. -/
def Catalog.apply (c : Catalog) : Operation → Option Catalog
  | .createTable t =>
    let c' := { c with tables := c.tables ++ [t] }
    if (c.table? t.name).isNone ∧ (t.columns.map Column.name).Nodup ∧
        t.hasColumns (t.primaryKey ++ t.uniques.flatMap UniqueConstraint.columns) ∧
        t.foreignKeys.all (c'.admits t) then some c'
    else none
  | .dropTable name =>
    -- A table that others refer to is not dropped.
    if (c.table? name).isSome ∧
        c.tables.all fun t => t.name = name || t.foreignKeys.all fun k => k.table ≠ name then
      some ⟨c.tables.filter fun t => t.name ≠ name, c.indexes.filter fun i => i.table ≠ name⟩
    else none
  | .createIndex i =>
    if (c.indexes.all fun j => j.name ≠ i.name) ∧
        (c.table? i.table).any fun t => t.hasColumns i.columns then
      some { c with indexes := c.indexes ++ [i] }
    else none
  | .dropIndex name =>
    if c.indexes.any fun i => i.name = name then
      some { c with indexes := c.indexes.filter fun i => i.name ≠ name }
    else none
  | .addColumn table column =>
    if (c.table? table).any fun t => !t.hasColumns [column.name] then
      some (c.update table fun t => { t with columns := t.columns ++ [column] })
    else none
  | .dropColumn table column =>
    -- The constraints and indexes of the table that have the column go with it.
    if ((c.table? table).any fun t => t.hasColumns [column]) ∧
        c.tables.all fun t => t.name = table || t.foreignKeys.all fun k =>
          k.table ≠ table || column ∉ k.referred then
      some
        { tables := (c.update table fun t =>
            { t with
              columns := t.columns.filter fun k => k.name ≠ column
              uniques := t.uniques.filter fun u => column ∉ u.columns
              foreignKeys := t.foreignKeys.filter fun k => column ∉ k.columns }).tables
          indexes := c.indexes.filter fun i => i.table ≠ table || column ∉ i.columns }
    else none
  | .createForeignKey table key =>
    if (c.table? table).any fun t => c.admits t key then
      some (c.update table fun t => { t with foreignKeys := t.foreignKeys ++ [key] })
    else none
  -- There is no statement that drops a constraint without its name.
  | .dropConstraint none _ => none
  | .dropConstraint (some name) table =>
    if (c.table? table).any fun t => t.foreignKeys.any fun k => k.name = some name then
      some (c.update table fun t =>
        { t with foreignKeys := t.foreignKeys.filter fun k => k.name ≠ some name })
    else none

/-- The rows allow the operation. -/
def Operation.Accepts (rows : Rows) : Operation → Prop
  | createIndex i => i.unique = true → i.key.Holds rows
  | addColumn table column =>
    -- The rows do not get the value of a default here.
    column.serverDefault = none ∧ (column.nullable = true ∨ rows table = [])
  | createForeignKey table key => ∀ row ∈ rows table, key.Holds rows row
  | _ => True

instance (rows : Rows) : ∀ o : Operation, Decidable (o.Accepts rows)
  | .createTable _ => inferInstanceAs (Decidable True)
  | .dropTable _ => inferInstanceAs (Decidable True)
  | .createIndex i => inferInstanceAs (Decidable (i.unique = true → i.key.Holds rows))
  | .dropIndex _ => inferInstanceAs (Decidable True)
  | .addColumn table column =>
    inferInstanceAs (Decidable
      (column.serverDefault = none ∧ (column.nullable = true ∨ rows table = [])))
  | .dropColumn _ _ => inferInstanceAs (Decidable True)
  | .createForeignKey table key =>
    inferInstanceAs (Decidable (∀ row ∈ rows table, key.Holds rows row))
  | .dropConstraint _ _ => inferInstanceAs (Decidable True)

/-- What an operation makes of the rows. -/
def Operation.rewrite (rows : Rows) : Operation → Rows
  | createTable t => Function.update rows t.name []
  | dropTable name => Function.update rows name []
  | addColumn table column =>
    Function.update rows table ((rows table).map fun row => Function.update row column.name none)
  | dropColumn table column =>
    Function.update rows table ((rows table).map fun row => Function.update row column none)
  | _ => rows

/-- A catalog and the rows of its tables. -/
structure Database where
  catalog : Catalog
  rows : Rows

/-- Execute an operation, unless it is in error. -/
def Database.apply (d : Database) (o : Operation) : Option Database :=
  if o.Accepts d.rows then (d.catalog.apply o).map fun c => ⟨c, o.rewrite d.rows⟩ else none

/-- Execute a script on a catalog. -/
def Catalog.run (c : Catalog) (os : List Operation) : Option Catalog := os.foldlM Catalog.apply c

/-- Execute a script. -/
def Database.run (d : Database) (os : List Operation) : Option Database :=
  os.foldlM Database.apply d

/-! ## Well-placed rows -/

/-- There are rows in the tables of the catalog only, and values in their columns only. -/
def WellPlaced (c : Catalog) (rows : Rows) : Prop :=
  ∀ name, ∀ row ∈ rows name, ∃ t, c.table? name = some t ∧
    ∀ column, row column ≠ none → column ∈ t.columns.map Column.name

variable {c c' : Catalog} {rows : Rows}

/-- The tables of a changed catalog. -/
theorem Catalog.table?_update (c : Catalog) (name other : String) {f : TableDef → TableDef}
    (hf : ∀ t, (f t).name = t.name) :
    (c.update name f).table? other =
      (c.table? other).map fun t => if t.name = name then f t else t := by
  have hname : ((fun t : TableDef => decide (t.name = other)) ∘
      fun t => if t.name = name then f t else t) = fun t => decide (t.name = other) := by
    funext t
    dsimp only [Function.comp_apply]
    split_ifs
    · rw [hf]
    · rfl
  unfold table? update
  rw [List.find?_map, hname]

/-- A table that is not dropped is still there. -/
theorem Catalog.table?_filter (c : Catalog) {name other : String} (h : other ≠ name)
    (indexes : List Index) :
    Catalog.table? ⟨c.tables.filter fun t => t.name ≠ name, indexes⟩ other = c.table? other := by
  unfold table?
  rw [List.find?_filter]
  congr 1
  funext t
  by_cases ht : t.name = other
  · simp [ht, h]
  · simp [ht]

/-- Where there is no table, there are no rows. -/
theorem WellPlaced.eq_nil (h : WellPlaced c rows) {name : String} (hnone : c.table? name = none) :
    rows name = [] := by
  rw [List.eq_nil_iff_forall_not_mem]
  intro row hrow
  obtain ⟨t, ht, -⟩ := h name row hrow
  exact absurd (hnone.symm.trans ht) (by simp)

/-- Rows stay in their place while the tables keep their columns. -/
theorem WellPlaced.mono (h : WellPlaced c rows)
    (hc : ∀ name t, c.table? name = some t → ∃ t', c'.table? name = some t' ∧
      t.columns.map Column.name ⊆ t'.columns.map Column.name) : WellPlaced c' rows := by
  intro name row hrow
  obtain ⟨t, ht, hcolumns⟩ := h name row hrow
  obtain ⟨t', ht', hsub⟩ := hc name t ht
  exact ⟨t', ht', fun column hvalue => hsub (hcolumns column hvalue)⟩

/-- Rows stay in their place when a table is changed and keeps its columns. -/
theorem WellPlaced.update (h : WellPlaced c rows) (name : String) {f : TableDef → TableDef}
    (hf : ∀ t, (f t).name = t.name)
    (hcolumns : ∀ t, t.columns.map Column.name ⊆ (f t).columns.map Column.name) :
    WellPlaced (c.update name f) rows := by
  refine h.mono fun other t ht => ?_
  refine ⟨_, by rw [c.table?_update name other hf, ht, Option.map_some], ?_⟩
  split_ifs
  · exact hcolumns t
  · exact fun _ hmem => hmem

/-- A catalog that is run on is that of the database. -/
theorem Database.catalog_of_run {os : List Operation} {d d' : Database} (h : d.run os = some d') :
    d.catalog.run os = some d'.catalog := by
  induction os generalizing d with
  | nil =>
    obtain rfl := Option.some.inj h
    rfl
  | cons o os ih =>
    obtain ⟨d₁, hd₁, h⟩ := Option.bind_eq_some_iff.mp h
    obtain ⟨-, hc⟩ := Option.ite_none_right_eq_some.mp hd₁
    obtain ⟨c₁, hc₁, rfl⟩ := Option.map_eq_some_iff.mp hc
    exact Option.bind_eq_some_iff.mpr ⟨c₁, hc₁, ih h⟩

/-- A script goes on after an operation that the catalog and the rows allow. -/
theorem Database.run_cons {o : Operation} {os : List Operation} {c₁ : Catalog} {d : Database}
    (hc : c.apply o = some c₁) (haccepts : o.Accepts rows)
    (hrun : (Database.mk c₁ (o.rewrite rows)).run os = some d) :
    (Database.mk c rows).run (o :: os) = some d := by
  refine Option.bind_eq_some_iff.mpr ⟨⟨c₁, o.rewrite rows⟩, ?_, hrun⟩
  unfold Database.apply
  rw [if_pos haccepts, hc, Option.map_some]

/-! ## Scripts that add -/

/-- The script adds tables, nullable columns without a default, indexes and foreign keys; the unique
indexes are on tables that it has added, and the foreign keys have columns that it has added. -/
def harmless : List String → List (String × String) → List Operation → Bool
  | _, _, [] => true
  | tables, columns, o :: os =>
    match o with
    | .createTable t => harmless (t.name :: tables) columns os
    | .createIndex i => (!i.unique || decide (i.table ∈ tables)) && harmless tables columns os
    | .addColumn table column =>
      column.nullable && column.serverDefault.isNone &&
        harmless tables ((table, column.name) :: columns) os
    | .createForeignKey table key =>
      (key.columns.any fun column => decide ((table, column) ∈ columns)) &&
        harmless tables columns os
    | _ => false

/-- A table is added without rows. -/
theorem createTable_spec {t : TableDef} (hwell : WellPlaced c rows)
    (h : c.apply (.createTable t) = some c') :
    rows t.name = [] ∧ WellPlaced c' rows := by
  obtain ⟨⟨hnone, -⟩, heq⟩ := Option.ite_none_right_eq_some.mp h
  obtain rfl := Option.some.inj heq
  refine ⟨hwell.eq_nil (Option.isNone_iff_eq_none.mp hnone), hwell.mono fun name t' ht' => ?_⟩
  refine ⟨t', ?_, fun _ hmem => hmem⟩
  show (c.tables ++ [t]).find? _ = _
  rw [List.find?_append]
  exact Option.or_eq_some_iff.mpr (Or.inl ht')

/-- A column is added without values. -/
theorem addColumn_spec {table : String} {column : Column} (hwell : WellPlaced c rows)
    (h : c.apply (.addColumn table column) = some c') :
    (∀ row ∈ rows table, row column.name = none) ∧ WellPlaced c' rows := by
  obtain ⟨hfresh, heq⟩ := Option.ite_none_right_eq_some.mp h
  obtain rfl := Option.some.inj heq
  obtain ⟨t, ht, hnot⟩ := (Option.any_eq_true _ _).mp hfresh
  refine ⟨fun row hrow => ?_, hwell.update table (fun _ => rfl) fun t' => ?_⟩
  · by_contra hvalue
    obtain ⟨t', ht', hcolumns⟩ := hwell table row hrow
    obtain rfl := Option.some.inj (ht.symm.trans ht')
    simp [TableDef.hasColumns, List.mem_map.mp (hcolumns _ hvalue)] at hnot
  · rw [List.map_append]
    exact List.subset_append_left _ _

/-- A harmless script runs on every database on whose catalog it runs, and leaves all rows as they
are. -/
theorem run_of_harmless {os : List Operation} {tables : List String}
    {columns : List (String × String)} (hharmless : harmless tables columns os = true)
    (h : c.run os = some c') (hwell : WellPlaced c rows) (htables : ∀ name ∈ tables, rows name = [])
    (hcolumns : ∀ p ∈ columns, ∀ row ∈ rows p.1, row p.2 = none) :
    (Database.mk c rows).run os = some ⟨c', rows⟩ ∧ WellPlaced c' rows := by
  induction os generalizing c tables columns with
  | nil =>
    obtain rfl := Option.some.inj h
    exact ⟨rfl, hwell⟩
  | cons o os ih =>
    obtain ⟨c₁, hc₁, hrest⟩ := Option.bind_eq_some_iff.mp h
    -- It is enough that the first operation is accepted and leaves the rows.
    have hnext : o.Accepts rows → o.rewrite rows = rows →
        (Database.mk c₁ rows).run os = some ⟨c', rows⟩ →
        (Database.mk c rows).run (o :: os) = some ⟨c', rows⟩ := by
      intro haccepts hrewrite hrun
      exact Database.run_cons hc₁ haccepts (hrewrite.symm ▸ hrun)
    cases o with
    | createTable t =>
      obtain ⟨hnil, hwell₁⟩ := createTable_spec hwell hc₁
      have hrest' : harmless (t.name :: tables) columns os = true := hharmless
      obtain ⟨hrun, hwell'⟩ := ih hrest' hrest hwell₁
        (List.forall_mem_cons.mpr ⟨hnil, htables⟩) hcolumns
      refine ⟨hnext trivial ?_ hrun, hwell'⟩
      rw [Operation.rewrite, ← hnil, Function.update_eq_self]
    | createIndex i =>
      obtain ⟨hunique, hharmless⟩ := Bool.and_eq_true_iff.mp hharmless
      obtain ⟨-, heq⟩ := Option.ite_none_right_eq_some.mp hc₁
      obtain rfl := Option.some.inj heq
      obtain ⟨hrun, hwell'⟩ := ih hharmless hrest hwell htables hcolumns
      refine ⟨hnext (fun hi => ?_) rfl hrun, hwell'⟩
      have htable : i.table ∈ tables := by
        rw [hi, Bool.not_true, Bool.false_or] at hunique
        exact of_decide_eq_true hunique
      show (rows i.table).Pairwise _
      rw [htables i.table htable]
      exact List.Pairwise.nil
    | addColumn table column =>
      obtain ⟨hcolumn, hharmless⟩ := Bool.and_eq_true_iff.mp hharmless
      obtain ⟨hnullable, hdefault⟩ := Bool.and_eq_true_iff.mp hcolumn
      have hrest' : harmless tables ((table, column.name) :: columns) os = true := hharmless
      obtain ⟨hnone, hwell₁⟩ := addColumn_spec hwell hc₁
      obtain ⟨hrun, hwell'⟩ := ih hrest' hrest hwell₁ htables
        (List.forall_mem_cons.mpr ⟨hnone, hcolumns⟩)
      refine ⟨hnext ⟨Option.isNone_iff_eq_none.mp hdefault, Or.inl hnullable⟩ ?_ hrun, hwell'⟩
      have hsame : ((rows table).map fun row => Function.update row column.name none) =
          rows table := by
        refine (List.map_congr_left fun row hrow => ?_).trans (List.map_id _)
        rw [← hnone row hrow, Function.update_eq_self]
        rfl
      rw [Operation.rewrite, hsame, Function.update_eq_self]
    | createForeignKey table key =>
      obtain ⟨hkey, hharmless⟩ := Bool.and_eq_true_iff.mp hharmless
      obtain ⟨-, heq⟩ := Option.ite_none_right_eq_some.mp hc₁
      obtain rfl := Option.some.inj heq
      have hwell₁ := hwell.update table
        (f := fun t => { t with foreignKeys := t.foreignKeys ++ [key] })
        (fun _ => rfl) fun _ _ hmem => hmem
      obtain ⟨hrun, hwell'⟩ := ih hharmless hrest hwell₁ htables hcolumns
      obtain ⟨column, hmem, hadded⟩ := List.any_eq_true.mp hkey
      refine ⟨hnext (fun row hrow => Or.inl ⟨column, hmem, ?_⟩) rfl hrun, hwell'⟩
      exact hcolumns _ (of_decide_eq_true hadded) row hrow
    | _ => exact absurd hharmless (by simp [harmless])

/-! ## Scripts that drop -/

/-- The script drops tables and indexes. -/
def dropsOnly (os : List Operation) : Bool :=
  os.all fun o =>
    match o with
    | .dropTable _ => true
    | .dropIndex _ => true
    | _ => false

/-- The rows of a table go with it. -/
theorem dropTable_spec {name : String} (hwell : WellPlaced c rows)
    (h : c.apply (.dropTable name) = some c') :
    (c'.tables = c.tables.filter fun t => t.name ≠ name) ∧
      WellPlaced c' (Function.update rows name []) := by
  obtain ⟨-, heq⟩ := Option.ite_none_right_eq_some.mp h
  obtain rfl := Option.some.inj heq
  refine ⟨rfl, fun other row hrow => ?_⟩
  by_cases hother : other = name
  · rw [hother, Function.update_self] at hrow
    exact absurd hrow List.not_mem_nil
  · rw [Function.update_of_ne hother] at hrow
    rw [c.table?_filter hother]
    exact hwell other row hrow

/-- A script of drops runs on every database on whose catalog it runs, and leaves the rows of the
tables that remain. -/
theorem run_of_dropsOnly {os : List Operation} (hdrops : dropsOnly os = true)
    (h : c.run os = some c') (hwell : WellPlaced c rows) :
    c'.tables ⊆ c.tables ∧ ∃ rows', (Database.mk c rows).run os = some ⟨c', rows'⟩ ∧
      WellPlaced c' rows' ∧ ∀ t ∈ c'.tables, rows' t.name = rows t.name := by
  induction os generalizing c rows with
  | nil =>
    obtain rfl := Option.some.inj h
    exact ⟨fun _ ht => ht, rows, rfl, hwell, fun _ _ => rfl⟩
  | cons o os ih =>
    obtain ⟨c₁, hc₁, hrest⟩ := Option.bind_eq_some_iff.mp h
    obtain ⟨hdrop, hdrops⟩ := Bool.and_eq_true_iff.mp hdrops
    cases o with
    | dropTable name =>
      obtain ⟨htables, hwell₁⟩ := dropTable_spec hwell hc₁
      obtain ⟨hsub, rows', hrun, hwell', hkept⟩ := ih hdrops hrest hwell₁
      have hmem : ∀ t ∈ c'.tables, t ∈ c.tables ∧ t.name ≠ name := by
        intro t ht
        have hmem := hsub ht
        rw [htables] at hmem
        exact ⟨List.mem_of_mem_filter hmem, of_decide_eq_true (List.mem_filter.mp hmem).2⟩
      refine ⟨fun t ht => (hmem t ht).1, rows', Database.run_cons hc₁ trivial hrun, hwell',
        fun t ht => ?_⟩
      rw [hkept t ht, Function.update_of_ne (hmem t ht).2]
    | dropIndex name =>
      obtain ⟨-, heq⟩ := Option.ite_none_right_eq_some.mp hc₁
      obtain rfl := Option.some.inj heq
      obtain ⟨hsub, rows', hrun, hwell', hkept⟩ := ih hdrops hrest hwell
      exact ⟨hsub, rows', Database.run_cons hc₁ trivial hrun, hwell', hkept⟩
    | _ => exact absurd hdrop (by simp)

end Ddl
