import ChibiDb.Core.Codec
import ChibiDb.Data.BTreeMap
import Mathlib.Data.String.Basic

/-!
# The Catalog and DDL

The in-memory catalog maps names to tables, indexes and views. A table and a
view may not share a name; an index has a name space of its own, one for the
whole database, and the index that backs a PRIMARY KEY or UNIQUE column gets a
name made of the table's and the column's.

A DDL statement returns a message or an error, and leaves a catalog behind in
either case, so each function here returns both. CREATE TABLE adds the table
first and then one index after the other, and does not take anything back when
an index name turns out to be in use.

What an expression evaluates to, how a date is read and how a value is printed
are parameters: DDL uses them for column defaults only. The rows CREATE INDEX
puts into its index and the select a view is checked with may fail for reasons
outside the catalog, so their outcome is part of the statement. Files are always
created: only the counters that number them are kept.

## Main definitions

* `Evaluator`: What DDL needs of expressions and values.
* `Catalog`: Tables, indexes and views by name.
* `Catalog.createTable`, `Catalog.createIndex`, …: The catalog's own operations.
* `executeCreateTable` and the other statements.
* `Ddl`, `executeDdl`: A statement and its execution.
-/

namespace ChibiDb

/-- The types a column can have. -/
inductive DataType where
  | int
  | float
  | char (n : Nat)
  | date
  | text
  deriving DecidableEq, Repr

/-- How the rows of a table are stored. -/
inductive EngineKind where
  | heap
  | lsm
  deriving DecidableEq, Repr

/-- How a heap page is laid out. -/
inductive PageLayout where
  | row
  | pax
  deriving DecidableEq, Repr

/-- What DDL needs of expressions and values. -/
structure Evaluator (Expr : Type) where
  evalConst : Expr → Except String Value
  parseDate : String → Except String Int
  intAsFloat : Int → UInt64
  display : Value → String

/-- A column as CREATE TABLE gives it. -/
structure ColumnDef (Expr : Type) where
  name : String
  dtype : DataType
  notNull : Bool
  primaryKey : Bool
  unique : Bool
  default : Option Expr

/-- A CREATE TABLE statement. -/
structure CreateTableStmt (Expr : Type) where
  name : String
  columns : List (ColumnDef Expr)
  engine : Option EngineKind
  layout : Option PageLayout

/-- A column as the catalog keeps it. -/
structure ColumnDesc where
  name : String
  dtype : DataType
  notNull : Bool
  primaryKey : Bool
  unique : Bool
  default : Option Value
  deriving DecidableEq, Repr

/-- What the catalog keeps of a table. -/
structure CatalogTable where
  columns : List ColumnDesc
  fileNo : Nat
  engineKind : EngineKind
  layout : PageLayout
  deriving DecidableEq, Repr

/-- What the catalog keeps of an index. -/
structure CatalogIndex where
  name : String
  table : String
  column : String
  /-- It backs a constraint and may not be dropped on its own. -/
  unique : Bool
  fileNo : Nat
  deriving DecidableEq, Repr

/-- Tables, indexes and views by name. -/
structure Catalog where
  tables : BTreeMap String CatalogTable
  indexes : BTreeMap String CatalogIndex
  views : BTreeMap String String

namespace Catalog

/-- A catalog with nothing in it. -/
def empty : Catalog := ⟨.empty, .empty, .empty⟩

/-- Whether a table or a view has this name. -/
def taken (c : Catalog) (name : String) : Bool :=
  (c.tables.get? name).isSome || (c.views.get? name).isSome

/-- Add a table; a name is shared with the views. -/
def createTable (c : Catalog) (name : String) (t : CatalogTable) : Except String Catalog :=
  if c.taken name then .error ("table already exists: " ++ name)
  else .ok { c with tables := c.tables.alter name (fun _ => t) }

/-- Add an index. -/
def createIndex (c : Catalog) (ix : CatalogIndex) : Except String Catalog :=
  if (c.indexes.get? ix.name).isSome then .error ("index already exists: " ++ ix.name)
  else .ok { c with indexes := c.indexes.alter ix.name (fun _ => ix) }

/-- Take an index out. -/
def dropIndex (c : Catalog) (name : String) : Except String Catalog :=
  match c.indexes.get? name with
  | none => .error ("no such index: " ++ name)
  | some _ => .ok { c with indexes := c.indexes.erase name }

/-- The indexes of a table. -/
def indexNames (c : Catalog) (table : String) : List String :=
  (c.indexes.entries.filter (fun e => decide (e.2.table = table))).map (fun e => e.2.name)

/-- Take a table out, with its indexes. -/
def dropTable (c : Catalog) (name : String) : Except String Catalog :=
  match c.tables.get? name with
  | none => .error ("no such table: " ++ name)
  | some _ => .ok { c with
      tables := c.tables.erase name
      indexes := (c.indexNames name).foldl BTreeMap.erase c.indexes }

/-- Add a view; a name is shared with the tables. -/
def createView (c : Catalog) (name sql : String) : Except String Catalog :=
  if c.taken name then .error ("already exists: " ++ name)
  else .ok { c with views := c.views.alter name (fun _ => sql) }

/-- Take a view out. -/
def dropView (c : Catalog) (name : String) : Except String Catalog :=
  match c.views.get? name with
  | none => .error ("no such view: " ++ name)
  | some _ => .ok { c with views := c.views.erase name }

end Catalog

/-- The catalog with the counters that number files, and the configured defaults for new tables. -/
structure CatalogDb where
  catalog : Catalog
  nextTableFile : Nat
  nextIndexFile : Nat
  defaultEngine : EngineKind
  defaultLayout : PageLayout

/-- What a statement returns, and the database it leaves. -/
abbrev DdlResult := Except String String × CatalogDb

namespace CatalogDb

/-- A database with an empty catalog. -/
def new (engine : EngineKind) (layout : PageLayout) : CatalogDb := ⟨.empty, 0, 0, engine, layout⟩

/-- Use the catalog a catalog operation returns, or report its error. -/
def adopt (db : CatalogDb) : Except String Catalog → DdlResult
  | .error e => (.error e, db)
  | .ok c => (.ok "SUCCESS", { db with catalog := c })

end CatalogDb

section Execution

variable {Expr : Type} (ev : Evaluator Expr)

/-- Bring a value to a column's type. -/
def coerce (v : Value) (dtype : DataType) (col : String) : Except String Value :=
  match v, dtype with
  | .null, _ => .ok .null
  | .int n, .int => .ok (.int n)
  | .int n, .float => .ok (.float (ev.intAsFloat n))
  | .float x, .float => .ok (.float x)
  | .str s, .char n =>
    if s.length ≤ n then .ok (.str s)
    else .error ("cannot insert '" ++ s ++ "' into column " ++ col)
  | .date d, .date => .ok (.date d)
  | .str s, .text => .ok (.str s)
  | .str s, .date => match ev.parseDate s with
    | .ok d => .ok (.date d)
    | .error e => .error ("cannot insert into column " ++ col ++ ": " ++ e)
  | v, _ => .error ("cannot insert " ++ ev.display v ++ " into column " ++ col)

/-- The default of a column: its constant, coerced to the type of the column. -/
def columnDefault (cd : ColumnDef Expr) : Except String (Option Value) :=
  match cd.default with
  | none => .ok none
  | some e => match ev.evalConst e with
    | .error err => .error err
    | .ok v => match coerce ev v cd.dtype cd.name with
      | .error err => .error err
      | .ok v => .ok (some v)

/-- A column as the catalog keeps it. -/
def columnDesc (cd : ColumnDef Expr) : Except String ColumnDesc :=
  match columnDefault ev cd with
  | .error err => .error err
  | .ok default =>
    if cd.notNull ∧ default = some .null then
      .error ("column " ++ cd.name ++ " cannot have a NULL default")
    else .ok ⟨cd.name, cd.dtype, cd.notNull, cd.primaryKey, cd.unique, default⟩

/-- The columns of the new table, up to the first error. -/
def columnDescs : List (ColumnDef Expr) → Except String (List ColumnDesc)
  | [] => .ok []
  | cd :: cds => match columnDesc ev cd with
    | .error err => .error err
    | .ok col => match columnDescs cds with
      | .error err => .error err
      | .ok cols => .ok (col :: cols)

/-- The name of the index behind a PRIMARY KEY or UNIQUE column. -/
def uniqueIndexName (table column : String) : String := "__unique_" ++ table ++ "_" ++ column

/-- Whether a column has an index behind it. -/
def ColumnDef.constrained (cd : ColumnDef Expr) : Bool := cd.primaryKey || cd.unique

/-- Create the indexes behind the columns, one after the other. -/
def createUniqueIndexes (table : String) : List (ColumnDef Expr) → CatalogDb → DdlResult
  | [], db => (.ok "SUCCESS", db)
  | cd :: cds, db =>
    if cd.constrained then
      -- the file is made before the name is looked up
      let file := db.nextIndexFile
      let db := { db with nextIndexFile := file + 1 }
      match db.catalog.createIndex
          ⟨uniqueIndexName table cd.name, table, cd.name, true, file⟩ with
      | .error e => (.error e, db)
      | .ok c => createUniqueIndexes table cds { db with catalog := c }
    else createUniqueIndexes table cds db

/-- The engine and the layout of the new table. -/
def tableStorage (db : CatalogDb) (c : CreateTableStmt Expr) :
    Except String (EngineKind × PageLayout) :=
  let kind := c.engine.getD db.defaultEngine
  let layout := c.layout.getD db.defaultLayout
  if kind = .lsm ∧ layout ≠ .row then
    .error "page_layout=pax is only supported for engine=heap"
  else .ok (kind, layout)

/-- CREATE TABLE: the table, and the indexes behind its constraints. -/
def executeCreateTable (db : CatalogDb) (c : CreateTableStmt Expr) : DdlResult :=
  match columnDescs ev c.columns with
  | .error e => (.error e, db)
  | .ok columns => match tableStorage db c with
    | .error e => (.error e, db)
    | .ok (kind, layout) =>
      let file := db.nextTableFile
      let db := { db with nextTableFile := file + 1 }
      match db.catalog.createTable c.name ⟨columns, file, kind, layout⟩ with
      | .error e => (.error e, db)
      | .ok cat => createUniqueIndexes c.name c.columns { db with catalog := cat }

/-- The DDL statements. -/
inductive Ddl (Expr : Type) where
  | createTable (c : CreateTableStmt Expr)
  /-- `build` is how filling the new index goes. -/
  | createIndex (name table column : String) (build : Except String Unit)
  | dropIndex (name : String)
  | dropTable (name : String)
  /-- `check` is how planning and running the view's select goes. -/
  | createView (name sql : String) (check : Except String Unit)
  | dropView (name : String)

/-- CREATE INDEX: the column has to exist. -/
def executeCreateIndex (db : CatalogDb) (name table column : String) (build : Except String Unit) :
    DdlResult :=
  match db.catalog.tables.get? table with
  | none => (.error ("no such table: " ++ table), db)
  | some t =>
    if t.columns.any (fun col => decide (col.name = column)) then
      let file := db.nextIndexFile
      let db := { db with nextIndexFile := file + 1 }
      match build with
      | .error e => (.error e, db)
      | .ok _ => db.adopt (db.catalog.createIndex ⟨name, table, column, false, file⟩)
    else (.error ("no such column: " ++ column), db)

/-- DROP INDEX: one that backs a constraint stays. -/
def executeDropIndex (db : CatalogDb) (name : String) : DdlResult :=
  if (db.catalog.indexes.get? name).any (fun ix => ix.unique) then
    (.error ("cannot drop index backing a constraint: " ++ name), db)
  else db.adopt (db.catalog.dropIndex name)

/-- CREATE VIEW, if the select of the view can be run. -/
def executeCreateView (db : CatalogDb) (name sql : String) : Except String Unit → DdlResult
  | .error e => (.error e, db)
  | .ok _ => db.adopt (db.catalog.createView name sql)

/-- How a session stands when it issues a statement. -/
structure DdlSession where
  /-- Inside BEGIN … COMMIT. -/
  explicit : Bool
  /-- Some other session has an open transaction. -/
  othersOpen : Bool
  deriving DecidableEq, Repr

/-- A DDL statement, which needs the database to itself. -/
def executeDdl (db : CatalogDb) (session : DdlSession) (stmt : Ddl Expr) : DdlResult :=
  if session.explicit then (.error "DDL inside a transaction is not supported", db)
  else if session.othersOpen then (.error "schema is locked by an open transaction", db)
  else match stmt with
    | .createTable c => executeCreateTable ev db c
    | .createIndex name table column build => executeCreateIndex db name table column build
    | .dropIndex name => executeDropIndex db name
    | .dropTable name => db.adopt (db.catalog.dropTable name)
    | .createView name sql check => executeCreateView db name sql check
    | .dropView name => db.adopt (db.catalog.dropView name)

/-- A statement as a step. Every statement returns, with a message or an error. -/
def ddlStep (db : CatalogDb) (l : DdlSession × Ddl Expr) : Option CatalogDb :=
  some (executeDdl ev db l.1 l.2).2

end Execution

end ChibiDb
