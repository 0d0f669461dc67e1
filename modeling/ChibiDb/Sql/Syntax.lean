import Mathlib.Tactic
/-!
# The Syntax of SQL

What the parser makes of a text.

## Main definitions

* `Expr`, `SelectStmt`, `Stmt`: The syntax trees. The values that evaluation puts
  in an expression are not part of what is parsed.
-/

namespace ChibiDb.Sql

/-- A name is a list of characters. -/
abbrev Name := List Char

/-- Binary operators. -/
inductive BinOp where
  | add | sub | mul | div | mod | eq | notEq | lt | le | gt | ge | and | or

/-- Unary operators. -/
inductive UnOp where
  | neg | not

/-- Aggregates. -/
inductive AggFunc where
  | count | sum | avg | min | max
  deriving DecidableEq

/-- The kinds of joins. -/
inductive JoinKind where
  | cross | inner | left | right

/-- A table in FROM. -/
structure TableRef where
  name : Name
  aliasName : Option Name

mutual

/-- Expressions. -/
inductive Expr where
  | int (n : Int)
  | float (negative : Bool) (text : List Char)
  | str (s : List Char)
  | null
  | column (name : Name)
  | unary (op : UnOp) (e : Expr)
  | binary (op : BinOp) (l r : Expr)
  | isNull (e : Expr) (negated : Bool)
  | like (e pattern : Expr) (negated : Bool) (escape : Option Char)
  | function (name : Name) (args : List Expr)
  | aggregate (f : AggFunc) (arg : Option Expr) (distinct : Bool)
  | qualifiedColumn (table name : Name)
  | inSubquery (e : Expr) (sub : SelectStmt) (negated : Bool)
  | existsSub (sub : SelectStmt)
  | scalarSubquery (sub : SelectStmt)

/-- An item of a SELECT. -/
inductive SelectItem where
  | star
  | expr (e : Expr)
  | aliased (e : Expr) (aliasName : Name)

/-- A SELECT statement. -/
structure SelectStmt where
  distinct : Bool
  items : List SelectItem
  sources : List TableRef
  joins : List JoinKind
  ons : List Expr
  selection : Option Expr
  groupBy : List Expr
  having : Option Expr
  orderBy : List (Expr × Bool)
  limit : Option (Expr × Option Expr)
  setOps : List (Bool × SelectStmt)

end

/-- The types of columns. -/
inductive DataType where
  | int | float | char (n : Nat) | date | text

/-- A column of CREATE TABLE. -/
structure ColumnDef where
  name : Name
  dtype : DataType
  notNull : Bool
  primaryKey : Bool
  unique : Bool
  default : Option Expr

/-- The storage engines. -/
inductive EngineKind where
  | heap | lsm

/-- The page layouts. -/
inductive PageLayout where
  | row | pax

/-- What can be granted. -/
inductive Privilege where
  | read | write
  deriving DecidableEq

/-- BEGIN, COMMIT and ROLLBACK. -/
inductive TrxCtl where
  | begin | commit | rollback

/-- Statements. -/
inductive Stmt where
  | trx (ctl : TrxCtl)
  | checkpoint
  | vacuum
  | showTables
  | showDatabases
  | showColumns (table : Name)
  | explain (stmt : Stmt)
  | login (name : Name) (password : List Char)
  | select (s : SelectStmt)
  | createDatabase (name : Name)
  | createUser (name : Name) (password : List Char)
  | createView (name : Name) (sql : List Char)
  | createIndex (name table column : Name)
  | createTable (name : Name) (columns : List ColumnDef) (engine : Option EngineKind)
      (layout : Option PageLayout)
  | dropDatabase (name : Name)
  | dropUser (name : Name)
  | dropIndex (name : Name)
  | dropView (name : Name)
  | dropTable (name : Name)
  | use (name : Name)
  | grant (privileges : List Privilege) (database user : Name)
  | revoke (privileges : List Privilege) (database user : Name)
  | insert (table : Name) (columns : Option (List Name)) (rows : List (List Expr))
  | delete (table : Name) (selection : Option Expr)
  | update (table : Name) (assignments : List (Name × Expr)) (selection : Option Expr)

end ChibiDb.Sql
