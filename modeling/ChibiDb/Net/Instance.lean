import ChibiDb.Data.Transition
import ChibiDb.Sql.Lexer
import ChibiDb.Sql.Syntax

/-!
# Sessions at an Instance

An instance keeps named databases, each opened once and cached under its name, and
its users and grants in tables of its own. A session has a user, a current database
and at most one transaction. A statement is checked against the grants and then
executed. A statement for a database is executed in two steps: the session takes a
handle of the database, and then waits for its lock and runs the statement. Between
all of these other sessions take theirs.

The engine is reduced to what its transactions leave in a database. What a
statement writes, whether it fails and how its commit ends is said by the step; so
is what the file system does. The tables of the instance are used through SQL
texts. A text that the lexer rejects ends the call there; whether a text that it
accepts finds the tables usable is said by the step. Of a call with several texts
the first that has a name in it is written out, and the others are one with what
they do. Passwords are kept as they are, not as hashes.

An id carries the opened database that handed it out; in the code it is a number.

## Main definitions

* `Database`, `executeStmtWith`: An opened database and a statement in it.
* `metaSql`: A text for the tables of the instance.
* `Store`, `locate`, `executeIn`: The databases of an instance and a statement for one of them.
* `Instance`, `authorize`, `execute`, `finish`: The instance, the check and the execution.
* `Instance.step`: The steps of all sessions.
-/

namespace ChibiDb.Net

open Sql

/-! ### A database -/

/-- The id of a transaction. -/
structure TrxId where
  home : Nat
  no : Nat
  deriving DecidableEq

/-- A change of a row, by number. -/
abbrev Change := Nat

/-- An open transaction of a session. -/
structure TrxState where
  id : TrxId
  undo : List Change
  deriving DecidableEq

/-- An opened database: what its transactions have left there. -/
structure Database where
  nextId : Nat
  rows : List (TrxId × Change) := []
  committed : List TrxId := []
  /-- The records of the log; a commit mark has no change. -/
  log : List (TrxId × Option Change) := []
  /-- The undo actions that were applied. -/
  undone : List (TrxId × Change) := []

/-- How a commit ends. One that fails has logged some of its records. -/
inductive CommitEnd where
  | done
  | failed (logged : Nat)

/-- What the engine makes of a statement. -/
structure Ran where
  changes : List Change := []
  ok : Bool := true
  commit : CommitEnd := .done

/-- Statements that change nothing. -/
def isReadOnly : Stmt → Bool
  | .select _ | .explain _ | .showTables | .showColumns _ => true
  | _ => false

/-- Statements that need the database exclusively. -/
def isExclusive : Stmt → Bool
  | .createIndex .. | .createTable .. | .createView .. | .dropIndex _ | .dropTable _
  | .dropView _ | .checkpoint | .vacuum => true
  | _ => false

/-- What a statement can end with. -/
inductive Error where
  | invalidName (name : Name) | reservedName (name : Name)
  | databaseExists (name : Name) | noSuchDatabase (name : Name)
  | userExists (name : Name) | noSuchUser (name : Name)
  | notLoggedIn | authenticationFailed | permissionDenied (user database : Name)
  | inTransaction | readOnlySchema | alreadyBegun | noTransaction
  | syntaxError (e : LexError)
  | engine | tables | files
  deriving DecidableEq

namespace Database

/-- A transaction begins: its id, and the database behind it. -/
def beginOpen (d : Database) (home : Nat) : TrxId × Database :=
  (⟨home, d.nextId⟩, { d with nextId := d.nextId + 1 })

/-- The records a commit appends: none if nothing was written. -/
def records (t : TrxState) : List (TrxId × Option Change) :=
  if t.undo = [] then [] else t.undo.map (fun w => (t.id, some w)) ++ [(t.id, none)]

/-- Take back what a transaction has changed. -/
def rollbackTrx (d : Database) (t : TrxState) : Database :=
  { d with rows := d.rows.filter (fun r => ¬ (r.1 = t.id ∧ r.2 ∈ t.undo)),
           undone := d.undone ++ t.undo.map (Prod.mk t.id) }

/-- Commit, or take everything back if that fails. -/
def commitTrx (d : Database) (t : TrxState) : CommitEnd → Database × Option Error
  | .done => ({ d with log := d.log ++ records t, committed := t.id :: d.committed }, none)
  | .failed logged => ({ d with log := d.log ++ (records t).take logged }.rollbackTrx t,
      some .engine)

/-- Run a statement in the transaction `t`. A statement that fails takes back what
    it has changed, and only that. -/
def run (d : Database) (t : TrxState) (r : Ran) : Database × TrxState × Option Error :=
  if r.ok then
    ({ d with rows := d.rows ++ r.changes.map (Prod.mk t.id) },
      { t with undo := t.undo ++ r.changes }, none)
  else ({ d with undone := d.undone ++ r.changes.map (Prod.mk t.id) }, t, some .engine)

/-- A statement of a session in the opened database number `home`. -/
def executeStmtWith (d : Database) (home : Nat) (trx : Option TrxState) (stmt : Stmt) (r : Ran) :
    Database × Option TrxState × Option Error :=
  match stmt, trx with
  | .trx .begin, some t => (d, some t, some .alreadyBegun)
  | .trx .begin, none => ((d.beginOpen home).2, some ⟨(d.beginOpen home).1, []⟩, none)
  | .trx _, none => (d, none, some .noTransaction)
  | .trx .commit, some t => ((d.commitTrx t r.commit).1, none, (d.commitTrx t r.commit).2)
  | .trx .rollback, some t => (d.rollbackTrx t, none, none)
  | stmt, trx =>
    if isReadOnly stmt then (d, trx, if r.ok then none else some .engine)
    else match trx with
      | some t => ((d.run t r).1, some (d.run t r).2.1, (d.run t r).2.2)
      | none =>
        -- A transaction of its own.
        let ran := (d.beginOpen home).2.run ⟨(d.beginOpen home).1, []⟩ r
        match ran.2.2 with
        | some e => (ran.1, none, some e)
        | none => ((ran.1.commitTrx ran.2.1 r.commit).1, none, (ran.1.commitTrx ran.2.1 r.commit).2)

end Database

/-! ### The instance -/

/-- Where a session works. -/
structure Work where
  trx : Option TrxState := none
  currentDb : Option Name := none

/-- What a session does with a handle it has taken. -/
inductive Task where
  | statement (stmt : Stmt)
  /-- The session goes away, and its transaction is rolled back. -/
  | close

/-- A session, and what it is at. -/
structure Session extends Work where
  user : Option Name := none
  /-- A statement that was checked and is still to be executed. -/
  checked : Option Stmt := none
  /-- The handle the session has taken, and what for. -/
  holds : Option (Nat × Task) := none

/-- The databases of an instance. -/
structure Store where
  /-- The rows of the table of databases, and the directories. -/
  registered : List Name
  dirs : List Name
  /-- The cached handles, and all databases that were ever opened. -/
  handles : List (Name × Nat) := []
  opened : List Database := []

/-- An instance with its sessions, and its tables of users and grants. -/
structure Instance where
  authEnabled : Bool
  users : List (Name × List Char)
  privileges : List (Name × Name × Privilege)
  store : Store
  sessions : Nat → Session

/-- What a step finds outside: the engine, the tables of the instance, the files,
    and the next id of a database that is opened. -/
structure Outcome where
  ran : Ran := {}
  tables : Bool := true
  files : Bool := true
  nextId : Nat := 1
  /-- The grants that a REVOKE removes. Its text has three literals, which the lexer reads as two
      others, so they are not those it names. -/
  revoked : List (Name × Name × Privilege) := []

/-- The directory of the tables of the instance. -/
def metaDir : Name := "chibi_meta".toList

/-- The database of a session that has not chosen one. -/
def defaultDb : Name := "main".toList

/-- The virtual database of metadata. -/
def informationSchema : Name := "information_schema".toList

/-- A name of letters, digits and underscores. -/
def validIdent (name : Name) : Bool := name ≠ [] && name.all isIdentChar

/-- A database, or all of them. -/
def validScope (database : Name) : Bool := database = ['*'] || validIdent database

/-- What is wrong with a name of a database. -/
def nameError (name : Name) : Option Error :=
  if name = metaDir then some (.reservedName name)
  else if validIdent name then none else some (.invalidName name)

/-! ### The tables of the instance -/

/-- Run a text on the tables of the instance: what goes wrong. -/
def metaSql (text : List Char) (o : Outcome) : Option Error :=
  match lex text with
  | .error e => some (.syntaxError e)
  | .ok _ => if o.tables then none else some .tables

/-- A text with a name in quotes. -/
def quoted (before : String) (name : Name) (behind : String) : List Char :=
  before.toList ++ '\'' :: (name ++ '\'' :: behind.toList)

/-- `databases`: the names of the registered databases. -/
def databasesSql : List Char := "select name from databases;".toList

/-- The row that CREATE DATABASE writes. -/
def insertDatabaseSql (name : Name) : List Char :=
  quoted "insert into databases values (" name ");"

/-- The row that DROP DATABASE deletes. -/
def deleteDatabaseSql (name : Name) : List Char :=
  quoted "delete from databases where name = " name ";"

/-- `any_users`. -/
def countUsersSql : List Char := "select count(*) from users;".toList

/-- `user_exists`, which CREATE USER, DROP USER and GRANT begin with. -/
def userExistsSql (name : Name) : List Char :=
  quoted "select name from users where name = " name ";"

/-- `authenticate`, for LOGIN. -/
def authenticateSql (name : Name) : List Char :=
  quoted "select password from users where name = " name ";"

/-- `native_verifier`, for the handshake of a MySQL client. -/
def nativeVerifierSql (name : Name) : List Char :=
  quoted "select native from users where name = " name ";"

/-- `as_str`. -/
def privilegeName : Privilege → String
  | .read => "read"
  | .write => "write"

/-- `has_privilege`. -/
def hasPrivilegeSql (user database : Name) (p : Privilege) : List Char :=
  quoted "select kind from privileges where username = " user " and kind = " ++
    quoted "" (privilegeName p).toList " and (dbname = " ++ quoted "" database " or dbname = " ++
    quoted "" ['*'] ");"

/-- The `revoke` that REVOKE and GRANT share. -/
def revokeSql (user database : Name) (p : Privilege) : List Char :=
  quoted "delete from privileges where username = " user " and dbname = " ++
    quoted "" database " and kind = " ++ quoted "" (privilegeName p).toList ";"

/-! ### What a statement is for -/

/-- The privilege a statement needs on its current database. -/
def statementPrivilege : Stmt → Option Privilege
  | .select _ | .explain _ | .showTables | .showColumns _ => some .read
  | .insert .. | .update .. | .delete .. => some .write
  | stmt => if isExclusive stmt then some .write else none

/-- Statements that need no check. -/
def isLogin : Stmt → Bool
  | .login .. => true
  | _ => false

/-- The statement that may come before any login. -/
def isCreateUser : Stmt → Bool
  | .createUser .. => true
  | _ => false

/-- Statements that only need a login. -/
def isAccountStmt : Stmt → Bool
  | .createUser .. | .dropUser _ | .grant .. | .revoke .. | .createDatabase _
  | .dropDatabase _ => true
  | _ => false

/-- Statements for the whole instance. -/
def isGlobal : Stmt → Bool
  | .use _ => true
  | stmt => isLogin stmt || isAccountStmt stmt

namespace Store

/-- The directory is made before the row is written. -/
def createDatabase (s : Store) (name : Name) (o : Outcome) : Store × Option Error :=
  match (nameError name).or (metaSql databasesSql o) with
  | some e => (s, some e)
  | none =>
    if name ∈ s.registered then (s, some (.databaseExists name))
    else if ¬ o.files then (s, some .files)
    else match metaSql (insertDatabaseSql name) o with
      | some e => ({ s with dirs := name :: s.dirs }, some e)
      | none => ({ s with dirs := name :: s.dirs, registered := name :: s.registered }, none)

/-- The cached handle goes first, whatever comes of the rest. -/
def dropDatabase (s : Store) (name : Name) (o : Outcome) : Store × Option Error :=
  match nameError name with
  | some e => (s, some e)
  | none =>
    let s := { s with handles := s.handles.filter (fun h => h.1 ≠ name) }
    if name ∉ s.dirs then (s, some (.noSuchDatabase name))
    else if ¬ o.files then (s, some .files)
    else
      let s := { s with dirs := s.dirs.filter (· ≠ name) }
      match metaSql (deleteDatabaseSql name) o with
      | some e => (s, some e)
      | none => ({ s with registered := s.registered.filter (· ≠ name) }, none)

/-- The handle of a database, which is opened on its first use. -/
def database (s : Store) (name : Name) (o : Outcome) : Store × Except Error Nat :=
  match nameError name with
  | some e => (s, .error e)
  | none => match s.handles.lookup name with
    | some h => (s, .ok h)
    | none =>
      if name ∉ s.dirs then (s, .error (.noSuchDatabase name))
      else if ¬ o.files then (s, .error .files)
      else ({ s with handles := (name, s.opened.length) :: s.handles,
                     opened := s.opened ++ [{ nextId := o.nextId }] }, .ok s.opened.length)

/-- The current database of a session, the default one if it has none. -/
def ensureCurrentDb (s : Store) (current : Option Name) (o : Outcome) :
    Store × Except Error Name :=
  match current with
  | some name => (s, .ok name)
  | none => match metaSql databasesSql o with
    | some e => (s, .error e)
    | none =>
      if defaultDb ∈ s.registered then (s, .ok defaultDb)
      else match s.createDatabase defaultDb o with
        | (s, some e) => (s, .error e)
        | (s, none) => (s, .ok defaultDb)

/-- A session takes the handle of its current database. -/
def locate (s : Store) (w : Work) (o : Outcome) : Store × Work × Except Error Nat :=
  match s.ensureCurrentDb w.currentDb o with
  | (s, .error e) => (s, w, .error e)
  | (s, .ok name) => ((s.database name o).1, { w with currentDb := some name },
      (s.database name o).2)

/-- A statement is run in the database of a handle. -/
def executeIn (s : Store) (h : Nat) (w : Work) (stmt : Stmt) (r : Ran) :
    Store × Work × Option Error :=
  match s.opened[h]? with
  | none => (s, w, some .engine)
  | some d =>
    let (d, trx, e) := d.executeStmtWith h w.trx stmt r
    ({ s with opened := s.opened.set h d }, { w with trx := trx }, e)

/-- The transaction of a session is rolled back in the database of a handle. -/
def rollbackIn (s : Store) (h : Nat) (w : Work) : Store :=
  match w.trx with
  | none => s
  | some t => { s with opened := s.opened.modify h (fun d => d.rollbackTrx t) }

end Store

namespace Instance

/-- The user has a row in the table of users. -/
def hasUser (s : Instance) (name : Name) : Prop := ∃ u ∈ s.users, u.1 = name

instance decidableHasUser (s : Instance) (name : Name) : Decidable (s.hasUser name) :=
  inferInstanceAs (Decidable (∃ u ∈ s.users, u.1 = name))

/-- The user has a grant on the database or on all of them. -/
def hasPrivilege (s : Instance) (user database : Name) (p : Privilege) : Prop :=
  (user, database, p) ∈ s.privileges ∨ (user, ['*'], p) ∈ s.privileges

instance decidableHasPrivilege (s : Instance) (user database : Name) (p : Privilege) :
    Decidable (s.hasPrivilege user database p) :=
  inferInstanceAs (Decidable (_ ∨ _))

/-- Whether a session may issue a statement. -/
def authorize (s : Instance) (c : Session) (stmt : Stmt) (o : Outcome) : Option Error :=
  if ¬ s.authEnabled ∨ isLogin stmt then none
  else match c.user with
    | none =>
      -- The first account may be created before anyone logs in.
      if isCreateUser stmt then match metaSql countUsersSql o with
        | some e => some e
        | none => if s.users = [] then none else some .notLoggedIn
      else some .notLoggedIn
    | some user =>
      if isAccountStmt stmt ∨ c.currentDb = some informationSchema then none
      else match statementPrivilege stmt with
        | none => none
        | some p =>
          let database := c.currentDb.getD defaultDb
          if ¬ validIdent user then some (.invalidName user)
          else if ¬ validScope database then some (.invalidName database)
          else match metaSql (hasPrivilegeSql user database p) o with
            | some e => some e
            | none =>
              if s.hasPrivilege user database p then none
              else some (.permissionDenied user database)

/-- Put a session in its place. -/
def put (s : Instance) (i : Nat) (c : Session) : Instance :=
  { s with sessions := Function.update s.sessions i c }

/-- Go on with a user of this name, once a text about the name has been read. -/
def withUser (s : Instance) (name : Name) (sql : Name → List Char) (o : Outcome)
    (next : Instance × Option Error) : Instance × Option Error :=
  if ¬ validIdent name then (s, some (.invalidName name))
  else match metaSql (sql name) o with
    | some e => (s, some e)
    | none => next

/-- A statement for the whole instance, or the first half of one for a database. -/
def execute (s : Instance) (i : Nat) (stmt : Stmt) (o : Outcome) : Instance × Option Error :=
  let c := s.sessions i
  if isGlobal stmt ∧ c.trx.isSome then (s, some .inTransaction)
  else match stmt with
    | .login name password => s.withUser name authenticateSql o (
      if (name, password) ∈ s.users then (s.put i { c with user := some name }, none)
      else (s, some .authenticationFailed))
    | .createDatabase name =>
      ({ s with store := (s.store.createDatabase name o).1 }, (s.store.createDatabase name o).2)
    | .dropDatabase name => match s.store.dropDatabase name o with
      | (store, none) =>
        ({ s with store := store, privileges := s.privileges.filter (fun p => p.2.1 ≠ name) }, none)
      | (store, some e) => ({ s with store := store }, some e)
    | .showDatabases => (s, metaSql databasesSql o)
    | .use name =>
      if name = informationSchema then (s.put i { c with currentDb := some name }, none)
      else match metaSql databasesSql o with
        | some e => (s, some e)
        | none =>
          if name ∈ s.store.registered then (s.put i { c with currentDb := some name }, none)
          else (s, some (.noSuchDatabase name))
    | .createUser name password => s.withUser name userExistsSql o (
      if s.hasUser name then (s, some (.userExists name))
      else ({ s with users := s.users ++ [(name, password)] }, none))
    | .dropUser name => s.withUser name userExistsSql o (
      if s.hasUser name then
        ({ s with users := s.users.filter (fun u => u.1 ≠ name),
                  privileges := s.privileges.filter (fun p => p.1 ≠ name) }, none)
      else (s, some (.noSuchUser name)))
    | .grant ps database user =>
      if ¬ validIdent user then (s, some (.invalidName user))
      else if ¬ validScope database then (s, some (.invalidName database))
      else s.withUser user userExistsSql o (
        if s.hasUser user then
          ({ s with privileges := s.privileges.filter (· ∉ o.revoked) ++
              ps.map (fun p => (user, database, p)) }, none)
        else (s, some (.noSuchUser user)))
    | .revoke ps database user =>
      if ¬ validIdent user then (s, some (.invalidName user))
      else if ¬ validScope database then (s, some (.invalidName database))
      else match ps.findSome? (fun p => metaSql (revokeSql user database p) o) with
        | some e => (s, some e)
        | none => ({ s with privileges := s.privileges.filter (· ∉ o.revoked) }, none)
    | stmt =>
      if c.currentDb = some informationSchema then match stmt with
        | .select _ | .explain _ => (s, if o.ran.ok then none else some .engine)
        | _ => (s, some .readOnlySchema)
      else match s.store.locate c.toWork o with
        | (store, w, .error e) => ({ s with store := store }.put i { c with toWork := w }, some e)
        | (store, w, .ok h) => ({ s with store := store }.put i { c with
            toWork := w
            holds := some (h, .statement stmt) }, none)

/-- Execute a statement that session `i` has had checked. -/
def executeChecked (s : Instance) (i : Nat) (stmt : Stmt) (o : Outcome) :
    Instance × Option Error :=
  (s.put i { s.sessions i with checked := none }).execute i stmt o

/-- The session gets the lock of the database it has a handle of. -/
def finish (s : Instance) (i h : Nat) (r : Ran) : Task → Instance
  | .statement stmt =>
    let c := s.sessions i
    { s with store := (s.store.executeIn h c.toWork stmt r).1 }.put i
      { c with toWork := (s.store.executeIn h c.toWork stmt r).2.1, holds := none }
  | .close => { s with store := s.store.rollbackIn h (s.sessions i).toWork }.put i {}

/-- A session goes away. It takes the handle of its database if that is still there. -/
def close (s : Instance) (i : Nat) (o : Outcome) : Instance :=
  let c := s.sessions i
  match c.currentDb with
  | none => s.put i {}
  | some name =>
    if name ∉ s.store.dirs then s.put i {}
    else match s.store.database name o with
      | (store, .error _) => { s with store := store }.put i {}
      | (store, .ok h) => { s with store := store }.put i { c with
          checked := none
          holds := some (h, .close) }

/-- A MySQL client that knows the password of a user, if one is asked for, gets a session. -/
def handshake (s : Instance) (i : Nat) (user : Name) (o : Outcome) : Instance × Option Error :=
  if s.authEnabled then s.withUser user nativeVerifierSql o (
    if s.hasUser user then (s.put i { user := some user }, none)
    else (s, some .authenticationFailed))
  else (s.put i { user := if user = [] then none else some user }, none)

/-- What a session does next. -/
inductive Label where
  | check (i : Nat) (stmt : Stmt) (o : Outcome)
  | execute (i : Nat) (o : Outcome)
  | finish (i : Nat) (r : Ran)
  | close (i : Nat) (o : Outcome)
  | handshake (i : Nat) (user : Name) (o : Outcome)

/-- One step of a session. It does one thing at a time. -/
def step (s : Instance) : Label → Option Instance
  | .check i stmt o =>
    if (s.sessions i).checked.isSome ∨ (s.sessions i).holds.isSome then none
    else match s.authorize (s.sessions i) stmt o with
      | some _ => some s
      | none => some (s.put i { s.sessions i with checked := some stmt })
  | .execute i o => match (s.sessions i).checked with
    | none => none
    | some stmt => some (s.executeChecked i stmt o).1
  | .finish i r => (s.sessions i).holds.map fun (h, task) => s.finish i h r task
  | .close i o => if (s.sessions i).holds.isSome then none else some (s.close i o)
  | .handshake i user o =>
    if (s.sessions i).trx = none ∧ (s.sessions i).holds.isNone then
      some (s.handshake i user o).1
    else none

end Instance

end ChibiDb.Net
