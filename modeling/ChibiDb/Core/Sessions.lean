import ChibiDb.Core.Database
import ChibiDb.Core.Ssi

/-!
# Concurrent Sessions

Transactions of many sessions over one set of pages. Statements and COMMIT hold
the database shared, so what one session does interleaves with what the others
do between any two of the pieces below. Row locks and unique-key locks come
from one lock table and are held to the end of the transaction.

The model is about isolation. It keeps what the isolation code reads and
writes: ids, snapshots, commit status, version headers, the lock table, undo
lists, the conflict graph and the entries of the indexes. The log, the double
life of pages in memory and on disk, and crashes are left to the model of the
database. VACUUM and DDL hold the database exclusively and are left out. An
index is the multiset of its entries, and no page or index operation fails.

Which rows a statement picks and what it writes, which free slot an insert
takes, when a statement fails (a lock wait that times out, a duplicate key, an
error of its own) and in which order waiting transactions get a lock are left
open.

## Main definitions

* `Isolation`, `LockKey`: Levels, and what can be locked.
* `IndexMeta`, `IndexEntry`, `indexKey`: Indexes, their entries and their keys.
* `Statement`, `TrxState`: A statement under way, and a transaction.
* `Sessions`: The shared state and all transactions.
* `SessionAction`, `Sessions.act`: What one transaction can do next.
* `SessionLabel`, `Sessions.step`: The steps of the system.
-/

namespace ChibiDb

/-- The isolation levels. -/
inductive Isolation where
  | readCommitted
  | repeatableRead
  | serializable
  deriving DecidableEq, Repr

/-- What a transaction can lock: a row, or a key of a unique index. -/
inductive LockKey where
  | row (table : Nat) (rid : Rid)
  | unique (file : Nat) (key : Value)
  deriving DecidableEq, Repr

/-- An index as the catalog describes it. -/
structure IndexMeta where
  file : Nat
  table : Nat
  col : Nat
  unique : Bool
  deriving DecidableEq, Repr

/-- An entry of an index. -/
structure IndexEntry where
  file : Nat
  key : Value
  rid : Rid
  deriving DecidableEq, Repr

/-- The bits of the float -0.0. -/
def negZeroBits : UInt64 := 0x8000000000000000

/-- What an encoded key keeps of a value: two values have the same key when the
    same is left of them, and only the two float zeros fall together. -/
def indexKey : Value → Value
  | .float b => if b = negZeroBits then .float 0 else .float b
  | v => v

/-- How far the check of one unique index has come. -/
inductive Probe where
  | idle
  /-- The key is claimed and locked, the index still to be searched. -/
  | locked
  /-- The versions the search returned that are still to be looked at. -/
  | found (rids : List Rid)
  deriving DecidableEq, Repr

/-- A uniqueness check under way. -/
structure UniqueCheck where
  row : Row
  /-- The version an update replaces. -/
  exclude : Option Rid
  /-- Unique indexes still to be checked, the current one first. -/
  todo : List IndexMeta
  probe : Probe
  deriving DecidableEq, Repr

/-- A statement under way. -/
structure Statement where
  table : Nat
  /-- Length of the undo list when it started. -/
  undoMark : Nat
  writing : Bool
  /-- Versions it found visible and picked. -/
  targets : List Rid
  /-- Updates that passed their checks. -/
  plan : List (Rid × Row)
  /-- Keys it has claimed, by column. -/
  claimed : List (Nat × Value)
  check : Option UniqueCheck
  /-- A row to insert that passed its checks. -/
  ready : Option Row
  deriving DecidableEq, Repr

/-- A statement that has done nothing yet. -/
def Statement.start (table undoMark : Nat) : Statement :=
  { table := table, undoMark := undoMark, writing := false, targets := [], plan := [],
    claimed := [], check := none, ready := none }

/-- How far a transaction has come. -/
inductive Stage where
  | running
  /-- Undoing a statement, to restart it or after an error. -/
  | undoing (retry : Bool)
  | aborting
  /-- Undone, and its locks released. -/
  | ended
  /-- Not on a cycle of conflicts. -/
  | validated
  /-- No conflict with what it overwrote. -/
  | checked
  /-- The commit status says committed. -/
  | committed
  deriving DecidableEq, Repr

/-- What a transaction read at a row id: the row, or that there is none. -/
structure Read where
  table : Nat
  rid : Rid
  row : Option Row
  deriving DecidableEq, Repr

/-- An open transaction. -/
structure TrxState where
  id : Nat
  /-- Whether the conflict graph knows it as open. -/
  registered : Bool
  /-- The bound of a snapshot whose open set is still to be read. -/
  xmax : Option Nat
  snapshot : Option Snapshot
  stmt : Option Statement
  pending : Option PendingUpdate
  /-- Index entries of the latest version still to be made. -/
  indexing : List IndexEntry
  /-- Index entries of an undone version still to be removed. -/
  unindexing : List IndexEntry
  /-- Undo entries, latest first. -/
  undo : List Undo
  stage : Stage
  /-- Whether it has left the open set. -/
  closed : Bool
  readTables : List Nat
  wroteTables : List Nat
  /-- How many transactions had finished their commit when its snapshot was
      complete. No code reads it. -/
  start : Nat
  /-- What it read of versions it did not write. No code reads it. -/
  reads : List Read
  deriving DecidableEq, Repr

namespace TrxState

/-- A transaction that has its id and nothing else. -/
def fresh (id : Nat) : TrxState :=
  { id := id, registered := false, xmax := none, snapshot := none, stmt := none, pending := none,
    indexing := [], unindexing := [], undo := [], stage := .running, closed := false,
    readTables := [], wroteTables := [], start := 0, reads := [] }

/-- The versions it has marked as deleted. -/
def marks (x : TrxState) : List (Nat × Rid) := x.undo.filterMap Undo.marked

/-- The versions it has created, an update in the middle included. -/
def creates (x : TrxState) : List (Nat × Rid) :=
  x.pending.toList.map (fun p => (p.fileNo, p.newRid)) ++ x.undo.filterMap Undo.created

/-- Whether it has a write to take back. -/
def undoable (x : TrxState) : Bool :=
  match x.stage with
  | .aborting => true
  | .undoing _ => x.stmt.all (fun st => st.undoMark < x.undo.length)
  | _ => false

/-- Whether its snapshot counts a transaction as committed. -/
def committedBefore (x : TrxState) (clog : Clog) (id : Nat) : Bool :=
  x.snapshot.any (fun snap => snap.committedBefore clog id)

/-- Whether its snapshot sees a version. -/
def visible (x : TrxState) (clog : Clog) (v : Version) : Bool :=
  x.snapshot.any (fun snap => snap.visible clog x.id v.creator v.deleter)

/-- Whether `id` names a transaction that committed after the snapshot. -/
def conflictingCommitter (x : TrxState) (clog : Clog) (id : Nat) : Bool :=
  decide (id ≠ 0) && decide (id ≠ x.id) && !x.committedBefore clog id && clog.isCommitted id

end TrxState

/-- The deleter an undo entry puts back. -/
def Undo.prevDeleter : Undo → Nat
  | .insert .. => 0
  | .deleteMark _ _ d _ => d
  | .update _ _ _ _ d _ => d

/-- Whether the chain of forward pointers from a version reaches another. -/
def chainReaches (h : Heap) (f : Nat) (target : Rid) : Nat → Rid → Bool
  | 0, _ => false
  | n + 1, cur =>
    match h.get f cur with
    | none => false
    | some v =>
      if v.nextRid = 0 then false
      else if unpackRid v.nextRid = target then true
      else if unpackRid v.nextRid = cur then false
      else chainReaches h f target n (unpackRid v.nextRid)

/-- Links a chain walk follows before it gives up. -/
def maxChain : Nat := 4096

/-- Whether two row ids are versions of the same logical row. -/
def sameVersionChain (h : Heap) (f : Nat) (a b : Rid) : Bool :=
  decide (a = b) || chainReaches h f b maxChain a || chainReaches h f a maxChain b

/-- Whether a version still occupies its unique key. -/
def uniqueKeyTaken (clog : Clog) (creator deleter self : Nat) : Bool :=
  (decide (creator = self) || clog.isCommitted creator) &&
    !(decide (deleter ≠ 0) && (decide (deleter = self) || clog.isCommitted deleter))

/-- The shared state and every transaction. -/
structure Sessions where
  isolation : Isolation
  indexes : List IndexMeta
  tm : TransactionManager
  ssi : Ssi
  heap : Heap
  index : List IndexEntry
  locks : List (LockKey × Nat)
  trxs : List TrxState
  /-- Versions marked by a transaction that committed, with that transaction. No code reads it. -/
  kills : List ((Nat × Rid) × Nat)
  /-- The transactions that committed, as they stood then. No code reads it. -/
  done : List TrxState
  /-- Their ids, in the order they left the open set. No code reads it. -/
  finished : List Nat
  deriving DecidableEq, Repr

/-- What one transaction can do next. -/
inductive SessionAction where
  /-- Last piece of BEGIN: register with the conflict graph. -/
  | ssiBegin
  /-- First half of taking a snapshot: the bound. -/
  | loadNextId
  /-- Second half: the open set. -/
  | readOpen
  | startStatement (f : Nat)
  | noteRead (f : Nat)
  /-- Look at a row id, and pick what is there if it is visible. -/
  | scan (f : Nat) (rid : Rid) (pick : Bool)
  | beginCheck (row : Row) (exclude : Option Rid)
  /-- Claim the key for the current index and lock it. -/
  | claimKey
  | search
  /-- Pass over one version the search returned. -/
  | examine
  | nextIndex
  | endCheck
  | noteWrite
  | storeInsert (rid : Rid)
  | indexInsert
  | lockRow (rid : Rid)
  | storeDeleteMark (rid : Rid)
  /-- First half of an update: the new version. -/
  | storeVersion (rid : Rid) (row : Row) (new : Rid)
  /-- Second half: mark the old version. -/
  | linkVersion
  | endStatement
  | failStatement (retry : Bool)
  /-- Take the latest write back; an update takes two turns. -/
  | undoOne
  | unindex
  | endUndo
  | rollback
  /-- Leave the open set while rolling back. -/
  | removeOpen
  | ssiAbort
  | finishUndo
  | dropAborted
  | ssiCheck
  | checkConflicts
  | markCommitted
  /-- Leave the open set while committing. -/
  | closeCommitted
  | ssiCommit
  | dropCommitted
  deriving DecidableEq, Repr

namespace Sessions

/-- The open transaction with an id. -/
def trx (s : Sessions) (id : Nat) : Option TrxState := s.trxs.find? (fun x => x.id = id)

/-- Replace the state of a transaction. -/
def putTrx (s : Sessions) (x : TrxState) : Sessions :=
  { s with trxs := s.trxs.map (fun y => if y.id = x.id then x else y) }

/-- Forget a transaction that has ended. -/
def dropTrx (s : Sessions) (id : Nat) : Sessions :=
  { s with trxs := s.trxs.filter (fun x => x.id ≠ id) }

/-- Whether nobody else holds a lock. -/
def lockFree (s : Sessions) (id : Nat) (k : LockKey) : Bool :=
  s.locks.all (fun e => e.1 ≠ k ∨ e.2 = id)

/-- Take a lock; taking it again changes nothing. -/
def lock (s : Sessions) (id : Nat) (k : LockKey) : Sessions :=
  { s with locks := s.locks.insert (k, id) }

/-- The locks left when a transaction releases all of its own. -/
def locksWithout (s : Sessions) (id : Nat) : List (LockKey × Nat) :=
  s.locks.filter (fun e => e.2 ≠ id)

/-- Change the conflict graph, which only serializable transactions are in. -/
def onSsi (s : Sessions) (g : Ssi → Ssi) : Sessions :=
  { s with ssi := if s.isolation = .serializable then g s.ssi else s.ssi }

/-- The indexes of a table. -/
def indexOps (s : Sessions) (f : Nat) : List IndexMeta :=
  s.indexes.filter (fun ix => ix.table = f)

/-- Those that keep their keys unique. -/
def uniqueIndexesFor (s : Sessions) (f : Nat) : List IndexMeta :=
  (s.indexOps f).filter (fun ix => ix.unique)

/-- The key of a row in an index. -/
def keyIn (ix : IndexMeta) (row : Row) : Value := indexKey (row.getD ix.col .null)

/-- The entries a row has in the indexes of its table. -/
def entriesOf (s : Sessions) (f : Nat) (row : Row) (rid : Rid) : List IndexEntry :=
  (s.indexOps f).map (fun ix => ⟨ix.file, keyIn ix row, rid⟩)

/-- The row ids an index has under a key. -/
def searchIndex (s : Sessions) (file : Nat) (k : Value) : List Rid :=
  (s.index.filter (fun e => e.file = file ∧ e.key = k)).map (fun e => e.rid)

/-- The index entries to remove when a write is taken back. -/
def unindexes (s : Sessions) : Undo → List IndexEntry
  | .insert f rid row => s.entriesOf f row rid
  | .deleteMark .. => []
  | .update f _ new row _ _ => s.entriesOf f row new

/-- Whether a uniqueness check passes over a version. -/
def passesOver (s : Sessions) (id f : Nat) (exclude : Option Rid) (rid : Rid) : Bool :=
  decide (exclude = some rid) ||
    match s.heap.get f rid with
    | none => true
    | some v =>
      !uniqueKeyTaken s.tm.committed v.creator v.deleter id ||
        exclude.any (fun ex => sameVersionChain s.heap f ex rid)

/-- Whether the version at a row id was deleted or superseded by a transaction
    that committed after the snapshot of `x`. -/
def rowWasConcurrentlyModified (s : Sessions) (x : TrxState) (v : Version) : Bool :=
  x.conflictingCommitter s.tm.committed v.deleter

/-- First-committer-wins: neither the deleter an entry overwrote nor the one
    on the page now committed after the snapshot. -/
def entryPasses (s : Sessions) (x : TrxState) (u : Undo) : Bool :=
  match u.marked with
  | none => true
  | some (f, rid) =>
    !x.conflictingCommitter s.tm.committed u.prevDeleter &&
      (s.heap.get f rid).any (fun v => !x.conflictingCommitter s.tm.committed v.deleter)

/-- One step of a transaction. -/
def act (s : Sessions) (x : TrxState) : SessionAction → Option Sessions
  | .ssiBegin =>
    if x.stage = .running ∧ ¬ x.registered then
      some ((s.onSsi (fun g => g.begin x.id)).putTrx { x with registered := true })
    else none
  | .loadNextId =>
    -- Only read committed takes a second snapshot.
    if x.stage = .running ∧ x.registered ∧ x.stmt = none ∧
        (s.isolation = .readCommitted ∨ x.snapshot = none) then
      some (s.putTrx { x with xmax := some s.tm.nextId })
    else none
  | .readOpen =>
    match x.xmax with
    | none => none
    | some n =>
      if x.stage = .running ∧ x.stmt = none then
        some (s.putTrx { x with
          xmax := none, snapshot := some ⟨n, s.tm.xip⟩, start := s.finished.length })
      else none
  | .startStatement f =>
    if x.stage = .running ∧ x.stmt = none ∧ x.xmax = none ∧ x.snapshot ≠ none then
      some (s.putTrx { x with stmt := some (.start f x.undo.length) })
    else none
  | .noteRead f =>
    if x.stage = .running ∧ x.stmt ≠ none then
      some ((s.onSsi (fun g => g.noteRead x.id f)).putTrx { x with
        readTables := x.readTables.insert f })
    else none
  | .scan f rid pick =>
    match x.stmt with
    | none => none
    | some st =>
      if x.stage = .running ∧ f ∈ x.readTables then
        let found := s.heap.get f rid
        let row := (found.filter (fun v => x.visible s.tm.committed v)).map (fun v => v.row)
        -- What a transaction wrote itself is no read of the others.
        let own := found.any (fun v => v.creator = x.id ∨ v.deleter = x.id)
        let reads := if own then x.reads else ⟨f, rid, row⟩ :: x.reads
        if pick then
          if f = st.table ∧ row.isSome ∧ rid ∉ st.targets ∧ ¬ st.writing ∧ st.check = none ∧
              st.plan = [] then
            some (s.putTrx { x with
              reads := reads, stmt := some { st with targets := rid :: st.targets } })
          else none
        else some (s.putTrx { x with reads := reads })
      else none
  | .beginCheck row exclude =>
    match x.stmt with
    | none => none
    | some st =>
      if x.stage = .running ∧ st.check = none ∧ st.ready = none ∧ x.pending = none ∧
          x.indexing = [] ∧ (∀ rid ∈ exclude, rid ∈ st.targets ∧ ¬ st.writing) then
        let checks := s.uniqueIndexesFor st.table
        let stmt : Statement := { st with
          targets := st.targets.filter (fun r => exclude ≠ some r)
          -- UNIQUE permits any number of NULLs.
          check := some ⟨row, exclude, checks.filter (fun ix => keyIn ix row ≠ .null), .idle⟩ }
        if checks = [] then some (s.putTrx { x with stmt := some stmt })
        else
          some ((s.onSsi (fun g => g.noteRead x.id st.table)).putTrx { x with
            readTables := x.readTables.insert st.table, stmt := some stmt })
      else none
  | .claimKey =>
    match x.stmt with
    | some st =>
      match st.check with
      | some ⟨row, exclude, ix :: todo, .idle⟩ =>
        if x.stage = .running ∧ (ix.col, keyIn ix row) ∉ st.claimed ∧
            s.lockFree x.id (.unique ix.file (keyIn ix row)) then
          some ((s.lock x.id (.unique ix.file (keyIn ix row))).putTrx { x with
            stmt := some { st with
              claimed := (ix.col, keyIn ix row) :: st.claimed
              check := some ⟨row, exclude, ix :: todo, .locked⟩ } })
        else none
      | _ => none
    | none => none
  | .search =>
    match x.stmt with
    | some st =>
      match st.check with
      | some ⟨row, exclude, ix :: todo, .locked⟩ =>
        if x.stage = .running then
          some (s.putTrx { x with
            stmt := some { st with
              check := some ⟨row, exclude, ix :: todo,
                .found (s.searchIndex ix.file (keyIn ix row))⟩ } })
        else none
      | _ => none
    | none => none
  | .examine =>
    match x.stmt with
    | some st =>
      match st.check with
      | some ⟨row, exclude, todo, .found (rid :: rids)⟩ =>
        if x.stage = .running ∧ s.passesOver x.id st.table exclude rid then
          some (s.putTrx { x with
            stmt := some { st with check := some ⟨row, exclude, todo, .found rids⟩ } })
        else none
      | _ => none
    | none => none
  | .nextIndex =>
    match x.stmt with
    | some st =>
      match st.check with
      | some ⟨row, exclude, _ :: todo, .found []⟩ =>
        if x.stage = .running then
          some (s.putTrx { x with
            stmt := some { st with check := some ⟨row, exclude, todo, .idle⟩ } })
        else none
      | _ => none
    | none => none
  | .endCheck =>
    match x.stmt with
    | some st =>
      match st.check with
      | some ⟨row, some rid, [], .idle⟩ =>
        if x.stage = .running then
          some (s.putTrx { x with
            stmt := some { st with check := none, plan := (rid, row) :: st.plan } })
        else none
      | some ⟨row, none, [], .idle⟩ =>
        if x.stage = .running then
          some (s.putTrx { x with stmt := some { st with check := none, ready := some row } })
        else none
      | _ => none
    | none => none
  | .noteWrite =>
    match x.stmt with
    | none => none
    | some st =>
      if x.stage = .running ∧ st.check = none then
        some ((s.onSsi (fun g => g.noteWrite x.id st.table)).putTrx { x with
          wroteTables := x.wroteTables.insert st.table, stmt := some { st with writing := true } })
      else none
  | .storeInsert rid =>
    match x.stmt with
    | none => none
    | some st =>
      match st.ready with
      | none => none
      | some row =>
        if x.stage = .running ∧ st.writing ∧ x.pending = none ∧ x.indexing = [] ∧
            s.heap.get st.table rid = none then
          some { s.putTrx { x with
                   undo := .insert st.table rid row :: x.undo
                   indexing := s.entriesOf st.table row rid
                   stmt := some { st with ready := none } } with
            heap := s.heap.setSlot st.table rid (some ⟨x.id, 0, 0, row⟩) }
        else none
  | .indexInsert =>
    match x.indexing with
    | [] => none
    | e :: rest =>
      if x.stage = .running then
        some { s.putTrx { x with indexing := rest } with index := e :: s.index }
      else none
  | .lockRow rid =>
    match x.stmt with
    | none => none
    | some st =>
      if x.stage = .running ∧ st.writing ∧ (rid ∈ st.targets ∨ rid ∈ st.plan.map (fun e => e.1)) ∧
          s.lockFree x.id (.row st.table rid) then
        some (s.lock x.id (.row st.table rid))
      else none
  | .storeDeleteMark rid =>
    match x.stmt with
    | none => none
    | some st =>
      match s.heap.get st.table rid with
      | none => none
      | some v =>
        if x.stage = .running ∧ st.writing ∧ x.pending = none ∧ x.indexing = [] ∧
            rid ∈ st.targets ∧ (.row st.table rid, x.id) ∈ s.locks ∧
            ¬ (s.isolation = .readCommitted ∧ s.rowWasConcurrentlyModified x v) then
          some { s.putTrx { x with
                   undo := .deleteMark st.table rid v.deleter v.nextRid :: x.undo
                   stmt := some { st with targets := st.targets.filter (fun r => r ≠ rid) } } with
            heap := s.heap.setSlot st.table rid (some { v with deleter := x.id, nextRid := 0 }) }
        else none
  | .storeVersion rid row new =>
    match x.stmt with
    | none => none
    | some st =>
      match s.heap.get st.table rid with
      | none => none
      | some v =>
        if x.stage = .running ∧ st.writing ∧ x.pending = none ∧ x.indexing = [] ∧
            (rid, row) ∈ st.plan ∧ (.row st.table rid, x.id) ∈ s.locks ∧
            ¬ (s.isolation = .readCommitted ∧ s.rowWasConcurrentlyModified x v) ∧
            s.heap.get st.table new = none then
          some { s.putTrx { x with
                   pending := some ⟨st.table, rid, new, row⟩
                   stmt := some { st with plan := st.plan.filter (fun e => e.1 ≠ rid) } } with
            heap := s.heap.setSlot st.table new (some ⟨x.id, 0, 0, row⟩) }
        else none
  | .linkVersion =>
    match x.pending with
    | none => none
    | some p =>
      match s.heap.get p.fileNo p.oldRid with
      | none => none
      | some v =>
        if x.stage = .running then
          some { s.putTrx { x with
                   pending := none
                   undo := .update p.fileNo p.oldRid p.newRid p.newRow v.deleter v.nextRid :: x.undo
                   indexing := s.entriesOf p.fileNo p.newRow p.newRid } with
            heap := s.heap.setSlot p.fileNo p.oldRid
              (some { v with deleter := x.id, nextRid := packRid p.newRid }) }
        else none
  | .endStatement =>
    match x.stmt with
    | none => none
    | some st =>
      if x.stage = .running ∧ x.pending = none ∧ x.indexing = [] ∧ st.check = none ∧
          st.ready = none ∧ st.plan = [] then
        some (s.putTrx { x with stmt := none })
      else none
  | .failStatement retry =>
    if x.stage = .running ∧ x.stmt ≠ none ∧ x.pending = none ∧ x.indexing = [] ∧
        (retry → s.isolation = .readCommitted) then
      some (s.putTrx { x with stage := .undoing retry })
    else none
  | .undoOne =>
    if x.unindexing = [] ∧ x.undoable then
      match x.undo with
      | [] => none
      | u :: rest =>
        match Db.undoWrite s.heap u with
        | none => none
        | some (heap, left) =>
          some { s.putTrx { x with undo := left ++ rest, unindexing := s.unindexes u } with
            heap := heap }
    else none
  | .unindex =>
    match x.unindexing with
    | [] => none
    | e :: rest =>
      if e ∈ s.index then
        some { s.putTrx { x with unindexing := rest } with index := s.index.erase e }
      else none
  | .endUndo =>
    match x.stmt, x.stage with
    | some st, .undoing retry =>
      if x.undo.length ≤ st.undoMark ∧ x.unindexing = [] then
        -- A restart keeps its locks, and so does a transaction with writes left.
        some { s.putTrx { x with stage := .running, stmt := none } with
          locks := if retry = false ∧ st.undoMark = 0 then s.locksWithout x.id else s.locks }
      else none
    | _, _ => none
  | .rollback =>
    if (x.stage = .running ∧ x.stmt = none) ∨ x.stage = .validated ∨ x.stage = .checked then
      some (s.putTrx { x with stage := .aborting })
    else none
  | .removeOpen =>
    if (x.stage = .aborting ∨ x.stage = .ended) ∧ ¬ x.closed then
      some { s.putTrx { x with closed := true } with tm := s.tm.removeOpen x.id }
    else none
  | .ssiAbort =>
    if (x.stage = .aborting ∨ x.stage = .ended) ∧ x.closed ∧ x.registered then
      some ((s.onSsi (fun g => g.abort x.id)).putTrx { x with registered := false })
    else none
  | .finishUndo =>
    if x.stage = .aborting ∧ x.undo = [] ∧ x.unindexing = [] then
      some { s.putTrx { x with stage := .ended } with locks := s.locksWithout x.id }
    else none
  | .dropAborted =>
    if x.stage = .ended ∧ x.closed ∧ ¬ x.registered then some (s.dropTrx x.id) else none
  | .ssiCheck =>
    if x.stage = .running ∧ x.stmt = none ∧ x.snapshot ≠ none ∧
        ¬ (s.isolation = .serializable ∧ s.ssi.hasCycleThrough x.id) then
      some (s.putTrx { x with stage := .validated })
    else none
  | .checkConflicts =>
    if x.stage = .validated ∧
        (s.isolation = .readCommitted ∨ x.undo.all (fun u => s.entryPasses x u)) then
      some (s.putTrx { x with stage := .checked })
    else none
  | .markCommitted =>
    if x.stage = .checked then
      some { s.putTrx { x with stage := .committed } with
        tm := s.tm.markCommitted x.id
        kills := x.marks.map (fun e => (e, x.id)) ++ s.kills
        done := x :: s.done }
    else none
  | .closeCommitted =>
    if x.stage = .committed ∧ ¬ x.closed then
      some { s.putTrx { x with closed := true } with
        tm := s.tm.removeOpen x.id
        finished := s.finished ++ [x.id] }
    else none
  | .ssiCommit =>
    if x.stage = .committed ∧ x.closed ∧ x.registered then
      some ((s.onSsi (fun g => g.commit x.id)).putTrx { x with registered := false })
    else none
  | .dropCommitted =>
    if x.stage = .committed ∧ x.closed ∧ ¬ x.registered then
      some { s.dropTrx x.id with locks := s.locksWithout x.id }
    else none

end Sessions

/-- The steps of the sessions. -/
inductive SessionLabel where
  /-- First piece of BEGIN: reserve an id and mark it open. -/
  | begin
  | act (id : Nat) (a : SessionAction)
  deriving DecidableEq, Repr

/-- One step of the whole. -/
def Sessions.step (s : Sessions) : SessionLabel → Option Sessions
  | .begin =>
    some { s with tm := s.tm.beginOpen.2, trxs := TrxState.fresh s.tm.beginOpen.1 :: s.trxs }
  | .act id a =>
    match s.trx id with
    | none => none
    | some x => s.act x a

end ChibiDb
