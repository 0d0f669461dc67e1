import ChibiDb.Core.Heap
import ChibiDb.Core.Transaction
import ChibiDb.Core.Wal

/-!
# The Database and Its Durable State

A database is what is in memory (the transaction manager, the pages as the
buffer pool sees them, the open transactions) and what a crash leaves behind
(the pages on disk, the log, the saved catalog). A step is one access to shared
state by one thread, so that a page can be written back, or the process can
die, between any two of them.

A page goes to disk by `writeBack` at any moment, whichever transaction dirtied
it last: the buffer pool evicts dirty frames without asking whether they are
committed. The log is written at commit only. The catalog is saved by DDL, by a
checkpoint and at the end of VACUUM.

The model leaves choices open that the code makes for reasons outside it: which
page an insert lands on, when a statement fails, when a checkpoint runs, and
whether a writer at read committed restarts. Indexes and large objects are left
out. VACUUM and DDL hold the database exclusively, so no other transaction
steps while they run.

## Main definitions

* `Undo`, `Trx`: Undo entries and open transactions.
* `SavedCatalog`, `Db`: What the catalog file holds, and the whole database.
* `TrxAction`, `Db.trxStep`: What one transaction can do next.
* `Db.vacuumOne`: What VACUUM does to one record.
* `redoOne`, `Db.reopen`: Redo of one log record, and `Database::open` on what
  a crash left behind.
* `Label`, `Db.step`: The steps of the system.
-/

namespace ChibiDb

/-- What a transaction must do to take one of its writes back. -/
inductive Undo where
  | insert (fileNo : Nat) (rid : Rid) (row : Row)
  | deleteMark (fileNo : Nat) (rid : Rid) (prevDeleter prevNextRid : Nat)
  | update (fileNo : Nat) (oldRid newRid : Rid) (newRow : Row) (prevDeleter prevNextRid : Nat)
  deriving DecidableEq, Repr

/-- The record an entry's write marked as deleted. -/
def Undo.marked : Undo → Option (Nat × Rid)
  | .insert .. => none
  | .deleteMark f rid _ _ => some (f, rid)
  | .update f old _ _ _ _ => some (f, old)

/-- The record an entry's write created. -/
def Undo.created : Undo → Option (Nat × Rid)
  | .insert f rid _ => some (f, rid)
  | .deleteMark .. => none
  | .update f _ new _ _ _ => some (f, new)

/-- How far a transaction has come. -/
inductive Phase where
  | running
  /-- Undoing a failed statement. -/
  | undoing
  | aborting
  /-- The redo records are in the log, the commit record is not. -/
  | appended
  /-- The commit record is in the log, or there was nothing to log. -/
  | logged
  /-- The commit counter has moved. -/
  | counted
  /-- The commit status says committed. -/
  | marked
  deriving DecidableEq, Repr

/-- An update between its insert and its delete mark. -/
structure PendingUpdate where
  fileNo : Nat
  oldRid : Rid
  newRid : Rid
  newRow : Row
  deriving DecidableEq, Repr

/-- An open transaction. -/
structure Trx where
  id : Nat
  /-- The bound of a snapshot whose open set is still to be read. -/
  xmax : Option Nat
  snapshot : Option Snapshot
  /-- Length of the undo list at the start of the statement. -/
  undoMark : Nat
  /-- Length of the redo buffer at the start of the statement. -/
  walMark : Nat
  /-- Records the statement found visible and may still change. -/
  targets : List (Nat × Rid)
  pending : Option PendingUpdate
  /-- Undo entries, latest first. -/
  undo : List Undo
  /-- Redo records, in order. -/
  wal : List (Record Version)
  phase : Phase
  deriving DecidableEq, Repr

/-- A transaction that has its id and nothing else. -/
def Trx.fresh (id : Nat) : Trx :=
  { id := id, xmax := none, snapshot := none, undoMark := 0, walMark := 0, targets := [],
    pending := none, undo := [], wal := [], phase := .running }

/-- Whether a transaction holds the row lock of a record it writes. -/
def Trx.holds (x : Trx) (f : Nat) (rid : Rid) : Bool :=
  x.undo.any (fun u => u.marked = some (f, rid)) ||
    x.pending.any (fun p => p.fileNo = f ∧ p.oldRid = rid)

/-- A table and the file that holds it. -/
structure Table where
  fileNo : Nat
  layout : Layout
  deriving DecidableEq, Repr

/-- The layout of the table that owns a file, if there is one. -/
def layoutOf (tables : List Table) (f : Nat) : Option Layout :=
  (tables.find? (fun t => t.fileNo = f)).map (fun t => t.layout)

/-- What the catalog file keeps. -/
structure SavedCatalog where
  nextTableFile : Nat
  nextTrxId : Nat
  clogBase : Nat
  committedTrxs : List Nat
  tables : List Table
  deriving DecidableEq, Repr

/-- A VACUUM statement under way. -/
inductive VacuumState where
  /-- The records still to look at. -/
  | cleaning (work : List (Nat × Rid))
  /-- The horizon has moved and the catalog is still to be saved. -/
  | saving
  deriving DecidableEq, Repr

/-- A checkpoint under way: the commit count it started from, and whether it
    has saved the catalog. -/
structure Checkpoint where
  commits : Nat
  saved : Bool
  deriving DecidableEq, Repr

/-- A database, in memory and on disk. -/
structure Db where
  inlineLimit : Nat
  tm : TransactionManager
  /-- The pages as the buffer pool sees them. -/
  mem : Heap
  disk : Heap
  /-- The log, frame by frame. -/
  log : List (Nat × Record Version)
  saved : SavedCatalog
  nextTableFile : Nat
  tables : List Table
  trxs : List Trx
  vacuum : Option VacuumState
  checkpoint : Option Checkpoint
  /-- Every id that was ever durably committed. No code reads it. -/
  ever : List Nat
  deriving DecidableEq, Repr

/-- What one transaction can do next. -/
inductive TrxAction where
  /-- First half of taking a snapshot: the bound. -/
  | loadNextId
  /-- Second half: the open set. -/
  | readOpen
  | startStatement
  /-- Find a record visible. -/
  | scan (f : Nat) (rid : Rid)
  | insert (f p : Nat) (row : Row)
  | deleteMark (f : Nat) (rid : Rid)
  /-- First half of an update: the new version, on page `p`. -/
  | updateInsert (f : Nat) (rid : Rid) (p : Nat) (row : Row)
  /-- Second half: mark the old version. -/
  | updateMark
  | failStatement
  /-- Take the latest write back; an update takes two turns. -/
  | undoOne
  | endUndo
  | rollback
  /-- Leave the open set while rolling back. -/
  | removeOpen
  | finishRollback
  | commitAppend
  | commitRecord
  | commitReadOnly
  | commitCount
  | commitMark
  | commitFinish
  deriving DecidableEq, Repr

namespace Db

/-- A new database in an empty directory. -/
def fresh (inlineLimit : Nat) : Db :=
  { inlineLimit := inlineLimit
    tm := TransactionManager.new 1 [] 0
    mem := []
    disk := []
    log := []
    saved := ⟨0, 1, 0, [], []⟩
    nextTableFile := 0
    tables := []
    trxs := []
    vacuum := none
    checkpoint := none
    ever := [] }

/-- The open transaction with an id. -/
def trx (s : Db) (id : Nat) : Option Trx := s.trxs.find? (fun x => x.id = id)

/-- Replace the state of an open transaction. -/
def putTrx (s : Db) (x : Trx) : Db :=
  { s with trxs := s.trxs.map (fun y => if y.id = x.id then x else y) }

/-- Forget a transaction that has ended; its locks go with it. -/
def dropTrx (s : Db) (id : Nat) : Db := { s with trxs := s.trxs.filter (fun x => x.id ≠ id) }

/-- Whether another transaction holds the row lock of a record. -/
def locked (s : Db) (id f : Nat) (rid : Rid) : Bool :=
  s.trxs.any (fun y => y.id ≠ id ∧ y.holds f rid)

/-- Insert a version into a table, on page `p` of its file. -/
def insertVersion (s : Db) (f p : Nat) (v : Version) : Option (Rid × Heap) :=
  match layoutOf s.tables f with
  | none => none
  | some layout =>
    if 1 ≤ p ∧ p ≤ (s.mem.file f).length then s.mem.insert layout s.inlineLimit f p v else none

/-- Take one write back: the pages after it, and what is left to undo of it.
    An update first loses its new version and is then a plain mark. -/
def undoWrite (h : Heap) : Undo → Option (Heap × List Undo)
  | .insert f rid _ => (h.delete f rid).map (fun h' => (h', []))
  | .deleteMark f rid d n => (h.deleteMark f rid d n).map (fun h' => (h', []))
  | .update f old new _ d n => (h.delete f new).map (fun h' => (h', [.deleteMark f old d n]))

/-- What is taken back is there. -/
theorem undoWrite_eq_some {h h' : Heap} {u : Undo} {left : List Undo}
    (hw : undoWrite h u = some (h', left)) :
    match u with
    | .insert f rid _ => left = [] ∧ ∃ v, h.get f rid = some v ∧ h' = h.setSlot f rid none
    | .deleteMark f rid d n => left = [] ∧ ∃ v, h.get f rid = some v ∧
        h' = h.setSlot f rid (some { v with deleter := d, nextRid := n })
    | .update f old new _ d n => left = [.deleteMark f old d n] ∧
        ∃ v, h.get f new = some v ∧ h' = h.setSlot f new none := by
  cases u with
  | insert | update =>
    obtain ⟨_, hd, heq⟩ := Option.map_eq_some_iff.mp hw
    cases heq
    exact ⟨rfl, Heap.delete_eq_some hd⟩
  | deleteMark =>
    obtain ⟨_, hd, heq⟩ := Option.map_eq_some_iff.mp hw
    cases heq
    exact ⟨rfl, Heap.deleteMark_eq_some hd⟩

/-- One step of a transaction. -/
def trxStep (s : Db) (x : Trx) : TrxAction → Option Db
  | .loadNextId =>
    if x.phase = .running then some (s.putTrx { x with xmax := some s.tm.nextId }) else none
  | .readOpen =>
    match x.xmax with
    | none => none
    | some n => some (s.putTrx { x with xmax := none, snapshot := some ⟨n, s.tm.xip⟩ })
  | .startStatement =>
    if x.phase = .running ∧ x.pending = none then
      some (s.putTrx { x with undoMark := x.undo.length, walMark := x.wal.length, targets := [] })
    else none
  | .scan f rid =>
    match x.snapshot, s.mem.get f rid with
    | some snap, some v =>
      if x.phase = .running ∧ snap.visible s.tm.committed x.id v.creator v.deleter then
        some (s.putTrx { x with targets := (f, rid) :: x.targets })
      else none
    | _, _ => none
  | .insert f p row =>
    if x.phase = .running ∧ x.pending = none then
      match s.insertVersion f p ⟨x.id, 0, 0, row⟩ with
      | none => none
      | some (rid, mem) =>
        some { s.putTrx { x with
                 undo := .insert f rid row :: x.undo
                 wal := x.wal ++ [.insert f rid ⟨x.id, 0, 0, row⟩] } with
          mem := mem }
    else none
  | .deleteMark f rid =>
    if x.phase = .running ∧ x.pending = none ∧ (f, rid) ∈ x.targets ∧ ¬ s.locked x.id f rid then
      match s.mem.get f rid, s.mem.deleteMark f rid x.id 0 with
      | some v, some mem =>
        some { s.putTrx { x with
                 targets := x.targets.filter (fun e => e ≠ (f, rid))
                 undo := .deleteMark f rid v.deleter v.nextRid :: x.undo
                 wal := x.wal ++ [.deleteMark f rid x.id 0] } with
          mem := mem }
      | _, _ => none
    else none
  | .updateInsert f rid p row =>
    if x.phase = .running ∧ x.pending = none ∧ (f, rid) ∈ x.targets ∧ ¬ s.locked x.id f rid then
      match s.insertVersion f p ⟨x.id, 0, 0, row⟩ with
      | none => none
      | some (new, mem) =>
        some { s.putTrx { x with
                 targets := x.targets.filter (fun e => e ≠ (f, rid))
                 pending := some ⟨f, rid, new, row⟩
                 wal := x.wal ++ [.insert f new ⟨x.id, 0, 0, row⟩] } with
          mem := mem }
    else none
  | .updateMark =>
    match x.pending with
    | none => none
    | some u =>
      match s.mem.get u.fileNo u.oldRid,
          s.mem.deleteMark u.fileNo u.oldRid x.id (packRid u.newRid) with
      | some v, some mem =>
        some { s.putTrx { x with
                 pending := none
                 undo := .update u.fileNo u.oldRid u.newRid u.newRow v.deleter v.nextRid :: x.undo
                 wal := x.wal ++ [.deleteMark u.fileNo u.oldRid x.id (packRid u.newRid)] } with
          mem := mem }
      | _, _ => none
  | .failStatement =>
    if x.phase = .running ∧ x.pending = none then
      some (s.putTrx { x with phase := .undoing, wal := x.wal.take x.walMark, targets := [] })
    else none
  | .undoOne =>
    if (x.phase = .undoing ∧ x.undoMark < x.undo.length) ∨ x.phase = .aborting then
      match x.undo with
      | [] => none
      | u :: rest =>
        match undoWrite s.mem u with
        | none => none
        | some (mem, left) => some { s.putTrx { x with undo := left ++ rest } with mem := mem }
    else none
  | .endUndo =>
    if x.phase = .undoing ∧ x.undo.length ≤ x.undoMark then
      some (s.putTrx { x with phase := .running })
    else none
  | .rollback =>
    if x.phase = .running ∧ x.pending = none then
      some (s.putTrx { x with phase := .aborting, wal := [], targets := [] })
    else none
  | .removeOpen =>
    if x.phase = .aborting then some { s with tm := s.tm.removeOpen x.id } else none
  | .finishRollback =>
    if x.phase = .aborting ∧ x.undo = [] ∧ x.id ∉ s.tm.openSet then some (s.dropTrx x.id) else none
  | .commitAppend =>
    if x.phase = .running ∧ x.pending = none ∧ x.undo ≠ [] then
      some { s.putTrx { x with phase := .appended, targets := [] } with
        log := s.log ++ x.wal.map (fun r => (x.id, r)) }
    else none
  | .commitRecord =>
    if x.phase = .appended then
      some { s.putTrx { x with phase := .logged } with
        log := s.log ++ [(x.id, .commit)]
        ever := x.id :: s.ever }
    else none
  | .commitReadOnly =>
    if x.phase = .running ∧ x.pending = none ∧ x.undo = [] then
      some { s.putTrx { x with phase := .logged, targets := [] } with ever := x.id :: s.ever }
    else none
  | .commitCount =>
    if x.phase = .logged then
      some { s.putTrx { x with phase := .counted } with tm := s.tm.bumpCommits }
    else none
  | .commitMark =>
    if x.phase = .counted then
      some { s.putTrx { x with phase := .marked } with tm := s.tm.markCommitted x.id }
    else none
  | .commitFinish =>
    if x.phase = .marked then some { s.dropTrx x.id with tm := s.tm.removeOpen x.id } else none

/-- What VACUUM does to one record: empty the slot of a dead one, take a mark
    off a live one if the marking transaction never committed. -/
def vacuumOne (clog : Clog) (h : Heap) (f : Nat) (rid : Rid) : Option Heap :=
  match h.get f rid with
  | none => none
  | some v =>
    let dead := !clog.isCommitted v.creator ||
      (decide (v.deleter ≠ 0) && clog.isCommitted v.deleter)
    if dead then h.delete f rid
    else if v.deleter ≠ 0 ∧ ¬ clog.isCommitted v.deleter then h.deleteMark f rid 0 0
    else some h

/-- What a save of the catalog writes now, all of it read at once. `save_catalog` reads the next id
    before the rest; where that matters, it is a step of its own (`Horizon.Traced`). -/
def catalogNow (s : Db) : SavedCatalog :=
  { nextTableFile := s.nextTableFile
    nextTrxId := s.tm.nextId
    clogBase := s.tm.committed.base
    committedTrxs := s.tm.committed.marked
    tables := s.tables }

end Db

/-- The frames of a log with increasing positions, as a scan yields them. -/
def logFrames {ρ : Type} (log : List (Nat × Record ρ)) : List (Nat × Nat × Record ρ) :=
  log.mapIdx (fun i e => (i + 1, e.1, e.2))

/-- The records recovery redoes: those of the committed transactions, in the
    order of their commit records. -/
def redoRecords {ρ : Type} (log : List (Nat × Record ρ)) : List (Record ρ) :=
  (planFrames (logFrames log)).committed.flatMap (fun e => e.2.2)

/-- Redo one record: an insert is skipped if its slot is taken, a mark is applied only to a record
    that is there and carries none. Records of files that no table owns are stale. -/
def redoOne (inlineLimit : Nat) (tables : List Table) (h : Heap) : Record Version → Option Heap
  | .insert f rid v =>
    match layoutOf tables f with
    | none => some h
    | some layout => h.insertAt layout inlineLimit f rid v
  | .deleteMark f rid d n =>
    match layoutOf tables f with
    | none => some h
    | some _ =>
      match h.get f rid with
      | none => some h
      | some v => if v.deleter = 0 then h.deleteMark f rid d n else some h
  | .commit => some h

/-- Redo records one after the other. -/
def redo (inlineLimit : Nat) (tables : List Table) : List (Record Version) → Heap → Option Heap
  | [], h => some h
  | r :: rs, h =>
    match redoOne inlineLimit tables h r with
    | none => none
    | some h' => redo inlineLimit tables rs h'

namespace Db

/-- The transaction manager the saved catalog describes. -/
def savedTm (s : Db) : TransactionManager :=
  TransactionManager.new s.saved.nextTrxId s.saved.committedTrxs s.saved.clogBase

/-- Whether the log has commits the saved catalog does not. -/
def committedRepaired (s : Db) : Bool :=
  (planFrames (logFrames s.log)).committedIds.any (fun id => !s.savedTm.committed.isCommitted id)

/-- The transaction manager recovery ends up with. -/
def recoveredTm (s : Db) : TransactionManager :=
  let plan := planFrames (logFrames s.log)
  let tm := s.savedTm.ensureNextIdAtLeast plan.maxTrxId
  if s.committedRepaired then tm.extendCommitted plan.committedIds else tm

/-- Lose everything in memory and open the database again. Fails if a record
    to redo does not fit its page. `recover_from_wal` then rebuilds the indexes of
    the tables it changed, which is left out and can fail too. -/
def reopen (s : Db) : Option Db :=
  match redo s.inlineLimit s.saved.tables (redoRecords s.log) s.disk with
  | none => none
  | some mem =>
    let db : Db :=
      { s with
        tm := s.recoveredTm
        mem := mem
        nextTableFile := s.saved.nextTableFile
        tables := s.saved.tables
        trxs := []
        vacuum := none
        checkpoint := none }
    some (if s.committedRepaired then { db with saved := db.catalogNow } else db)

end Db

/-- The steps of the system. -/
inductive Label where
  | begin
  | trx (id : Nat) (a : TrxAction)
  /-- A page reaches the disk. -/
  | writeBack (f p : Nat)
  | checkpointBegin
  | checkpointSave
  /-- End of a checkpoint; the log is cut if nothing is open but `exclude`. -/
  | checkpointEnd (exclude : Option Nat)
  | createTable (id : Nat) (layout : Layout)
  | dropTable (id f : Nat)
  /-- Any other DDL: it only saves the catalog. -/
  | otherDdl (id : Nat)
  | vacuumBegin (id : Nat)
  | vacuumOne
  | vacuumHorizon
  | vacuumSave
  | crash
  deriving DecidableEq, Repr

namespace Db

/-- Whether transaction `id` is the only one, as VACUUM and DDL require. -/
def exclusive (s : Db) (id : Nat) : Bool :=
  match s.trx id with
  | none => false
  | some x => decide (s.trxs = [x] ∧ x.phase = .running ∧ x.undo = [] ∧ x.pending = none) &&
      !s.tm.hasOpenExcluding id

/-- Whether no transaction is open but the one of the CHECKPOINT statement
    itself, which has the database to itself. -/
def nothingOpen (s : Db) : Option Nat → Bool
  | none => s.tm.noOpenTransactions
  | some id => s.exclusive id

/-- The records of all tables, which VACUUM looks at. -/
def allRecords (s : Db) : List (Nat × Rid) :=
  s.tables.flatMap (fun t => (s.mem.scan t.fileNo).map (fun rid => (t.fileNo, rid)))

/-- One step. VACUUM has the database to itself until it ends. -/
def step (s : Db) : Label → Option Db
  | .begin =>
    if s.vacuum = none then
      some { s with tm := s.tm.beginOpen.2, trxs := Trx.fresh s.tm.beginOpen.1 :: s.trxs }
    else none
  | .trx id a =>
    match s.vacuum, s.trx id with
    | none, some x => s.trxStep x a
    | _, _ => none
  | .writeBack f p => some { s with disk := s.disk.copyPage s.mem f p }
  | .checkpointBegin =>
    if s.vacuum = none ∧ s.checkpoint = none then
      some { s with checkpoint := some ⟨s.tm.commits, false⟩ }
    else none
  | .checkpointSave =>
    match s.vacuum, s.checkpoint with
    | none, some c =>
      if c.saved then none
      else some { s with saved := s.catalogNow, checkpoint := some { c with saved := true } }
    | _, _ => none
  | .checkpointEnd exclude =>
    match s.vacuum, s.checkpoint with
    | none, some c =>
      if c.saved then
        if s.nothingOpen exclude ∧ s.tm.commits = c.commits then
          some { s with log := [], checkpoint := none }
        else some { s with checkpoint := none }
      else none
    | _, _ => none
  | .createTable id layout =>
    if s.vacuum = none ∧ s.exclusive id then
      let f := s.nextTableFile
      let s' : Db := { s with
        nextTableFile := f + 1
        tables := s.tables ++ [⟨f, layout⟩]
        mem := s.mem.setFile f [[]]
        disk := s.disk.setFile f [[]] }
      some { s' with saved := s'.catalogNow }
    else none
  | .dropTable id f =>
    if s.vacuum = none ∧ s.exclusive id then
      let s' : Db := { s with
        tables := s.tables.filter (fun t => t.fileNo ≠ f)
        mem := s.mem.setFile f []
        disk := s.disk.setFile f [] }
      some { s' with saved := s'.catalogNow }
    else none
  | .otherDdl id =>
    if s.vacuum = none ∧ s.exclusive id then some { s with saved := s.catalogNow } else none
  | .vacuumBegin id =>
    if s.vacuum = none ∧ s.exclusive id then
      some { s with vacuum := some (.cleaning s.allRecords) }
    else none
  | .vacuumOne =>
    match s.vacuum with
    | some (.cleaning ((f, rid) :: work)) =>
      match Db.vacuumOne s.tm.committed s.mem f rid with
      | none => none
      | some mem => some { s with mem := mem, vacuum := some (.cleaning work) }
    | _ => none
  | .vacuumHorizon =>
    match s.vacuum with
    | some (.cleaning []) =>
      some { s with tm := s.tm.advanceHorizon s.tm.nextId, vacuum := some .saving }
    | _ => none
  | .vacuumSave =>
    match s.vacuum with
    | some .saving => some { s with saved := s.catalogNow, vacuum := none }
    | _ => none
  | .crash => s.reopen

end Db

end ChibiDb
