import ChibiDb.Core.Transaction
import ChibiDb.Data.Transition

/-!
# Checkpoints and Commits, Piece by Piece

A checkpoint writes the pages back, saves the catalog and then cuts the log,
while transactions begin and commit. It relies on two things: the commit
counter has not moved since it started, and nothing is open at the end. This is
the protocol alone, with each access to a counter, to the commit bits or to the
open set as a step of its own. `flush_inner` holds the checkpoint lock, so one
checkpoint runs at a time and the others wait.

Page writes are numbered. Which pages a transaction writes, and whether what it
wrote is taken back again by a failed statement, is left open. A page reaches
the disk at any moment. What is written back, saved or appended is durable at
once, and nothing fails. Tables are heap tables; VACUUM, which alone moves the
horizon, and DDL are left out.

## Main definitions

* `Writer`, `CommitPhase`: A transaction and how far its commit has come.
* `FlushInner`, `FlushStage`: The checkpoint that holds the lock.
* `Checkpointing`: The shared state.
* `Checkpointing.step`: The steps of transactions and checkpoints.
* `Checkpointing.truncates`: Whether the checkpoint is about to cut the log.
-/

namespace ChibiDb

/-- What the log holds of a transaction. -/
inductive LogFrame where
  | rows (id : Nat)
  | commit (id : Nat)
  deriving DecidableEq, Repr

/-- One write of a transaction to a page. -/
structure PageWrite where
  trx : Nat
  page : Nat
  seq : Nat
  deriving DecidableEq, Repr

/-- How far a transaction has come. -/
inductive CommitPhase where
  | running
  /-- Its row frames are in the log. -/
  | appended
  /-- Its commit frame is in the log. -/
  | logged
  | synced
  /-- The commit counter has moved, or it had nothing to log and it has. -/
  | counted
  /-- Its commit bit is set. -/
  | marked
  /-- It has left the open set to roll back. -/
  | aborting
  deriving DecidableEq, Repr

/-- A transaction. -/
structure Writer where
  id : Nat
  phase : CommitPhase
  /-- Whether it has anything to commit. -/
  wrote : Bool
  deriving DecidableEq, Repr

/-- What a saved catalog says about transactions. -/
structure SavedIds where
  nextTrxId : Nat
  clogBase : Nat
  committedTrxs : List Nat
  deriving DecidableEq, Repr

/-- How far a checkpoint has come, with what it has read so far. -/
inductive FlushStage where
  | locked
  | counted (commits : Nat)
  /-- Writing back what was written before it started to. -/
  | flushing (commits : Nat) (due : List PageWrite)
  | flushed (commits : Nat)
  | nextIdRead (commits nextId : Nat)
  | baseRead (commits nextId base : Nat)
  | idsRead (commits nextId base : Nat) (ids : List Nat)
  | saved (commits : Nat)
  deriving DecidableEq, Repr

/-- The checkpoint that holds the lock. -/
structure FlushInner where
  /-- The transaction of the CHECKPOINT statement, if it is one. -/
  exclude : Option Nat
  stage : FlushStage
  deriving DecidableEq, Repr

/-- Transactions and checkpoints over one log. -/
structure Checkpointing where
  tm : TransactionManager
  log : List LogFrame
  writes : List PageWrite
  /-- The writes that have reached the disk. -/
  disk : List PageWrite
  saved : SavedIds
  writers : List Writer
  /-- Calls of `flush` that found nothing open and wait for the lock. -/
  callers : Nat
  /-- CHECKPOINT statements that found nothing else open and wait for it. -/
  statements : List Nat
  flush : Option FlushInner
  deriving DecidableEq, Repr

/-- What one transaction can do next. -/
inductive WriterAction where
  /-- Change a page; `wrote` says whether the transaction has writes left. -/
  | write (page : Nat) (wrote : Bool)
  | appendFrames
  | appendCommit
  | sync
  | count
  | mark
  /-- Leave the open set while committing. -/
  | leave
  /-- Leave the open set to roll back. -/
  | rollback
  | finishRollback
  deriving DecidableEq, Repr

/-- What the checkpoint that holds the lock does next. -/
inductive FlushAction where
  | readCount
  | flushStart
  | flushEnd
  | readNextId
  | readBase
  | readIds
  | writeCatalog
  /-- Look at the open set and the counter, and cut the log or not. -/
  | finish
  deriving DecidableEq, Repr

/-- The steps of transactions and checkpoints. -/
inductive CheckpointLabel where
  | begin
  | trx (id : Nat) (a : WriterAction)
  | writeBack (page : Nat)
  /-- Look whether anything is open before a checkpoint. -/
  | guard (exclude : Option Nat)
  | lock (exclude : Option Nat)
  | flush (a : FlushAction)
  deriving DecidableEq, Repr

/-- The count a checkpoint started from, once it has read the commit bits. -/
def FlushStage.afterIds : FlushStage → Option Nat
  | .idsRead c _ _ _ => some c
  | .saved c => some c
  | _ => none

namespace Checkpointing

/-- The transaction with an id, if it is open. -/
def writer (s : Checkpointing) (id : Nat) : Option Writer := s.writers.find? (fun x => x.id = id)

/-- Replace the state of a transaction. -/
def putWriter (s : Checkpointing) (x : Writer) : Checkpointing :=
  { s with writers := s.writers.map (fun y => if y.id = x.id then x else y) }

/-- Forget a transaction that has ended. -/
def dropWriter (s : Checkpointing) (id : Nat) : Checkpointing :=
  { s with writers := s.writers.filter (fun x => x.id ≠ id) }

/-- Whether a transaction is one of a CHECKPOINT statement under way. -/
def busy (s : Checkpointing) (id : Nat) : Bool :=
  decide (id ∈ s.statements) || s.flush.any (fun c => c.exclude = some id)

/-- Whether nothing is open but the transaction of the checkpoint itself. -/
def nothingOpen (s : Checkpointing) (exclude : Option Nat) : Bool :=
  !s.tm.openSet.any (fun id => some id ≠ exclude)

/-- Whether the checkpoint is about to cut the log. -/
def truncates (s : Checkpointing) : Bool :=
  match s.flush with
  | some ⟨exclude, .saved commits⟩ => s.nothingOpen exclude && decide (s.tm.commits = commits)
  | _ => false

/-- Move the checkpoint on. -/
def setStage (s : Checkpointing) (exclude : Option Nat) (stage : FlushStage) : Checkpointing :=
  { s with flush := some ⟨exclude, stage⟩ }

/-- One step of a transaction. -/
def writerStep (s : Checkpointing) (x : Writer) : WriterAction → Option Checkpointing
  | .write page wrote =>
    if (x.phase = .running ∧ ¬ s.busy x.id) ∨ x.phase = .aborting then
      some { s.putWriter { x with wrote := wrote } with
        writes := ⟨x.id, page, s.writes.length⟩ :: s.writes }
    else none
  | .appendFrames =>
    if x.phase = .running ∧ x.wrote ∧ ¬ s.busy x.id then
      some { s.putWriter { x with phase := .appended } with log := s.log ++ [.rows x.id] }
    else none
  | .appendCommit =>
    if x.phase = .appended then
      some { s.putWriter { x with phase := .logged } with log := s.log ++ [.commit x.id] }
    else none
  | .sync =>
    if x.phase = .logged then some (s.putWriter { x with phase := .synced }) else none
  | .count =>
    -- A transaction that wrote nothing comes here at once.
    if x.phase = .synced ∨ (x.phase = .running ∧ ¬ x.wrote ∧ ¬ s.busy x.id) then
      some { s.putWriter { x with phase := .counted } with tm := s.tm.bumpCommits }
    else none
  | .mark =>
    if x.phase = .counted then
      some { s.putWriter { x with phase := .marked } with tm := s.tm.markCommitted x.id }
    else none
  | .leave =>
    if x.phase = .marked then some { s.dropWriter x.id with tm := s.tm.removeOpen x.id } else none
  | .rollback =>
    if x.phase = .running ∧ ¬ s.busy x.id then
      some { s.putWriter { x with phase := .aborting } with tm := s.tm.removeOpen x.id }
    else none
  | .finishRollback => if x.phase = .aborting then some (s.dropWriter x.id) else none

/-- One step of the checkpoint that holds the lock. -/
def flushStep (s : Checkpointing) (ex : Option Nat) :
    FlushStage → FlushAction → Option Checkpointing
  | .locked, .readCount => some (s.setStage ex (.counted s.tm.commits))
  | .counted c, .flushStart => some (s.setStage ex (.flushing c s.writes))
  | .flushing c due, .flushEnd =>
    if ∀ w ∈ due, w ∈ s.disk then some (s.setStage ex (.flushed c)) else none
  | .flushed c, .readNextId => some (s.setStage ex (.nextIdRead c s.tm.nextId))
  | .nextIdRead c n, .readBase => some (s.setStage ex (.baseRead c n s.tm.committed.base))
  | .baseRead c n b, .readIds => some (s.setStage ex (.idsRead c n b s.tm.committed.marked))
  | .idsRead c n b ids, .writeCatalog =>
    some { s.setStage ex (.saved c) with saved := ⟨n, b, ids⟩ }
  | .saved _, .finish =>
    some { s with log := if s.truncates then [] else s.log, flush := none }
  | _, _ => none

/-- One step of the whole. -/
def step (s : Checkpointing) : CheckpointLabel → Option Checkpointing
  | .begin =>
    some { s with
      tm := s.tm.beginOpen.2, writers := ⟨s.tm.beginOpen.1, .running, false⟩ :: s.writers }
  | .trx id a =>
    match s.writer id with
    | none => none
    | some x => s.writerStep x a
  | .writeBack page => some { s with disk := s.writes.filter (fun w => w.page = page) ++ s.disk }
  | .guard none =>
    if s.tm.noOpenTransactions then some { s with callers := s.callers + 1 } else none
  | .guard (some id) =>
    match s.writer id with
    | none => none
    | some x =>
      if x.phase = .running ∧ ¬ x.wrote ∧ ¬ s.busy id ∧ ¬ s.tm.hasOpenExcluding id then
        some { s with statements := id :: s.statements }
      else none
  | .lock none =>
    if s.flush = none ∧ 0 < s.callers then
      some { s with callers := s.callers - 1, flush := some ⟨none, .locked⟩ }
    else none
  | .lock (some id) =>
    if s.flush = none ∧ id ∈ s.statements then
      some { s with
        statements := s.statements.filter (fun i => i ≠ id), flush := some ⟨some id, .locked⟩ }
    else none
  | .flush a =>
    match s.flush with
    | none => none
    | some c => s.flushStep c.exclude c.stage a

end Checkpointing

end ChibiDb
