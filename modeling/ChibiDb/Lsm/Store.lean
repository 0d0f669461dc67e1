import ChibiDb.Data.BTreeMap
import ChibiDb.Lsm.Table

/-!
# The LSM Store

A memtable on top of levels of tables, newest first. A flush makes the memtable
a table of level 0 and merges every level that has reached the trigger into one
table at the front of the next level. A compaction merges everything and drops
the tombstones.

The source loops until no level has reached the trigger; every merge leaves
fewer tables, so as many rounds as there are tables are enough.

## Main definitions

* `MemEntry`, `MemTable`: The write buffer.
* `mergeTables`: The newest entry of each key over some tables.
* `LsmStore`: The store, with `get`, `iter`, `flush` and `compact`.
-/

namespace ChibiDb.Lsm

/-- What the memtable has for a key. -/
inductive MemEntry where
  | value (bytes : Buf)
  | tombstone
  deriving DecidableEq, Repr

/-- The value of an entry that is no tombstone. -/
def MemEntry.bytes? : MemEntry → Option Buf
  | .value bytes => some bytes
  | .tombstone => none

/-- The memtable, ordered by key. -/
abbrev MemTable := BTreeMap Buf MemEntry

/-- An entry as it is stored in a table. -/
def encodeEntry : MemEntry → Buf
  | .tombstone => [0]
  | .value bytes => 1 :: bytes

/-- Read an entry of a table. -/
def decodeEntry : Buf → MemEntry
  | 1 :: bytes => .value bytes
  | _ => .tombstone

/-- Add the pairs of a table to what newer tables gave. -/
def mergePairs (merged : MemTable) (pairs : List (Buf × Buf)) : MemTable :=
  pairs.foldl (fun m p => m.alter p.1 (fun old => old.getD (decodeEntry p.2))) merged

/-- The newest entry of each key, over tables that stand newest first. -/
def mergeTables (merged : MemTable) : List SSTable → Except LsmError MemTable
  | [] => .ok merged
  | table :: tables => do
    let pairs ← table.iter
    mergeTables (mergePairs merged pairs) tables

/-- The memtable and the levels of tables, newest first. -/
structure LsmStore where
  memtable : MemTable
  levels : List (List SSTable)
  blockSize : Nat
  compactionTrigger : Nat

namespace LsmStore

/-- An empty store; the trigger is two at least. -/
def new (blockSize compactionTrigger : Nat) : LsmStore :=
  ⟨.empty, [], blockSize, max compactionTrigger 2⟩

/-- The table of some entries. -/
def buildFrom (blockSize : Nat) (entries : List (Buf × MemEntry)) : Buf :=
  buildTable blockSize defaultRestartInterval (entries.map fun e => (e.1, encodeEntry e.2))

/-- Set a key. -/
def put (s : LsmStore) (key value : Buf) : LsmStore :=
  { s with memtable := s.memtable.alter key (fun _ => .value value) }

/-- Delete a key, which leaves a tombstone. -/
def delete (s : LsmStore) (key : Buf) : LsmStore :=
  { s with memtable := s.memtable.alter key (fun _ => .tombstone) }

/-- The tables in the order they are asked. -/
def tablesNewestFirst (s : LsmStore) : List SSTable := s.levels.flatten

/-- The value of a key in the first table that has an entry for it. -/
def getFrom (key : Buf) : List SSTable → Except LsmError (Option Buf)
  | [] => .ok none
  | table :: tables =>
    if !table.mayContain key then getFrom key tables
    else do
      match ← table.get key with
      | some encoded => .ok (decodeEntry encoded).bytes?
      | none => getFrom key tables

/-- The newest value of a key. -/
def get (s : LsmStore) (key : Buf) : Except LsmError (Option Buf) :=
  match s.memtable.get? key with
  | some entry => .ok entry.bytes?
  | none => getFrom key s.tablesNewestFirst

/-- The pairs without the tombstones. -/
def visible (entries : List (Buf × MemEntry)) : List (Buf × Buf) :=
  entries.filterMap fun e => e.2.bytes?.map fun v => (e.1, v)

/-- The visible contents in ascending key order. -/
def iter (s : LsmStore) : Except LsmError (List (Buf × Buf)) := do
  let merged ← mergeTables .empty s.tablesNewestFirst
  let merged := s.memtable.entries.foldl (fun m e => m.alter e.1 (fun _ => e.2)) merged
  .ok (visible merged.entries)

/-- The memtable as a table image, or `none` when it is empty. -/
def memtableImage (s : LsmStore) : Option Buf :=
  if s.memtable.entries.isEmpty then none else some (buildFrom s.blockSize s.memtable.entries)

/-- Empty the memtable. -/
def resetMemtable (s : LsmStore) : LsmStore := { s with memtable := .empty }

/-- Add a table to level 0. -/
def insertLevel0 (s : LsmStore) (table : SSTable) : LsmStore :=
  match s.levels with
  | [] => { s with levels := [[table]] }
  | level :: levels => { s with levels := (table :: level) :: levels }

/-- The lowest level with at least as many tables as the trigger. -/
def levelNeedingCompaction (s : LsmStore) : Option Nat :=
  s.levels.findIdx? fun level => decide (level.length ≥ s.compactionTrigger)

/-- The image of the table that tables are merged into. -/
def mergeImage (s : LsmStore) (tables : List SSTable) : Except LsmError Buf := do
  let merged ← mergeTables .empty tables
  .ok (buildFrom s.blockSize merged.entries)

/-- Empty a level and put its merged table at the front of the next. -/
def applyMerge (merged : SSTable) : Nat → List (List SSTable) → List (List SSTable)
  | _, [] => []
  | 0, _ :: [] => [[], [merged]]
  | 0, _ :: next :: levels => [] :: (merged :: next) :: levels
  | level + 1, l :: levels => l :: applyMerge merged level levels

/-- Merge levels that are too full, one after the other. -/
def cascade : Nat → LsmStore → Except LsmError LsmStore
  | 0, s => .ok s
  | rounds + 1, s =>
    match s.levelNeedingCompaction with
    | none => .ok s
    | some level => do
      let image ← s.mergeImage (s.levels.getD level [])
      let merged ← SSTable.parse image
      cascade rounds { s with levels := applyMerge merged level s.levels }

/-- The number of tables. -/
def numSstables (s : LsmStore) : Nat := (s.levels.map List.length).sum

/-- Write the memtable to a table of level 0 and merge what is too full. -/
def flush (s : LsmStore) : Except LsmError LsmStore :=
  match s.memtableImage with
  | none => .ok s
  | some image => do
    let table ← SSTable.parse image
    let s := (s.insertLevel0 table).resetMemtable
    cascade s.numSstables s

/-- The image of every table merged, or `none` when there is nothing to merge. -/
def compactedImage (s : LsmStore) : Except LsmError (Option Buf) :=
  if s.numSstables < 2 then .ok none
  else do
    let merged ← mergeTables .empty s.tablesNewestFirst
    .ok (some (buildFrom s.blockSize
      (merged.entries.filter fun e => e.2.bytes?.isSome)))

/-- Merge everything into one table. -/
def compact (s : LsmStore) : Except LsmError LsmStore := do
  match ← s.compactedImage with
  | none => .ok s
  | some image => do
    let table ← SSTable.parse image
    .ok { s with levels := [[table]] }

end LsmStore

/-- A call on the store that changes it. -/
inductive LsmOp where
  | put (key value : Buf)
  | delete (key : Buf)
  | flush
  | compact

namespace LsmStore

/-- One operation. -/
def apply (s : LsmStore) : LsmOp → Except LsmError LsmStore
  | .put key value => .ok (s.put key value)
  | .delete key => .ok (s.delete key)
  | .flush => s.flush
  | .compact => s.compact

end LsmStore

end ChibiDb.Lsm
