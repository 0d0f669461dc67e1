import ChibiDb.Lsm.Store

/-!
# The Store in a Directory

One file for each table, and a manifest that names the tables of each level. A
flush writes the new table, merges levels, replaces the manifest and then removes
the tables that were merged; a compaction does the same with one table for all.
Neither reads a file, so a call is a script: the file operations in order, with
what is in memory while each of them runs.

A file operation succeeds, or fails with an error, or the process is gone before
it. A failed one leaves the file it was writing in any state. Operations take
effect in order, so a sync changes nothing here. File numbers are 32-bit words,
and counting past the last one ends the process.

## Main definitions

* `Dir`, `FileOp`: The directory and what is done to it.
* `encodeManifest`, `readManifest`: The manifest and how it is read.
* `PersistentLsm`: The store with `openWithTrigger`, `flush` and `compact`.
* `Script`, `Script.run`: A call, and its run against what the file system does.
* `LsmSystem`: A directory over calls, crashes and reopenings.
-/

namespace ChibiDb.Lsm

/-! ### Files -/

/-- The files of a store. -/
inductive FileName where
  | manifest
  | manifestTmp
  | sst (no : Nat)
  deriving DecidableEq

/-- The contents of each file that exists. -/
abbrev Dir := FileName → Option Buf

/-- What a store does with its files. -/
inductive FileOp where
  | create (f : FileName)
  | write (f : FileName) (bytes : Buf)
  | sync (f : FileName)
  | rename (f g : FileName)
  | remove (f : FileName)

namespace FileOp

/-- What an operation that succeeds does. -/
def apply (dir : Dir) : FileOp → Dir
  | .create f => Function.update dir f (some [])
  | .write f bytes => Function.update dir f ((dir f).map (· ++ bytes))
  | .sync _ => dir
  | .rename f g => Function.update (Function.update dir g (dir f)) f none
  | .remove f => Function.update dir f none

/-- The directory when the operation has failed. -/
def spoil (dir : Dir) (left : Option Buf) : FileOp → Dir
  | .create f => Function.update dir f left
  | .write f _ => Function.update dir f left
  | .sync f => Function.update dir f left
  | .rename _ _ => dir
  | .remove _ => dir

/-- The error of an operation that fails. -/
def error : FileOp → LsmError
  | .create _ => .cannotCreate
  | .write _ _ => .cannotWrite
  | .sync _ => .cannotSync
  | .rename _ _ => .cannotReplace
  | .remove _ => .cannotRemove

end FileOp

/-! ### The manifest -/

/-- The bytes of "LSMMF002". -/
def manifestMagic : Buf := [76, 83, 77, 77, 70, 48, 48, 50]

/-- The manifest: the next file number, and the files of each level. -/
def encodeManifest (nextFileNo : Nat) (levels : List (List Nat)) : Buf :=
  manifestMagic ++ (putFixed32 nextFileNo ++ (putFixed32 levels.length ++
    levels.flatMap fun level => putFixed32 level.length ++ level.flatMap putFixed32))

/-- Read a number of the manifest. -/
def takeU32 (data : Buf) (pos : Nat) : Except LsmError (Nat × Nat) :=
  if pos + 4 ≤ data.length then .ok (ofLeBytes (slice data pos 4), pos + 4)
  else .error .manifestTruncated

/-- Read the file numbers of a level. -/
def takeNumbers (data : Buf) : Nat → Nat → Except LsmError (List Nat × Nat)
  | 0, pos => .ok ([], pos)
  | count + 1, pos => do
    let (no, pos) ← takeU32 data pos
    let (nos, pos) ← takeNumbers data count pos
    .ok (no :: nos, pos)

/-- Read the levels. -/
def takeLevels (data : Buf) : Nat → Nat → Except LsmError (List (List Nat))
  | 0, _ => .ok []
  | numLevels + 1, pos => do
    let (count, pos) ← takeU32 data pos
    if data.length < pos + count * 4 then .error .manifestTruncated
    else
      let (level, pos) ← takeNumbers data count pos
      let levels ← takeLevels data numLevels pos
      .ok (level :: levels)

/-- The next file number and the tables of each level. Without a manifest there are none. -/
def readManifest (dir : Dir) : Except LsmError (Nat × List (List Nat)) :=
  match dir .manifest with
  | none => .ok (1, [])
  | some bytes =>
    if bytes.length < 16 || bytes.take 8 != manifestMagic then .error .manifestCorrupt
    else do
      let levels ← takeLevels bytes (ofLeBytes (slice bytes 12 4)) 16
      .ok (ofLeBytes (slice bytes 8 4), levels)

/-! ### The store -/

/-- A store and its next file number. -/
structure PersistentLsm where
  store : LsmStore
  nextFileNo : Nat

/-- Read the tables of a level. -/
def loadTables (dir : Dir) : List Nat → Except LsmError (List SSTable)
  | [] => .ok []
  | no :: nos =>
    match dir (.sst no) with
    | none => .error .cannotRead
    | some bytes => do
      let table ← SSTable.parse bytes
      let tables ← loadTables dir nos
      .ok (table.withFileNo no :: tables)

/-- Read the tables of all levels. -/
def loadLevels (dir : Dir) : List (List Nat) → Except LsmError (List (List SSTable))
  | [] => .ok []
  | nos :: rest => do
    let tables ← loadTables dir nos
    let levels ← loadLevels dir rest
    .ok (tables :: levels)

/-- A call: the file operations it does, each with what is in memory meanwhile. -/
inductive Script where
  | ret (p : PersistentLsm) (result : Except LsmError Unit)
  | overflow (p : PersistentLsm)
  /-- If the operation fails, the call returns its error. -/
  | call (p : PersistentLsm) (op : FileOp) (next : Script)
  /-- If the operation fails, the call goes on. -/
  | ignore (p : PersistentLsm) (op : FileOp) (next : Script)

namespace PersistentLsm

/-- Open the directory with the levels that its manifest names. -/
def openWithTrigger (dir : Dir) (blockSize compactionTrigger : Nat) :
    Except LsmError PersistentLsm := do
  let (storedNext, manifestLevels) ← readManifest dir
  let levels ← loadLevels dir manifestLevels
  let maxFile := manifestLevels.flatten.foldl max 0
  if maxFile + 1 ≥ 2 ^ 32 then .error .fileNumberOverflows
  else .ok ⟨{ LsmStore.new blockSize compactionTrigger with levels := levels },
    max (max storedNext (maxFile + 1)) 1⟩

/-- The files in use. -/
def sstableFileNumbers (p : PersistentLsm) : List Nat :=
  p.store.levels.flatten.filterMap SSTable.fileNo

/-- Write a table to a file and sync it. -/
def writeSstable (p : PersistentLsm) (no : Nat) (image : Buf) (next : Script) : Script :=
  .call p (.create (.sst no)) (.call p (.write (.sst no) image) (.call p (.sync (.sst no)) next))

/-- A table is written under the next number, the number is counted on, and the
    table is parsed: every call adds its tables like this. -/
def addTable (p : PersistentLsm) (image : Buf) (next : PersistentLsm → SSTable → Script) :
    Script :=
  writeSstable p p.nextFileNo image <|
    if p.nextFileNo + 1 ≥ 2 ^ 32 then .overflow p
    else match SSTable.parse image with
      | .error e => .ret { p with nextFileNo := p.nextFileNo + 1 } (.error e)
      | .ok table =>
        next { p with nextFileNo := p.nextFileNo + 1 } (table.withFileNo p.nextFileNo)

/-- Merge levels that are too full, one after the other; the files of their tables become obsolete.
    -/
def cascade (next : List Nat → PersistentLsm → Script) :
    Nat → List Nat → PersistentLsm → Script
  | 0, obsolete, p => next obsolete p
  | rounds + 1, obsolete, p =>
    match p.store.levelNeedingCompaction with
    | none => next obsolete p
    | some level =>
      let tables := p.store.levels.getD level []
      match p.store.mergeImage tables with
      | .error e => .ret p (.error e)
      | .ok image => addTable p image fun p merged =>
        cascade next rounds (obsolete ++ tables.filterMap SSTable.fileNo) { p with
          store := { p.store with levels := LsmStore.applyMerge merged level p.store.levels } }

/-- Write the manifest to a temporary file and put it in the place of the old one. -/
def writeManifest (p : PersistentLsm) (next : Script) : Script :=
  let levels := p.store.levels.map fun level => level.filterMap SSTable.fileNo
  .call p (.create .manifestTmp) <|
    .call p (.write .manifestTmp (encodeManifest p.nextFileNo levels)) <|
      .call p (.sync .manifestTmp) (.call p (.rename .manifestTmp .manifest) next)

/-- Remove files; errors are ignored. -/
def removeFiles (p : PersistentLsm) : List Nat → Script
  | [] => .ret p (.ok ())
  | no :: nos => .ignore p (.remove (.sst no)) (removeFiles p nos)

/-- Write the memtable to a table of level 0, merge what is too full, save the manifest. -/
def flush (p : PersistentLsm) : Script :=
  match p.store.memtableImage with
  | none => .ret p (.ok ())
  | some image => addTable p image fun p table =>
    let p := { p with store := (p.store.insertLevel0 table).resetMemtable }
    cascade (fun obsolete p => writeManifest p (removeFiles p obsolete)) p.store.numSstables [] p

/-- Merge everything into one table. -/
def compact (p : PersistentLsm) : Script :=
  match p.store.compactedImage with
  | .error e => .ret p (.error e)
  | .ok none => .ret p (.ok ())
  | .ok (some image) => addTable p image fun q table =>
    let q := { q with store := { q.store with levels := [[table]] } }
    writeManifest q (removeFiles q p.sstableFileNumbers)

end PersistentLsm

/-! ### Runs -/

/-- What becomes of a file operation. -/
inductive Outcome where
  | done
  | failed (left : Option Buf)
  | crash

/-- How a script ended: with a result, or in a crash. -/
inductive Ending where
  | returned (result : Except LsmError Unit)
  | gone

/-- The memory, the directory and the ending of a call. Operations past the given
    outcomes succeed. -/
def Script.run : Script → List Outcome → Dir → PersistentLsm × Dir × Ending
  | .ret p result, _, dir => (p, dir, .returned result)
  | .overflow p, _, dir => (p, dir, .gone)
  | .call p op next, outcomes, dir =>
    match outcomes with
    | [] => next.run [] (op.apply dir)
    | .done :: outcomes => next.run outcomes (op.apply dir)
    | .failed left :: _ => (p, op.spoil dir left, .returned (.error op.error))
    | .crash :: _ => (p, dir, .gone)
  | .ignore p op next, outcomes, dir =>
    match outcomes with
    | [] => next.run [] (op.apply dir)
    | .done :: outcomes => next.run outcomes (op.apply dir)
    | .failed left :: outcomes => next.run outcomes (op.spoil dir left)
    | .crash :: _ => (p, dir, .gone)

/-- A directory, and the store while a process has it open. -/
structure LsmSystem where
  dir : Dir
  mem : Option PersistentLsm

/-- The steps of a store on disk. -/
inductive LsmLabel where
  | reopen (blockSize compactionTrigger : Nat)
  | put (key value : Buf)
  | delete (key : Buf)
  | flush (outcomes : List Outcome)
  | compact (outcomes : List Outcome)

namespace LsmSystem

/-- An empty directory and no open store. -/
def empty : LsmSystem := ⟨fun _ => none, none⟩

/-- The script of a call runs; if the process is gone, so is its memory. -/
def perform (s : LsmSystem) (script : Script) (outcomes : List Outcome) : LsmSystem :=
  match script.run outcomes s.dir with
  | (p, dir, .returned _) => ⟨dir, some p⟩
  | (_, dir, .gone) => ⟨dir, none⟩

/-- One step. -/
def step (s : LsmSystem) : LsmLabel → Option LsmSystem
  | .reopen blockSize compactionTrigger =>
    match PersistentLsm.openWithTrigger s.dir blockSize compactionTrigger with
    | .ok p => some { s with mem := some p }
    | .error _ => none
  | .put key value =>
    s.mem.map fun p => { s with mem := some { p with store := p.store.put key value } }
  | .delete key =>
    s.mem.map fun p => { s with mem := some { p with store := p.store.delete key } }
  | .flush outcomes => s.mem.map fun p => s.perform p.flush outcomes
  | .compact outcomes => s.mem.map fun p => s.perform p.compact outcomes

end LsmSystem

end ChibiDb.Lsm
