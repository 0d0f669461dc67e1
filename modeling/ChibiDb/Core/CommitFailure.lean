import ChibiDb.Core.Database

/-!
# COMMIT When the Log Cannot Be Written

`commit_trx` appends a transaction's redo records, appends its commit record and
syncs the file, and each of the three can fail. The caller then takes the
transaction out of the open set and rolls it back in memory. The bytes that went
into the file stay there: a failed append leaves a part of what it was to write,
a failed sync leaves the whole commit record.

The database of `Core.Database` is put on top of the file: every append goes to
the file, and the log recovery would find is what a scan of the file yields. How
a version becomes the row image of a redo record is left open, so the image
codec is a parameter. A write whose words do not fit their widths is not
modelled.

## Main definitions

* `ImageCodec`: How row images are written and read.
* `LoggedDb`: A database and its log file.
* `CommitLabel`: The steps of a database, and the failures of COMMIT.
* `LoggedDb.step`: One step.
-/

namespace ChibiDb

/-- Change the image of the record a log record carries. -/
def Record.mapImage {ρ σ : Type} (g : ρ → σ) : Record ρ → Record σ
  | .insert f rid v => .insert f rid (g v)
  | .deleteMark f rid d n => .deleteMark f rid d n
  | .commit => .commit

instance (r : Record Bytes) : Decidable r.Typed := by
  unfold Record.Typed
  split <;> infer_instance

/-- How a version is written as a row image, and read back. -/
structure ImageCodec where
  image : Version → Bytes
  parse : Bytes → Version

namespace ImageCodec

/-- The words of a record fit their widths and its image is read back as it was. -/
def Fits (c : ImageCodec) (r : Record Version) : Prop :=
  (r.mapImage c.image).Typed ∧ (r.mapImage c.image).mapImage c.parse = r

instance (c : ImageCodec) (r : Record Version) : Decidable (c.Fits r) :=
  inferInstanceAs (Decidable (_ ∧ _))

/-- The redo buffer of a transaction as it is appended. -/
def frames (c : ImageCodec) (id : Nat) (rs : List (Record Version)) : Bytes :=
  rs.flatMap (fun r => encodeFrame id (r.mapImage c.image))

/-- The log that recovery finds in a file. -/
def readLog (c : ImageCodec) (file : Bytes) : List (Nat × Record Version) :=
  (scanFrames file.length 0 file).map (fun f => (f.2.1, f.2.2.mapImage c.parse))

end ImageCodec

/-- Whether a scan of the file gets to its end. -/
def wholeFile (file : Bytes) : Bool :=
  decide (((scanFrames file.length 0 file).getLast?.map (fun f => f.1)).getD 0 = file.length)

/-- The steps of a database whose log operations can fail. -/
inductive CommitLabel where
  | db (l : Label)
  /-- COMMIT of `id`: the append of its redo records fails after `n` bytes. -/
  | failAppend (id n : Nat)
  /-- The append of its commit record fails after `n` bytes. -/
  | failRecord (id n : Nat)
  | failSync (id : Nat)
  deriving DecidableEq, Repr

/-- Whether a step writes to the end of the log file. -/
def CommitLabel.appends : CommitLabel → Bool
  | .db (.trx _ .commitAppend) => true
  | .db (.trx _ .commitRecord) => true
  | .db _ => false
  | .failAppend _ _ => true
  | .failRecord _ _ => true
  | .failSync _ => true

/-- COMMIT has failed: what is left to do for the transaction is its rollback. -/
def Db.abortTrx (s : Db) (x : Trx) : Db :=
  s.putTrx { x with phase := .aborting, wal := [], targets := [] }

/-- Whether the end of a checkpoint truncates the log. -/
def Db.cutsLog (s : Db) (exclude : Option Nat) : Bool :=
  s.nothingOpen exclude && s.checkpoint.any (fun c => s.tm.commits = c.commits)

/-- A database and its log file. -/
structure LoggedDb where
  db : Db
  file : Bytes
  deriving DecidableEq, Repr

namespace LoggedDb

/-- A new database with an empty log file. -/
def fresh (inlineLimit : Nat) : LoggedDb := ⟨Db.fresh inlineLimit, []⟩

/-- The database has moved to `db` and `bytes` went to the end of the file. -/
def write (c : ImageCodec) (s : LoggedDb) (db : Db) (bytes : Bytes) : LoggedDb :=
  ⟨{ db with log := c.readLog (s.file ++ bytes) }, s.file ++ bytes⟩

/-- One step. A failing append leaves a part of its bytes in the file. -/
def step (c : ImageCodec) (s : LoggedDb) : CommitLabel → Option LoggedDb
  | .db (.trx id .commitAppend) =>
    match s.db.trx id, s.db.step (.trx id .commitAppend) with
    | some x, some db =>
      if id < 2 ^ 64 ∧ ∀ r ∈ x.wal, c.Fits r then some (s.write c db (c.frames id x.wal)) else none
    | _, _ => none
  | .db (.trx id .commitRecord) =>
    match s.db.step (.trx id .commitRecord) with
    | some db => if id < 2 ^ 64 then some (s.write c db (c.frames id [.commit])) else none
    | none => none
  | .db (.checkpointEnd exclude) =>
    (s.db.step (.checkpointEnd exclude)).map (fun db =>
      ⟨db, if s.db.cutsLog exclude then [] else s.file⟩)
  | .db l => (s.db.step l).map (fun db => ⟨db, s.file⟩)
  | .failAppend id n =>
    match s.db.vacuum, s.db.trx id with
    | none, some x =>
      if x.phase = .running ∧ x.pending = none ∧ x.undo ≠ [] ∧ id < 2 ^ 64 ∧
          (∀ r ∈ x.wal, c.Fits r) ∧ n < (c.frames id x.wal).length then
        some (s.write c (s.db.abortTrx x) ((c.frames id x.wal).take n))
      else none
    | _, _ => none
  | .failRecord id n =>
    match s.db.vacuum, s.db.trx id with
    | none, some x =>
      if x.phase = .appended ∧ id < 2 ^ 64 ∧ n < (c.frames id [.commit]).length then
        some (s.write c (s.db.abortTrx x) ((c.frames id [.commit]).take n))
      else none
    | _, _ => none
  | .failSync id =>
    match s.db.vacuum, s.db.trx id with
    | none, some x =>
      if x.phase = .appended ∧ id < 2 ^ 64 then
        some (s.write c (s.db.abortTrx x) (c.frames id [.commit]))
      else none
    | _, _ => none

end LoggedDb

end ChibiDb
