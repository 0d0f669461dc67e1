import ChibiDb.Data.LittleEndian
import ChibiDb.Data.BTreeMap
import ChibiDb.Core.Codec

/-!
# The Write-Ahead Log

The log is a file of frames, each `[u32 len][u8 type][u64 trx_id][payload]`
with `len` counting what follows it. A transaction's redo records are appended
in one write at commit, then its commit record.

Recovery reads the file as one byte string. `decodeFrame` takes one frame off
the front and gives up on a truncated or unknown one; `scanFrames` repeats it,
so the first frame that does not decode ends the scan whatever follows it.
`planFrames` groups the frames found: the redo records of each committed
transaction, in commit order.

The record type is generic in the row image. The bytes of the log hold an
encoded image; the models above hold a decoded one, and plan the same way.

## Main definitions

* `Record`: One redo record.
* `encodeFrame`, `decodeFrame`: A frame as bytes and back.
* `scanFrames`: The frames of a log file, with the position each ends at.
* `RecoveryPlan`, `planFrames`, `planRecovery`: What recovery does with a log.
* `Wal`: The log file as the append operations see it.
* `Frame`: A transaction's record whose words fit their widths.
-/

namespace ChibiDb

/-- Bytes of the log file. -/
abbrev Bytes := List UInt8

/-- One redo record, with row images of type `ρ`. -/
inductive Record (ρ : Type) where
  /-- A full versioned row image written at an exact row id. -/
  | insert (fileNo : Nat) (rid : Rid) (record : ρ)
  /-- A delete mark, deleter and forward pointer, at an exact row id. -/
  | deleteMark (fileNo : Nat) (rid : Rid) (deleter nextRid : Nat)
  | commit
  deriving DecidableEq, Repr

/-- Whether a record is a commit. -/
def Record.isCommit {ρ : Type} : Record ρ → Bool
  | .commit => true
  | _ => false

/-- Type byte and transaction id. -/
def headerLen : Nat := 9

/-- The byte that tells the kind of a record. -/
def Record.typeByte {ρ : Type} : Record ρ → UInt8
  | .insert .. => 1
  | .deleteMark .. => 2
  | .commit => 3

/-- What follows the transaction id in a frame. -/
def encodePayload : Record Bytes → Bytes
  | .insert fileNo rid record =>
    leBytes 4 fileNo ++ leBytes 4 rid.pageNo ++ leBytes 2 rid.slot ++ record
  | .deleteMark fileNo rid deleter nextRid =>
    leBytes 4 fileNo ++ leBytes 4 rid.pageNo ++ leBytes 2 rid.slot ++
      leBytes 8 deleter ++ leBytes 8 nextRid
  | .commit => []

/-- One encoded frame. The length word is 32 bits wide and is written last, so
    it is the length of the body truncated to that width. -/
def encodeFrame (trxId : Nat) (rec : Record Bytes) : Bytes :=
  let body := rec.typeByte :: leBytes 8 trxId ++ encodePayload rec
  leBytes 4 body.length ++ body

/-- The redo record a payload of the given type holds. -/
def decodePayload (ty : UInt8) (payload : Bytes) : Option (Record Bytes) :=
  if ty = 1 then
    if payload.length < 10 then none
    else some (.insert (ofLeBytes (payload.take 4))
      ⟨ofLeBytes ((payload.drop 4).take 4), ofLeBytes ((payload.drop 8).take 2)⟩
      (payload.drop 10))
  else if ty = 2 then
    if payload.length < 26 then none
    else some (.deleteMark (ofLeBytes (payload.take 4))
      ⟨ofLeBytes ((payload.drop 4).take 4), ofLeBytes ((payload.drop 8).take 2)⟩
      (ofLeBytes ((payload.drop 10).take 8)) (ofLeBytes ((payload.drop 18).take 8)))
  else if ty = 3 then some .commit
  -- unknown frame type: stop scanning
  else none

/-- The first frame of a byte string: transaction id, record and frame length,
    or `none` at the end of the log or at a truncated or unknown frame. -/
def decodeFrame (bytes : Bytes) : Option (Nat × Record Bytes × Nat) :=
  if bytes.length < 4 then none
  else
    let len := ofLeBytes (bytes.take 4)
    if len < headerLen ∨ bytes.length < 4 + len then none
    else
      let ty := bytes.getD 4 0
      let trxId := ofLeBytes ((bytes.drop 5).take 8)
      let payload := (bytes.take (4 + len)).drop 13
      (decodePayload ty payload).map (fun rec => (trxId, rec, 4 + len))

/-- The frames of a byte string up to the first that does not decode, each with the position it ends
    at. A frame is never empty, so the length of the string is fuel enough. -/
def scanFrames : Nat → Nat → Bytes → List (Nat × Nat × Record Bytes)
  | 0, _, _ => []
  | fuel + 1, pos, bytes => match decodeFrame bytes with
    | none => []
    | some (trxId, rec, frameLen) =>
      (pos + frameLen, trxId, rec) :: scanFrames fuel (pos + frameLen) (bytes.drop frameLen)

/-- What recovery should do with a log image. -/
structure RecoveryPlan (ρ : Type) where
  /-- Commit position, transaction id and redo records in log order, sorted by
      the commit position. -/
  committed : List (Nat × Nat × List (Record ρ))
  /-- Every transaction id with a commit record, ascending. -/
  committedIds : List Nat
  /-- Highest transaction id seen anywhere. -/
  maxTrxId : Nat
  deriving DecidableEq, Repr

/-- The maps the log scan fills in. -/
structure PlanState (ρ : Type) where
  records : BTreeMap Nat (List (Record ρ))
  commitPos : BTreeMap Nat Nat
  maxTrxId : Nat

/-- One turn of the scan loop, for a frame that ends at `pos`. -/
def PlanState.note {ρ : Type} (s : PlanState ρ) (pos trxId : Nat) (rec : Record ρ) :
    PlanState ρ :=
  let s := { s with maxTrxId := max s.maxTrxId trxId }
  match rec with
  | .commit => { s with commitPos := s.commitPos.alter trxId (fun old => old.getD pos) }
  | other => { s with records := s.records.alter trxId (fun old => old.getD [] ++ [other]) }

/-- The scan loop over the frames of a log, each with its end position. -/
def planLoop {ρ : Type} (frames : List (Nat × Nat × Record ρ)) : PlanState ρ :=
  frames.foldl (fun s f => s.note f.1 f.2.1 f.2.2) ⟨.empty, .empty, 0⟩

/-- The plan of a recovery: the transactions with a commit frame, in the order of those frames. -/
def planFrames {ρ : Type} (frames : List (Nat × Nat × Record ρ)) : RecoveryPlan ρ :=
  let s := planLoop frames
  let committed := s.commitPos.entries.filterMap (fun e =>
    (s.records.get? e.1).map (fun recs => (e.2, e.1, recs)))
  { committed := committed.insertionSort (fun a b => a.1 ≤ b.1)
    committedIds := s.commitPos.keys
    maxTrxId := s.maxTrxId }

/-- Parse a raw log image. Stops at the first truncated or unknown frame. -/
def planRecovery (bytes : Bytes) : RecoveryPlan Bytes :=
  planFrames (scanFrames bytes.length 0 bytes)

/-- The log file. -/
structure Wal where
  file : Bytes

/-- Open the log, creating it when there is none. An existing log is kept as
    it is: the file is opened for writing without truncation. -/
def Wal.openFile (existing : Option Bytes) : Wal := ⟨existing.getD []⟩

/-- Append a frame. -/
def Wal.append (w : Wal) (trxId : Nat) (rec : Record Bytes) : Wal :=
  ⟨w.file ++ encodeFrame trxId rec⟩

/-- Append a batch of encoded frames in one write. -/
def Wal.appendFrames (w : Wal) (frames : Bytes) : Wal :=
  if frames = [] then w else ⟨w.file ++ frames⟩

/-- The widths of the words of a record, and the room the length word leaves. -/
def Record.Typed : Record Bytes → Prop
  | .insert fileNo rid record =>
    fileNo < 2 ^ 32 ∧ rid.pageNo < 2 ^ 32 ∧ rid.slot < 2 ^ 16 ∧ record.length + 19 < 2 ^ 32
  | .deleteMark fileNo rid deleter nextRid =>
    fileNo < 2 ^ 32 ∧ rid.pageNo < 2 ^ 32 ∧ rid.slot < 2 ^ 16 ∧ deleter < 2 ^ 64 ∧
      nextRid < 2 ^ 64
  | .commit => True

/-- A transaction's record whose words fit their widths, so that encoding it loses nothing. -/
structure Frame where
  trxId : Nat
  record : Record Bytes
  trxId_lt : trxId < 2 ^ 64
  typed : record.Typed

/-- The bytes of a frame. -/
def Frame.bytes (f : Frame) : Bytes := encodeFrame f.trxId f.record

/-- The bytes of whole frames one after the other. -/
def encodeFrames : List Frame → Bytes
  | [] => []
  | f :: fs => f.bytes ++ encodeFrames fs

/-- The frames of a log file with the position each ends at. -/
def framesFrom : Nat → List Frame → List (Nat × Nat × Record Bytes)
  | _, [] => []
  | pos, f :: fs =>
    (pos + f.bytes.length, f.trxId, f.record) :: framesFrom (pos + f.bytes.length) fs

end ChibiDb
