import ChibiDb.Core.Heap
import ChibiDb.Data.LittleEndian

/-!
# The Double-Write Buffer

`flush_all` first appends every page it is about to write to the double-write
file, syncs that file, writes the pages to their own files and then empties the
buffer. When the process dies inside one of those writes, the next open finds
the page's record in the buffer and writes the page again.

The buffer is a sequence of records, each the path of a file behind its length,
a page number and a page. Recovery reads records until the bytes left are too
short for one. A page is `pageSize` bytes; a crash can leave in a page any
mixture of the bytes it had and those being written.

The pool is reduced to what matters here: the resident frames with their dirty
marks, `flush_all` step by step, and evictions, which write a dirty frame to its
file directly. `images` is no part of the pool. It records, for each page, every
complete image that was in its file at the start, was written to it or was
staged for it.

## Main definitions

* `PageImage`, `PageAddr`, `PathCodec`: Pages, and how paths are written.
* `stageRecord`: The buffer's format.
* `replayLoop`, `replayed`: The pages that recovery hands to `apply`.
* `recover`: Recovery.
* `DwState`, `DwLabel`, `DwState.step`: The system.
* `DwState.writing`, `DwState.CrashDisk`, `DwState.CrashBuffer`: What a crash
  can leave.
-/

namespace ChibiDb

/-- The bytes of a page. -/
def PageImage : Type := { bytes : List UInt8 // bytes.length = pageSize }

/-- A page of a file. -/
structure PageAddr (Path : Type) where
  path : Path
  no : UInt32
  deriving DecidableEq, Repr

/-- How paths are written as bytes and read back. The code writes a path that is not UTF-8 with
    replacement characters, so it is not read back: paths here are those that are. -/
structure PathCodec (Path : Type) where
  bytes : Path → List UInt8
  parse : List UInt8 → Option Path
  parse_bytes : ∀ p, parse (bytes p) = some p
  short : ∀ p, (bytes p).length < 256 ^ 4

variable {Path : Type} [DecidableEq Path]

/-- The record of a page in the double-write file. -/
def stageRecord (c : PathCodec Path) (a : PageAddr Path) (page : PageImage) : List UInt8 :=
  leBytes 4 (c.bytes a.path).length ++ c.bytes a.path ++ leBytes 4 a.no.toNat ++ page.val

/-- The content of every page of every file. -/
abbrev PageStore (Path : Type) := PageAddr Path → PageImage

/-- Write pages, one after the other. -/
def applyRecords (disk : PageStore Path) (rs : List (PageAddr Path × PageImage)) : PageStore Path :=
  rs.foldl (fun disk r => Function.update disk r.1 r.2) disk

/-- The pages that the loop hands to `apply`, in order. A record is longer than
    eight bytes, so `fuel` of the file's length is enough. -/
def replayLoop (c : PathCodec Path) :
    Nat → List UInt8 → Except String (List (PageAddr Path × PageImage))
  | 0, _ => .ok []
  | fuel + 1, data =>
    if data.length < 4 then .ok []
    else
      let pathLen := ofLeBytes (data.take 4)
      let record := 4 + pathLen + 4 + pageSize
      if h : data.length < record then .ok []
      else match c.parse ((data.drop 4).take pathLen) with
        | none => .error "corrupt double-write path"
        | some path =>
          let no := UInt32.ofNat (ofLeBytes ((data.drop (4 + pathLen)).take 4))
          let page : PageImage := ⟨(data.drop (4 + pathLen + 4)).take pageSize, by
            rw [List.length_take, List.length_drop]
            omega⟩
          (replayLoop c fuel (data.drop record)).map (fun rs => (⟨path, no⟩, page) :: rs)

/-- The pages that recovery of a double-write file hands to `apply`. -/
def replayed (c : PathCodec Path) (data : List UInt8) :
    Except String (List (PageAddr Path × PageImage)) :=
  replayLoop c data.length data

/-- Recovery: the pages of the double-write file are written to their files. -/
def recover (c : PathCodec Path) (data : List UInt8) (disk : PageStore Path) :
    Except String (PageStore Path) :=
  (replayed c data).map (applyRecords disk)

/-- A resident frame. -/
structure DwFrame (Path : Type) where
  addr : PageAddr Path
  image : PageImage
  dirty : Bool

/-- A `flush_all` under way: the frames it pins, those still to stage and to
    write, and whether the buffer is synced. -/
structure DwFlush (Path : Type) where
  pinned : List (PageAddr Path)
  toStage : List (PageAddr Path)
  toWrite : List (PageAddr Path)
  synced : Bool

/-- The pool, the files and the double-write file. -/
structure DwState (Path : Type) where
  frames : List (DwFrame Path)
  disk : PageStore Path
  buffer : List UInt8
  /-- How much of the buffer is synced. -/
  synced : Nat
  flush : Option (DwFlush Path)
  images : PageAddr Path → List PageImage

/-- The steps of the pool, and the pieces of `flush_all`. -/
inductive DwLabel (Path : Type) where
  | load (a : PageAddr Path)
  | modify (a : PageAddr Path) (image : PageImage)
  | evict (a : PageAddr Path)
  | flushBegin
  | stage
  | sync
  | flushWrite
  | reset

namespace DwState

/-- An open database with an empty buffer. -/
def start (disk : PageStore Path) : DwState Path :=
  { frames := [], disk := disk, buffer := [], synced := 0, flush := none
    images := fun a => [disk a] }

/-- The frame of a page, if it is resident. -/
def frame (s : DwState Path) (a : PageAddr Path) : Option (DwFrame Path) :=
  s.frames.find? (fun f => f.addr = a)

/-- Write a page to its file. -/
def writePage (s : DwState Path) (a : PageAddr Path) (image : PageImage) : DwState Path :=
  { s with
    disk := Function.update s.disk a image
    images := Function.update s.images a (image :: s.images a) }

/-- A page is appended to the double-write file. -/
def stagePage (c : PathCodec Path) (s : DwState Path) (a : PageAddr Path) (image : PageImage) :
    DwState Path :=
  { s with
    buffer := s.buffer ++ stageRecord c a image
    images := Function.update s.images a (image :: s.images a) }

/-- Whether a flush pins the frame of a page. -/
def pinned (s : DwState Path) (a : PageAddr Path) : Bool :=
  match s.flush with
  | none => false
  | some fl => decide (a ∈ fl.pinned)

/-- Take the frame of a page out of the pool. -/
def unlist (s : DwState Path) (a : PageAddr Path) : DwState Path :=
  { s with frames := s.frames.filter (fun f => f.addr ≠ a) }

/-- Change the frame of a page. -/
def setFrame (s : DwState Path) (a : PageAddr Path) (g : DwFrame Path → DwFrame Path) :
    DwState Path :=
  { s with frames := s.frames.map (fun f => if f.addr = a then g f else f) }

/-- One step. -/
def step (c : PathCodec Path) (s : DwState Path) : DwLabel Path → Option (DwState Path)
  | .load a =>
    if (s.frame a).isSome then none
    else some { s with frames := ⟨a, s.disk a, false⟩ :: s.frames }
  | .modify a image =>
    if (s.frame a).isSome then
      some (s.setFrame a (fun f => { f with image := image, dirty := true }))
    else none
  | .evict a => match s.frame a with
    | none => none
    | some f =>
      if s.pinned a then none
      -- the write goes to the file at once, without a record in the buffer
      else if f.dirty then some ((s.unlist a).writePage a f.image)
      else some (s.unlist a)
  | .flushBegin =>
    let dirty := (s.frames.filter (fun f => f.dirty)).map (fun f => f.addr)
    if s.flush.isSome ∨ dirty = [] then none
    else some { s with flush := some ⟨dirty, dirty, dirty, false⟩ }
  | .stage => match s.flush with
    | some ⟨pinned, a :: rest, toWrite, false⟩ => match s.frame a with
      | none => none
      | some f => some { stagePage c s a f.image with flush := some ⟨pinned, rest, toWrite, false⟩ }
    | _ => none
  | .sync => match s.flush with
    | some ⟨pinned, [], toWrite, false⟩ => some { s with
        synced := s.buffer.length
        flush := some ⟨pinned, [], toWrite, true⟩ }
    | _ => none
  | .flushWrite => match s.flush with
    | some ⟨pinned, [], a :: rest, true⟩ => match s.frame a with
      | none => none
      | some f =>
        let s := (s.writePage a f.image).setFrame a (fun f => { f with dirty := false })
        some { s with flush := some ⟨pinned, [], rest, true⟩ }
    | _ => none
  | .reset => match s.flush with
    | some ⟨_, [], [], true⟩ => some { s with buffer := [], synced := 0, flush := none }
    | _ => none

/-- The page write that a step is about to make to a table or index file. -/
def writing (s : DwState Path) : DwLabel Path → Option (PageAddr Path × PageImage)
  | .evict a => match s.frame a with
    | none => none
    | some f => if s.pinned a = false ∧ f.dirty = true then some (a, f.image) else none
  | .flushWrite => match s.flush with
    | some ⟨_, [], a :: _, true⟩ => match s.frame a with
      | none => none
      | some f => some (a, f.image)
    | _ => none
  | _ => none

/-- The record that is being appended to the buffer. -/
def appending (c : PathCodec Path) (s : DwState Path) : List UInt8 :=
  match s.flush with
  | some ⟨_, a :: _, _, false⟩ => match s.frame a with
    | none => []
    | some f => stageRecord c a f.image
  | _ => []

end DwState

/-- A mixture of the bytes of two pages. -/
def Mixture (old new mix : PageImage) : Prop :=
  ∀ i : Nat, mix.val[i]? = old.val[i]? ∨ mix.val[i]? = new.val[i]?

namespace DwState

/-- The files after a crash. `torn` is the step whose page write was cut short, if there was one. -/
def CrashDisk (s : DwState Path) (torn : Option (DwLabel Path)) (disk : PageStore Path) : Prop :=
  match torn with
  | none => disk = s.disk
  | some l => ∃ a image mix, s.writing l = some (a, image) ∧ Mixture (s.disk a) image mix ∧
      disk = Function.update s.disk a mix

/-- The double-write file after a crash: what is not synced may be lost from some
    byte on, and the record being appended may be there in part. -/
def CrashBuffer (c : PathCodec Path) (s : DwState Path) (buffer : List UInt8) : Prop :=
  (∃ n, s.synced ≤ n ∧ buffer = s.buffer.take n) ∨
    ∃ n, n < (s.appending c).length ∧ buffer = s.buffer ++ (s.appending c).take n

end DwState

end ChibiDb
