import ChibiDb.Core.Replacer

/-!
# The Buffer Pool of One Thread

The pool with its page table, its eviction policy and the files, driven by one
thread. A series of operations is a tree: `with_page` and `read_page` hand the
page to a closure, which may itself use the pool before it returns, and what
follows may depend on the value it returns.

A closure runs with its frame pinned and latched. Opening the same page again
inside it would wait for its own latch, and so would `flush_all` if the page is
dirty, since it takes the latch of every dirty frame: both are reported as
`deadlock`. A frame that the policy names and the page table does not have is
reported as `outOfSync`, and a pool whose frames are all pinned as `exhausted`.

Pages are arbitrary, with a default that stands for the page of zeros. A file is
the list of its pages; reading behind its end gives zeros, and writing there
fills the gap with zeros. Accesses to files succeed.

## Main definitions

* `readDisk`, `writeDisk`, `allocDisk`: The files.
* `CachedPage`, `SeqPool`: Frames and the pool.
* `SeqPool.frameFor`: Resolving a page, with evictions.
* `SeqPool.flushAll`: Writing every dirty frame back.
* `PoolProg`, `PoolProg.run`: A series of operations, and running it.
-/

namespace ChibiDb

variable {Page V : Type} [Inhabited Page]

/-- A page of a file; behind the end there are zeros. -/
def readDisk (disk : Nat → List Page) (k : PageKey) : Page := ((disk k.1)[k.2]?).getD default

/-- Write a page of a file; a gap is filled with zeros. -/
def writeFile (pages : List Page) (no : Nat) (data : Page) : List Page :=
  if no < pages.length then pages.set no data
  else pages ++ List.replicate (no - pages.length) default ++ [data]

/-- Write a page. -/
def writeDisk (disk : Nat → List Page) (k : PageKey) (data : Page) : Nat → List Page :=
  Function.update disk k.1 (writeFile (disk k.1) k.2 data)

/-- Add a page of zeros to a file. -/
def allocDisk (disk : Nat → List Page) (file : Nat) : Nat → List Page :=
  Function.update disk file (disk file ++ [default])

/-- A frame of the pool. -/
structure CachedPage (Page : Type) where
  key : PageKey
  data : Page
  dirty : Bool
  pins : Nat
  /-- The reference bit of CLOCK. -/
  accessed : Bool
  deriving DecidableEq, Repr

/-- Why an operation does not return a value. -/
inductive PoolError where
  | exhausted
  | outOfSync
  | deadlock
  deriving DecidableEq, Repr

/-- The pool, its policy and the files. -/
structure SeqPool (Page : Type) where
  capacity : Nat
  frames : List (CachedPage Page)
  replacer : Replacer
  disk : Nat → List Page

namespace SeqPool

/-- An empty pool; it has room for one frame at least. -/
def new (policy : EvictionPolicy) (capacity : Nat) (disk : Nat → List Page) : SeqPool Page :=
  ⟨max capacity 1, [], .fromPolicy policy, disk⟩

/-- The frame of a page, if it is resident. -/
def find (s : SeqPool Page) (k : PageKey) : Option (CachedPage Page) :=
  s.frames.find? (fun f => f.key = k)

/-- Pins as the policy asks for them. -/
def pinsOf (s : SeqPool Page) (k : PageKey) : Nat :=
  match s.find k with
  | none => 2 ^ 32 - 1
  | some f => f.pins

/-- Reference bits as the policy asks for them. -/
def referenced (s : SeqPool Page) (k : PageKey) : Bool :=
  match s.find k with
  | none => false
  | some f => f.accessed

/-- Change the frame of a page. -/
def setPage (s : SeqPool Page) (k : PageKey) (g : CachedPage Page → CachedPage Page) :
    SeqPool Page :=
  { s with frames := s.frames.map (fun f => if f.key = k then g f else f) }

/-- The pool without the frame of the victim, which is written back if dirty. -/
def dropFrame (s : SeqPool Page) (v : Victim) (f : CachedPage Page) : SeqPool Page :=
  { s with
    frames := (s.frames.filter (fun f => f.key ≠ v.key)).map
      (fun f => { f with accessed := v.referenced f.key })
    replacer := v.replacer
    disk := if f.dirty then writeDisk s.disk f.key f.data else s.disk }

/-- Evict the page the policy has chosen. -/
def evictPage (s : SeqPool Page) (v : Victim) : Except PoolError (SeqPool Page) :=
  match s.find v.key with
  | none => .error .outOfSync
  | some f => .ok (s.dropFrame v f)

/-- Evict until there is room for one more frame. Each round takes a frame out,
    so `fuel` above their number is enough. -/
def makeRoom : Nat → SeqPool Page → Except PoolError (SeqPool Page)
  | 0, s => .ok s
  | fuel + 1, s =>
    if s.frames.length < s.capacity then .ok s
    else match s.replacer.chooseVictim s.pinsOf s.referenced with
      | none => .error .exhausted
      | some v => match s.evictPage v with
        | .error e => .error e
        | .ok s => makeRoom fuel s

/-- Read a page into a new frame, with a pin. -/
def loadPage (s : SeqPool Page) (k : PageKey) : SeqPool Page :=
  { s with
    frames := ⟨k, readDisk s.disk k, false, 1, true⟩ :: s.frames
    replacer := s.replacer.push k }

/-- Resolve a page to its frame and pin it. -/
def frameFor (s : SeqPool Page) (k : PageKey) : Except PoolError (SeqPool Page) :=
  match s.find k with
  | some _ => .ok { s.setPage k (fun f => { f with accessed := true, pins := f.pins + 1 }) with
      replacer := s.replacer.recordAccess k }
  | none => match makeRoom (s.frames.length + 1) s with
    | .error e => .error e
    | .ok s => .ok (s.loadPage k)

/-- What a closure is handed. -/
def pageData (s : SeqPool Page) (k : PageKey) : Page :=
  match s.find k with
  | none => default
  | some f => f.data

/-- The end of a `with_page`. -/
def endWrite (s : SeqPool Page) (k : PageKey) (data : Page) : SeqPool Page :=
  s.setPage k (fun f => { f with data := data, dirty := true, pins := f.pins - 1 })

/-- The end of a `read_page`. -/
def endRead (s : SeqPool Page) (k : PageKey) : SeqPool Page :=
  s.setPage k (fun f => { f with pins := f.pins - 1 })

/-- Write the dirty frames of a list to their files. -/
def writeDirty (disk : Nat → List Page) : List (CachedPage Page) → Nat → List Page
  | [] => disk
  | f :: fs => if f.dirty then writeDirty (writeDisk disk f.key f.data) fs else writeDirty disk fs

/-- The pool after its dirty frames are written. -/
def flushed (s : SeqPool Page) : SeqPool Page :=
  { s with
    frames := s.frames.map (fun f => { f with dirty := false })
    disk := writeDirty s.disk s.frames }

/-- `flush_all`, with the pages latched by the closures that are running. -/
def flushAll (s : SeqPool Page) (latched : List PageKey) : Except PoolError (SeqPool Page) :=
  if ∃ f ∈ s.frames, f.dirty = true ∧ f.key ∈ latched then .error .deadlock
  else .ok s.flushed

end SeqPool

/-- A series of operations. A closure ends with the value it returns and, for
    `with_page`, the content it leaves. -/
inductive PoolProg (Page V : Type) where
  | ret (v : V) (data : Page)
  | withPage (k : PageKey) (body : Page → PoolProg Page V) (next : V → PoolProg Page V)
  | readPage (k : PageKey) (body : Page → PoolProg Page V) (next : V → PoolProg Page V)
  | allocPage (file : Nat) (next : PoolProg Page V)
  | flushAll (next : PoolProg Page V)

/-- Run a series of operations, with the pages latched by the closures around it. -/
def PoolProg.run : PoolProg Page V → List PageKey → SeqPool Page →
    Except PoolError (V × Page × SeqPool Page)
  | .ret v data, _, s => .ok (v, data, s)
  | .withPage k body next, latched, s => match s.frameFor k with
    | .error e => .error e
    | .ok s =>
      if k ∈ latched then .error .deadlock
      else match (body (s.pageData k)).run (k :: latched) s with
        | .error e => .error e
        | .ok (v, data, s) => (next v).run latched (s.endWrite k data)
  | .readPage k body next, latched, s => match s.frameFor k with
    | .error e => .error e
    | .ok s =>
      if k ∈ latched then .error .deadlock
      else match (body (s.pageData k)).run (k :: latched) s with
        | .error e => .error e
        | .ok (v, _, s) => (next v).run latched (s.endRead k)
  | .allocPage file next, latched, s =>
    next.run latched { s with disk := allocDisk s.disk file }
  | .flushAll next, latched, s => match s.flushAll latched with
    | .error e => .error e
    | .ok s => next.run latched s

end ChibiDb
