import ChibiDb.Core.BufferPool

/-!
# The Buffer Pool Shared by Threads

A call of `with_page` or `read_page` first resolves its page to a frame and then
works on the frame. Resolving is one section under the pool's lock. When the
page is resident the frame is pinned in that section. When it is not, the
section evicts frames to make room, reads the page, enters the new frame in the
page table and ends; the frame is pinned after that, in a step of its own.

A frame lives on as long as somebody holds it, in the page table or not, so
frames have an identity here and the page table is a list of identities. A frame
that has left the table while a call still holds it is an orphan: what is
written to it goes nowhere.

`flush_all` pins the dirty frames in one section, writes them one at a time
under their latches, and unpins them when it is done or has failed. A call runs
its closure under the frame's latch and marks the frame dirty under it, so an
access is one step. Which frames an eviction chooses is up to the policy, so the
label names them; they have to be unpinned. A call that finds no frame to evict
fails without having done anything.

`latest` is no part of the pool. It records what the last completed `with_page`
of each page left there.

## Main definitions

* `SharedFrame`, `PoolCall`, `SharedFlush`, `SharedPool`: The state.
* `SharedPool.evict`, `SharedPool.evictAll`: Making room.
* `SharedLabel`, `SharedPool.step`: The interleaved steps.
* `SharedPool.observes`: What a call sees in its frame.
-/

namespace ChibiDb

/-- A frame, which several calls can hold. -/
structure SharedFrame (Page : Type) where
  key : PageKey
  data : Page
  dirty : Bool
  pins : Nat
  deriving DecidableEq, Repr

/-- A call that has resolved its page. -/
structure PoolCall where
  id : Nat
  frame : Nat
  pinned : Bool
  deriving DecidableEq, Repr

/-- A `flush_all` under way: the frames it pins and those still to write. -/
structure SharedFlush where
  frames : List Nat
  toWrite : List Nat
  deriving DecidableEq, Repr

/-- The pool, its files and the calls under way. -/
structure SharedPool (Page : Type) where
  capacity : Nat
  /-- Frames by identity, those below `next` made so far. -/
  frame : Nat → SharedFrame Page
  next : Nat
  table : List Nat
  disk : PageKey → Page
  calls : List PoolCall
  flush : Option SharedFlush
  latest : PageKey → Page

/-- The steps of the threads that share the pool. -/
inductive SharedLabel (Page : Type) where
  /-- Call `c` finds its page resident. -/
  | hit (c : Nat) (k : PageKey)
  /-- Call `c` does not, evicts and reads the page. -/
  | miss (c : Nat) (k : PageKey) (victims : List Nat)
  /-- It evicts and then fails to read the page. -/
  | missReadErr (k : PageKey) (victims : List Nat)
  /-- It evicts and then fails to write `v` back, which is out of the table. -/
  | missWriteErr (k : PageKey) (victims : List Nat) (v : Nat)
  /-- Call `c` pins the frame it has read. -/
  | pin (c : Nat)
  /-- The closure of a `with_page` runs and the frame is marked dirty. -/
  | write (c : Nat) (f : Page → Page)
  /-- The closure of a `read_page` runs. -/
  | read (c : Nat)
  | release (c : Nat)
  | flushBegin
  | flushWrite (i : Nat)
  /-- The flush returns, its work done or not. -/
  | flushEnd

namespace SharedPool

variable {Page : Type}

/-- An empty pool over the files. -/
def start (capacity : Nat) (disk : PageKey → Page) : SharedPool Page :=
  { capacity := max capacity 1
    frame := fun _ => ⟨(0, 0), disk (0, 0), false, 0⟩
    next := 0
    table := []
    disk := disk
    calls := []
    flush := none
    latest := disk }

/-- The resident frame of a page. -/
def lookup (s : SharedPool Page) (k : PageKey) : Option Nat :=
  s.table.find? (fun i => (s.frame i).key = k)

/-- Replace a frame. -/
def setFrame (s : SharedPool Page) (i : Nat) (f : SharedFrame Page) : SharedPool Page :=
  { s with frame := Function.update s.frame i f }

/-- One more pin on a frame. -/
def addPin (s : SharedPool Page) (i : Nat) : SharedPool Page :=
  s.setFrame i { s.frame i with pins := (s.frame i).pins + 1 }

/-- One pin less on a frame. -/
def dropPin (s : SharedPool Page) (i : Nat) : SharedPool Page :=
  s.setFrame i { s.frame i with pins := (s.frame i).pins - 1 }

/-- Write a frame to its file and mark it clean. -/
def writeBack (s : SharedPool Page) (i : Nat) : SharedPool Page :=
  { s.setFrame i { s.frame i with dirty := false } with
    disk := Function.update s.disk (s.frame i).key (s.frame i).data }

/-- Take a frame out of the page table. -/
def unlist (s : SharedPool Page) (i : Nat) : SharedPool Page :=
  { s with table := s.table.erase i }

/-- One round of the loop that makes room: the pool is full, and an unpinned
    frame is taken out of the table and written back if it is dirty. -/
def evict (s : SharedPool Page) (i : Nat) : Option (SharedPool Page) :=
  if s.capacity ≤ s.table.length ∧ i ∈ s.table ∧ (s.frame i).pins = 0 then
    if (s.frame i).dirty then some ((s.unlist i).writeBack i) else some (s.unlist i)
  else none

/-- Evict several frames, one after the other. -/
def evictAll (s : SharedPool Page) : List Nat → Option (SharedPool Page)
  | [] => some s
  | i :: is => match s.evict i with
    | none => none
    | some s' => s'.evictAll is

/-- Read a page into a new frame and enter it in the page table, unpinned. -/
def publish (s : SharedPool Page) (c : Nat) (k : PageKey) : SharedPool Page :=
  { s.setFrame s.next ⟨k, s.disk k, false, 0⟩ with
    next := s.next + 1
    table := s.next :: s.table
    calls := ⟨c, s.next, false⟩ :: s.calls }

/-- The call with a number, if it is running. -/
def call (s : SharedPool Page) (c : Nat) : Option PoolCall := s.calls.find? (fun x => x.id = c)

/-- The page and the content a call sees in its frame, once it has pinned it. -/
def observes (s : SharedPool Page) (c : Nat) : Option (PageKey × Page) :=
  match s.call c with
  | none => none
  | some x => if x.pinned then some ((s.frame x.frame).key, (s.frame x.frame).data) else none

/-- One pin less on each of these frames. -/
def dropPins (s : SharedPool Page) : List Nat → SharedPool Page
  | [] => s
  | i :: is => (s.dropPin i).dropPins is

/-- One more pin on each of these frames. -/
def addPins (s : SharedPool Page) : List Nat → SharedPool Page
  | [] => s
  | i :: is => (s.addPin i).addPins is

/-- One step. -/
def step (s : SharedPool Page) : SharedLabel Page → Option (SharedPool Page)
  | .hit c k => match s.call c, s.lookup k with
    | none, some i => some { s.addPin i with calls := ⟨c, i, true⟩ :: s.calls }
    | _, _ => none
  | .miss c k victims => match s.call c, s.lookup k, s.evictAll victims with
    | none, none, some s' => if s'.table.length < s'.capacity then some (s'.publish c k) else none
    | _, _, _ => none
  | .missReadErr k victims => match s.lookup k with
    | none => s.evictAll victims
    | some _ => none
  | .missWriteErr k victims v => match s.lookup k, s.evictAll victims with
    | none, some s' =>
      if s'.capacity ≤ s'.table.length ∧ v ∈ s'.table ∧ (s'.frame v).pins = 0 ∧
          (s'.frame v).dirty = true then
        some (s'.unlist v)
      else none
    | _, _ => none
  | .pin c => match s.call c with
    | some ⟨_, i, false⟩ => some { s.addPin i with
        calls := s.calls.map (fun x => if x.id = c then { x with pinned := true } else x) }
    | _ => none
  | .write c f => match s.call c with
    | some ⟨_, i, true⟩ =>
      let data := f (s.frame i).data
      some { s.setFrame i { s.frame i with data := data, dirty := true } with
        latest := Function.update s.latest (s.frame i).key data }
    | _ => none
  | .read c => match s.call c with
    | some ⟨_, _, true⟩ => some s
    | _ => none
  | .release c => match s.call c with
    | some ⟨_, i, true⟩ => some { s.dropPin i with calls := s.calls.filter (fun x => x.id ≠ c) }
    | _ => none
  | .flushBegin =>
    if s.flush.isSome then none
    else
      let dirty := s.table.filter (fun i => (s.frame i).dirty)
      some { s.addPins dirty with flush := some ⟨dirty, dirty⟩ }
  | .flushWrite i => match s.flush with
    | some ⟨frames, toWrite⟩ =>
      if i ∈ toWrite then some { s.writeBack i with flush := some ⟨frames, toWrite.erase i⟩ }
      else none
    | none => none
  | .flushEnd => match s.flush with
    | some ⟨frames, _⟩ => some { s.dropPins frames with flush := none }
    | none => none

end SharedPool

end ChibiDb
