import Mathlib.Tactic

/-!
# The Buffer Pool and Durability

Pages are cached in frames. A modification marks its frame dirty, an eviction
writes a dirty frame back, and `flush_all` writes every dirty frame back and
syncs the files it wrote to. A page written to a file survives power loss only
once that file is synced.

The pool never looks inside a page, so a page's content is identified by the
number of the write that made it, counted across the pool: content `0` is what
was there when the pool was opened. For each page there are then three numbers,
the one in its frame, the one its file holds and the one that survives power
loss.

`flush_all` is not atomic. It takes its list of dirty frames, pins them, and
goes through writes and syncs while other threads modify, load, evict and append
pages. Its staging of pages in the double-write buffer moves none of the three
numbers and shows here only as one more place where it can fail.

## Main definitions

* `PageKey`, `PoolFrame`: A page and its frame.
* `Flush`: A `flush_all` under way.
* `Pool`: The frames, the files and what is durable.
* `PoolLabel`, `Pool.step`: The interleaved steps.
* `Pool.owed`: The content of a page at the start of a flush.
-/

namespace ChibiDb

/-- File id and page number. -/
abbrev PageKey := Nat × Nat

instance lawfulPageKey : LawfulBEq PageKey := inferInstance

/-- A frame of the pool; its content is the number of the write that made it. -/
structure PoolFrame where
  key : PageKey
  content : Nat
  dirty : Bool
  deriving DecidableEq, Repr

/-- A `flush_all` under way: the frames it still has to write, the files it still has to sync, the
    frames it pins, and the content each page had when it started. -/
structure Flush where
  toWrite : List PageKey
  toSync : List Nat
  pinned : List PageKey
  owed : PageKey → Nat

/-- The pool and the files, with every content identified by its number. -/
structure Pool where
  frames : List PoolFrame
  /-- What a read of the file gives. -/
  disk : PageKey → Nat
  /-- What is left of it after power loss. -/
  durable : PageKey → Nat
  /-- Contents made so far. -/
  writes : Nat
  flush : Option Flush

/-- The steps of the threads that share the pool. -/
inductive PoolLabel where
  /-- A miss: read the page from its file. -/
  | load (k : PageKey)
  /-- `with_page` on a resident page. -/
  | modify (k : PageKey)
  /-- Evict an unpinned frame, writing it back when it is dirty. -/
  | evict (k : PageKey)
  /-- The write-back of an eviction fails: the frame is gone already. -/
  | evictErr (k : PageKey)
  /-- Append a zero page to a file. -/
  | allocPage (k : PageKey)
  | flushBegin
  | flushWrite
  | flushSync
  /-- Some operation of the flush fails, and the flush with it. -/
  | flushErr
  | flushEnd
  deriving DecidableEq, Repr

namespace Pool

/-- A pool just opened on files that are durable. -/
def start : Pool := ⟨[], fun _ => 0, fun _ => 0, 0, none⟩

/-- The frame of a page, if it is resident. -/
def frame (s : Pool) (k : PageKey) : Option PoolFrame := s.frames.find? (fun f => f.key = k)

/-- The frames that need writing back. -/
def dirtyFrames (s : Pool) : List PoolFrame := s.frames.filter (fun f => f.dirty)

/-- The content a page has: that of its frame when it is dirty, and else what its file holds. -/
def owed (s : Pool) (k : PageKey) : Nat :=
  match s.frame k with
  | some f => if f.dirty then f.content else s.disk k
  | none => s.disk k

/-- Whether a flush pins the frame of a page. -/
def Pinned (s : Pool) (k : PageKey) : Prop := ∃ fl ∈ s.flush, k ∈ fl.pinned

instance (s : Pool) (k : PageKey) : Decidable (s.Pinned k) :=
  match hf : s.flush with
  | none => isFalse (by
      intro h
      rcases h with ⟨fl, hfl, _⟩
      rw [hf] at hfl
      exact absurd hfl (by simp))
  | some fl => decidable_of_iff (k ∈ fl.pinned) (by
      simp [Pinned, hf])

/-- Files of a list of frames, ascending and without repetition. -/
def filesOf (fs : List PoolFrame) : List Nat :=
  ((fs.map (fun f => f.key.1)).insertionSort (· ≤ ·)).dedup

/-- Write a frame to its file, without a sync. -/
def writePage (s : Pool) (f : PoolFrame) : Pool :=
  { s with disk := Function.update s.disk f.key f.content }

/-- Make a file's pages durable as they are. -/
def syncFile (s : Pool) (file : Nat) : Pool :=
  { s with durable := fun k => if k.1 = file then s.disk k else s.durable k }

/-- The steps of the pool. -/
def step (s : Pool) : PoolLabel → Option Pool
  | .load k =>
    if (s.frame k).isSome then none
    else some { s with frames := ⟨k, s.disk k, false⟩ :: s.frames }
  | .modify k =>
    if (s.frame k).isSome then
      some { s with
        frames := s.frames.map (fun f => if f.key = k then ⟨k, s.writes + 1, true⟩ else f)
        writes := s.writes + 1 }
    else none
  | .evict k => match s.frame k with
    | none => none
    | some f =>
      if s.Pinned k then none
      else
        let rest := s.frames.filter (fun f => f.key ≠ k)
        if f.dirty then some { s.writePage f with frames := rest }
        else some { s with frames := rest }
  | .evictErr k => match s.frame k with
    | none => none
    | some f =>
      if f.dirty = false ∨ s.Pinned k then none
      else some { s with frames := s.frames.filter (fun f => f.key ≠ k) }
  | .allocPage k =>
    some { s with disk := Function.update s.disk k (s.writes + 1), writes := s.writes + 1 }
  | .flushBegin =>
    if s.flush.isSome then none
    else
      let dirty := s.dirtyFrames
      let keys := dirty.map (fun f => f.key)
      some { s with flush := some ⟨keys, filesOf dirty, keys, s.owed⟩ }
  | .flushWrite => match s.flush with
    | some ⟨k :: ks, files, pinned, owed⟩ => match s.frame k with
      | none => none
      | some f => some { s.writePage f with
          frames := s.frames.map (fun f => if f.key = k then { f with dirty := false } else f)
          flush := some ⟨ks, files, pinned, owed⟩ }
    | _ => none
  | .flushSync => match s.flush with
    | some ⟨[], file :: files, pinned, owed⟩ =>
      some { s.syncFile file with flush := some ⟨[], files, pinned, owed⟩ }
    | _ => none
  | .flushErr => if s.flush.isSome then some { s with flush := none } else none
  | .flushEnd => match s.flush with
    | some ⟨[], [], _, _⟩ => some { s with flush := none }
    | _ => none

end Pool

end ChibiDb
