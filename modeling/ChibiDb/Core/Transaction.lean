import ChibiDb.Core.Clog

/-!
# Transaction Bookkeeping

The transaction manager hands out ids, keeps the set of open transactions and
the commit status, and makes snapshots. Each method is given here together with
the atomic pieces it is made of: the manager's fields are guarded separately, so
two callers interleave between the pieces and not inside one.

Ids are counted without a bound; the counter of the engine has 64 bits.

## Main definitions

* `Snapshot`: An upper bound and the ids in flight.
* `TransactionManager`: The counter, the commit status and the open set.
* `Snapshot.committedBefore`, `Snapshot.visible`: Snapshot-isolation visibility.
-/

namespace ChibiDb

open List Option

/-- Transaction id of an autocommitted read-only statement. -/
def readOnlyTrxId : Nat := 0

/-- A snapshot: an upper bound plus the in-flight ids. -/
structure Snapshot where
  /-- Ids from here on were allocated after the snapshot. -/
  xmax : Nat
  /-- Ids in flight when the snapshot was taken, ascending. -/
  xip : List Nat
  deriving DecidableEq, Repr

/-- Whether `xid` had committed when the snapshot was taken. An id that was in flight then, or was
    allocated after, does not count even if it has since committed. -/
def Snapshot.committedBefore (s : Snapshot) (clog : Clog) (xid : Nat) : Bool :=
  decide (xid < s.xmax) && !s.xip.contains xid && clog.isCommitted xid

/-- Whether transaction `id` sees a row version under its snapshot. -/
def Snapshot.visible (s : Snapshot) (clog : Clog) (id creator deleter : Nat) : Bool :=
  let creatorVisible := decide (creator = 0) || decide (creator = id) ||
    s.committedBefore clog creator
  -- gone for me if I deleted it myself, or the deleter committed before my snapshot
  let deletedForMe := decide (deleter ≠ 0) &&
    (decide (deleter = id) || s.committedBefore clog deleter)
  creatorVisible && !deletedForMe

theorem committedBefore_iff (s : Snapshot) (clog : Clog) (x : Nat) :
    s.committedBefore clog x = true ↔
      x < s.xmax ∧ x ∉ s.xip ∧ clog.isCommitted x = true := by
  simp [Snapshot.committedBefore, and_assoc]

/-- Transaction id source plus the committed and open bookkeeping. -/
structure TransactionManager where
  nextId : Nat
  /-- Commit counter, compared by a checkpoint across its flush. -/
  commits : Nat
  committed : Clog
  openSet : List Nat
  deriving DecidableEq, Repr

namespace TransactionManager

/-- Resume from a recovered state: the next free id, the committed ids at or
    above the persisted horizon, and that horizon. -/
def new (nextId : Nat) (committed : List Nat) (base : Nat) : TransactionManager :=
  { nextId := nextId
    commits := 0
    committed := committed.foldl Clog.markCommitted (Clog.new.advanceBase base)
    openSet := [] }

/-- Reserve an id and mark it open, under the lock of the open set. -/
def beginOpen (m : TransactionManager) : Nat × TransactionManager :=
  (m.nextId, { m with nextId := m.nextId + 1, openSet := m.openSet.insert m.nextId })

/-- Never hand a recovered transaction's id to a new transaction. -/
def ensureNextIdAtLeast (m : TransactionManager) (id : Nat) : TransactionManager :=
  if m.nextId ≤ id then { m with nextId := id + 1 } else m

/-- The ids in flight, as the second half of a snapshot reads them. -/
def xip (m : TransactionManager) : List Nat := m.openSet.insertionSort (· ≤ ·)

/-- The snapshot a new transaction sees, read at one instant. -/
def snapshot (m : TransactionManager) : Snapshot := ⟨m.nextId, m.xip⟩

/-- First piece of a commit: the counter. -/
def bumpCommits (m : TransactionManager) : TransactionManager := { m with commits := m.commits + 1 }

/-- Second piece of a commit: the status bit. -/
def markCommitted (m : TransactionManager) (id : Nat) : TransactionManager :=
  { m with committed := m.committed.markCommitted id }

/-- Clear the open marker: the last piece of a commit, and all of an abort. -/
def removeOpen (m : TransactionManager) (id : Nat) : TransactionManager :=
  { m with openSet := m.openSet.filter (fun x => x ≠ id) }

/-- Record a commit and clear the open marker. -/
def commit (m : TransactionManager) (id : Nat) : TransactionManager :=
  (m.bumpCommits.markCommitted id).removeOpen id

/-- Mark the ids of a list as committed. -/
def extendCommitted (m : TransactionManager) (ids : List Nat) : TransactionManager :=
  { m with committed := ids.foldl Clog.markCommitted m.committed }

/-- Move the horizon: everything below counts as committed. -/
def advanceHorizon (m : TransactionManager) (newBase : Nat) : TransactionManager :=
  { m with committed := m.committed.advanceBase newBase }

/-- Whether the open set is empty. -/
def noOpenTransactions (m : TransactionManager) : Bool := m.openSet.isEmpty

/-- Whether any transaction other than `id` is open. -/
def hasOpenExcluding (m : TransactionManager) (id : Nat) : Bool := m.openSet.any (fun x => x ≠ id)

theorem mem_xip_iff (m : TransactionManager) (x : Nat) : x ∈ m.xip ↔ x ∈ m.openSet :=
  mem_insertionSort _

theorem nextId_ensureNextIdAtLeast (m : TransactionManager) (id : Nat) :
    (m.ensureNextIdAtLeast id).nextId = max m.nextId (id + 1) := by
  unfold ensureNextIdAtLeast
  split
  · simp only []
    omega
  · omega

theorem committed_ensureNextIdAtLeast (m : TransactionManager) (id : Nat) :
    (m.ensureNextIdAtLeast id).committed = m.committed := by
  unfold ensureNextIdAtLeast
  split <;> rfl

end TransactionManager

/-- Marking a list of ids commits those and no others, the sentinel apart. -/
theorem isCommitted_foldl_mark (ids : List Nat) (c : Clog) (y : Nat) :
    (ids.foldl Clog.markCommitted c).isCommitted y = true ↔
      c.isCommitted y = true ∨ (y ∈ ids ∧ y ≠ 0) := by
  induction ids generalizing c with
  | nil => simp only [foldl_nil, not_mem_nil, false_and, or_false]
  | cons _ _ ih =>
    rw [foldl_cons, ih, Clog.isCommitted_mark, mem_cons]
    grind

/-- What a manager resumed from a saved state counts as committed. -/
theorem isCommitted_new (nextId : Nat) (committed : List Nat) (base x : Nat) :
    (TransactionManager.new nextId committed base).committed.isCommitted x = true ↔
      x ≠ 0 ∧ (x < base ∨ x ∈ committed) := by
  have hnew : ¬ Clog.new.isCommitted x = true := by
    simp [Clog.isCommitted_iff, Clog.new]
  unfold TransactionManager.new
  rw [isCommitted_foldl_mark, Clog.isCommitted_advanceBase]
  tauto

end ChibiDb
