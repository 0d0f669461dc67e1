import ChibiDb.Core.Codec
import ChibiDb.Data.BTreeMap
import ChibiDb.Data.Transition

/-!
# The Lock Manager

Row locks, keyed by table and row id and held by a transaction until it ends. A
lock that is taken has a queue of waiters, and releasing it hands it to the
front of the queue, whether or not that owner has woken up yet.

The table keeps the same facts three times: the entry of a key names its holder
and its queue, `held` lists what an owner has to release, and `waiting` says
what a blocked owner is blocked on, which is what the deadlock check walks.

All of it is under one mutex, which a waiting call gives up only while it waits
on the condition variable. A step is therefore what a call does between two such
points: a request with the first pass of its wait loop, one more pass after a
wake-up, or a release. How much time has passed is up to the label, and so is
the order in which `unlock_all` visits the keys of a hash set. An owner that is
inside a call takes no other.

`clock` counts the steps and `since` is the count at which a call queued up;
neither is part of the table.

## Main definitions

* `LockEntry`, `LockTable`: The table.
* `LockTable.request`, `LockTable.pass`: `lock` before and in its wait loop.
* `LockTable.releaseKey`, `LockTable.unlockAll`: Giving locks back.
* `LockTable.abort`, `LockTable.inCycle`: Giving up, and the deadlock check.
* `LockManager`, `LockManager.step`: The interleaved calls.
-/

namespace ChibiDb

/-- A row is locked by its table and its row id. -/
abbrev RowLockKey := String × Rid

/-- A lock: who has it and who waits for it, in the order they came. -/
structure LockEntry where
  holder : Option Nat
  waiters : List Nat
  deriving DecidableEq, Repr

/-- The state under the manager's mutex. -/
structure LockTable where
  locks : RowLockKey → Option LockEntry
  /-- What each owner holds. -/
  held : Nat → List RowLockKey
  /-- What each waiting owner is blocked on. -/
  waiting : BTreeMap Nat RowLockKey

/-- How one pass of the wait loop ends. -/
inductive LockOutcome where
  | granted
  | failed (message : String)
  /-- Back to waiting, the deadlock check made or not. -/
  | waits (checkedDeadlock : Bool)
  deriving DecidableEq, Repr

namespace LockTable

/-- No locks, nobody waiting. -/
def empty : LockTable := ⟨fun _ => none, fun _ => [], BTreeMap.empty⟩

/-- Who holds the lock of a row. -/
def holder (t : LockTable) (key : RowLockKey) : Option Nat := (t.locks key).bind LockEntry.holder

/-- Who waits for it, in order. -/
def queue (t : LockTable) (key : RowLockKey) : List Nat :=
  match t.locks key with
  | none => []
  | some entry => entry.waiters

/-- Change or remove the entry of a key. -/
def setEntry (t : LockTable) (key : RowLockKey) (entry : Option LockEntry) : LockTable :=
  { t with locks := Function.update t.locks key entry }

/-- Enter a key among those an owner holds. -/
def addHeld (t : LockTable) (owner : Nat) (key : RowLockKey) : LockTable :=
  let keys := if key ∈ t.held owner then t.held owner else key :: t.held owner
  { t with held := Function.update t.held owner keys }

/-- The start of `lock`: take the key if it is free or already ours, and queue up otherwise. -/
def request (t : LockTable) (owner : Nat) (key : RowLockKey) : LockTable × Bool :=
  match t.locks key with
  | none => ((t.setEntry key (some ⟨some owner, []⟩)).addHeld owner key, true)
  | some entry =>
    match entry.holder with
    | none => ((t.setEntry key (some { entry with holder := some owner })).addHeld owner key, true)
    | some h =>
      if h = owner then (t, true)
      else
        let queued := t.setEntry key (some { entry with waiters := entry.waiters ++ [owner] })
        ({ queued with waiting := t.waiting.alter owner (fun _ => key) }, false)

/-- Leave the queue after a timeout or a deadlock. -/
def abort (t : LockTable) (owner : Nat) (key : RowLockKey) : LockTable :=
  let left := match t.locks key with
    | none => t
    | some entry =>
      t.setEntry key (some { entry with waiters := entry.waiters.filter (fun w => w ≠ owner) })
  { left with waiting := t.waiting.erase owner }

/-- Walk from a waiter to the holder it waits for, at most `limit` times, until
    the walk is back at `start`. -/
def inCycleLoop (t : LockTable) (start : Nat) : Nat → Nat → Bool
  | 0, _ => false
  | limit + 1, cur =>
    match t.waiting.get? cur with
    | none => false
    | some key =>
      match t.holder key with
      | none => false
      | some h => if h = start then true else inCycleLoop t start limit h

/-- Whether the wait-for chain of `start` returns to it. -/
def inCycle (t : LockTable) (start : Nat) : Bool :=
  inCycleLoop t start (t.waiting.entries.length + 1) start

/-- One pass of the wait loop. -/
def pass (timeout deadlockTimeout : Nat) (t : LockTable) (owner : Nat) (key : RowLockKey)
    (checkedDeadlock : Bool) (elapsed : Nat) : LockTable × LockOutcome :=
  if t.holder key = some owner then ({ t with waiting := t.waiting.erase owner }, .granted)
  else if timeout ≤ elapsed then (t.abort owner key, .failed "lock wait timeout")
  else if !checkedDeadlock && deadlockTimeout ≤ elapsed then
    if t.inCycle owner then (t.abort owner key, .failed "deadlock detected")
    else (t, .waits true)
  else (t, .waits checkedDeadlock)

/-- Hand a key to the front of its queue, or forget it. -/
def releaseKey (t : LockTable) (key : RowLockKey) : LockTable :=
  match t.locks key with
  | none => t
  | some entry =>
    match entry.waiters with
    | next :: rest => (t.setEntry key (some ⟨some next, rest⟩)).addHeld next key
    | [] => t.setEntry key none

/-- Release what an owner holds, visiting its keys in the order given. -/
def unlockAll (t : LockTable) (owner : Nat) (keys : List RowLockKey) : LockTable :=
  keys.foldl releaseKey { t with held := Function.update t.held owner [] }

end LockTable

/-- A `lock` call that waits. -/
structure LockCall where
  key : RowLockKey
  checkedDeadlock : Bool
  since : Nat
  deriving DecidableEq, Repr

/-- The manager and the calls that wait in it. -/
structure LockManager where
  timeout : Nat
  deadlockTimeout : Nat
  table : LockTable
  calls : Nat → Option LockCall
  clock : Nat

/-- The steps of the lock manager. -/
inductive LockLabel where
  | lock (owner : Nat) (key : RowLockKey) (elapsed : Nat)
  /-- A waiting call wakes up, `elapsed` after it began. -/
  | wake (owner : Nat) (elapsed : Nat)
  /-- An owner gives back all it holds. -/
  | unlockAll (owner : Nat) (keys : List RowLockKey)

namespace LockManager

/-- A lock manager with no locks. -/
def new (timeout deadlockTimeout : Nat) : LockManager :=
  ⟨timeout, deadlockTimeout, LockTable.empty, fun _ => none, 0⟩

/-- A pass of the wait loop of a call, which goes on waiting or returns. -/
def resume (s : LockManager) (t : LockTable) (owner : Nat) (call : LockCall) (elapsed : Nat) :
    LockManager :=
  match t.pass s.timeout s.deadlockTimeout owner call.key call.checkedDeadlock elapsed with
  | (t', .waits checked) =>
    { s with
      table := t'
      calls := Function.update s.calls owner (some { call with checkedDeadlock := checked })
      clock := s.clock + 1 }
  | (t', _) =>
    { s with
      table := t'
      calls := Function.update s.calls owner none
      clock := s.clock + 1 }

/-- One step. -/
def step (s : LockManager) : LockLabel → Option LockManager
  | .lock owner key elapsed =>
    if (s.calls owner).isSome then none
    else
      match s.table.request owner key with
      | (t, true) => some { s with table := t, clock := s.clock + 1 }
      | (t, false) => some (s.resume t owner ⟨key, false, s.clock⟩ elapsed)
  | .wake owner elapsed =>
    match s.calls owner with
    | none => none
    | some call => some (s.resume s.table owner call elapsed)
  | .unlockAll owner keys =>
    if (s.calls owner).isSome ∨ ¬ keys.Perm (s.table.held owner) then none
    else some { s with table := s.table.unlockAll owner keys, clock := s.clock + 1 }

/-- The states reached from a new manager. -/
def Reachable (timeout deadlockTimeout : Nat) (s : LockManager) : Prop :=
  ∃ labels, runSteps step (new timeout deadlockTimeout) labels = some s

end LockManager

end ChibiDb
