import ChibiDb.Data.Follow
import ChibiDb.Theory.LockOrder

/-!
# The Deadlock Check

A blocked owner waits for the holder of one key, so the wait-for graph has one
edge out of every blocked owner and a deadlock is a cycle that following these
edges comes back on. The check of the lock manager walks the table instead: from
a waiting owner to the holder of what `waiting` says. The two differ at an owner
that was handed its key and has not woken up: it still has a `waiting` entry,
and the walk stands still there.

The check is exact. A walk that comes back to a blocked owner never met an owner
that waits for itself, so every step of it was an edge. And a cycle is no longer
than the number of waiting owners, so the walk has enough steps to come back.

It is also enough that every waiter checks once. A request adds the edge of an
owner whose check is still to come. A hand-over moves edges to an owner that is
no longer blocked, so none of them is on a cycle. A check that finds nothing is
made by an owner that is on no cycle.

## Main definitions

* `LockManager.waitsFor`: The edge out of a blocked owner.
* `LockTable.walk`: The step the check takes.
* `Unchecked`: Every cycle has a member that has not checked.

## Theorems

* `inCycle_iff`: The check finds exactly the cycles through a blocked owner.
* `unchecked_step`: Every step keeps an unchecked member on every cycle.
* `deadlock_check_exact`: Both, in every state.
-/

namespace ChibiDb

open List
open Option hiding or_self

/-- The owner another owner is blocked by: the holder of the key of its call,
    unless that is itself. -/
def LockManager.waitsFor (s : LockManager) (o : Nat) : Option Nat :=
  match s.calls o with
  | none => none
  | some c =>
    match s.table.holder c.key with
    | none => none
    | some h => if h = o then none else some h

/-- From a waiting owner to the holder of what it waits for. -/
def LockTable.walk (t : LockTable) (cur : Nat) : Option Nat :=
  (t.waiting.get? cur).bind t.holder

section Exact

variable {s : LockManager} {o h : Nat}

theorem waitsFor_eq_some :
    s.waitsFor o = some h ↔
      ∃ c, s.calls o = some c ∧ s.table.holder c.key = some h ∧ h ≠ o := by
  unfold LockManager.waitsFor
  cases s.calls o with
  | none => simp only [reduceCtorEq, false_and, exists_false]
  | some c =>
    simp only [some.injEq, exists_eq_left']
    cases s.table.holder c.key with
    | none => simp only [reduceCtorEq, false_and]
    | some h' =>
      simp only [ite_none_left_eq_some, some.injEq]
      constructor
      · rintro ⟨hne, rfl⟩
        exact ⟨rfl, hne⟩
      · rintro ⟨rfl, hne⟩
        exact ⟨hne, rfl⟩

theorem walk_eq_some (hs : LockInv s) :
    s.table.walk o = some h ↔ ∃ c, s.calls o = some c ∧ s.table.holder c.key = some h := by
  unfold LockTable.walk
  rw [hs.waiting o]
  cases s.calls o with
  | none => simp only [map_none, bind_none, reduceCtorEq, false_and, exists_false]
  | some => simp

theorem walk_of_waitsFor (hs : LockInv s) (hw : s.waitsFor o = some h) :
    s.table.walk o = some h := by
  rcases waitsFor_eq_some.mp hw with ⟨c, hc, hh, -⟩
  exact (walk_eq_some hs).mpr ⟨c, hc, hh⟩

/-- Where the walk moves on, it moves along an edge. -/
theorem waitsFor_of_walk (hs : LockInv s) (hw : s.table.walk o = some h) (hne : h ≠ o) :
    s.waitsFor o = some h := by
  rcases (walk_eq_some hs).mp hw with ⟨c, hc, hh⟩
  exact waitsFor_eq_some.mpr ⟨c, hc, hh, hne⟩

/-- The loop of the check follows the walk. -/
theorem inCycleLoop_iff (t : LockTable) (start : Nat) (limit cur : Nat) :
    t.inCycleLoop start limit cur = true ↔
      ∃ n, n < limit ∧ follow t.walk (n + 1) cur = some start := by
  induction limit generalizing cur with
  | zero => simp only [LockTable.inCycleLoop, Bool.false_eq_true, Nat.not_lt_zero, false_and,
      exists_false]
  | succ limit ih =>
    have hloop : t.inCycleLoop start (limit + 1) cur =
        match t.walk cur with
        | none => false
        | some h => if h = start then true else t.inCycleLoop start limit h := by
      unfold LockTable.walk
      rw [LockTable.inCycleLoop]
      cases t.waiting.get? cur <;> rfl
    rw [hloop]
    cases hw : t.walk cur with
    | none =>
      simp only [Bool.false_eq_true, false_iff, not_exists, not_and]
      intro n hn
      rw [follow, hw]
      simp
    | some h =>
      simp only
      by_cases hstart : h = start
      · rw [if_pos hstart]
        simp only [true_iff]
        exact ⟨0, Nat.succ_pos limit, by rw [follow_succ hw, follow, hstart]⟩
      rw [if_neg hstart, ih h]
      constructor
      · rintro ⟨n, hlt, hn⟩
        exact ⟨n + 1, Nat.succ_lt_succ hlt, by rw [follow_succ hw, hn]⟩
      rintro ⟨n, hlt, hn⟩
      rw [follow_succ hw] at hn
      cases n with
      | zero =>
        rw [follow, some.injEq] at hn
        exact absurd hn hstart
      | succ n => exact ⟨n, Nat.lt_of_succ_lt_succ hlt, hn⟩

/-- A point that is its own successor is all that is passed from there. -/
theorem passes_fixed {f : Nat → Option Nat} {a b : Nat} (ha : f a = some a)
    (h : Passes f a b) : b = a := by
  rcases h with ⟨n, hn⟩
  induction n with
  | zero =>
    rw [follow, some.injEq] at hn
    exact hn.symm
  | succ _ ih =>
    rw [follow_succ ha] at hn
    exact ih hn

/-- For a blocked owner the walk has a cycle exactly where the graph has. -/
theorem cyclic_walk_iff (hs : LockInv s) (hblocked : s.waitsFor o = some h) :
    Cyclic s.table.walk o ↔ Cyclic s.waitsFor o := by
  constructor
  · intro hc
    refine hc.congr ?_
    intro b hb
    rcases hc.passes hb with ⟨hcb, hback⟩
    rcases hcb.succ with ⟨b', hb'⟩
    by_cases hfix : b' = b
    · -- The walk would stand still at `b` and never come back.
      rw [hfix] at hb'
      rw [← passes_fixed hb' hback, walk_of_waitsFor hs hblocked, some.injEq] at hb'
      rcases waitsFor_eq_some.mp hblocked with ⟨-, -, -, hne⟩
      exact absurd hb' hne
    · rw [hb', waitsFor_of_walk hs hb' hfix]
  · intro hc
    refine hc.congr ?_
    intro _ hb
    rcases (hc.passes hb).1.succ with ⟨_, hb'⟩
    rw [hb', walk_of_waitsFor hs hb']

/-- The check finds exactly the cycles through a blocked owner. -/
theorem inCycle_iff (hs : LockInv s) (hblocked : s.waitsFor o = some h) :
    s.table.inCycle o = true ↔ Cyclic s.waitsFor o := by
  rw [← cyclic_walk_iff hs hblocked, LockTable.inCycle, inCycleLoop_iff]
  constructor
  · rintro ⟨n, -, hn⟩
    exact ⟨n, hn⟩
  intro hc
  have hdom : ∀ b c, s.table.walk b = some c → b ∈ s.table.waiting.keys := by
    intro _ _ hbc
    rcases bind_eq_some_iff.mp hbc with ⟨key, hkey, -⟩
    exact (BTreeMap.mem_keys_iff _ _).mpr ⟨key, hkey⟩
  rcases cyclic_within hdom hc with ⟨n, hlt, hn⟩
  rw [BTreeMap.keys, length_map] at hlt
  exact ⟨n, Nat.lt_succ_of_lt hlt, hn⟩

end Exact

/-- An owner inside a call that has not made its deadlock check. -/
def NotChecked (s : LockManager) (o : Nat) : Prop :=
  ∃ c, s.calls o = some c ∧ c.checkedDeadlock = false

/-- Every cycle has a member that has not checked. -/
def Unchecked (s : LockManager) : Prop :=
  ∀ o, Cyclic s.waitsFor o → ∃ m, Passes s.waitsFor o m ∧ NotChecked s m

section Complete

variable {s s' : LockManager}

/-- Cycles whose members keep their edges and their notes were there before. -/
theorem unchecked_of_same (hs : Unchecked s)
    (hedge : ∀ b, Cyclic s'.waitsFor b → s'.waitsFor b = s.waitsFor b)
    (hnote : ∀ b, Cyclic s'.waitsFor b → NotChecked s b → NotChecked s' b) : Unchecked s' := by
  intro o hc
  have hsame : ∀ b, Passes s'.waitsFor o b → s'.waitsFor b = s.waitsFor b :=
    fun b hb => hedge b (hc.passes hb).1
  rcases hs o (hc.congr hsame) with ⟨m, ⟨n, hn⟩, hm⟩
  have hpass : Passes s'.waitsFor o m := ⟨n, by rw [← follow_congr hsame, hn]⟩
  exact ⟨m, hpass, hnote m (hc.passes hpass).1 hm⟩

theorem waitsFor_congr {o : Nat} (hcall : s'.calls o = s.calls o)
    (hholder : ∀ c, s.calls o = some c → s'.table.holder c.key = s.table.holder c.key) :
    s'.waitsFor o = s.waitsFor o := by
  unfold LockManager.waitsFor
  rw [hcall]
  cases hc : s.calls o with
  | none => rfl
  | some c => simp only [hholder c hc]

theorem notChecked_congr {o : Nat} (hcall : s'.calls o = s.calls o) (h : NotChecked s o) :
    NotChecked s' o := by
  rcases h with ⟨c, hc, hchecked⟩
  exact ⟨c, hcall.trans hc, hchecked⟩

open LockManager LockTable

variable {owner : Nat} {call : LockCall} {t : LockTable}

theorem unchecked_take {key : RowLockKey} (hinv : LockInv s) (hs : Unchecked s)
    (hfree : s.table.locks key = none) :
    Unchecked { s with
      table := (s.table.setEntry key (some ⟨some owner, []⟩)).addHeld owner key
      clock := s.clock + 1 } := by
  refine unchecked_of_same hs ?_ (fun b _ h => h)
  intro b _
  refine waitsFor_congr rfl ?_
  intro c hc
  rw [holder_addHeld, holder_setEntry]
  by_cases hk : c.key = key
  · -- Nobody waits for a free key.
    have hwait := hinv.called b c hc
    unfold LockTable.holder LockTable.queue at hwait
    rw [hk, hfree] at hwait
    exact absurd hwait (by simp)
  · rw [if_neg hk]

/-- A request adds one edge, and the owner at its tail has not checked. -/
theorem unchecked_park (hs : Unchecked s) (hholder : ∀ k, t.holder k = s.table.holder k)
    (hnew : call.checkedDeadlock = false) : Unchecked (s.park t owner call) := by
  intro o hc
  by_cases hown : Passes (s.park t owner call).waitsFor o owner
  · exact ⟨owner, hown, call, by rw [calls_park, if_pos rfl], hnew⟩
  have hcalls : ∀ b, Passes (s.park t owner call).waitsFor o b →
      (s.park t owner call).calls b = s.calls b := by
    intro b hb
    have hne : b ≠ owner := fun hbo => hown (hbo ▸ hb)
    rw [calls_park, if_neg hne]
  have hsame : ∀ b, Passes (s.park t owner call).waitsFor o b →
      (s.park t owner call).waitsFor b = s.waitsFor b :=
    fun b hb => waitsFor_congr (hcalls b hb) (fun c _ => hholder c.key)
  rcases hs o (hc.congr hsame) with ⟨m, ⟨n, hn⟩, hm⟩
  have hpass : Passes (s.park t owner call).waitsFor o m :=
    ⟨n, by rw [← follow_congr hsame, hn]⟩
  exact ⟨m, hpass, notChecked_congr (hcalls m hpass) hm⟩

/-- A call that returns takes its edge away. -/
theorem unchecked_leave {t' : LockTable} (hs : Unchecked (s.park t owner call))
    (hholder : ∀ k, t'.holder k = t.holder k) : Unchecked (s.leave t' owner) := by
  have hne : ∀ b, Cyclic (s.leave t' owner).waitsFor b → b ≠ owner := by
    intro b hb hbo
    rcases hb.succ with ⟨_, hh⟩
    rcases waitsFor_eq_some.mp hh with ⟨c, hc, -⟩
    rw [calls_leave, if_pos hbo] at hc
    cases hc
  have hcalls : ∀ b, b ≠ owner → (s.leave t' owner).calls b = (s.park t owner call).calls b := by
    intro b hb
    rw [calls_leave, calls_park, if_neg hb, if_neg hb]
  refine unchecked_of_same hs ?_ ?_
  · intro b hb
    exact waitsFor_congr (hcalls b (hne b hb)) (fun c _ => hholder c.key)
  · intro b hb
    exact notChecked_congr (hcalls b (hne b hb))

/-- A check that finds nothing is made off every cycle. -/
theorem unchecked_checked {checked : Bool} (hinv : LockInv (s.park t owner call))
    (hs : Unchecked (s.park t owner call))
    (hcheck : checked = call.checkedDeadlock ∨ t.inCycle owner = false) :
    Unchecked (s.park t owner { call with checkedDeadlock := checked }) := by
  have hedges : ∀ b, (s.park t owner { call with checkedDeadlock := checked }).waitsFor b =
      (s.park t owner call).waitsFor b := by
    intro b
    unfold LockManager.waitsFor
    rw [calls_park, calls_park]
    by_cases hb : b = owner
    · rw [if_pos hb, if_pos hb]
      rfl
    · rw [if_neg hb, if_neg hb]
      rfl
  have hfun := funext hedges
  refine unchecked_of_same hs (fun b _ => hedges b) ?_
  rintro b hb ⟨c, hc, hchecked⟩
  unfold NotChecked
  rw [calls_park] at hc ⊢
  by_cases hbo : b = owner
  · rw [if_pos hbo, some.injEq] at hc
    rw [if_pos hbo]
    rcases hcheck with hsame | hnone
    · exact ⟨_, rfl, by rw [hsame, hc, hchecked]⟩
    -- The owner is on a cycle, which its check has just denied.
    rw [hfun, hbo] at hb
    rcases hb.succ with ⟨_, hh⟩
    have hfound := (inCycle_iff hinv hh).mpr hb
    cases hnone.symm.trans hfound
  · rw [if_neg hbo] at hc ⊢
    exact ⟨c, hc, hchecked⟩

theorem unchecked_resume (elapsed : Nat) (hinv : LockInv (s.park t owner call))
    (hs : Unchecked (s.park t owner call)) : Unchecked (s.resume t owner call elapsed) := by
  rcases resume_cases s t owner call elapsed with ⟨-, h⟩ | ⟨-, h⟩ | ⟨-, _, h, hcheck⟩ <;> rw [h]
  · exact unchecked_leave hs (fun _ => rfl)
  · exact unchecked_leave hs (fun k => holder_abort k _)
  · exact unchecked_checked hinv hs hcheck

/-- An edge that a hand-over moves leads to an owner that is not blocked. -/
theorem unchecked_unlock {keys : List RowLockKey} (hinv : LockInv s) (hs : Unchecked s)
    (hperm : keys.Perm (s.table.held owner)) :
    Unchecked { s with table := s.table.unlockAll owner keys, clock := s.clock + 1 } := by
  have hu := unlockAll_spec hinv hperm
  refine unchecked_of_same hs ?_ (fun b _ h => h)
  intro b hb
  refine waitsFor_congr rfl ?_
  intro c hc
  rw [hu.holder]
  by_cases hk : s.table.holder c.key = some owner
  · exfalso
    rcases hb.succ with ⟨h, hh⟩
    rcases waitsFor_eq_some.mp hh with ⟨_, hc', hholder, -⟩
    cases hc.symm.trans hc'
    have hhead : (s.table.queue c.key).head? = some h := by
      rw [hu.holder, if_pos hk] at hholder
      exact hholder
    rcases hinv.queued c.key h (mem_of_mem_head? hhead) with ⟨ch, hch, hkey⟩
    rcases (hb.passes ⟨1, by rw [follow_succ hh, follow]⟩).1.succ with ⟨_, hh'⟩
    rcases waitsFor_eq_some.mp hh' with ⟨_, hc'', hholder', hne⟩
    cases hch.symm.trans hc''
    rw [hkey, hholder] at hholder'
    exact hne (some.inj hholder').symm
  · rw [if_neg hk]

/-- Every step keeps an unchecked member on every cycle. -/
theorem unchecked_step {l : LockLabel} (hinv : LockInv s) (hs : Unchecked s)
    (h : s.step l = some s') : Unchecked s' := by
  cases lockStep_of_step hinv h with
  | again => exact hs
  | take _ hfree => exact unchecked_take hinv hs hfree
  | @queueUp _ key _ _ _ _ hidle hkey hne ht =>
    have hparked := lockInv_queueUp hinv hidle hkey hne
    rw [← ht] at hparked
    refine unchecked_resume _ hparked (unchecked_park hs ?_ rfl)
    intro k
    rw [ht]
    refine holder_setEntry.trans ?_
    unfold LockTable.holder
    by_cases hk : k = key
    · rw [if_pos hk, hk, hkey]
      rfl
    · rw [if_neg hk]
  | @wake owner _ call hcall =>
    have hsame : Function.update s.calls owner (some call) = s.calls := by
      rw [← hcall]
      exact Function.update_eq_self owner s.calls
    refine unchecked_resume _ (lockInv_parked hinv hcall) ?_
    unfold LockManager.park
    rw [hsame]
    exact hs
  | unlock _ hperm => exact unchecked_unlock hinv hs hperm

end Complete

theorem unchecked_reachable {timeout deadlockTimeout : Nat} {s : LockManager}
    (h : LockManager.Reachable timeout deadlockTimeout s) : Unchecked s := by
  rcases h with ⟨labels, hrun⟩
  have hnew : Unchecked (LockManager.new timeout deadlockTimeout) := by
    intro _ hc
    rcases hc.succ with ⟨_, hh⟩
    simp [LockManager.waitsFor, LockManager.new] at hh
  refine (invariant_of_steps LockManager.step (fun s => LockInv s ∧ Unchecked s) ?_ _ s labels
    ⟨lockInv_new timeout deadlockTimeout, hnew⟩ hrun).2
  intro _ _ _ hs hstep
  exact ⟨lockInv_step hs.1 hstep, unchecked_step hs.1 hs.2 hstep⟩

/-- In every state reached, the check of a blocked owner finds exactly the cycles of the wait-for
    relation it lies on, and every such cycle has a member whose check is still to come. -/
theorem deadlock_check_exact (timeout deadlockTimeout : Nat) (s : LockManager)
    (hs : LockManager.Reachable timeout deadlockTimeout s) :
    (∀ o h, s.waitsFor o = some h → (s.table.inCycle o = true ↔ Cyclic s.waitsFor o)) ∧
    (∀ o, Cyclic s.waitsFor o → ∃ m, Passes s.waitsFor o m ∧ NotChecked s m) :=
  ⟨fun _ _ hblocked => inCycle_iff (lockInv_reachable hs) hblocked, unchecked_reachable hs⟩

/-- Two owners that want each other's row. -/
theorem deadlock_check_exact_two :
    ∃ s, LockManager.Reachable 300 20 s ∧ Cyclic s.waitsFor 1 ∧ s.table.inCycle 1 = true ∧
      ∃ m, Passes s.waitsFor 1 m ∧ NotChecked s m := by
  have hr : ∃ s, runSteps LockManager.step (LockManager.new 300 20)
      [.lock 1 ("t", ⟨1, 0⟩) 0, .lock 2 ("t", ⟨2, 0⟩) 0, .lock 1 ("t", ⟨2, 0⟩) 0, .wake 1 20,
        .lock 2 ("t", ⟨1, 0⟩) 0] = some s ∧
      s.waitsFor 1 = some 2 ∧ follow s.waitsFor 2 1 = some 1 := ⟨_, rfl, rfl, rfl⟩
  rcases hr with ⟨s, hrun, hblocked, hback⟩
  have hall := deadlock_check_exact 300 20 s ⟨_, hrun⟩
  exact ⟨s, ⟨_, hrun⟩, ⟨1, hback⟩, (hall.1 1 2 hblocked).mpr ⟨1, hback⟩, hall.2 1 ⟨1, hback⟩⟩

end ChibiDb
