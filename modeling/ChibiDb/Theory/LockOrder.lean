import ChibiDb.Core.LockManager

/-!
# Row Locks Are Exclusive and Handed Over in Order

The three maps of the lock table agree in every state that any interleaving of
calls reaches, and a key goes from one owner to the next in the order in which
the owners began to wait.

The invariant is stated over the holder and the queue of a key. Its part that is
not about the table alone says where a waiting call stands: in the queue of its
key, or, once the key was handed over and before the call has woken up, as the
holder. That is also why a call that wakes up late does not give up a key it was
handed: the first thing a pass looks at is the holder.

A release is a fold over the keys of the owner. The keys are different and each
is released for itself, so `unlockAll_spec` describes the fold key by key.

## Main definitions

* `LockInv`: The invariant.
* `handedOver`: The entry of a key after its release.
* `LockManager.park`, `LockManager.leave`: A call that waits, and one that
  returns.

## Theorems

* `unlockAll_spec`: What a release does to every key.
* `resume_cases`: How a pass of the wait loop ends.
* `lockInv_step`, `lockInv_reachable`: The invariant holds in every state.
* `locks_exclusive_in_order`: The locks are exclusive and handed over in order.
-/

namespace ChibiDb

open List Function
open Option hiding or_self
open LockTable (abort empty holder queue request)
open LockManager (new step)

namespace LockTable

variable {t : LockTable} {key k : RowLockKey} {owner o : Nat} {entry : Option LockEntry}
variable {s : LockManager}

theorem locks_setEntry : (t.setEntry key entry).locks k = if k = key then entry else t.locks k := by
  exact update_apply _ _ _ _

theorem holder_setEntry :
    (t.setEntry key entry).holder k =
      if k = key then entry.bind LockEntry.holder else t.holder k := by
  unfold holder
  rw [locks_setEntry]
  split <;> rfl

theorem queue_eq (t : LockTable) (k : RowLockKey) :
    t.queue k = ((t.locks k).map LockEntry.waiters).getD [] := by
  unfold queue
  cases t.locks k <;> rfl

theorem queue_setEntry :
    (t.setEntry key entry).queue k =
      if k = key then (entry.map LockEntry.waiters).getD [] else t.queue k := by
  rw [queue_eq, queue_eq, locks_setEntry]
  split <;> rfl

@[simp] theorem locks_addHeld : (t.addHeld owner key).locks = t.locks := rfl

@[simp] theorem holder_addHeld : (t.addHeld owner key).holder k = t.holder k := rfl

@[simp] theorem queue_addHeld : (t.addHeld owner key).queue k = t.queue k := rfl

@[simp] theorem held_setEntry : (t.setEntry key entry).held = t.held := rfl

theorem mem_held_addHeld :
    k ∈ (t.addHeld owner key).held o ↔ k ∈ t.held o ∨ (o = owner ∧ k = key) := by
  unfold addHeld
  simp only [update_apply]
  split
  case isTrue ho =>
    rw [ho]
    split
    case isTrue hk =>
      refine ⟨.inl, fun h => h.elim id (fun h => ?_)⟩
      rw [h.2]
      exact hk
    case isFalse =>
      rw [mem_cons]
      simp only [true_and]
      exact or_comm
  case isFalse ho => simp [ho]

theorem nodup_held_addHeld (h : (t.held o).Nodup) : ((t.addHeld owner key).held o).Nodup := by
  unfold addHeld
  simp only [update_apply]
  split
  case isTrue ho =>
    rw [ho] at h
    split
    case isTrue => exact h
    case isFalse hk => exact nodup_cons.mpr ⟨hk, h⟩
  case isFalse => exact h

/-- The entry of a key after its release: the front of the queue has it. -/
def handedOver : Option LockEntry → Option LockEntry
  | some ⟨_, next :: rest⟩ => some ⟨some next, rest⟩
  | _ => none

/-- Releasing a key hands it to the first waiter, if there is one. -/
theorem releaseKey_locks :
    (t.releaseKey key).locks k = if k = key then handedOver (t.locks k) else t.locks k := by
  unfold releaseKey
  cases ht : t.locks key with
  | none =>
    dsimp only
    split
    case isTrue hk =>
      rw [hk, ht]
      rfl
    case isFalse => rfl
  | some entry =>
    rcases entry with ⟨_, _ | ⟨next, rest⟩⟩
    all_goals
      refine locks_setEntry.trans ?_
      split
      case isTrue hk =>
        rw [hk, ht]
        rfl
      case isFalse => rfl

theorem releaseKey_waiting : (t.releaseKey key).waiting = t.waiting := by
  unfold releaseKey
  cases t.locks key with
  | none => rfl
  | some entry =>
    rcases entry with ⟨_, waiters⟩
    cases waiters <;> rfl

/-- A released key is held by the waiter it was handed to. -/
theorem mem_held_releaseKey :
    k ∈ (t.releaseKey key).held o ↔
      k ∈ t.held o ∨ (k = key ∧ (t.queue key).head? = some o) := by
  unfold releaseKey queue
  cases t.locks key with
  | none => simp only [head?_nil, reduceCtorEq, and_false, or_false]
  | some entry =>
    rcases entry with ⟨h, waiters⟩
    cases waiters with
    | nil =>
      simp
    | cons next rest =>
      rw [mem_held_addHeld, head?_cons, some.injEq, held_setEntry]
      constructor
      · intro h
        exact h.imp id (fun h => ⟨h.2, h.1.symm⟩)
      · intro h
        exact h.imp id (fun h => ⟨h.2.symm, h.1⟩)

theorem nodup_held_releaseKey (h : (t.held o).Nodup) : ((t.releaseKey key).held o).Nodup := by
  unfold releaseKey
  cases t.locks key with
  | none => exact h
  | some entry =>
    rcases entry with ⟨_, waiters⟩
    cases waiters with
    | nil => exact h
    | cons => exact nodup_held_addHeld h

/-- What releasing different keys one after the other does. -/
structure Released (t t' : LockTable) (keys : List RowLockKey) : Prop where
  locks : ∀ k, t'.locks k = if k ∈ keys then handedOver (t.locks k) else t.locks k
  held : ∀ o k, k ∈ t'.held o ↔ k ∈ t.held o ∨ (k ∈ keys ∧ (t.queue k).head? = some o)
  nodup : ∀ o, (t.held o).Nodup → (t'.held o).Nodup
  waiting : t'.waiting = t.waiting

/-- Releasing several keys in turn releases each of them once. -/
theorem released_foldl {keys : List RowLockKey} (hnd : keys.Nodup) (t : LockTable) :
    Released t (keys.foldl releaseKey t) keys := by
  induction keys generalizing t with
  | nil =>
    refine ⟨fun k => ?_, fun o k => ?_, fun o h => h, rfl⟩
    · rw [if_neg not_mem_nil]
      rfl
    · simp
  | cons key keys ih =>
    rcases nodup_cons.mp hnd with ⟨hnot, hnd⟩
    have ih := ih hnd (t.releaseKey key)
    -- The keys still to come are not the one released first.
    have hne : ∀ k, k ∈ keys → k ≠ key := fun k hk hkk => hnot (hkk ▸ hk)
    refine ⟨fun k => ?_, fun o k => ?_, fun o h => ?_, ?_⟩
    · rw [foldl_cons, ih.locks k, releaseKey_locks]
      split
      case isTrue hk => rw [if_neg (hne k hk), if_pos (mem_cons_of_mem _ hk)]
      case isFalse hk => simp [hk]
    · rw [foldl_cons, ih.held o k, mem_held_releaseKey, mem_cons]
      have hqueue : k ∈ keys → (t.releaseKey key).queue k = t.queue k := by
        intro hk
        unfold queue
        rw [releaseKey_locks, if_neg (hne k hk)]
      constructor
      · intro h
        rcases h with (h | h) | h
        · exact .inl h
        · exact .inr ⟨.inl h.1, h.1 ▸ h.2⟩
        · exact .inr ⟨.inr h.1, hqueue h.1 ▸ h.2⟩
      · intro h
        rcases h with h | ⟨h | h, hq⟩
        · exact .inl (.inl h)
        · exact .inl (.inr ⟨h, h ▸ hq⟩)
        · exact .inr ⟨h, (hqueue h).symm ▸ hq⟩
    · exact ih.nodup o (nodup_held_releaseKey h)
    · rw [foldl_cons, ih.waiting, releaseKey_waiting]

end LockTable

open LockTable

/-- The step count at which an owner began to wait. -/
def LockManager.since (s : LockManager) (o : Nat) : Nat :=
  match s.calls o with
  | none => 0
  | some c => c.since

/-- What holds in every state of the manager. -/
structure LockInv (s : LockManager) : Prop where
  /-- An entry is only kept while somebody has the lock. -/
  entry : ∀ k e, s.table.locks k = some e → e.holder ≠ none
  held : ∀ o k, k ∈ s.table.held o ↔ s.table.holder k = some o
  heldNodup : ∀ o, (s.table.held o).Nodup
  /-- Who is queued for a key is inside a call for it. -/
  queued : ∀ k o, o ∈ s.table.queue k → ∃ c, s.calls o = some c ∧ c.key = k
  ordered : ∀ k, (s.table.queue k).Pairwise (fun a b => s.since a < s.since b)
  holderOut : ∀ k o, s.table.holder k = some o → o ∉ s.table.queue k
  /-- A call waits in the queue of its key, or was handed it already. -/
  called : ∀ o c, s.calls o = some c →
    s.table.holder c.key = some o ∨ o ∈ s.table.queue c.key
  waiting : ∀ o, s.table.waiting.get? o = (s.calls o).map LockCall.key
  past : ∀ o c, s.calls o = some c → c.since < s.clock

/-- The empty lock table is well formed. -/
theorem lockInv_new (timeout deadlockTimeout : Nat) :
    LockInv (new timeout deadlockTimeout) := by
  constructor
  case entry => nofun
  case held =>
    intro o k
    simp [new, empty, holder]
  case heldNodup => exact fun _ => nodup_nil
  case queued => nofun
  case ordered => exact fun _ => List.Pairwise.nil
  case holderOut => exact fun _ _ _ => not_mem_nil
  case called => nofun
  case waiting => exact fun _ => rfl
  case past => nofun

namespace LockManager

/-- The state in which a call waits over the table it left behind. -/
def park (s : LockManager) (t : LockTable) (owner : Nat) (call : LockCall) : LockManager :=
  { s with table := t, calls := update s.calls owner (some call), clock := s.clock + 1 }

/-- The state in which a call has returned. -/
def leave (s : LockManager) (t : LockTable) (owner : Nat) : LockManager :=
  { s with table := t, calls := update s.calls owner none, clock := s.clock + 1 }

/-- How a pass of the wait loop ends: with the key, without it, or waiting on. -/
theorem resume_cases (s : LockManager) (t : LockTable) (owner : Nat) (call : LockCall)
    (elapsed : Nat) :
    (t.holder call.key = some owner ∧
      s.resume t owner call elapsed =
        s.leave { t with waiting := t.waiting.erase owner } owner) ∨
    (t.holder call.key ≠ some owner ∧
      s.resume t owner call elapsed = s.leave (t.abort owner call.key) owner) ∨
    (t.holder call.key ≠ some owner ∧ ∃ checked,
      s.resume t owner call elapsed =
        s.park t owner { call with checkedDeadlock := checked } ∧
      (checked = call.checkedDeadlock ∨ t.inCycle owner = false)) := by
  unfold resume LockTable.pass
  by_cases hgot : t.holder call.key = some owner
  · rw [if_pos hgot]
    exact .inl ⟨hgot, rfl⟩
  rw [if_neg hgot]
  refine .inr ?_
  by_cases htime : s.timeout ≤ elapsed
  · rw [if_pos htime]
    exact .inl ⟨hgot, rfl⟩
  rw [if_neg htime]
  by_cases hdue : (!call.checkedDeadlock && decide (s.deadlockTimeout ≤ elapsed)) = true
  · rw [if_pos hdue]
    by_cases hcycle : t.inCycle owner = true
    · rw [if_pos hcycle]
      exact .inl ⟨hgot, rfl⟩
    · rw [if_neg hcycle]
      exact .inr ⟨hgot, true, rfl, .inr (by simpa only [Bool.not_eq_true] using hcycle)⟩
  · rw [if_neg hdue]
    exact .inr ⟨hgot, call.checkedDeadlock, rfl, .inl rfl⟩

theorem since_park (s : LockManager) (t : LockTable) (owner o : Nat) (call : LockCall) :
    (s.park t owner call).since o = if o = owner then call.since else s.since o := by
  unfold since park
  simp only [update_apply]
  by_cases ho : o = owner
  · rw [if_pos ho, if_pos ho]
  · rw [if_neg ho, if_neg ho]

@[simp] theorem table_park (s : LockManager) (t : LockTable) (owner : Nat) (call : LockCall) :
    (s.park t owner call).table = t := rfl

theorem calls_park (s : LockManager) (t : LockTable) (owner o : Nat) (call : LockCall) :
    (s.park t owner call).calls o = if o = owner then some call else s.calls o :=
  update_apply _ _ _ _

@[simp] theorem table_leave (s : LockManager) (t : LockTable) (owner : Nat) :
    (s.leave t owner).table = t := rfl

theorem calls_leave (s : LockManager) (t : LockTable) (owner o : Nat) :
    (s.leave t owner).calls o = if o = owner then none else s.calls o :=
  update_apply _ _ _ _

end LockManager

open LockManager

section Requests

variable {s : LockManager} {t : LockTable} {owner : Nat} {key : RowLockKey} {call : LockCall}

/-- How a request ends: with a key that was ours, with one that was free, or in
    the queue behind the owner that has it. -/
theorem request_cases (owner : Nat) (hentry : ∀ e, t.locks key = some e → e.holder ≠ none) :
    (t.holder key = some owner ∧ t.request owner key = (t, true)) ∨
    (t.locks key = none ∧
      t.request owner key =
        ((t.setEntry key (some ⟨some owner, []⟩)).addHeld owner key, true)) ∨
    ∃ h waiters, t.locks key = some ⟨some h, waiters⟩ ∧ h ≠ owner ∧
      t.request owner key =
        ({ t.setEntry key (some ⟨some h, waiters ++ [owner]⟩) with
            waiting := t.waiting.alter owner (fun _ => key) }, false) := by
  unfold request holder
  cases ht : t.locks key with
  | none => exact .inr (.inl ⟨rfl, rfl⟩)
  | some e =>
    rcases e with ⟨holder, waiters⟩
    cases holder with
    | none => exact absurd rfl (hentry _ ht)
    | some h =>
      by_cases ho : h = owner
      · refine .inl ⟨?_, ?_⟩
        · rw [ho]
          rfl
        · simp only [if_pos ho]
      · refine .inr (.inr ⟨h, waiters, rfl, ho, ?_⟩)
        simp only [if_neg ho]

/-- Who is in no call is in no queue. -/
theorem not_queued_of_idle (hs : LockInv s) (hidle : s.calls owner = none) {k : RowLockKey}
    {o : Nat} (ho : o ∈ s.table.queue k) : o ≠ owner := by
  rintro rfl
  rcases hs.queued k o ho with ⟨_, hc, -⟩
  cases hidle.symm.trans hc

theorem lockInv_clock (hs : LockInv s) : LockInv { s with clock := s.clock + 1 } :=
  { hs with past := fun o c hc => Nat.lt_succ_of_lt (hs.past o c hc) }

/-- A free key is taken: nobody waits for it, so only its holder changes. -/
theorem lockInv_take (hs : LockInv s) (hfree : s.table.locks key = none) :
    LockInv { s with
      table := (s.table.setEntry key (some ⟨some owner, []⟩)).addHeld owner key
      clock := s.clock + 1 } := by
  have hnone : s.table.holder key = none := by simp [holder, hfree]
  have hempty : s.table.queue key = [] := by simp [queue, hfree]
  refine { hs with
    entry := ?entry, held := ?held, heldNodup := fun o => nodup_held_addHeld (hs.heldNodup o)
    queued := ?queued, ordered := ?ordered, holderOut := ?holderOut, called := ?called
    past := fun o c hc => Nat.lt_succ_of_lt (hs.past o c hc) }
  case entry =>
    intro k e he
    rw [locks_addHeld, locks_setEntry] at he
    split at he
    · cases he
      exact some_ne_none owner
    · exact hs.entry k e he
  case held =>
    intro o k
    rw [mem_held_addHeld, held_setEntry, holder_addHeld, holder_setEntry, hs.held o k]
    split
    case isTrue hk =>
      rw [hk, hnone]
      simp only [reduceCtorEq, and_true, false_or, bind_some, some.injEq]
      exact eq_comm
    case isFalse hk => simp [hk]
  case queued =>
    intro k o ho
    rw [queue_addHeld, queue_setEntry] at ho
    split at ho
    · cases ho
    · exact hs.queued k o ho
  case ordered =>
    intro k
    rw [queue_addHeld, queue_setEntry]
    split
    · exact List.Pairwise.nil
    · exact hs.ordered k
  case holderOut =>
    intro k o ho
    rw [holder_addHeld, holder_setEntry] at ho
    rw [queue_addHeld, queue_setEntry]
    split
    · exact not_mem_nil
    case isFalse hk =>
      rw [if_neg hk] at ho
      exact hs.holderOut k o ho
  case called =>
    intro o c hc
    rw [holder_addHeld, holder_setEntry, queue_addHeld, queue_setEntry]
    have hold := hs.called o c hc
    split
    case isTrue hk =>
      -- Nobody can be waiting for a key that is free.
      rw [hk, hnone, hempty] at hold
      exact absurd hold (by simp)
    case isFalse => exact hold

/-- A request that queues up is the youngest of the queue. -/
theorem lockInv_queueUp {h : Nat} {waiters : List Nat} (hs : LockInv s)
    (hidle : s.calls owner = none) (hkey : s.table.locks key = some ⟨some h, waiters⟩)
    (hne : h ≠ owner) :
    LockInv (s.park
      { s.table.setEntry key (some ⟨some h, waiters ++ [owner]⟩) with
        waiting := s.table.waiting.alter owner (fun _ => key) }
      owner ⟨key, false, s.clock⟩) := by
  have hqueue : s.table.queue key = waiters := by simp [queue, hkey]
  have hholder : s.table.holder key = some h := by simp [holder, hkey]
  obtain ⟨t', ht'⟩ : ∃ t', t' = { s.table.setEntry key (some ⟨some h, waiters ++ [owner]⟩) with
    waiting := s.table.waiting.alter owner (fun _ => key) } := ⟨_, rfl⟩
  have hqueue' : ∀ k, t'.queue k = if k = key then waiters ++ [owner] else s.table.queue k := by
    intro k
    rw [ht']
    exact queue_setEntry
  have hholder' : ∀ k, t'.holder k = s.table.holder k := by
    intro k
    rw [ht']
    refine holder_setEntry.trans ?_
    split
    case isTrue hk =>
      rw [hk, hholder]
      rfl
    case isFalse => rfl
  -- Who was queued before is not the owner, whose call is new.
  have hother : ∀ k o, o ∈ s.table.queue k → o ≠ owner :=
    fun k o ho => not_queued_of_idle hs hidle ho
  rw [← ht']
  constructor
  case entry =>
    intro k e he
    rw [table_park, ht'] at he
    have he := (locks_setEntry (t := s.table)).symm.trans he
    split at he
    · cases he
      exact some_ne_none h
    · exact hs.entry k e he
  case held =>
    intro o k
    rw [table_park, hholder', ht']
    exact hs.held o k
  case heldNodup =>
    rw [table_park, ht']
    exact hs.heldNodup
  case queued =>
    intro k o ho
    rw [table_park, hqueue'] at ho
    rw [calls_park]
    split at ho
    case isTrue hk =>
      rw [mem_append, mem_singleton] at ho
      split
      · exact ⟨_, rfl, hk.symm⟩
      case isFalse hoo =>
        refine hs.queued k o ?_
        rw [hk, hqueue]
        exact ho.resolve_right hoo
    case isFalse =>
      rw [if_neg (hother k o ho)]
      exact hs.queued k o ho
  case ordered =>
    intro k
    have hold : (s.table.queue k).Pairwise
        (fun a b => (s.park t' owner ⟨key, false, s.clock⟩).since a <
          (s.park t' owner ⟨key, false, s.clock⟩).since b) := by
      refine (hs.ordered k).imp_of_mem ?_
      intro a b ha hb hab
      rw [since_park, since_park, if_neg (hother k a ha), if_neg (hother k b hb)]
      exact hab
    rw [table_park, hqueue']
    split
    case isTrue hk =>
      rw [pairwise_append]
      rw [hk, hqueue] at hold
      refine ⟨hold, pairwise_singleton _ _, ?_⟩
      intro a ha _ hb
      rw [mem_singleton] at hb
      rw [← hqueue] at ha
      rcases hs.queued key a ha with ⟨c, hc, -⟩
      have hpast := hs.past a c hc
      rw [since_park, since_park, if_neg (hother key a ha), if_pos hb]
      unfold LockManager.since
      rw [hc]
      exact hpast
    case isFalse => exact hold
  case holderOut =>
    intro k o ho
    rw [table_park, hholder'] at ho
    rw [table_park, hqueue']
    have hold := hs.holderOut k o ho
    split
    case isTrue hk =>
      rw [mem_append, mem_singleton]
      rw [hk, hqueue] at hold
      rw [hk, hholder, some.injEq] at ho
      exact fun hmem => hmem.elim hold (fun hmem => hne (ho.trans hmem))
    case isFalse => exact hold
  case called =>
    intro o c hc
    rw [calls_park] at hc
    rw [table_park, hholder', hqueue']
    split at hc
    case isTrue hoo =>
      cases hc
      rw [if_pos rfl, hoo]
      exact .inr (mem_append.mpr (.inr mem_cons_self))
    case isFalse =>
      refine (hs.called o c hc).imp id (fun hq => ?_)
      split
      case isTrue hk =>
        rw [hk, hqueue] at hq
        exact mem_append_left _ hq
      case isFalse => exact hq
  case waiting =>
    intro o
    rw [table_park, ht', calls_park]
    refine (BTreeMap.get?_alter _ _ _ _).trans ?_
    split
    · rfl
    · exact hs.waiting o
  case past =>
    intro o c hc
    rw [calls_park] at hc
    split at hc
    · cases hc
      exact Nat.lt_succ_self s.clock
    · exact Nat.lt_succ_of_lt (hs.past o c hc)

end Requests

section Passes

variable {s : LockManager} {t : LockTable} {owner : Nat} {call : LockCall}

/-- A call that goes on waiting differs in its note about the check only. -/
theorem lockInv_waits (checked : Bool) (hs : LockInv (s.park t owner call)) :
    LockInv (s.park t owner { call with checkedDeadlock := checked }) := by
  have hsince : ∀ o, (s.park t owner { call with checkedDeadlock := checked }).since o =
      (s.park t owner call).since o := by
    intro o
    rw [since_park, since_park]
  have hcalls : ∀ o c, (s.park t owner { call with checkedDeadlock := checked }).calls o = some c →
      ∃ c', (s.park t owner call).calls o = some c' ∧ c'.key = c.key ∧ c'.since = c.since := by
    intro o c hc
    rw [calls_park] at hc ⊢
    split at hc
    · cases hc
      exact ⟨call, if_pos ‹_›, rfl, rfl⟩
    · exact ⟨c, (if_neg ‹_›).trans hc, rfl, rfl⟩
  constructor
  case entry => exact hs.entry
  case held => exact hs.held
  case heldNodup => exact hs.heldNodup
  case queued =>
    intro k o ho
    rcases hs.queued k o ho with ⟨c, hc, hk⟩
    rw [calls_park] at hc ⊢
    split at hc
    · cases hc
      exact ⟨_, if_pos ‹_›, hk⟩
    · exact ⟨c, (if_neg ‹_›).trans hc, hk⟩
  case ordered =>
    intro k
    simp only [hsince]
    exact hs.ordered k
  case holderOut => exact hs.holderOut
  case called =>
    intro o c hc
    rcases hcalls o c hc with ⟨c', hc', hk, -⟩
    rw [← hk]
    exact hs.called o c' hc'
  case waiting =>
    intro o
    refine (hs.waiting o).trans ?_
    rw [calls_park, calls_park]
    split <;> rfl
  case past =>
    intro o c hc
    rcases hcalls o c hc with ⟨c', hc', -, hsc⟩
    rw [← hsc]
    exact hs.past o c' hc'

theorem locks_abort (k : RowLockKey) (key : RowLockKey) :
    (t.abort owner key).locks k =
      if k = key then (t.locks k).map
        (fun e => { e with waiters := e.waiters.filter (fun w => w ≠ owner) })
      else t.locks k := by
  unfold abort
  cases ht : t.locks key with
  | none =>
    dsimp only
    split
    case isTrue hk => rw [hk, ht, map_none]
    case isFalse => rfl
  | some =>
    refine locks_setEntry.trans ?_
    split
    case isTrue hk =>
      rw [hk, ht]
      rfl
    case isFalse => rfl

/-- An abort takes the owner out of the queue and leaves the holder. -/
theorem holder_abort (k key : RowLockKey) : (t.abort owner key).holder k = t.holder k := by
  unfold holder
  rw [locks_abort]
  split
  · cases t.locks k <;> rfl
  · rfl

theorem queue_abort (k key : RowLockKey) :
    (t.abort owner key).queue k =
      if k = key then (t.queue k).filter (fun w => w ≠ owner) else t.queue k := by
  rw [queue_eq, queue_eq, locks_abort]
  split
  · cases t.locks k <;> rfl
  · rfl

theorem held_abort (key : RowLockKey) : (t.abort owner key).held = t.held := by
  unfold abort
  cases t.locks key <;> rfl

/-- A call that returns keeps the invariant if it leaves the table with the same
    holders, itself in no queue and the queues otherwise as they were. -/
theorem lockInv_leave {t' : LockTable} (hs : LockInv (s.park t owner call))
    (hentry : ∀ k e, t'.locks k = some e → ∃ e', t.locks k = some e' ∧ e'.holder = e.holder)
    (hheld : t'.held = t.held) (hholder : ∀ k, t'.holder k = t.holder k)
    (hqueue : ∀ k, t'.queue k = (t.queue k).filter (fun w => w ≠ owner))
    (hwaiting : t'.waiting = t.waiting.erase owner) : LockInv (s.leave t' owner) := by
  have hmem : ∀ k o, o ∈ t'.queue k → o ∈ t.queue k ∧ o ≠ owner := by
    intro k o ho
    rw [hqueue, mem_filter] at ho
    exact ⟨ho.1, of_decide_eq_true ho.2⟩
  have hsince : ∀ o, o ≠ owner → (s.leave t' owner).since o = (s.park t owner call).since o := by
    intro o ho
    unfold LockManager.since
    rw [calls_park, calls_leave, if_neg ho, if_neg ho]
  have hcalls : ∀ o c, (s.leave t' owner).calls o = some c →
      o ≠ owner ∧ (s.park t owner call).calls o = some c := by
    intro o c hc
    rw [calls_leave] at hc
    split at hc
    · cases hc
    · exact ⟨‹_›, (calls_park s t owner o call).trans ((if_neg ‹_›).trans hc)⟩
  constructor
  case entry =>
    intro k e he
    rcases hentry k e he with ⟨e', he', hh⟩
    rw [← hh]
    exact hs.entry k e' he'
  case held =>
    intro o k
    rw [table_leave, hheld, hholder]
    exact hs.held o k
  case heldNodup =>
    rw [table_leave, hheld]
    exact hs.heldNodup
  case queued =>
    intro k o ho
    rcases hmem k o ho with ⟨hold, hne⟩
    rcases hs.queued k o hold with ⟨c, hc, hk⟩
    rw [calls_park, if_neg hne] at hc
    rw [calls_leave, if_neg hne]
    exact ⟨c, hc, hk⟩
  case ordered =>
    intro k
    have hfilter : (t'.queue k).Pairwise
        (fun a b => (s.park t owner call).since a < (s.park t owner call).since b) := by
      rw [hqueue]
      exact (hs.ordered k).filter _
    refine hfilter.imp_of_mem ?_
    intro a b ha hb hab
    rw [hsince a (hmem k a ha).2, hsince b (hmem k b hb).2]
    exact hab
  case holderOut =>
    intro k o ho hmem'
    rw [table_leave, hholder] at ho
    exact hs.holderOut k o ho (hmem k o hmem').1
  case called =>
    intro o c hc
    rcases hcalls o c hc with ⟨hne, hc⟩
    rw [table_leave, hholder, hqueue, mem_filter]
    exact (hs.called o c hc).imp id (fun hq => ⟨hq, decide_eq_true hne⟩)
  case waiting =>
    intro o
    rw [table_leave, hwaiting, BTreeMap.get?_erase, calls_leave]
    split
    · rfl
    case isFalse hoo =>
      have hw := hs.waiting o
      rw [calls_park, if_neg hoo] at hw
      exact hw
  case past => exact fun o c hc => hs.past o c (hcalls o c hc).2

/-- An owner waits for the key of its call and no other. -/
theorem not_queued_elsewhere (hs : LockInv (s.park t owner call)) {k : RowLockKey}
    (hk : k ≠ call.key) : owner ∉ t.queue k := by
  intro ho
  rcases hs.queued k owner ho with ⟨_, hc, hck⟩
  rw [calls_park, if_pos rfl, some.injEq] at hc
  exact hk (by rw [← hck, hc])

theorem filter_not_mem {xs : List Nat} (h : owner ∉ xs) :
    xs.filter (fun w => w ≠ owner) = xs := by
  refine filter_eq_self.mpr ?_
  exact fun w hw => decide_eq_true (fun hwo => h (hwo ▸ hw))

/-- A waiter that was handed its lock leaves the table well formed. -/
theorem lockInv_granted (hs : LockInv (s.park t owner call))
    (hgot : t.holder call.key = some owner) :
    LockInv (s.leave { t with waiting := t.waiting.erase owner } owner) := by
  refine lockInv_leave hs ?_ rfl (fun _ => rfl) ?_ rfl
  · intro k e he
    exact ⟨e, he, rfl⟩
  intro k
  -- The owner is in no queue: it has the one key it waited for.
  have hout : owner ∉ t.queue k := by
    by_cases hk : k = call.key
    · rw [hk]
      exact hs.holderOut call.key owner hgot
    · exact not_queued_elsewhere hs hk
  rw [filter_not_mem hout]
  rfl

/-- A waiter that gives up leaves the table well formed. -/
theorem lockInv_abort (hs : LockInv (s.park t owner call)) :
    LockInv (s.leave (t.abort owner call.key) owner) := by
  refine lockInv_leave hs ?_ (held_abort _) (fun k => holder_abort k _) ?_ rfl
  · intro k e he
    rw [locks_abort] at he
    split at he
    · rcases map_eq_some_iff.mp he with ⟨e', he', heq⟩
      exact ⟨e', he', by rw [← heq]⟩
    · exact ⟨e, he, rfl⟩
  · intro k
    rw [queue_abort]
    split
    · rfl
    case isFalse hk => rw [filter_not_mem (not_queued_elsewhere hs hk)]

/-- A pass of the wait loop keeps the invariant. -/
theorem lockInv_resume (elapsed : Nat) (hs : LockInv (s.park t owner call)) :
    LockInv (s.resume t owner call elapsed) := by
  rcases resume_cases s t owner call elapsed with ⟨hgot, h⟩ | ⟨-, h⟩ | ⟨-, checked, h, -⟩
  · rw [h]
    exact lockInv_granted hs hgot
  · rw [h]
    exact lockInv_abort hs
  · rw [h]
    exact lockInv_waits checked hs

end Passes

section Releases

variable {s : LockManager} {owner : Nat} {keys : List RowLockKey}

theorem holder_handedOver (t : LockTable) (k : RowLockKey) :
    (handedOver (t.locks k)).bind LockEntry.holder = (t.queue k).head? := by
  unfold queue
  cases t.locks k with
  | none => rfl
  | some e =>
    rcases e with ⟨_, waiters⟩
    cases waiters <;> rfl

theorem queue_handedOver (t : LockTable) (k : RowLockKey) :
    ((handedOver (t.locks k)).map LockEntry.waiters).getD [] = (t.queue k).tail := by
  unfold queue
  cases t.locks k with
  | none => rfl
  | some e =>
    rcases e with ⟨_, waiters⟩
    cases waiters <;> rfl

/-- What `unlock_all` does to every key: those of the owner go to the front of
    their queues, the others stay as they are. -/
structure Unlocked (t t' : LockTable) (owner : Nat) : Prop where
  locks : ∀ k, t'.locks k = if t.holder k = some owner then handedOver (t.locks k) else t.locks k
  holder : ∀ k, t'.holder k =
    if t.holder k = some owner then (t.queue k).head? else t.holder k
  queue : ∀ k, t'.queue k = if t.holder k = some owner then (t.queue k).tail else t.queue k
  held : ∀ o k, k ∈ t'.held o ↔
    (o ≠ owner ∧ k ∈ t.held o) ∨ (t.holder k = some owner ∧ (t.queue k).head? = some o)
  nodup : ∀ o, (t'.held o).Nodup
  waiting : t'.waiting = t.waiting

/-- Unlocking hands over every key the owner held. -/
theorem unlockAll_spec (hs : LockInv s) (hperm : keys.Perm (s.table.held owner)) :
    Unlocked s.table (s.table.unlockAll owner keys) owner := by
  have hkeys : ∀ k, k ∈ keys ↔ s.table.holder k = some owner :=
    fun k => hperm.mem_iff.trans (hs.held owner k)
  have hrel := released_foldl (hperm.nodup_iff.mpr (hs.heldNodup owner))
    { s.table with held := update s.table.held owner [] }
  have hlocks : ∀ k, (s.table.unlockAll owner keys).locks k =
      if s.table.holder k = some owner then handedOver (s.table.locks k)
      else s.table.locks k := by
    intro k
    refine (hrel.locks k).trans ?_
    simp only [hkeys k]
  refine ⟨hlocks, ?_, ?_, ?_, ?_, hrel.waiting⟩
  · intro k
    unfold holder at hlocks ⊢
    rw [hlocks]
    split
    · exact holder_handedOver s.table k
    · rfl
  · intro k
    rw [queue_eq, hlocks]
    split
    · exact queue_handedOver s.table k
    · rw [queue_eq]
  · intro o k
    refine (hrel.held o k).trans ?_
    rw [hkeys k]
    refine or_congr ?_ Iff.rfl
    show k ∈ update s.table.held owner [] o ↔ _
    rw [update_apply]
    split
    case isTrue ho => simp [ho]
    case isFalse ho => simp [ho]
  · intro o
    refine hrel.nodup o ?_
    show (update s.table.held owner [] o).Nodup
    rw [update_apply]
    split
    · exact nodup_nil
    · exact hs.heldNodup o

/-- Unlocking keeps the table well formed. -/
theorem lockInv_unlock (hs : LockInv s) (hidle : s.calls owner = none)
    (hperm : keys.Perm (s.table.held owner)) :
    LockInv { s with table := s.table.unlockAll owner keys, clock := s.clock + 1 } := by
  have hu := unlockAll_spec hs hperm
  constructor
  case entry =>
    intro k e he
    rw [hu.locks] at he
    split at he
    · unfold handedOver at he
      split at he
      · cases he
        exact some_ne_none _
      · cases he
    · exact hs.entry k e he
  case held =>
    intro o k
    rw [hu.held, hu.holder, hs.held]
    split
    case isTrue hk =>
      simp only [hk, some.injEq, true_and]
      exact ⟨fun h => h.elim (fun h => absurd h.2.symm h.1) id, .inr⟩
    case isFalse hk =>
      simp only [hk, false_and, or_false, and_iff_right_iff_imp]
      exact fun h ho => hk (ho ▸ h)
  case heldNodup => exact hu.nodup
  case queued =>
    intro k o ho
    rw [hu.queue] at ho
    refine hs.queued k o ?_
    split at ho
    · exact mem_of_mem_tail ho
    · exact ho
  case ordered =>
    intro k
    rw [hu.queue]
    split
    · exact (hs.ordered k).tail
    · exact hs.ordered k
  case holderOut =>
    intro k o ho
    rw [hu.holder] at ho
    rw [hu.queue]
    split
    case isTrue hk =>
      rw [if_pos hk] at ho
      -- The front of the queue began to wait before everybody behind it.
      have hord := hs.ordered k
      cases hq : s.table.queue k with
      | nil => exact not_mem_nil
      | cons =>
        rw [hq] at ho hord
        rw [head?_cons, some.injEq] at ho
        intro hmem
        have := (pairwise_cons.mp hord).1 o hmem
        rw [ho] at this
        exact lt_irrefl _ this
    case isFalse hk =>
      rw [if_neg hk] at ho
      exact hs.holderOut k o ho
  case called =>
    intro o c hc
    have hold := hs.called o c hc
    rw [hu.holder, hu.queue]
    split
    case isTrue hk =>
      rcases hold with hold | hold
      · -- The owner itself is in no call.
        rw [hk, some.injEq] at hold
        rw [← hold, hidle] at hc
        cases hc
      · cases hq : s.table.queue c.key with
        | nil =>
          rw [hq] at hold
          cases hold
        | cons =>
          rw [hq] at hold
          rcases mem_cons.mp hold with hold | hold
          · exact .inl (by rw [hold]; rfl)
          · exact .inr hold
    case isFalse => exact hold
  case waiting =>
    rw [hu.waiting]
    exact hs.waiting
  case past => exact fun o c hc => Nat.lt_succ_of_lt (hs.past o c hc)

end Releases

/-- What a step is, seen from a state in which the table is in order. -/
inductive LockStep (s : LockManager) : LockLabel → LockManager → Prop where
  | again {owner key elapsed} (hidle : s.calls owner = none)
      (hmine : s.table.holder key = some owner) :
      LockStep s (.lock owner key elapsed) { s with clock := s.clock + 1 }
  | take {owner key elapsed} (hidle : s.calls owner = none) (hfree : s.table.locks key = none) :
      LockStep s (.lock owner key elapsed)
        { s with
          table := (s.table.setEntry key (some ⟨some owner, []⟩)).addHeld owner key
          clock := s.clock + 1 }
  | queueUp {owner key elapsed h waiters t} (hidle : s.calls owner = none)
      (hkey : s.table.locks key = some ⟨some h, waiters⟩) (hne : h ≠ owner)
      (ht : t = { s.table.setEntry key (some ⟨some h, waiters ++ [owner]⟩) with
        waiting := s.table.waiting.alter owner (fun _ => key) }) :
      LockStep s (.lock owner key elapsed) (s.resume t owner ⟨key, false, s.clock⟩ elapsed)
  | wake {owner elapsed call} (hcall : s.calls owner = some call) :
      LockStep s (.wake owner elapsed) (s.resume s.table owner call elapsed)
  | unlock {owner keys} (hidle : s.calls owner = none)
      (hperm : keys.Perm (s.table.held owner)) :
      LockStep s (.unlockAll owner keys)
        { s with table := s.table.unlockAll owner keys, clock := s.clock + 1 }

variable {l : LockLabel} {s' : LockManager}

/-- A step is one of the listed cases. -/
theorem lockStep_of_step (hs : LockInv s) (h : s.step l = some s') :
    LockStep s l s' := by
  cases l with
  | lock owner key =>
    rw [step] at h
    split at h
    · cases h
    case isFalse hbusy =>
      have hidle : s.calls owner = none := by
        simpa only [Bool.not_eq_true, isSome_eq_false_iff, isNone_iff_eq_none] using hbusy
      rcases request_cases owner (hs.entry key) with
        ⟨hmine, hreq⟩ | ⟨hfree, hreq⟩ | ⟨holder, waiters, hkey, hne, hreq⟩
      all_goals
        rw [hreq] at h
        cases h
      · exact .again hidle hmine
      · exact .take hidle hfree
      · exact .queueUp hidle hkey hne rfl
  | wake owner =>
    rw [step] at h
    cases hcall : s.calls owner with
    | none =>
      rw [hcall] at h
      cases h
    | some =>
      rw [hcall] at h
      cases h
      exact .wake hcall
  | unlockAll owner keys =>
    rw [step] at h
    split at h
    · cases h
    case isFalse hbad =>
      cases h
      rcases not_or.mp hbad with ⟨hidle, hperm⟩
      refine .unlock ?_ (not_not.mp hperm)
      simpa only [Bool.not_eq_true, isSome_eq_false_iff, isNone_iff_eq_none] using hidle

/-- A call that wakes up waits over the table as it stands. -/
theorem lockInv_parked {owner : Nat} {call : LockCall} (hs : LockInv s)
    (hcall : s.calls owner = some call) : LockInv (s.park s.table owner call) := by
  have hsame : update s.calls owner (some call) = s.calls := by
    rw [← hcall]
    exact update_eq_self owner s.calls
  unfold LockManager.park
  rw [hsame]
  exact lockInv_clock hs

/-- Every step keeps the table well formed. -/
theorem lockInv_step (hs : LockInv s) (h : s.step l = some s') : LockInv s' := by
  cases lockStep_of_step hs h with
  | again => exact lockInv_clock hs
  | take _ hfree => exact lockInv_take hs hfree
  | queueUp hidle hkey hne ht =>
    refine lockInv_resume _ ?_
    rw [ht]
    exact lockInv_queueUp hs hidle hkey hne
  | wake hcall => exact lockInv_resume _ (lockInv_parked hs hcall)
  | unlock hidle hperm => exact lockInv_unlock hs hidle hperm

/-- Every reachable table is well formed. -/
theorem lockInv_reachable {timeout deadlockTimeout : Nat}
    (h : LockManager.Reachable timeout deadlockTimeout s) : LockInv s := by
  rcases h with ⟨labels, hrun⟩
  exact invariant_of_steps step LockInv (fun s l s' hs h => lockInv_step hs h) _ s
    labels (lockInv_new timeout deadlockTimeout) hrun

/-- In every state reached: what an owner has to release is what it holds, a key
    with waiters has a holder, a queue has no owner twice and none that does not
    wait for the key. A release hands every key of the owner to the one that has
    waited longest, or forgets it, and leaves the owner with nothing. -/
theorem locks_exclusive_in_order (timeout deadlockTimeout : Nat) (s : LockManager)
    (hs : LockManager.Reachable timeout deadlockTimeout s) :
    (∀ o k, k ∈ s.table.held o ↔ s.table.holder k = some o) ∧
    (∀ k, s.table.queue k ≠ [] → ∃ o, s.table.holder k = some o) ∧
    (∀ k, (s.table.queue k).Nodup ∧
      ∀ o ∈ s.table.queue k, s.table.waiting.get? o = some k ∧
        ∃ c, s.calls o = some c ∧ c.key = k) ∧
    (∀ owner keys s', s.step (.unlockAll owner keys) = some s' →
      (∀ k, s.table.holder k = some owner →
        (s.table.queue k = [] → s'.table.locks k = none) ∧
        (s.table.queue k ≠ [] → ∃ w ∈ s.table.queue k, s'.table.holder k = some w ∧
          ∀ w' ∈ s.table.queue k, w' ≠ w → s.since w < s.since w')) ∧
      ∀ k, s'.table.holder k ≠ some owner) := by
  have hinv := lockInv_reachable hs
  refine ⟨hinv.held, ?_, ?_, ?_⟩
  · intro k hq
    unfold queue at hq
    cases ht : s.table.locks k with
    | none =>
      rw [ht] at hq
      exact absurd rfl hq
    | some e =>
      rcases ne_none_iff_exists'.mp (hinv.entry k e ht) with ⟨o, ho⟩
      refine ⟨o, ?_⟩
      unfold holder
      rw [ht]
      exact ho
  · intro k
    refine ⟨(hinv.ordered k).imp (fun hab heq => ?_), ?_⟩
    · rw [heq] at hab
      exact lt_irrefl _ hab
    intro o ho
    rcases hinv.queued k o ho with ⟨c, hc, hk⟩
    refine ⟨?_, c, hc, hk⟩
    rw [hinv.waiting, hc, map_some, hk]
  · intro owner keys _ hstep
    cases lockStep_of_step hinv hstep with
    | unlock hidle hperm =>
      have hu := unlockAll_spec hinv hperm
      refine ⟨?_, ?_⟩
      · intro k hk
        refine ⟨?_, ?_⟩
        · intro hq
          rw [hu.locks, if_pos hk]
          unfold queue at hq
          cases ht : s.table.locks k with
          | none => rfl
          | some e =>
            rcases e with ⟨_, waiters⟩
            rw [ht] at hq
            have hq : waiters = [] := hq
            rw [hq]
            rfl
        · intro hq
          have hord := hinv.ordered k
          cases hqs : s.table.queue k with
          | nil => exact absurd hqs hq
          | cons w =>
            rw [hqs] at hord
            refine ⟨w, mem_cons_self, ?_, ?_⟩
            · show (s.table.unlockAll owner keys).holder k = some w
              rw [hu.holder, if_pos hk, hqs]
              rfl
            intro w' hw' hww
            rcases mem_cons.mp hw' with hw' | hw'
            · exact absurd hw' hww
            · exact (pairwise_cons.mp hord).1 w' hw'
      · intro k
        rw [hu.holder]
        split
        · exact fun hhead => not_queued_of_idle hinv hidle (mem_of_mem_head? hhead) rfl
        · assumption

/-- Two owners queued behind a third, which then releases the key. -/
theorem locks_exclusive_in_order_three :
    ∃ s, LockManager.Reachable 50 10 s ∧ s.table.queue ("t", ⟨0, 0⟩) = [2, 3] ∧
      ∃ s', s.step (.unlockAll 1 [("t", ⟨0, 0⟩)]) = some s' ∧
        s'.table.holder ("t", ⟨0, 0⟩) = some 2 ∧ ∀ k, s'.table.holder k ≠ some 1 := by
  have hr : ∃ s, runSteps step (new 50 10)
      [.lock 1 ("t", ⟨0, 0⟩) 0, .lock 2 ("t", ⟨0, 0⟩) 0, .lock 3 ("t", ⟨0, 0⟩) 0] = some s ∧
      s.table.queue ("t", ⟨0, 0⟩) = [2, 3] ∧
      ∃ s', s.step (.unlockAll 1 [("t", ⟨0, 0⟩)]) = some s' ∧
        s'.table.holder ("t", ⟨0, 0⟩) = some 2 := ⟨_, rfl, rfl, _, rfl, rfl⟩
  rcases hr with ⟨s, hrun, hqueue, s', hstep, hholder⟩
  exact ⟨s, ⟨_, hrun⟩, hqueue, s', hstep, hholder,
    ((locks_exclusive_in_order 50 10 s ⟨_, hrun⟩).2.2.2 1 _ s' hstep).2⟩

end ChibiDb
