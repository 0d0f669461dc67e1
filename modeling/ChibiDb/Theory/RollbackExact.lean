import ChibiDb.Theory.IndexEntries
import ChibiDb.Theory.WriteConflicts

/-!
# Rollback as an Inverse

A transaction that rolls back takes its writes back one by one, the latest
first, while the others go on. When it is through, nothing it created is left
and no header names it; a version it had marked has the header it had before;
and what it added to the indexes it has removed again.

On the way it only touches what is its own. The row lock keeps a marked version
still, a version it created nobody else may write, and an entry it removes is
one it has added.

A statement that fails takes its own writes back first. Such a write does not
count: what is restored is the header from before the write that was there when
the transaction began to roll back.

## Main definitions

* `indexGain`: What the steps of one transaction add to an index entry in a run.
* `work`: Steps a rollback still has to take.
* `RolledBack`: Everything is taken back.
* `OwnOnly`: A step that touches no write of the others.
* `Keeps`: No failed statement takes a given mark back.

## Theorems

* `indexGain_eq_held`: The gain of a run can be read off its last state.
* `slot_unchanged`: A version that is locked stays as it is.
* `Remembers.step`: Until its lock is released, a marked version can be restored.
* `rollback_is_exact`: Rollback is an inverse, and it comes to its end.
-/

namespace ChibiDb.Sessions

open List
open Option hiding or_self

/-- What a step adds to the number of copies of an index entry, if it is a step
    of the transaction `id`. -/
def stepGain (id : Nat) (e : IndexEntry) (s s' : Sessions) : SessionLabel → Int
  | .begin => 0
  | .act i _ => if i = id then (s'.index.count e : Int) - s.index.count e else 0

/-- What the steps of the transaction `id` add in a run. -/
def indexGain (id : Nat) (e : IndexEntry) : Sessions → List SessionLabel → Int
  | _, [] => 0
  | s, l :: ls => match s.step l with
    | none => 0
    | some s' => stepGain id e s s' l + indexGain id e s' ls

/-- How many steps a transaction needs to take everything back. -/
def work (s : Sessions) (x : TrxState) : Nat :=
  x.unindexing.length +
    (x.undo.map (fun u => 1 + u.leftover.length + (s.unindexes u).length)).sum

/-- Everything is taken back, and the locks are still held. -/
def RolledBack (x : TrxState) : Prop := x.stage = .aborting ∧ x.undo = [] ∧ x.unindexing = []

/-- A step that removes nothing but versions of `x` and changes nothing but markers of `x`. -/
def OwnOnly (s s' : Sessions) (x : TrxState) : Prop :=
  ∀ f rid, s'.heap.get f rid = s.heap.get f rid ∨ ∃ v, s.heap.get f rid = some v ∧
    ((v.creator = x.id ∧ s'.heap.get f rid = none) ∨
      (v.deleter = x.id ∧ ∃ d n, s'.heap.get f rid = some { v with deleter := d, nextRid := n }))

/-- The step is not one by which a failed statement of the transaction `id`
    takes back its mark on the version at `e`. -/
def Keeps (id : Nat) (e : Nat × Rid) (s : Sessions) (l : SessionLabel) : Prop :=
  l = .act id .undoOne → ∀ x ∈ s.trx id,
    x.stage = .aborting ∨ x.undo.head?.bind Undo.marked ≠ some e

instance (id : Nat) (e : Nat × Rid) (s : Sessions) (l : SessionLabel) :
    Decidable (Keeps id e s l) := by
  unfold Keeps
  infer_instance

/-- How many copies of an entry are there because of the transaction `id`. -/
def heldBy (s : Sessions) (id : Nat) (e : IndexEntry) : Nat :=
  match s.trx id with
  | none => 0
  | some x => s.held x e

variable {s s' : Sessions} {x y : TrxState} {l : SessionLabel} {ls : List SessionLabel}
  {a : SessionAction} {e : Nat × Rid} {v : Version} {rest : List IndexEntry} {u : Undo}
variable {id : Nat}

theorem heldBy_of_mem (hb : Books s) (hx : x ∈ s.trxs) (e : IndexEntry) :
    s.heldBy x.id e = s.held x e := by
  unfold heldBy
  rw [hb.trx_of_mem hx]

theorem heldBy_of_none (id : Nat) (h : ∀ x ∈ s.trxs, x.id ≠ id) (e : IndexEntry) :
    s.heldBy id e = 0 := by
  have hnone : s.trx id = none := by
    unfold Sessions.trx
    rw [find?_eq_none]
    intro x hx
    rw [decide_eq_true_eq]
    exact h x hx
  unfold heldBy
  rw [hnone]

/-- A transaction that does not take part in a step has what it had. -/
theorem heldBy_congr (hb : Books s) (hb' : Books s') (e : IndexEntry)
    (hidx : s'.indexes = s.indexes) (htrxs : ∀ x, x.id = id → (x ∈ s'.trxs ↔ x ∈ s.trxs)) :
    s'.heldBy id e = s.heldBy id e := by
  by_cases hin : ∃ x ∈ s.trxs, x.id = id
  · rcases hin with ⟨x, hx, rfl⟩
    rw [heldBy_of_mem hb hx, heldBy_of_mem hb' ((htrxs x rfl).mpr hx)]
    exact held_congr hidx rfl rfl rfl e
  have hno : ∀ x ∈ s.trxs, x.id ≠ id := fun x hx hid => hin ⟨x, hx, hid⟩
  rw [heldBy_of_none id hno, heldBy_of_none id]
  intro x hx hid
  exact hno x ((htrxs x hid).mp hx) hid

theorem gone_step (hr : Rows s) (hstep : s.step l = some s') (h : s.Gone id) :
    s'.Gone id := by
  cases step_cases hstep with
  | begin =>
    refine ⟨Nat.lt_succ_of_lt h.1, fun y hy => ?_⟩
    rcases mem_cons.mp hy with rfl | hy
    · exact Nat.ne_of_gt h.1
    · exact h.2 y hy
  | act _ _ _ hx hs =>
    rcases effect_of_step hr hx hs with ⟨y, hm, _⟩ | hd
    · exact Rows.gone_put hm.trxs hm.id hm.nextId hx h
    · refine ⟨hd.tm ▸ h.1, fun y hy => ?_⟩
      rw [hd.trxs, mem_dropTrx] at hy
      exact h.2 y hy.1

/-- A step of a transaction adds what it then has more, unless it goes away. -/
theorem stepGain_eq (hr : Rows s) (he : Entries s) (hstep : s.step l = some s')
    (hnot : ¬ s'.Gone id) (e : IndexEntry) :
    (s.heldBy id e : Int) + stepGain id e s s' l = s'.heldBy id e := by
  have hr' := hr.step hstep
  cases step_cases hstep with
  | begin =>
    simp only [stepGain, Int.add_zero, Int.natCast_inj]
    by_cases hid : id = s.tm.nextId
    · subst hid
      rw [heldBy_of_none]
      · exact (heldBy_of_mem hr'.books mem_cons_self e).symm
      · intro x hx
        exact Nat.ne_of_lt (hr.books.trx x hx).lt
    · refine (heldBy_congr hr.books hr'.books e rfl (fun x hx => ?_)).symm
      refine mem_cons.trans ⟨fun h => h.resolve_left ?_, .inr⟩
      intro hfresh
      rw [hfresh] at hx
      exact hid hx.symm
  | act x _ _ hx hs =>
    simp only [stepGain]
    rcases effect_of_step hr hx hs with ⟨y, hm, _⟩ | hd
    · by_cases hid : x.id = id
      · subst hid
        have hy := hm.self hx
        have hbal := (accounts_of_step hr (he.trx x hx) hx hs hm).balance e
        rw [if_pos rfl, heldBy_of_mem hr.books hx, ← hm.id, heldBy_of_mem hr'.books hy]
        omega
      · rw [if_neg hid, Int.add_zero, Int.natCast_inj]
        refine (heldBy_congr hr.books hr'.books e hm.indexes (fun z hz => ?_)).symm
        have hzx : z.id ≠ x.id := fun h => hid (h.symm.trans hz)
        constructor
        · intro hin
          rcases hm.cases hin with rfl | ⟨hin, _⟩
          · exact absurd hm.id hzx
          · exact hin
        · exact fun hin => hm.other hin hzx
    · by_cases hid : x.id = id
      · subst hid
        refine absurd ⟨?_, fun y hy => ?_⟩ hnot
        · rw [hd.tm]
          exact (hr.books.trx x hx).lt
        · rw [hd.trxs, mem_dropTrx] at hy
          exact hy.2
      · rw [if_neg hid, Int.add_zero, Int.natCast_inj]
        refine (heldBy_congr hr.books hr'.books e hd.indexes (fun z hz => ?_)).symm
        rw [hd.trxs, mem_dropTrx]
        exact ⟨fun h => h.1, fun h => ⟨h, fun hzx => hid (hzx.symm.trans hz)⟩⟩

/-- Induction on the run; a transaction that is there at the end was never gone. -/
theorem indexGain_eq (s : Sessions) {t : Sessions} (hr : Rows s) (he : Entries s)
    (hrun : runSteps Sessions.step s ls = some t) (hnot : ¬ t.Gone id) (e : IndexEntry) :
    (s.heldBy id e : Int) + indexGain id e s ls = t.heldBy id e := by
  induction ls generalizing s with
  | nil =>
    simp only [runSteps, some.injEq] at hrun
    rw [hrun, indexGain, Int.add_zero]
  | cons l ls ih =>
    rcases runSteps_cons hrun with ⟨s', hstep, hrest⟩
    have hr' := hr.step hstep
    have hgone : ¬ s'.Gone id := by
      intro hg
      have hkept : Rows t ∧ t.Gone id :=
        invariant_of_steps Sessions.step (fun s => Rows s ∧ s.Gone id)
          (fun s l s' h hs => ⟨h.1.step hs, gone_step h.1 hs h.2⟩)
          s' t ls ⟨hr', hg⟩ hrest
      exact hnot hkept.2
    have hhead := stepGain_eq hr he hstep hgone e
    have htail := ih s' hr' (he.step hr hstep) hrest
    simp only [indexGain, hstep]
    omega

theorem indexGain_eq_held {s₀ : Sessions} (h₀ : Opened s₀)
    (hrun : runSteps Sessions.step s₀ ls = some s) (hb : Books s) (hx : x ∈ s.trxs)
    (e : IndexEntry) : indexGain x.id e s₀ ls = s.held x e := by
  have hnot : ¬ s.Gone x.id := fun hg => hg.2 x hx rfl
  have hgain := indexGain_eq s₀ h₀.rows (Entries.of_opened h₀) hrun hnot e
  rw [heldBy_of_mem hb hx, heldBy_of_none x.id] at hgain
  · omega
  · simp [h₀.trxs]

/-- Locks of the others are left alone. -/
theorem locks_other (hs : SessionStep s x a s') {k : LockKey} (hne : id ≠ x.id)
    (h : (k, id) ∈ s.locks) : (k, id) ∈ s'.locks := by
  have hwithout : (k, id) ∈ s.locksWithout x.id :=
    mem_filter.mpr ⟨h, decide_eq_true hne⟩
  cases hs with
  | claimKey | lockRow => exact mem_insert_of_mem h
  | endUndo =>
    split
    · exact hwithout
    · exact h
  | finishUndo | dropCommitted => exact hwithout
  | _ => exact h

/-- A rollback goes on to its end, and keeps its locks until then. -/
theorem stage_of_rollback (hx : x ∈ s.trxs) (hs : SessionStep s x a s') (hm : Moved s s' x y) :
    (x.stage = .ended → y.stage = .ended) ∧
      (x.stage = .aborting → y.stage = .ended ∨
        (y.stage = .aborting ∧ ∀ k, (k, x.id) ∈ s.locks → (k, x.id) ∈ s'.locks)) := by
  cases hs with
  | undoInsert | undoMark | undoUpdate | unindex | removeOpen | ssiAbort =>
    rw [moved_unique hx hm rfl rfl]
    exact ⟨id, fun h => .inr ⟨h, fun k hk => hk⟩⟩
  | finishUndo =>
    rw [moved_unique hx hm rfl rfl]
    exact ⟨fun _ => rfl, fun _ => .inl rfl⟩
  | dropAborted | dropCommitted => exact (moved_ne_dropTrx hx hm rfl).elim
  | _ =>
    constructor <;>
    · intro h
      simp only [h, reduceCtorEq, or_self, false_and] at *

/-- Only an undo makes the undo list shorter. -/
theorem undoOne_of_shorter (hx : x ∈ s.trxs) (hs : SessionStep s x a s') (hm : Moved s s' x y)
    (hb : Books s) (hlt : y.undo.length < x.undo.length) : a = .undoOne := by
  cases hs with
  | undoInsert | undoMark | undoUpdate => rfl
  | dropAborted | dropCommitted => exact (moved_ne_dropTrx hx hm rfl).elim
  | lockRow =>
    rw [moved_self hb hx hm rfl] at hlt
    exact absurd hlt (Nat.lt_irrefl _)
  | _ =>
    rw [moved_unique hx hm rfl rfl] at hlt
    simp only [length_cons, lt_self_iff_false] at hlt
    try omega

/-- A committed version stays as it is as long as `x` does not hold its lock. -/
theorem slot_unchanged (hr : Rows s) (hx : x ∈ s.trxs) (he : Effect s s' x y)
    (hv : s.heap.get e.1 e.2 = some v) (hc : s.Counted v.creator)
    (hlock : (.row e.1 e.2, x.id) ∉ s.locks) : s'.heap.get e.1 e.2 = some v := by
  have hok := hr.trx x hx
  cases slotFate_of_effect he hv with
  | same h => exact h
  | marked _ _ _ _ _ _ _ _ hl =>
    rcases hl with hl | ⟨p, hpend, rfl⟩
    · exact absurd hl hlock
    · exact absurd (hok.pend p hpend).lock hlock
  | cleared _ _ _ hcreator hst => exact absurd (hcreator ▸ hc) (not_counted hr.books hx hst)
  | restored _ _ _ _ hxu =>
    exact absurd (hok.held e ((Rows.mem_marks_iff x e).mpr ⟨_, hxu ▸ mem_cons_self, rfl⟩)) hlock

/-- The undo list of `x` still has what it takes to make the version at `e` what it was. -/
def Restorable (s : Sessions) (x : TrxState) (e : Nat × Rid) (v : Version) : Prop :=
  ∃ u ∈ x.undo, u.marked = some e ∧ u.prevDeleter = v.deleter ∧ u.prevNext = v.nextRid ∧
    ∃ w, s.heap.get e.1 e.2 = some w ∧ w.creator = v.creator ∧ w.row = v.row

/-- The version at `e` is what it was, and `x` still has it locked. -/
def Restored (s : Sessions) (x : TrxState) (e : Nat × Rid) (v : Version) : Prop :=
  x.stage = .aborting ∧ (.row e.1 e.2, x.id) ∈ s.locks ∧ s.heap.get e.1 e.2 = some v

/-- The version at `e` was `v` before the transaction `id` marked it. -/
structure Remembers (s : Sessions) (id : Nat) (e : Nat × Rid) (v : Version) : Prop where
  lt : id < s.tm.nextId
  counted : s.Counted v.creator
  other : v.deleter ≠ id
  trx : ∀ x ∈ s.trxs, x.id = id → x.stage = .ended ∨ s.Restorable x e v ∨ s.Restored x e v

/-- The write that puts the mark there. -/
theorem remembers_of_mark (s s' : Sessions) (id : Nat) (a : SessionAction) (hr : Rows s)
    (hstep : s.step (.act id a) = some s') (e : Nat × Rid) (v w : Version)
    (hv : s.heap.get e.1 e.2 = some v) (hw : s'.heap.get e.1 e.2 = some w)
    (hcreator : v.creator ≠ id) (hother : v.deleter ≠ id) (hmark : w.deleter = id) :
    Remembers s' id e v := by
  have hr' := hr.step hstep
  cases step_cases hstep with
  | act x _ s' hx hs =>
    rcases effect_of_step hr hx hs with ⟨y, hm, he⟩ | hd
    · have hy := hm.self hx
      have hsame : s'.heap.get e.1 e.2 = some v → False := by
        intro h
        rw [hw, some.injEq] at h
        exact hother (h ▸ hmark)
      have hin : e ∈ y.marks := Rows.marks_of_deleter hr' hy hw (hm.id ▸ hmark)
      have hfirm : w.creator = v.creator → s'.Counted v.creator := by
        intro hc
        rcases (hr'.trx y hy).marked e hin with ⟨w', hw', _, hfirm⟩
        rw [hw, some.injEq] at hw'
        rw [← hw', hc] at hfirm
        exact hfirm.resolve_left (hm.id ▸ hcreator)
      -- What is left to show is that the undo list has the entry.
      have hdone : Restorable s' y e v → Remembers s' x.id e v := by
        intro hres
        rcases hres with ⟨u, hu, hue, hd, hn, w', hw', hc, hrow⟩
        refine ⟨hm.nextId ▸ (hr.books.trx x hx).lt, hfirm ?_, hother, fun z hz hid => ?_⟩
        · rw [hw, some.injEq] at hw'
          exact hw' ▸ hc
        · rw [Books.eq_of_id hr'.books hz hy (hid.trans hm.id.symm)]
          exact .inr (.inl ⟨u, hu, hue, hd, hn, w', hw', hc, hrow⟩)
      cases slotFate_of_effect he hv with
      | same h => exact absurd h hsame
      | marked u _ h _ _ hundo hu hprev =>
        exact hdone ⟨u, hundo ▸ mem_cons_self, hu, hprev.1, hprev.2, _, h, rfl, rfl⟩
      | cleared _ _ h => cases hw.symm.trans h
      | restored d n h _ hxu =>
        -- The id of the transaction is not one it has overwritten.
        cases hw.symm.trans h
        have hgone := (hr.trx x hx).prevs (.deleteMark e.1 e.2 d n) (hxu ▸ mem_cons_self)
        exact absurd hmark.symm (hgone.2 x hx)
    · rw [hd.heap, hv, some.injEq] at hw
      exact absurd (hw ▸ hmark) hother

/-- A step of the transaction itself: the entry stays, or is used. -/
theorem restorable_own (hr : Rows s) (hx : x ∈ s.trxs) (he : Effect s s' x y)
    (hc : s.Counted v.creator) (h : s.Restorable x e v) :
    s'.Restorable y e v ∨ (s'.heap.get e.1 e.2 = some v ∧ ∃ u, x.undo = u :: y.undo ∧
      u.marked = some e) := by
  rcases h with ⟨u, hu, hue, hd, hn, w, hw, hwc, hrow⟩
  rcases undo_kept he hu hue with ⟨u', hu', hue', hd', hn'⟩ | ⟨hxu, w', hw', hv'⟩
  · refine .inl ⟨u', hu', hue', hd'.trans hd, hn'.trans hn, ?_⟩
    cases slotFate_of_effect he hw with
    | same h => exact ⟨w, h, hwc, hrow⟩
    | marked _ _ h | restored _ _ h => exact ⟨_, h, hwc, hrow⟩
    | cleared _ _ _ hcreator hst =>
      exact absurd (hcreator ▸ hwc ▸ hc) (not_counted hr.books hx hst)
  · cases hw.symm.trans hw'
    refine .inr ⟨?_, u, hxu, hue⟩
    rw [hv', hd, hn, hwc, hrow]

/-- Whoever holds the lock of a committed version keeps the others off it. -/
theorem slot_of_lock {z : TrxState} (hr : Rows s) (hx : x ∈ s.trxs) (he : Effect s s' x y)
    (hne : z.id ≠ x.id) {w : Version} (hw : s.heap.get e.1 e.2 = some w) (hc : s.Counted w.creator)
    (hlock : (.row e.1 e.2, z.id) ∈ s.locks) : s'.heap.get e.1 e.2 = some w :=
  slot_unchanged hr hx he hw hc (fun h => hne (hr.excl _ _ _ hlock h))

namespace Remembers

theorem own (hr : Rows s) (hx : x ∈ s.trxs) (hs : SessionStep s x a s') (hm : Moved s s' x y)
    (he : Effect s s' x y) (h : Remembers s x.id e v) (hkeep : Keeps x.id e s (.act x.id a)) :
    y.stage = .ended ∨ s'.Restorable y e v ∨ s'.Restored y e v := by
  have hst := stage_of_rollback hx hs hm
  rcases h.trx x hx rfl with hend | hres | ⟨hab, hlock, hv⟩
  · exact .inl (hst.1 hend)
  · rcases restorable_own hr hx he h.counted hres with hres | ⟨hv, u, hu, hue⟩
    · exact .inr (.inl hres)
    -- The mark is taken back, and not by a failed statement.
    have hshort : y.undo.length < x.undo.length := by
      rw [hu, length_cons]
      exact Nat.lt_succ_self _
    have ha := undoOne_of_shorter hx hs hm hr.books hshort
    have hab : x.stage = .aborting := by
      refine (hkeep (by rw [ha]) x (hr.books.trx_of_mem hx)).resolve_right ?_
      rw [hu]
      exact fun hno => hno hue
    have hin : e ∈ x.marks := (Rows.mem_marks_iff x e).mpr ⟨u, hu ▸ mem_cons_self, hue⟩
    rcases hst.2 hab with hend | ⟨hab', hlocks⟩
    · exact .inl hend
    · refine .inr (.inr ⟨hab', ?_, hv⟩)
      rw [hm.id]
      exact hlocks _ ((hr.trx x hx).held e hin)
  · rcases hst.2 hab with hend | ⟨hab', hlocks⟩
    · exact .inl hend
    have hnot : e ∉ x.marks := by
      intro hin
      rcases (hr.trx x hx).marked e hin with ⟨_, hw, hd, _⟩
      rw [hv, some.injEq] at hw
      exact h.other (hw ▸ hd)
    refine .inr (.inr ⟨hab', hm.id.symm ▸ hlocks _ hlock, ?_⟩)
    cases slotFate_of_effect he hv with
    | same h => exact h
    | marked _ _ _ hrun => cases hrun.symm.trans hab
    | cleared _ _ _ hcreator hst =>
      exact absurd (hcreator ▸ h.counted) (not_counted hr.books hx hst)
    | restored _ _ _ _ hxu =>
      exact absurd ((Rows.mem_marks_iff x e).mpr ⟨_, hxu ▸ mem_cons_self, rfl⟩) hnot

theorem step (hr : Rows s) (h : Remembers s id e v) (hkeep : Keeps id e s l)
    (hstep : s.step l = some s') : Remembers s' id e v := by
  cases step_cases hstep with
  | begin =>
    refine ⟨Nat.lt_succ_of_lt h.lt, counted_begin hr.books h.counted, h.other, ?_⟩
    exact forall_mem_cons.mpr ⟨fun hid => absurd hid (Nat.ne_of_gt h.lt), h.trx⟩
  | act _ _ _ hx hs =>
    rcases effect_of_step hr hx hs with ⟨_, hm, he⟩ | hd
    · refine ⟨hm.nextId ▸ h.lt, hm.counted _ h.counted, h.other, fun z hz hid => ?_⟩
      rcases hm.cases hz with rfl | ⟨hz, hne⟩
      · rw [hm.id] at hid
        rw [← hid] at h hkeep
        exact own hr hx hs hm he h hkeep
      rcases h.trx z hz hid with hend | ⟨u, hu, hue, hd, hn, w, hw, hwc, hrow⟩ | hres
      · exact .inl hend
      · have hlock := (hr.trx z hz).held e ((Rows.mem_marks_iff z e).mpr ⟨u, hu, hue⟩)
        have hkept := slot_of_lock hr hx he hne hw (hwc.symm ▸ h.counted) hlock
        exact .inr (.inl ⟨u, hu, hue, hd, hn, w, hkept, hwc, hrow⟩)
      · exact .inr (.inr ⟨hres.1, locks_other hs hne hres.2.1,
          slot_of_lock hr hx he hne hres.2.2 h.counted hres.2.1⟩)
    · refine ⟨hd.tm ▸ h.lt, ?_, h.other, fun z hz hid => ?_⟩
      · unfold Counted
        rw [hd.tm]
        exact h.counted
      rw [hd.trxs, mem_dropTrx] at hz
      rcases h.trx z hz.1 hid with hend | ⟨u, hu, hue, hdel, hn, w, hw, hrest⟩ | hres
      · exact .inl hend
      · exact .inr (.inl ⟨u, hu, hue, hdel, hn, w, hd.heap ▸ hw, hrest⟩)
      · exact .inr (.inr ⟨hres.1, locks_other hs hz.2 hres.2.1, hd.heap ▸ hres.2.2⟩)

end Remembers

/-- What a rolling back transaction does to the pages. -/
theorem ownOnly_of_effect (hr : Rows s) (hx : x ∈ s.trxs) (he : Effect s s' x y)
    (hab : x.stage = .aborting) : OwnOnly s s' x := by
  intro g r
  cases hv : s.heap.get g r with
  | none =>
    refine .inl (eq_none_iff_forall_ne_some.mpr fun w hw => ?_)
    rcases stored_of_effect he hw with ⟨_, h, _⟩ | ⟨_, _, _, hrun⟩ | ⟨_, h, _⟩ | ⟨_, h, _⟩
    · cases hv.symm.trans h
    · cases hrun.symm.trans hab
    · cases hv.symm.trans h
    · cases hv.symm.trans h
  | some v =>
    cases slotFate_of_effect (e := (g, r)) he hv with
    | same h => exact .inl h
    | marked _ _ _ hrun => cases hrun.symm.trans hab
    | cleared _ _ h hcreator => exact .inr ⟨v, rfl, .inl ⟨hcreator, h⟩⟩
    | restored d n h _ hxu =>
      have hin : (g, r) ∈ x.marks := (Rows.mem_marks_iff x _).mpr ⟨_, hxu ▸ mem_cons_self, rfl⟩
      rcases (hr.trx x hx).marked _ hin with ⟨_, hw, hd, _⟩
      cases hv.symm.trans hw
      exact .inr ⟨v, rfl, .inr ⟨hd, d, n, h⟩⟩

/-- What it does to the indexes. -/
theorem index_of_rollback (hs : SessionStep s x a s') (hab : x.stage = .aborting) :
    s'.index = s.index ∨ ∃ e rest, x.unindexing = e :: rest ∧ s'.index = s.index.erase e := by
  cases hs with
  | indexInsert _ _ _ hst => cases hst.symm.trans hab
  | unindex e rest hun => exact .inr ⟨e, rest, hun, rfl⟩
  | _ => exact .inl rfl

/-- An entry that is being removed has been added. -/
theorem held_pos (h : s.EntryOk x) (hst : x.stage ≠ .running) {e : IndexEntry}
    (hun : x.unindexing = e :: rest) : 0 < s.held x e := by
  unfold held due
  rw [h.indexing (.inl hst), hun, cons_append, count_cons, count_nil, beq_self_eq_true, if_pos rfl]
  exact Nat.succ_pos _

theorem work_unindexing {e : IndexEntry} (h : s'.indexes = s.indexes)
    (hun : x.unindexing = e :: rest) (hy : y.unindexing = rest) (hundo : y.undo = x.undo) :
    s'.work y < s.work x := by
  unfold work
  rw [unindexes_congr h, hun, hy, hundo, length_cons]
  omega

theorem work_undo {rest : List Undo} (h : s'.indexes = s.indexes) (hun : x.unindexing = [])
    (hu : x.undo = u :: rest) (hy : y.unindexing = s.unindexes u)
    (hundo : y.undo = u.leftover ++ rest) : s'.work y < s.work x := by
  unfold work
  rw [unindexes_congr h, hun, hu, hy, hundo, map_cons, sum_cons, map_append, sum_append, length_nil]
  cases u with
  | update =>
    simp only [Undo.leftover, map_nil, map_cons, sum_cons, sum_nil,
      length_nil, length_cons, unindexes]
    omega
  | _ =>
    simp only [Undo.leftover, map_nil, sum_nil, length_nil]
    omega

/-- What a write made is there to be taken back. -/
theorem undoWrite_some (hok : RowOk s x) (hu : u ∈ x.undo) :
    ∃ h, Db.undoWrite s.heap u = some (h, u.leftover) := by
  have hcreated : ∀ e, u.created = some e → ∃ v, s.heap.get e.1 e.2 = some v := by
    intro e hc
    rcases hok.created e ((Rows.mem_creates_iff x e).mpr (.inr ⟨u, hu, hc⟩)) with ⟨v, hv, _⟩
    exact ⟨v, hv⟩
  have hmarked : ∀ e, u.marked = some e → ∃ v, s.heap.get e.1 e.2 = some v := by
    intro e hm
    rcases hok.marked e ((Rows.mem_marks_iff x e).mpr ⟨u, hu, hm⟩) with ⟨v, hv, _⟩
    exact ⟨v, hv⟩
  cases u with
  | insert f rid =>
    rcases hcreated (f, rid) rfl with ⟨v, hv⟩
    simp only [Db.undoWrite, Heap.delete, hv, map_some]
    exact ⟨_, rfl⟩
  | deleteMark f rid =>
    rcases hmarked (f, rid) rfl with ⟨v, hv⟩
    simp only [Db.undoWrite, Heap.deleteMark, hv, map_some]
    exact ⟨_, rfl⟩
  | update f _ new =>
    rcases hcreated (f, new) rfl with ⟨_, hv⟩
    simp only [Db.undoWrite, Heap.delete, hv, map_some]
    exact ⟨_, rfl⟩

/-- The transaction `x` can take a step that brings its rollback closer to its end. -/
def GoesOn (s : Sessions) (x : TrxState) : Prop :=
  ∃ a s' y, s.act x a = some s' ∧ s'.trxs = (s.putTrx y).trxs ∧ y.id = x.id ∧
    y.stage = .aborting ∧ s'.work y < s.work x

theorem rollback_goes_on (hr : Rows s) (hent : Entries s) (hx : x ∈ s.trxs)
    (hab : x.stage = .aborting) (hnot : ¬ RolledBack x) : s.GoesOn x := by
  have hable : x.undoable = true := by
    unfold TrxState.undoable
    rw [hab]
  cases hun : x.unindexing with
  | cons e rest =>
    have hpos := held_pos (hent.trx x hx) (hab.trans_ne nofun) hun
    have hin : e ∈ s.index :=
      count_pos_iff.mp (Nat.lt_of_lt_of_le hpos (hent.held_le hx e))
    have hact : s.act x .unindex =
        some { s.putTrx { x with unindexing := rest } with index := s.index.erase e } := by
      simp [act, hun, hin]
    exact ⟨_, _, { x with unindexing := rest }, hact, rfl, rfl, hab,
      work_unindexing rfl hun rfl rfl⟩
  | nil =>
    cases hu : x.undo with
    | nil => exact absurd ⟨hab, hu, hun⟩ hnot
    | cons u rest =>
      rcases undoWrite_some (hr.trx x hx) (hu ▸ mem_cons_self) with ⟨heap, hw⟩
      have hact : s.act x .undoOne = some { s.putTrx { x with
          undo := u.leftover ++ rest, unindexing := s.unindexes u } with heap := heap } := by
        simp [act, hun, hable, hu, hw]
      exact ⟨_, _, { x with undo := u.leftover ++ rest, unindexing := s.unindexes u }, hact,
        rfl, rfl, hab, work_undo rfl hun hu rfl rfl⟩

/-- By its own steps alone a rollback comes to its end. -/
theorem rollback_ends (s : Sessions) (hr : Rows s) (hent : Entries s) (x : TrxState)
    (hx : x ∈ s.trxs) (hab : x.stage = .aborting) :
    ∃ (as : List SessionAction) (t : Sessions) (y : TrxState),
      runSteps Sessions.step s (as.map (SessionLabel.act x.id)) = some t ∧ y ∈ t.trxs ∧
        y.id = x.id ∧ RolledBack y := by
  -- On what is left to do, which each step makes less.
  induction hn : s.work x using Nat.strong_induction_on generalizing s x with
  | _ _ ih =>
    by_cases hdone : RolledBack x
    · exact ⟨[], s, x, rfl, hx, rfl, hdone⟩
    rcases rollback_goes_on hr hent hx hab hdone with ⟨a, s', y, ha, htrxs, hid, hy, hlt⟩
    have hstep : s.step (.act x.id a) = some s' := by
      simp only [Sessions.step, hr.books.trx_of_mem hx]
      exact ha
    have hys : y ∈ s'.trxs := by
      rw [htrxs]
      exact s.mem_putTrx_self hx hid
    rcases ih (s'.work y) (hn ▸ hlt) s' (hr.step hstep) (hent.step hr hstep) y hys
      hy rfl with ⟨as, t, z, hrun, hz, hzid, hzdone⟩
    refine ⟨a :: as, t, z, ?_, hz, hzid.trans hid, hzdone⟩
    rw [map_cons, runSteps, hstep]
    exact hid ▸ hrun

/-- Let transaction `x` be in a state of any run.

    What it has added to an index entry and not removed again is never negative.
    Once it rolls back, every step it takes touches only its own versions,
    its own markers and entries it has added, and until everything is taken
    back there is a step it can take that brings it closer; its steps alone
    lead there.
    When everything is taken back, no version and no marker of it is left, what
    it has added to the indexes is gone, and every version of another
    transaction that it had marked is what it was before the mark. -/
theorem rollback_is_exact (s₀ : Sessions) (h₀ : Opened s₀) (ls : List SessionLabel) (s : Sessions)
    (hrun : runSteps Sessions.step s₀ ls = some s) (x : TrxState) (hx : x ∈ s.trxs) :
    (∀ e, 0 ≤ indexGain x.id e s₀ ls) ∧
    (x.stage = .aborting →
      (∀ a s', s.act x a = some s' → OwnOnly s s' x ∧
        (s'.index = s.index ∨
          ∃ e ∈ s.index, s'.index = s.index.erase e ∧ 0 < indexGain x.id e s₀ ls)) ∧
      (¬ RolledBack x → s.GoesOn x) ∧
      ∃ (as : List SessionAction) (t : Sessions) (y : TrxState),
        runSteps Sessions.step s (as.map (SessionLabel.act x.id)) = some t ∧ y ∈ t.trxs ∧
          y.id = x.id ∧ RolledBack y) ∧
    (RolledBack x →
      (∀ f rid v, s.heap.get f rid = some v → v.creator ≠ x.id ∧ v.deleter ≠ x.id) ∧
      (∀ e, indexGain x.id e s₀ ls = 0) ∧
      ∀ ls₁ a ls₂ s₁ s₂ f rid v w, ls = ls₁ ++ .act x.id a :: ls₂ →
        runSteps Sessions.step s₀ ls₁ = some s₁ → s₁.step (.act x.id a) = some s₂ →
        s₁.heap.get f rid = some v → v.creator ≠ x.id → v.deleter ≠ x.id →
        s₂.heap.get f rid = some w → w.deleter = x.id →
        Meets Sessions.step (Keeps x.id (f, rid)) s₂ ls₂ → s.heap.get f rid = some v) := by
  have hreach : ∀ ms t, runSteps Sessions.step s₀ ms = some t → Rows t ∧ Entries t := by
    intro ms t hms
    exact invariant_of_steps Sessions.step (fun s => Rows s ∧ Entries s) (fun s l s' h hs =>
      ⟨h.1.step hs, h.2.step h.1 hs⟩) s₀ t ms ⟨h₀.rows, Entries.of_opened h₀⟩ hms
  have hr := (hreach ls s hrun).1
  have hent := (hreach ls s hrun).2
  have hgain := indexGain_eq_held h₀ hrun hr.books hx
  refine ⟨fun e => ?_, fun hab => ⟨fun a s' hact => ?_, rollback_goes_on hr hent hx hab,
    rollback_ends s hr hent x hx hab⟩, fun hdone => ⟨fun f rid v hv => ⟨fun hc => ?_, fun hd => ?_⟩,
    fun e => ?_, ?_⟩⟩
  · rw [hgain]
    exact Int.natCast_nonneg _
  · have hs := act_cases hact
    constructor
    · rcases effect_of_step hr hx hs with ⟨_, _, he⟩ | hd
      · exact ownOnly_of_effect hr hx he hab
      · exact fun f rid => .inl (by rw [hd.heap])
    refine (index_of_rollback hs hab).imp_right (fun h => ?_)
    rcases h with ⟨e, _, hun, hindex⟩
    have hpos := held_pos (hent.trx x hx) (hab.trans_ne nofun) hun
    refine ⟨e, ?_, hindex, ?_⟩
    · exact count_pos_iff.mp (Nat.lt_of_lt_of_le hpos (hent.held_le hx e))
    · rw [hgain]
      exact Int.natCast_pos.mpr hpos
  · have hin := Rows.creates_of_creator hr hx hv hc
    have hpn := Rows.pending_none_of_stage hr hx (hdone.1.trans_ne nofun)
    rw [TrxState.creates, hpn, hdone.2.1] at hin
    cases hin
  · have hin := Rows.marks_of_deleter hr hx hv hd
    rw [TrxState.marks, hdone.2.1] at hin
    cases hin
  · rw [hgain, held, due, hdone.2.1, hdone.2.2]
    exact Int.natCast_eq_zero.mpr (Nat.zero_sub _)
  · intro ls₁ a ls₂ s₁ s₂ f rid v w hsplit hrun₁ hstep hv hcreator hother hw hmark hkeeps
    have hr₁ := (hreach ls₁ s₁ hrun₁).1
    have hrun₂ : runSteps Sessions.step s₂ ls₂ = some s := by
      rw [hsplit, runSteps_append s₀ _ hrun₁, runSteps, hstep] at hrun
      exact hrun
    have hstart := remembers_of_mark s₁ s₂ x.id a hr₁ hstep (f, rid) v w hv hw hcreator hother hmark
    have hend : Rows s ∧ Remembers s x.id (f, rid) v :=
      invariant_of_meets Sessions.step (Keeps x.id (f, rid))
        (fun s => Rows s ∧ Remembers s x.id (f, rid) v)
        (fun s l s' h hl hs => ⟨h.1.step hs, h.2.step h.1 hl hs⟩)
        s₂ s ls₂ ⟨hr₁.step hstep, hstart⟩ hkeeps hrun₂
    rcases hend.2.trx x hx rfl with hended | ⟨_, hu, _⟩ | hres
    · cases hended.symm.trans hdone.1
    · rw [hdone.2.1] at hu
      cases hu
    · exact hres.2.2

/-- A table with a row and a unique index over it. -/
def oneIndexedRow : Sessions :=
  { oneRow .repeatableRead with
    indexes := [⟨5, 0, 0, true⟩], index := [⟨5, .int 7, ⟨1, 0⟩⟩] }

theorem opened_oneIndexedRow : Opened oneIndexedRow := by
  have h := opened_oneRow .repeatableRead
  exact ⟨h.pos, h.trxs, h.openSet, h.locks, h.committedLt, h.headers, h.deleted, h.kills⟩

/-- A transaction checks a new key for the row and stores the new version. -/
def storeNewVersion : List SessionLabel :=
  beginTrx 2 ++ pickRow 2 ++
    [.act 2 (.beginCheck [.int 8] (some ⟨1, 0⟩)), .act 2 .claimKey, .act 2 .search,
      .act 2 .nextIndex, .act 2 .endCheck, .act 2 .noteWrite, .act 2 (.lockRow ⟨1, 0⟩),
      .act 2 (.storeVersion ⟨1, 0⟩ [.int 8] ⟨1, 1⟩)]

/-- After it has marked the old version, it indexes the new one and rolls back. -/
def indexAndRollback : List SessionLabel :=
  [.act 2 .indexInsert, .act 2 .endStatement, .act 2 .rollback, .act 2 .undoOne, .act 2 .unindex,
    .act 2 .undoOne]

theorem rollback_of_update :
    ∃ s x, runSteps Sessions.step oneIndexedRow
        (storeNewVersion ++ .act 2 .linkVersion :: indexAndRollback) = some s ∧
      x ∈ s.trxs ∧ RolledBack x ∧ s.heap.get 0 ⟨1, 0⟩ = some ⟨1, 0, 0, [.int 7]⟩ ∧
      (∀ e, indexGain x.id e oneIndexedRow
        (storeNewVersion ++ .act 2 .linkVersion :: indexAndRollback) = 0) ∧
      (∀ f rid v, s.heap.get f rid = some v → v.creator ≠ x.id ∧ v.deleter ≠ x.id) := by
  refine ⟨_, _, rfl, mem_cons_self, ⟨rfl, rfl, rfl⟩, ?_⟩
  have h := (rollback_is_exact oneIndexedRow opened_oneIndexedRow (storeNewVersion ++ .act 2
    .linkVersion :: indexAndRollback) _ rfl _ mem_cons_self).2.2 ⟨rfl, rfl, rfl⟩
  refine ⟨?_, h.2.1, h.1⟩
  exact h.2.2 storeNewVersion .linkVersion indexAndRollback _ _ 0 ⟨1, 0⟩ _ _ rfl rfl rfl rfl
    (by decide) (by decide) rfl rfl (by decide)

end ChibiDb.Sessions
