import ChibiDb.Theory.DbInv

/-!
# Rows and the Transactions That Hold Them

Who may touch which slot, in every reachable state. A transaction that has
marked a record, or is about to, is the only one: it holds the row lock. A
record a transaction has created stays in its slot until that transaction ends
or takes the insert back, and while VACUUM runs nobody has written anything.

## Main definitions

* `Trx.creates`: The slots a transaction has filled and may have to empty.
* `Owned`: The invariant.

## Theorems

* `Owned.trxStep`: A step of a transaction keeps `Owned`.
* `Owned.step`: Every step keeps `Owned`.
-/

namespace ChibiDb

open List Option

/-- The slots a transaction has filled, latest first. -/
def Trx.creates (x : Trx) : List (Nat × Rid) :=
  (match x.pending with
    | none => []
    | some p => [(p.fileNo, p.newRid)]) ++ x.undo.filterMap Undo.created

/-- The slots a transaction has marked, latest first. -/
def Trx.marks (x : Trx) : List (Nat × Rid) := x.undo.filterMap Undo.marked

theorem holds_iff (x : Trx) (f : Nat) (rid : Rid) :
    x.holds f rid = true ↔
      (f, rid) ∈ x.marks ∨ ∃ p, x.pending = some p ∧ p.fileNo = f ∧ p.oldRid = rid := by
  unfold Trx.holds Trx.marks
  simp [Option.any_eq_true]

/-- Slots and the transactions that hold them. -/
structure Owned (s : Db) : Prop where
  inv : Inv s
  /-- No two transactions hold the lock of one record. -/
  locks : ∀ x ∈ s.trxs, ∀ y ∈ s.trxs, x.id ≠ y.id → ∀ f rid, x.holds f rid = true →
    ¬ y.holds f rid = true
  /-- What a transaction created is still where it put it. -/
  created : ∀ x ∈ s.trxs, ∀ e ∈ x.creates, ∃ v, s.mem.get e.1 e.2 = some v ∧ v.creator = x.id
  /-- It put everything in a slot of its own. -/
  nodup : ∀ x ∈ s.trxs, x.creates.Nodup
  /-- VACUUM has the database to itself. -/
  vacuum : s.vacuum ≠ none → ∀ x ∈ s.trxs, x.undo = [] ∧ x.pending = none

namespace Owned

variable {s s' : Db} {x y z : Trx} {f : Nat} {rid : Rid} {e : Nat × Rid}

/-- One transaction becomes `y`. Its locks are old ones or were free, and what it and the others
    created is still there. -/
theorem put (ho : Owned s) (hi' : Inv s') (hx : x ∈ s.trxs) (hv : s'.vacuum = none)
    (htrxs : s'.trxs = (s.putTrx y).trxs) (hid : y.id = x.id)
    (hholds : ∀ f rid, y.holds f rid = true → x.holds f rid = true ∨ s.locked x.id f rid = false)
    (hothers : ∀ z ∈ s.trxs, z.id ≠ x.id → ∀ e ∈ z.creates, ∀ w, s.mem.get e.1 e.2 = some w →
      ∃ w', s'.mem.get e.1 e.2 = some w' ∧ w'.creator = w.creator)
    (hown : ∀ e ∈ y.creates, ∃ v, s'.mem.get e.1 e.2 = some v ∧ v.creator = x.id)
    (hnodup : y.creates.Nodup) : Owned s' := by
  have hcases : ∀ z ∈ s'.trxs, z = y ∨ (z ∈ s.trxs ∧ z.id ≠ x.id) := by
    intro z hz
    rw [htrxs] at hz
    exact (s.mem_putTrx hz).imp_right (fun h => ⟨h.1, hid ▸ h.2⟩)
  -- what `y` holds, no other transaction holds
  have hfree : ∀ z ∈ s.trxs, z.id ≠ x.id → ∀ f rid, y.holds f rid = true →
      ¬ z.holds f rid = true := by
    intro z hz hne f rid hy hzh
    rcases hholds f rid hy with hxh | hl
    · exact ho.locks x hx z hz (fun h => hne h.symm) f rid hxh hzh
    · unfold Db.locked at hl
      rw [List.any_eq_false] at hl
      exact hl z hz (decide_eq_true ⟨hne, hzh⟩)
  constructor
  case inv => exact hi'
  case locks =>
    intro a ha b hb hab f rid hah hbh
    rcases hcases a ha with rfl | ⟨ha, hane⟩
    · rcases hcases b hb with rfl | ⟨hb, hbne⟩
      · exact hab rfl
      · exact hfree b hb hbne f rid hah hbh
    · rcases hcases b hb with rfl | ⟨hb, _⟩
      · exact hfree a ha hane f rid hbh hah
      · exact ho.locks a ha b hb hab f rid hah hbh
  case created =>
    intro z hz e he
    rcases hcases z hz with rfl | ⟨hz, hne⟩
    · rw [hid]
      exact hown e he
    · rcases ho.created z hz e he with ⟨w, hw, hc⟩
      rcases hothers z hz hne e he w hw with ⟨w', hw', hc'⟩
      exact ⟨w', hw', hc'.trans hc⟩
  case nodup =>
    intro z hz
    rcases hcases z hz with rfl | ⟨hz, _⟩
    · exact hnodup
    · exact ho.nodup z hz
  case vacuum => exact fun h => absurd hv h

/-- A slot that is free is nobody's, and one created by `x` is nobody else's. -/
theorem not_created_of_free (ho : Owned s) (hz : z ∈ s.trxs) (hfree : s.mem.get f rid = none) :
    (f, rid) ∉ z.creates := by
  intro he
  rcases ho.created z hz (f, rid) he with ⟨_, hv, _⟩
  cases hfree.symm.trans hv

/-- Two open transactions never created the same slot. -/
theorem not_created_by_other (ho : Owned s) (hx : x ∈ s.trxs) (hz : z ∈ s.trxs) (hne : z.id ≠ x.id)
    (he : e ∈ x.creates) : e ∉ z.creates := by
  intro hez
  rcases ho.created x hx e he with ⟨_, hv, hc⟩
  rcases ho.created z hz e hez with ⟨_, hw, hcw⟩
  cases hv.symm.trans hw
  exact hne (hcw.symm.trans hc)

/-- Marking keeps creators. -/
theorem creator_setMark {h : Heap} {v : Version} (d n : Nat) (hv : h.get f rid = some v)
    {w : Version} (hw : h.get e.1 e.2 = some w) :
    ∃ w', (h.setSlot f rid (some { v with deleter := d, nextRid := n })).get e.1 e.2 = some w' ∧
      w'.creator = w.creator := by
  by_cases he : e = (f, rid)
  · rw [he] at hw ⊢
    cases hv.symm.trans hw
    exact ⟨_, h.get_setSlot_self _ _ _, rfl⟩
  · exact ⟨w, by rw [h.get_setSlot_ne _ he, hw], rfl⟩

/-- Neither the pages nor what the transaction has written change. -/
theorem quiet (ho : Owned s) (hi' : Inv s') (hx : x ∈ s.trxs) (hv : s'.vacuum = none)
    (htrxs : s'.trxs = (s.putTrx y).trxs) (hid : y.id = x.id) (hmem : s'.mem = s.mem)
    (hundo : y.undo = x.undo) (hp : y.pending = x.pending) : Owned s' := by
  have hcreates : y.creates = x.creates := by
    unfold Trx.creates
    rw [hundo, hp]
  refine put ho hi' hx hv htrxs hid ?_ ?_ ?_ ?_
  · intro _ _ h
    unfold Trx.holds at h ⊢
    rw [hundo, hp] at h
    exact .inl h
  · intro _ _ _ _ _ w hw
    exact ⟨w, by rw [hmem, hw], rfl⟩
  · rw [hcreates, hmem]
    exact ho.created x hx
  · rw [hcreates]
    exact ho.nodup x hx

theorem drop {id : Nat} {tm : TransactionManager} (ho : Owned s)
    (hi' : Inv { s.dropTrx id with tm := tm }) : Owned { s.dropTrx id with tm := tm } :=
  have hold := fun z hz => ((s.mem_dropTrx id z).mp hz).1
  ⟨hi', fun a ha b hb => ho.locks a (hold a ha) b (hold b hb),
    fun z hz => ho.created z (hold z hz), fun z hz => ho.nodup z (hold z hz),
    fun h z hz => ho.vacuum h z (hold z hz)⟩

/-- A transaction with an update half done is running. -/
theorem pending_none {log : List (Nat × Record Version)} (h : TrxOk log x)
    (hph : x.phase ≠ .running) : x.pending = none := by
  unfold TrxOk at h
  cases hp : x.phase <;> simp only [hp] at h
  case running => exact absurd hp hph
  case aborting => exact h
  case undoing | appended | logged | counted | marked => exact h.1

theorem pending_none_of_undo {log : List (Nat × Record Version)} (h : TrxOk log x)
    (hph : (x.phase = .undoing ∧ x.undoMark < x.undo.length) ∨ x.phase = .aborting) :
    x.pending = none := by
  refine pending_none h ?_
  rcases hph with ⟨hp, _⟩ | hp <;>
    exact hp.trans_ne nofun

section

variable (ho : Owned s) (hi' : Inv s') (hx : x ∈ s.trxs) (hv0 : s'.vacuum = none)
  (htrxs : s'.trxs = (s.putTrx y).trxs) (hid : y.id = x.id)
include ho hi' hx hv0 htrxs hid

/-- A new version goes into a free slot. -/
theorem insert {v : Version} (hmem : s'.mem = s.mem.setSlot f rid (some v)) (hc : v.creator = x.id)
    (hfree : s.mem.get f rid = none) (hcreates : y.creates = (f, rid) :: x.creates)
    (hholds : ∀ f rid, y.holds f rid = true → x.holds f rid = true ∨ s.locked x.id f rid = false) :
    Owned s' := by
  have hold : ∀ z ∈ s.trxs, ∀ e ∈ z.creates, s'.mem.get e.1 e.2 = s.mem.get e.1 e.2 := by
    intro z hz e he
    rw [hmem, Heap.get_setSlot_ne]
    intro hef
    exact not_created_of_free ho hz hfree (hef ▸ he)
  refine put ho hi' hx hv0 htrxs hid hholds ?_ ?_ ?_
  · intro z hz _ e he w hw
    exact ⟨w, by rw [hold z hz e he, hw], rfl⟩
  · intro e he
    rw [hcreates] at he
    rcases mem_cons.mp he with rfl | he
    · exact ⟨v, by rw [hmem, Heap.get_setSlot_self], hc⟩
    · rw [hold x hx e he]
      exact ho.created x hx e he
  · rw [hcreates]
    exact nodup_cons.mpr ⟨not_created_of_free ho hx hfree, ho.nodup x hx⟩

/-- A marker changes. -/
theorem mark {v : Version} {d n : Nat}
    (hmem : s'.mem = s.mem.setSlot f rid (some { v with deleter := d, nextRid := n }))
    (hv : s.mem.get f rid = some v) (hcreates : y.creates = x.creates)
    (hholds : ∀ f rid, y.holds f rid = true → x.holds f rid = true ∨ s.locked x.id f rid = false) :
    Owned s' := by
  refine put ho hi' hx hv0 htrxs hid hholds ?_ ?_ ?_
  · intro z _ _ e _ w hw
    rw [hmem]
    exact creator_setMark d n hv hw
  · intro e he
    rcases ho.created x hx e (hcreates ▸ he) with ⟨w, hw, hc⟩
    rcases creator_setMark d n hv hw with ⟨w', hw', hc'⟩
    exact ⟨w', hmem ▸ hw', hc'.trans hc⟩
  · rw [hcreates]
    exact ho.nodup x hx

/-- What the transaction created goes away. -/
theorem clear (hmem : s'.mem = s.mem.setSlot f rid none)
    (hcreates : x.creates = (f, rid) :: y.creates)
    (hholds : ∀ f rid, y.holds f rid = true → x.holds f rid = true ∨ s.locked x.id f rid = false) :
    Owned s' := by
  have hnd := hcreates ▸ ho.nodup x hx
  refine put ho hi' hx hv0 htrxs hid hholds ?_ ?_ (nodup_cons.mp hnd).2
  · intro z hz hne e he w hw
    refine ⟨w, ?_, rfl⟩
    rw [hmem, Heap.get_setSlot_ne, hw]
    intro hef
    exact not_created_by_other ho hx hz hne (hcreates ▸ mem_cons_self) (hef ▸ he)
  · intro e he
    rcases ho.created x hx e (hcreates ▸ mem_cons_of_mem _ he) with ⟨w, hw, hc⟩
    refine ⟨w, ?_, hc⟩
    rw [hmem, Heap.get_setSlot_ne, hw]
    intro hef
    exact (nodup_cons.mp hnd).1 (hef ▸ he)

end

/-- A transaction's step keeps ownership. -/
theorem trxStep {a : TrxAction} (ho : Owned s) (hv0 : s.vacuum = none) (hx : x ∈ s.trxs)
    (h : Db.TrxStep s x a s') : Owned s' := by
  have hi' := ho.inv.trxStep hx h
  cases h with
  | insert _ _ _ _ _ _ hp _ _ hfree =>
    refine insert ho hi' hx hv0 rfl rfl rfl rfl hfree ?_ ?_
    · simp [Trx.creates, hp, Undo.created]
    · intro _ _ hg
      rw [holds_iff] at hg ⊢
      exact .inl hg
  | deleteMark _ _ _ _ _ _ hlock hv =>
    refine mark ho hi' hx hv0 rfl rfl rfl hv rfl ?_
    intro _ _ hg
    rw [holds_iff] at hg ⊢
    simp only [Trx.marks, filterMap_cons, Undo.marked, mem_cons] at hg
    rcases hg with (hg | hg) | hg
    · cases hg
      exact .inr hlock
    · exact .inl (.inl hg)
    · exact .inl (.inr hg)
  | updateInsert _ _ _ _ _ _ _ hp _ hlock _ _ hfree =>
    refine insert ho hi' hx hv0 rfl rfl rfl rfl hfree ?_ ?_
    · simp [Trx.creates, hp]
    intro _ _ hg
    rw [holds_iff] at hg ⊢
    rcases hg with hg | ⟨_, hq, hgf, hgr⟩
    · exact .inl (.inl hg)
    · rw [some.injEq] at hq
      rw [← hgf, ← hgr, ← hq]
      exact .inr hlock
  | updateMark u _ hp hv =>
    refine mark ho hi' hx hv0 rfl rfl rfl hv ?_ ?_
    · simp [Trx.creates, hp, Undo.created]
    intro _ _ hg
    rw [holds_iff] at hg ⊢
    simp only [Trx.marks, filterMap_cons, Undo.marked, mem_cons, reduceCtorEq,
      false_and, exists_false, or_false] at hg
    rcases hg with hg | hg
    · rw [Prod.mk.injEq] at hg
      exact .inl (.inr ⟨u, hp, hg.1.symm, hg.2.symm⟩)
    · exact .inl (.inl hg)
  | undoInsert _ _ _ _ _ hph hu | undoUpdate _ _ _ _ _ _ _ _ hph hu =>
    have hp := pending_none_of_undo (ho.inv.trx_ok x hx) hph
    refine clear ho hi' hx hv0 rfl rfl rfl ?_ ?_
    · simp only [Trx.creates, hp, hu, filterMap_cons, Undo.created, nil_append]
    intro _ _ hg
    rw [holds_iff] at hg ⊢
    simp only [Trx.marks, hu, filterMap_cons, Undo.marked] at hg ⊢
    exact .inl hg
  | undoMark _ _ _ _ _ _ _ hu hv =>
    refine mark ho hi' hx hv0 rfl rfl rfl hv ?_ ?_
    · simp only [Trx.creates, hu, filterMap_cons, Undo.created]
    intro _ _ hg
    rw [holds_iff] at hg ⊢
    simp only [Trx.marks, hu, filterMap_cons, Undo.marked, mem_cons] at hg ⊢
    exact .inl (hg.imp_left .inr)
  | removeOpen => exact { ho with inv := hi' }
  | finishRollback | commitFinish => exact drop ho hi'
  | _ => exact quiet ho hi' hx hv0 rfl rfl rfl rfl rfl

theorem creates_nil (hu : x.undo = []) (hp : x.pending = none) : x.creates = [] := by
  simp [Trx.creates, hu, hp]

/-- Everyone has written nothing, so the pages may change in any way. -/
theorem idle (ho : Owned s) (hi' : Inv s') (htrxs : s'.trxs = s.trxs)
    (hidle : ∀ x ∈ s.trxs, x.undo = [] ∧ x.pending = none) : Owned s' := by
  refine ⟨hi', htrxs ▸ ho.locks, ?_, htrxs ▸ ho.nodup, fun _ => htrxs ▸ hidle⟩
  intro x hx _ he
  rw [htrxs] at hx
  rw [creates_nil (hidle x hx).1 (hidle x hx).2] at he
  cases he

theorem idle_of_exclusive {id : Nat} (h : s.exclusive id = true) :
    ∀ x ∈ s.trxs, x.undo = [] ∧ x.pending = none := by
  rcases Db.exclusive_cases s h with ⟨_, ⟨htrxs, _, hu, hp⟩, _⟩
  intro _ hx
  rw [htrxs, mem_singleton] at hx
  rw [hx]
  exact ⟨hu, hp⟩

/-- Every step keeps ownership. -/
theorem step {l : Label} (ho : Owned s) (h : s.step l = some s') : Owned s' := by
  have hi' := ho.inv.step h
  have hbusy : ∀ w, s.vacuum = some w → ∀ x ∈ s.trxs, x.undo = [] ∧ x.pending = none :=
    fun w hw => ho.vacuum (by rw [hw]; simp)
  cases Db.step_cases h with
  | begin hv =>
    have hfresh : ∀ f rid, ¬ (Trx.fresh s.tm.nextId).holds f rid = true := by
      intro f rid
      simp [Trx.holds, Trx.fresh]
    refine ⟨hi', ?_, ?_, ?_, fun hne => absurd hv hne⟩
    · intro x hx y hy hne f rid hxh hyh
      rcases mem_cons.mp hx with rfl | hx
      · exact hfresh f rid hxh
      · rcases mem_cons.mp hy with rfl | hy
        · exact hfresh f rid hyh
        · exact ho.locks x hx y hy hne f rid hxh hyh
    · exact forall_mem_cons.mpr ⟨forall_mem_nil _, ho.created⟩
    · exact forall_mem_cons.mpr ⟨nodup_nil, ho.nodup⟩
  | trx _ _ _ hv hx hstep => exact trxStep ho hv hx hstep
  | createTable _ _ _ he | dropTable _ _ _ he | vacuumBegin _ _ he =>
    exact idle ho hi' rfl (idle_of_exclusive he)
  | vacuumDelete _ _ _ _ hw | vacuumUnmark _ _ _ _ hw | vacuumKeep _ _ _ _ hw
  | vacuumHorizon hw | vacuumSave hw => exact idle ho hi' rfl (hbusy _ hw)
  | crash _ hre =>
    have hr := Db.reopened_of_reopen hre
    refine ⟨hi', ?_, ?_, ?_, fun hne => absurd hr.vacuum hne⟩ <;>
      simp [hr.trxs]
  | _ => exact { ho with inv := hi' }

theorem fresh (inlineLimit : Nat) : Owned (Db.fresh inlineLimit) where
  inv := Inv.fresh inlineLimit
  locks := nofun
  created := nofun
  nodup := nofun
  vacuum := fun h => absurd rfl h

end Owned

end ChibiDb
