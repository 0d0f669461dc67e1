import ChibiDb.Theory.DbSteps

/-!
# Redo, One Slot at a Time

Redo works record by record on whole heaps, but each record touches one slot
and looks at nothing else. So what recovery leaves in a slot is a fold of the
records over what the disk had there, and the fold has a simple shape: the first
insert fills an empty slot, and the first mark sticks.

## Main definitions

* `redoSlot`: What redoing one record does to one slot.
* `markAt`, `insertAt`: The records about one slot.

## Theorems

* `get_redo`: Redo is the fold, slot by slot.
* `foldl_marked`, `foldl_unmarked`, `foldl_first_mark`: The fold over a record
  that is there.
* `foldl_none`: The fold over an empty slot.
* `foldl_origin`: Where the record in a slot comes from in the end.
-/

namespace ChibiDb

open List Option

/-- What redoing a record does to the slot `rid` of table file `f`. -/
def redoSlot (f : Nat) (rid : Rid) (w : Option Version) : Record Version → Option Version
  | .insert g q v => if g = f ∧ q = rid then some (w.getD v) else w
  | .deleteMark g q d n =>
    if g = f ∧ q = rid then
      w.map (fun x => if x.deleter = 0 then { x with deleter := d, nextRid := n } else x)
    else w
  | .commit => w

/-- A delete mark on a slot. -/
def markAt (f : Nat) (rid : Rid) : Record Version → Bool
  | .deleteMark g q _ _ => decide (g = f ∧ q = rid)
  | _ => false

/-- An insert into a slot. -/
def insertAt (f : Nat) (rid : Rid) : Record Version → Bool
  | .insert g q _ => decide (g = f ∧ q = rid)
  | _ => false

theorem markAt_iff (f : Nat) (rid : Rid) (r : Record Version) :
    markAt f rid r = true ↔ ∃ d n, r = .deleteMark f rid d n := by
  cases r <;> simp [markAt]

theorem insertAt_iff (f : Nat) (rid : Rid) (r : Record Version) :
    insertAt f rid r = true ↔ ∃ v, r = .insert f rid v := by
  cases r <;> simp [insertAt]

variable {f lim : Nat} {r : Record Version} {rid : Rid} {h' : Heap} {layout : Layout}
  {tables : List Table} {rs : List (Record Version)} {x : Version}

/-- A record about another slot, or a commit record, leaves this slot alone. -/
theorem redoSlot_other (w : Option Version) (hm : markAt f rid r = false)
    (hi : insertAt f rid r = false) : redoSlot f rid w r = w := by
  cases r with
  | insert => exact if_neg (of_decide_eq_false hi)
  | deleteMark => exact if_neg (of_decide_eq_false hm)
  | commit => rfl

/-- Replay acts on each slot by itself. -/
theorem get_redoOne {h : Heap} (rid : Rid) (hl : layoutOf tables f = some layout)
    (hr : redoOne lim tables h r = some h') : h'.get f rid = redoSlot f rid (h.get f rid) r := by
  have hf : (layoutOf tables f).isSome = true := by rw [hl]; rfl
  cases Db.redoOne_cases hr with
  | skip hs =>
    cases r with
    | insert =>
      rw [redoSlot]
      split
      · next he =>
        rcases he with ⟨rfl, rfl⟩
        rcases isSome_iff_exists.mp (hs hf) with ⟨w, hw⟩
        rw [hw, getD_some]
      · rfl
    | deleteMark g q =>
      rw [redoSlot]
      split
      · next he =>
        rcases he with ⟨rfl, rfl⟩
        cases hv : h'.get g q with
        | none => rfl
        | some v => rw [map_some, if_neg (hs hf v hv)]
      · rfl
    | commit => rfl
  | fill _ hfree =>
    rw [redoSlot, Heap.get_setSlot]
    split
    · next he =>
      rcases he with ⟨rfl, rfl⟩
      rw [if_pos ⟨rfl, rfl⟩, hfree, getD_none]
    · next he => rw [if_neg (fun h => he ⟨h.1.symm, h.2.symm⟩)]
  | mark _ hv hd =>
    rw [redoSlot, Heap.get_setSlot]
    split
    · next he =>
      rcases he with ⟨rfl, rfl⟩
      rw [if_pos ⟨rfl, rfl⟩, hv, map_some, if_pos hd]
    · next he => rw [if_neg (fun h => he ⟨h.1.symm, h.2.symm⟩)]

/-- Redo is a fold of the records over each slot of a table. -/
theorem get_redo (h : Heap) (rid : Rid) (hl : layoutOf tables f = some layout)
    (hr : redo lim tables rs h = some h') :
    h'.get f rid = rs.foldl (redoSlot f rid) (h.get f rid) := by
  induction rs generalizing h with
  | nil =>
    simp only [redo, some.injEq] at hr
    rw [← hr, foldl_nil]
  | cons r _ ih =>
    rcases Db.redo_cons hr with ⟨g, hone, hrest⟩
    rw [ih g hrest, get_redoOne rid hl hone, foldl_cons]

/-- A slot with a deleter is left as it is. -/
theorem redoSlot_marked (f : Nat) (rid : Rid) (r : Record Version) (hx : x.deleter ≠ 0) :
    redoSlot f rid (some x) r = some x := by
  cases r <;> simp [redoSlot, hx]

/-- A record that carries a mark is not changed any more. -/
theorem foldl_marked (f : Nat) (rid : Rid) (rs : List (Record Version)) (hx : x.deleter ≠ 0) :
    rs.foldl (redoSlot f rid) (some x) = some x := by
  induction rs with
  | nil => rfl
  | cons r _ ih => rw [foldl_cons, redoSlot_marked f rid r hx, ih]

/-- Without a mark for the slot the record in it stays as it is. -/
theorem foldl_unmarked {f : Nat} {rid : Rid} (x : Version) {rs : List (Record Version)}
    (hrs : ∀ r ∈ rs, markAt f rid r = false) : rs.foldl (redoSlot f rid) (some x) = some x := by
  induction rs with
  | nil => rfl
  | cons r _ ih =>
    have hone : redoSlot f rid (some x) r = some x := by
      cases hi : insertAt f rid r with
      | false => exact redoSlot_other _ (hrs r mem_cons_self) hi
      | true =>
        rcases (insertAt_iff f rid r).mp hi with ⟨_, rfl⟩
        simp [redoSlot]
    rw [foldl_cons, hone, ih (forall_mem_cons.mp hrs).2]

/-- The first mark for a slot sticks to an unmarked record. -/
theorem foldl_first_mark (hx : x.deleter = 0)
    (hd : ∀ g q d n, Record.deleteMark g q d n ∈ rs → d ≠ 0)
    (hrs : ∃ r ∈ rs, markAt f rid r = true) :
    ∃ d n, Record.deleteMark f rid d n ∈ rs ∧
      rs.foldl (redoSlot f rid) (some x) = some { x with deleter := d, nextRid := n } := by
  induction rs with
  | nil =>
    rcases hrs with ⟨r, hr, _⟩
    cases hr
  | cons r rs ih =>
    cases hm : markAt f rid r with
    | true =>
      rcases (markAt_iff f rid r).mp hm with ⟨d, n, rfl⟩
      refine ⟨d, n, mem_cons_self, ?_⟩
      rw [foldl_cons]
      simp only [redoSlot, and_self, if_true, map_some, if_pos hx]
      exact foldl_marked f rid rs (hd f rid d n mem_cons_self)
    | false =>
      have hrest : ∃ q ∈ rs, markAt f rid q = true := by
        rcases hrs with ⟨q, hq, hqm⟩
        rcases mem_cons.mp hq with rfl | hq
        · exact absurd (hm.symm.trans hqm) Bool.false_ne_true
        · exact ⟨q, hq, hqm⟩
      have hone : redoSlot f rid (some x) r = some x :=
        @foldl_unmarked f rid x [r] (forall_mem_singleton.mpr hm)
      rcases ih (fun g q d n h => hd g q d n (mem_cons_of_mem r h)) hrest with
        ⟨d, n, hmem, heq⟩
      exact ⟨d, n, mem_cons_of_mem r hmem, by rw [foldl_cons, hone, heq]⟩

/-- Nothing fills an empty slot but an insert. -/
theorem foldl_none (hrs : ∀ r ∈ rs, insertAt f rid r = false) :
    rs.foldl (redoSlot f rid) none = none := by
  induction rs with
  | nil => rfl
  | cons r _ ih =>
    have hone : redoSlot f rid none r = none := by
      cases hm : markAt f rid r with
      | false => exact redoSlot_other _ hm (hrs r mem_cons_self)
      | true =>
        rcases (markAt_iff f rid r).mp hm with ⟨_, _, rfl⟩
        simp [redoSlot]
    rw [foldl_cons, hone, ih (forall_mem_cons.mp hrs).2]

/-- What stands in a slot at the end was there before, or an insert put it there; its mark was there
    before too, or a mark record put it there. -/
theorem foldl_origin (w : Option Version) {v : Version} (h : rs.foldl (redoSlot f rid) w = some v) :
    (∃ x, (w = some x ∨ Record.insert f rid x ∈ rs) ∧ v.creator = x.creator ∧ v.row = x.row ∧
      (v.deleter = x.deleter ∨ ∃ n, Record.deleteMark f rid v.deleter n ∈ rs)) := by
  induction rs generalizing w with
  | nil => exact ⟨v, .inl h, rfl, rfl, .inl rfl⟩
  | cons r rs ih =>
    rcases ih (redoSlot f rid w r) h with ⟨x, hx, hc, hrow, hd⟩
    have hd' : v.deleter = x.deleter ∨ ∃ n, Record.deleteMark f rid v.deleter n ∈ r :: rs :=
      hd.imp_right (fun ⟨n, hn⟩ => ⟨n, mem_cons_of_mem r hn⟩)
    rcases hx with hx | hx
    · cases r with
      | commit => exact ⟨x, .inl hx, hc, hrow, hd'⟩
      | insert g q =>
        by_cases hs : g = f ∧ q = rid
        · rcases hs with ⟨rfl, rfl⟩
          simp only [redoSlot, and_self, if_true, some.injEq] at hx
          cases w with
          | none => exact ⟨x, .inr (hx ▸ mem_cons_self), hc, hrow, hd'⟩
          | some => exact ⟨x, .inl (congrArg some hx), hc, hrow, hd'⟩
        · rw [redoSlot, if_neg hs] at hx
          exact ⟨x, .inl hx, hc, hrow, hd'⟩
      | deleteMark g q _ n =>
        by_cases hs : g = f ∧ q = rid
        · rcases hs with ⟨rfl, rfl⟩
          simp only [redoSlot, and_self, if_true, map_eq_some_iff] at hx
          rcases hx with ⟨z, hz, rfl⟩
          by_cases hzd : z.deleter = 0
          · rw [if_pos hzd] at hc hrow hd'
            exact ⟨z, .inl hz, hc, hrow, .inr (hd'.elim (fun h => ⟨n, h ▸ mem_cons_self⟩) id)⟩
          · rw [if_neg hzd] at hc hrow hd'
            exact ⟨z, .inl hz, hc, hrow, hd'⟩
        · rw [redoSlot, if_neg hs] at hx
          exact ⟨x, .inl hx, hc, hrow, hd'⟩
    · exact ⟨x, .inr (mem_cons_of_mem r hx), hc, hrow, hd'⟩

end ChibiDb
