import ChibiDb.Theory.RedoSlot

/-!
# Redo a Second Time

Recovery can die after it has redone the log and before the log is cut. By then
some of the pages it changed have reached the disk, and the next open redoes the
same log over a mixture of old and recovered pages.

An old page goes the same way again. On a recovered page each logged insert
finds its slot taken, and a mark finds its record gone or marked, unless the
mark came before the insert: then the first redo had nothing to mark, and the
second one marks the wrong record. So what is needed of the log is that no
insert into a slot follows a mark on it.

## Main definitions

* `MarksLast`: No insert into a slot follows a mark on it.
* `Mixed`: Some pages from one heap, the others from another.

## Theorems

* `redoOne_mixed`: One record over a mixture of pages.
* `redo_again`: Redo over such a mixture ends where it ended before.
-/

namespace ChibiDb

open List Option

/-- No insert into a slot follows a mark on it. -/
def MarksLast (rs : List (Record Version)) : Prop :=
  rs.Pairwise (fun a b => ∀ f rid, markAt f rid a = true → insertAt f rid b = false)

/-- The pages in `W` are those of `g`, the others those of `h`. -/
def Mixed (W : Nat → Nat → Prop) (h g m : Heap) : Prop :=
  ∀ f p, (W f p → m.page f p = g.page f p) ∧ (¬ W f p → m.page f p = h.page f p)

variable {f : Nat} {g h m : Heap} {rid : Rid} {rs : List (Record Version)}

theorem get_congr_page (hp : h.page f rid.pageNo = g.page f rid.pageNo) :
    h.get f rid = g.get f rid := by
  unfold Heap.get
  rw [hp]

theorem page_setSlot_self (h : Heap) (f : Nat) (rid : Rid) (o : Option Version) :
    (h.setSlot f rid o).page f rid.pageNo = setAt none (h.page f rid.pageNo) rid.slot o := by
  unfold Heap.setSlot
  rw [Heap.page_setPage, if_pos ⟨rfl, rfl⟩]

theorem page_setSlot_ne (h : Heap) {g p : Nat} (o : Option Version)
    (hne : ¬ (g = f ∧ p = rid.pageNo)) : (h.setSlot f rid o).page g p = h.page g p := by
  unfold Heap.setSlot
  rw [Heap.page_setPage, if_neg hne]

/-- A slot written on an old page, in the heap and in the mixture. -/
theorem mixed_setSlot {W : Nat → Nat → Prop} (o : Option Version) (hm : Mixed W h g m)
    (hold : ¬ W f rid.pageNo) : Mixed W (h.setSlot f rid o) g (m.setSlot f rid o) := by
  intro f' p
  by_cases hp : f' = f ∧ p = rid.pageNo
  · refine ⟨fun hw => absurd (hp.1 ▸ hp.2 ▸ hw) hold, fun _ => ?_⟩
    rw [hp.1, hp.2, page_setSlot_self, page_setSlot_self, (hm f rid.pageNo).2 hold]
  · rw [page_setSlot_ne _ _ hp, page_setSlot_ne _ _ hp]
    exact hm f' p

/-- A slot written on a page that the mixture has from elsewhere. -/
theorem mixed_setSlot_left {W : Nat → Nat → Prop} (o : Option Version) (hm : Mixed W h g m)
    (hnew : W f rid.pageNo) : Mixed W (h.setSlot f rid o) g m := by
  intro f' p
  refine ⟨(hm f' p).1, fun hw => ?_⟩
  have hp : ¬ (f' = f ∧ p = rid.pageNo) := fun hp => hw (by rw [hp.1, hp.2]; exact hnew)
  rw [page_setSlot_ne _ _ hp]
  exact (hm f' p).2 hw

/-- Redo never empties a slot. -/
theorem foldl_isSome (f : Nat) (rid : Rid) (rs : List (Record Version)) (w : Option Version)
    (h : w.isSome = true) : (rs.foldl (redoSlot f rid) w).isSome = true := by
  induction rs generalizing w with
  | nil => exact h
  | cons r _ ih =>
    refine ih _ ?_
    cases r with
    | insert | deleteMark =>
      simp only [redoSlot]
      split_ifs <;> simp [h]
    | commit => exact h

/-- After an insert into it a slot is taken. -/
theorem foldl_insert_isSome (f : Nat) (rid : Rid) (v : Version) (rs : List (Record Version))
    (w : Option Version) :
    ((Record.insert f rid v :: rs).foldl (redoSlot f rid) w).isSome = true := by
  rw [foldl_cons]
  refine foldl_isSome f rid rs _ ?_
  simp [redoSlot]

/-- After a mark a record that is there is marked, and none is put there later. -/
theorem foldl_mark_deleter {d n : Nat} {w : Option Version} (hd : d ≠ 0)
    (hrs : ∀ r ∈ rs, insertAt f rid r = false) {x : Version}
    (h : (Record.deleteMark f rid d n :: rs).foldl (redoSlot f rid) w = some x) :
    x.deleter ≠ 0 := by
  rw [foldl_cons] at h
  simp only [redoSlot, and_self, if_true] at h
  cases w with
  | none =>
    rw [map_none, foldl_none hrs] at h
    cases h
  | some y =>
    rw [map_some] at h
    split_ifs at h with hy
    · cases (foldl_marked f rid rs hd).symm.trans h
      exact hd
    · cases (foldl_marked f rid rs hy).symm.trans h
      exact hy

section Again

variable (lim : Nat) (tables : List Table) (W : Nat → Nat → Prop)

/-- A record on an old page goes as before, on a recovered page it is skipped. -/
theorem redoOne_mixed (h h' g m : Heap) (r : Record Version) (hm : Mixed W h g m)
    (hg : Db.Skipped tables g r) (hr : redoOne lim tables h r = some h') :
    ∃ m', redoOne lim tables m r = some m' ∧ Mixed W h' g m' := by
  cases r with
  | insert f rid v =>
    by_cases hw : W f rid.pageNo
    · have hget : m.get f rid = g.get f rid := get_congr_page ((hm f _).1 hw)
      refine ⟨m, Db.redoOne_of_skipped (fun hl => hget ▸ hg hl), ?_⟩
      cases Db.redoOne_cases hr with
      | skip => exact hm
      | fill => exact mixed_setSlot_left _ hm hw
    · have hpage := (hm f rid.pageNo).2 hw
      have hget : m.get f rid = h.get f rid := get_congr_page hpage
      cases Db.redoOne_cases hr with
      | skip hs => exact ⟨m, Db.redoOne_of_skipped (fun hl => hget ▸ hs hl), hm⟩
      | fill hl hfree =>
        refine ⟨_, ?_, mixed_setSlot _ hm hw⟩
        rcases isSome_iff_exists.mp hl with ⟨layout, hlayout⟩
        -- the page is the same, so there is the same room
        simp only [redoOne, hlayout, Heap.insertAt, hget, hfree, page_setSlot_self, hpage,
          isSome_none, Bool.false_eq_true, if_false, ite_some_none_eq_some] at hr ⊢
        exact ⟨hr.1, trivial⟩
  | deleteMark f rid d n =>
    by_cases hw : W f rid.pageNo
    · have hget : m.get f rid = g.get f rid := get_congr_page ((hm f _).1 hw)
      refine ⟨m, Db.redoOne_of_skipped (fun hl => hget ▸ hg hl), ?_⟩
      cases Db.redoOne_cases hr with
      | skip => exact hm
      | mark => exact mixed_setSlot_left _ hm hw
    · have hget : m.get f rid = h.get f rid := get_congr_page ((hm f _).2 hw)
      cases Db.redoOne_cases hr with
      | skip hs => exact ⟨m, Db.redoOne_of_skipped (fun hl => hget ▸ hs hl), hm⟩
      | mark hl hv hd =>
        refine ⟨_, ?_, mixed_setSlot _ hm hw⟩
        rcases isSome_iff_exists.mp hl with ⟨layout, hlayout⟩
        simp only [redoOne, hlayout, hget, hv, if_pos hd, Heap.deleteMark]
  | commit =>
    cases hr
    exact ⟨m, rfl, hm⟩

/-- The two redos side by side: the first goes from `h` to `g`, the second has its pages from `h` as
    far as the first has got, or from `g`. -/
theorem redo_mixed (rs : List (Record Version)) (h g m : Heap) (hlast : MarksLast rs)
    (hd : ∀ f rid d n, Record.deleteMark f rid d n ∈ rs → d ≠ 0) (hm : Mixed W h g m)
    (hr : redo lim tables rs h = some g) :
    ∃ m', redo lim tables rs m = some m' ∧ Mixed W g g m' := by
  induction rs generalizing h m with
  | nil =>
    simp only [redo, some.injEq] at hr
    exact ⟨m, rfl, hr ▸ hm⟩
  | cons r rs ih =>
    rcases Db.redo_cons hr with ⟨h', hone, hrest⟩
    have hslot : ∀ f rid, (layoutOf tables f).isSome = true →
        g.get f rid = (r :: rs).foldl (redoSlot f rid) (h.get f rid) := by
      intro f rid hf
      rcases isSome_iff_exists.mp hf with ⟨_, hl⟩
      exact get_redo h rid hl hr
    have hg : Db.Skipped tables g r := by
      cases r with
      | insert f rid v =>
        intro hf
        rw [hslot f rid hf]
        exact foldl_insert_isSome f rid v rs _
      | deleteMark f rid d n =>
        intro hf x hx
        rw [hslot f rid hf] at hx
        refine foldl_mark_deleter (hd f rid d n mem_cons_self) ?_ hx
        intro r hr'
        exact (pairwise_cons.mp hlast).1 r hr' f rid ((markAt_iff f rid _).mpr ⟨d, n, rfl⟩)
      | commit => exact trivial
    rcases redoOne_mixed lim tables W h h' g m r hm hg hone with ⟨m', hm', hmix⟩
    simp only [redo, hm']
    exact ih h' m' (pairwise_cons.mp hlast).2
      (fun f rid d n hmem => hd f rid d n (mem_cons_of_mem _ hmem)) hmix hrest

end Again

/-- Redo over a mixture of old and recovered pages succeeds and ends in the same records. -/
theorem redo_again {lim : Nat} {tables : List Table} (hlast : MarksLast rs)
    (hd : ∀ f rid d n, Record.deleteMark f rid d n ∈ rs → d ≠ 0)
    (hr : redo lim tables rs h = some g)
    (hpages : ∀ f p, m.page f p = h.page f p ∨ m.page f p = g.page f p) :
    ∃ m', redo lim tables rs m = some m' ∧ ∀ f rid, m'.get f rid = g.get f rid := by
  have hmix : Mixed (fun f p => m.page f p = g.page f p) h g m := by
    intro f p
    exact ⟨id, fun hne => (hpages f p).resolve_right hne⟩
  rcases redo_mixed lim tables _ rs h g m hlast hd hmix hr with ⟨m', hm', hfinal⟩
  refine ⟨m', hm', fun f rid => ?_⟩
  exact get_congr_page (by_cases (hfinal f rid.pageNo).1 (hfinal f rid.pageNo).2)

end ChibiDb
