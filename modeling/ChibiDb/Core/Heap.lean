import ChibiDb.Core.Codec
import ChibiDb.Data.SetAt
import Mathlib.Data.List.GetD

/-!
# Heap Files

A table is a file of pages and a page is a directory of slots. A slot is empty
or holds one record, and keeps its number for as long as the page lives, so a
row id stays good until its slot is emptied and reused.

The two page layouts differ in what a page of records costs in bytes, and so in
when it is full; `Page.used` is that cost for each. An insert takes the lowest
empty slot, or a new one at the end.

A heap is the content of every table file, either as the buffer pool sees it or
as it stands on disk.

## Main definitions

* `Layout`, `Page`, `Page.used`: The page layouts and the bytes a page takes.
* `Heap`, `Heap.get`: All table files, and the record at a row id.
* `Heap.insert`, `Heap.insertAt`, `Heap.delete`, `Heap.deleteMark`: The record
  operations of the storage engine.
* `Heap.copyPage`: A page carried over from another heap.
* `Heap.scan`: The row ids of a table's records.
* `Heap.versions`, `Heap.All`: All records, and a property of them.

## Theorems

* `Heap.get_setSlot`, `Heap.get_copyPage`: What is read after a write.
* `Heap.mem_scan_iff`, `Heap.mem_versions_iff`: Both find every record.
-/

namespace ChibiDb

open List Option

/-- The bytes of a page. -/
def pageSize : Nat := 8192

/-- How a page keeps its records: whole, or split into one segment per column.
    The column count of a split page is that of its table. -/
inductive Layout where
  | row
  | pax (ncols : Nat)
  deriving DecidableEq, Repr

/-- A page: one entry per slot of its directory. -/
abbrev Page := List (Option Version)

/-- The bytes of a slot's record on a page kept by rows. -/
def slotBytes (inlineLimit : Nat) : Option Version → Nat
  | none => 0
  | some v => v.size inlineLimit

/-- The bytes of a slot's values on a page kept by columns, where the header
    has its own segment and the column count of the row is dropped. -/
def slotValueBytes (inlineLimit : Nat) : Option Version → Nat
  | none => 0
  | some v => (v.row.map (encodedValueSize inlineLimit)).sum

namespace Page

/-- The bytes a page takes: header, directory and records for rows; header,
    segment directory, version segment, offsets and values for columns. -/
def used (layout : Layout) (inlineLimit : Nat) (p : Page) : Nat :=
  match layout with
  | .row => 4 + 4 * p.length + (p.map (slotBytes inlineLimit)).sum
  | .pax ncols =>
    16 + 4 * (ncols + 1) + recordHeader * p.length + ncols * (2 * (p.length + 1)) +
      (p.map (slotValueBytes inlineLimit)).sum

/-- The slot an insert takes: the lowest empty one, else a new one. -/
def freeSlot (p : Page) : Nat := p.findIdx (fun o => o.isNone)

/-- The slots in use. -/
def live (p : Page) : List Nat :=
  (range p.length).filter (fun i => (p.getD i none).isSome)

end Page

/-- Whether a layout can hold a row at all. -/
def Layout.accepts (layout : Layout) (row : Row) : Bool :=
  match layout with
  | .row => true
  | .pax ncols => decide (row.length = ncols)

/-- The pages of every table file, by file number and page number. Page 0 of a
    file is its header and holds no record. -/
abbrev Heap := List (List Page)

namespace Heap

/-- The pages of a file. -/
def file (h : Heap) (f : Nat) : List Page := h.getD f []

/-- A page; one that is missing reads as empty. -/
def page (h : Heap) (f p : Nat) : Page := (h.file f).getD p []

/-- The record at a row id of a file. -/
def get (h : Heap) (f : Nat) (rid : Rid) : Option Version :=
  (h.page f rid.pageNo).getD rid.slot none

/-- Replace all pages of a file. -/
def setFile (h : Heap) (f : Nat) (ps : List Page) : Heap := setAt [] h f ps

/-- Replace a page. -/
def setPage (h : Heap) (f p : Nat) (pg : Page) : Heap := h.setFile f (setAt [] (h.file f) p pg)

/-- Replace what a slot holds. -/
def setSlot (h : Heap) (f : Nat) (rid : Rid) (o : Option Version) : Heap :=
  h.setPage f rid.pageNo (setAt none (h.page f rid.pageNo) rid.slot o)

/-- Carry a page over from another heap, as a write-back does. -/
def copyPage (h src : Heap) (f p : Nat) : Heap := h.setPage f p (src.page f p)

/-- Put a record in the free slot of a page, if the page can take it. -/
def insert (h : Heap) (layout : Layout) (inlineLimit f p : Nat) (v : Version) :
    Option (Rid × Heap) :=
  let rid : Rid := ⟨p, (h.page f p).freeSlot⟩
  let h' := h.setSlot f rid (some v)
  if layout.accepts v.row ∧ (h'.page f p).used layout inlineLimit ≤ pageSize then some (rid, h')
  else none

/-- Put a record back at the row id it had, unless something is there already.
    Fails when the page has no room for it. -/
def insertAt (h : Heap) (layout : Layout) (inlineLimit f : Nat) (rid : Rid) (v : Version) :
    Option Heap :=
  if (h.get f rid).isSome then some h
  else
    let h' := h.setSlot f rid (some v)
    if layout.accepts v.row ∧ (h'.page f rid.pageNo).used layout inlineLimit ≤ pageSize then some h'
    else none

/-- Empty a slot that is in use. -/
def delete (h : Heap) (f : Nat) (rid : Rid) : Option Heap :=
  match h.get f rid with
  | none => none
  | some _ => some (h.setSlot f rid none)

/-- Rewrite the deleter and the forward pointer of a record in place. -/
def deleteMark (h : Heap) (f : Nat) (rid : Rid) (deleter nextRid : Nat) : Option Heap :=
  match h.get f rid with
  | none => none
  | some v => some (h.setSlot f rid (some { v with deleter := deleter, nextRid := nextRid }))

/-- The row ids of the records of a file, page by page. -/
def scan (h : Heap) (f : Nat) : List Rid :=
  (range (h.file f).length).flatMap (fun p => (h.page f p).live.map (fun i => ⟨p, i⟩))

/-- Every version on every page. -/
def versions (h : Heap) : List Version := h.flatten.flatten.filterMap id

theorem file_setFile (h : Heap) (f g : Nat) (ps : List Page) :
    (h.setFile f ps).file g = if g = f then ps else h.file g := by
  exact getD_setAt _ _ _ _ _

theorem page_setFile (h : Heap) (f g p : Nat) (ps : List Page) :
    (h.setFile f ps).page g p = if g = f then ps.getD p [] else h.page g p := by
  unfold page
  rw [file_setFile]
  split <;> rfl

/-- Writing a page changes that page only. -/
theorem page_setPage (h : Heap) (f p g q : Nat) (pg : Page) :
    (h.setPage f p pg).page g q = if g = f ∧ q = p then pg else h.page g q := by
  unfold setPage
  rw [page_setFile]
  by_cases hg : g = f
  · rw [if_pos hg, getD_setAt, hg]
    simp only [true_and]
    rfl
  · rw [if_neg hg, if_neg (fun h => hg h.1)]

/-- Writing a slot changes that slot only. -/
@[simp] theorem get_setSlot (h : Heap) (f g : Nat) (rid r : Rid) (o : Option Version) :
    (h.setSlot f rid o).get g r = if g = f ∧ r = rid then o else h.get g r := by
  unfold setSlot get
  rw [page_setPage]
  by_cases hp : g = f ∧ r.pageNo = rid.pageNo
  · rw [if_pos hp, getD_setAt, hp.1]
    have hr : (r.slot = rid.slot) ↔ (f = f ∧ r = rid) := by
      cases r
      cases rid
      simp_all
    simp only [hr, hp.2]
  · rw [if_neg hp, if_neg]
    intro hs
    exact hp ⟨hs.1, by rw [hs.2]⟩

theorem get_setSlot_self (h : Heap) (f : Nat) (rid : Rid) (o : Option Version) :
    (h.setSlot f rid o).get f rid = o := by
  rw [get_setSlot, if_pos ⟨rfl, rfl⟩]

theorem get_setSlot_ne (h : Heap) {f g : Nat} {rid r : Rid} (o : Option Version)
    (hne : (g, r) ≠ (f, rid)) : (h.setSlot f rid o).get g r = h.get g r := by
  rw [get_setSlot, if_neg]
  intro he
  exact hne (Prod.ext he.1 he.2)

/-- A version read after a write is the one written, or was there before. -/
theorem get_setSlot_cases {h : Heap} {f g : Nat} {rid r : Rid} {o : Option Version} {v : Version}
    (hv : (h.setSlot f rid o).get g r = some v) :
    (g = f ∧ r = rid ∧ o = some v) ∨ ((g, r) ≠ (f, rid) ∧ h.get g r = some v) := by
  by_cases he : (g, r) = (f, rid)
  · cases he
    exact .inl ⟨rfl, rfl, get_setSlot_self h f rid o ▸ hv⟩
  · rw [get_setSlot_ne _ _ he] at hv
    exact .inr ⟨he, hv⟩

/-- Copying a page takes its slots from the source and leaves the others. -/
@[simp] theorem get_copyPage (h src : Heap) (f p g : Nat) (r : Rid) :
    (h.copyPage src f p).get g r = if g = f ∧ r.pageNo = p then src.get g r else h.get g r := by
  unfold copyPage get
  rw [page_setPage]
  split
  · next hp => rw [hp.1, hp.2]
  · rfl

theorem get_setFile (h : Heap) (f g : Nat) (ps : List Page) (r : Rid) :
    (h.setFile f ps).get g r =
      if g = f then (ps.getD r.pageNo []).getD r.slot none else h.get g r := by
  unfold get
  rw [page_setFile]
  split <;> rfl

variable {f : Nat} {h h' : Heap} {rid : Rid} {P : Version → Prop}

/-- What an insert that succeeds has done: a free slot filled, the layout met. -/
theorem insert_eq_some {layout : Layout} {lim p : Nat} {v : Version}
    (hi : h.insert layout lim f p v = some (rid, h')) :
    rid = ⟨p, (h.page f p).freeSlot⟩ ∧ h' = h.setSlot f rid (some v) ∧ layout.accepts v.row := by
  simp only [insert, ite_some_none_eq_some, Prod.mk.injEq] at hi
  obtain ⟨⟨hacc, -⟩, rfl, rfl⟩ := hi
  exact ⟨rfl, rfl, hacc⟩

/-- What a delete that succeeds has done. -/
theorem delete_eq_some (hd : h.delete f rid = some h') :
    ∃ v, h.get f rid = some v ∧ h' = h.setSlot f rid none := by
  unfold delete at hd
  split at hd
  · cases hd
  · next v hv =>
    cases hd
    exact ⟨v, hv, rfl⟩

/-- What a delete mark that succeeds has done: deleter and successor set. -/
theorem deleteMark_eq_some {d n : Nat} (hd : h.deleteMark f rid d n = some h') :
    ∃ v, h.get f rid = some v ∧
      h' = h.setSlot f rid (some { v with deleter := d, nextRid := n }) := by
  unfold deleteMark at hd
  split at hd
  · cases hd
  · next v hv =>
    cases hd
    exact ⟨v, hv, rfl⟩

/-- The slot an insert takes is empty: it is past the directory or free in it. -/
theorem get_freeSlot (h : Heap) (f p : Nat) : h.get f ⟨p, (h.page f p).freeSlot⟩ = none := by
  unfold get
  simp only [Page.freeSlot]
  by_cases hlt : (h.page f p).findIdx (fun o => o.isNone) < (h.page f p).length
  · rw [getD_eq_getElem _ _ hlt]
    exact isNone_iff_eq_none.mp (findIdx_getElem (w := hlt))
  · exact getD_eq_default _ _ (by omega)

theorem mem_live_iff (p : Page) (i : Nat) : i ∈ p.live ↔ (p.getD i none).isSome := by
  unfold Page.live
  simp only [mem_filter, mem_range, and_iff_right_iff_imp]
  intro h
  by_contra hlt
  rw [getD_eq_getElem?_getD, getElem?_eq_none (by omega)] at h
  exact Bool.false_ne_true h

/-- A scan visits exactly the occupied slots. -/
theorem mem_scan_iff (h : Heap) (f : Nat) (rid : Rid) :
    rid ∈ h.scan f ↔ (h.get f rid).isSome := by
  unfold scan get
  simp only [mem_flatMap, mem_range, List.mem_map, mem_live_iff]
  constructor
  · intro hr
    obtain ⟨_, -, _, hi, rfl⟩ := hr
    exact hi
  intro hs
  refine ⟨rid.pageNo, ?_, rid.slot, hs, rfl⟩
  by_contra hlt
  unfold page at hs
  rw [getD_eq_default (h.file f) _ (by omega)] at hs
  simp at hs

theorem getD_mem_or {α : Type} (xs : List α) (i : Nat) (d : α) :
    xs.getD i d ∈ xs ∨ xs.getD i d = d := by
  by_cases hi : i < xs.length
  · rw [getD_eq_getElem _ _ hi]
    exact .inl (getElem_mem hi)
  · exact .inr (getD_eq_default _ _ (by omega))

theorem mem_iff_getD {α : Type} (xs : List (List α)) (a : α) :
    a ∈ xs.flatten ↔ ∃ i, a ∈ xs.getD i [] := by
  rw [mem_flatten]
  constructor
  · intro h
    rcases h with ⟨_, hys, ha⟩
    rcases mem_iff_getElem.mp hys with ⟨i, hi, rfl⟩
    exact ⟨i, by rwa [getD_eq_getElem _ _ hi]⟩
  · intro h
    rcases h with ⟨i, ha⟩
    rcases getD_mem_or xs i [] with hmem | hnil
    · exact ⟨_, hmem, ha⟩
    · rw [hnil] at ha
      cases ha

/-- The records of a heap are what its row ids hold. -/
theorem mem_versions_iff (h : Heap) (v : Version) :
    v ∈ h.versions ↔ ∃ f rid, h.get f rid = some v := by
  unfold versions get page file
  rw [mem_filterMap]
  constructor
  · intro hv
    rcases hv with ⟨o, ho, hid⟩
    rw [id_eq] at hid
    rcases mem_flatten.mp ho with ⟨_, hpage, ho⟩
    rcases (mem_iff_getD h _).mp hpage with ⟨f, hf⟩
    rcases mem_iff_getElem.mp hf with ⟨q, hq, rfl⟩
    rcases mem_iff_getElem.mp ho with ⟨i, hi, hoi⟩
    refine ⟨f, ⟨q, i⟩, ?_⟩
    rw [getD_eq_getElem _ _ hq, getD_eq_getElem _ _ hi, hoi, hid]
  · intro hv
    rcases hv with ⟨f, rid, hg⟩
    refine ⟨some v, ?_, rfl⟩
    have hslot : some v ∈ (h.getD f []).getD rid.pageNo [] := by
      have hor := getD_mem_or ((h.getD f []).getD rid.pageNo []) rid.slot none
      rw [hg] at hor
      exact hor.resolve_right nofun
    have hpage : (h.getD f []).getD rid.pageNo [] ∈ h.flatten := by
      rw [mem_iff_getD]
      refine ⟨f, (getD_mem_or _ rid.pageNo []).resolve_right (fun hnil => ?_)⟩
      rw [hnil] at hslot
      cases hslot
    exact mem_flatten.mpr ⟨_, hpage, hslot⟩

/-- Every record has a property. -/
def All (P : Version → Prop) (h : Heap) : Prop := ∀ f rid v, h.get f rid = some v → P v

/-- A property of every slot is one of every stored version. -/
theorem all_iff_versions (P : Version → Prop) (h : Heap) : All P h ↔ ∀ v ∈ h.versions, P v := by
  constructor
  · intro hall v hv
    rcases (mem_versions_iff h v).mp hv with ⟨f, rid, hg⟩
    exact hall f rid v hg
  · intro hall f rid v hg
    exact hall v ((mem_versions_iff h v).mpr ⟨f, rid, hg⟩)

/-- A slot written with a good version keeps a property of all versions. -/
theorem all_setSlot (f : Nat) (rid : Rid) {o : Option Version} (hall : All P h)
    (ho : ∀ v, o = some v → P v) : All P (h.setSlot f rid o) := by
  intro g r v hg
  rcases get_setSlot_cases hg with ⟨_, _, hg⟩ | ⟨_, hg⟩
  · exact ho v hg
  · exact hall g r v hg

theorem all_clearSlot (f : Nat) (rid : Rid) (hall : All P h) : All P (h.setSlot f rid none) :=
  all_setSlot f rid hall
    nofun

theorem all_nil (P : Version → Prop) : All P [] := by
  intro _ _ _ hg
  simp [get, page, file] at hg

theorem all_copyPage {src : Heap} (f p : Nat) (hall : All P h) (hsrc : All P src) :
    All P (h.copyPage src f p) := by
  intro g r v hg
  rw [get_copyPage] at hg
  split at hg
  · exact hsrc g r v hg
  · exact hall g r v hg

/-- A file that is created or dropped holds no record. -/
theorem all_setFile (f : Nat) {ps : List Page} (hps : ∀ p ∈ ps, p = []) (hall : All P h) :
    All P (h.setFile f ps) := by
  intro g r v hg
  rw [get_setFile] at hg
  split at hg
  · rw [(getD_mem_or ps r.pageNo []).elim (hps _) id, getD_nil] at hg
    cases hg
  · exact hall g r v hg

end Heap

end ChibiDb
