import ChibiDb.Index.InsertRun
import ChibiDb.Index.InsertSpec

/-!
# Splits Keep the Tree

A child that is split becomes two children of its parent, and a root that is split
becomes the two children of a new root. The halves of a leaf are its keys cut in two, the
halves of an internal node its row of children.

## Theorems

* `leaf_halves`, `internal_halves`: Keys or children cut in two.
* `node_halves`: The halves of a node that is split in place.
* `split_lift`: The parent after the split of a child.
-/

namespace ChibiDb.IndexTree

open List Option

variable {κ : Type} [LinearOrder κ] {R : Rules κ}
variable {last : Bool} {lo high : Option κ} {nx : Nat → Nat}

/-- Two neighbouring trees at the pages `c` and `no`, with `sep` between them, made of the
    pages `pgs` and with the keys `ents`. Their left edge is `sp`. -/
structure Halves (R : Rules κ) (pages : Nat → IndexNode κ) (n : Nat) (last : Bool) (c no : Nat)
    (lo : Option κ) (sep : κ) (nx : Nat → Nat) (high : Option κ) (pgs : List Nat)
    (sp : Nat → Nat) (ents : List κ) : Prop where
  left : Good pages R n false c lo (spine pages n no) (some sep)
  right : Good pages R n last no (some sep) nx high
  perm : (pagesOf pages n c ++ pagesOf pages n no).Perm pgs
  spine : spine pages n c = sp
  entries : entriesOf pages n c ++ entriesOf pages n no = ents

variable {ents : List κ} {m no : Nat} {pages pages' : Nat → IndexNode κ} {e : κ × Nat}

theorem Halves.row {n c : Nat} {sep : κ}
    {pgs : List Nat} {sp : Nat → Nat}
    (h : Halves R pages n last c no lo sep nx high pgs sp ents)
    (hleft : R.node false (pages c).strip) (hright : R.node last (pages no).strip) :
    GoodRow pages R n last [(lo, c), (some sep, no)] nx high := by
  refine ⟨?_, ?_, trivial⟩
  · rw [isEmpty_cons, Bool.and_false]
    exact ⟨hleft, h.left⟩
  · rw [isEmpty_nil, Bool.and_true]
    exact ⟨hright, h.right⟩

/-- The halves of a leaf with the keys `all`. -/
theorem leaf_halves {c : Nat} {sep : κ}
    {all : List κ} (hall : LeafKeys R lo all high) (hm : 1 ≤ m)
    (hsep : all[m]? = some sep) (hleft : (pages c).strip = .leaf (all.take m) 0 no (some sep))
    (hright : (pages no).strip = .leaf (all.drop m) 0 (nx 0) high) :
    Halves R pages 0 last c no lo sep nx high [c, no] (fun _ => c) all := by
  rcases List.getElem?_eq_some_iff.mp hsep with ⟨hmlt, _⟩
  have hhead : (all.drop m).head? = some sep := by rw [head?_drop, hsep]
  have htake : all.take m ≠ [] := (take_ne_nil hmlt).mpr hm
  have hdrop : all.drop m ≠ [] := by
    rw [ne_eq, drop_eq_nil_iff]
    omega
  have hcut : R.ordered → Within lo (all.take m) (some sep) ∧
      Within (some sep) (all.drop m) high := by
    intro ho
    have hwhole : Within lo (all.take m ++ all.drop m) high := by
      rw [take_append_drop]
      exact hall.within ho
    exact hwhole.cut hhead (fun _ => htake)
  refine ⟨⟨all.take m, hleft, ?_, ?_, fun _ => htake, fun ho => (hcut ho).1⟩,
    ⟨all.drop m, hright, ?_, ?_, fun _ => hdrop, fun ho => (hcut ho).2⟩, List.Perm.refl _, rfl, ?_⟩
  · intro k hk
    rw [head?_take, if_neg (by omega)]
    exact hall.head k hk
  · intro e he
    exact hall.keys e (mem_of_mem_take he)
  · intro _ hk
    rw [hhead, hk]
  · intro e he
    exact hall.keys e (mem_of_mem_drop he)
  · rw [entriesOf_leaf hleft, entriesOf_leaf hright, take_append_drop]

/-- The halves of a row of children, under two pages. -/
theorem internal_halves {n c first : Nat}
    {es : List (κ × Nat)}
    (hrow : GoodRow pages R n last (kids lo first es) nx high) (hsep : es[m]? = some e)
    (hleft : pages' c = .internal first (es.take m) no (some e.1))
    (hright : pages' no = .internal e.2 (es.drop (m + 1)) (nx (n + 1)) high)
    (hframe : AgreeOn pages pages' (rowPages pages n (kids lo first es))) :
    Halves R pages' (n + 1) last c no lo e.1 nx high
      (c :: no :: rowPages pages n (kids lo first es))
      (fun l => if l = n + 1 then c else spine pages n first l)
      (rowEntries pages n (kids lo first es)) := by
  have htake : kids lo first (es.take m) = (kids lo first es).take (m + 1) := kids_take es m
  have hdrop : kids (some e.1) e.2 (es.drop (m + 1)) = (kids lo first es).drop (m + 1) :=
    kids_drop hsep
  have hcut : kids lo first es =
      kids lo first (es.take m) ++ kids (some e.1) e.2 (es.drop (m + 1)) := by
    rw [htake, hdrop, take_append_drop]
  rw [hcut] at hframe
  have hrow' : GoodRow pages R n last
      (kids lo first (es.take m) ++ kids (some e.1) e.2 (es.drop (m + 1))) nx high := by
    rw [← hcut]
    exact hrow
  have hagL : AgreeOn pages pages' (rowPages pages n (kids lo first (es.take m))) := by
    intro q hq
    exact hframe q (by rw [rowPages_append]; exact mem_append_left _ hq)
  have hagR : AgreeOn pages pages' (rowPages pages n (kids (some e.1) e.2 (es.drop (m + 1)))) := by
    intro q hq
    exact hframe q (by rw [rowPages_append]; exact mem_append_right _ hq)
  have hrowL := (chain_append last _ _ nx high).mp hrow'
  have hL := goodRow_congr (fun k hk q hq => hagL q (mem_rowPages hk hq)) hrowL.1
  have hR := goodRow_congr (fun k hk q hq => hagR q (mem_rowPages hk hq)) hrowL.2
  have hfirstR : spine pages' n e.2 = spine pages n e.2 :=
    nextOf_congr hagR (fun _ => 0)
  refine ⟨⟨first, es.take m, ?_, ?_⟩, ⟨e.2, es.drop (m + 1), hright, hR⟩, ?_, ?_, ?_⟩
  · rw [hleft]
    simp [spine]
  · -- On the lower levels the left edge of the new page is that of its first child.
    rw [show (kids (some e.1) e.2 (es.drop (m + 1))).isEmpty = false from rfl,
      Bool.and_false] at hL
    refine chain_end ?_ hL
    intro _ _ _ _ hp
    refine ⟨hp.1, good_neighbours ?_ hp.2⟩
    intro l _
    show spine pages' (n + 1) no l = spine pages n e.2 l
    rw [spine, if_neg (by omega), hright, ← hfirstR]
  · rw [pagesOf_internal lo hleft, pagesOf_internal (some e.1) hright, hcut]
    show ((c :: rowPages pages' n _) ++ (no :: rowPages pages' n _)).Perm _
    rw [rowPages_congr hagL, rowPages_congr hagR, rowPages_append, cons_append]
    exact List.Perm.cons c perm_middle
  · funext l
    have hfirst : spine pages' n first = spine pages n first := nextOf_congr hagL (fun _ => 0)
    simp only [spine, hleft, hfirst]
  · rw [entriesOf_internal lo hleft, entriesOf_internal (some e.1) hright, hcut]
    show rowEntries pages' n _ ++ rowEntries pages' n _ = _
    rw [rowEntries_congr hagL, rowEntries_congr hagR, rowEntries_append]

/-- The halves of an internal node that is split in place. -/
theorem node_halves {n c first : Nat}
    {es : List (κ × Nat)} (hg : Good pages R (n + 1) last c lo nx high)
    (hnd : pages c = .internal first es (nx (n + 1)) high) (hsep : es[m]? = some e)
    (hleft : pages' c = .internal first (es.take m) no (some e.1))
    (hright : pages' no = .internal e.2 (es.drop (m + 1)) (nx (n + 1)) high)
    (hframe : AgreeOn pages pages' (rowPages pages n (kids lo first es))) :
    Halves R pages' (n + 1) last c no lo e.1 nx high (pagesOf pages (n + 1) c ++ [no])
      (spine pages (n + 1) c) (entriesOf pages (n + 1) c) := by
  rcases hg with ⟨_, _, hnd', hrow⟩
  rw [hnd, IndexNode.internal.injEq] at hnd'
  rcases hnd' with ⟨rfl, rfl, _, _⟩
  have h := internal_halves hrow hsep hleft hright hframe
  refine ⟨h.left, h.right, h.perm.trans ?_, h.spine.trans ?_, h.entries.trans ?_⟩
  · rw [pagesOf_internal lo hnd]
    exact List.Perm.cons c (perm_append_comm : ([no] ++ _).Perm (_ ++ [no]))
  · funext l
    simp only [IndexTree.spine, hnd]
  · rw [entriesOf_internal lo hnd]
    rfl

section Lift

variable {f : IndexFile κ} {n p first c : Nat} {last : Bool} {lo loc : Option κ}
  {nx : Nat → Nat} {high : Option κ} {es : List (κ × Nat)} {pre post : List (Sibling κ)}
  {left right : IndexNode κ} {sep : κ}

/-- The parent with the separator of the new page behind the child that was split. -/
def splitParent (first : Nat) (es : List (κ × Nat)) (next : Nat) (high : Option κ) (i : Nat)
    (sep : κ) (no : Nat) : IndexNode κ :=
  .internal first (es.insertIdx i (sep, no)) next high

/-- The parent after the split of a child. -/
theorem split_lift {f' : IndexFile κ} (hs : Sub f R (n + 1) last p lo nx high)
    (hnd : f.pages p = .internal first es (nx (n + 1)) high)
    (hkids : kids lo first es = pre ++ (loc, c) :: post)
    (hf' : f' = (f.split c left right).setPage p
      (splitParent first es (nx (n + 1)) high pre.length sep f.count))
    (hleft : R.node false left.strip) (hright : R.node (last && post.isEmpty) right.strip)
    (hhalves : Halves R f'.pages n (last && post.isEmpty) c f.count loc sep
      (nextOf (spine f.pages n) post nx) (highOf post high) (pagesOf f.pages n c ++ [f.count])
      (spine f.pages n c) ents) :
    Good f'.pages R (n + 1) last p lo nx high ∧ Grows f f' (n + 1) p ∧
      entriesOf f'.pages (n + 1) p =
        rowEntries f.pages n pre ++ (ents ++ rowEntries f.pages n post) := by
  have hkids' : kids lo first es = pre ++ ([(loc, c)] ++ post) := hkids
  have hone : rowPages f.pages n [(loc, c)] = pagesOf f.pages n c := append_nil _
  have hcmem := self_mem_pagesOf f.pages n c
  rcases hs.child_pages hnd hkids with ⟨_, _, hpc, _⟩
  have hat : ∀ q, f'.pages q = if q = p then
      splitParent first es (nx (n + 1)) high pre.length sep f.count
      else if q = f.count then right else if q = c then left else f.pages q := by
    intro q
    rw [hf', IndexFile.setPage_pages, IndexFile.split_pages]
  have hp' : f'.pages p = .internal first (es.insertIdx pre.length (sep, f.count))
      (nx (n + 1)) high := by
    rw [hat, if_pos rfl]
    rfl
  have hc' : f'.pages c = left := by
    rw [hat, if_neg (fun h => hpc h.symm), if_neg (by omega), if_pos rfl]
  have hno' : f'.pages f.count = right := by
    rw [hat, if_neg (by omega), if_pos rfl]
  have hother : ∀ q < f.count, q ≠ p → q ≠ c → f'.pages q = f.pages q := by
    intro q hq hqp hqc
    rw [hat, if_neg hqp, if_neg (by omega), if_neg hqc]
  have hnewkids : kids lo first (es.insertIdx pre.length (sep, f.count)) =
      pre ++ ([(loc, c), (some sep, f.count)] ++ post) := kids_insertIdx hkids sep f.count
  have hrep := replace_row (cons_ne_nil _ _) (cons_ne_nil _ _)
    (row_of_good hs.good hnd) hnd hkids' hs.nodup hp' hnewkids
    (fun q hq hqp hout => by
      rw [hone] at hout
      rw [hother q (hs.inFile q hq).2 hqp (fun h => hout (h ▸ hcmem))])
    (fun _ => hhalves.spine) (fun _ => rfl)
    (hhalves.row (by rw [hc']; exact hleft) (by rw [hno']; exact hright))
  have hcount : f'.count = f.count + 1 := by rw [hf']; rfl
  refine ⟨hrep.good, ?_, ?_⟩
  · refine grows_of_perm (by rw [hf']; rfl) (by rw [hf']; rfl) (by rw [hf']; rfl) (by omega)
      hrep.old hrep.new ?_ (nodup_singleton f.count) ?_ ?_ hrep.spine
    · simp only [rowPages_cons, rowPages_nil, append_nil]
      exact hhalves.perm
    · intro q hq
      rw [mem_singleton.mp hq]
      omega
    · intro q hq hqp hout
      rw [hone] at hout
      exact hother q hq hqp (fun h => hout (h ▸ hcmem))
  · rw [hrep.entries]
    simp only [rowEntries_cons, rowEntries_nil, append_nil]
    rw [hhalves.entries]

end Lift

end ChibiDb.IndexTree
