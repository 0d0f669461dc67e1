import ChibiDb.Index.Rows

/-!
# Replacing Part of a Row

A subtree whose pages are its own, and what an update of it may do: other pages stay as
they are, new ones come from the end of the file, and the left edge keeps its pages, so
the left neighbours stay linked.

Every update of the tree exchanges a few neighbouring children of a node: one child for
itself after an insert into it, one for its two halves, or two for what is left of them.
`good_replace` puts the new children between the old ones.

## Main definitions

* `Sub`: A tree with pages of its own.
* `Grows`: An update that may add pages.
* `Replaced`: A node after some of its children were exchanged.

## Theorems

* `good_replace`, `replace_row`: New children between unchanged ones.
* `grows_of_perm`: The pages of such an update.
-/

namespace ChibiDb.IndexTree

open List Option

variable {κ : Type}
variable {pages : Nat → IndexNode κ} {n : Nat}

/-- The pages of a row of siblings and of everything below them. -/
def rowPages (pages : Nat → IndexNode κ) (n : Nat) (ks : List (Sibling κ)) : List Nat :=
  ks.flatMap (fun k => pagesOf pages n k.2)

/-- The entries below a row of siblings. -/
def rowEntries (pages : Nat → IndexNode κ) (n : Nat) (ks : List (Sibling κ)) : List κ :=
  ks.flatMap (fun k => entriesOf pages n k.2)

section Rows

variable {pages pages' : Nat → IndexNode κ} {n : Nat}

@[simp] theorem rowPages_append (ks ks' : List (Sibling κ)) :
    rowPages pages n (ks ++ ks') = rowPages pages n ks ++ rowPages pages n ks' :=
  flatMap_append

@[simp] theorem rowPages_cons (k : Sibling κ) (ks : List (Sibling κ)) :
    rowPages pages n (k :: ks) = pagesOf pages n k.2 ++ rowPages pages n ks :=
  flatMap_cons

@[simp] theorem rowPages_nil : rowPages pages n ([] : List (Sibling κ)) = [] := rfl

@[simp] theorem rowEntries_append (ks ks' : List (Sibling κ)) :
    rowEntries pages n (ks ++ ks') = rowEntries pages n ks ++ rowEntries pages n ks' :=
  flatMap_append

@[simp] theorem rowEntries_cons (k : Sibling κ) (ks : List (Sibling κ)) :
    rowEntries pages n (k :: ks) = entriesOf pages n k.2 ++ rowEntries pages n ks :=
  flatMap_cons

@[simp] theorem rowEntries_nil : rowEntries pages n ([] : List (Sibling κ)) = [] := rfl

variable {ks : List (Sibling κ)}

theorem mem_rowPages {k : Sibling κ} {q : Nat} (hk : k ∈ ks) (hq : q ∈ pagesOf pages n k.2) :
    q ∈ rowPages pages n ks :=
  mem_flatMap.mpr ⟨k, hk, hq⟩

/-- Two files agree on some pages, up to `prev` links. -/
def AgreeOn (pages pages' : Nat → IndexNode κ) (qs : List Nat) : Prop :=
  ∀ q ∈ qs, (pages' q).strip = (pages q).strip

theorem rowPages_congr (h : AgreeOn pages pages' (rowPages pages n ks)) :
    rowPages pages' n ks = rowPages pages n ks :=
  flatMap_congr fun _ hk => pagesOf_congr fun q hq => h q (mem_rowPages hk hq)

theorem rowEntries_congr (h : AgreeOn pages pages' (rowPages pages n ks)) :
    rowEntries pages' n ks = rowEntries pages n ks :=
  flatMap_congr fun _ hk => entriesOf_congr fun q hq => h q (mem_rowPages hk hq)

theorem nextOf_congr (h : AgreeOn pages pages' (rowPages pages n ks)) (nx : Nat → Nat) :
    nextOf (spine pages' n) ks nx = nextOf (spine pages n) ks nx := by
  cases ks with
  | nil => rfl
  | cons => exact spine_congr fun q hq => h q (mem_rowPages mem_cons_self hq)

end Rows

variable [LinearOrder κ] {R : Rules κ}

variable {es : List (κ × Nat)} {first p : Nat} {high lo : Option κ} {last : Bool}
  {mid mid' post pre : List (Sibling κ)} {nx : Nat → Nat} {f f' : IndexFile κ}

/-- New children between unchanged ones. They start where the old ones did. -/
theorem good_replace {pages' : Nat → IndexNode κ} (hmid : mid ≠ [])
    (hmid' : mid' ≠ []) (hrow : GoodRow pages R n last (pre ++ (mid ++ post)) nx high)
    (hnd : pages' p = .internal first es (nx (n + 1)) high)
    (hkids : kids lo first es = pre ++ (mid' ++ post))
    (hpre : AgreeOn pages pages' (rowPages pages n pre))
    (hpost : AgreeOn pages pages' (rowPages pages n post))
    (hnext : ∀ nx, nextOf (spine pages' n) mid' nx = nextOf (spine pages n) mid nx)
    (hhigh : ∀ h, highOf mid' h = highOf mid h)
    (hnew : GoodRow pages' R n (last && post.isEmpty) mid' (nextOf (spine pages n) post nx)
      (highOf post high)) : Good pages' R (n + 1) last p lo nx high := by
  have hcut := (chain_append last pre (mid ++ post) nx high).mp hrow
  have hcut' := (chain_append last mid post nx high).mp hcut.2
  have hempty : ∀ ks : List (Sibling κ), ks ≠ [] → (ks ++ post).isEmpty = false := by
    intro ks hks
    cases ks with
    | nil => exact absurd rfl hks
    | cons => rfl
  refine ⟨first, es, hnd, ?_⟩
  rw [hkids]
  refine (chain_append last pre (mid' ++ post) nx high).mpr ⟨?_, ?_⟩
  · have hstart := goodRow_congr (fun k hk q hq => hpre q (mem_rowPages hk hq)) hcut.1
    rw [hempty mid hmid] at hstart
    rw [hempty mid' hmid', nextOf_append, highOf_append, hnext, hhigh, nextOf_congr hpost,
      ← nextOf_append, ← highOf_append]
    exact hstart
  · refine (chain_append last mid' post nx high).mpr ⟨?_, ?_⟩
    · rw [nextOf_congr hpost]
      exact hnew
    · exact goodRow_congr (fun k hk q hq => hpost q (mem_rowPages hk hq)) hcut'.2

/-- A tree whose pages are distinct pages of the file, with a proper high key. -/
structure Sub (f : IndexFile κ) (R : Rules κ) (n : Nat) (last : Bool) (p : Nat) (lo : Option κ)
    (nx : Nat → Nat) (high : Option κ) : Prop where
  good : Good f.pages R n last p lo nx high
  nodup : (pagesOf f.pages n p).Nodup
  inFile : ∀ q ∈ pagesOf f.pages n p, 0 < q ∧ q < f.count
  highKey : ∀ h, high = some h → R.key h

/-- An update of a tree that may add pages at the end of the file. -/
structure Grows (f f' : IndexFile κ) (n p : Nat) : Prop where
  root : f'.root = f.root
  firstLeaf : f'.firstLeaf = f.firstLeaf
  maxKey : f'.maxKey = f.maxKey
  count : f.count ≤ f'.count
  fresh : ∃ new : List Nat, (pagesOf f'.pages n p).Perm (pagesOf f.pages n p ++ new) ∧
    new.Nodup ∧ ∀ q ∈ new, f.count ≤ q ∧ q < f'.count
  frame : ∀ q < f.count, q ∉ pagesOf f.pages n p → f'.pages q = f.pages q
  spine : spine f'.pages n p = spine f.pages n p

omit [LinearOrder κ] in
/-- The pages of a grown tree are distinct pages of the file. -/
theorem Grows.nodup (hg : Grows f f' n p) (hnd : (pagesOf f.pages n p).Nodup)
    (hin : ∀ q ∈ pagesOf f.pages n p, 0 < q ∧ q < f.count) :
    (pagesOf f'.pages n p).Nodup ∧ ∀ q ∈ pagesOf f'.pages n p, 0 < q ∧ q < f'.count := by
  rcases hg.fresh with ⟨_, hperm, hnew, hrange⟩
  have hcount := hg.count
  constructor
  · rw [hperm.nodup_iff]
    refine nodup_append.mpr ⟨hnd, hnew, ?_⟩
    intro a ha b hb _
    have := (hin a ha).2
    have := (hrange b hb).1
    omega
  · intro q hq
    rcases mem_append.mp (hperm.mem_iff.mp hq) with hold | hfresh
    · have := hin q hold
      omega
    · have := hrange q hfresh
      have := (hin p (self_mem_pagesOf f.pages n p)).2
      omega

theorem Sub.grow {R' : Rules κ} (hs : Sub f R n last p lo nx high)
    (hkey : ∀ k, R.key k → R'.key k) (hg : Grows f f' n p)
    (hgood : Good f'.pages R' n last p lo nx high) : Sub f' R' n last p lo nx high := by
  rcases hg.nodup hs.nodup hs.inFile with ⟨hnd, hin⟩
  exact ⟨hgood, hnd, hin, fun h hh => hkey h (hs.highKey h hh)⟩

omit [LinearOrder κ] in
theorem Grows.trans {f₁ f₂ : IndexFile κ} (h₁ : Grows f f₁ n p) (h₂ : Grows f₁ f₂ n p) :
    Grows f f₂ n p := by
  rcases h₁.fresh with ⟨new₁, hperm₁, hnd₁, hr₁⟩
  rcases h₂.fresh with ⟨new₂, hperm₂, hnd₂, hr₂⟩
  have hc₁ := h₁.count
  have hc₂ := h₂.count
  refine ⟨h₂.root.trans h₁.root, h₂.firstLeaf.trans h₁.firstLeaf, h₂.maxKey.trans h₁.maxKey,
    le_trans hc₁ hc₂, ⟨new₁ ++ new₂, ?_, ?_, ?_⟩, ?_, h₂.spine.trans h₁.spine⟩
  · rw [← append_assoc]
    exact hperm₂.trans (hperm₁.append_right new₂)
  · refine nodup_append.mpr ⟨hnd₁, hnd₂, ?_⟩
    intro a ha b hb _
    have := (hr₁ a ha).2
    have := (hr₂ b hb).1
    omega
  · intro q hq
    rcases mem_append.mp hq with hq₁ | hq₂
    · have := hr₁ q hq₁
      omega
    · have := hr₂ q hq₂
      omega
  · intro q hq hout
    have hout₁ : q ∉ pagesOf f₁.pages n p := by
      intro hmem
      rcases mem_append.mp (hperm₁.mem_iff.mp hmem) with hold | hfresh
      · exact hout hold
      · have := (hr₁ q hfresh).1
        omega
    rw [h₂.frame q (by omega) hout₁, h₁.frame q hq hout]

omit [LinearOrder κ] in
/-- The children around a part of a row share no page with it. -/
theorem row_disjoint
    (h : (p :: rowPages pages n (pre ++ (mid ++ post))).Nodup) :
    (∀ q ∈ rowPages pages n pre, q ∉ rowPages pages n mid ∧ q ≠ p) ∧
    (∀ q ∈ rowPages pages n post, q ∉ rowPages pages n mid ∧ q ≠ p) ∧
    p ∉ rowPages pages n mid := by
  rw [nodup_cons, rowPages_append, rowPages_append] at h
  rcases h with ⟨hp, hnd⟩
  rcases nodup_append.mp hnd with ⟨_, hmp, hdisj⟩
  rcases nodup_append.mp hmp with ⟨_, _, hdisj'⟩
  simp only [mem_append, not_or] at hp
  refine ⟨?_, ?_, hp.2.1⟩
  · intro q hq
    refine ⟨fun hmem => hdisj q hq q (mem_append_left _ hmem) rfl, ?_⟩
    intro heq
    exact hp.1 (heq ▸ hq)
  · intro q hq
    refine ⟨fun hmem => hdisj' q hmem q hq rfl, ?_⟩
    intro heq
    exact hp.2.2 (heq ▸ hq)

/-- A node after some of its children were exchanged. -/
structure Replaced (R : Rules κ) (pages pages' : Nat → IndexNode κ) (n : Nat) (last : Bool)
    (p : Nat) (lo : Option κ) (nx : Nat → Nat) (high : Option κ)
    (pre mid mid' post : List (Sibling κ)) : Prop where
  good : Good pages' R (n + 1) last p lo nx high
  spine : spine pages' (n + 1) p = spine pages (n + 1) p
  old : pagesOf pages (n + 1) p =
    p :: (rowPages pages n pre ++ (rowPages pages n mid ++ rowPages pages n post))
  new : pagesOf pages' (n + 1) p =
    p :: (rowPages pages n pre ++ (rowPages pages' n mid' ++ rowPages pages n post))
  entries : entriesOf pages' (n + 1) p =
    rowEntries pages n pre ++ (rowEntries pages' n mid' ++ rowEntries pages n post)

/-- Children exchanged in a tree whose other pages stay as they are. -/
theorem replace_row {pages' : Nat → IndexNode κ} {first' : Nat} {es' : List (κ × Nat)}
    (hmid : mid ≠ []) (hmid' : mid' ≠ []) (hrow : GoodRow pages R n last (kids lo first es) nx high)
    (hnd : pages p = .internal first es (nx (n + 1)) high)
    (hkids : kids lo first es = pre ++ (mid ++ post)) (hnodup : (pagesOf pages (n + 1) p).Nodup)
    (hnd' : pages' p = .internal first' es' (nx (n + 1)) high)
    (hkids' : kids lo first' es' = pre ++ (mid' ++ post))
    (hframe : ∀ q ∈ pagesOf pages (n + 1) p, q ≠ p → q ∉ rowPages pages n mid →
      (pages' q).strip = (pages q).strip)
    (hnext : ∀ nx, nextOf (spine pages' n) mid' nx = nextOf (spine pages n) mid nx)
    (hhigh : ∀ h, highOf mid' h = highOf mid h)
    (hnew : GoodRow pages' R n (last && post.isEmpty) mid' (nextOf (spine pages n) post nx)
      (highOf post high)) : Replaced R pages pages' n last p lo nx high pre mid mid' post := by
  have hold : pagesOf pages (n + 1) p = p :: rowPages pages n (pre ++ (mid ++ post)) := by
    rw [pagesOf_internal lo hnd, hkids]
    rfl
  rw [hold] at hnodup hframe
  rcases row_disjoint hnodup with ⟨hdpre, hdpost, _⟩
  have hpre : AgreeOn pages pages' (rowPages pages n pre) := by
    intro q hq
    refine hframe q ?_ (hdpre q hq).2 (hdpre q hq).1
    rw [rowPages_append]
    exact mem_cons_of_mem _ (mem_append_left _ hq)
  have hpost : AgreeOn pages pages' (rowPages pages n post) := by
    intro q hq
    refine hframe q ?_ (hdpost q hq).2 (hdpost q hq).1
    rw [rowPages_append, rowPages_append]
    exact mem_cons_of_mem _ (mem_append_right _ (mem_append_right _ hq))
  rw [hkids] at hrow
  refine ⟨good_replace hmid hmid' hrow hnd' hkids' hpre hpost hnext hhigh hnew, ?_, ?_, ?_, ?_⟩
  · -- The left edge starts with the first child before, in or behind the exchanged part.
    funext l
    have hstart : ∀ nx, nextOf (spine pages' n) (kids lo first' es') nx =
        nextOf (spine pages n) (kids lo first es) nx := by
      intro _
      rw [hkids, hkids', nextOf_append, nextOf_append, nextOf_append, nextOf_append, hnext,
        nextOf_congr hpost, nextOf_congr hpre]
    have hspine : spine pages' n first' = spine pages n first := hstart (fun _ => 0)
    simp only [IndexTree.spine, hnd, hnd', hspine]
  · rw [hold, rowPages_append, rowPages_append]
  · rw [pagesOf_internal lo hnd', hkids']
    show p :: rowPages pages' n (pre ++ (mid' ++ post)) = _
    rw [rowPages_append, rowPages_append, rowPages_congr hpre, rowPages_congr hpost]
  · rw [entriesOf_internal lo hnd', hkids']
    show rowEntries pages' n (pre ++ (mid' ++ post)) = _
    rw [rowEntries_append, rowEntries_append, rowEntries_congr hpre, rowEntries_congr hpost]

omit [LinearOrder κ] in
/-- An exchange of children that adds pages at the end of the file. -/
theorem grows_of_perm {as bs cs new : List Nat} (hroot : f'.root = f.root)
    (hfirst : f'.firstLeaf = f.firstLeaf) (hmax : f'.maxKey = f.maxKey)
    (hcount : f.count ≤ f'.count) (hold : pagesOf f.pages n p = p :: (as ++ (bs ++ cs)))
    {bs' : List Nat} (hnew : pagesOf f'.pages n p = p :: (as ++ (bs' ++ cs)))
    (hperm : bs'.Perm (bs ++ new)) (hnodup : new.Nodup)
    (hrange : ∀ q ∈ new, f.count ≤ q ∧ q < f'.count)
    (hframe : ∀ q < f.count, q ≠ p → q ∉ bs → f'.pages q = f.pages q)
    (hspine : spine f'.pages n p = spine f.pages n p) : Grows f f' n p := by
  refine ⟨hroot, hfirst, hmax, hcount, ⟨new, ?_, hnodup, hrange⟩, ?_, hspine⟩
  · rw [hold, hnew, cons_append]
    refine List.Perm.cons p ?_
    rw [append_assoc, append_assoc]
    refine List.Perm.append_left _ ((hperm.append_right _).trans ?_)
    rw [append_assoc]
    exact List.Perm.append_left _ perm_append_comm
  · intro q hq hout
    rw [hold] at hout
    simp only [mem_cons, mem_append, not_or] at hout
    exact hframe q hq hout.1 hout.2.2.1

end ChibiDb.IndexTree
