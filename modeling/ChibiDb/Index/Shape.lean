import ChibiDb.Data.Linked
import ChibiDb.Index.Insert

/-!
# The Shape of an Index

A tree of depth `n` below a page: its leaves are `n` levels down. `Good` relates the
pages of a file to such a tree. The children of a node form a row in which every child
is linked to the next one and bounded by its separator, on all levels below: the right
neighbours of a subtree are given level by level, as the left edge of the next subtree.
The first key of a subtree that has a left neighbour is its separator.

What else every node but the root has to satisfy is a parameter, so that sizes can be
added without another recursion; so is whether the keys are in order, which the search for
a key needs and the walk to a leaf does not. The `prev` link of a leaf is written but
never read, and nothing here depends on it.

## Main definitions

* `kids`: The children of a node with their lower bounds.
* `spine`, `pagesOf`, `leavesOf`, `entriesOf`: Left edge, pages, leaves and keys below.
* `Good`: The pages below a page form a tree.

## Theorems

* `good_congr`: Only the pages of the tree matter.
* `good_neighbours`: Only the neighbours on its levels matter.
* `Good.within`: The keys of a tree in order are sorted and within its bounds.
-/

namespace ChibiDb

open List Option

variable {first next : Nat}

namespace IndexNode

variable {κ : Type}

/-- A page without the link to its left sibling. -/
def strip : IndexNode κ → IndexNode κ
  | .leaf es _ next high => .leaf es 0 next high
  | .internal first es next high => .internal first es next high

@[simp] theorem strip_internal_iff {nd : IndexNode κ} {es : List (κ × Nat)} {high : Option κ} :
    nd.strip = .internal first es next high ↔ nd = .internal first es next high := by
  cases nd with
  | leaf => simp only [strip, reduceCtorEq]
  | internal => exact Iff.rfl

theorem strip_leaf_iff {nd : IndexNode κ} {es : List κ} {high : Option κ} :
    nd.strip = .leaf es 0 next high ↔ ∃ prev, nd = .leaf es prev next high := by
  cases nd with
  | leaf => simp only [strip, leaf.injEq, true_and, exists_and_left, exists_eq_left']
  | internal => simp [strip]

@[simp] theorem bytesUsed_strip (len : κ → Nat) (nd : IndexNode κ) :
    nd.strip.bytesUsed len = nd.bytesUsed len := by
  cases nd <;> rfl

@[simp] theorem bodyLen_strip (len : κ → Nat) (nd : IndexNode κ) :
    nd.strip.bodyLen len = nd.bodyLen len := by
  cases nd <;> rfl

end IndexNode

namespace IndexTree

variable {κ : Type}

/-- The children of a node with their lower bounds: the first child has the node's own. -/
def kids (lo : Option κ) (first : Nat) (es : List (κ × Nat)) : List (Sibling κ) :=
  (lo, first) :: es.map (fun e => (some e.1, e.2))

/-- The pages of the left edge of a subtree, by level. -/
def spine (pages : Nat → IndexNode κ) : Nat → Nat → Nat → Nat
  | 0, p, _ => p
  | n + 1, p, l =>
    if l = n + 1 then p
    else
      match pages p with
      | .leaf .. => p
      | .internal first _ _ _ => spine pages n first l

/-- The pages a node points to. -/
def childPages : IndexNode κ → List Nat
  | .leaf .. => []
  | .internal first es _ _ => first :: es.map Prod.snd

/-- The pages of a tree of a given height. -/
def pagesOf (pages : Nat → IndexNode κ) : Nat → Nat → List Nat
  | 0, p => [p]
  | n + 1, p => p :: (childPages (pages p)).flatMap (pagesOf pages n)

/-- The leaves of a subtree from left to right. -/
def leavesOf (pages : Nat → IndexNode κ) : Nat → Nat → List Nat
  | 0, p => [p]
  | n + 1, p => (childPages (pages p)).flatMap (leavesOf pages n)

/-- The entries of a leaf. -/
def leafEntries : IndexNode κ → List κ
  | .leaf es _ _ _ => es
  | .internal .. => []

/-- The keys of a subtree from left to right. -/
def entriesOf (pages : Nat → IndexNode κ) : Nat → Nat → List κ
  | 0, p => leafEntries (pages p)
  | n + 1, p => (childPages (pages p)).flatMap (entriesOf pages n)

@[simp] theorem childPages_strip (nd : IndexNode κ) : childPages nd.strip = childPages nd := by
  cases nd <;> rfl

@[simp] theorem leafEntries_strip (nd : IndexNode κ) : leafEntries nd.strip = leafEntries nd := by
  cases nd <;> rfl

@[simp] theorem kids_map_snd (lo : Option κ) (first : Nat) (es : List (κ × Nat)) :
    (kids lo first es).map Prod.snd = first :: es.map Prod.snd := by
  simp only [kids, map_cons, List.map_map]
  rfl

theorem kids_ne_none {es : List (κ × Nat)} {k : Sibling κ}
    (hk : k ∈ es.map (fun e => ((some e.1, e.2) : Sibling κ))) : k.1 ≠ none := by
  rcases mem_map.mp hk with ⟨e, _, rfl⟩
  exact some_ne_none e.1

theorem self_mem_pagesOf (pages : Nat → IndexNode κ) (n p : Nat) : p ∈ pagesOf pages n p := by
  cases n with
  | zero => exact mem_singleton_self p
  | succ => exact mem_cons_self

variable {pages pages' : Nat → IndexNode κ} {n p : Nat}

section Below

theorem childPages_congr (h : (pages' p).strip = (pages p).strip) :
    childPages (pages' p) = childPages (pages p) := by
  rw [← childPages_strip, h, childPages_strip]

theorem entriesOf_leaf {es : List κ} {high : Option κ}
    (h : (pages p).strip = .leaf es 0 next high) : entriesOf pages 0 p = es := by
  rw [entriesOf, ← leafEntries_strip, h]
  rfl

section

variable (h : ∀ q ∈ pagesOf pages n p, (pages' q).strip = (pages q).strip)
include h

/-- The pages of a subtree depend only on themselves. -/
theorem pagesOf_congr : pagesOf pages' n p = pagesOf pages n p := by
  induction n generalizing p with
  | zero => rfl
  | succ n ih =>
    simp only [pagesOf, childPages_congr (h p (self_mem_pagesOf pages (n + 1) p))]
    congr 1
    apply flatMap_congr
    intro c hc
    exact ih (fun q hq => h q (mem_cons_of_mem _ (mem_flatMap.mpr ⟨c, hc, hq⟩)))

theorem spine_congr : spine pages' n p = spine pages n p := by
  induction n generalizing p with
  | zero => rfl
  | succ n ih =>
    funext l
    have hp := h p (self_mem_pagesOf pages (n + 1) p)
    cases hnd : pages p with
    | leaf =>
      rw [hnd] at hp
      rcases IndexNode.strip_leaf_iff.mp hp with ⟨_, hnd'⟩
      simp only [spine, hnd, hnd']
    | internal first =>
      rw [hnd] at hp
      have hnd' := IndexNode.strip_internal_iff.mp hp
      have hfirst : spine pages' n first = spine pages n first := by
        apply ih
        intro q hq
        apply h q
        simp only [pagesOf, hnd, childPages, flatMap_cons]
        exact mem_cons_of_mem _ (mem_append_left _ hq)
      simp only [spine, hnd, hnd', hfirst]

theorem entriesOf_congr : entriesOf pages' n p = entriesOf pages n p := by
  induction n generalizing p with
  | zero =>
    have hp := h p (self_mem_pagesOf pages 0 p)
    simp only [entriesOf]
    rw [← leafEntries_strip, hp, leafEntries_strip]
  | succ n ih =>
    simp only [entriesOf, childPages_congr (h p (self_mem_pagesOf pages (n + 1) p))]
    apply flatMap_congr
    intro c hc
    exact ih (fun q hq => h q (mem_cons_of_mem _ (mem_flatMap.mpr ⟨c, hc, hq⟩)))

end

variable {es : List (κ × Nat)} {high : Option κ} (lo : Option κ)
  (hnd : pages p = .internal first es next high)
include hnd

theorem flatMap_childPages {β : Type} (f : Nat → List β) :
    (childPages (pages p)).flatMap f = (kids lo first es).flatMap (fun k => f k.2) := by
  rw [hnd, childPages, ← kids_map_snd lo first es, flatMap_map]

theorem entriesOf_internal :
    entriesOf pages (n + 1) p = (kids lo first es).flatMap (fun k => entriesOf pages n k.2) :=
  flatMap_childPages lo hnd _

theorem pagesOf_internal :
    pagesOf pages (n + 1) p = p :: (kids lo first es).flatMap (fun k => pagesOf pages n k.2) :=
  congrArg (p :: ·) (flatMap_childPages lo hnd _)

theorem leavesOf_internal :
    leavesOf pages (n + 1) p = (kids lo first es).flatMap (fun k => leavesOf pages n k.2) :=
  flatMap_childPages lo hnd _

end Below

/-- What is required of keys and of nodes besides the shape, and whether the keys are in order. A
    node is given without its `prev` link, and with whether it is the last one of its level. -/
structure Rules (κ : Type) where
  key : κ → Prop
  node : Bool → IndexNode κ → Prop
  ordered : Prop

variable [LinearOrder κ]

/-- The keys of a leaf. Only a leaf without a high key may be empty. -/
structure LeafKeys (R : Rules κ) (lo : Option κ) (es : List κ) (high : Option κ) : Prop where
  head : ∀ k, lo = some k → es.head? = some k
  keys : ∀ e ∈ es, R.key e
  full : high ≠ none → es ≠ []
  within : R.ordered → Within lo es high

/-- The pages below `p` form a tree of depth `n` with lower bound `lo`, right neighbours
    `nx` and upper bound `high`. -/
def Good (pages : Nat → IndexNode κ) (R : Rules κ) :
    Nat → Bool → Nat → Option κ → (Nat → Nat) → Option κ → Prop
  | 0, _, p, lo, nx, high =>
    ∃ es, (pages p).strip = .leaf es 0 (nx 0) high ∧ LeafKeys R lo es high
  | n + 1, last, p, lo, nx, high =>
    ∃ first es, pages p = .internal first es (nx (n + 1)) high ∧
      Chain (spine pages n)
        (fun b c lo' nx' high' => R.node b (pages c).strip ∧ Good pages R n b c lo' nx' high')
        last (kids lo first es) nx high

/-- The children of a node, each a tree that obeys the rules. -/
abbrev GoodRow (pages : Nat → IndexNode κ) (R : Rules κ) (n : Nat) (last : Bool)
    (ks : List (Sibling κ)) (nx : Nat → Nat) (high : Option κ) : Prop :=
  Chain (spine pages n)
    (fun b c lo' nx' high' => R.node b (pages c).strip ∧ Good pages R n b c lo' nx' high')
    last ks nx high

section Basic

variable {R : Rules κ} {last : Bool} {nx : Nat → Nat} {lo high : Option κ}

/-- A tree stays a tree when its pages do. -/
theorem good_congr
    (h : ∀ q ∈ pagesOf pages n p, (pages' q).strip = (pages q).strip)
    (hg : Good pages R n last p lo nx high) : Good pages' R n last p lo nx high := by
  induction n generalizing p last lo nx high with
  | zero =>
    rcases hg with ⟨es, hes, hkeys⟩
    exact ⟨es, by rw [h p (self_mem_pagesOf pages 0 p), hes], hkeys⟩
  | succ n ih =>
    rcases hg with ⟨first, es, hnd, hrow⟩
    have hp := h p (self_mem_pagesOf pages (n + 1) p)
    rw [hnd] at hp
    have hkid : ∀ k ∈ kids lo first es, ∀ q ∈ pagesOf pages n k.2,
        (pages' q).strip = (pages q).strip := by
      intro k hk q hq
      apply h q
      simp only [pagesOf, hnd, childPages]
      refine mem_cons_of_mem _ (mem_flatMap.mpr ⟨k.2, ?_, hq⟩)
      rw [← kids_map_snd lo first es]
      exact mem_map_of_mem hk
    refine ⟨first, es, IndexNode.strip_internal_iff.mp hp, chain_imp ?_ ?_ hrow⟩
    · intro k hk
      exact spine_congr (hkid k hk)
    intro _ k hk _ _ hk'
    refine ⟨?_, ih (hkid k hk) hk'.2⟩
    rw [hkid k hk k.2 (self_mem_pagesOf pages n k.2)]
    exact hk'.1

/-- A tree of depth `n` sees its right neighbours on the levels up to `n` only. -/
theorem good_neighbours {nx' : Nat → Nat} (h : ∀ l ≤ n, nx' l = nx l)
    (hg : Good pages R n last p lo nx high) :
    Good pages R n last p lo nx' high := by
  induction n generalizing p last lo high with
  | zero =>
    rcases hg with ⟨es, hes, hkeys⟩
    exact ⟨es, by rw [hes, h 0 (le_refl 0)], hkeys⟩
  | succ n ih =>
    rcases hg with ⟨first, es, hnd, hrow⟩
    refine ⟨first, es, by rw [hnd, h (n + 1) (le_refl _)], chain_end ?_ hrow⟩
    intro _ _ _ _ hc
    exact ⟨hc.1, ih (fun l hl => h l (by omega)) hc.2⟩

/-- Weaker rules hold as well. -/
theorem Good.mono {R' : Rules κ} (hkey : ∀ k, R.key k → R'.key k)
    (hnode : ∀ b nd, R.node b nd → R'.node b nd) (hord : R'.ordered → R.ordered)
    (hg : Good pages R n last p lo nx high) : Good pages R' n last p lo nx high := by
  induction n generalizing p last lo nx high with
  | zero =>
    rcases hg with ⟨es, hes, hkeys⟩
    exact ⟨es, hes, hkeys.head, fun e he => hkey e (hkeys.keys e he), hkeys.full,
      fun ho => hkeys.within (hord ho)⟩
  | succ _ ih =>
    rcases hg with ⟨first, es, hnd, hrow⟩
    refine ⟨first, es, hnd, chain_imp (fun k _ => rfl) ?_ hrow⟩
    intro b _ _ _ _ hk
    exact ⟨hnode b _ hk.1, ih hk.2⟩

/-- A row stays a row when the pages below it do. -/
theorem goodRow_congr {ks : List (Sibling κ)}
    (h : ∀ k ∈ ks, ∀ q ∈ pagesOf pages n k.2, (pages' q).strip = (pages q).strip)
    (hg : GoodRow pages R n last ks nx high) : GoodRow pages' R n last ks nx high := by
  refine chain_imp ?_ ?_ hg
  · intro k hk
    exact spine_congr (h k hk)
  intro _ k hk _ _ hk'
  refine ⟨?_, good_congr (h k hk) hk'.2⟩
  rw [h k hk k.2 (self_mem_pagesOf pages n k.2)]
  exact hk'.1

/-- The first key of a tree is its lower bound. -/
theorem Good.head (hg : Good pages R n last p lo nx high) {k : κ}
    (hk : lo = some k) : (entriesOf pages n p).head? = some k := by
  induction n generalizing p last lo nx high with
  | zero =>
    rcases hg with ⟨_, hes, hkeys⟩
    rw [entriesOf_leaf hes]
    exact hkeys.head k hk
  | succ _ ih =>
    rcases hg with ⟨_, _, hnd, hrow⟩
    have hfirst := ih hrow.1.2 hk
    rw [entriesOf_internal lo hnd, kids, flatMap_cons, head?_append, hfirst]
    rfl

/-- The keys of a tree in order are sorted and within its bounds. -/
theorem Good.within (ho : R.ordered)
    (hg : Good pages R n last p lo nx high) : Within lo (entriesOf pages n p) high := by
  induction n generalizing p last lo nx high with
  | zero =>
    rcases hg with ⟨_, hes, hkeys⟩
    rw [entriesOf_leaf hes]
    exact hkeys.within ho
  | succ _ ih =>
    rcases hg with ⟨_, _, hnd, hrow⟩
    rw [entriesOf_internal lo hnd]
    exact chain_sorted (fun b p lo nx' high' h => ih h.2) (fun k hk => kids_ne_none hk) hrow

/-- The keys of a tree obey the rules. -/
theorem Good.keys (hg : Good pages R n last p lo nx high) :
    ∀ e ∈ entriesOf pages n p, R.key e := by
  induction n generalizing p last lo nx high with
  | zero =>
    rcases hg with ⟨_, hes, hkeys⟩
    rw [entriesOf_leaf hes]
    exact hkeys.keys
  | succ _ ih =>
    rcases hg with ⟨_, _, hnd, hrow⟩
    intro e he
    rw [entriesOf_internal lo hnd] at he
    rcases mem_flatMap.mp he with ⟨_, hk, hek⟩
    rcases chain_mem hrow hk with ⟨_, _, _, _, hk'⟩
    exact ih hk' e hek

end Basic

end IndexTree

end ChibiDb
