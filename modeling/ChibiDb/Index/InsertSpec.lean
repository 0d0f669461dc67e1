import ChibiDb.Index.Growth

/-!
# Insertion Keeps the Tree

An insert of an absent pair with a key of one to nine bytes into a tree of such keys. The
descent finds room on every level: a full child is split before it is entered, its two
halves are about half a page each, and its parent has room for the separator because it
was not full itself. So the descent never asks for a restart, and the tree has the new
pair in its place.

The nodes below the root keep at least `low` bytes of entries. If every pair comes above
all others, every node except the last one of its level stays half empty. Nothing but the
place of the pair among the others depends on the order of the keys, so the same lemmas
serve trees into which a pair was inserted twice.

## Main definitions

* `rules`: Short keys, and nodes within their sizes.
* `Fuller`: A node that was added to.
* `Inserted`: The tree after an insert.

## Theorems

* `inserted_lift`: An insert into a child is one into the node.
* `insertDescend_spec`: The descent inserts the pair.
-/

namespace ChibiDb.IndexTree

open List Option

open IndexProg

variable {κ : Type} [LinearOrder κ]

/-- What is known of the keys of a tree: nothing, that they are distinct and in order, or
    that they were also inserted in ascending order. -/
inductive KeyOrder where
  | loose
  | sorted
  | ascending
  deriving DecidableEq, Repr

/-- Keys of at most `mk` bytes; nodes that fit their page, with at least `low` bytes of entries.
    After ascending inserts every node but the last one of its level is half empty. -/
def rules (len : κ → Nat) (mk low : Nat) (o : KeyOrder) : Rules κ where
  key k := 1 ≤ len k ∧ len k ≤ mk
  node last nd := low ≤ nd.bodyLen len ∧ nd.bytesUsed len ≤ pageSize ∧
    (o = .ascending → last = false → nd.bytesUsed len ≤ 4300)
  ordered := o ≠ .loose

/-- A node after an update that only adds to it. -/
structure Fuller (len : κ → Nat) (nd nd' : IndexNode κ) : Prop where
  body : nd.bodyLen len ≤ nd'.bodyLen len
  fits : nd.bytesUsed len ≤ pageSize → nd'.bytesUsed len ≤ pageSize

variable {len : κ → Nat}

omit [LinearOrder κ] in
/-- A node that is added to obeys the rules, if it is the last one in ascending order. -/
theorem Fuller.node {mk low : Nat} {o : KeyOrder} {b : Bool} {nd nd' : IndexNode κ}
    (h : Fuller len nd nd') (hasc : o = .ascending → b = true)
    (hnd : (rules len mk low o).node b nd.strip) : (rules len mk low o).node b nd'.strip := by
  rcases hnd with ⟨hlow, hfits, _⟩
  rw [IndexNode.bodyLen_strip] at hlow
  rw [IndexNode.bytesUsed_strip] at hfits
  refine ⟨?_, ?_, ?_⟩
  · rw [IndexNode.bodyLen_strip]
    exact le_trans hlow h.body
  · rw [IndexNode.bytesUsed_strip]
    exact h.fits hfits
  · intro ha hb
    cases (hasc ha).symm.trans hb

/-- The tree after an insert. -/
structure Inserted (len : κ → Nat) (R : Rules κ) (f f' : IndexFile κ) (n : Nat) (last : Bool)
    (p : Nat) (lo : Option κ) (nx : Nat → Nat) (high : Option κ) (k : κ) : Prop
    extends Grows f f' n p where
  good : Good f'.pages R n last p lo nx high
  entries : R.ordered → entriesOf f'.pages n p = insertEntry (entriesOf f.pages n p) k
  own : Fuller len (f.pages p) (f'.pages p)

section Children

variable {R : Rules κ} {f f' : IndexFile κ} {n p first c : Nat} {last : Bool} {lo loc : Option κ}
  {nx : Nat → Nat} {high : Option κ} {es : List (κ × Nat)} {pre post : List (Sibling κ)}

variable {pages : Nat → IndexNode κ} {k : κ}

/-- The lower bound of a tree is one of its keys. -/
theorem Good.lo_mem {l : κ} (hg : Good pages R n last p (some l) nx high) :
    l ∈ entriesOf pages n p :=
  mem_of_mem_head? (hg.head rfl)

theorem row_of_good (hg : Good f.pages R (n + 1) last p lo nx high)
    (hnd : f.pages p = .internal first es (nx (n + 1)) high) :
    GoodRow f.pages R n last (kids lo first es) nx high := by
  rcases hg with ⟨_, _, hnd', hrow⟩
  rw [hnd, IndexNode.internal.injEq] at hnd'
  rcases hnd' with ⟨rfl, rfl, _, _⟩
  exact hrow

/-- The keys left and right of the child for a key. -/
theorem row_bounds (ho : R.ordered) (hrow : GoodRow pages R n last (kids lo first es) nx high)
    (hkids : kids lo first es = pre ++ (loc, c) :: post)
    (hloc : (pre = [] ∧ loc = lo) ∨ ∃ s, loc = some s ∧ s ≤ k)
    (hpost : ∀ s, highOf post none = some s → k < s) :
    (∀ e ∈ rowEntries pages n pre, e < k) ∧ ∀ e ∈ rowEntries pages n post, k < e := by
  have hwithin : ∀ b c lo' nx' high',
      R.node b (pages c).strip ∧ Good pages R n b c lo' nx' high' →
        Within lo' (entriesOf pages n c) high' := fun _ _ _ _ _ h => h.2.within ho
  have hsorted : (rowEntries pages n (kids lo first es)).Pairwise (· < ·) :=
    (chain_sorted hwithin (fun k hk => kids_ne_none hk) hrow).sorted
  rw [hkids] at hrow hsorted
  rcases (chain_append last pre _ nx high).mp hrow with ⟨_, ⟨_, hgood⟩, hrest⟩
  rw [rowEntries_append, rowEntries_cons] at hsorted
  rcases pairwise_append.mp hsorted with ⟨_, hright, hcross⟩
  constructor
  · intro e he
    rcases hloc with ⟨hpre, _⟩ | ⟨s, hs, hle⟩
    · subst hpre
      cases he
    · subst hs
      exact lt_of_lt_of_le (hcross e he s (mem_append_left _ hgood.lo_mem)) hle
  · intro e he
    cases post with
    | nil => cases he
    | cons k' post =>
      rcases hk' : k'.1 with _ | s
      · have hmem : k' ∈ es.map (fun e => ((some e.1, e.2) : Sibling κ)) := by
          have htail : (kids lo first es).tail = (pre ++ (loc, c) :: k' :: post).tail := by
            rw [hkids]
          have hin : k' ∈ (pre ++ (loc, c) :: k' :: post).tail := by
            cases pre with
            | nil => exact mem_cons_self
            | cons =>
              exact mem_append_right _ (mem_cons_of_mem _ mem_cons_self)
          rw [← htail] at hin
          exact hin
        exact absurd hk' (kids_ne_none hmem)
      · have hks : k < s := hpost s hk'
        have hgk := hrest.1.2
        rw [hk'] at hgk
        have hhead := hgk.head rfl
        have hs' := (pairwise_append.mp hright).2.1
        rw [rowEntries_cons] at hs' he
        -- The first key behind the child is its bound, and the others follow it.
        cases hent : entriesOf pages n k'.2 with
        | nil => rw [hent] at hhead; simp [head?_nil] at hhead
        | cons =>
          rw [hent, head?_cons] at hhead
          cases hhead
          rw [hent, cons_append] at hs' he
          rcases mem_cons.mp he with heq | hmem
          · exact heq ▸ hks
          · exact lt_trans hks ((pairwise_cons.mp hs').1 e hmem)

variable (hs : Sub f R (n + 1) last p lo nx high)
  (hnd : f.pages p = .internal first es (nx (n + 1)) high)
include hs hnd

/-- Every separator is a key below the node. -/
theorem Sub.entry_key : ∀ e ∈ es, R.key e.1 := by
  intro e he
  have hmem : ((some e.1, e.2) : Sibling κ) ∈ kids lo first es :=
    mem_cons_of_mem _ (mem_map.mpr ⟨e, he, rfl⟩)
  rcases chain_mem (row_of_good hs.good hnd) hmem with ⟨_, _, _, _, hkid⟩
  exact hkid.keys e.1 hkid.lo_mem

/-- The pages below a node. -/
theorem Sub.below {q : Nat} (hq : q ∈ rowPages f.pages n (kids lo first es)) :
    q ≠ p ∧ q < f.count := by
  have hpages : pagesOf f.pages (n + 1) p = p :: rowPages f.pages n (kids lo first es) :=
    pagesOf_internal lo hnd
  have hnodup := hs.nodup
  rw [hpages, nodup_cons] at hnodup
  exact ⟨fun h => hnodup.1 (h ▸ hq), (hs.inFile q (hpages ▸ mem_cons_of_mem _ hq)).2⟩

variable (hkids : kids lo first es = pre ++ (loc, c) :: post)
include hkids

/-- A child of a tree is a tree with pages of its own. -/
theorem Sub.child :
    R.node (last && post.isEmpty) (f.pages c).strip ∧
      Sub f R n (last && post.isEmpty) c loc (nextOf (spine f.pages n) post nx)
        (highOf post high) := by
  have hrow := row_of_good hs.good hnd
  rw [hkids] at hrow
  rcases (chain_append last pre _ nx high).mp hrow with ⟨_, ⟨hnode, hgood⟩, hpost⟩
  have hsub : ∀ q ∈ pagesOf f.pages n c, q ∈ pagesOf f.pages (n + 1) p := by
    intro q hq
    rw [pagesOf_internal lo hnd, hkids]
    exact mem_cons_of_mem _ (mem_flatMap.mpr ⟨(loc, c), mem_append_right _ mem_cons_self, hq⟩)
  refine ⟨hnode, hgood, ?_, fun q hq => hs.inFile q (hsub q hq), ?_⟩
  · have hall := hs.nodup
    rw [pagesOf_internal lo hnd, hkids, nodup_cons, flatMap_append, flatMap_cons] at hall
    exact (nodup_append.mp (nodup_append.mp hall.2).2.1).1
  intro h hh
  cases post with
  | nil => exact hs.highKey h hh
  | cons k =>
    have hk : k.1 = some h := hh
    have hgk := hpost.1.2
    rw [hk] at hgk
    exact hgk.keys h hgk.lo_mem

theorem Sub.child_pages :
    c < f.count ∧ p < f.count ∧ p ≠ c ∧ c ∉ pre.map Prod.snd := by
  have hpages : pagesOf f.pages (n + 1) p =
      p :: rowPages f.pages n (pre ++ ([(loc, c)] ++ post)) := by
    rw [pagesOf_internal lo hnd, hkids]
    rfl
  have hmem : c ∈ rowPages f.pages n [(loc, c)] :=
    mem_rowPages mem_cons_self (self_mem_pagesOf f.pages n c)
  have hdisj := hs.nodup
  rw [hpages] at hdisj
  rcases row_disjoint hdisj with ⟨hdpre, _, hdp⟩
  refine ⟨(hs.inFile c ?_).2, (hs.inFile p (self_mem_pagesOf f.pages (n + 1) p)).2,
    fun h => hdp (h ▸ hmem), ?_⟩
  · rw [hpages, rowPages_append, rowPages_append]
    exact mem_cons_of_mem _ (mem_append_right _ (mem_append_left _ hmem))
  intro h
  rcases mem_map.mp h with ⟨_, hk', hc⟩
  have hq : c ∈ rowPages f.pages n pre := by
    refine mem_rowPages hk' ?_
    rw [hc]
    exact self_mem_pagesOf f.pages n c
  exact (hdpre c hq).1 hmem

/-- An insert into a child is an insert into the node. -/
theorem inserted_lift (hbounds : R.ordered → (∀ e ∈ rowEntries f.pages n pre, e < k) ∧
      ∀ e ∈ rowEntries f.pages n post, k < e)
    (hnode : R.node (last && post.isEmpty) (f'.pages c).strip)
    (hc : Inserted len R f f' n (last && post.isEmpty) c loc (nextOf (spine f.pages n) post nx)
      (highOf post high) k) : Inserted len R f f' (n + 1) last p lo nx high k := by
  have hkids' : kids lo first es = pre ++ ([(loc, c)] ++ post) := hkids
  have hone : ∀ pages, rowPages pages n [(loc, c)] = pagesOf pages n c := fun _ => append_nil _
  have hself : f'.pages p = f.pages p := by
    refine hc.frame p (hs.inFile p (self_mem_pagesOf f.pages (n + 1) p)).2 ?_
    have hnodup := hs.nodup
    rw [pagesOf_internal lo hnd, hkids'] at hnodup
    have hdp := (row_disjoint hnodup).2.2
    rw [hone] at hdp
    exact hdp
  have hnew : GoodRow f'.pages R n (last && post.isEmpty) [(loc, c)]
      (nextOf (spine f.pages n) post nx) (highOf post high) := by
    refine ⟨?_, trivial⟩
    rw [isEmpty_nil, Bool.and_true]
    exact ⟨hnode, hc.good⟩
  have hrep := replace_row (cons_ne_nil _ _) (cons_ne_nil _ _)
    (row_of_good hs.good hnd) hnd hkids' hs.nodup (hself.trans hnd) hkids'
    (fun q hq _ hout => by
      rw [hone] at hout
      rw [hc.frame q (hs.inFile q hq).2 hout])
    (fun _ => hc.spine) (fun _ => rfl) hnew
  rcases hc.fresh with ⟨_, hperm, hnodup, hrange⟩
  have hgrows : Grows f f' (n + 1) p := by
    refine grows_of_perm hc.root hc.firstLeaf hc.maxKey hc.count hrep.old hrep.new ?_ hnodup hrange
      (fun q hq _ hout => hc.frame q hq (by rw [hone] at hout; exact hout)) hrep.spine
    rw [hone, hone]
    exact hperm
  refine ⟨hgrows, hrep.good, ?_, ?_⟩
  · intro ho
    rw [entriesOf_internal lo hnd, hkids', hrep.entries]
    show _ = insertEntry (rowEntries f.pages n (pre ++ ([(loc, c)] ++ post))) k
    simp only [rowEntries_append, rowEntries_cons, rowEntries_nil, append_nil]
    rw [hc.entries ho, insertEntry_append (hbounds ho).1 (hbounds ho).2]
  · rw [hself]
    exact ⟨le_refl _, fun h => h⟩

end Children

end ChibiDb.IndexTree
