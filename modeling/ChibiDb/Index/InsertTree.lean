import ChibiDb.Index.DescendSpec

/-!
# Insertion into a Whole Tree

A file holds a tree with given keys, or none. An insert of an absent short key succeeds
after at most two restarts, one for a first leaf and one for a root that is split, and the
file holds the tree with that key.

## Main definitions

* `Tree`: The pages below the root form a tree that starts at the first leaf.
* `Holds`: The file is empty, or it has a tree with these keys.

## Theorems

* `rootSplit_spec`: The split of the root.
* `insert_spec`: An insert into the file.
-/

namespace ChibiDb.IndexTree

open List Option
open IndexNode (bodyLen bytesUsed full internal strip)

open IndexProg

variable {κ : Type} [LinearOrder κ]

/-- The right neighbours of a whole tree: none. -/
def noNext : Nat → Nat := fun _ => 0

/-- The pages below the root form a tree. -/
structure Tree (len : κ → Nat) (low : Nat) (o : KeyOrder) (f : IndexFile κ) (n : Nat) : Prop where
  sub : Sub f (rules len f.maxKey low o) n true f.root none noNext none
  firstLeaf : f.firstLeaf = spine f.pages n f.root 0
  fits : (f.pages f.root).bytesUsed len ≤ pageSize
  kids : ∀ first next high, f.pages f.root ≠ .internal first [] next high

/-- The file has no tree, or one with the keys `xs`. -/
structure Holds (len : κ → Nat) (low : Nat) (o : KeyOrder) (f : IndexFile κ) (xs : List κ) :
    Prop where
  maxKey : f.maxKey ≤ 9
  count : 0 < f.count
  tree : (f.root = 0 ∧ f.firstLeaf = 0 ∧ (o ≠ .loose → xs = [])) ∨
    ∃ n, Tree len low o f n ∧ (o ≠ .loose → entriesOf f.pages n f.root = xs)

variable {len : κ → Nat} {low : Nat} {o : KeyOrder} {f : IndexFile κ} {k : κ}

variable {fuel n : Nat}

theorem Tree.root_ne (ht : Tree len low o f n) : f.root ≠ 0 := by
  have := (ht.sub.inFile f.root (self_mem_pagesOf f.pages n f.root)).1
  omega

/-- A longer key may be recorded. -/
theorem Tree.withMaxKey {m : Nat} (hm : m ≤ 9) (ht : Tree len low o f n) :
    Tree len low o (withMaxKey f m) n := by
  rw [IndexTree.withMaxKey]
  split
  · rename_i hlt
    have hmod : m % 2 ^ 16 = m := Nat.mod_eq_of_lt (by omega)
    rw [hmod]
    have hmono : ∀ x : κ, (rules len f.maxKey low o).key x → (rules len m low o).key x :=
      fun x hx => ⟨hx.1, le_trans hx.2 (le_of_lt hlt)⟩
    exact ⟨⟨ht.sub.good.mono hmono (fun _ _ h => h) id, ht.sub.nodup, ht.sub.inFile, fun _ hh =>
      by cases hh⟩, ht.firstLeaf, ht.fits, ht.kids⟩
  · exact ht

/-- An internal node without separators has no bytes of entries. -/
theorem kids_of_body {f' : IndexFile κ} {R : Rules κ}
    (hg : Good f.pages R n true f.root none noNext none)
    (hkids : ∀ first next high, f.pages f.root ≠ .internal first [] next high)
    (hg' : Good f'.pages R n true f.root none noNext none)
    (hbody : (f.pages f.root).bodyLen len ≤ (f'.pages f.root).bodyLen len) :
    ∀ first next high, f'.pages f.root ≠ .internal first [] next high := by
  intro _ _ _ h
  cases n with
  | zero =>
    rcases hg' with ⟨_, hes, _⟩
    rw [h] at hes
    simp [strip] at hes
  | succ =>
    rcases hg with ⟨_, es', hnd, _⟩
    rw [hnd, h] at hbody
    cases es' with
    | nil => exact hkids _ _ _ hnd
    | cons =>
      simp only [bodyLen, internalEntrySize, map_cons, sum_cons,
        map_nil, sum_nil] at hbody
      omega

/-- A root with room takes the pair. -/
theorem descend_root (hmk : f.maxKey ≤ 9) (hlow : low ≤ 4000) (hk : 1 ≤ len k ∧ len k ≤ f.maxKey)
    (ht : Tree len low o f n) (hfuel : n < fuel)
    (habsent : o ≠ .loose → k ∉ entriesOf f.pages n f.root)
    (hasc : o = .ascending → ∀ e ∈ entriesOf f.pages n f.root, e < k)
    (hfull : ¬ (f.pages f.root).full len f.maxKey k) :
    ∃ f', (insertLoop len k (fuel + 1)).run f = some (.ok (), f') ∧
      f'.maxKey = f.maxKey ∧ f.count ≤ f'.count ∧ Tree len low o f' n ∧
      (o ≠ .loose →
        entriesOf f'.pages n f'.root = insertEntry (entriesOf f.pages n f.root) k) := by
  have htarget : Target o f n true f.root none none k :=
    ⟨fun l hl => absurd hl (by simp),
      fun h hh => absurd hh (by simp), habsent,
      fun h => ⟨rfl, hasc h⟩⟩
  rcases insertDescend_spec hmk hlow hk hfuel ht.sub htarget hfull with ⟨f', hrun, hins⟩
  refine ⟨f', ?_, hins.maxKey, hins.count, ?_, ?_⟩
  · rw [run_insertLoop_descend ht.root_ne hfull hrun]
    rfl
  · have hsub := ht.sub.grow (fun _ h => h) hins.toGrows hins.good
    refine ⟨?_, ?_, ?_, ?_⟩
    · rw [hins.root, hins.maxKey]
      exact hsub
    · rw [hins.root, hins.firstLeaf, hins.spine]
      exact ht.firstLeaf
    · rw [hins.root]
      exact hins.own.fits ht.fits
    · rw [hins.root]
      exact kids_of_body ht.sub.good ht.kids hins.good hins.own.body
  · intro ho
    rw [hins.root, hins.entries ho]

omit [LinearOrder κ] in
theorem rootSplit_pages (f : IndexFile κ) (root no : Nat) (left right image : IndexNode κ)
    (q : Nat) :
    (withRootNo (withRoot (f.split root left right) image) no).pages q =
      if q = f.count + 1 then image
      else if q = f.count then right else if q = root then left else f.pages q := by
  show (withRoot (f.split root left right) image).pages q = _
  rw [withRoot, IndexFile.setPage_pages, IndexFile.grow_pages, IndexFile.split_count,
    IndexFile.split_pages]
  by_cases h : q = f.count + 1
  · rw [if_pos h, if_pos h]
  · rw [if_neg h, if_neg h, if_neg h]

/-- The two halves of a root under a new one. -/
theorem newRoot_tree {sep : κ} {left right : IndexNode κ} {f₁ : IndexFile κ} (hmk : f.maxKey ≤ 9)
    (ht : Tree len low o f n) (hf₁ : f₁ = withRootNo (withRoot (f.split f.root left right)
      (rootAbove f.root sep f.count)) (f.count + 1)) (hsep : (rules len f.maxKey low o).key sep)
    (hleft : (rules len f.maxKey low o).node false left.strip)
    (hright : (rules len f.maxKey low o).node true right.strip)
    (hhalves : Halves (rules len f.maxKey low o) f₁.pages n true f.root f.count none
      sep noNext none (pagesOf f.pages n f.root ++ [f.count]) (spine f.pages n f.root)
      (entriesOf f.pages n f.root)) :
    Tree len low o f₁ (n + 1) ∧
      entriesOf f₁.pages (n + 1) f₁.root = entriesOf f.pages n f.root ∧
      ¬ (f₁.pages f₁.root).full len f₁.maxKey k := by
  have hrlt := (ht.sub.inFile f.root (self_mem_pagesOf f.pages n f.root)).2
  have hroot : f₁.root = f.count + 1 := by rw [hf₁]; rfl
  have hmax : f₁.maxKey = f.maxKey := by rw [hf₁]; rfl
  have hcount : f₁.count = f.count + 2 := by rw [hf₁]; rfl
  have hat : ∀ q, f₁.pages q = if q = f.count + 1 then rootAbove f.root sep f.count
      else if q = f.count then right else if q = f.root then left else f.pages q := by
    intro q
    rw [hf₁, rootSplit_pages]
  have hr : f₁.pages (f.count + 1) = .internal f.root [(sep, f.count)] 0 none := by
    rw [hat, if_pos rfl]
    rfl
  have hl₁ : f₁.pages f.root = left := by
    rw [hat, if_neg (by omega), if_neg (by omega), if_pos rfl]
  have hr₁ : f₁.pages f.count = right := by
    rw [hat, if_neg (by omega), if_pos rfl]
  have hpages : pagesOf f₁.pages (n + 1) (f.count + 1) =
      (f.count + 1) :: (pagesOf f₁.pages n f.root ++ pagesOf f₁.pages n f.count) := by
    rw [pagesOf_internal none hr]
    simp [kids]
  have hmem : ∀ q, q ∈ pagesOf f₁.pages n f.root ++ pagesOf f₁.pages n f.count →
      0 < q ∧ q < f.count + 1 := by
    intro q hq
    rcases mem_append.mp (hhalves.perm.mem_iff.mp hq) with hold | hnew
    · have := ht.sub.inFile q hold
      omega
    · rw [mem_singleton.mp hnew]
      omega
  have hlen := hsep.2
  refine ⟨⟨⟨?_, ?_, ?_, ?_⟩, ?_, ?_, ?_⟩, ?_, ?_⟩
  · rw [hroot, hmax]
    exact ⟨f.root, [(sep, f.count)], hr,
      hhalves.row (by rw [hl₁]; exact hleft) (by rw [hr₁]; exact hright)⟩
  · rw [hroot, hpages, nodup_cons, hhalves.perm.nodup_iff]
    refine ⟨fun h => ?_, nodup_append.mpr ⟨ht.sub.nodup, nodup_singleton _, ?_⟩⟩
    · have := (hmem _ h).2
      omega
    intro a ha _ hb hab
    have := (ht.sub.inFile a ha).2
    rw [mem_singleton.mp hb] at hab
    omega
  · intro q hq
    rw [hroot, hpages] at hq
    rw [hcount]
    rcases mem_cons.mp hq with _ | hin
    · omega
    · have := hmem q hin
      omega
  · intro _ hh
    cases hh
  · have hfirst : f₁.firstLeaf = f.firstLeaf := by rw [hf₁]; rfl
    rw [hroot, hfirst, ht.firstLeaf, spine, if_neg (by omega), hr]
    show spine f.pages n f.root 0 = spine f₁.pages n f.root 0
    rw [hhalves.spine]
  · rw [hroot, hr]
    simp only [bytesUsed, bodyLen, IndexNode.high, nodeHeaderLen,
      internalEntrySize, map_cons, map_nil, sum_cons, sum_nil, pageSize]
    omega
  · intro _ _ _ h
    rw [hroot, hr] at h
    simp [internal.injEq] at h
  · rw [hroot, entriesOf_internal none hr]
    simp only [kids, map_cons, map_nil, flatMap_cons, flatMap_nil, append_nil]
    exact hhalves.entries
  · rw [hroot, hr, hmax]
    simp only [full, bytesUsed, bodyLen, IndexNode.high,
      nodeHeaderLen, internalEntrySize, map_cons, map_nil, sum_cons, sum_nil, pageSize, not_lt]
    omega

/-- A full root is split, and the new root has room. -/
theorem rootSplit_spec (hmk : f.maxKey ≤ 9) (hlow : low ≤ 4000) (hk : len k ≤ f.maxKey)
    (ht : Tree len low o f n) (hfull : (f.pages f.root).full len f.maxKey k) :
    ∃ f₁ no, (splitRoot len f.root).run f = some (.ok no, f₁) ∧
      (withRootNo f₁ no).maxKey = f.maxKey ∧ f.count ≤ (withRootNo f₁ no).count ∧
      Tree len low o (withRootNo f₁ no) (n + 1) ∧
      entriesOf (withRootNo f₁ no).pages (n + 1) (withRootNo f₁ no).root =
        entriesOf f.pages n f.root ∧
      ¬ ((withRootNo f₁ no).pages (withRootNo f₁ no).root).full len
        (withRootNo f₁ no).maxKey k := by
  have hrlt := (ht.sub.inFile f.root (self_mem_pagesOf f.pages n f.root)).2
  have hfits := ht.fits
  have hnone : ∀ h : κ, (none : Option κ) = some h → ShortKey len h :=
    nofun
  -- A separator fits the new root.
  have habove : ∀ (sep : κ) (no : Nat), (rules len f.maxKey low o).key sep →
      (rootAbove f.root sep no).bytesUsed len ≤ pageSize := by
    intro sep _ hsep
    have := hsep.2
    simp only [rootAbove, bytesUsed, bodyLen, IndexNode.high, nodeHeaderLen,
      internalEntrySize, map_cons, map_nil, sum_cons, sum_nil, pageSize]
    omega
  cases n with
  | zero =>
    rcases ht.sub.good with ⟨es, hes, hkeys⟩
    rcases IndexNode.strip_leaf_iff.mp hes with ⟨_, hnd⟩
    have hent : entriesOf f.pages 0 f.root = es := by simp only [entriesOf, hnd, leafEntries]
    have hshort : ∀ e ∈ es, ShortKey len e := fun e he => rules_key_short hmk (hkeys.keys e he)
    rw [hnd] at hfits hfull
    simp only [full, bytesUsed, bodyLen, IndexNode.high,
      nodeHeaderLen, leafEntrySize, pageSize] at hfits hfull
    rcases splitLeaf_even f.root f.count 0 (noNext 0) hshort hnone
        (by simp only [leafEntrySize]; omega) (by simp only [leafEntrySize]; omega) with
      ⟨m, sep, hm1, hmlt, hsep, hsplit, hhl, hhr⟩
    have hsepkey := hkeys.keys sep (mem_of_getElem? hsep)
    refine ⟨_, _, run_splitRoot_leaf hrlt hnd hsplit (habove sep f.count hsepkey), rfl,
      by show f.count ≤ f.count + 2; omega, ?_⟩
    refine newRoot_tree hmk ht rfl hsepkey (hhl.node hlow false) (hhr.node hlow true) ?_
    rw [hent]
    refine leaf_halves hkeys hm1 hsep ?_ ?_
    · rw [rootSplit_pages, if_neg (by omega), if_neg (by omega), if_pos rfl]
      rfl
    · rw [rootSplit_pages, if_neg (by omega), if_pos rfl]
      rfl
  | succ n =>
    rcases ht.sub.good with ⟨first, es, hnd, _⟩
    have hkey := ht.sub.entry_key hnd
    have hshort : ∀ e ∈ es, ShortKey len e.1 := fun e he => rules_key_short hmk (hkey e he)
    rw [hnd] at hfits hfull
    simp only [full, bytesUsed, bodyLen, IndexNode.high,
      nodeHeaderLen, internalEntrySize, pageSize] at hfits hfull
    rcases splitInternal_even f.count first (noNext (n + 1)) hshort hnone
        (by simp only [internalEntrySize]; omega) (by simp only [internalEntrySize]; omega) with
      ⟨m, e, hm1, hmlt, hsep, hsplit, hhl, hhr⟩
    have hsepkey := hkey e (mem_of_getElem? hsep)
    refine ⟨_, _, run_splitRoot_internal hrlt hnd hsplit (habove e.1 f.count hsepkey), rfl,
      by show f.count ≤ f.count + 2; omega, ?_⟩
    refine newRoot_tree hmk ht rfl hsepkey (hhl.node hlow false) (hhr.node hlow true) ?_
    refine node_halves ht.sub.good hnd hsep ?_ ?_ ?_
    · rw [rootSplit_pages, if_neg (by omega), if_neg (by omega), if_pos rfl]
    · rw [rootSplit_pages, if_neg (by omega), if_pos rfl]
    · intro q hq
      have hqr := ht.sub.below hnd hq
      rw [rootSplit_pages, if_neg (by omega), if_neg (by omega), if_neg hqr.1]

theorem firstLeaf_tree (hcount : 0 < f.count) :
    Tree len low o (withFirstLeaf f) 0 ∧
      entriesOf (withFirstLeaf f).pages 0 (withFirstLeaf f).root = [] := by
  have hat : (withFirstLeaf f).pages f.count = .leaf [] 0 0 none := by
    show (f.grow.setPage f.count (.leaf [] 0 0 none)).pages f.count = _
    rw [IndexFile.setPage_pages, if_pos rfl]
  have hroot : (withFirstLeaf f).root = f.count := rfl
  have hnone : ∀ k : κ, (none : Option κ) = some k → ([] : List κ).head? = some k :=
    nofun
  have hnil : ∀ e ∈ ([] : List κ), (rules len f.maxKey low o).key e :=
    nofun
  refine ⟨⟨⟨⟨[], ?_, hnone, hnil, fun h => absurd rfl h, fun _ => ⟨List.Pairwise.nil, ?_, hnone⟩⟩,
    nodup_singleton _, ?_, ?_⟩, rfl, ?_, ?_⟩, ?_⟩
  · rw [hroot, hat]
    rfl
  · exact nofun
  · intro _ hq
    rw [mem_singleton.mp hq, hroot]
    show 0 < f.count ∧ f.count < f.count + 1
    omega
  · exact nofun
  · rw [hroot, hat]
    simp only [bytesUsed, bodyLen, IndexNode.high, nodeHeaderLen,
      map_nil, sum_nil, pageSize]
    omega
  · intro _ _ _ h
    rw [hroot, hat] at h
    cases h
  · rw [hroot, entriesOf, hat]
    rfl

/-- A tree takes an absent pair, after a split of its root if it is full. -/
theorem insertLoop_tree (hmk : f.maxKey ≤ 9) (hlow : low ≤ 4000) (hk : 1 ≤ len k ∧ len k ≤ f.maxKey)
    (ht : Tree len low o f n) (hfuel : n + 3 < fuel)
    (habsent : o ≠ .loose → k ∉ entriesOf f.pages n f.root)
    (hasc : o = .ascending → ∀ e ∈ entriesOf f.pages n f.root, e < k) :
    ∃ f' n', (insertLoop len k fuel).run f = some (.ok (), f') ∧
      f'.maxKey = f.maxKey ∧ f.count ≤ f'.count ∧ n ≤ n' ∧ n' ≤ n + 1 ∧ Tree len low o f' n' ∧
      (o ≠ .loose →
        entriesOf f'.pages n' f'.root = insertEntry (entriesOf f.pages n f.root) k) := by
  by_cases hfull : (f.pages f.root).full len f.maxKey k
  · rcases rootSplit_spec hmk hlow hk.2 ht hfull with
      ⟨f₁, no, hrun, hmax₁, hcount₁, ht₁, hent₁, hfull₁⟩
    obtain ⟨fuel, rfl⟩ : ∃ m, fuel = m + 2 := ⟨fuel - 2, by omega⟩
    have hfuel' : n + 1 < fuel := by omega
    rcases descend_root (by rw [hmax₁]; exact hmk) hlow (by rw [hmax₁]; exact hk) ht₁ hfuel'
      (by rw [hent₁]; exact habsent) (by rw [hent₁]; exact hasc) hfull₁ with
      ⟨f', hrun', hmax', hcount', ht', hent'⟩
    refine ⟨f', n + 1, ?_, hmax'.trans hmax₁, le_trans hcount₁ hcount', by omega, le_refl _, ht',
      ?_⟩
    · rw [run_insertLoop_full (fuel + 1) ht.root_ne hfull hrun]
      exact hrun'
    · intro ho
      rw [hent' ho, hent₁]
  · obtain ⟨fuel, rfl⟩ : ∃ m, fuel = m + 1 := ⟨fuel - 1, by omega⟩
    rcases descend_root hmk hlow hk ht (by omega : n < fuel) habsent hasc hfull with
      ⟨f', hrun, hmax, hcount, ht', hent⟩
    exact ⟨f', n, hrun, hmax, hcount, le_refl _, by omega, ht', hent⟩

/-- An insert of an absent short key succeeds, and the file has it. -/
theorem insert_spec {xs : List κ} (hlow : low ≤ 4000) (h : Holds len low o f xs)
    (hk : ShortKey len k) (habsent : o ≠ .loose → k ∉ xs)
    (hasc : o = .ascending → ∀ e ∈ xs, e < k) :
    ∃ fuel f', (insert len fuel k).run f = some (.ok (), f') ∧
      Holds len low o f' (insertEntry xs k) := by
  have hmax : (withMaxKey f (len k)).maxKey ≤ 9 ∧ len k ≤ (withMaxKey f (len k)).maxKey := by
    have hk2 := hk.2
    have := h.maxKey
    rw [withMaxKey]
    split
    · have hmod : len k % 2 ^ 16 = len k := Nat.mod_eq_of_lt (by omega)
      show len k % 2 ^ 16 ≤ 9 ∧ len k ≤ len k % 2 ^ 16
      omega
    · omega
  have hascord : o = .ascending → o ≠ .loose := by
    intro h
    rw [h]
    decide
  rcases withMaxKey_eq f (len k) with ⟨m, hm⟩
  rw [hm] at hmax
  rcases h.tree with ⟨hroot, _, hxs⟩ | ⟨n, ht, hent⟩
  · rcases (firstLeaf_tree (f := { f with maxKey := m }) h.count : Tree len low o _ 0 ∧ _) with
      ⟨ht, hent⟩
    have hmaxF : (withFirstLeaf { f with maxKey := m }).maxKey ≤ 9 := hmax.1
    rcases insertLoop_tree hmaxF hlow ⟨hk.1, hmax.2⟩ ht (by omega : 0 + 3 < 4)
      (fun _ => by rw [hent]; exact not_mem_nil)
      (fun _ => by rw [hent]; exact forall_mem_nil _) with
      ⟨f', n', hrun, hmax', hcount', _, _, ht', hent'⟩
    refine ⟨5, f', ?_, hmax' ▸ hmax.1, Nat.lt_of_lt_of_le (Nat.succ_pos _) hcount',
      .inr ⟨n', ht', ?_⟩⟩
    · rw [run_insert, hm, run_insertLoop_empty (f := { f with maxKey := m }) 4 hroot]
      exact hrun
    · intro ho
      rw [hent' ho, hent, hxs ho]
  · have ht₁ := ht.withMaxKey hk.2
    rw [hm] at ht₁
    rcases insertLoop_tree hmax.1 hlow ⟨hk.1, hmax.2⟩ ht₁ (by omega : n + 3 < n + 4)
      (fun ho => by rw [hent ho]; exact habsent ho)
      (fun ha => by rw [hent (hascord ha)]; exact hasc ha) with
      ⟨f', n', hrun, hmax', hcount', _, _, ht', hent'⟩
    refine ⟨n + 4, f', ?_, hmax' ▸ hmax.1, Nat.lt_of_lt_of_le h.count hcount',
      .inr ⟨n', ht', ?_⟩⟩
    · rw [run_insert, hm]
      exact hrun
    · intro ho
      rw [hent' ho, hent ho]

end ChibiDb.IndexTree
