import ChibiDb.Index.LeafChain

/-!
# Reading a Tree

A descent in a tree ends at the leaf that covers the key, so a search finds exactly the
row ids of its key, in order, and a range scan the pairs within its bounds. A cursor from
the first leaf yields every pair.

## Theorems

* `descend_spec`: The leaf of a key, with the leaves before and behind it.
* `Sub.position`: Where a search or a scan starts, and what is left from there.
* `search_spec`, `scanRange_spec`: The row ids of a key, and the pairs within bounds.
* `enumerate_spec`: All pairs in order.
-/

namespace ChibiDb.IndexTree

open List Option Bool

open IndexProg

variable {n : Nat}

section Descend

variable {κ : Type} [LinearOrder κ] {R : Rules κ} {f : IndexFile κ} {x : κ}

variable {fuel next p : Nat}

theorem run_descend_leaf {prev : Nat} {es : List κ} {high : Option κ}
    (hnd : f.pages p = .leaf es prev next high) (hpast : pastHigh high x = false) :
    (descend x (fuel + 1) p).run f = some (.ok p, f) := by
  rw [descend, run_bind, run_readPage, andThen_ok, hnd]
  simp [IndexNode.high, hpast, run_pure]

theorem run_descend_internal {first : Nat} {es : List (κ × Nat)} {high : Option κ}
    (hnd : f.pages p = .internal first es next high) (hpast : pastHigh high x = false) :
    (descend x (fuel + 1) p).run f = (descend x fuel (childFor first es x)).run f := by
  rw [descend, run_bind, run_readPage, andThen_ok, hnd]
  simp only [IndexNode.high, hpast, false_eq_true, if_false]
  rw [run_bind, run_readPage, andThen_ok, hnd]

/-- A descent ends at a leaf: the leaves before it have smaller keys only, those behind it
    larger ones. -/
theorem descend_spec (hfuel : n < fuel) (ho : R.ordered) {last : Bool} {lo : Option κ}
    {nx : Nat → Nat} {high : Option κ} (hg : Good f.pages R n last p lo nx high)
    (hhigh : ∀ h, high = some h → x < h) :
    ∃ leaf ps qs, (descend x fuel p).run f = some (.ok leaf, f) ∧
      leavesOf f.pages n p = ps ++ leaf :: qs ∧ (∀ e ∈ leafKeys f.pages ps, e < x) ∧
      ∀ e ∈ leafKeys f.pages qs, x < e := by
  induction n generalizing fuel p last lo nx high with
  | zero =>
    obtain ⟨fuel, rfl⟩ : ∃ m, fuel = m + 1 := ⟨fuel - 1, by omega⟩
    rcases hg with ⟨es, hes, _⟩
    rcases IndexNode.strip_leaf_iff.mp hes with ⟨_, hnd⟩
    exact ⟨p, [], [], run_descend_leaf hnd (pastHigh_false hhigh), rfl,
      nofun, nofun⟩
  | succ n ih =>
    obtain ⟨fuel, rfl⟩ : ∃ m, fuel = m + 1 := ⟨fuel - 1, by omega⟩
    rcases hg with ⟨first, es, hnd, hrow⟩
    rcases childFor_split lo first es x with ⟨pre, _, post, hkids, hloc, hpost⟩
    have hbounds := row_bounds ho hrow hkids hloc hpost
    have hrow' := hrow
    rw [hkids] at hrow'
    have hchild := ((chain_append last pre _ nx high).mp hrow').2.1.2
    have hhigh' : ∀ h, highOf post high = some h → x < h := by
      intro h hh
      cases post with
      | nil => exact hhigh h hh
      | cons => exact hpost h hh
    rcases ih (by omega : n < fuel) hchild hhigh' with ⟨leaf, ps, qs, hrun, hleaves, hps, hqs⟩
    have hrowKeys : ∀ ks : List (Sibling κ),
        leafKeys f.pages (ks.flatMap (fun k => leavesOf f.pages n k.2)) =
          rowEntries f.pages n ks := by
      intro _
      simp only [leafKeys, rowEntries, flatMap_assoc]
      apply flatMap_congr
      intro k _
      exact leafKeys_leavesOf f.pages n k.2
    refine ⟨leaf, pre.flatMap (fun k => leavesOf f.pages n k.2) ++ ps,
      qs ++ post.flatMap (fun k => leavesOf f.pages n k.2), ?_, ?_, ?_, ?_⟩
    · rw [run_descend_internal hnd (pastHigh_false hhigh)]
      exact hrun
    · rw [leavesOf_internal lo hnd, hkids, flatMap_append, flatMap_cons, hleaves]
      simp
    · intro e he
      rw [leafKeys_append, hrowKeys] at he
      rcases mem_append.mp he with hl | hr
      · exact hbounds.1 e hl
      · exact hps e hr
    · intro e he
      rw [leafKeys_append, hrowKeys] at he
      rcases mem_append.mp he with hl | hr
      · exact hqs e hl
      · exact hbounds.2 e hr

end Descend

section Lists

variable {κ : Type} {c after past : κ → Bool} {es : List κ}

/-- Behind the first key that `c` does not hold of it holds of none. -/
theorem drop_takeWhile (hs : es.Pairwise (fun a b => c b = true → c a = true)) :
    es.drop (es.takeWhile c).length = es.filter (fun e => !c e) := by
  induction es with
  | nil => rfl
  | cons a es ih =>
    rcases pairwise_cons.mp hs with ⟨ha, hs⟩
    cases hca : c a with
    | true => simpa [hca] using ih hs
    | false =>
      have hrest : es.filter (fun e => !c e) = es := by
        refine filter_eq_self.mpr (fun e he => ?_)
        by_contra hce
        cases hca.symm.trans (ha e he (by simpa using hce))
      simp [hca, hrest]

/-- A scan of the keys behind a position takes the keys within, if those before it are out
    of range and keys past the end are followed by such keys only. -/
theorem scanLeaf_filter
    (hs : es.Pairwise (fun a b => c a = false → past a = true → past b = true))
    (hc : ∀ e, c e = true → after e = true → past e = true) :
    (scanLeaf after past (es.filter (fun e => !c e))).1 =
      es.filter (fun e => after e && !past e) := by
  induction es with
  | nil => rfl
  | cons a es ih =>
    rcases pairwise_cons.mp hs with ⟨ha, hs⟩
    have hrest := ih hs
    cases hca : c a with
    | true =>
      rw [filter_cons_of_neg (by simp [hca]), hrest, filter_cons_of_neg (by simpa using hc a hca)]
    | false =>
      rw [filter_cons_of_pos (by simp [hca]), scanLeaf, filter_cons]
      cases hp : past a with
      | false => cases after a <;> simp [hrest]
      | true =>
        have hnone : es.filter (fun e => after e && !past e) = [] :=
          filter_eq_nil_iff.mpr (fun e he => by simp [ha e he hca hp])
        cases after a <;> simp [hrest, hnone]

end Lists

section Keys

variable {a b : IndexKey} {key : List UInt8}

theorem indexKey_lt_iff :
    a < b ↔ a.key.map UInt8.toNat < b.key.map UInt8.toNat ∨
      a.key.map UInt8.toNat = b.key.map UInt8.toNat ∧
        (a.rid.pageNo < b.rid.pageNo ∨
          a.rid.pageNo = b.rid.pageNo ∧ a.rid.slot < b.rid.slot) := by
  show a.toTuple < b.toTuple ↔ _
  simp only [IndexKey.toTuple, Prod.Lex.toLex_lt_toLex]

theorem map_toNat_inj {a b : List UInt8} (h : a.map UInt8.toNat = b.map UInt8.toNat) : a = b :=
  map_injective_iff.mpr (fun _ _ h => UInt8.toNat_inj.mp h) h

theorem key_le_of_le (h : a ≤ b) : a.key.map UInt8.toNat ≤ b.key.map UInt8.toNat := by
  rcases h.lt_or_eq with hlt | rfl
  · exact (indexKey_lt_iff.mp hlt).elim (fun h => h.le) (fun h => h.1.le)
  · exact le_rfl

theorem lt_lowest_iff : a < lowest key ↔ a.key.map UInt8.toNat < key.map UInt8.toNat := by
  simp [indexKey_lt_iff, lowest]

end Keys

section Whole

/-- The file has no tree and no keys, or a tree with the keys `xs`. -/
def Stores {κ : Type} [LinearOrder κ] (R : Rules κ) (f : IndexFile κ) (xs : List κ) : Prop :=
  (f.root = 0 ∧ f.firstLeaf = 0 ∧ xs = []) ∨
    ∃ n, Sub f R n true f.root none noNext none ∧ f.firstLeaf = spine f.pages n f.root 0 ∧
      entriesOf f.pages n f.root = xs

theorem Sub.leaves {κ : Type} [LinearOrder κ] {R : Rules κ} {f : IndexFile κ}
    (hs : Sub f R n true f.root none noNext none)
    (hfirst : f.firstLeaf = spine f.pages n f.root 0) :
    f.root ≠ 0 ∧ LinkedLeaves f.pages (leavesOf f.pages n f.root) 0 ∧
      (∀ q ∈ leavesOf f.pages n f.root, q ≠ 0) ∧
      ∃ ps, leavesOf f.pages n f.root = f.firstLeaf :: ps := by
  rcases hs.good.linked with ⟨hlink, ps, hps⟩
  have hroot := (hs.inFile f.root (self_mem_pagesOf f.pages n f.root)).1
  refine ⟨by omega, hlink, ?_, ps, by rw [hps, hfirst]⟩
  intro q hq _
  have := (hs.inFile q (leavesOf_subset f.root q hq)).1
  omega

/-- A descent ends at a leaf where `c` finds the first key that it does not hold of. -/
theorem Sub.position {κ : Type} [LinearOrder κ] {R : Rules κ} {f : IndexFile κ} (ho : R.ordered)
    (hs : Sub f R n true f.root none noNext none)
    (hfirst : f.firstLeaf = spine f.pages n f.root 0) {x : κ} {c : κ → Bool}
    (hlt : ∀ e, e < x → c e = true) (hgt : ∀ e, x < e → c e = false) :
    ∃ fuel leaf qs, (descend x fuel f.root).run f = some (.ok leaf, f) ∧
      LinkedLeaves f.pages (leaf :: qs) 0 ∧ (∀ q ∈ qs, q ≠ 0) ∧ qs.length < fuel ∧
      (∀ e ∈ leafKeys f.pages qs, x < e) ∧
      (leafEntries (f.pages leaf)).drop ((leafEntries (f.pages leaf)).takeWhile c).length ++
        leafKeys f.pages qs = (entriesOf f.pages n f.root).filter (fun e => !c e) := by
  rcases hs.leaves hfirst with ⟨-, hlink, hne, _⟩
  have hsorted := (hs.good.within ho).sorted
  have hfuel : n < n + (leavesOf f.pages n f.root).length + 1 := by omega
  rcases descend_spec hfuel ho hs.good (x := x) nofun with ⟨leaf, ps, qs, hrun, hleaves, hps, hqs⟩
  have hlen := congrArg length hleaves
  rw [length_append, length_cons] at hlen
  rw [← leafKeys_leavesOf, hleaves, leafKeys_append, leafKeys_cons] at hsorted ⊢
  rw [hleaves] at hlink hne
  refine ⟨_, leaf, qs, hrun, ((linkedLeaves_append ..).mp hlink).2,
    fun q hq => hne q (mem_append_right _ (mem_cons_of_mem _ hq)), by omega, hqs, ?_⟩
  have hbefore : (leafKeys f.pages ps).filter (fun e => !c e) = [] :=
    filter_eq_nil_iff.mpr (fun e he => by simp [hlt e (hps e he)])
  have hbehind : (leafKeys f.pages qs).filter (fun e => !c e) = leafKeys f.pages qs :=
    filter_eq_self.mpr (fun e he => by simp [hgt e (hqs e he)])
  have hdown : ∀ a b, a < b → c b = true → c a = true := by
    intro a b hab hb
    refine hlt a (hab.trans_le (not_lt.mp fun hxb => ?_))
    cases hb.symm.trans (hgt b hxb)
  have hleaf := (pairwise_append.mp (pairwise_append.mp hsorted).2.1).1
  rw [drop_takeWhile (hleaf.imp (hdown _ _)), filter_append, filter_append, hbefore, hbehind]
  rfl

theorem Holds.stores {κ : Type} [LinearOrder κ] {len : κ → Nat} {low : Nat} {o : KeyOrder}
    {f : IndexFile κ} {xs : List κ} (h : Holds len low o f xs) (ho : o ≠ .loose) :
    Stores (rules len f.maxKey low o) f xs := by
  rcases h.tree with ⟨hroot, hfirst, hxs⟩ | ⟨n, ht, hent⟩
  · exact .inl ⟨hroot, hfirst, hxs ho⟩
  · exact .inr ⟨n, ht.sub, ht.firstLeaf, hent ho⟩

variable {R : Rules IndexKey} {f : IndexFile IndexKey} {xs : List IndexKey}

/-- A search returns the row ids of its key. -/
theorem search_spec (ho : R.ordered) (h : Stores R f xs) (key : List UInt8) :
    ∃ fuel, (search fuel key).run f =
      some (.ok ((xs.filter (fun e => decide (e.key = key))).map IndexKey.rid), f) := by
  rcases h with ⟨hroot, _, rfl⟩ | ⟨n, hs, hfirst, hent⟩
  · refine ⟨0, ?_⟩
    rw [search, run_bind, run_rootNo, andThen_ok, if_pos hroot]
    rfl
  rcases hs.position ho hfirst (x := lowest key) (fun _ he => decide_eq_true he)
    (fun _ he => decide_eq_false he.le.not_gt) with
    ⟨fuel, leaf, qs, hrun, hlink, hne, hfuel, hqs, hsuf⟩
  refine ⟨fuel, ?_⟩
  have hloop := run_searchLoop (fun e => decide (e.key = key)) hlink hne hqs hfuel
  rw [leafLowerBound, hsuf, hent, scanLeaf_filter] at hloop
  · rw [search, run_bind, run_rootNo, andThen_ok, if_neg (hs.leaves hfirst).1, run_bind, hrun,
      andThen_ok, run_bind, hloop, andThen_ok, run_pure]
    simp
  · refine (hent ▸ (hs.good.within ho).sorted : xs.Pairwise _).imp (fun {a b} hab ha hne => ?_)
    -- A key between two pairs of one key is that key.
    simp only [Bool.not_eq_true', decide_eq_false_iff_not, lt_lowest_iff, not_lt] at ha hne ⊢
    rintro rfl
    exact hne (map_toNat_inj (le_antisymm (key_le_of_le hab.le) ha))
  · intro e he _
    have hlt := lt_lowest_iff.mp (of_decide_eq_true he)
    simp only [Bool.not_eq_true', decide_eq_false_iff_not]
    rintro rfl
    exact lt_irrefl _ hlt

/-- A scan from the first key that `c` does not hold of. -/
theorem scan_from (ho : R.ordered) (hs : Sub f R n true f.root none noNext none)
    (hfirst : f.firstLeaf = spine f.pages n f.root 0)
    {x : IndexKey} {c after past : IndexKey → Bool} (hlt : ∀ e, e < x → c e = true)
    (hgt : ∀ e, x < e → c e = false) (hc : ∀ e, c e = true → after e = false)
    (hpast : (entriesOf f.pages n f.root).Pairwise
      (fun a b => c a = false → past a = true → past b = true)) :
    ∃ fuel, (do
      let leaf ← descend x fuel f.root
      let pos ← leafPosition leaf (fun es => (es.takeWhile c).length)
      scanLoop after past fuel leaf pos : IndexProg _ _).run f =
        some (.ok ((entriesOf f.pages n f.root).filter (fun e => after e && !past e)), f) := by
  rcases hs.position ho hfirst hlt hgt with ⟨fuel, leaf, qs, hrun, hlink, hne, hfuel, -, hsuf⟩
  refine ⟨fuel, ?_⟩
  have hloop : (scanLoop _ _ fuel leaf ((leafEntries (f.pages leaf)).takeWhile c).length).run f =
    _ := run_scanLoop after past hlink hne hfuel
  rw [hsuf, scanLeaf_filter hpast (fun e h h' => by cases (hc e h).symm.trans h')] at hloop
  rcases hlink with ⟨⟨es, prev, high, hnd⟩, _⟩
  rw [hnd] at hloop
  rw [run_bind, hrun, andThen_ok, run_bind, leafPosition, run_bind, run_readPage, andThen_ok, hnd]
  exact hloop

/-- A scan returns the pairs within its bounds in order. -/
theorem scanRange_spec (ho : R.ordered) (h : Stores R f xs) (start stop : Bound) :
    ∃ fuel, (scanRange fuel start stop).run f =
      some (.ok (xs.filter (fun e => afterStart start e && !pastEnd stop e)), f) := by
  rcases h with ⟨hroot, _, rfl⟩ | ⟨n, hs, hfirst, rfl⟩
  · refine ⟨0, ?_⟩
    rw [scanRange, run_bind, run_rootNo, andThen_ok, if_pos hroot]
    rfl
  rcases hs.leaves hfirst with ⟨hroot, hlink, hne, ps, hps⟩
  have hpast : ∀ c : IndexKey → Bool, (entriesOf f.pages n f.root).Pairwise
      (fun a b => c a = false → pastEnd stop a = true → pastEnd stop b = true) := by
    refine fun c => (hs.good.within ho).sorted.imp (fun hab _ h => ?_)
    have hle := key_le_of_le hab.le
    cases stop <;> simp only [pastEnd, keyLt, decide_eq_true_eq, Bool.not_eq_true',
      decide_eq_false_iff_not, not_lt] at h ⊢
    · exact h.trans_le hle
    · exact h.trans hle
    · exact h
  have hrun : ∀ fuel, (scanRange fuel start stop).run f = _ := fun fuel => by
    rw [scanRange, run_bind, run_rootNo, andThen_ok, if_neg hroot]
  simp only [hrun]
  cases start with
  | unbounded =>
    rw [hps] at hlink hne
    have hloop : (scanLoop _ _ (ps.length + 1) f.firstLeaf 0).run f = _ :=
      run_scanLoop (afterStart .unbounded) (pastEnd stop) hlink (forall_mem_cons.mp hne).2
        (Nat.lt_succ_self ps.length)
    have hall : (scanLeaf (afterStart .unbounded) _ _).1 = _ :=
      scanLeaf_filter (hpast fun _ => false) nofun
    rw [drop_zero, ← leafKeys_cons, ← hps, leafKeys_leavesOf] at hloop
    simp only [Bool.not_false, filter_true] at hall
    refine ⟨ps.length + 1, ?_⟩
    rw [← hall, ← hloop]
    show (if f.firstLeaf = 0 then _ else _ : IndexProg _ _).run f = _
    rw [if_neg (hne _ mem_cons_self)]
  | included key =>
    refine scan_from ho hs hfirst (x := lowest key) (fun _ he => decide_eq_true he)
      (fun _ he => decide_eq_false he.le.not_gt) (fun e he => ?_) (hpast _)
    simpa [afterStart, keyLt] using lt_lowest_iff.mp (of_decide_eq_true he)
  | excluded key =>
    refine scan_from ho hs hfirst (x := highest key) (fun _ he => decide_eq_true he.le)
      (fun _ he => decide_eq_false he.not_ge) (fun e he => ?_) (hpast _)
    simpa [afterStart, keyLt, highest] using key_le_of_le (of_decide_eq_true he)

/-- A cursor from the first leaf yields every pair in order. -/
theorem enumerate_spec {κ : Type} [LinearOrder κ] {R : Rules κ} {f : IndexFile κ} {xs : List κ}
    (h : Stores R f xs) :
    ∃ fuel, (leafCursor >>= enumerate fuel).run f = some (.ok xs, f) := by
  have hcur : (leafCursor : IndexProg κ LeafCursor).run f =
      some (.ok { leaf := f.firstLeaf, pos := 0 }, f) := rfl
  rcases h with ⟨_, hfirst, rfl⟩ | ⟨_, hs, hfirst, hent⟩
  · have hat : At f 0 { leaf := f.firstLeaf, pos := 0 } [] := by
      rw [hfirst]
      exact At.done 0 0
    refine ⟨2, ?_⟩
    rw [run_bind, hcur, andThen_ok]
    exact run_enumerate hat (by simp only [length_nil]; omega)
  · rcases hs.leaves hfirst with ⟨_, hlink, hne, ps, hps⟩
    have hat := at_start hlink hne (le_refl _)
    rw [leafKeys_leavesOf, hent, hps, headD_cons] at hat
    refine ⟨(f.firstLeaf :: ps).length + xs.length + 2, ?_⟩
    rw [run_bind, hcur, andThen_ok]
    exact run_enumerate hat (by omega)

end Whole

end ChibiDb.IndexTree
