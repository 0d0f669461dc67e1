import ChibiDb.Index.SplitSpec

/-!
# The Descent of an Insert

The descent of an insert into a tree of short keys, by induction on the depth. A level
either passes the key on to a child with room, or splits the child first; the parent has
room for the separator because it was not full.

## Main definitions

* `Target`: The tree is where the pair belongs.

## Theorems

* `splitChild_leaf_spec`, `splitChild_internal_spec`: The split of a full child.
* `insertDescend_spec`: The descent inserts the pair and asks for no restart.
-/

namespace ChibiDb.IndexTree

open List Option
open IndexNode (bodyLen bytesUsed bytesUsed_strip full strip strip_leaf_iff)
open IndexFile (setPage_pages split_pages)

open IndexProg

variable {κ : Type} [LinearOrder κ] {len : κ → Nat} {mk low : Nat} {o : KeyOrder} {k : κ}
variable {high : Option κ}

/-- The pair belongs into the tree below `p`, which does not have it if its keys are in order. -/
structure Target (o : KeyOrder) (f : IndexFile κ) (n : Nat) (last : Bool) (p : Nat)
    (lo high : Option κ) (k : κ) : Prop where
  lower : ∀ l, lo = some l → l ≤ k
  upper : ∀ h, high = some h → k < h
  absent : o ≠ .loose → k ∉ entriesOf f.pages n p
  ascending : o = .ascending → last = true ∧ ∀ e ∈ entriesOf f.pages n p, e < k

variable {R : Rules κ} {nd : IndexNode κ} {fuel : Nat}

theorem LeafKeys.insertEntry {lo : Option κ} {es : List κ} (h : LeafKeys R lo es high)
    (hk : R.key k) (hlo : ∀ l, lo = some l → l ≤ k) (hhigh : ∀ h, high = some h → k < h)
    (habsent : R.ordered → k ∉ es) : LeafKeys R lo (insertEntry es k) high := by
  refine ⟨?_, ?_, ?_, fun ho => within_insertEntry (h.within ho) hlo hhigh (habsent ho)⟩
  · intro l hl
    exact head_insertEntry (h.head l hl) (hlo l hl)
  · intro e he
    rcases mem_insertEntry.mp he with heq | hmem
    · exact heq ▸ hk
    · exact h.keys e hmem
  · intro _ hnil
    have : k ∈ IndexTree.insertEntry es k := mem_insertEntry.mpr (.inl rfl)
    rw [hnil] at this
    exact not_mem_nil this

theorem pastHigh_false (h : ∀ x, high = some x → k < x) :
    pastHigh high k = false := by
  cases high with
  | none => rfl
  | some x => simp [pastHigh, h x rfl]

section Sizes

omit [LinearOrder κ] in
theorem sum_insertIdx {es : List (κ × Nat)} {i : Nat} (g : κ × Nat → Nat) (hi : i ≤ es.length)
    (e : κ × Nat) : ((es.insertIdx i e).map g).sum = g e + (es.map g).sum := by
  rw [((perm_insertIdx e es hi).map g).sum_nat, map_cons, sum_cons]

theorem sum_insertEntry (g : κ → Nat) (es : List κ) (k : κ) :
    ((insertEntry es k).map g).sum = g k + (es.map g).sum := by
  rw [((insertEntry_perm es k).map g).sum_nat, map_cons, sum_cons]

omit [LinearOrder κ] in
/-- Both halves of a split obey the rules. -/
theorem Half.node (h : Half len nd) (hlow : low ≤ 4000) (b : Bool) :
    (rules len mk low o).node b nd.strip := by
  refine ⟨?_, ?_, fun _ _ => ?_⟩
  · rw [IndexNode.bodyLen_strip]
    have := h.1
    omega
  · rw [bytesUsed_strip]
    have := h.2
    show _ ≤ 8192
    omega
  · rw [bytesUsed_strip]
    have := h.2
    omega

end Sizes

section Level

variable {f : IndexFile κ} {n p first c : Nat} {last : Bool} {lo loc : Option κ}
  {nx : Nat → Nat} {high : Option κ} {es : List (κ × Nat)} {pre post : List (Sibling κ)}

theorem Target.child (ht : Target o f (n + 1) last p lo high k)
    (hs : Sub f R (n + 1) last p lo nx high)
    (hnd : f.pages p = .internal first es (nx (n + 1)) high)
    (hkids : kids lo first es = pre ++ (loc, c) :: post)
    (hloc : (pre = [] ∧ loc = lo) ∨ ∃ s, loc = some s ∧ s ≤ k)
    (hpost : ∀ s, highOf post none = some s → k < s) :
    Target o f n (last && post.isEmpty) c loc (highOf post high) k := by
  have hent : ∀ e ∈ entriesOf f.pages n c, e ∈ entriesOf f.pages (n + 1) p := by
    intro e he
    rw [entriesOf_internal lo hnd, hkids]
    exact mem_flatMap.mpr ⟨(loc, c), mem_append_right _ mem_cons_self, he⟩
  refine ⟨?_, ?_, fun ho h => ht.absent ho (hent k h), ?_⟩
  · intro l hl
    rcases hloc with ⟨_, hlo⟩ | ⟨s, hs, hle⟩
    · exact ht.lower l (hlo ▸ hl)
    · rw [hs, some.injEq] at hl
      exact hl ▸ hle
  · intro h hh
    cases post with
    | nil => exact ht.upper h hh
    | cons => exact hpost h hh
  · intro hasc
    rcases ht.ascending hasc with ⟨hlast, hall⟩
    refine ⟨?_, fun e he => hall e (hent e he)⟩
    cases post with
    | nil => rw [hlast]; rfl
    | cons k' =>
      -- A child behind this one would hold a larger key.
      have hrow := row_of_good hs.good hnd
      rw [hkids] at hrow
      have hk' := ((chain_append last pre _ nx high).mp hrow).2.2.1.2
      have hne : k'.1 ≠ none := by
        have htail : k' ∈ (kids lo first es).tail := by
          rw [hkids]
          cases pre with
          | nil => exact mem_cons_self
          | cons =>
            exact mem_append_right _ (mem_cons_of_mem _ mem_cons_self)
        exact kids_ne_none htail
      rcases hlo' : k'.1 with _ | s
      · exact absurd hlo' hne
      rw [hlo'] at hk'
      have hmem : s ∈ entriesOf f.pages (n + 1) p := by
        rw [entriesOf_internal lo hnd, hkids]
        exact mem_flatMap.mpr ⟨k', mem_append_right _ (mem_cons_of_mem _ mem_cons_self),
          hk'.lo_mem⟩
      exact absurd (hall s hmem) (not_lt.mpr (le_of_lt (hpost s hlo')))

omit [LinearOrder κ] in
theorem rules_key_short (hmk : mk ≤ 9) {x : κ} (h : (rules len mk low o).key x) :
    ShortKey len x := ⟨h.1, le_trans h.2 hmk⟩

omit [LinearOrder κ] in
/-- The separator of a split child fits its parent, which was not full. -/
theorem splitParent_fits {sep : κ} (no : Nat) (hsep : len sep ≤ mk)
    (hnd : f.pages p = .internal first es (nx (n + 1)) high)
    (hkids : kids lo first es = pre ++ (loc, c) :: post)
    (hfull : ¬ (f.pages p).full len mk k) :
    (splitParent first es (nx (n + 1)) high pre.length sep no).bytesUsed len ≤ pageSize ∧
      (f.pages p).bodyLen len ≤
        (splitParent first es (nx (n + 1)) high pre.length sep no).bodyLen len := by
  have hi : pre.length ≤ es.length := by
    have := congrArg length hkids
    rw [kids_length, length_append, length_cons] at this
    omega
  rw [hnd] at hfull ⊢
  simp only [full, bytesUsed, bodyLen, IndexNode.high,
    internalEntrySize, not_lt] at hfull
  simp only [splitParent, bytesUsed, bodyLen, IndexNode.high,
    internalEntrySize, sum_insertIdx _ hi]
  omega

/-- The separator of a split child goes into the parent. -/
theorem insertSeparator_spec {sep : κ} (hs : Sub f R (n + 1) last p lo nx high)
    (hnd : f.pages p = .internal first es (nx (n + 1)) high)
    (hkids : kids lo first es = pre ++ (loc, c) :: post) (hsep : len sep ≤ mk)
    (hfull : ¬ (f.pages p).full len mk k) (left right : IndexNode κ) :
    ∃ f₁, f₁ = (f.split c left right).setPage p
        (splitParent first es (nx (n + 1)) high pre.length sep f.count) ∧
      (insertSeparator len p c sep f.count).run (f.split c left right) = some (.ok (), f₁) ∧
      f₁.pages p = splitParent first es (nx (n + 1)) high pre.length sep f.count ∧
      f₁.pages c = left ∧ f₁.pages f.count = right ∧ Fuller len (f.pages p) (f₁.pages p) := by
  rcases hs.child_pages hnd hkids with ⟨hclt, _, hpc, hnew⟩
  have hfit := splitParent_fits f.count hsep hnd hkids hfull
  have hp1 : (f.split c left right).pages p = .internal first es (nx (n + 1)) high := by
    rw [split_pages, if_neg (by omega), if_neg hpc, hnd]
  refine ⟨_, rfl, run_insertSeparator hp1 (separatorSlot_of_split hkids hnew) hfit.1,
    ?_, ?_, ?_, ?_⟩
  · rw [setPage_pages, if_pos rfl]
  · rw [setPage_pages, if_neg (fun h => hpc h.symm), split_pages,
      if_neg (by omega), if_pos rfl]
  · rw [setPage_pages, if_neg (by omega), split_pages, if_pos rfl]
  · rw [setPage_pages, if_pos rfl]
    exact ⟨hfit.2, fun _ => hfit.1⟩

/-- A full leaf is split, and the pair is placed in one of its halves. -/
theorem splitChild_leaf_spec (hmk : mk ≤ 9) (hlow : low ≤ 4000)
    (hk : 1 ≤ len k ∧ len k ≤ mk)
    (hs : Sub f (rules len mk low o) 1 last p lo nx high)
    (ht : Target o f 1 last p lo high k)
    (hnd : f.pages p = .internal first es (nx 1) high)
    (hkids : kids lo first es = pre ++ (loc, c) :: post)
    (hloc : (pre = [] ∧ loc = lo) ∨ ∃ s, loc = some s ∧ s ≤ k)
    (hpost : ∀ s, highOf post none = some s → k < s)
    (hfull : ¬ (f.pages p).full len mk k) (hfullc : (f.pages c).full len mk k) :
    ∃ half f', (splitChild len p c k).run f = some (.ok (half, true), f') ∧
      Inserted len (rules len mk low o) f f' 1 last p lo nx high k := by
  rcases hs.child hnd hkids with ⟨hnode, hsc⟩
  have htc := ht.child hs hnd hkids hloc hpost
  rcases hsc.good with ⟨ces, hces, hkeys⟩
  rcases strip_leaf_iff.mp hces with ⟨prev, hc⟩
  have hentc : entriesOf f.pages 0 c = ces := by simp only [entriesOf, hc, leafEntries]
  have habsent := htc.absent
  rw [hentc] at habsent
  -- The keys of the leaf with the new one.
  have hall : LeafKeys (rules len mk low o) loc (insertEntry ces k) (highOf post high) :=
    hkeys.insertEntry hk htc.lower htc.upper habsent
  have hshort : ∀ e ∈ insertEntry ces k, ShortKey len e :=
    fun e he => rules_key_short hmk (hall.keys e he)
  have hhigh : ∀ h, highOf post high = some h → ShortKey len h :=
    fun h hh => rules_key_short hmk (hsc.highKey h hh)
  have hheader := nodeHeaderLen_of_short hhigh
  have hused := hnode.2.1
  rw [hc] at hused hfullc
  simp only [strip, full, bytesUsed, bodyLen,
    IndexNode.high, leafEntrySize, pageSize] at hused hfullc
  have hsum := sum_insertEntry (fun e => leafEntrySize (len e)) ces k
  simp only [leafEntrySize] at hsum
  rcases splitLeaf_even c f.count prev (nextOf (spine f.pages 0) post nx 0) hshort
      hhigh (by simp only [leafEntrySize]; omega) (by simp only [leafEntrySize]; omega) with
    ⟨m, sep, hm1, hmlt, hsep, hsplit, hhl, hhr⟩
  have hsepkey := hall.keys sep (mem_of_getElem? hsep)
  have hclt := (hs.child_pages hnd hkids).1
  rcases insertSeparator_spec hs hnd hkids hsepkey.2 hfull _ _ with
    ⟨f₁, hf₁, hrun, _, hatc, hatno, hown⟩
  refine ⟨_, f₁, by rw [run_splitChild_leaf p hclt hc hsplit, hrun, andThen_ok, run_pure], ?_⟩
  rcases split_lift hs hnd hkids hf₁ (hhl.node hlow false) (hhr.node hlow _)
    (leaf_halves hall hm1 hsep (by rw [hatc]; rfl) (by rw [hatno]; rfl)) with ⟨hgood, hgrows, hents⟩
  refine ⟨hgrows, hgood, ?_, hown⟩
  intro ho
  refine hents.trans ?_
  rw [entriesOf_internal lo hnd, hkids]
  have hbounds := row_bounds ho (row_of_good hs.good hnd) hkids hloc hpost
  show _ = insertEntry (rowEntries f.pages 0 (pre ++ (loc, c) :: post)) k
  rw [rowEntries_append, rowEntries_cons, insertEntry_append hbounds.1 hbounds.2, hentc]

/-- A full internal node is split into two halves with room; the keys stay where they are. -/
theorem splitChild_internal_spec (hmk : mk ≤ 9) (hlow : low ≤ 4000)
    (hs : Sub f (rules len mk low o) (n + 2) last p lo nx high)
    (hnd : f.pages p = .internal first es (nx (n + 2)) high)
    (hkids : kids lo first es = pre ++ (loc, c) :: post)
    (hfull : ¬ (f.pages p).full len mk k) (hfullc : (f.pages c).full len mk k) :
    ∃ sep f', (splitChild len p c k).run f =
        some (.ok (if k < sep then c else f.count, false), f') ∧
      Good f'.pages (rules len mk low o) (n + 2) last p lo nx high ∧ Grows f f' (n + 2) p ∧
      entriesOf f'.pages (n + 2) p = entriesOf f.pages (n + 2) p ∧
      f'.pages p = splitParent first es (nx (n + 2)) high pre.length sep f.count ∧
      (∃ cf ces cnext chigh, f'.pages c = .internal cf ces cnext chigh ∧ Half len (f'.pages c)) ∧
      (∃ cf ces cnext chigh, f'.pages f.count = .internal cf ces cnext chigh ∧
        Half len (f'.pages f.count)) ∧
      Fuller len (f.pages p) (f'.pages p) := by
  rcases hs.child hnd hkids with ⟨hnode, hsc⟩
  rcases hsc.good with ⟨cf, ces, hc, _⟩
  have hshort : ∀ e ∈ ces, ShortKey len e.1 :=
    fun e he => rules_key_short hmk (hsc.entry_key hc e he)
  have hhigh : ∀ h, highOf post high = some h → ShortKey len h :=
    fun h hh => rules_key_short hmk (hsc.highKey h hh)
  have hheader := nodeHeaderLen_of_short hhigh
  have hused := hnode.2.1
  rw [hc] at hused hfullc
  simp only [strip, full, bytesUsed, bodyLen,
    IndexNode.high, internalEntrySize, pageSize] at hused hfullc
  rcases splitInternal_even f.count cf (nextOf (spine f.pages (n + 1)) post nx (n + 1)) hshort
      hhigh (by simp only [internalEntrySize]; omega) (by simp only [internalEntrySize]; omega) with
    ⟨m, e, hm1, hmlt, hsep, hsplit, hhl, hhr⟩
  have hsepkey := hsc.entry_key hc e (mem_of_getElem? hsep)
  have hclt := (hs.child_pages hnd hkids).1
  rcases insertSeparator_spec hs hnd hkids hsepkey.2 hfull _ _ with
    ⟨f₁, hf₁, hrun, hatp, hatc, hatno, hown⟩
  refine ⟨e.1, f₁, by rw [run_splitChild_internal k p hclt hc hsplit, hrun, andThen_ok, run_pure],
    ?_⟩
  have hframe : AgreeOn f.pages f₁.pages (rowPages f.pages n (kids loc cf ces)) := by
    intro q hq
    have hqc := hsc.below hc hq
    have hqp : q ≠ p := by
      refine (hs.below hnd ?_).1
      rw [hkids]
      refine mem_rowPages (mem_append_right _ mem_cons_self) ?_
      rw [pagesOf_internal loc hc]
      exact mem_cons_of_mem _ hq
    rw [hf₁, setPage_pages, if_neg hqp, split_pages, if_neg (by omega),
      if_neg hqc.1]
  rcases split_lift hs hnd hkids hf₁ (hhl.node hlow false) (hhr.node hlow _)
    (node_halves hsc.good hc hsep hatc hatno hframe) with ⟨hgood, hgrows, hents⟩
  refine ⟨hgood, hgrows, ?_, hatp, ?_, ?_, hown⟩
  · refine hents.trans ?_
    rw [entriesOf_internal lo hnd, hkids]
    show _ = rowEntries f.pages (n + 1) (pre ++ (loc, c) :: post)
    rw [rowEntries_append, rowEntries_cons]
  · exact ⟨_, _, _, _, hatc, by rw [hatc]; exact hhl⟩
  · exact ⟨_, _, _, _, hatno, by rw [hatno]; exact hhr⟩

end Level

/-- A leaf with room takes the pair. -/
theorem insert_leaf_spec {f : IndexFile κ} {last : Bool} {p : Nat} {lo : Option κ} {nx : Nat → Nat}
    (hk : 1 ≤ len k ∧ len k ≤ mk)
    (hs : Sub f (rules len mk low o) 0 last p lo nx high) (ht : Target o f 0 last p lo high k)
    (hfull : ¬ (f.pages p).full len mk k) :
    ∃ f', (insertDescend len mk k (fuel + 1) p).run f = some (.ok false, f') ∧
      Inserted len (rules len mk low o) f f' 0 last p lo nx high k := by
  rcases hs.good with ⟨es, hes, hkeys⟩
  rcases strip_leaf_iff.mp hes with ⟨prev, hnd⟩
  have hent : entriesOf f.pages 0 p = es := by simp only [entriesOf, hnd, leafEntries]
  have habsent := ht.absent
  rw [hent] at habsent
  refine ⟨_, run_insertDescend_leaf hnd (pastHigh_false ht.upper) hfull, ?_⟩
  have hself : (f.setPage p (.leaf (insertEntry es k) prev (nx 0) high)).pages p =
      .leaf (insertEntry es k) prev (nx 0) high := by
    rw [setPage_pages, if_pos rfl]
  refine ⟨⟨rfl, rfl, rfl, le_refl _, ⟨[], ?_, nodup_nil, ?_⟩, ?_, rfl⟩, ?_, ?_, ?_⟩
  · rw [append_nil]
    exact List.Perm.refl _
  · exact forall_mem_nil _
  · intro q _ hq
    rw [setPage_pages, if_neg (fun h : q = p => hq (h ▸ mem_singleton_self p))]
  · exact ⟨insertEntry es k, by rw [hself]; rfl,
      hkeys.insertEntry hk ht.lower ht.upper habsent⟩
  · intro _
    simp only [entriesOf, hself, hnd, leafEntries]
  rw [hself]
  rw [hnd] at hfull ⊢
  simp only [full, bytesUsed, bodyLen, IndexNode.high,
    not_lt] at hfull
  constructor
  · simp only [bodyLen, sum_insertEntry]
    omega
  · intro _
    simp only [bytesUsed, bodyLen, IndexNode.high, sum_insertEntry]
    omega

omit [LinearOrder κ] in
/-- A half of a split internal node has room. -/
theorem Half.not_full (h : Half len nd) (hmk : mk ≤ 9) {first next : Nat} {es : List (κ × Nat)}
    (hnd : nd = .internal first es next high) : ¬ nd.full len mk k := by
  have := h.2
  rw [hnd] at this ⊢
  simp only [full, internalEntrySize, pageSize, not_lt]
  omega

/-- The descent inserts an absent pair and asks for no restart. -/
theorem insertDescend_spec (hmk : mk ≤ 9) (hlow : low ≤ 4000) (hk : 1 ≤ len k ∧ len k ≤ mk)
    {n : Nat} (hfuel : n < fuel) {f : IndexFile κ} {last : Bool} {p : Nat} {lo : Option κ}
    {nx : Nat → Nat} (hs : Sub f (rules len mk low o) n last p lo nx high)
    (ht : Target o f n last p lo high k) (hfull : ¬ (f.pages p).full len mk k) :
    ∃ f', (insertDescend len mk k fuel p).run f = some (.ok false, f') ∧
      Inserted len (rules len mk low o) f f' n last p lo nx high k := by
  induction n generalizing fuel f last p lo nx high with
  | zero =>
    cases fuel with
    | zero => omega
    | succ => exact insert_leaf_spec hk hs ht hfull
  | succ n ih =>
    cases fuel with
    | zero => omega
    | succ fuel =>
      rcases hs.good with ⟨first, es, hnd, hrow⟩
      rcases childFor_split lo first es k with ⟨pre, loc, post, hkids, hloc, hpost⟩
      have hfuel' : n < fuel := by omega
      rw [run_insertDescend_internal hnd (pastHigh_false ht.upper) hfull]
      by_cases hfullc : (f.pages (childFor first es k)).full len mk k
      · rw [if_pos hfullc]
        cases n with
        | zero =>
          rcases splitChild_leaf_spec hmk hlow hk hs ht hnd hkids hloc hpost hfull
            hfullc with ⟨half, f', hrun, hins⟩
          exact ⟨f', by rw [hrun, andThen_ok]; rfl, hins⟩
        | succ n =>
          rcases splitChild_internal_spec hmk hlow hs hnd hkids hfull hfullc with
            ⟨sep, f₁, hrun, hgood₁, hgrows₁, hents₁, hp₁, ⟨_, _, _, _, hc₁, hhalf₁⟩,
              ⟨_, _, _, _, hno₁, hhalfno₁⟩, hown₁⟩
          have hs₁ := hs.grow (fun _ h => h) hgrows₁ hgood₁
          have ht₁ : Target o f₁ (n + 2) last p lo high k := by
            refine ⟨ht.lower, ht.upper, ?_, ?_⟩
            · rw [hents₁]
              exact ht.absent
            · rw [hents₁]
              exact ht.ascending
          have hkids₁ := kids_insertIdx hkids sep f.count
          -- The half that covers the key, with the children around it.
          have hinto : ∃ f', (insertDescend len mk k fuel
                (if k < sep then childFor first es k else f.count)).run f₁ =
                  some (.ok false, f') ∧
              Inserted len (rules len mk low o) f₁ f' (n + 2) last p lo nx high k := by
            by_cases hlt : k < sep
            · rw [if_pos hlt]
              have hpost₁ : ∀ s, highOf ((some sep, f.count) :: post) none = some s →
                  k < s := by
                intro s hs'
                exact some.inj hs' ▸ hlt
              rcases hs₁.child hp₁ hkids₁ with ⟨hnode, hsc⟩
              have htc := ht₁.child hs₁ hp₁ hkids₁ hloc hpost₁
              rcases ih hfuel' hsc htc (hhalf₁.not_full hmk hc₁) with
                ⟨f', hrun', hins⟩
              have hb := fun ho => row_bounds ho (row_of_good hgood₁ hp₁) hkids₁ hloc hpost₁
              exact ⟨f', hrun', inserted_lift hs₁ hp₁ hkids₁ hb
                (hins.own.node (fun h => (htc.ascending h).1) hnode) hins⟩
            · rw [if_neg hlt]
              have hkids₂ : kids lo first (es.insertIdx pre.length (sep, f.count)) =
                  (pre ++ [(loc, childFor first es k)]) ++ (some sep, f.count) :: post := by
                rw [hkids₁, append_assoc]
                rfl
              have hloc₂ : (pre ++ [(loc, childFor first es k)] = [] ∧ some sep = lo) ∨
                  ∃ s, some sep = some s ∧ s ≤ k := .inr ⟨sep, rfl, not_lt.mp hlt⟩
              rcases hs₁.child hp₁ hkids₂ with ⟨hnode, hsc⟩
              have htc := ht₁.child hs₁ hp₁ hkids₂ hloc₂ hpost
              rcases ih hfuel' hsc htc (hhalfno₁.not_full hmk hno₁) with
                ⟨f', hrun', hins⟩
              have hb := fun ho => row_bounds ho (row_of_good hgood₁ hp₁) hkids₂ hloc₂ hpost
              exact ⟨f', hrun', inserted_lift hs₁ hp₁ hkids₂ hb
                (hins.own.node (fun h => (htc.ascending h).1) hnode) hins⟩
          rcases hinto with ⟨f', hrun', hins⟩
          refine ⟨f', ?_, hgrows₁.trans hins.toGrows, hins.good, ?_, ?_⟩
          · rw [hrun, andThen_ok]
            exact hrun'
          · intro ho
            rw [hins.entries ho, hents₁]
          · exact ⟨le_trans hown₁.body hins.own.body,
              fun h => hins.own.fits (hown₁.fits h)⟩
      · rw [if_neg hfullc]
        rcases hs.child hnd hkids with ⟨hnode, hsc⟩
        have htc := ht.child hs hnd hkids hloc hpost
        rcases ih hfuel' hsc htc hfullc with ⟨f', hrun, hins⟩
        have hb := fun ho => row_bounds ho hrow hkids hloc hpost
        exact ⟨f', hrun, inserted_lift hs hnd hkids hb
          (hins.own.node (fun h => (htc.ascending h).1) hnode) hins⟩

end ChibiDb.IndexTree
