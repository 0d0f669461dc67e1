import ChibiDb.Index.Insert

/-!
# Split Points

The split points that the tree chooses. A chosen point leaves two halves that fit a
page, and no point that does so is more even. With keys of one to nine bytes an
overflowing node always has such a point, and its halves are close to half a page: the
running sum of the entry sizes passes the middle in a step of at most one entry.

## Theorems

* `chooseSplit_some`, `chooseSplit_isSome`: The choice is sound and complete.
* `exists_middle`: The entry at which the running sum passes the middle.
* `splitLeaf_even`, `splitInternal_even`: Halves of an overflowing node.
* `split_points_exact`: The choice in any sorted node.
-/

namespace ChibiDb.IndexTree

open List Option

section Choice

variable (left right : Nat → Nat)

/-- Both halves of a split fit into pages. -/
def Fits (m : Nat) : Prop := left m ≤ pageSize ∧ right m ≤ pageSize

/-- How far the halves differ in size. -/
def unevenness (m : Nat) : Nat := (left m - right m) + (right m - left m)

/-- The best point of a list of candidates. -/
def BestOf (ms : List Nat) : Option (Nat × Nat) → Prop
  | none => ∀ m ∈ ms, ¬ Fits left right m
  | some (d, m) => m ∈ ms ∧ Fits left right m ∧ d = unevenness left right m ∧
      ∀ m' ∈ ms, Fits left right m' → d ≤ unevenness left right m'

variable {left right}

variable {best : Option (Nat × Nat)} {m n : Nat}

theorem betterSplit_of_not_fits (h : ¬ Fits left right m) :
    betterSplit left right best m = best := if_neg h

theorem betterSplit_none (h : Fits left right m) :
    betterSplit left right none m = some (unevenness left right m, m) := if_pos h

theorem betterSplit_some {b : Nat × Nat} (h : Fits left right m) :
    betterSplit left right (some b) m =
      if unevenness left right m < b.1 then some (unevenness left right m, m) else some b :=
  if_pos h

theorem forall_mem_snoc {P : Nat → Prop} {ms : List Nat} (h : ∀ m' ∈ ms, P m') (hm : P m) :
    ∀ m' ∈ ms ++ [m], P m' :=
  forall_mem_append.mpr ⟨h, forall_mem_singleton.mpr hm⟩

theorem bestOf_step {ms : List Nat} (h : BestOf left right ms best) (m : Nat) :
    BestOf left right (ms ++ [m]) (betterSplit left right best m) := by
  by_cases hfit : Fits left right m
  · cases best with
    | none =>
      rw [betterSplit_none hfit]
      refine ⟨mem_append_right _ (mem_singleton_self m), hfit, rfl, ?_⟩
      exact forall_mem_snoc (fun m' hold hfit' => absurd hfit' (h m' hold)) (fun _ => le_refl _)
    | some b =>
      rcases h with ⟨hmem, hbfit, hd, hbest⟩
      rw [betterSplit_some hfit]
      by_cases hless : unevenness left right m < b.1
      · rw [if_pos hless]
        refine ⟨mem_append_right _ (mem_singleton_self m), hfit, rfl, ?_⟩
        exact forall_mem_snoc (fun m' hold hfit' => le_trans (le_of_lt hless) (hbest m' hold hfit'))
          (fun _ => le_refl _)
      · rw [if_neg hless]
        exact ⟨mem_append_left _ hmem, hbfit, hd, forall_mem_snoc hbest (fun _ => not_lt.mp hless)⟩
  · rw [betterSplit_of_not_fits hfit]
    cases best with
    | none => exact forall_mem_snoc h hfit
    | some =>
      rcases h with ⟨hmem, hbfit, hd, hbest⟩
      exact ⟨mem_append_left _ hmem, hbfit, hd, forall_mem_snoc hbest (fun h => absurd h hfit)⟩

theorem bestOf_foldl (ms done : List Nat) (best : Option (Nat × Nat))
    (h : BestOf left right done best) :
    BestOf left right (done ++ ms) (ms.foldl (betterSplit left right) best) := by
  induction ms generalizing done best with
  | nil => rwa [append_nil]
  | cons m _ ih =>
    have := ih (done ++ [m]) (betterSplit left right best m) (bestOf_step h m)
    rwa [append_assoc, singleton_append] at this

theorem mem_tail_range : m ∈ (range n).tail ↔ 1 ≤ m ∧ m < n := by
  rw [tail_range, mem_range'_1]
  omega

variable (left right) in
theorem bestOf_candidates (n : Nat) :
    BestOf left right (range n).tail
      ((range n).tail.foldl (betterSplit left right) none) := by
  have hnone : BestOf left right [] none := nofun
  have h := bestOf_foldl (range n).tail [] none hnone
  rwa [nil_append] at h

/-- A chosen point splits into two halves that fit, as evenly as any. -/
theorem chooseSplit_some (h : chooseSplit n left right = some m) :
    1 ≤ m ∧ m < n ∧ Fits left right m ∧
      ∀ m', 1 ≤ m' → m' < n → Fits left right m' →
        unevenness left right m ≤ unevenness left right m' := by
  have hbest := bestOf_candidates left right n
  rw [chooseSplit] at h
  cases hres : (range n).tail.foldl (betterSplit left right) none with
  | none =>
    rw [hres] at h
    simp [map_none] at h
  | some =>
    rw [hres] at h hbest
    cases h
    rcases hbest with ⟨hmem, hfit, hd, hall⟩
    have hrange := mem_tail_range.mp hmem
    refine ⟨hrange.1, hrange.2, hfit, ?_⟩
    intro m' h1 h2 hfit'
    rw [← hd]
    exact hall m' (mem_tail_range.mpr ⟨h1, h2⟩) hfit'

/-- A point is chosen if there is one. -/
theorem chooseSplit_isSome (h1 : 1 ≤ m) (h2 : m < n) (hfit : Fits left right m) :
    ∃ m', chooseSplit n left right = some m' := by
  have hbest := bestOf_candidates left right n
  cases hres : (range n).tail.foldl (betterSplit left right) none with
  | none =>
    rw [hres] at hbest
    exact absurd hfit (hbest m (mem_tail_range.mpr ⟨h1, h2⟩))
  | some b => exact ⟨b.2, by rw [chooseSplit, hres]; rfl⟩

end Choice

section Middle

theorem prefixLen_zero (sizes : List Nat) : prefixLen sizes 0 = 0 := by
  simp [prefixLen]

theorem prefixLen_succ {sizes : List Nat} {i s : Nat} (h : sizes[i]? = some s) :
    prefixLen sizes (i + 1) = prefixLen sizes i + s := by
  simp [prefixLen, take_add_one, h, sum_append]

theorem prefixLen_length (sizes : List Nat) : prefixLen sizes sizes.length = sizes.sum := by
  simp [prefixLen]

theorem prefixLen_add_drop (sizes : List Nat) (m : Nat) :
    prefixLen sizes m + (sizes.drop m).sum = sizes.sum := by
  rw [prefixLen, ← sum_append, take_append_drop]

/-- The entry at which the running sum passes the middle. -/
theorem exists_middle (sizes : List Nat) (h : 0 < sizes.sum) :
    ∃ i, i < sizes.length ∧ 2 * prefixLen sizes i < sizes.sum ∧
      sizes.sum ≤ 2 * prefixLen sizes (i + 1) := by
  have hex : ∃ j, sizes.sum ≤ 2 * prefixLen sizes j :=
    ⟨sizes.length, by rw [prefixLen_length]; omega⟩
  have hfind := Nat.find_spec hex
  have hmin : ∀ j < Nat.find hex, 2 * prefixLen sizes j < sizes.sum :=
    fun j hj => not_le.mp (Nat.find_min hex hj)
  have hle : Nat.find hex ≤ sizes.length :=
    Nat.find_min' hex (by rw [prefixLen_length]; omega)
  cases hj : Nat.find hex with
  | zero =>
    rw [hj, prefixLen_zero] at hfind
    omega
  | succ i =>
    rw [hj] at hfind hmin hle
    exact ⟨i, by omega, hmin i (by omega), hfind⟩

/-- The point chosen in a node that overflowed splits it near the middle. `hl` and `hr`
    are the headers of the halves; `d` is one if the entry at the point moves up. -/
theorem chooseSplit_even {sizes : List Nat} {hl : Nat → Nat} {hr d : Nat} (hd : d ≤ 1)
    (hhl : ∀ m, m < sizes.length → 20 ≤ hl m ∧ hl m ≤ 28) (hhr : 13 ≤ hr ∧ hr ≤ 28)
    (hsize : ∀ s ∈ sizes, s ≤ 17 + 4 * d) (hlow : 8140 ≤ sizes.sum) (hup : sizes.sum ≤ 8200) :
    ∃ m, 1 ≤ m ∧ m < sizes.length ∧
      chooseSplit sizes.length (fun m => hl m + prefixLen sizes m)
        (fun m => hr + (sizes.sum - prefixLen sizes (m + d))) = some m ∧
      4030 ≤ prefixLen sizes m ∧ hl m + prefixLen sizes m ≤ 4200 ∧
      4030 ≤ (sizes.drop (m + d)).sum ∧ hr + (sizes.drop (m + d)).sum ≤ 4200 := by
  -- the entry at a point, and how much of it moves up
  have hat : ∀ m, m < sizes.length → ∃ s t, prefixLen sizes (m + 1) = prefixLen sizes m + s ∧
      prefixLen sizes (m + d) = prefixLen sizes m + t ∧ s ≤ 21 ∧ t ≤ 21 ∧ 2 * s ≤ t + 34 := by
    intro m hm
    have hsucc := prefixLen_succ (getElem?_eq_getElem hm)
    have hs := hsize _ (getElem_mem hm)
    rcases Nat.le_one_iff_eq_zero_or_eq_one.mp hd with rfl | rfl
    · exact ⟨sizes[m], 0, hsucc, rfl, by omega, by omega, by omega⟩
    · exact ⟨sizes[m], sizes[m], hsucc, hsucc, hs, hs, by omega⟩
  have hright : ∀ m, sizes.sum - prefixLen sizes (m + d) = (sizes.drop (m + d)).sum := by
    intro m
    have := prefixLen_add_drop sizes (m + d)
    omega
  -- the entry in the middle is a point that fits and is nearly even
  have hmid : ∃ i, 1 ≤ i ∧ i < sizes.length ∧
      Fits (fun m => hl m + prefixLen sizes m)
        (fun m => hr + (sizes.sum - prefixLen sizes (m + d))) i ∧
      unevenness (fun m => hl m + prefixLen sizes m)
        (fun m => hr + (sizes.sum - prefixLen sizes (m + d))) i ≤ 42 := by
    rcases exists_middle sizes (by omega) with ⟨i, hi, _, _⟩
    rcases hat i hi with ⟨s, t, hs, _, _, _, _⟩
    have := hhl i hi
    have := prefixLen_add_drop sizes (i + d)
    simp only [Fits, unevenness, pageSize, hright]
    refine ⟨i, ?_, hi, by omega, by omega⟩
    rcases Nat.eq_zero_or_pos i with rfl | hpos
    · rw [prefixLen_zero] at hs
      omega
    · exact hpos
  rcases hmid with ⟨i, hi0, hi, hfit, hieven⟩
  rcases chooseSplit_isSome hi0 hi hfit with ⟨m, hm⟩
  rcases chooseSplit_some hm with ⟨hm1, hmlt, _, hbest⟩
  have heven := le_trans (hbest i hi0 hi hfit) hieven
  rcases hat m hmlt with ⟨_, _, _, _, _, _, _⟩
  have := hhl m hmlt
  have := prefixLen_add_drop sizes (m + d)
  simp only [unevenness, hright] at heven
  exact ⟨m, hm1, hmlt, hm, by omega, by omega, by omega, by omega⟩

end Middle

section Halves

variable {κ : Type} {len : κ → Nat}

/-- A key of one to nine bytes. -/
def ShortKey (len : κ → Nat) (k : κ) : Prop := 1 ≤ len k ∧ len k ≤ 9

variable {k : κ} {high : Option κ}

theorem storedHigh_some (h : 1 ≤ len k) : storedHigh len (some k) = some k := by
  rw [storedHigh, filter_some, if_pos (decide_eq_true (by omega))]

theorem storedHigh_of_short (h : ∀ k, high = some k → ShortKey len k) :
    storedHigh len high = high := by
  cases high with
  | none => rfl
  | some k => exact storedHigh_some (h k rfl).1

theorem nodeHeaderLen_of_short (h : ∀ k, high = some k → ShortKey len k) :
    13 ≤ nodeHeaderLen len high ∧ nodeHeaderLen len high ≤ 28 := by
  cases high with
  | none => exact ⟨by simp [nodeHeaderLen], by simp only [nodeHeaderLen]; omega⟩
  | some k =>
    have hk := h k rfl
    simp only [nodeHeaderLen]
    split
    · omega
    · exact ⟨by omega, by have := hk.2; omega⟩

theorem nodeHeaderLen_some (h : ShortKey len k) :
    20 ≤ nodeHeaderLen len (some k) ∧ nodeHeaderLen len (some k) ≤ 28 := by
  have h1 := h.1
  have h2 := h.2
  simp only [nodeHeaderLen]
  rw [if_neg (by omega)]
  omega

/-- A half of a split node. -/
def Half (len : κ → Nat) (nd : IndexNode κ) : Prop :=
  4030 ≤ nd.bodyLen len ∧ nd.bytesUsed len ≤ 4200

theorem buildLeaf_of_half {es : List κ} {prev next : Nat}
    (hhigh : ∀ k, high = some k → ShortKey len k) (h : Half len (.leaf es prev next high)) :
    buildLeaf len es prev next high = some (.leaf es prev next high) := by
  rw [buildLeaf, storedHigh_of_short hhigh]
  exact if_pos (le_trans h.2 (by decide))

theorem buildInternal_of_half {es : List (κ × Nat)} {first next : Nat}
    (hhigh : ∀ k, high = some k → ShortKey len k) (h : Half len (.internal first es next high)) :
    buildInternal len first es next high = some (.internal first es next high) := by
  rw [buildInternal, storedHigh_of_short hhigh]
  exact if_pos (le_trans h.2 (by decide))

/-- A leaf that overflowed is split into two halves. -/
theorem splitLeaf_even (self newNo prev next : Nat) {all : List κ}
    (hkeys : ∀ e ∈ all, ShortKey len e) (hhigh : ∀ k, high = some k → ShortKey len k)
    (hlow : 8140 ≤ (all.map (fun e => leafEntrySize (len e))).sum)
    (hup : (all.map (fun e => leafEntrySize (len e))).sum ≤ 8200) :
    ∃ m sep, 1 ≤ m ∧ m < all.length ∧ all[m]? = some sep ∧
      splitLeaf len self newNo all prev next high =
        some (sep, .leaf (all.take m) prev newNo (some sep), .leaf (all.drop m) self next high) ∧
      Half len (.leaf (all.take m) prev newNo (some sep)) ∧
      Half len (.leaf (all.drop m) self next high) := by
  have hhl : ∀ m, m < (all.map (fun e => leafEntrySize (len e))).length →
      20 ≤ nodeHeaderLen len all[m]? ∧ nodeHeaderLen len all[m]? ≤ 28 := by
    intro m hm
    rw [length_map] at hm
    rw [getElem?_eq_getElem hm]
    exact nodeHeaderLen_some (hkeys _ (getElem_mem hm))
  have hsize : ∀ s ∈ all.map (fun e => leafEntrySize (len e)), s ≤ 17 := by
    intro s hs
    rcases mem_map.mp hs with ⟨e, he, rfl⟩
    have := (hkeys e he).2
    simp only [leafEntrySize]
    omega
  rcases chooseSplit_even (Nat.zero_le 1) hhl (nodeHeaderLen_of_short hhigh) hsize hlow hup with
    ⟨m, hm1, hmlt, hchoose, hL, husedL, hR, husedR⟩
  rw [length_map] at hmlt
  have hsep := getElem?_eq_getElem hmlt
  rw [prefixLen, ← map_take] at hL husedL
  rw [hsep] at husedL
  rw [Nat.add_zero, ← map_drop] at hR husedR
  have hhalfL : Half len (.leaf (all.take m) prev newNo (some all[m])) := ⟨hL, husedL⟩
  have hhalfR : Half len (.leaf (all.drop m) self next high) := ⟨hR, husedR⟩
  refine ⟨m, all[m], hm1, hmlt, hsep, ?_, hhalfL, hhalfR⟩
  have hchoose' : chooseLeafSplit len all high = some m := hchoose
  have hkey : ∀ k, some all[m] = some k → ShortKey len k :=
    fun k hk => some.inj hk ▸ hkeys _ (getElem_mem hmlt)
  simp [splitLeaf, hchoose', hsep, buildLeaf_of_half hkey hhalfL, buildLeaf_of_half hhigh hhalfR]

/-- An internal node that overflowed is split into two halves. -/
theorem splitInternal_even (newNo first next : Nat) {es : List (κ × Nat)}
    (hkeys : ∀ e ∈ es, ShortKey len e.1) (hhigh : ∀ k, high = some k → ShortKey len k)
    (hlow : 8140 ≤ (es.map (fun e => internalEntrySize (len e.1))).sum)
    (hup : (es.map (fun e => internalEntrySize (len e.1))).sum ≤ 8200) :
    ∃ m e, 1 ≤ m ∧ m < es.length ∧ es[m]? = some e ∧
      splitInternal len newNo first es next high =
        some (e.1, .internal first (es.take m) newNo (some e.1),
          .internal e.2 (es.drop (m + 1)) next high) ∧
      Half len (.internal first (es.take m) newNo (some e.1)) ∧
      Half len (.internal e.2 (es.drop (m + 1)) next high) := by
  have hsizes : (es.map Prod.fst).map (fun k => internalEntrySize (len k)) =
      es.map (fun e => internalEntrySize (len e.1)) := map_map
  have hat : ∀ m (hm : m < es.length), (es.map Prod.fst)[m]? = some es[m].1 := by
    intro m hm
    simp [hm]
  have hhl : ∀ m, m < (es.map (fun e => internalEntrySize (len e.1))).length →
      20 ≤ nodeHeaderLen len (es.map Prod.fst)[m]? ∧
        nodeHeaderLen len (es.map Prod.fst)[m]? ≤ 28 := by
    intro m hm
    rw [length_map] at hm
    rw [hat m hm]
    exact nodeHeaderLen_some (hkeys _ (getElem_mem hm))
  have hsize : ∀ s ∈ es.map (fun e => internalEntrySize (len e.1)), s ≤ 17 + 4 * 1 := by
    intro s hs
    rcases mem_map.mp hs with ⟨e, he, rfl⟩
    have := (hkeys e he).2
    simp only [internalEntrySize]
    omega
  rcases chooseSplit_even (le_refl 1) hhl (nodeHeaderLen_of_short hhigh) hsize hlow hup with
    ⟨m, hm1, hmlt, hchoose, hL, husedL, hR, husedR⟩
  rw [length_map] at hmlt
  have hsep := getElem?_eq_getElem hmlt
  rw [prefixLen, ← map_take] at hL husedL
  rw [hat m hmlt] at husedL
  rw [← map_drop] at hR husedR
  have hhalfL : Half len (.internal first (es.take m) newNo (some es[m].1)) := ⟨hL, husedL⟩
  have hhalfR : Half len (.internal es[m].2 (es.drop (m + 1)) next high) := ⟨hR, husedR⟩
  refine ⟨m, es[m], hm1, hmlt, hsep, ?_, hhalfL, hhalfR⟩
  rw [← hsizes] at hchoose
  have hchoose' : chooseInternalSplit len (es.map Prod.fst) high = some m := hchoose
  have hkey : ∀ k, some es[m].1 = some k → ShortKey len k :=
    fun k hk => some.inj hk ▸ hkeys _ (getElem_mem hmlt)
  simp [splitInternal, hchoose', hsep, buildInternal_of_half hkey hhalfL,
    buildInternal_of_half hhigh hhalfR]

end Halves

section Points

variable {κ : Type} (len : κ → Nat)

/-- Index `m` yields two non-empty leaves that fit a page. -/
def SplitsLeaf (all : List κ) (high : Option κ) (m : Nat) : Prop :=
  all.take m ≠ [] ∧ ∃ sep, all[m]? = some sep ∧ ∀ prev next,
    (buildLeaf len (all.take m) prev next (some sep)).isSome ∧
    (buildLeaf len (all.drop m) prev next high).isSome

/-- Index `m` yields two internal nodes that fit a page. The right one has the child of
    the separator that moves up, so it is never empty. -/
def SplitsInternal (es : List (κ × Nat)) (high : Option κ) (m : Nat) : Prop :=
  es.take m ≠ [] ∧ ∃ sep, es[m]? = some sep ∧ ∀ first next,
    (buildInternal len first (es.take m) next (some sep.1)).isSome ∧
    (buildInternal len sep.2 (es.drop (m + 1)) next high).isSome

variable {len} {all : List κ} {es : List (κ × Nat)}

theorem nodeHeaderLen_storedHigh (high : Option κ) :
    nodeHeaderLen len (storedHigh len high) = nodeHeaderLen len high := by
  cases high with
  | none => rfl
  | some k => by_cases hk : len k = 0 <;> simp [storedHigh, nodeHeaderLen, filter_some, hk]

theorem sum_map_sub {α : Type} (f : α → Nat) (l : List α) (m : Nat) :
    (l.map f).sum - ((l.take m).map f).sum = ((l.drop m).map f).sum := by
  have h := prefixLen_add_drop (l.map f) m
  rw [prefixLen, ← map_take, ← map_drop] at h
  omega

theorem take_ne_nil {α : Type} {l : List α} {m : Nat} (hm : m < l.length) :
    l.take m ≠ [] ↔ 1 ≤ m := by
  rw [← length_pos_iff, length_take]
  omega

/-- the choice is sound and complete for whatever the two lengths measure -/
theorem chooseSplit_exact {n : Nat} {left right : Nat → Nat} {P : Nat → Prop}
    (hP : ∀ m, P m ↔ 1 ≤ m ∧ m < n ∧ Fits left right m) :
    (∀ m, chooseSplit n left right = some m → P m) ∧
      (chooseSplit n left right = none → ∀ m, ¬ P m) := by
  refine ⟨fun m h => ?_, fun h m hm => ?_⟩
  · rcases chooseSplit_some h with ⟨h1, hn, hfit, _⟩
    exact (hP m).mpr ⟨h1, hn, hfit⟩
  · rcases (hP m).mp hm with ⟨h1, hn, hfit⟩
    rcases chooseSplit_isSome h1 hn hfit with ⟨_, hsome⟩
    cases h.symm.trans hsome

theorem chooseLeafSplit_exact (all : List κ) (high : Option κ) :
    (∀ m, chooseLeafSplit len all high = some m → SplitsLeaf len all high m) ∧
      (chooseLeafSplit len all high = none → ∀ m, ¬ SplitsLeaf len all high m) := by
  refine chooseSplit_exact fun m => ?_
  by_cases hm : m < all.length
  · simp [SplitsLeaf, take_ne_nil hm, hm, Fits, prefixLen, ← map_take, sum_map_sub, buildLeaf,
      IndexNode.bytesUsed, IndexNode.high, IndexNode.bodyLen, nodeHeaderLen_storedHigh]
  · simp [SplitsLeaf, hm]

theorem chooseInternalSplit_exact (es : List (κ × Nat)) (high : Option κ) :
    (∀ m, chooseInternalSplit len (es.map Prod.fst) high = some m →
        SplitsInternal len es high m) ∧
      (chooseInternalSplit len (es.map Prod.fst) high = none →
        ∀ m, ¬ SplitsInternal len es high m) := by
  refine chooseSplit_exact fun m => ?_
  by_cases hm : m < es.length
  · simp [SplitsInternal, take_ne_nil hm, hm, Fits, prefixLen, ← map_take, sum_map_sub,
      buildInternal, IndexNode.bytesUsed, IndexNode.high, IndexNode.bodyLen,
      nodeHeaderLen_storedHigh, Function.comp_def]
  · simp [SplitsInternal, hm]

theorem pairwise_cut {α : Type} {r : α → α → Prop} {l : List α} {m : Nat} {x : α}
    (h : l.Pairwise r) (hx : l[m]? = some x) :
    (∀ y ∈ l.take m, r y x) ∧ ∀ y ∈ l.drop (m + 1), r x y := by
  rcases List.getElem?_eq_some_iff.mp hx with ⟨hm, rfl⟩
  rw [← take_append_drop m l, drop_eq_getElem_cons hm, pairwise_append, pairwise_cons] at h
  exact ⟨fun y hy => h.2.2 y hy _ mem_cons_self, h.2.1.1⟩

/-- A chosen point cuts a sorted node into halves that fit and that the separator keeps
    apart, and a point is chosen whenever there is one. -/
theorem split_points_exact [LinearOrder κ] (high : Option κ)
    (hall : all.Pairwise (· < ·)) (hes : es.Pairwise (fun a b => a.1 < b.1)) :
    (∀ m, chooseLeafSplit len all high = some m → SplitsLeaf len all high m ∧
      ∃ sep, all[m]? = some sep ∧ (∀ k ∈ all.take m, k < sep) ∧ ∀ k ∈ all.drop m, sep ≤ k) ∧
    (chooseLeafSplit len all high = none → ∀ m, ¬ SplitsLeaf len all high m) ∧
    (∀ m, chooseInternalSplit len (es.map Prod.fst) high = some m →
      SplitsInternal len es high m ∧
      ∃ sep, es[m]? = some sep ∧ (∀ e ∈ es.take m, e.1 < sep.1) ∧
        ∀ e ∈ es.drop (m + 1), sep.1 < e.1) ∧
    (chooseInternalSplit len (es.map Prod.fst) high = none →
      ∀ m, ¬ SplitsInternal len es high m) := by
  rcases chooseLeafSplit_exact all high with ⟨hleaf, hnoLeaf⟩
  rcases chooseInternalSplit_exact es high with ⟨hint, hnoInt⟩
  refine ⟨fun m h => ⟨hleaf m h, ?_⟩, hnoLeaf, fun m h => ⟨hint m h, ?_⟩, hnoInt⟩
  · rcases hleaf m h with ⟨_, sep, hsep, _⟩
    have hcut := pairwise_cut hall hsep
    refine ⟨sep, hsep, hcut.1, ?_⟩
    rcases List.getElem?_eq_some_iff.mp hsep with ⟨hm, rfl⟩
    rw [drop_eq_getElem_cons hm]
    exact forall_mem_cons.mpr ⟨le_refl _, fun k hk => le_of_lt (hcut.2 k hk)⟩
  · rcases hint m h with ⟨_, sep, hsep, _⟩
    exact ⟨sep, hsep, pairwise_cut hes hsep⟩

theorem split_points_exact_two :
    SplitsLeaf (fun _ => 1) [1, 2] none 1 ∧
      ∀ m, ¬ SplitsInternal (fun _ => 9000) [(1, 7), (2, 8)] none m := by
  have hkeys : [1, 2].Pairwise (· < ·) := by decide
  have hseps : [(1, 7), (2, 8)].Pairwise (fun a b => a.1 < b.1) := by decide
  refine ⟨((split_points_exact none hkeys hseps).1 1 (by decide)).1, ?_⟩
  exact (split_points_exact none hkeys hseps).2.2.2 (by decide)

end Points

end ChibiDb.IndexTree
