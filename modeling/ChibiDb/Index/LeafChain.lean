import ChibiDb.Index.Read
import ChibiDb.Index.InsertTree
import Mathlib.Data.List.TakeWhile

/-!
# Walking the Leaf Chain

The leaves of a tree are linked from left to right, so a walk along the chain reads all
keys in order. A range scan, a search and a cursor are such walks; each returns what its
list function gives on the keys from its starting point on.

## Main definitions

* `LinkedLeaves`: Leaves in a chain.
* `leafKeys`: The keys of some leaves.
* `At`: What is left to a cursor.

## Theorems

* `Good.linked`: The leaves of a tree are linked.
* `run_scanLoop`, `run_searchLoop`: Walks along the chain.
* `run_enumerate`: A cursor yields every key that is left.
-/

namespace ChibiDb.IndexTree

open List Option

open IndexProg

variable {p : Nat}

section Chain

variable {κ : Type}

/-- Leaves that are linked from left to right, the last one to `stop`. -/
def LinkedLeaves (pages : Nat → IndexNode κ) : List Nat → Nat → Prop
  | [], _ => True
  | p :: ps, stop =>
    (∃ es prev high, pages p = .leaf es prev (ps.headD stop) high) ∧ LinkedLeaves pages ps stop

/-- The keys of a chain of leaves. -/
def leafKeys (pages : Nat → IndexNode κ) (ps : List Nat) : List κ :=
  ps.flatMap (fun p => leafEntries (pages p))

@[simp] theorem leafKeys_cons (pages : Nat → IndexNode κ) (p : Nat) (ps : List Nat) :
    leafKeys pages (p :: ps) = leafEntries (pages p) ++ leafKeys pages ps := flatMap_cons

@[simp] theorem leafKeys_append (pages : Nat → IndexNode κ) (ps qs : List Nat) :
    leafKeys pages (ps ++ qs) = leafKeys pages ps ++ leafKeys pages qs := flatMap_append

theorem linkedLeaves_append (pages : Nat → IndexNode κ) (ps qs : List Nat) (stop : Nat) :
    LinkedLeaves pages (ps ++ qs) stop ↔
      LinkedLeaves pages ps (qs.headD stop) ∧ LinkedLeaves pages qs stop := by
  induction ps with
  | nil => exact ⟨fun h => ⟨trivial, h⟩, fun h => h.2⟩
  | cons _ ps ih =>
    simp [LinkedLeaves, ih, and_assoc]

/-- The keys of a tree are those of its leaves. -/
theorem leafKeys_leavesOf (pages : Nat → IndexNode κ) (n p : Nat) :
    leafKeys pages (leavesOf pages n p) = entriesOf pages n p := by
  induction n generalizing p with
  | zero => simp only [leavesOf, leafKeys, flatMap_cons, flatMap_nil, append_nil, entriesOf]
  | succ _ ih =>
    simp only [leavesOf, entriesOf, leafKeys, flatMap_assoc]
    apply flatMap_congr
    intro c _
    exact ih c

variable {n : Nat} {last : Bool} {nx : Nat → Nat}

theorem leavesOf_subset {pages : Nat → IndexNode κ} (p : Nat) :
    ∀ q ∈ leavesOf pages n p, q ∈ pagesOf pages n p := by
  induction n generalizing p with
  | zero => exact fun q hq => hq
  | succ _ ih =>
    intro q hq
    rcases mem_flatMap.mp hq with ⟨c, hc, hqc⟩
    exact mem_cons_of_mem _ (mem_flatMap.mpr ⟨c, hc, ih c q hqc⟩)

variable [LinearOrder κ] {R : Rules κ} {pages : Nat → IndexNode κ}

/-- The leaves of a tree are linked, from the lowest page of its left edge. -/
theorem Good.linked {lo high : Option κ} (hg : Good pages R n last p lo nx high) :
    LinkedLeaves pages (leavesOf pages n p) (nx 0) ∧
      ∃ ps, leavesOf pages n p = spine pages n p 0 :: ps := by
  induction n generalizing p last lo nx high with
  | zero =>
    rcases hg with ⟨es, hes, _⟩
    rcases IndexNode.strip_leaf_iff.mp hes with ⟨prev, hnd⟩
    exact ⟨⟨⟨es, prev, high, hnd⟩, trivial⟩, ⟨[], rfl⟩⟩
  | succ n ih =>
    rcases hg with ⟨first, _, hnd, hrow⟩
    -- A row of linked trees starts at the left edge of its first tree.
    have hwalk : ∀ ks : List (Sibling κ), ∀ k, GoodRow pages R n last (k :: ks) nx high →
        LinkedLeaves pages ((k :: ks).flatMap (fun k => leavesOf pages n k.2)) (nx 0) ∧
          ∃ ps, (k :: ks).flatMap (fun k => leavesOf pages n k.2) =
            spine pages n k.2 0 :: ps := by
      intro ks
      induction ks with
      | nil =>
        intro k hk
        simp only [flatMap_cons, flatMap_nil, append_nil]
        exact ih hk.1.2
      | cons k' _ ihks =>
        intro _ hk
        rcases ihks k' hk.2 with ⟨hrest, _, hps'⟩
        rcases ih hk.1.2 with ⟨hhere, ps, hps⟩
        rw [flatMap_cons]
        refine ⟨(linkedLeaves_append ..).mpr ⟨?_, hrest⟩, ⟨ps ++ _, by rw [hps]; rfl⟩⟩
        rw [hps']
        exact hhere
    have hstart : spine pages (n + 1) p 0 = spine pages n first 0 := by
      rw [spine, if_neg (by omega), hnd]
    rw [leavesOf_internal lo hnd, hstart]
    exact hwalk _ _ hrow

end Chain

section Walks

variable {κ : Type} {f : IndexFile κ}

theorem scanLeaf_append (after past : κ → Bool) (xs ys : List κ) :
    scanLeaf after past (xs ++ ys) =
      if (scanLeaf after past xs).2 = true then scanLeaf after past xs
      else ((scanLeaf after past xs).1 ++ (scanLeaf after past ys).1,
        (scanLeaf after past ys).2) := by
  induction xs with
  | nil => simp only [nil_append, scanLeaf, Bool.false_eq_true, if_false, Prod.mk.eta]
  | cons x _ ih =>
    simp only [cons_append, scanLeaf, ih]
    by_cases hafter : after x
    · by_cases hpast : past x
      · simp [hafter, hpast]
      simp only [hafter, hpast, Bool.not_true, Bool.false_eq_true, if_false]
      split <;> rfl
    · simp [hafter]

variable {fuel m next pos prev : Nat} {ps : List Nat} {cur : LeafCursor}

theorem run_scanLoop_leaf (after past : κ → Bool) {es : List κ} {high : Option κ}
    (hnd : f.pages p = .leaf es prev next high) :
    (scanLoop after past (fuel + 1) p pos).run f =
      if (scanLeaf after past (es.drop pos)).2 = true ∨ next = 0 then
        some (.ok (scanLeaf after past (es.drop pos)).1, f)
      else
        ((scanLoop after past fuel next 0).run f).andThen
          (fun rest => pure ((scanLeaf after past (es.drop pos)).1 ++ rest)) := by
  rw [scanLoop, run_bind, run_readPage, andThen_ok, hnd]
  by_cases hstop : (scanLeaf after past (es.drop pos)).2 = true ∨ next = 0
  · simp only [if_pos hstop, run_pure]
  · simp only [if_neg hstop]
    exact run_bind _ _ _

theorem run_searchLoop_leaf [LinearOrder κ] (x : κ) (same : κ → Bool) {es : List κ}
    {high : Option κ} (hnd : f.pages p = .leaf es prev next high) :
    (searchLoop x same (fuel + 1) p).run f =
      if (scanLeaf (fun _ => true) (fun e => !same e) (es.drop (leafLowerBound es x))).2 = true ∨
          next = 0 then
        some (.ok (scanLeaf (fun _ => true) (fun e => !same e)
          (es.drop (leafLowerBound es x))).1, f)
      else
        ((searchLoop x same fuel next).run f).andThen
          (fun rest => pure ((scanLeaf (fun _ => true) (fun e => !same e)
            (es.drop (leafLowerBound es x))).1 ++ rest)) := by
  rw [searchLoop, run_bind, run_readPage, andThen_ok, hnd]
  by_cases hstop : (scanLeaf (fun _ => true) (fun e => !same e)
      (es.drop (leafLowerBound es x))).2 = true ∨ next = 0
  · simp only [if_pos hstop, run_pure]
  · simp only [if_neg hstop]
    exact run_bind _ _ _

/-- A scan takes what the list function takes from the keys behind its position. -/
theorem run_scanLoop (after past : κ → Bool) (hlink : LinkedLeaves f.pages (p :: ps) 0)
    (hne : ∀ q ∈ ps, q ≠ 0) (hfuel : ps.length < fuel) :
    (scanLoop after past fuel p pos).run f =
      some (.ok (scanLeaf after past
        ((leafEntries (f.pages p)).drop pos ++ leafKeys f.pages ps)).1, f) := by
  induction ps generalizing fuel p pos with
  | nil =>
    rcases hlink with ⟨⟨es, prev, high, hnd⟩, _⟩
    obtain ⟨fuel, rfl⟩ : ∃ m, fuel = m + 1 := ⟨fuel - 1, by omega⟩
    have hents : leafEntries (f.pages p) = es := by rw [hnd]; rfl
    rw [run_scanLoop_leaf after past hnd, if_pos (.inr (headD_nil ..)), hents, leafKeys,
      flatMap_nil, append_nil]
  | cons q ps ih =>
    rcases hlink with ⟨⟨es, _, _, hnd⟩, hrest⟩
    obtain ⟨fuel, rfl⟩ : ∃ m, fuel = m + 1 := ⟨fuel - 1, by omega⟩
    have hents : leafEntries (f.pages p) = es := by rw [hnd]; rfl
    have hq : (q :: ps).headD 0 ≠ 0 := hne q mem_cons_self
    have ih' : (scanLoop after past fuel q 0).run f = _ :=
      ih hrest (forall_mem_cons.mp hne).2 (Nat.lt_of_succ_lt_succ hfuel)
    rw [run_scanLoop_leaf after past hnd, hents, scanLeaf_append]
    by_cases hstop : (scanLeaf after past (es.drop pos)).2 = true
    · rw [if_pos (.inl hstop), if_pos hstop]
    · rw [if_neg (not_or.mpr ⟨hstop, hq⟩), if_neg hstop, headD_cons, ih', andThen_ok,
        run_pure, drop_zero, leafKeys_cons]

/-- A search takes what the list function takes from the keys not below the one sought. -/
theorem run_searchLoop [LinearOrder κ] {x : κ} (same : κ → Bool)
    (hlink : LinkedLeaves f.pages (p :: ps) 0) (hne : ∀ q ∈ ps, q ≠ 0)
    (habove : ∀ e ∈ leafKeys f.pages ps, x < e) (hfuel : ps.length < fuel) :
    (searchLoop x same fuel p).run f =
      some (.ok (scanLeaf (fun _ => true) (fun e => !same e)
        ((leafEntries (f.pages p)).drop (leafLowerBound (leafEntries (f.pages p)) x) ++
          leafKeys f.pages ps)).1, f) := by
  rw [← run_scanLoop _ _ hlink hne hfuel]
  -- A scan that starts at the lower bound: the leaves behind are taken from their start.
  induction ps generalizing fuel p with
  | nil =>
    rcases hlink with ⟨⟨es, prev, high, hnd⟩, _⟩
    obtain ⟨fuel, rfl⟩ : ∃ m, fuel = m + 1 := ⟨fuel - 1, by omega⟩
    have hents : leafEntries (f.pages p) = es := by rw [hnd]; rfl
    rw [run_searchLoop_leaf x same hnd, run_scanLoop_leaf _ _ hnd, hents,
      if_pos (.inr (headD_nil ..)), if_pos (.inr (headD_nil ..))]
  | cons q ps ih =>
    rcases hlink with ⟨⟨es, _, _, hnd⟩, hrest⟩
    obtain ⟨fuel, rfl⟩ : ∃ m, fuel = m + 1 := ⟨fuel - 1, by omega⟩
    have hents : leafEntries (f.pages p) = es := by rw [hnd]; rfl
    rw [leafKeys_cons] at habove
    have hlow : leafLowerBound (leafEntries (f.pages q)) x = 0 := by
      rw [leafLowerBound, takeWhile_eq_nil_iff.mpr, length_nil]
      exact fun hl => by simpa using (habove _ (mem_append_left _ (getElem_mem hl))).le
    have ih' := ih hrest (forall_mem_cons.mp hne).2
      (fun e he => habove e (mem_append_right _ he)) (Nat.lt_of_succ_lt_succ hfuel)
    rw [hlow] at ih'
    rw [run_searchLoop_leaf x same hnd, run_scanLoop_leaf _ _ hnd, hents, headD_cons, ih']

/-- What is left to a cursor: the keys behind its position, in at most `m` leaves. -/
inductive At (f : IndexFile κ) : Nat → LeafCursor → List κ → Prop
  | done (m pos : Nat) : At f m { leaf := 0, pos := pos } []
  | here (m p pos : Nat) (ps : List Nat) (hlink : LinkedLeaves f.pages (p :: ps) 0)
      (hne : ∀ q ∈ p :: ps, q ≠ 0) (hm : ps.length < m) :
      At f m { leaf := p, pos := pos }
        ((leafEntries (f.pages p)).drop pos ++ leafKeys f.pages ps)

/-- The leaf chain from a page on, or the end. -/
theorem at_start (hlink : LinkedLeaves f.pages ps 0) (hne : ∀ q ∈ ps, q ≠ 0) (hm : ps.length ≤ m) :
    At f m { leaf := ps.headD 0, pos := 0 } (leafKeys f.pages ps) := by
  cases ps with
  | nil => exact At.done m 0
  | cons p ps =>
    rw [leafKeys_cons]
    exact At.here m p 0 ps hlink hne (by simp only [length_cons] at hm; omega)

theorem At.mono {m' : Nat} {xs : List κ} (h : At f m cur xs) (hm : m ≤ m') : At f m' cur xs := by
  cases h with
  | done pos => exact At.done m' pos
  | here p pos ps hlink hne => exact At.here m' p pos ps hlink hne (by omega)

theorem run_nextEntry_some {es : List κ} {high : Option κ} {e : κ} (hp : p ≠ 0)
    (hnd : f.pages p = .leaf es prev next high) (hat : es[pos]? = some e) :
    (nextEntry (fuel + 1) { leaf := p, pos := pos }).run f =
      some (.ok (some e, { leaf := p, pos := pos + 1 }), f) := by
  rw [nextEntry, if_neg hp, run_bind, run_readPage, andThen_ok, hnd]
  simp only [hat, run_pure]

theorem run_nextEntry_none {es : List κ} {high : Option κ} (hp : p ≠ 0)
    (hnd : f.pages p = .leaf es prev next high) (hat : es[pos]? = none) :
    (nextEntry (fuel + 1) { leaf := p, pos := pos }).run f =
      (nextEntry fuel { leaf := next, pos := 0 }).run f := by
  rw [nextEntry, if_neg hp, run_bind, run_readPage, andThen_ok, hnd]
  simp only [hat]
  rw [run_bind, run_readPage, andThen_ok, hnd]
  rfl

/-- The next entry of a cursor is the first one left to it. -/
theorem run_nextEntry {xs : List κ} (h : At f m cur xs) (hfuel : m < fuel) :
    ∃ cur', (nextEntry fuel cur).run f = some (.ok (xs.head?, cur'), f) ∧ At f m cur' xs.tail := by
  induction fuel generalizing cur xs m with
  | zero => omega
  | succ _ ih =>
    cases h with
    | done pos => exact ⟨_, by rw [nextEntry]; rfl, At.done m pos⟩
    | here p pos ps hlink hne hm =>
      rcases hlink.1 with ⟨es, _, _, hnd⟩
      have hp : p ≠ 0 := hne p mem_cons_self
      have hents : leafEntries (f.pages p) = es := by rw [hnd]; rfl
      cases hat : es[pos]? with
      | some e =>
        rcases List.getElem?_eq_some_iff.mp hat with ⟨hlt, heq⟩
        have hdrop : es.drop pos = e :: es.drop (pos + 1) := by
          rw [drop_eq_getElem_cons hlt, heq]
        have hnext := At.here m p (pos + 1) ps hlink hne hm
        rw [hents] at hnext ⊢
        rw [hdrop]
        exact ⟨_, run_nextEntry_some hp hnd hat, hnext⟩
      | none =>
        have hdrop : es.drop pos = [] :=
          drop_eq_nil_of_le (getElem?_eq_none_iff.mp hat)
        have hnext : At f (m - 1) { leaf := ps.headD 0, pos := 0 } (leafKeys f.pages ps) :=
          at_start hlink.2 (forall_mem_cons.mp hne).2 (by omega)
        rcases ih hnext (by omega) with ⟨cur', hrun, hcur'⟩
        rw [hents, hdrop, nil_append, run_nextEntry_none hp hnd hat]
        exact ⟨cur', hrun, hcur'.mono (by omega)⟩

/-- A cursor yields every key that is left to it. -/
theorem run_enumerate {xs : List κ} (h : At f m cur xs) (hfuel : m + xs.length + 1 < fuel) :
    (enumerate fuel cur).run f = some (.ok xs, f) := by
  induction xs generalizing fuel cur with
  | nil =>
    obtain ⟨fuel, rfl⟩ : ∃ m, fuel = m + 1 := ⟨fuel - 1, by omega⟩
    rcases run_nextEntry h (by omega : m < fuel) with ⟨cur', hrun, _⟩
    rw [enumerate, run_bind, hrun, andThen_ok]
    rfl
  | cons x _ ih =>
    obtain ⟨fuel, rfl⟩ : ∃ m, fuel = m + 1 := ⟨fuel - 1, by omega⟩
    simp only [length_cons] at hfuel
    rcases run_nextEntry h (by omega : m < fuel) with ⟨cur', hrun, hcur'⟩
    rw [enumerate, run_bind, hrun, andThen_ok]
    show (enumerate fuel cur' >>= fun rest => pure (x :: rest)).run f = _
    rw [run_bind, ih hcur' (by omega), andThen_ok, run_pure]

end Walks

end ChibiDb.IndexTree
