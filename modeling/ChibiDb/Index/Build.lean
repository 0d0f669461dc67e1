import ChibiDb.Index.Key
import ChibiDb.Index.SearchSpec

/-!
# Building an Index

Inserting distinct pairs with short keys into a fresh file, in any order. Every insert
succeeds, and afterwards the reads of the tree return what was inserted.

## Main definitions

* `Inserts`: A series of inserts that all succeed.

## Theorems

* `build_index`: The built index has exactly the inserted pairs.
* `range_scan_exact`: A range scan returns those between its bounds.
-/

namespace ChibiDb

open List Option

namespace IndexTree

open IndexProg

variable {κ : Type} [LinearOrder κ]

/-- Inserts of the pairs one after the other, each of which returns `Ok`. -/
inductive Inserts (len : κ → Nat) : IndexFile κ → List κ → IndexFile κ → Prop
  | nil (f : IndexFile κ) : Inserts len f [] f
  | cons {f f₁ f' : IndexFile κ} {x : κ} {xs : List κ} {fuel : Nat}
      (hrun : (insert len fuel x).run f = some (.ok (), f₁)) (hrest : Inserts len f₁ xs f') :
      Inserts len f (x :: xs) f'

variable {len : κ → Nat} {low : Nat}

/-- A fresh file holds no keys. -/
theorem holds_init (o : KeyOrder) : Holds len low o (IndexFile.init : IndexFile κ) [] :=
  ⟨Nat.zero_le _, Nat.one_pos, .inl ⟨rfl, rfl, fun _ => rfl⟩⟩

variable {f : IndexFile κ} {xs : List κ}

/-- Every insert succeeds, and the file has the old keys and the new ones. -/
theorem inserts_spec (hlow : low ≤ 4000) {ys : List κ} (h : Holds len low .sorted f ys)
    (hshort : ∀ x ∈ xs, ShortKey len x) (hnd : xs.Nodup) (hnew : ∀ x ∈ xs, x ∉ ys) :
    ∃ f' zs, Inserts len f xs f' ∧ Holds len low .sorted f' zs ∧ zs.Perm (ys ++ xs) := by
  induction xs generalizing f ys with
  | nil => exact ⟨f, ys, Inserts.nil f, h, by rw [append_nil]⟩
  | cons x xs ih =>
    rcases nodup_cons.mp hnd with ⟨hx, hnd'⟩
    rcases insert_spec hlow h (hshort x mem_cons_self) (fun _ => hnew x mem_cons_self) (fun hf =>
      absurd hf (by decide)) with ⟨fuel, f₁, hrun, h₁⟩
    have hnew₁ : ∀ y ∈ xs, y ∉ insertEntry ys x := by
      intro y hy hmem
      rcases mem_insertEntry.mp hmem with heq | hold
      · exact hx (heq ▸ hy)
      · exact hnew y (mem_cons_of_mem _ hy) hold
    rcases ih h₁ (forall_mem_cons.mp hshort).2 hnd' hnew₁ with
      ⟨f', zs, hins, hzs, hperm⟩
    refine ⟨f', zs, Inserts.cons hrun hins, hzs, hperm.trans ?_⟩
    exact ((insertEntry_perm ys x).append_right xs).trans
      (perm_middle.symm : (x :: ys ++ xs).Perm (ys ++ x :: xs))

/-- The keys of a file are in ascending order. -/
theorem Holds.sorted {o : KeyOrder} (h : Holds len low o f xs) (ho : o ≠ .loose) :
    xs.Pairwise (· < ·) := by
  rcases h.tree with ⟨_, _, hxs⟩ | ⟨_, ht, hent⟩
  · rw [hxs ho]
    exact List.Pairwise.nil
  · rw [← hent ho]
    exact (ht.sub.good.within ho).sorted

end IndexTree

open IndexTree

/-- Distinct pairs with short keys can be inserted in any order: every insert succeeds, a
    search returns exactly the row ids inserted with its key in ascending order, and a
    cursor yields all pairs in order. -/
theorem build_index (xs : List IndexKey) (hdistinct : xs.Nodup)
    (hshort : ∀ x ∈ xs, ShortEncoding x.key) :
    ∃ f, Inserts IndexKey.len .init xs f ∧
      (∀ key, ∃ fuel rids, (search fuel key).run f = some (.ok rids, f) ∧
        (rids.map (IndexKey.mk key)).Pairwise (· < ·) ∧ ∀ rid, rid ∈ rids ↔ ⟨key, rid⟩ ∈ xs) ∧
      ∃ fuel es, (leafCursor >>= enumerate fuel).run f = some (.ok es, f) ∧
        es.Pairwise (· < ·) ∧ ∀ e, e ∈ es ↔ e ∈ xs := by
  have hkeys : ∀ x ∈ xs, ShortKey IndexKey.len x :=
    fun x hx => ⟨(hshort x hx).pos, (hshort x hx).short⟩
  rcases inserts_spec (Nat.zero_le 4000) (holds_init .sorted) hkeys hdistinct
    (fun x _ => not_mem_nil) with ⟨f, zs, hins, hholds, hperm⟩
  rw [nil_append] at hperm
  have hord : KeyOrder.sorted ≠ .loose := by decide
  refine ⟨f, hins, ?_, ?_⟩
  · intro key
    rcases search_spec hord (hholds.stores hord) key with ⟨fuel, hrun⟩
    refine ⟨fuel, _, hrun, ?_, ?_⟩
    · -- The pairs of one key, in the order of the tree.
      have hback : ((zs.filter (fun e => decide (e.key = key))).map IndexKey.rid).map
          (IndexKey.mk key) = zs.filter (fun e => decide (e.key = key)) := by
        rw [List.map_map]
        refine (map_congr_left ?_).trans (map_id _)
        intro e he
        have hkey := of_decide_eq_true (mem_filter.mp he).2
        cases e with
        | mk =>
          simp only at hkey
          rw [← hkey]
          rfl
      rw [hback]
      exact (hholds.sorted hord).filter _
    · intro rid
      simp only [List.mem_map, mem_filter, decide_eq_true_eq]
      constructor
      · intro h
        rcases h with ⟨e, ⟨hmem, hkey⟩, hrid⟩
        rw [← hkey, ← hrid]
        exact hperm.mem_iff.mp hmem
      · intro h
        exact ⟨⟨key, rid⟩, ⟨hperm.mem_iff.mpr h, rfl⟩, rfl⟩
  · rcases enumerate_spec (hholds.stores hord) with ⟨fuel, hrun⟩
    exact ⟨fuel, zs, hrun, hholds.sorted hord, fun e => hperm.mem_iff⟩

/-- The pairs of the integers below `n`, in descending order, each with a row of its own. -/
def descendingPairs (n : Nat) : List IndexKey :=
  (List.range n).reverse.map (fun i => ⟨1 :: beBytes 8 ((i + 2 ^ 63 : Int) % 2 ^ 64).toNat, ⟨i, 0⟩⟩)

/-- No pair is there twice. -/
theorem nodup_descendingPairs (n : Nat) : (descendingPairs n).Nodup := by
  refine (nodup_reverse.mpr nodup_range).map ?_
  intro i j hij
  rw [IndexKey.mk.injEq, Rid.mk.injEq] at hij
  exact hij.2.1

/-- Each key is the encoding of its integer, in nine bytes. -/
theorem short_descendingPairs (n : Nat) : ∀ x ∈ descendingPairs n, ShortEncoding x.key := by
  intro x hx
  rcases List.mem_map.mp hx with ⟨i, _, rfl⟩
  refine ⟨⟨.int i, rfl⟩, ?_⟩
  rw [length_cons, beBytes, length_reverse, length_leBytes]

/-- The bytes the pairs take in leaves. -/
theorem size_descendingPairs (n : Nat) :
    ((descendingPairs n).map (fun x => leafEntrySize (IndexKey.len x))).sum = n * 17 := by
  have hsize : ∀ k ∈ (descendingPairs n).map (fun x => leafEntrySize (IndexKey.len x)), k = 17 := by
    intro k hk
    rcases List.mem_map.mp hk with ⟨x, hx, rfl⟩
    rcases List.mem_map.mp hx with ⟨i, _, rfl⟩
    rw [IndexKey.len, length_cons, beBytes, length_reverse, length_leBytes, leafEntrySize]
  rw [eq_replicate_of_mem hsize, sum_replicate, smul_eq_mul, length_map, descendingPairs,
    length_map, length_reverse, length_range]

/-- Two hundred thousand pairs in descending order. They take more than four hundred leaves,
    which is more than one internal node can point to: leaves are split on the way, and an
    internal root. -/
theorem build_index_descending :
    400 * pageSize < ((descendingPairs 200000).map (fun x => leafEntrySize (IndexKey.len x))).sum ∧
      ∃ f, Inserts IndexKey.len .init (descendingPairs 200000) f ∧
        (∀ key, ∃ fuel rids, (search fuel key).run f = some (.ok rids, f) ∧
          (rids.map (IndexKey.mk key)).Pairwise (· < ·) ∧
          ∀ rid, rid ∈ rids ↔ ⟨key, rid⟩ ∈ descendingPairs 200000) ∧
        ∃ fuel es, (leafCursor >>= enumerate fuel).run f = some (.ok es, f) ∧
          es.Pairwise (· < ·) ∧ ∀ e, e ∈ es ↔ e ∈ descendingPairs 200000 := by
  refine ⟨?_, build_index _ (nodup_descendingPairs _) (short_descendingPairs _)⟩
  rw [size_descendingPairs]
  decide

/-- A range scan of an index built by inserts in any order returns exactly the pairs
    between its bounds, each bound included, excluded or open, in ascending order. -/
theorem range_scan_exact (xs : List IndexKey) (hdistinct : xs.Nodup)
    (hshort : ∀ x ∈ xs, ShortEncoding x.key) :
    ∃ f, Inserts IndexKey.len .init xs f ∧ ∀ start stop, ∃ fuel es,
      (scanRange fuel start stop).run f = some (.ok es, f) ∧ es.Pairwise (· < ·) ∧
      ∀ e, e ∈ es ↔ e ∈ xs ∧ afterStart start e = true ∧ pastEnd stop e = false := by
  rcases inserts_spec (Nat.zero_le 4000) (holds_init .sorted)
    (fun x hx => ⟨(hshort x hx).pos, (hshort x hx).short⟩) hdistinct (fun x _ => not_mem_nil) with
    ⟨f, zs, hins, hholds, hperm⟩
  have hord : KeyOrder.sorted ≠ .loose := by decide
  refine ⟨f, hins, fun start stop => ?_⟩
  rcases scanRange_spec hord (hholds.stores hord) start stop with ⟨fuel, hrun⟩
  refine ⟨fuel, _, hrun, (hholds.sorted hord).filter _, fun e => ?_⟩
  rw [mem_filter, hperm.mem_iff, nil_append, Bool.and_eq_true, Bool.not_eq_true']

/-- The same pairs: a scan finds those between its bounds, and none that is not. -/
theorem range_scan_exact_descending :
    ∃ f, Inserts IndexKey.len .init (descendingPairs 200000) f ∧ ∀ start stop, ∃ fuel es,
      (scanRange fuel start stop).run f = some (.ok es, f) ∧ es.Pairwise (· < ·) ∧
      ∀ e, e ∈ es ↔ e ∈ descendingPairs 200000 ∧ afterStart start e = true ∧
        pastEnd stop e = false :=
  range_scan_exact _ (nodup_descendingPairs _) (short_descendingPairs _)

end ChibiDb
