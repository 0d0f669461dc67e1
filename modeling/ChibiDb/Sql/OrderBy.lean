import ChibiDb.Index.KeyOrder
import ChibiDb.Sql.Datetime

/-!
# Sorting Rows

ORDER BY compares rows key by key. Keys of different kinds do not compare and count as
equal, and a text compares to a date as the date it stands for, if it stands for one. So
the comparison is a total preorder if the keys of every column are NULL or of one kind,
and a column of two kinds has two values that differ and a third that is equal to both.

## Main definitions

* `Kind`, `rank`: What a value is compared by.
* `SortColumn`, `SortRow`, `cmpRows`: The rows that are sorted.
* `SortsWell`: A comparison that a sort can rely on.

## Theorems

* `cmpValues_rank`: Values of one kind compare by their ranks.
* `cmpRows_sortsWell_iff`: Rows can be sorted exactly if no column has two kinds.
-/

namespace ChibiDb

open List

/-- The kinds of values that are neither NULL nor floats. -/
inductive Kind where
  | int
  | str
  | bool
  | date
  deriving DecidableEq, Repr

/-- The kind of a value, if it has one. -/
def Kind.of : Value → Option Kind
  | .int _ => some .int
  | .str _ => some .str
  | .bool _ => some .bool
  | .date _ => some .date
  | _ => none

/-- What a value is compared by; NULL is the smallest. -/
def rank : Value → List Int
  | .int n => [n]
  | .str s => 0 :: s.toUTF8.data.toList.map fun b => (b.toNat : Int)
  | .bool b => [b.toNat]
  | .date d => [d]
  | _ => []

/-- An item of ORDER BY: its direction, and the kinds of its values that are not NULL. -/
structure SortColumn where
  desc : Bool
  kinds : List Kind

/-- The keys a column may have: NULL, and values of its kinds. -/
def SortColumn.Takes (c : SortColumn) (v : Value) : Prop :=
  v = .null ∨ ∃ k ∈ c.kinds, Kind.of v = some k

/-- A row as the sort sees it: one key for each item. -/
def SortRow (cols : List SortColumn) : Type :=
  { keys : List Value // Forall₂ SortColumn.Takes cols keys }

/-- A total preorder, so that a list without a descent has no row above a later one. -/
structure SortsWell {α : Type} (cmp : α → α → Ordering) : Prop where
  preorder : Std.TransCmp cmp
  sorted : ∀ rows : List α, rows.IsChain (fun a b => (cmp a b).isLE) →
    rows.Pairwise (fun a b => (cmp a b).isLE)

/-- How floats compare, and an integer as a float. -/
structure FloatOps where
  partialCmp : UInt64 → UInt64 → Option Ordering
  intAsFloat : Int → UInt64

variable (fl : FloatOps)

/-- How ORDER BY compares two rows. -/
def cmpRows (cols : List SortColumn) (a b : SortRow cols) : Ordering :=
  cmpSortKeys fl.partialCmp fl.intAsFloat parseDate (cols.map SortColumn.desc) a.val b.val

/-- How two keys of a column compare. -/
abbrev cmpKeys (d : Bool) (v w : Value) : Ordering :=
  cmpSortKeys fl.partialCmp fl.intAsFloat parseDate [d] [v] [w]

/-- A key of a column. -/
abbrev SortColumn.Key (c : SortColumn) : Type := { v : Value // c.Takes v }

/-- No two keys are of different kinds. -/
abbrev SortColumn.Pure (c : SortColumn) : Prop := ∀ k ∈ c.kinds, ∀ k' ∈ c.kinds, k = k'

variable {c : SortColumn} {cols : List SortColumn}

/-- Bytes compare as the lists of their numbers do. -/
theorem cmpBytes_rank (xs ys : List UInt8) :
    cmpBytes xs ys = compareOfLessAndEq (xs.map fun b => (b.toNat : Int))
      (ys.map fun b => (b.toNat : Int)) := by
  induction xs generalizing ys with
  | nil =>
    cases ys with
    | nil => rfl
    | cons => simp [cmpBytes, compareOfLessAndEq]
  | cons x xs ih =>
    cases ys with
    | nil => simp [cmpBytes, compareOfLessAndEq]
    | cons y ys =>
      rw [cmpBytes, ih]
      simp only [compareOfLessAndEq, map_cons, cons_lt_cons_iff, cons.injEq, Nat.cast_lt,
        Nat.cast_inj]
      rcases lt_trichotomy x.toNat y.toNat with h | h | h
      · simp [h]
      · simp [h]
      · simp [h.not_gt, h.ne']

/-- Values of one kind compare by their ranks, which are equal only if the values are. -/
theorem cmpValues_rank {a b : Value} {k : Kind} (ha : Kind.of a = some k)
    (hb : Kind.of b = some k) :
    cmpValues fl.partialCmp fl.intAsFloat parseDate a b =
      .ok (some (compareOfLessAndEq (rank a) (rank b))) ∧ (rank a = rank b → a = b) := by
  cases k <;> cases a <;> cases ha <;> cases b <;> cases hb
  case str s t =>
    refine ⟨?_, fun h => ?_⟩
    · rw [cmpValues, cmpBytes_rank]
      simp [rank, compareOfLessAndEq]
    · have hbytes : s.toUTF8.data.toList = t.toUTF8.data.toList := by
        refine map_injective_iff.mpr (fun x y hxy => ?_) (cons.inj h).2
        exact UInt8.toNat_inj.mp (Int.ofNat.inj hxy)
      rw [String.toByteArray_inj.mp (ByteArray.ext (Array.toList_inj.mp hbytes))]
  case bool a b =>
    cases a <;> cases b <;>
      simp [cmpValues, rank, compareOfLessAndEq, cons_lt_cons_iff]
  all_goals simp [cmpValues, rank, compareOfLessAndEq, cons_lt_cons_iff]

/-- Rows compare by their first keys, and by the others if those are equal. -/
theorem cmpSortKeys_cons (d : Bool) (ds : List Bool) (v w : Value) (a b : List Value) :
    cmpSortKeys fl.partialCmp fl.intAsFloat parseDate (d :: ds) (v :: a) (w :: b) =
      (cmpKeys fl d v w).then
        (cmpSortKeys fl.partialCmp fl.intAsFloat parseDate ds a b) := by
  have hthen : ∀ o r : Ordering, (if o ≠ .eq then o else r) =
      (if o ≠ .eq then o else .eq).then r := by
    intro o r
    cases o <;> rfl
  exact hthen _ _

/-- Rows of NULLs are equal. -/
theorem cmpRows_nulls {h : Forall₂ SortColumn.Takes cols (cols.map fun _ => .null)} :
    cmpRows fl cols ⟨_, h⟩ ⟨_, h⟩ = .eq := by
  induction cols with
  | nil => rfl
  | cons c _ ih =>
    refine (cmpSortKeys_cons ..).trans ?_
    have hnull : cmpKeys fl c.desc .null .null = .eq := by
      cases c.desc <;> rfl
    rw [hnull]
    exact ih (h := (forall₂_cons.mp h).2)

/-- Comparing by a function keeps a total preorder. -/
theorem transCmp_comap {α β : Type} {cmp : β → β → Ordering} (h : Std.TransCmp cmp) (g : α → β) :
    Std.TransCmp (fun a b => cmp (g a) (g b)) where
  eq_swap := h.eq_swap
  isLE_trans := h.isLE_trans

/-- Ranks are totally ordered. -/
theorem transCmp_rank : Std.TransCmp (fun a b : List Int => compareOfLessAndEq a b) :=
  Std.TransOrd.compareOfLessAndEq_of_antisymm_of_trans_of_total_of_not_le
    le_antisymm le_trans le_total not_le

/-- The keys of a column of one kind compare by their ranks. -/
theorem cmpKeys_rank (hc : c.Pure) (v w : c.Key) : cmpKeys fl false v.val w.val =
    compareOfLessAndEq (rank v.val) (rank w.val) := by
  rcases v with ⟨v, rfl | ⟨k, hk, hv⟩⟩
  · rcases w with ⟨w, rfl | ⟨k, _, hw⟩⟩
    · rfl
    · cases w <;> cases hw <;> rfl
  · rcases w with ⟨w, rfl | ⟨k', hk', hw⟩⟩
    · cases v <;> cases hv <;> rfl
    · have hcmp := (cmpValues_rank fl hv (hc k' hk' k hk ▸ hw)).1
      have hnv : v ≠ .null := by
        rintro rfl
        cases hv
      rw [cmpKeys, cmpSortKeys, hcmp]
      · generalize compareOfLessAndEq (rank v) (rank w) = o
        cases o <;> rfl
      · exact hnv
      · rintro rfl
        cases hw
      · exact fun h _ => hnv h

/-- So they are totally preordered, in either direction. -/
theorem transCmp_column (hc : c.Pure) : Std.TransCmp (fun v w : c.Key =>
    cmpKeys fl c.desc v.val w.val) := by
  have hasc : Std.TransCmp (fun v w : c.Key => cmpKeys fl false v.val w.val) := by
    simp only [cmpKeys_rank fl hc]
    exact transCmp_comap transCmp_rank (fun v : c.Key => rank v.val)
  have hdesc : ∀ o : Ordering, (if o.swap ≠ .eq then o.swap else .eq) =
      (if o ≠ .eq then o else .eq : Ordering).swap := by
    intro o
    cases o <;> rfl
  cases c.desc with
  | false => exact hasc
  | true =>
    have hswap : ∀ v w : c.Key, cmpKeys fl true v.val w.val =
        cmpKeys fl false w.val v.val := by
      intro v w
      rw [hasc.eq_swap]
      exact hdesc _
    simp only [hswap]
    exact Std.TransCmp.opposite

/-- The first key of a row and the others. -/
def SortRow.split : SortRow (c :: cols) → c.Key × SortRow cols
  | ⟨[], h⟩ => nomatch h
  | ⟨v :: keys, h⟩ => (⟨v, (forall₂_cons.mp h).1⟩, ⟨keys, (forall₂_cons.mp h).2⟩)

/-- Rows are compared lexicographically, so they are as well. -/
theorem transCmp_rows (hpure : ∀ c ∈ cols, c.Pure) :
    Std.TransCmp (cmpRows fl cols) := by
  induction cols with
  | nil => exact transCmp_comap transCmp_rank (fun _ => [])
  | cons c cols ih =>
    rcases forall_mem_cons.mp hpure with ⟨hc, hcols⟩
    have hfirst := transCmp_comap (transCmp_column fl hc) (Prod.fst : _ × SortRow cols → _)
    have hrest := transCmp_comap (ih hcols) (Prod.snd : c.Key × _ → _)
    have hlex : Std.TransCmp (compareLex
      (fun x y : c.Key × SortRow cols => cmpKeys fl c.desc x.1.val y.1.val)
      (fun x y => cmpRows fl cols x.2 y.2)) := inferInstance
    convert transCmp_comap hlex SortRow.split using 3 with a b
    rcases a with ⟨_, _ | _⟩
    rcases b with ⟨_, _ | _⟩
    exact cmpSortKeys_cons ..

/-- Two values of a kind. -/
def Kind.sample : Kind → Value × Value
  | .int => (.int 0, .int 1)
  | .str => (.str "", .str "a")
  | .bool => (.bool false, .bool true)
  | .date => (.date 0, .date 1)

/-- A value of another kind is equal to both. -/
theorem sample_mixed {k k' : Kind} (hne : k ≠ k') (d : Bool) :
    cmpKeys fl d k.sample.1 k'.sample.1 = .eq ∧
      cmpKeys fl d k'.sample.1 k.sample.2 = .eq ∧
      cmpKeys fl d k.sample.1 k.sample.2 ≠ .eq := by
  have htext : cmpBytes [] "a".toByteArray.data.toList = .lt := rfl
  cases k <;> cases k' <;> first
    | exact absurd rfl hne
    | cases d <;> simp [cmpSortKeys, cmpValues, Kind.sample, parseDate, compareOfLessAndEq,
        Except.map, htext]

/-- A total preorder on the keys of a column leaves it only one kind. -/
theorem pure_of_column (h : Std.TransCmp (fun v w : c.Key =>
    cmpKeys fl c.desc v.val w.val)) : c.Pure := by
  intro k hk k' hk'
  by_contra hne
  have hof : ∀ k : Kind, Kind.of k.sample.1 = some k ∧ Kind.of k.sample.2 = some k := by
    intro k
    cases k <;> exact ⟨rfl, rfl⟩
  -- the two samples of `k` differ, and the one of `k'` is equal to both
  let x : c.Key := ⟨k.sample.1, .inr ⟨k, hk, (hof k).1⟩⟩
  let y : c.Key := ⟨k'.sample.1, .inr ⟨k', hk', (hof k').1⟩⟩
  let z : c.Key := ⟨k.sample.2, .inr ⟨k, hk, (hof k).2⟩⟩
  rcases sample_mixed fl hne c.desc with ⟨hxy, hyz, hxz⟩
  have hall : cmpKeys fl c.desc x.val z.val = .eq :=
    @Std.TransCmp.eq_trans _ _ h x y z hxy hyz
  exact hxz hall

/-- One on the rows leaves every column only one kind: all other keys may be NULL. -/
theorem pure_of_transCmp (h : Std.TransCmp (cmpRows fl cols)) :
    ∀ c ∈ cols, c.Pure := by
  induction cols with
  | nil => nofun
  | cons c cols ih =>
    have hnulls : Forall₂ SortColumn.Takes cols (cols.map fun _ => .null) := by
      rw [forall₂_map_right_iff, forall₂_same]
      intro _ _
      exact .inl rfl
    refine forall_mem_cons.mpr ⟨pure_of_column fl ?_, ih ?_⟩
    · -- rows that differ in the first key only
      convert transCmp_comap h (fun v : c.Key => ⟨_, .cons v.property hnulls⟩) using 3 with v w
      symm
      refine (cmpSortKeys_cons ..).trans ?_
      have hrest := cmpRows_nulls fl (h := hnulls)
      unfold cmpRows at hrest
      rw [hrest, Ordering.then_eq]
    · -- rows whose first key is NULL
      convert transCmp_comap h (fun r : SortRow cols => ⟨_, .cons (.inl rfl) r.property⟩)
        using 3 with a b
      symm
      refine (cmpSortKeys_cons ..).trans ?_
      cases c.desc <;> rfl

/-- Rows can be sorted exactly if no column has keys of two kinds. -/
theorem cmpRows_sortsWell_iff (cols : List SortColumn) :
    SortsWell (cmpRows fl cols) ↔
      ∀ c ∈ cols, ∀ k ∈ c.kinds, ∀ k' ∈ c.kinds, k = k' := by
  constructor
  · intro h
    exact pure_of_transCmp fl h.preorder
  · intro hone
    have hcmp := transCmp_rows fl hone
    refine ⟨hcmp, ?_⟩
    intro rows hchain
    have htrans : IsTrans (SortRow cols) (fun a b => (cmpRows fl cols a b).isLE) :=
      ⟨fun _ _ _ => hcmp.isLE_trans⟩
    exact isChain_iff_pairwise.mp hchain

/-- One ascending column with numbers and texts. -/
abbrev mixedColumn : List SortColumn := [⟨false, [.int, .str]⟩]

/-- Any floats: no key of the column is one. -/
abbrev noFloats : FloatOps := ⟨fun _ _ => none, fun _ => 0⟩

/-- A row with a number. -/
def numberRow (n : Int) : SortRow mixedColumn :=
  ⟨[.int n], .cons (.inr ⟨.int, by decide, rfl⟩) .nil⟩

/-- A row with a text. -/
def textRow (s : String) : SortRow mixedColumn :=
  ⟨[.str s], .cons (.inr ⟨.str, by decide, rfl⟩) .nil⟩

/-- A text between two numbers is equal to both. So the rows 2, 'a' and 1 are in order for every
    sort that compares neighbours, but 2 is above 1. -/
theorem mixed_keys_not_sorted :
    cmpRows noFloats mixedColumn (numberRow 2) (textRow "a") = .eq ∧
      cmpRows noFloats mixedColumn (textRow "a") (numberRow 1) = .eq ∧
      cmpRows noFloats mixedColumn (numberRow 2) (numberRow 1) = .gt ∧
      ¬ SortsWell (cmpRows noFloats mixedColumn) := by
  have hab : cmpRows noFloats mixedColumn (numberRow 2) (textRow "a") = .eq := rfl
  have hbc : cmpRows noFloats mixedColumn (textRow "a") (numberRow 1) = .eq := rfl
  have hac : cmpRows noFloats mixedColumn (numberRow 2) (numberRow 1) = .gt := rfl
  refine ⟨hab, hbc, hac, ?_⟩
  intro h
  have hchain : [numberRow 2, textRow "a", numberRow 1].IsChain
      (fun a b => (cmpRows noFloats mixedColumn a b).isLE) := by
    simp [hab, hbc]
  have hpairs := h.sorted _ hchain
  simp [hac] at hpairs

end ChibiDb
