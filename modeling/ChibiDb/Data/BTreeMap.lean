import Mathlib.Tactic

/-!
# Ordered Maps

A map kept as its entries in ascending key order, which is what iterating an
ordered map gives. The order is a field, so every map in the development is
sorted and a lookup has one answer.

`alter` is the only way to change a key. It is handed what the key holds now
and says what it holds next, which covers both ways an entry is used: set it
if it is vacant, and append to what is there.

## Main definitions

* `BTreeMap`: Entries in ascending key order.
* `BTreeMap.get?`: The value of a key.
* `BTreeMap.alter`: Replacing the value of a key.
* `BTreeMap.erase`: Removing a key.
* `BTreeMap.keys`: The keys in ascending order.

## Theorems

* `BTreeMap.get?_alter`: Altering a key changes that key only.
* `BTreeMap.get?_erase`: Erasing a key changes that key only.
* `BTreeMap.mem_entries_iff`: The entries are exactly what lookup answers.
* `BTreeMap.mem_keys_iff`: The keys are those that lookup answers.
-/

namespace ChibiDb

open List Option

variable {α β : Type} [LinearOrder α]

/-- A map as its entries in ascending key order. -/
structure BTreeMap (α β : Type) [LinearOrder α] where
  entries : List (α × β)
  sorted : entries.Pairwise (fun a b => a.1 < b.1)

namespace BTreeMap

/-- A map with no entries. -/
def empty : BTreeMap α β := ⟨[], List.Pairwise.nil⟩

/-- Look a key up in a list of entries. -/
def find (k : α) : List (α × β) → Option β
  | [] => none
  | (a, v) :: m => if k = a then some v else find k m

/-- The value of a key. -/
def get? (m : BTreeMap α β) (k : α) : Option β := find k m.entries

/-- Replace the value of `k` in a list of entries, keeping the key order. -/
def put (k : α) (f : Option β → β) : List (α × β) → List (α × β)
  | [] => [(k, f none)]
  | (a, v) :: m =>
    if k < a then (k, f none) :: (a, v) :: m
    else if k = a then (a, f (some v)) :: m
    else (a, v) :: put k f m

variable {m : List (α × β)}

theorem mem_put {k : α} {f : Option β → β} {e : α × β} (h : e ∈ put k f m) : e.1 = k ∨ e ∈ m := by
  induction m with
  | nil =>
    rw [put, mem_singleton] at h
    exact .inl (congrArg Prod.fst h)
  | cons p m ih =>
    rcases p with ⟨_, _⟩
    rw [put] at h
    split at h
    · rcases mem_cons.mp h with rfl | h
      · exact .inl rfl
      · exact .inr h
    split at h
    case isTrue heq =>
      rcases mem_cons.mp h with rfl | h
      · exact .inl heq.symm
      · exact .inr (mem_cons_of_mem _ h)
    case isFalse =>
      rcases mem_cons.mp h with rfl | h
      · exact .inr mem_cons_self
      · exact (ih h).imp id (mem_cons_of_mem _)

theorem put_sorted (k : α) (f : Option β → β) (h : m.Pairwise (fun a b => a.1 < b.1)) :
    (put k f m).Pairwise (fun a b => a.1 < b.1) := by
  induction m with
  | nil => exact pairwise_singleton _ _
  | cons p m ih =>
    rcases p with ⟨_, _⟩
    rw [pairwise_cons] at h
    rw [put]
    split
    case isTrue hlt =>
      refine pairwise_cons.mpr ⟨forall_mem_cons.mpr ⟨hlt, fun e he => ?_⟩, pairwise_cons.mpr h⟩
      exact hlt.trans (h.1 e he)
    case isFalse hlt =>
      split
      · exact pairwise_cons.mpr h
      case isFalse hne =>
        refine pairwise_cons.mpr ⟨fun e he => ?_, ih h.2⟩
        rcases mem_put he with hk | he
        · rw [hk]
          exact lt_of_le_of_ne (not_lt.mp hlt) (fun hc => hne hc.symm)
        · exact h.1 e he

/-- Replace the value of `k` by what `f` makes of the value it holds now. -/
def alter (m : BTreeMap α β) (k : α) (f : Option β → β) : BTreeMap α β :=
  ⟨put k f m.entries, put_sorted k f m.sorted⟩

/-- Take a key out. -/
def erase (m : BTreeMap α β) (k : α) : BTreeMap α β :=
  ⟨m.entries.filter (fun e => decide (e.1 ≠ k)), m.sorted.filter _⟩

/-- The keys in ascending order. -/
def keys (m : BTreeMap α β) : List α := m.entries.map Prod.fst

theorem find_eq_none_of_ne (k : α) (m : List (α × β)) (h : ∀ e ∈ m, e.1 ≠ k) :
    find k m = none := by
  induction m with
  | nil => rfl
  | cons p m ih =>
    rw [find, if_neg (h p mem_cons_self).symm]
    exact ih (forall_mem_cons.mp h).2

/-- A key below every key of the list is not in it. -/
theorem find_eq_none_of_lt (k : α) (m : List (α × β)) (h : ∀ e ∈ m, k < e.1) :
    find k m = none :=
  find_eq_none_of_ne k m fun e he => (h e he).ne'

theorem find_append (k : α) (m m' : List (α × β)) :
    find k (m ++ m') = (find k m).or (find k m') := by
  induction m with
  | nil => rfl
  | cons p m ih =>
    rw [cons_append, find, find, ih]
    split <;> rfl

theorem find_put (k k' : α) (f : Option β → β) (h : m.Pairwise (fun a b => a.1 < b.1)) :
    find k' (put k f m) = if k' = k then some (f (find k m)) else find k' m := by
  induction m with
  | nil => rfl
  | cons p m ih =>
    rcases p with ⟨a, v⟩
    rw [pairwise_cons] at h
    rw [put]
    split
    case isTrue hlt =>
      -- The key is below the whole list, so the list does not hold it.
      have hnone : find k ((a, v) :: m) = none := by
        refine find_eq_none_of_lt k _ (forall_mem_cons.mpr ⟨hlt, fun e he => ?_⟩)
        exact hlt.trans (h.1 e he)
      rw [hnone, find]
    case isFalse =>
      split
      case isTrue heq =>
        subst heq
        simp only [find, if_true]
        split <;> rfl
      case isFalse hne =>
        simp only [find, if_neg hne, ih h.2]
        split
        case isTrue hka => rw [if_neg (fun hc => hne (hc.symm.trans hka))]
        case isFalse => rfl

/-- Altering a key changes that key only. -/
theorem get?_alter (m : BTreeMap α β) (k k' : α) (f : Option β → β) :
    (m.alter k f).get? k' = if k' = k then some (f (m.get? k)) else m.get? k' :=
  find_put k k' f m.sorted

theorem find_filter_ne (k k' : α) (m : List (α × β)) :
    find k' (m.filter (fun e => decide (e.1 ≠ k))) = if k' = k then none else find k' m := by
  induction m with
  | nil => simp only [filter_nil, find, ite_self]
  | cons p m ih =>
    rcases p with ⟨a, _⟩
    by_cases ha : a = k
    · subst ha
      rw [filter_cons_of_neg (by simp), ih, find]
      split <;> rfl
    rw [filter_cons_of_pos (by simp [ha]), find, find, ih]
    split
    case isTrue hk => rw [if_neg (fun hc => ha (hk.symm.trans hc))]
    case isFalse => rfl

/-- Erasing a key changes that key only. -/
theorem get?_erase (m : BTreeMap α β) (k k' : α) :
    (m.erase k).get? k' = if k' = k then none else m.get? k' :=
  find_filter_ne k k' m.entries

@[simp] theorem get?_empty (k : α) : (empty : BTreeMap α β).get? k = none := rfl

theorem mem_find_iff (k : α) (v : β) (h : m.Pairwise (fun a b => a.1 < b.1)) :
    (k, v) ∈ m ↔ find k m = some v := by
  induction m with
  | nil => simp only [not_mem_nil, find, reduceCtorEq]
  | cons p m ih =>
    rcases p with ⟨_, _⟩
    rw [pairwise_cons] at h
    rw [mem_cons, find, ih h.2]
    split
    case isTrue heq =>
      subst heq
      rw [find_eq_none_of_lt k m h.1]
      simp only [Prod.mk.injEq, true_and, reduceCtorEq, or_false, some.injEq]
      exact eq_comm
    case isFalse hne =>
      simp [hne]

/-- The entries are exactly what lookup answers. -/
theorem mem_entries_iff (m : BTreeMap α β) (k : α) (v : β) :
    (k, v) ∈ m.entries ↔ m.get? k = some v :=
  mem_find_iff k v m.sorted

theorem mem_keys_iff (m : BTreeMap α β) (k : α) : k ∈ m.keys ↔ ∃ v, m.get? k = some v := by
  rw [keys, List.mem_map]
  constructor
  · rintro ⟨⟨a, v⟩, hmem, rfl⟩
    exact ⟨v, (mem_entries_iff m a v).mp hmem⟩
  · rintro ⟨v, hv⟩
    exact ⟨(k, v), (mem_entries_iff m k v).mpr hv, rfl⟩

end BTreeMap

end ChibiDb
