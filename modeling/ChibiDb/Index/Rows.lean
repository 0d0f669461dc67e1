import ChibiDb.Index.Shape
import ChibiDb.Index.Splits

/-!
# Editing Rows and Leaves

How the edits of the tree act on lists: the child for a key cuts the row of children in
two, a new separator goes behind the child it was split from, and a key goes between the
smaller and the larger ones.

## Theorems

* `childFor_split`: The child for a key and the children around it.
* `kids_insertIdx`, `kids_take`, `kids_drop`: Separators and rows.
* `insertEntry_append`: Insertion into one part of a sorted list.
* `within_insertEntry`: A sorted leaf stays sorted.
-/

namespace ChibiDb.IndexTree

open List Option

variable {κ : Type}
variable {es : List (κ × Nat)}

section Lists

variable {α : Type}

theorem insertIdx_append_cons (pre post : List α) (a x : α) :
    (pre ++ a :: post).insertIdx (pre.length + 1) x = pre ++ a :: x :: post := by
  induction pre with
  | nil => rfl
  | cons _ _ ih =>
    simp [ih]

theorem findIdx?_append_self [DecidableEq α] {pre post : List α} {a : α} (h : a ∉ pre) :
    (pre ++ a :: post).findIdx? (fun x => decide (x = a)) = some pre.length := by
  have hnone : pre.findIdx? (fun x => decide (x = a)) = none :=
    findIdx?_eq_none_iff.mpr (fun x hx => decide_eq_false (fun heq => h (heq ▸ hx)))
  simp [findIdx?_append, hnone, findIdx?_cons]

end Lists

variable {lo : Option κ}

section Kids

theorem kids_cons (lo : Option κ) (first : Nat) (e : κ × Nat) (es : List (κ × Nat)) :
    kids lo first (e :: es) = (lo, first) :: kids (some e.1) e.2 es := rfl

theorem kids_length (lo : Option κ) (first : Nat) (es : List (κ × Nat)) :
    (kids lo first es).length = es.length + 1 := by
  simp [kids]

variable {first : Nat} {post pre : List (Sibling κ)}

theorem kids_insertIdx {k : Sibling κ}
    (h : kids lo first es = pre ++ k :: post) (sep : κ) (no : Nat) :
    kids lo first (es.insertIdx pre.length (sep, no)) = pre ++ k :: (some sep, no) :: post := by
  rw [← insertIdx_append_cons pre post k, ← h, kids, kids, insertIdx_succ_cons, map_insertIdx]

theorem kids_take (es : List (κ × Nat)) (m : Nat) :
    kids lo first (es.take m) = (kids lo first es).take (m + 1) := by
  simp [kids]

theorem kids_drop {m : Nat} {e : κ × Nat} (h : es[m]? = some e) :
    kids (some e.1) e.2 (es.drop (m + 1)) = (kids lo first es).drop (m + 1) := by
  rcases List.getElem?_eq_some_iff.mp h with ⟨hm, heq⟩
  simp only [kids, drop_succ_cons, ← map_drop]
  rw [drop_eq_getElem_cons hm, map_cons, heq]

variable [LinearOrder κ]

/-- The child for a key: its lower bound is not above the key, the next one is. -/
theorem childFor_split (lo : Option κ) (first : Nat) (es : List (κ × Nat)) (k : κ) :
    ∃ pre loc post, kids lo first es = pre ++ (loc, childFor first es k) :: post ∧
      ((pre = [] ∧ loc = lo) ∨ ∃ s, loc = some s ∧ s ≤ k) ∧
      ∀ s, highOf post none = some s → k < s := by
  induction es generalizing lo first with
  | nil =>
    refine ⟨[], lo, [], rfl, .inl ⟨rfl, rfl⟩, ?_⟩
    intro s hs
    simp [highOf] at hs
  | cons e es ih =>
    by_cases hlt : k < e.1
    · refine ⟨[], lo, kids (some e.1) e.2 es, ?_, .inl ⟨rfl, rfl⟩, ?_⟩
      · rw [kids_cons, childFor, if_pos hlt]
        rfl
      · intro _ hs
        simp only [kids, highOf, some.injEq] at hs
        exact hs ▸ hlt
    · rcases ih (some e.1) e.2 with ⟨pre, loc, post, heq, hlo, hhi⟩
      refine ⟨(lo, first) :: pre, loc, post, ?_, .inr ?_, hhi⟩
      · rw [kids_cons, childFor, if_neg hlt, heq]
        rfl
      · rcases hlo with ⟨_, hloc⟩ | hloc
        · exact ⟨e.1, hloc, not_lt.mp hlt⟩
        · exact hloc

omit [LinearOrder κ] in
theorem separatorSlot_eq (first : Nat) (es : List (κ × Nat)) (child : Nat) :
    separatorSlot first es child =
      (first :: es.map Prod.snd).findIdx? (fun c => decide (c = child)) := by
  rw [separatorSlot, findIdx?_cons, findIdx?_map]
  by_cases h : first = child
  · rw [if_pos h.symm]
    simp [h]
  · rw [if_neg (fun h' => h h'.symm)]
    simp only [h, decide_false, Bool.false_eq_true, if_false]
    rfl

omit [LinearOrder κ] in
/-- The separator of a half goes behind the child that was split. -/
theorem separatorSlot_of_split {loc : Option κ} {child : Nat}
    (h : kids lo first es = pre ++ (loc, child) :: post) (hnew : child ∉ pre.map Prod.snd) :
    separatorSlot first es child = some pre.length := by
  rw [separatorSlot_eq, ← kids_map_snd lo first es, h, map_append, map_cons,
    findIdx?_append_self hnew, length_map]

end Kids

section Entries

variable [LinearOrder κ]

theorem insertEntry_eq (es : List κ) (k : κ) :
    insertEntry es k = es.orderedInsert (· ≤ ·) k := by
  induction es with
  | nil => rfl
  | cons e _ ih =>
    rw [orderedInsert_cons, ← ih]
    by_cases h : e < k
    · simp [insertEntry, leafLowerBound, h, not_le.mpr h]
    · simp [insertEntry, leafLowerBound, h, not_lt.mp h]

theorem insertEntry_perm (es : List κ) (k : κ) : (insertEntry es k).Perm (k :: es) := by
  rw [insertEntry_eq]
  exact perm_orderedInsert ..

variable {as bs es : List κ} {k : κ}

theorem mem_insertEntry {e : κ} : e ∈ insertEntry es k ↔ e = k ∨ e ∈ es := by
  rw [(insertEntry_perm es k).mem_iff, mem_cons]

theorem insertEntry_append_left (h : ∀ a ∈ as, a < k) :
    insertEntry (as ++ es) k = as ++ insertEntry es k := by
  induction as with
  | nil => rfl
  | cons a _ ih =>
    have hlt : ¬ k ≤ a := not_le.mpr (h a mem_cons_self)
    rw [cons_append, insertEntry_eq, orderedInsert_of_not_le _ _ hlt, ← insertEntry_eq,
      ih (forall_mem_cons.mp h).2, cons_append]

theorem insertEntry_append_right (h : ∀ b ∈ bs, k < b) :
    insertEntry (es ++ bs) k = insertEntry es k ++ bs := by
  simp only [insertEntry_eq]
  induction es with
  | nil =>
    cases bs with
    | nil => rfl
    | cons b => simp [le_of_lt (h b mem_cons_self)]
  | cons e _ ih =>
    by_cases he : k ≤ e
    · simp [he]
    · simp [he, ih]

/-- Insertion into one part of a list whose other parts are below and above the key. -/
theorem insertEntry_append (ha : ∀ a ∈ as, a < k) (hb : ∀ b ∈ bs, k < b) :
    insertEntry (as ++ (es ++ bs)) k = as ++ (insertEntry es k ++ bs) := by
  rw [insertEntry_append_left ha, insertEntry_append_right hb]

theorem insertEntry_sorted (hs : es.Pairwise (· < ·)) (hk : k ∉ es) :
    (insertEntry es k).Pairwise (· < ·) := by
  have hle : (insertEntry es k).Pairwise (· ≤ ·) := by
    rw [insertEntry_eq]
    exact (hs.imp le_of_lt).orderedInsert k es
  have hnd : (insertEntry es k).Nodup :=
    (insertEntry_perm es k).nodup_iff.mpr (nodup_cons.mpr ⟨hk, hs.imp ne_of_lt⟩)
  exact (hle.and hnd).imp (fun h => lt_of_le_of_ne h.1 h.2)

/-- A key that is not below the first one does not change what the list starts with. -/
theorem head_insertEntry {l : κ} (h : es.head? = some l) (hle : l ≤ k) :
    (insertEntry es k).head? = some l := by
  cases es with
  | nil => simp [head?_nil] at h
  | cons =>
    cases h
    rw [insertEntry_eq, orderedInsert_cons]
    split
    · next hge => rw [head?_cons, le_antisymm hle hge]
    · rfl

/-- A run of keys with one more. -/
theorem within_insertEntry {high : Option κ} (h : Within lo es high)
    (hlo : ∀ l, lo = some l → l ≤ k) (hhigh : ∀ h, high = some h → k < h) (hk : k ∉ es) :
    Within lo (insertEntry es k) high := by
  refine ⟨insertEntry_sorted h.sorted hk, ?_, ?_⟩
  · intro e he hi hhi
    rcases mem_insertEntry.mp he with heq | hmem
    · exact heq ▸ hhigh hi hhi
    · exact h.below e hmem hi hhi
  · intro l hl
    exact head_insertEntry (h.head l hl) (hlo l hl)

end Entries

end ChibiDb.IndexTree
