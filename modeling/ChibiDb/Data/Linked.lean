import Mathlib.Tactic

/-!
# Rows of Linked Siblings

The nodes of one level of a tree, from left to right, each with the lower bound of its
keys. A node's upper bound and its right neighbours are those of the next node in the
row; the last node takes them from the end of the row. `Chain` states a property of
every node of a row together with these bounds.

Rows can be cut and joined: a property of a row is one of its two parts, the left part
ending where the right one starts.

## Main definitions

* `nextOf`, `highOf`: Where a row starts, or its end if it is empty.
* `Chain`: A property of every node of a row.

## Theorems

* `chain_append`: Cutting and joining.
* `chain_imp`: The property can be replaced node by node.
* `chain_end`: The end of a row matters to its last node only.
* `chain_sorted`: Nodes with sorted keys within their bounds form a sorted row.
-/

namespace ChibiDb

open List Option

variable {κ : Type}

/-- A node of a row: its lower bound, if it has one, and its page. -/
abbrev Sibling (κ : Type) : Type := Option κ × Nat

/-- The neighbours at the start of a row, or `nx` for an empty one. `sp` gives the pages
    of a node's left edge, level by level. -/
def nextOf (sp : Nat → Nat → Nat) (ks : List (Sibling κ)) (nx : Nat → Nat) : Nat → Nat :=
  match ks with
  | [] => nx
  | k :: _ => sp k.2

/-- The lower bound at the start of a row, or `high` for an empty one. -/
def highOf (ks : List (Sibling κ)) (high : Option κ) : Option κ :=
  match ks with
  | [] => high
  | k :: _ => k.1

/-- Every node of the row has the property, with its bounds, its neighbours and whether
    it is the last one of its level. -/
def Chain (sp : Nat → Nat → Nat)
    (P : Bool → Nat → Option κ → (Nat → Nat) → Option κ → Prop) (last : Bool) :
    List (Sibling κ) → (Nat → Nat) → Option κ → Prop
  | [], _, _ => True
  | k :: ks, nx, high =>
    P (last && ks.isEmpty) k.2 k.1 (nextOf sp ks nx) (highOf ks high) ∧ Chain sp P last ks nx high

variable {high : Option κ} {k : Sibling κ} {ks : List (Sibling κ)} {last : Bool} {nx : Nat → Nat}

section Rows

variable {sp : Nat → Nat → Nat} {P : Bool → Nat → Option κ → (Nat → Nat) → Option κ → Prop}

theorem nextOf_append (ks ks' : List (Sibling κ)) (nx : Nat → Nat) :
    nextOf sp (ks ++ ks') nx = nextOf sp ks (nextOf sp ks' nx) := by
  cases ks <;> rfl

theorem highOf_append (ks ks' : List (Sibling κ)) (high : Option κ) :
    highOf (ks ++ ks') high = highOf ks (highOf ks' high) := by
  cases ks <;> rfl

/-- A row is cut in two: the left part ends where the right part starts. -/
theorem chain_append (last : Bool) (ks ks' : List (Sibling κ)) (nx : Nat → Nat)
    (high : Option κ) :
    Chain sp P last (ks ++ ks') nx high ↔
      Chain sp P (last && ks'.isEmpty) ks (nextOf sp ks' nx) (highOf ks' high) ∧
        Chain sp P last ks' nx high := by
  induction ks with
  | nil => exact ⟨fun h => ⟨trivial, h⟩, fun h => h.2⟩
  | cons _ ks ih =>
    have hlast : (last && (ks ++ ks').isEmpty) = ((last && ks'.isEmpty) && ks.isEmpty) := by
      cases ks with
      | nil => simp only [nil_append, isEmpty_nil, Bool.and_true]
      | cons => simp
    simp [Chain, ih, nextOf_append, highOf_append, hlast, and_assoc]

/-- The property of a row replaced node by node, in files that agree on the left edges. -/
theorem chain_imp {sp' : Nat → Nat → Nat}
    {P' : Bool → Nat → Option κ → (Nat → Nat) → Option κ → Prop} (hsp : ∀ k ∈ ks, sp' k.2 = sp k.2)
    (himp : ∀ b, ∀ k ∈ ks, ∀ nx' high', P b k.2 k.1 nx' high' → P' b k.2 k.1 nx' high')
    (h : Chain sp P last ks nx high) : Chain sp' P' last ks nx high := by
  induction ks with
  | nil => trivial
  | cons k ks ih =>
    have hnext : nextOf sp' ks nx = nextOf sp ks nx := by
      cases ks with
      | nil => rfl
      | cons k' => exact hsp k' (mem_cons_of_mem _ mem_cons_self)
    refine ⟨?_, ih (forall_mem_cons.mp hsp).2
      (fun b k' hk' => himp b k' (mem_cons_of_mem _ hk')) h.2⟩
    rw [hnext]
    exact himp _ k mem_cons_self _ _ h.1

/-- Only the last node of a row sees the neighbours at its end. -/
theorem chain_end {nx' : Nat → Nat} (himp : ∀ b p lo high', P b p lo nx high' → P b p lo nx' high')
    (h : Chain sp P last ks nx high) : Chain sp P last ks nx' high := by
  induction ks with
  | nil => trivial
  | cons _ ks ih =>
    refine ⟨?_, ih h.2⟩
    cases ks with
    | nil => exact himp _ _ _ _ h.1
    | cons => exact h.1

/-- What holds of every node of a row. -/
theorem chain_mem (h : Chain sp P last ks nx high) (hk : k ∈ ks) :
    ∃ b nx' high', P b k.2 k.1 nx' high' := by
  induction ks with
  | nil => cases hk
  | cons _ _ ih =>
    rcases mem_cons.mp hk with heq | hmem
    · subst heq
      exact ⟨_, _, _, h.1⟩
    · exact ih h.2 hmem

end Rows

section Sorted

variable [LinearOrder κ]

/-- The keys of a node: sorted, below its upper bound, and starting at its lower bound if
    it has one. -/
structure Within (lo : Option κ) (es : List κ) (high : Option κ) : Prop where
  sorted : es.Pairwise (· < ·)
  below : ∀ e ∈ es, ∀ h, high = some h → e < h
  head : ∀ k, lo = some k → es.head? = some k

variable {es es' : List κ} {lo : Option κ}

/-- Two neighbouring runs of keys form one. -/
theorem Within.append {mid : Option κ} (hne : mid ≠ none) (h : Within lo es mid)
    (h' : Within mid es' high) (hes : lo ≠ none → es ≠ []) : Within lo (es ++ es') high := by
  cases mid with
  | none => exact absurd rfl hne
  | some m =>
    have hhead := h'.head m rfl
    have hm : m ∈ es' := mem_of_mem_head? hhead
    -- Every key of the left run is below the first key of the right one.
    have hlt : ∀ a ∈ es, ∀ b ∈ es', a < b := by
      intro a ha b hb
      have hmb : m ≤ b := by
        cases es' with
        | nil => cases hb
        | cons =>
          cases hhead
          rcases mem_cons.mp hb with heq | hmem
          · exact le_of_eq heq.symm
          · exact le_of_lt ((pairwise_cons.mp h'.sorted).1 b hmem)
      exact lt_of_lt_of_le (h.below a ha m rfl) hmb
    refine ⟨pairwise_append.mpr ⟨h.sorted, h'.sorted, hlt⟩, ?_, ?_⟩
    · intro e he hi hhi
      rcases mem_append.mp he with hl | hr
      · exact lt_trans (hlt e hl m hm) (h'.below m hm hi hhi)
      · exact h'.below e hr hi hhi
    · intro k hk
      cases es with
      | nil => exact absurd rfl (hes (by simp [hk, ne_eq]))
      | cons => exact h.head k hk

theorem Within.ne_nil (h : Within lo es high) (hlo : lo ≠ none) : es ≠ [] := by
  intro hnil
  subst hnil
  cases lo with
  | none => exact hlo rfl
  | some k => exact absurd (h.head k rfl) (by simp [head?_nil])

/-- A run of keys is cut in two at one of its keys. -/
theorem Within.cut {m : κ} (h : Within lo (es ++ es') high) (hm : es'.head? = some m)
    (hes : lo ≠ none → es ≠ []) : Within lo es (some m) ∧ Within (some m) es' high := by
  rcases pairwise_append.mp h.sorted with ⟨hsort, hsort', hcross⟩
  refine ⟨⟨hsort, ?_, ?_⟩, ⟨hsort', ?_, ?_⟩⟩
  · intro e he k hk
    rw [← some.inj hk]
    exact hcross e he m (mem_of_mem_head? hm)
  · intro k hk
    have hhead := h.head k hk
    cases es with
    | nil => exact absurd rfl (hes (by simp [hk, ne_eq]))
    | cons => exact hhead
  · intro e he
    exact h.below e (mem_append_right _ he)
  · intro _ hk
    rw [hm, hk]

/-- Nodes with sorted keys within their bounds form a sorted row, if every node but the
    first one has a lower bound. -/
theorem chain_sorted {sp : Nat → Nat → Nat}
    {P : Bool → Nat → Option κ → (Nat → Nat) → Option κ → Prop} {ent : Nat → List κ}
    (hP : ∀ b p lo nx' high', P b p lo nx' high' → Within lo (ent p) high')
    (hks : ∀ k' ∈ ks, k'.1 ≠ none) (h : Chain sp P last (k :: ks) nx high) :
    Within k.1 ((k :: ks).flatMap (fun k => ent k.2)) high := by
  induction ks generalizing k with
  | nil =>
    simp only [flatMap_cons, flatMap_nil, append_nil]
    exact hP _ _ _ _ _ h.1
  | cons k' _ ih =>
    have hrest := ih (fun k'' hk'' => hks k'' (mem_cons_of_mem _ hk'')) h.2
    have hhere := hP _ _ _ _ _ h.1
    rw [flatMap_cons]
    exact hhere.append (hks k' mem_cons_self) hrest hhere.ne_nil

end Sorted

end ChibiDb
