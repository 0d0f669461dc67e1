import Mathlib.Tactic

/-!
# Searching for a Cycle

Depth-first search in a directed graph given by its successor lists, asking
whether a node lies on a cycle. The search keeps a stack of nodes whose
successors are still to be looked at and the nodes it has pushed so far; it
stops as soon as it meets the start node again.

The loop has a counter. What makes it long enough is that a node is pushed at
most once, so a turn of the loop either shortens the stack or uses up a node.

## Main definitions

* `visitNexts`: One turn of the loop, over the successors of one node.
* `searchCycle`: The loop.

## Theorems

* `searchCycle_sound`: A search that answers yes has found a cycle.
* `searchCycle_complete`: With enough turns, one that answers no has not missed
  any.
* `ends_of_unseen`: The search comes to its end.
* `searchCycle_iff`: The search decides whether a node is on a cycle.
-/

namespace ChibiDb.Search

open List Option

variable {α : Type} [DecidableEq α]

/-- Push the successors that are new. `none` if the start node is among them. -/
def visitNexts (start : α) : List α → List α → List α → Option (List α × List α)
  | [], stack, seen => some (stack, seen)
  | n :: ns, stack, seen =>
    if n = start then none
    else if n ∈ seen then visitNexts start ns stack seen
    else visitNexts start ns (n :: stack) (n :: seen)

/-- Search with a stack, the nodes pushed so far and a bound on the turns. -/
def searchCycle (next : α → List α) (start : α) : Nat → List α → List α → Bool
  | 0, _, _ => false
  | _ + 1, [], _ => false
  | fuel + 1, cur :: stack, seen =>
    match visitNexts start (next cur) stack seen with
    | none => true
    | some (stack', seen') => searchCycle next start fuel stack' seen'

/-- The graph of a successor function. -/
def Edge (next : α → List α) (a b : α) : Prop := b ∈ next a

/-- The loop over successors stops early exactly at the start node. -/
theorem visitNexts_eq_none (start : α) (ns stack seen : List α) :
    visitNexts start ns stack seen = none ↔ start ∈ ns := by
  induction ns generalizing stack seen with
  | nil => simp only [visitNexts, reduceCtorEq, not_mem_nil]
  | cons n ns ih =>
    simp only [visitNexts]
    by_cases hn : n = start
    · simp [hn]
    rw [if_neg hn, mem_cons, or_iff_right (Ne.symm hn)]
    split <;> exact ih _ _

/-- What a turn over the successors leaves: it pushes new nodes only, marks
    what it pushes, and marks every successor. -/
structure Visited (ns stack seen stack' seen' : List α) : Prop where
  keeps : ∀ a ∈ stack, a ∈ stack'
  marks : ∀ a ∈ seen, a ∈ seen'
  covers : ∀ a ∈ ns, a ∈ seen'
  pushed : ∀ a ∈ stack', a ∈ stack ∨ a ∈ ns
  fresh : ∀ a ∈ seen', a ∈ seen ∨ (a ∈ stack' ∧ a ∈ ns)

variable {nodes ns seen' stack' : List α} {start : α}

theorem visited_of_visitNexts (stack seen : List α)
    (h : visitNexts start ns stack seen = some (stack', seen')) :
    Visited ns stack seen stack' seen' := by
  induction ns generalizing stack seen with
  | nil =>
    rcases h with ⟨rfl, rfl⟩
    exact ⟨fun _ ha => ha, fun _ ha => ha, nofun, fun _ => .inl, fun _ => .inl⟩
  | cons n _ ih =>
    simp only [visitNexts] at h
    split_ifs at h with _ hm
    · have hv := ih stack seen h
      refine ⟨hv.keeps, hv.marks, forall_mem_cons.mpr ⟨hv.marks n hm, hv.covers⟩, ?_, ?_⟩
      · intro a ha
        exact (hv.pushed a ha).imp id (mem_cons_of_mem n)
      · intro a ha
        exact (hv.fresh a ha).imp id (fun h => ⟨h.1, mem_cons_of_mem n h.2⟩)
    · have hv := ih (n :: stack) (n :: seen) h
      refine ⟨fun a ha => hv.keeps a (mem_cons_of_mem n ha),
        fun a ha => hv.marks a (mem_cons_of_mem n ha),
        forall_mem_cons.mpr ⟨hv.marks n mem_cons_self, hv.covers⟩, ?_, ?_⟩
      · intro a ha
        rcases hv.pushed a ha with ha | ha
        · rcases mem_cons.mp ha with rfl | ha
          · exact .inr mem_cons_self
          · exact .inl ha
        · exact .inr (mem_cons_of_mem n ha)
      · intro a ha
        rcases hv.fresh a ha with ha | ha
        · rcases mem_cons.mp ha with rfl | ha
          · exact .inr ⟨hv.keeps a mem_cons_self, mem_cons_self⟩
          · exact .inl ha
        · exact .inr ⟨ha.1, mem_cons_of_mem n ha.2⟩

/-- The nodes of a list that are still to be pushed. -/
def unseen (nodes seen : List α) : Nat := (nodes.filter (fun a => a ∉ seen)).length

/-- Pushing a node of the list uses it up. -/
theorem unseen_cons_lt {seen : List α} {a : α} (ha : a ∈ nodes) (hs : a ∉ seen) :
    unseen nodes (a :: seen) < unseen nodes seen := by
  have hsub : (nodes.filter (fun b => b ∉ a :: seen)).Sublist
      (nodes.filter (fun b => b ∉ seen)) := by
    apply monotone_filter_right
    intro b hb
    simp only [mem_cons, not_or, decide_eq_true_eq] at hb ⊢
    exact hb.2
  refine Nat.lt_of_le_of_ne hsub.length_le (fun heq => ?_)
  -- The lists would be equal, but only one of them has the pushed node.
  have hmem : a ∈ nodes.filter (fun b => b ∉ seen) := by
    simp [ha, hs]
  rw [← hsub.eq_of_length heq] at hmem
  simp at hmem

/-- A turn of the loop never lengthens what is still to be done. -/
theorem unseen_visitNexts (stack seen : List α) (hns : ∀ a ∈ ns, a ∈ nodes)
    (h : visitNexts start ns stack seen = some (stack', seen')) :
    unseen nodes seen' + stack'.length ≤ unseen nodes seen + stack.length := by
  induction ns generalizing stack seen with
  | nil =>
    obtain ⟨rfl, rfl⟩ := h
    exact Nat.le_refl _
  | cons n ns ih =>
    simp only [visitNexts] at h
    have hrest : ∀ a ∈ ns, a ∈ nodes := (forall_mem_cons.mp hns).2
    split_ifs at h with _ hm
    · exact ih stack seen hrest h
    have hle := ih (n :: stack) (n :: seen) hrest h
    have hlt := unseen_cons_lt (hns n mem_cons_self) hm
    rw [length_cons] at hle
    omega

/-- A cycle that is found exists. -/
theorem searchCycle_sound (next : α → List α) (start : α) (fuel : Nat) (stack seen : List α)
    (hstack : ∀ a ∈ stack, Relation.ReflTransGen (Edge next) start a)
    (h : searchCycle next start fuel stack seen = true) :
    Relation.TransGen (Edge next) start start := by
  induction fuel generalizing stack seen with
  | zero => simp only [searchCycle, Bool.false_eq_true] at h
  | succ _ ih =>
    cases stack with
    | nil => simp only [searchCycle, Bool.false_eq_true] at h
    | cons cur stack =>
      have hcur := hstack cur mem_cons_self
      simp only [searchCycle] at h
      cases hv : visitNexts start (next cur) stack seen with
      | none =>
        have hedge : Edge next cur start := (visitNexts_eq_none _ _ _ _).mp hv
        exact Relation.TransGen.tail' hcur hedge
      | some p =>
        rw [hv] at h
        have hvis := visited_of_visitNexts _ _ hv
        refine ih p.1 p.2 ?_ h
        intro a ha
        rcases hvis.pushed a ha with ha | ha
        · exact hstack a (mem_cons_of_mem cur ha)
        · exact hcur.tail ha

/-- What the loop keeps: a node that was pushed, or is the start, is still on
    the stack, or all its successors have been pushed and none is the start. -/
def Settled (next : α → List α) (start : α) (stack seen : List α) : Prop :=
  ∀ a, (a = start ∨ a ∈ seen) → a ∈ stack ∨ ∀ b ∈ next a, b ∈ seen ∧ b ≠ start

/-- With fuel for every unseen node, a search that finds nothing proves there is no cycle. -/
theorem searchCycle_complete {next : α → List α} (hnodes : ∀ a, ∀ b ∈ next a, b ∈ nodes)
    {fuel : Nat} (stack seen : List α) (hfuel : unseen nodes seen + stack.length < fuel)
    (hset : Settled next start stack seen) (h : searchCycle next start fuel stack seen = false) :
    ¬ Relation.TransGen (Edge next) start start := by
  induction fuel generalizing stack seen with
  | zero => exact absurd hfuel (Nat.not_lt_zero _)
  | succ _ ih =>
    cases stack with
    | nil =>
      intro hcycle
      -- The pushed nodes are closed under successors, so the last edge of
      -- the cycle would have been met.
      have hreach : ∀ b, Relation.TransGen (Edge next) start b → b ∈ seen ∧ b ≠ start := by
        intro b hb
        induction hb with
        | single he => exact (hset start (.inl rfl)).resolve_left not_mem_nil _ he
        | tail _ he ihb =>
          exact (hset _ (.inr ihb.1)).resolve_left not_mem_nil _ he
      exact (hreach start hcycle).2 rfl
    | cons cur stack =>
      simp only [searchCycle] at h
      cases hv : visitNexts start (next cur) stack seen with
      | none => simp only [hv, Bool.true_eq_false] at h
      | some p =>
        rw [hv] at h
        have hvis := visited_of_visitNexts _ _ hv
        have hno : start ∉ next cur := by
          rw [← visitNexts_eq_none start (next cur) stack seen, hv]
          exact some_ne_none p
        have hle := unseen_visitNexts _ _ (hnodes cur) hv
        rw [length_cons] at hfuel
        refine ih p.1 p.2 (by omega) ?_ h
        intro a ha
        have hold : (a = start ∨ a ∈ seen) →
            a ∈ p.1 ∨ ∀ b ∈ next a, b ∈ p.2 ∧ b ≠ start := by
          intro ha
          rcases hset a ha with hon | hdone
          · rcases mem_cons.mp hon with rfl | hon
            · exact .inr fun b hb => ⟨hvis.covers b hb, fun he => hno (he ▸ hb)⟩
            · exact .inl (hvis.keeps a hon)
          · exact .inr fun b hb => ⟨hvis.marks b (hdone b hb).1, (hdone b hb).2⟩
        rcases ha with ha | ha
        · exact hold (.inl ha)
        · rcases hvis.fresh a ha with ha | ha
          · exact hold (.inr ha)
          · exact .inl ha.1

/-- The loop comes to its end within a number of turns. -/
def Ends (next : α → List α) (start : α) : Nat → List α → List α → Prop
  | _, [], _ => True
  | 0, _ :: _, _ => False
  | n + 1, cur :: stack, seen =>
    match visitNexts start (next cur) stack seen with
    | none => True
    | some (stack', seen') => Ends next start n stack' seen'

/-- Fuel for the unseen nodes is enough for the search to end. -/
theorem ends_of_unseen {next : α → List α} (hnodes : ∀ a, ∀ b ∈ next a, b ∈ nodes) {n : Nat}
    (stack seen : List α) (hn : unseen nodes seen + stack.length ≤ n) :
    Ends next start n stack seen := by
  induction n generalizing stack seen with
  | zero =>
    rw [length_eq_zero_iff.mp (show stack.length = 0 by omega)]
    trivial
  | succ n ih =>
    cases stack with
    | nil => trivial
    | cons cur stack =>
      simp only [Ends]
      cases hv : visitNexts start (next cur) stack seen with
      | none => trivial
      | some p =>
        have hle := unseen_visitNexts _ _ (hnodes cur) hv
        rw [length_cons] at hn
        exact ih p.1 p.2 (by omega)

/-- Started from one node, with more turns than there are nodes to push, the
    search decides whether that node lies on a cycle. -/
theorem searchCycle_iff (next : α → List α) (start : α) (nodes : List α)
    (hnodes : ∀ a, ∀ b ∈ next a, b ∈ nodes) (fuel : Nat) (hfuel : nodes.length + 1 < fuel) :
    searchCycle next start fuel [start] [] = true ↔
      Relation.TransGen (Edge next) start start := by
  constructor
  · apply searchCycle_sound
    intro a ha
    rw [mem_singleton.mp ha]
  intro hcycle
  by_contra hno
  rw [Bool.not_eq_true] at hno
  have hlen : unseen nodes [] ≤ nodes.length := length_filter_le _ _
  refine searchCycle_complete hnodes [start] [] ?_ ?_ hno hcycle
  · rw [length_singleton]
    omega
  exact fun _ ha => .inl (mem_singleton.mpr (ha.resolve_right not_mem_nil))

end ChibiDb.Search
