import Mathlib.Tactic

/-!
# Following a Partial Successor

A graph in which every point has at most one successor, given as a partial
function. Following it from a point is deterministic, so a point lies on a cycle
exactly when following comes back to it, and a cycle is as long as the number of
different points on it. Only points with a successor are on a cycle, so a bound
on those bounds every cycle.

## Main definitions

* `follow`: The point reached after some number of successors.
* `Cyclic`: Following comes back to the point.
* `Passes`: A point is passed when following from another.

## Theorems

* `follow_add`: Following in two parts.
* `Cyclic.congr`: A cycle survives a change off the points it passes.
* `cyclic_within`: A cycle is no longer than the number of its points.
-/

namespace ChibiDb

open List Option

variable {α : Type}

/-- The point reached after `n` successors, if there are that many. -/
def follow (f : α → Option α) : Nat → α → Option α
  | 0, a => some a
  | n + 1, a => match f a with
    | none => none
    | some b => follow f n b

/-- Following from the point comes back to it. -/
def Cyclic (f : α → Option α) (a : α) : Prop := ∃ n, follow f (n + 1) a = some a

/-- The second point is passed when following from the first. -/
def Passes (f : α → Option α) (a b : α) : Prop := ∃ n, follow f n a = some b

variable {a b : α} {f g : α → Option α} {m n : Nat}

theorem follow_succ (h : f a = some b) : follow f (n + 1) a = follow f n b := by
  rw [follow, h]

theorem follow_succ_cases (h : follow f (n + 1) a = some b) :
    ∃ c, f a = some c ∧ follow f n c = some b := by
  rw [follow] at h
  cases hf : f a with
  | none =>
    rw [hf] at h
    cases h
  | some c => exact ⟨c, rfl, by rwa [hf] at h⟩

theorem follow_add (n : Nat) (h : follow f m a = some b) : follow f (m + n) a = follow f n b := by
  induction m generalizing a with
  | zero =>
    rw [follow, some.injEq] at h
    rw [h, Nat.zero_add]
  | succ m ih =>
    rcases follow_succ_cases h with ⟨c, hf, hrest⟩
    rw [show m + 1 + n = m + n + 1 by omega, follow_succ hf, ih hrest]

/-- What a longer path passes: cut it at any point. -/
theorem follow_prefix {c : α} (h : follow f (m + n) a = some c) :
    ∃ b, follow f m a = some b ∧ follow f n b = some c := by
  induction m generalizing a with
  | zero => exact ⟨a, rfl, by rwa [Nat.zero_add] at h⟩
  | succ m ih =>
    rw [show m + 1 + n = m + n + 1 by omega] at h
    rcases follow_succ_cases h with ⟨_, hf, hrest⟩
    rcases ih hrest with ⟨b, hb, hc⟩
    exact ⟨b, (follow_succ hf).trans hb, hc⟩

theorem passes_self (f : α → Option α) (a : α) : Passes f a a := ⟨0, rfl⟩

/-- A point on a cycle has a successor. -/
theorem Cyclic.succ (h : Cyclic f a) : ∃ b, f a = some b := by
  rcases h with ⟨_, hn⟩
  exact (follow_succ_cases hn).imp fun _ => And.left

/-- What is passed from a point on a cycle is on that cycle. -/
theorem Cyclic.passes (h : Cyclic f a) (hb : Passes f a b) : Cyclic f b ∧ Passes f b a := by
  rcases h with ⟨n, hn⟩
  rcases hb with ⟨m, hm⟩
  -- Go round once for every step taken towards `b`, then on to `b` again.
  have hround : ∀ k, follow f ((n + 1) * k) a = some a := by
    intro k
    induction k with
    | zero => rfl
    | succ _ ih => rw [Nat.mul_succ, follow_add _ ih, hn]
  have hle : m ≤ (n + 1) * m := Nat.le_mul_of_pos_left m (Nat.succ_pos n)
  have hmul : (n + 1) * (m + 1) = (n + 1) * m + (n + 1) := Nat.mul_succ _ _
  have hback : follow f ((n + 1) * (m + 1) - m) b = some a := by
    rw [← follow_add _ hm, Nat.add_sub_of_le (by omega)]
    exact hround (m + 1)
  refine ⟨⟨(n + 1) * (m + 1) - m - 1 + m, ?_⟩, _, hback⟩
  rw [show (n + 1) * (m + 1) - m - 1 + m + 1 = (n + 1) * (m + 1) - m + m by omega,
    follow_add _ hback, hm]

/-- Two functions that agree on what is passed are followed alike. -/
theorem follow_congr (h : ∀ b, Passes f a b → f b = g b) : follow g n a = follow f n a := by
  induction n generalizing a with
  | zero => rfl
  | succ _ ih =>
    rw [follow, follow, ← h a (passes_self f a)]
    cases hf : f a with
    | none => rfl
    | some =>
      refine ih (fun c hc => h c ?_)
      rcases hc with ⟨m, hm⟩
      exact ⟨m + 1, by rw [follow_succ hf, hm]⟩

/-- A cycle survives a change off the points it passes. -/
theorem Cyclic.congr (hc : Cyclic f a) (h : ∀ b, Passes f a b → f b = g b) : Cyclic g a := by
  rcases hc with ⟨n, hn⟩
  exact ⟨n, by rw [follow_congr h, hn]⟩

/-- A cycle is no longer than the number of points that have a successor. -/
theorem cyclic_within [DecidableEq α] {dom : List α} (hdom : ∀ b c, f b = some c → b ∈ dom)
    (h : Cyclic f a) : ∃ n, n < dom.length ∧ follow f (n + 1) a = some a := by
  -- The shortest way round passes no point twice.
  obtain ⟨n, hround, hmin⟩ : ∃ n, follow f (n + 1) a = some a ∧
      ∀ m, m < n → follow f (m + 1) a ≠ some a := by
    classical
    exact ⟨Nat.find h, Nat.find_spec h, fun m hm => Nat.find_min h hm⟩
  refine ⟨n, ?_, hround⟩
  have hat : ∀ i, i ≤ n → ∃ b, follow f i a = some b ∧ b ∈ dom ∧
      follow f (n + 1 - i) b = some a := by
    intro i hi
    have hcut : follow f (i + (n + 1 - i)) a = some a := by
      rw [show i + (n + 1 - i) = n + 1 by omega]
      exact hround
    rcases follow_prefix hcut with ⟨b, hb, hrest⟩
    refine ⟨b, hb, ?_, hrest⟩
    rw [show n + 1 - i = n - i + 1 by omega] at hrest
    rcases follow_succ_cases hrest with ⟨c, hf, _⟩
    exact hdom b c hf
  have hinj : ∀ i j, i ≤ n → j ≤ n → i < j → follow f i a ≠ follow f j a := by
    intro i j hi hj hlt heq
    rcases hat i hi with ⟨b, hb, -, -⟩
    rcases hat j hj with ⟨c, hc, -, hrest⟩
    rw [hb, hc, some.injEq] at heq
    rw [← heq] at hrest
    refine hmin (i + (n - j)) (by omega) ?_
    rw [show i + (n - j) + 1 = i + (n + 1 - j) by omega, follow_add _ hb, hrest]
  have hsub : (Finset.range (n + 1)).image (fun i => (follow f i a).getD a) ⊆ dom.toFinset := by
    intro b hb
    rcases Finset.mem_image.mp hb with ⟨i, hi, rfl⟩
    rcases hat i (by rw [Finset.mem_range] at hi; omega) with ⟨b, hb, hmem, -⟩
    rw [hb, getD_some, List.mem_toFinset]
    exact hmem
  have hcard : ((Finset.range (n + 1)).image (fun i => (follow f i a).getD a)).card = n + 1 := by
    rw [Finset.card_image_of_injOn, Finset.card_range]
    intro i hi j hj heq
    simp only [Finset.coe_range, Set.mem_Iio] at hi hj
    rcases hat i (by omega) with ⟨_, hb, -, -⟩
    rcases hat j (by omega) with ⟨_, hc, -, -⟩
    simp only [hb, hc, getD_some] at heq
    rcases Nat.lt_trichotomy i j with hlt | heqn | hlt
    · exact absurd (by rw [hb, hc, heq]) (hinj i j (by omega) (by omega) hlt)
    · exact heqn
    · exact absurd (by rw [hb, hc, heq]) (hinj j i (by omega) (by omega) hlt)
  have hle := Finset.card_le_card hsub
  rw [hcard] at hle
  have := toFinset_card_le dom
  omega

end ChibiDb
