import Mathlib.Tactic

/-!
# Choosing a Key to Evict

Two ways to choose one of the registered keys among those that are free. A queue
gives its oldest free key. A ring with a hand gives free keys a second chance:
the hand skips keys that are not free, takes the mark off a marked key and moves
on, and stops at the first free key without a mark.

The hand makes a bounded number of moves. One free key is enough for it to stop
in time: it comes past that key within one round, takes its mark off if it has
one, and comes past it again within another round.

## Main definitions

* `pickOldest`: The oldest free key of a queue.
* `clockLoop`: The moves of the hand.
* `clockSweep`: The same, stopping at an index outside the ring.
* `ahead`: How many moves the hand is away from a position.

## Theorems

* `pickOldest_spec`: A queue with a free key gives one of them.
* `clockLoop_sound`: The hand stops at a free key.
* `clockLoop_stops`: Two rounds and one move are enough.
* `clockSweep_eq`: The hand never looks outside the ring.
-/

namespace ChibiDb

open List Option

variable {κ : Type} [DecidableEq κ]

/-- The oldest free key of a queue, and the queue without it. -/
def pickOldest (free : κ → Bool) (order : List κ) : Option (κ × List κ) :=
  match order.find? free with
  | none => none
  | some k => some (k, order.erase k)

theorem pickOldest_spec (free : κ → Bool) (order : List κ) (h : ∃ k ∈ order, free k = true) :
    ∃ k rest, pickOldest free order = some (k, rest) ∧ free k = true ∧ order.Perm (k :: rest) := by
  rcases isSome_iff_exists.mp (find?_isSome.mpr h) with ⟨k, hk⟩
  refine ⟨k, order.erase k, ?_, find?_some hk, perm_cons_erase ?_⟩
  · rw [pickOldest, hk]
  · exact mem_of_find?_eq_some hk

/-- The moves of the hand over a ring: the key it stops at, if it does in time,
    where it stands then, and the marks that are left. -/
def clockLoop (free : κ → Bool) (ring : List κ) :
    Nat → Nat → (κ → Bool) → Option κ × Nat × (κ → Bool)
  | 0, hand, marked => (none, hand, marked)
  | fuel + 1, hand, marked =>
    let hand := if ring.length ≤ hand then 0 else hand
    match ring[hand]? with
    | none => (none, hand, marked)
    | some k =>
      if free k = false then clockLoop free ring fuel (hand + 1) marked
      else if marked k = true then
        clockLoop free ring fuel (hand + 1) (Function.update marked k false)
      else (some k, hand, marked)

/-- The same moves with every access to the ring checked: `none` is an index outside it. -/
def clockSweep (free : κ → Bool) (ring : List κ) :
    Nat → Nat → (κ → Bool) → Option (Option κ × Nat × (κ → Bool))
  | 0, hand, marked => some (none, hand, marked)
  | fuel + 1, hand, marked =>
    let hand := if ring.length ≤ hand then 0 else hand
    match ring[hand]? with
    | none => none
    | some k =>
      if free k = false then clockSweep free ring fuel (hand + 1) marked
      else if marked k = true then
        clockSweep free ring fuel (hand + 1) (Function.update marked k false)
      else some (some k, hand, marked)

/-- Where the hand stands when it looks. -/
def wrap (n hand : Nat) : Nat := if n ≤ hand then 0 else hand

/-- How many moves the hand is away from a position. -/
def ahead (n hand p : Nat) : Nat := if hand ≤ p then p - hand else n - hand + p

theorem wrap_lt (n hand : Nat) (h : 0 < n) : wrap n hand < n := by
  unfold wrap
  split
  · exact h
  · omega

/-- The hand looks at some key of a ring that has any. -/
theorem getElem?_wrap {α : Type} (ring : List α) (hand : Nat) (h : 0 < ring.length) :
    ∃ k, ring[wrap ring.length hand]? = some k :=
  ⟨_, getElem?_eq_getElem (wrap_lt ring.length hand h)⟩

variable {fuel hand n p : Nat} {k : κ} {ring : List κ} {free : κ → Bool}

theorem ahead_lt (hand : Nat) (hhand : hand < n) (hp : p < n) : ahead n hand p < n := by
  unfold ahead
  split <;> omega

/-- One move brings the hand one closer, except at the position itself. -/
theorem ahead_succ (hhand : hand < n) (hp : p < n) (hne : hand ≠ p) :
    ahead n (wrap n (hand + 1)) p + 1 = ahead n hand p := by
  unfold ahead wrap
  split <;> split <;> split <;> omega

theorem ahead_self_succ (hp : p < n) : ahead n (wrap n (p + 1)) p + 1 = n := by
  unfold ahead wrap
  split <;> split <;> omega

/-- What one move does at a key of the ring. -/
theorem clockLoop_succ (free : κ → Bool) (fuel : Nat) (marked : κ → Bool)
    (hk : ring[wrap ring.length hand]? = some k) :
    clockLoop free ring (fuel + 1) hand marked =
      if free k = false then clockLoop free ring fuel (wrap ring.length hand + 1) marked
      else if marked k = true then
        clockLoop free ring fuel (wrap ring.length hand + 1) (Function.update marked k false)
      else (some k, wrap ring.length hand, marked) := by
  rw [wrap] at hk
  simp only [clockLoop, hk, wrap]

/-- The hand looks at keys of the ring only. -/
theorem clockSweep_eq (free : κ → Bool) (h : 0 < ring.length) (fuel hand : Nat)
    (marked : κ → Bool) :
    clockSweep free ring fuel hand marked = some (clockLoop free ring fuel hand marked) := by
  induction fuel generalizing hand marked with
  | zero => rfl
  | succ fuel ih =>
    rcases getElem?_wrap ring hand h with ⟨k, hget⟩
    rw [clockLoop_succ free fuel marked hget, wrap]
    rw [wrap] at hget
    simp only [clockSweep, hget, ih]
    split_ifs <;> rfl

/-- The hand stops at a free key. -/
theorem clockLoop_sound (hand : Nat) (marked : κ → Bool) {hand' : Nat} {marked' : κ → Bool}
    (h : clockLoop free ring fuel hand marked = (some k, hand', marked')) :
    free k = true ∧ ring[hand']? = some k := by
  induction fuel generalizing hand marked with
  | zero => simp [clockLoop] at h
  | succ fuel ih =>
    cases hget : ring[wrap ring.length hand]? with
    | none =>
      rw [wrap] at hget
      simp [clockLoop, hget] at h
    | some =>
      rw [clockLoop_succ free fuel marked hget] at h
      split at h
      · exact ih _ _ h
      split at h
      · exact ih _ _ h
      case isFalse hfree _ =>
        simp only [Prod.mk.injEq, some.injEq] at h
        rw [← h.1, ← h.2.1]
        exact ⟨Bool.not_eq_false _ ▸ hfree, hget⟩

/-- A free key stops the hand within one round, or within two if it is marked. -/
theorem clockLoop_found (hp : ring[p]? = some k) (hfree : free k = true) (hand : Nat)
    (marked : κ → Bool) (hfuel : ahead ring.length (wrap ring.length hand) p +
      (if marked k = true then ring.length else 0) < fuel) :
    ∃ k', (clockLoop free ring fuel hand marked).1 = some k' := by
  have hlt : p < ring.length := (List.getElem?_eq_some_iff.mp hp).1
  induction fuel generalizing hand marked with
  | zero => exact absurd hfuel (Nat.not_lt_zero _)
  | succ fuel ih =>
    have hwrap := wrap_lt ring.length hand (by omega)
    rcases getElem?_wrap ring hand (by omega) with ⟨_, hget⟩
    rw [clockLoop_succ free fuel marked hget]
    by_cases hat : wrap ring.length hand = p
    · rw [hat, hp, some.injEq] at hget
      rw [← hget, hfree, if_neg (by simp)]
      split
      · next hmark =>
        -- its mark is off now, and another round is left
        have hself := ahead_self_succ hlt
        rw [if_pos hmark] at hfuel
        refine ih _ _ ?_
        rw [Function.update_self, if_neg Bool.false_ne_true, hat]
        omega
      · exact ⟨k, rfl⟩
    · have hstep := ahead_succ hwrap hlt hat
      split
      · exact ih _ _ (by omega)
      split
      · refine ih _ _ ?_
        rw [Function.update_apply]
        split
        · rw [if_neg Bool.false_ne_true]
          omega
        · omega
      · exact ⟨_, rfl⟩

/-- One free key is enough for the hand to stop within two rounds. -/
theorem clockLoop_stops (free : κ → Bool) (ring : List κ) (p : Nat) (k : κ)
    (hp : ring[p]? = some k) (hfree : free k = true) (fuel hand : Nat) (marked : κ → Bool)
    (hfuel : ahead ring.length (wrap ring.length hand) p + ring.length < fuel) :
    ∃ k', (clockLoop free ring fuel hand marked).1 = some k' := by
  refine clockLoop_found hp hfree hand marked ?_
  split <;> omega

/-- A hand that does not stop in two rounds and one move has seen no free key. -/
theorem clockLoop_complete (hand : Nat) (marked : κ → Bool)
    (h : (clockLoop free ring (2 * ring.length + 1) hand marked).1 = none) :
    ∀ k ∈ ring, free k ≠ true := by
  intro k hk hfree
  rcases mem_iff_getElem?.mp hk with ⟨p, hp⟩
  have hlt : p < ring.length := (List.getElem?_eq_some_iff.mp hp).1
  -- the hand is less than one round away from the free key
  have hahead := ahead_lt (wrap ring.length hand) (wrap_lt ring.length hand (by omega)) hlt
  rcases clockLoop_stops free ring p k hp hfree (2 * ring.length + 1) hand marked (by omega)
    with ⟨k', hk'⟩
  cases h.symm.trans hk'

end ChibiDb
