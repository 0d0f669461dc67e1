import ChibiDb.Core.BufferPool
import ChibiDb.Data.Eviction

/-!
# Eviction Policies

A policy keeps the resident pages in some structure of its own: LRU and FIFO a
queue, CLOCK a ring with a hand. Pins and reference bits live on the frames, so
a policy asks for them when it chooses a victim. Only unpinned pages are
candidates; a pinned page stays registered.

## Main definitions

* `EvictionPolicy`, `Replacer`: The policies and their state.
* `Replacer.push`, `Replacer.recordAccess`: A page is loaded, or found resident.
* `Replacer.forget`: A page is taken off the register.
* `Replacer.chooseVictim`, `Replacer.tryChoose`: The page to evict.

## Theorems

* `Replacer.tryChoose_spec`, `Replacer.chooseVictim_spec`: An unpinned page is
  found if there is one.
-/

namespace ChibiDb

open List Option

/-- The policies that can be configured. -/
inductive EvictionPolicy where
  | lru
  | clock
  | fifo
  deriving DecidableEq, Repr

/-- A policy's state. -/
inductive Replacer where
  | lru (order : List PageKey)
  | fifo (order : List PageKey)
  | clock (ring : List PageKey) (hand : Nat)
  deriving DecidableEq, Repr

/-- What choosing a victim gives: the victim, the policy without it and the
    reference bits that are left. -/
structure Victim where
  key : PageKey
  replacer : Replacer
  referenced : PageKey → Bool

namespace Replacer

/-- A policy with no pages. -/
def fromPolicy : EvictionPolicy → Replacer
  | .lru => .lru []
  | .clock => .clock [] 0
  | .fifo => .fifo []

/-- The pages a policy knows. -/
def keys : Replacer → List PageKey
  | .lru order => order
  | .fifo order => order
  | .clock ring _ => ring

/-- Register a page that was just loaded. -/
def push (k : PageKey) : Replacer → Replacer
  | .lru order => .lru (order ++ [k])
  | .fifo order => .fifo (order ++ [k])
  | .clock ring hand => .clock (ring ++ [k]) hand

/-- A resident page is used: LRU moves it to the back, the others do nothing. -/
def recordAccess (k : PageKey) : Replacer → Replacer
  | .lru order => if k ∈ order then .lru (order.erase k ++ [k]) else .lru order
  | .fifo order => .fifo order
  | .clock ring hand => .clock ring hand

/-- The page to evict, among those without pins. The hand of the clock makes at
    most two rounds and one move; where it stopped, it stays. -/
def chooseVictim (pins : PageKey → Nat) (referenced : PageKey → Bool) :
    Replacer → Option Victim
  | .lru order => match pickOldest (fun k => decide (pins k = 0)) order with
    | none => none
    | some (k, rest) => some ⟨k, .lru rest, referenced⟩
  | .fifo order => match pickOldest (fun k => decide (pins k = 0)) order with
    | none => none
    | some (k, rest) => some ⟨k, .fifo rest, referenced⟩
  | .clock ring hand =>
    match clockLoop (fun k => decide (pins k = 0)) ring (2 * ring.length + 1) hand referenced with
    | (none, _, _) => none
    | (some k, hand, referenced) =>
      let rest := ring.eraseIdx hand
      some ⟨k, .clock rest (if rest.length ≤ hand then 0 else hand), referenced⟩

/-- Take a page off the register, if it is there. -/
def forget (k : PageKey) : Replacer → Replacer
  | .lru order => .lru (order.erase k)
  | .fifo order => .fifo (order.erase k)
  | .clock ring hand =>
    if k ∈ ring then
      let rest := ring.erase k
      .clock rest (if rest.length ≤ hand then 0 else hand)
    else .clock ring hand

/-- Choosing a victim as one call: the page, if one is found, and the policy it leaves behind, whose
    hand has moved even if no page was found. `none` is an index outside the ring. -/
def tryChoose (pins : PageKey → Nat) (referenced : PageKey → Bool) :
    Replacer → Option (Option PageKey × Replacer)
  | .lru order => match pickOldest (fun k => decide (pins k = 0)) order with
    | none => some (none, .lru order)
    | some (k, rest) => some (some k, .lru rest)
  | .fifo order => match pickOldest (fun k => decide (pins k = 0)) order with
    | none => some (none, .fifo order)
    | some (k, rest) => some (some k, .fifo rest)
  | .clock ring hand =>
    if ring.length = 0 then some (none, .clock ring hand)
    else match clockSweep (fun k => decide (pins k = 0)) ring (2 * ring.length + 1) hand
        referenced with
      | none => none
      | some (none, hand, _) => some (none, .clock ring hand)
      | some (some k, hand, _) =>
        if hand < ring.length then
          let rest := ring.eraseIdx hand
          some (some k, .clock rest (if rest.length ≤ hand then 0 else hand))
        else none

/-- What a call to choose a victim may do to the register. -/
inductive Choice (pins : PageKey → Nat) (r : Replacer) : Option PageKey → Replacer → Prop where
  | none {r' : Replacer} (hpinned : ∀ k ∈ r.keys, pins k ≠ 0) (hkeys : r'.keys = r.keys) :
    Choice pins r none r'
  | some {r' : Replacer} {k : PageKey} (hfree : pins k = 0)
    (hkeys : r.keys.Perm (k :: r'.keys)) : Choice pins r (some k) r'

@[simp] theorem keys_fromPolicy (p : EvictionPolicy) : (fromPolicy p).keys = [] := by
  cases p <;> rfl

@[simp] theorem keys_push (k : PageKey) (r : Replacer) : (r.push k).keys = r.keys ++ [k] := by
  cases r <;> rfl

/-- Recording an access reorders the keys and loses none. -/
theorem keys_recordAccess (k : PageKey) (r : Replacer) : (r.recordAccess k).keys.Perm r.keys := by
  cases r with
  | lru =>
    rw [recordAccess]
    split
    case isTrue hk => exact (perm_append_singleton k _).trans (perm_cons_erase hk).symm
    case isFalse => exact List.Perm.refl _
  | _ => exact List.Perm.refl _

/-- Forgetting removes the key, under every policy. -/
theorem keys_forget (k : PageKey) (r : Replacer) : (r.forget k).keys = r.keys.erase k := by
  cases r with
  | clock ring =>
    rw [forget]
    split
    case isTrue => rfl
    case isFalse hk => exact (erase_of_not_mem hk).symm
  | _ => rfl

/-- The policies that evict the oldest unpinned key share one choice. -/
theorem choice_pickOldest {pins : PageKey → Nat} {r : Replacer} (mk : List PageKey → Replacer)
    (hkeys : ∀ order, (mk order).keys = order)
    (h : r.tryChoose pins referenced = match pickOldest (fun k => decide (pins k = 0)) r.keys with
      | none => some (none, mk r.keys)
      | some (k, rest) => some (some k, mk rest)) :
    ∃ found r', r.tryChoose pins referenced = some (found, r') ∧ Choice pins r found r' := by
  by_cases hfree : ∃ k ∈ r.keys, decide (pins k = 0) = true
  · rcases pickOldest_spec _ r.keys hfree with ⟨k, rest, hpick, hk, hperm⟩
    rw [hpick] at h
    exact ⟨_, _, h, .some (of_decide_eq_true hk) ((hkeys rest).symm ▸ hperm)⟩
  have hnone : pickOldest (fun k => decide (pins k = 0)) r.keys = none := by
    rw [pickOldest, find?_eq_none.mpr (fun k hk hp => hfree ⟨k, hk, hp⟩)]
  rw [hnone] at h
  exact ⟨_, _, h, .none (fun k hk hp => hfree ⟨k, hk, decide_eq_true hp⟩) (hkeys _)⟩

/-- A victim is chosen exactly if some registered page is unpinned; it is such a page and is taken
    off the register. The hand of the clock stays inside the ring. -/
theorem tryChoose_spec (pins : PageKey → Nat) (referenced : PageKey → Bool) (r : Replacer) :
    ∃ found r', r.tryChoose pins referenced = some (found, r') ∧ Choice pins r found r' := by
  cases r with
  | lru => exact choice_pickOldest .lru (fun _ => rfl) rfl
  | fifo => exact choice_pickOldest .fifo (fun _ => rfl) rfl
  | clock ring hand =>
    rw [tryChoose]
    split
    case isTrue hnil =>
      refine ⟨_, _, rfl, .none (fun k hk => ?_) rfl⟩
      rw [keys, length_eq_zero_iff.mp hnil] at hk
      cases hk
    case isFalse hpos =>
      rw [clockSweep_eq _ (Nat.pos_of_ne_zero hpos)]
      rcases hloop : clockLoop (fun k => decide (pins k = 0)) ring (2 * ring.length + 1) hand
        referenced with ⟨_ | k, hand', referenced'⟩
      · refine ⟨_, _, rfl, .none (fun k hk hp => ?_) rfl⟩
        exact clockLoop_complete hand referenced (congrArg Prod.fst hloop) k hk (decide_eq_true hp)
      rcases clockLoop_sound hand referenced hloop with ⟨hfree, hget⟩
      rcases List.getElem?_eq_some_iff.mp hget with ⟨hlt, heq⟩
      refine ⟨_, _, if_pos hlt, .some (of_decide_eq_true hfree) ?_⟩
      rw [← heq]
      exact (getElem_cons_eraseIdx_perm hlt).symm

/-- The two forms of the call agree. -/
theorem chooseVictim_of_tryChoose {pins : PageKey → Nat} {referenced : PageKey → Bool}
    {r r' : Replacer} {k : PageKey} (h : r.tryChoose pins referenced = some (some k, r')) :
    ∃ marks, r.chooseVictim pins referenced = some ⟨k, r', marks⟩ := by
  cases r with
  | clock ring hand =>
    rw [tryChoose] at h
    split at h
    · cases h
    case isFalse hpos =>
      rw [clockSweep_eq _ (Nat.pos_of_ne_zero hpos)] at h
      rw [chooseVictim]
      rcases hloop : clockLoop (fun k => decide (pins k = 0)) ring (2 * ring.length + 1) hand
        referenced with ⟨_ | _, hand', referenced'⟩
      · simp [hloop] at h
      simp only [hloop] at h
      rcases ite_some_none_eq_some.mp h with ⟨_, hk⟩
      cases hk
      exact ⟨_, rfl⟩
  | _ =>
    rw [tryChoose] at h
    rw [chooseVictim]
    split at h <;> cases h
    exact ⟨_, rfl⟩

/-- If some registered page is unpinned, an unpinned page is chosen and taken off the register. -/
theorem chooseVictim_spec {pins : PageKey → Nat} (referenced : PageKey → Bool) (r : Replacer)
    (h : ∃ k ∈ r.keys, pins k = 0) :
    ∃ v, r.chooseVictim pins referenced = some v ∧ pins v.key = 0 ∧
      r.keys.Perm (v.key :: v.replacer.keys) := by
  rcases r.tryChoose_spec pins referenced with ⟨_, r', hcall, ⟨hpinned, _⟩ | ⟨hfree, hkeys⟩⟩
  · rcases h with ⟨k, hk, hp⟩
    exact absurd hp (hpinned k hk)
  · rcases chooseVictim_of_tryChoose hcall with ⟨marks, hv⟩
    exact ⟨_, hv, hfree, hkeys⟩

end Replacer

end ChibiDb
