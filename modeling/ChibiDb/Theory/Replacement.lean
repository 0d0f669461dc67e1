import ChibiDb.Core.Replacer
import ChibiDb.Data.Transition

/-!
# The Register of an Eviction Policy

The pool calls its policy when a page is loaded, found resident or discarded,
and when it needs room. This module follows a policy through any such calls and
compares it with the history of what was registered and taken off again: the
policy has exactly the pages the history leaves, each of them once, and it finds
a victim whenever one of them is unpinned.

## Main definitions

* `PolicyCall`: A call of the pool.
* `RegisterEvent`, `Held`: The history, and the pages it leaves registered.
* `PolicyRun`, `PolicyRun.step`: A policy with its history, and one call.

## Theorems

* `PolicyRun.mirrors_history`: What holds after any calls.
-/

namespace ChibiDb

open List Option

/-- A call of the pool. What the frames say about pins and references may
    differ from call to call. -/
inductive PolicyCall where
  | push (k : PageKey)
  | recordAccess (k : PageKey)
  | forget (k : PageKey)
  | chooseVictim (pins : PageKey → Nat) (referenced : PageKey → Bool)

/-- What happened to a page on the register. -/
inductive RegisterEvent where
  | pushed (k : PageKey)
  | forgotten (k : PageKey)
  | chosen (k : PageKey)
  deriving DecidableEq, Repr

/-- The page was pushed, and neither forgotten nor chosen since. The newest event comes first. -/
def Held (k : PageKey) : List RegisterEvent → Prop
  | [] => False
  | .pushed k' :: earlier => k = k' ∨ Held k earlier
  | .forgotten k' :: earlier => k ≠ k' ∧ Held k earlier
  | .chosen k' :: earlier => k ≠ k' ∧ Held k earlier

/-- A policy and what has happened to its register. -/
structure PolicyRun where
  replacer : Replacer
  history : List RegisterEvent

namespace PolicyRun

/-- A run that has not begun. -/
def new (p : EvictionPolicy) : PolicyRun := ⟨.fromPolicy p, []⟩

/-- One call. A page is pushed only if it is not registered, and only
    registered pages are recorded as used. -/
def step (s : PolicyRun) : PolicyCall → Option PolicyRun
  | .push k => if k ∈ s.replacer.keys then none
    else some ⟨s.replacer.push k, .pushed k :: s.history⟩
  | .recordAccess k => if k ∈ s.replacer.keys then
      some { s with replacer := s.replacer.recordAccess k }
    else none
  | .forget k => some ⟨s.replacer.forget k, .forgotten k :: s.history⟩
  | .chooseVictim pins referenced => match s.replacer.tryChoose pins referenced with
    | none => none
    | some (none, r) => some { s with replacer := r }
    | some (some k, r) => some ⟨r, .chosen k :: s.history⟩

/-- The policy has the pages its history leaves, each of them once. -/
structure Mirrors (s : PolicyRun) : Prop where
  nodup : s.replacer.keys.Nodup
  held : ∀ k, k ∈ s.replacer.keys ↔ Held k s.history

namespace Mirrors

variable {s s' : PolicyRun} {r : Replacer} {k : PageKey}

theorem of_perm (h : Mirrors s) (hperm : r.keys.Perm s.replacer.keys) :
    Mirrors { s with replacer := r } where
  nodup := hperm.nodup_iff.mpr h.nodup
  held := fun k => hperm.mem_iff.trans (h.held k)

/-- One page is taken off the register. -/
theorem of_cons (h : Mirrors s) (hperm : s.replacer.keys.Perm (k :: r.keys)) :
    r.keys.Nodup ∧ ∀ k', k' ∈ r.keys ↔ k' ≠ k ∧ Held k' s.history := by
  rcases nodup_cons.mp (hperm.nodup_iff.mp h.nodup) with ⟨hk, hnodup⟩
  refine ⟨hnodup, fun k' => ?_⟩
  rw [← h.held k', hperm.mem_iff, mem_cons]
  constructor
  · intro hin
    exact ⟨fun heq => hk (heq ▸ hin), .inr hin⟩
  · intro hin
    exact hin.2.resolve_left hin.1

theorem step (h : Mirrors s) (c : PolicyCall) (hstep : s.step c = some s') : Mirrors s' := by
  cases c with
  | push k =>
    rw [PolicyRun.step] at hstep
    split at hstep
    · cases hstep
    case isFalse hk =>
      cases hstep
      constructor
      · rw [Replacer.keys_push]
        exact (perm_append_singleton k _).nodup_iff.mpr (nodup_cons.mpr ⟨hk, h.nodup⟩)
      · intro k'
        rw [Replacer.keys_push, mem_append, mem_singleton, h.held k']
        exact or_comm
  | recordAccess k =>
    rcases ite_some_none_eq_some.mp hstep with ⟨_, rfl⟩
    exact h.of_perm (s.replacer.keys_recordAccess k)
  | forget k =>
    cases hstep
    by_cases hk : k ∈ s.replacer.keys
    · have hperm : s.replacer.keys.Perm (k :: (s.replacer.forget k).keys) := by
        rw [Replacer.keys_forget]
        exact perm_cons_erase hk
      exact ⟨(h.of_cons hperm).1, (h.of_cons hperm).2⟩
    · -- a page that is not there may be forgotten as well
      have hkeys := (s.replacer.keys_forget k).trans (erase_of_not_mem hk)
      refine ⟨hkeys ▸ h.nodup, fun k' => ?_⟩
      rw [hkeys, h.held k']
      refine ⟨fun hin => ⟨fun heq => hk ?_, hin⟩, fun hin => hin.2⟩
      rw [← heq]
      exact (h.held k').mpr hin
  | chooseVictim pins referenced =>
    rcases s.replacer.tryChoose_spec pins referenced with ⟨_, r', hcall, hchoice⟩
    rw [PolicyRun.step, hcall] at hstep
    cases hchoice with
    | none hpinned hkeys =>
      cases hstep
      exact h.of_perm (hkeys ▸ List.Perm.refl _)
    | some hfree hkeys =>
      cases hstep
      exact ⟨(h.of_cons hkeys).1, (h.of_cons hkeys).2⟩

end Mirrors

theorem mirrors_new (p : EvictionPolicy) : Mirrors (new p) where
  nodup := by
    rw [new, Replacer.keys_fromPolicy]
    exact nodup_nil
  held := by
    intro k
    rw [new, Replacer.keys_fromPolicy]
    exact ⟨fun hk => absurd hk not_mem_nil, False.elim⟩

/-- After any calls to a policy the registered pages are those pushed and
    neither forgotten nor chosen since, each of them once. The next choice of a
    victim returns, without an index outside the ring: it finds no page exactly
    if all registered pages are pinned, and otherwise an unpinned one. -/
theorem mirrors_history (p : EvictionPolicy) (cs : List PolicyCall) (s : PolicyRun)
    (hrun : runSteps PolicyRun.step (new p) cs = some s) :
    s.replacer.keys.Nodup ∧ (∀ k, k ∈ s.replacer.keys ↔ Held k s.history) ∧
    ∀ pins referenced, ∃ found r, s.replacer.tryChoose pins referenced = some (found, r) ∧
      (found = none ↔ ∀ k ∈ s.replacer.keys, pins k ≠ 0) ∧
      ∀ k, found = some k → k ∈ s.replacer.keys ∧ pins k = 0 := by
  have h : Mirrors s := invariant_of_steps PolicyRun.step Mirrors (fun _ c _ h hs => h.step c hs)
    (new p) s cs (mirrors_new p) hrun
  refine ⟨h.nodup, h.held, fun pins referenced => ?_⟩
  rcases s.replacer.tryChoose_spec pins referenced with ⟨found, r, hcall, hchoice⟩
  refine ⟨found, r, hcall, ?_⟩
  cases hchoice with
  | none hpinned => exact ⟨⟨fun _ => hpinned, fun _ => rfl⟩, nofun⟩
  | @some _ k hfree hkeys =>
    have hk : k ∈ s.replacer.keys := hkeys.mem_iff.mpr mem_cons_self
    refine ⟨⟨nofun, fun hall => absurd hfree (hall k hk)⟩, fun k' hk' => ?_⟩
    cases hk'
    exact ⟨hk, hfree⟩

/-- Two pages in a clock: the hand clears one reference, the other page is
    chosen, and the rest is pinned. -/
theorem mirrors_history_clock :
    ∃ s, runSteps PolicyRun.step (new .clock)
        [.push (0, 0), .push (0, 1), .chooseVictim (fun _ => 0) (fun k => k == (0, 0))] = some s ∧
      (∀ k, k ∈ s.replacer.keys ↔ Held k s.history) ∧
      ∃ r, s.replacer.tryChoose (fun _ => 1) (fun _ => false) = some (none, r) := by
  refine ⟨⟨.clock [(0, 0)] 0, [.chosen (0, 1), .pushed (0, 1), .pushed (0, 0)]⟩, by rfl, ?_⟩
  rcases mirrors_history .clock _ _ (by rfl :
      runSteps PolicyRun.step (new .clock)
        [.push (0, 0), .push (0, 1), .chooseVictim (fun _ => 0) (fun k => k == (0, 0))] =
      some ⟨.clock [(0, 0)] 0, [.chosen (0, 1), .pushed (0, 1), .pushed (0, 0)]⟩)
    with ⟨_, hheld, hnext⟩
  rcases hnext (fun _ => 1) (fun _ => false) with ⟨found, r, hcall, hnone, _⟩
  have hfound : found = none := hnone.mpr (fun _ _ => Nat.one_ne_zero)
  exact ⟨hheld, r, hfound ▸ hcall⟩

end PolicyRun

end ChibiDb
