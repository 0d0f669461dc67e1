import ChibiDb.Core.LobStore

/-!
# Large-Object Ids

The id counter of the store lives in memory and is rebuilt from the files that
are there. A deleted object has no file, so when the objects with the largest
ids are deleted before the directory is opened again, their ids are handed out a
second time.

No id is returned twice as long as every reopening finds a file whose id is at
least that of every object written so far, and the counter does not run over the
end of its type. Both conditions are needed: past either of them, writing on
returns an id again.

## Main definitions

* `LobStepOk`: The condition on a step.
* `AboveReturned`: The counter is above every id returned.

## Theorems

* `parseId_lobName`: The name of an object reads back as its id.
* `aboveReturned_step`: A step that meets the condition keeps the counter above.
* `writes_reach`: Writing on returns every id from the counter upwards.
* `lob_ids_fresh`: The main result.
* `lob_id_reused`: An id returned twice.
-/

namespace ChibiDb

open List Option
open LobHistory (start step)

/-- The name of an object reads back as its id, so different ids have different
    files and a store that is opened sees the ids it wrote. -/
theorem parseId_lobName {id : Nat} (h : id < 2 ^ 64) : parseId (lobName id) = some id := by
  have hdigit : ∀ c ∈ Nat.toDigits 10 id, c.isDigit = true :=
    fun c hc => Nat.isDigit_of_mem_toDigits (by omega) (by omega) hc
  have hne : Nat.toDigits 10 id ≠ [] := Nat.toDigits_ne_nil
  have hplus : stripPlus (Nat.toDigits 10 id) = Nat.toDigits 10 id := by
    unfold stripPlus
    split
    next rest heq =>
      have hd := hdigit '+' (by rw [heq]; exact mem_cons_self)
      cases hd
    next => rfl
  unfold parseId lobName
  rw [if_pos (isSuffixOf_iff_suffix.mpr (suffix_append _ _)), length_append,
    Nat.add_sub_cancel, take_left]
  unfold parseU64
  simp only [hplus]
  rw [if_neg, Nat.ofDigitChars_toDigits (by omega) (by omega), if_pos h]
  simp only [hne, false_or, not_not]
  exact all_eq_true.mpr hdigit

theorem lt_of_parseId {name : FileName} {id : Nat} (h : parseId name = some id) :
    id < 2 ^ 64 := by
  unfold parseId parseU64 at h
  grind

/-- Ids that were read from names fit the counter's type, and so does their largest. -/
theorem maxId_lt (dir : LobDir) : dir.maxId < 2 ^ 64 := by
  have hfold : ∀ (ids : List Nat) (n : Nat), n < 2 ^ 64 → (∀ id ∈ ids, id < 2 ^ 64) →
      ids.foldl max n < 2 ^ 64 := by
    intro ids
    induction ids with
    | nil => exact fun n hn _ => hn
    | cons id _ ih =>
      intro n _ hids
      rw [forall_mem_cons] at hids
      exact ih (max n id) (by omega) hids.2
  refine hfold _ 0 (by omega) ?_
  intro _ hid
  rcases mem_filterMap.mp hid with ⟨_, -, hf⟩
  exact lt_of_parseId hf

/-- A reopening finds a file at or above every id returned, and neither it nor a
    write runs the counter over its end. -/
def LobStepOk (s : LobHistory) : LobLabel → Prop
  | .write _ _ => s.store.nextId + 1 < 2 ^ 64
  | .delete _ _ => True
  | .reopen => ∀ id ∈ s.returned, id ≤ s.store.dir.maxId ∧ s.store.dir.maxId + 1 < 2 ^ 64

instance (s : LobHistory) (l : LobLabel) : Decidable (LobStepOk s l) := by
  unfold LobStepOk
  cases l <;> infer_instance

/-- The counter is above every id returned. -/
def AboveReturned (s : LobHistory) : Prop := ∀ id ∈ s.returned, id < s.store.nextId

variable {l : LobLabel} {s t : LobHistory}

/-- What a step does to the counter and to the ids returned. -/
theorem lob_step_cases (h : s.step l = some t) :
    (∃ data outcome, l = .write data outcome ∧ t.store.nextId = (s.store.nextId + 1) % 2 ^ 64 ∧
      (t.returned = s.returned ∨ t.returned = s.store.nextId :: s.returned)) ∨
    (∃ id removed, l = .delete id removed ∧ t.store.nextId = s.store.nextId ∧
      t.returned = s.returned) ∨
    (l = .reopen ∧ t.store.nextId = (s.store.dir.maxId + 1) % 2 ^ 64 ∧
      t.returned = s.returned) := by
  cases l with
  | write data outcome =>
    refine .inl ⟨data, outcome, rfl, ?_⟩
    cases outcome <;> cases h
    · exact ⟨rfl, .inr rfl⟩
    all_goals exact ⟨rfl, .inl rfl⟩
  | delete id removed =>
    refine .inr (.inl ⟨id, removed, rfl, ?_⟩)
    cases h
    cases removed <;> exact ⟨rfl, rfl⟩
  | reopen =>
    cases h
    exact .inr (.inr ⟨rfl, rfl, rfl⟩)

/-- A step that meets the condition keeps the counter above the ids returned, and the ids apart. -/
theorem aboveReturned_step (habove : AboveReturned s) (hnodup : s.returned.Nodup)
    (hok : LobStepOk s l) (h : s.step l = some t) : AboveReturned t ∧ t.returned.Nodup := by
  unfold AboveReturned at habove ⊢
  rcases lob_step_cases h with
    ⟨data, outcome, rfl, hnext, hret⟩ | ⟨id, removed, rfl, hnext, hret⟩ | ⟨rfl, hnext, hret⟩
  · have hok : s.store.nextId + 1 < 2 ^ 64 := hok
    rw [Nat.mod_eq_of_lt hok] at hnext
    rw [hnext]
    rcases hret with hret | hret
    · rw [hret]
      exact ⟨fun id hid => Nat.lt_succ_of_lt (habove id hid), hnodup⟩
    rw [hret]
    refine ⟨forall_mem_cons.mpr ⟨by omega, ?_⟩, nodup_cons.mpr ⟨?_, hnodup⟩⟩
    · exact fun id hid => Nat.lt_succ_of_lt (habove id hid)
    · exact fun hmem => Nat.lt_irrefl _ (habove _ hmem)
  · rw [hnext, hret]
    exact ⟨habove, hnodup⟩
  · rw [hnext, hret]
    refine ⟨?_, hnodup⟩
    intro id hid
    have hok := hok id hid
    rw [Nat.mod_eq_of_lt hok.2]
    omega

/-- `n` writes that all succeed. -/
def writeMany (n : Nat) : List LobLabel := replicate n (.write [] .stored)

/-- The ids come in order, for as long as the counter does not run over. -/
theorem writes_reach (n : Nat) (s : LobHistory) (h : s.store.nextId + n < 2 ^ 64) :
    ∃ t, runSteps step s (writeMany (n + 1)) = some t ∧
      ∃ more, t.returned = (s.store.nextId + n) :: more ++ s.returned := by
  induction n generalizing s with
  | zero => exact ⟨_, rfl, [], rfl⟩
  | succ n ih =>
    obtain ⟨s', hs'⟩ : ∃ s', s.step (.write [] .stored) = some s' := ⟨_, rfl⟩
    have hfields : s'.store.nextId = (s.store.nextId + 1) % 2 ^ 64 ∧
        s'.returned = s.store.nextId :: s.returned := by
      cases hs'
      exact ⟨rfl, rfl⟩
    rw [Nat.mod_eq_of_lt (by omega)] at hfields
    rcases ih s' (by omega) with ⟨t, hrun, more, hret⟩
    refine ⟨t, ?_, more ++ [s.store.nextId], ?_⟩
    · rw [show writeMany (n + 1 + 1) = .write [] .stored :: writeMany (n + 1) from rfl, runSteps,
        hs']
      exact hrun
    · rw [hret, hfields.1, hfields.2, show s.store.nextId + 1 + n = s.store.nextId + (n + 1) by
        omega]
      simp

/-- A counter at or below an id that was returned comes to it again. -/
theorem reused_of_not_above {id : Nat} (hid : id ∈ s.returned) (hle : s.store.nextId ≤ id)
    (hlt : id < 2 ^ 64) :
    ∃ more t, runSteps step s more = some t ∧ ¬ t.returned.Nodup := by
  rcases writes_reach (id - s.store.nextId) s (by omega) with ⟨t, hrun, _, hret⟩
  refine ⟨_, t, hrun, ?_⟩
  rw [hret, show s.store.nextId + (id - s.store.nextId) = id by omega]
  intro hnodup
  exact (nodup_cons.mp hnodup).1 (mem_append.mpr (.inr hid))

theorem nextId_lt_reachable {dir : LobDir} {labels : List LobLabel}
    (hrun : runSteps step (start dir) labels = some s) :
    s.store.nextId < 2 ^ 64 ∧ ∀ id ∈ s.returned, id < 2 ^ 64 := by
  refine invariant_of_steps step
    (fun s => s.store.nextId < 2 ^ 64 ∧ ∀ id ∈ s.returned, id < 2 ^ 64) ?_ _ s labels ?_ hrun
  · intro _ _ _ hs h
    rcases lob_step_cases h with
      ⟨data, outcome, -, hnext, hret⟩ | ⟨id, removed, -, hnext, hret⟩ | ⟨-, hnext, hret⟩
    · refine ⟨by omega, ?_⟩
      rcases hret with hret | hret <;> rw [hret]
      · exact hs.2
      · exact forall_mem_cons.mpr hs
    · rw [hnext, hret]
      exact hs
    · exact ⟨by omega, hret ▸ hs.2⟩
  · exact ⟨Nat.mod_lt _ (by omega), nofun⟩

/-- In every run from any directory, if every step meets the condition then no id is returned twice.
    And a first step that does not meet it leads, unless no write has ever returned, to a state from
    which writing on returns an id a second time. -/
theorem lob_ids_fresh (dir : LobDir) (labels : List LobLabel) (s : LobHistory)
    (hrun : runSteps step (start dir) labels = some s)
    (hok : Meets step LobStepOk (start dir) labels) :
    s.returned.Nodup ∧
    ∀ l t, s.step l = some t → ¬ LobStepOk s l → t.returned ≠ [] →
      ∃ more u, runSteps step t more = some u ∧ ¬ u.returned.Nodup := by
  have hgood : AboveReturned s ∧ s.returned.Nodup := by
    refine invariant_of_meets step LobStepOk
      (fun s => AboveReturned s ∧ s.returned.Nodup) ?_ _ s labels ⟨?_, nodup_nil⟩ hok hrun
    · exact fun s l t hs hl h => aboveReturned_step hs.1 hs.2 hl h
    · exact nofun
  have hbound := nextId_lt_reachable hrun
  refine ⟨hgood.2, ?_⟩
  intro _ t hstep hbad hne
  rcases lob_step_cases hstep with
    ⟨data, outcome, rfl, hnext, hret⟩ | ⟨id, removed, rfl, hnext, hret⟩ | ⟨rfl, hnext, hret⟩
  · -- The write took the last id, and the counter starts again at zero.
    have hbad : ¬ s.store.nextId + 1 < 2 ^ 64 := hbad
    rcases exists_mem_of_ne_nil _ hne with ⟨id, hid⟩
    have hlt : ∀ id ∈ t.returned, id < 2 ^ 64 := by
      rcases hret with hret | hret <;> rw [hret]
      · exact hbound.2
      · exact forall_mem_cons.mpr hbound
    exact reused_of_not_above hid (by omega) (hlt id hid)
  · exact absurd trivial hbad
  · simp only [LobStepOk, not_forall] at hbad
    rcases hbad with ⟨id, hid, _⟩
    have hlt := hbound.2 id hid
    refine reused_of_not_above (hret ▸ hid) ?_ hlt
    have hmax := maxId_lt s.store.dir
    omega

/-- An object is written, the store is reopened with its file in place, and a
    second object gets a new id. -/
theorem lob_ids_fresh_kept :
    ∃ s, runSteps step (start [])
        [.write [1] .stored, .reopen, .write [2] .stored] = some s ∧
      s.returned = [2, 1] ∧ s.returned.Nodup := by
  refine ⟨_, rfl, rfl, (lob_ids_fresh [] [.write [1] .stored, .reopen, .write [2] .stored] _
    rfl ?_).1⟩
  decide

/-- An object is written and deleted, and after a reopening the next object gets its id. -/
theorem lob_id_reused :
    ∃ s, runSteps step (start [])
        [.write [1] .stored, .delete 1 true, .reopen, .write [2] .stored] = some s ∧
      s.returned = [1, 1] :=
  ⟨_, rfl, rfl⟩

end ChibiDb
