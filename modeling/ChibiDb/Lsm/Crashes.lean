import ChibiDb.Lsm.PersistSpec

/-!
# Crashes of the Store

What the directory shows is a map of its own: the contents that were in memory
when the last flush reached its manifest. A flush that is cut off has persisted
all of the memory or nothing, and a compaction changes nothing that can be seen,
wherever it is cut off.

This rests on the sizes of the tables, as in memory: a table whose words cannot
hold its lengths is complete on disk and does not give back what was written.

## Main definitions

* `LsmMap`, `LsmMap.Step`: The contents in memory and on disk, and what a label makes of them.
* `Follows`: The map along a run of the system.
* `CallFits`: No file operation fails, and the tables that a call writes fit their words.
* `LsmStore.Shows`: What lookups and iterations of a store give.
* `Script.Ends`: A property of the memory at the end of a call that does not fail.

## Theorems

* `flush_ends`, `compact_ends`: Calls keep what the store shows.
* `mirrors_step`, `mirrors_run`: Every run is followed by the map.
* `crash_atomic`: The main result.
* `long_value_not_reopened`: A value of 4 GiB is lost to a reopening.
-/

namespace ChibiDb.Lsm

open List
open Option hiding or_assoc
open LsmStore (applyMerge insertLevel0)
open PersistentLsm (addTable cascade compact openWithTrigger removeFiles writeManifest writeSstable)
open SSTable (parse)
open LsmSystem (empty perform step)

/-! ### What the store is for -/

/-- The contents of the store as maps: what is in memory, and what is on disk. -/
structure LsmMap where
  memory : Buf → Option Buf
  persisted : Buf → Option Buf

namespace LsmMap

/-- The contents of an empty directory. -/
def empty : LsmMap := ⟨fun _ => none, fun _ => none⟩

/-- What a label may make of the contents; the Boolean says whether the process is still there
    behind it. A flush that is cut off has persisted everything or nothing. -/
inductive Step (m : LsmMap) : LsmLabel → Bool → LsmMap → Prop
  | reopen (blockSize trigger : Nat) :
    Step m (.reopen blockSize trigger) true { m with memory := m.persisted }
  | put (key value : Buf) : Step m (.put key value) true
    { m with memory := fun k => valueAfter k (m.memory k) (.put key value) }
  | delete (key : Buf) : Step m (.delete key) true
    { m with memory := fun k => valueAfter k (m.memory k) (.delete key) }
  | flush (outcomes : List Outcome) (alive : Bool) :
    Step m (.flush outcomes) alive { m with persisted := m.memory }
  | cut (outcomes : List Outcome) : Step m (.flush outcomes) false m
  | compact (outcomes : List Outcome) (alive : Bool) : Step m (.compact outcomes) alive m

end LsmMap

/-- The contents along a run of the system. -/
inductive Follows : LsmSystem → LsmMap → List LsmLabel → LsmSystem → LsmMap → Prop
  | nil (s : LsmSystem) (m : LsmMap) : Follows s m [] s m
  | cons {s s' t : LsmSystem} {m m' n : LsmMap} {l : LsmLabel} {ls : List LsmLabel}
    (hstep : s.step l = some s') (hmap : m.Step l s'.mem.isSome m')
    (hrest : Follows s' m' ls t n) : Follows s m (l :: ls) t n

/-- Lookups and iterations give these contents. -/
def LsmStore.Shows (s : LsmStore) (contents : Buf → Option Buf) : Prop :=
  (∀ key, s.get key = .ok (contents key)) ∧
    ∃ l, s.iter = .ok l ∧ (l.Pairwise fun a b => a.1 < b.1) ∧
      ∀ key value, (key, value) ∈ l ↔ contents key = some value

/-- The operation fails. -/
def Outcome.fails : Outcome → Bool
  | .failed _ => true
  | _ => false

/-- No file operation fails, and the tables that the call writes fit their words. -/
def CallFits (s : LsmSystem) : LsmLabel → Prop
  | .flush outcomes => (∀ o ∈ outcomes, o.fails = false) ∧ ∀ p ∈ s.mem, StepFits p.store .flush
  | .compact outcomes => (∀ o ∈ outcomes, o.fails = false) ∧ ∀ p ∈ s.mem, StepFits p.store .compact
  | _ => True

instance decidableCallFits (s : LsmSystem) : (l : LsmLabel) → Decidable (CallFits s l)
  | .reopen _ _ | .put _ _ | .delete _ => isTrue trivial
  | .flush outcomes => inferInstanceAs (Decidable
    ((∀ o ∈ outcomes, o.fails = false) ∧ ∀ p ∈ s.mem, StepFits p.store .flush))
  | .compact outcomes => inferInstanceAs (Decidable
    ((∀ o ∈ outcomes, o.fails = false) ∧ ∀ p ∈ s.mem, StepFits p.store .compact))

/-! ### The end of a call -/

namespace Script

/-- The property holds of the memory at the end of the call, which returns no error of its own. -/
def Ends (ok : PersistentLsm → Prop) : Script → Prop
  | .ret p result => result = .ok () ∧ ok p
  | .overflow p => ok p
  | .call _ _ next => next.Ends ok
  | .ignore _ _ next => next.Ends ok

variable {script : Script} {ok : PersistentLsm → Prop} {outcomes : List Outcome}

theorem Ends.mono {ok' : PersistentLsm → Prop} (h : script.Ends ok) (himp : ∀ p, ok p → ok' p) :
    script.Ends ok' := by
  induction script with
  | ret p => exact ⟨h.1, himp p h.2⟩
  | overflow p => exact himp p h
  | call _ _ _ ih => exact ih h
  | ignore _ _ _ ih => exact ih h

theorem Ends.last (h : script.Ends ok) : ok script.last := by
  induction script with
  | ret => exact h.2
  | overflow => exact h
  | call _ _ _ ih => exact ih h
  | ignore _ _ _ ih => exact ih h

/-- A call without failing operations that returns has reached its end. -/
theorem Ends.run {dir : Dir} (h : script.Ends ok) (hno : ∀ o ∈ outcomes, o.fails = false)
    {result : Except LsmError Unit}
    (hret : (script.run outcomes dir).2.2 = .returned result) :
    result = .ok () ∧ ok (script.run outcomes dir).1 := by
  induction script generalizing outcomes dir with
  | ret =>
    cases hret
    exact h
  | overflow => cases hret
  | call _ _ _ ih | ignore _ _ _ ih =>
    rcases outcomes with _ | ⟨_ | left | _, outcomes⟩
    · exact ih h (by simp) hret
    · exact ih h (forall_mem_cons.mp hno).2 hret
    · exact absurd (hno _ mem_cons_self) (by simp [Outcome.fails])
    · cases hret

end Script

variable {p : PersistentLsm} {ok : PersistentLsm → Prop} {nos : List Nat}

theorem writeManifest_ends (h : ok p) (nos : List Nat) :
    (p.writeManifest (p.removeFiles nos)).Ends ok := by
  change (p.removeFiles nos).Ends ok
  induction nos with
  | nil => exact ⟨rfl, h⟩
  | cons _ _ ih => exact ih

/-- A table that parses is added, unless the numbers have run out. -/
theorem addTable_ends {image : Buf} {t : SSTable} {next : PersistentLsm → SSTable → Script}
    (hparse : parse image = .ok t) (hp : ok p)
    (hnext : (next { p with nextFileNo := p.nextFileNo + 1 } (t.withFileNo p.nextFileNo)).Ends
      ok) : (p.addTable image next).Ends ok := by
  unfold addTable writeSstable
  simp only [Script.Ends, hparse]
  split
  · exact hp
  · exact hnext

/-! ### Numbers of tables -/

/-- A table without its number. -/
def SSTable.unnumbered (t : SSTable) : SSTable := { t with fileNo := none }

theorem Holds.withFileNo {t : SSTable} {entries : List (Buf × MemEntry)} (h : Holds t entries)
    (no : Nat) : Holds (t.withFileNo no) entries :=
  ⟨h.sorted, h.table.iter, h.table.skip, h.table.get⟩

theorem mergeTables_unnumbered (merged : MemTable) (ts : List SSTable) :
    mergeTables merged (ts.map SSTable.unnumbered) = mergeTables merged ts := by
  induction ts generalizing merged with
  | nil => rfl
  | cons t _ ih =>
    rw [map_cons, mergeTables, mergeTables, show t.unnumbered.iter = t.iter from rfl]
    cases t.iter with
    | error => rfl
    | ok => exact ih _

theorem applyMerge_unnumbered (t : SSTable) (level : Nat) (levels : List (List SSTable)) :
    (applyMerge t level levels).map (map SSTable.unnumbered) =
      applyMerge t.unnumbered level (levels.map (map SSTable.unnumbered)) := by
  induction levels generalizing level with
  | nil => cases level <;> rfl
  | cons l levels ih =>
    cases level with
    | zero => cases levels <;> rfl
    | succ level => rw [applyMerge, map_cons, ih, map_cons, applyMerge]

theorem levelNeedingCompaction_unnumbered (s : LsmStore) :
    LsmStore.levelNeedingCompaction { s with levels := s.levels.map (map SSTable.unnumbered) } =
      s.levelNeedingCompaction := by
  unfold LsmStore.levelNeedingCompaction
  rw [findIdx?_map]
  simp [Function.comp_def]

/-- What a cascade writes does not depend on the numbers. -/
theorem cascadeWrites_congr (s : LsmStore) {levels levels' : List (List SSTable)} {rounds : Nat}
    (h : levels.map (map SSTable.unnumbered) = levels'.map (map SSTable.unnumbered)) :
    LsmStore.cascadeWrites rounds { s with levels := levels } =
      LsmStore.cascadeWrites rounds { s with levels := levels' } := by
  induction rounds generalizing levels levels' with
  | zero => rfl
  | succ rounds ih =>
    have hlevel : LsmStore.levelNeedingCompaction { s with levels := levels } =
        LsmStore.levelNeedingCompaction { s with levels := levels' } := by
      rw [← levelNeedingCompaction_unnumbered]
      simp only [h]
      exact levelNeedingCompaction_unnumbered { s with levels := levels' }
    have hmap (l : List (List SSTable)) (level : Nat) : (l.getD level []).map SSTable.unnumbered =
        (l.map (map SSTable.unnumbered)).getD level [] := by
      rw [getD_eq_getElem?_getD, getD_eq_getElem?_getD, getElem?_map]
      cases l[level]? <;> rfl
    have hmerge (level : Nat) : mergeTables .empty (levels.getD level []) =
        mergeTables .empty (levels'.getD level []) := by
      rw [← mergeTables_unnumbered, hmap, h, ← hmap, mergeTables_unnumbered]
    rw [LsmStore.cascadeWrites, LsmStore.cascadeWrites, hlevel]
    cases LsmStore.levelNeedingCompaction { s with levels := levels' } with
    | none => rfl
    | some level =>
      simp only [hmerge]
      cases mergeTables .empty (levels'.getD level []) with
      | error => rfl
      | ok m =>
        dsimp only
        cases parse (LsmStore.buildFrom s.blockSize m.entries) with
        | error => rfl
        | ok t =>
          refine congrArg (m.entries :: ·) (ih ?_)
          rw [applyMerge_unnumbered, applyMerge_unnumbered, h]

/-! ### Calls keep what the store shows -/

variable {ess : List (List (Buf × MemEntry))} {rounds : Nat} {contents : Buf → Option Buf}

/-- By induction on the rounds: each merge keeps the newest entry of every key. -/
theorem cascade_ends {top : MemTable} {latest : Buf → Option MemEntry}
    (hmem : p.store.memtable = top) (h : List.Forall₂ Holds p.store.tablesNewestFirst ess)
    (hnew : ∀ key, newest key ess = latest key)
    (hfit : ∀ entries ∈ p.store.cascadeWrites rounds,
      TableFits defaultRestartInterval p.store.blockSize (encodePairs entries)) :
    (cascade (fun obsolete p => p.writeManifest (p.removeFiles obsolete)) rounds nos p).Ends
      fun q => q.store.memtable = top ∧ ∃ ess',
        List.Forall₂ Holds q.store.tablesNewestFirst ess' ∧
          ∀ key, newest key ess' = latest key := by
  induction rounds generalizing p nos ess with
  | zero => exact writeManifest_ends ⟨hmem, ess, h, hnew⟩ nos
  | succ rounds ih =>
    rw [cascade]
    cases hl : p.store.levelNeedingCompaction with
    | none => exact writeManifest_ends ⟨hmem, ess, h, hnew⟩ nos
    | some level =>
      obtain ⟨m, hm, hmerged⟩ := merge_level h hl
      rw [LsmStore.cascadeWrites, hl] at hfit
      simp only [hm] at hfit
      obtain ⟨t, ht, hholds⟩ := parse_entries m.sorted (hfit _ mem_cons_self)
      obtain ⟨ess₁, hrest, hsame⟩ := hmerged _ (hholds.withFileNo p.nextFileNo)
      have hwrites := @cascadeWrites_congr p.store (applyMerge t level p.store.levels)
        (applyMerge (t.withFileNo p.nextFileNo) level p.store.levels) rounds
        (by rw [applyMerge_unnumbered, applyMerge_unnumbered]; rfl)
      simp only [ht, forall_mem_cons, hwrites] at hfit
      simp only [LsmStore.mergeImage, hm, bind, Except.bind]
      refine addTable_ends ht ⟨hmem, ess, h, hnew⟩ ?_
      exact @ih { p with
        nextFileNo := p.nextFileNo + 1
        store := { p.store with
          levels := applyMerge (t.withFileNo p.nextFileNo) level p.store.levels } } _ ess₁ hmem
        hrest (fun key => (hsame key).trans (hnew key)) hfit.2

theorem insertLevel0_eq (s : LsmStore) (t : SSTable) :
    s.insertLevel0 t = { s with levels := (t :: s.levels.headD []) :: s.levels.tail } := by
  unfold insertLevel0
  cases s.levels <;> rfl

/-- A flush whose tables fit keeps what the store shows. -/
theorem flush_ends (h : StoreInv p.store contents) (hfit : StepFits p.store .flush) :
    p.flush.Ends fun q => StoreInv q.store contents := by
  unfold StepFits LsmStore.writes at hfit
  unfold PersistentLsm.flush
  cases himage : p.store.memtableImage with
  | none => exact ⟨rfl, h⟩
  | some =>
    rw [himage] at hfit
    unfold LsmStore.memtableImage at himage
    split at himage
    · cases himage
    cases himage
    obtain ⟨ess, hholds, hc⟩ := h
    obtain ⟨t, ht, htable⟩ := parse_entries p.store.memtable.sorted (hfit _ mem_cons_self)
    simp only [ht, insertLevel0_eq, forall_mem_cons] at hfit
    have hwrites := @cascadeWrites_congr p.store.resetMemtable
      ((t :: p.store.levels.headD []) :: p.store.levels.tail)
      ((t.withFileNo p.nextFileNo :: p.store.levels.headD []) :: p.store.levels.tail)
      (p.store.insertLevel0 t).numSstables rfl
    have hlevel := Forall₂.cons (htable.withFileNo p.nextFileNo) hholds
    rw [← insertLevel0_tables] at hlevel
    refine addTable_ends ht ⟨ess, hholds, hc⟩ ?_
    simp only [insertLevel0_eq] at hwrites hlevel ⊢
    refine (cascade_ends rfl hlevel (fun _ => rfl) (hwrites ▸ hfit.2)).mono ?_
    rintro q ⟨hmem, ess', hholds', hnew⟩
    refine ⟨ess', hholds', fun key => ?_⟩
    rw [hmem, hnew, newest, ← hc]
    rfl

/-- A compaction whose table fits keeps what the tables show, under any memtable. -/
theorem compact_ends (h : StoreInv p.store contents) (hfit : StepFits p.store .compact) :
    p.compact.Ends fun q => q.store.memtable = p.store.memtable ∧ ∀ (top : MemTable) contents,
      StoreInv { p.store with memtable := top } contents →
        StoreInv { q.store with memtable := top } contents := by
  obtain ⟨ess, hholds, -⟩ := h
  unfold compact LsmStore.compactedImage
  by_cases hfew : p.store.numSstables < 2
  · rw [if_pos hfew]
    exact ⟨rfl, rfl, fun _ _ htop => htop⟩
  obtain ⟨m, t, hm, ht, htable, -⟩ := compact_tables hholds hfew hfit
  simp only [if_neg hfew, hm, bind, Except.bind]
  refine addTable_ends ht ⟨rfl, fun _ _ htop => htop⟩ (writeManifest_ends ⟨rfl, ?_⟩ _)
  rintro top contents ⟨ess', hholds', hc⟩
  obtain ⟨m', t', hm', ht', -, hsame⟩ := @compact_tables ess' p.store hholds' hfew hfit
  cases hm.symm.trans hm'
  refine ⟨_, .cons (htable.withFileNo p.nextFileNo) .nil, fun key => ?_⟩
  rw [← hc]
  exact hsame top key

/-! ### Runs -/

/-- The tables of the levels show these contents. -/
def LevelsShow (levels : List (List SSTable)) (contents : Buf → Option Buf) : Prop :=
  StoreInv ⟨.empty, levels, 0, 0⟩ contents

/-- The manifest names tables that show what the map has persisted; in memory are the same tables,
    and with the memtable they show what it has in memory. -/
def Mirrors (s : LsmSystem) (m : LsmMap) : Prop :=
  ∃ levels stored, Saved s.dir levels stored ∧ LevelsShow levels m.persisted ∧
    ∀ p, s.mem = some p → Tables s.dir p.store.levels p.nextFileNo ∧ stored ≤ p.nextFileNo ∧
      p.store.levels = levels ∧ StoreInv p.store m.memory

theorem levelsShow_of_empty {s : LsmStore} (h : StoreInv s contents) (hm : s.memtable = .empty) :
    LevelsShow s.levels contents := by
  obtain ⟨ess, hholds, hc⟩ := h
  refine ⟨ess, hholds, fun key => ?_⟩
  rw [← hc, hm]

theorem memtable_eq_empty {top : MemTable} (h : top.entries = []) : top = .empty := by
  cases top
  subst h
  rfl

variable {c : Call} {m : LsmMap} {outcomes : List Outcome} {script : Script} {s s' : LsmSystem}
  {after : Buf → Option Buf}

/-- What a call is to do: it starts with tables that show what is persisted, and its end shows the
    same memory and has tables that show `after`. -/
structure Does (s : LsmSystem) (m : LsmMap) (c : Call) (script : Script)
    (after : Buf → Option Buf) : Prop where
  dir : c.dir = s.dir
  saved : Saved s.dir c.saved c.stored
  le : c.stored ≤ c.p.nextFileNo
  levels : c.p.store.levels = c.saved
  shows : LevelsShow c.saved m.persisted
  memory : StoreInv c.p.store m.memory
  idle : c.idle → LevelsShow c.p.store.levels after
  last : c.last = script.last
  keeps : script.Keeps (Stops c) s.dir
  ends : script.Ends fun q => StoreInv q.store m.memory ∧
    (q.store.memtable = c.memtable → LevelsShow q.store.levels after)

/-- Wherever the call stops, the tables on disk show what was persisted or what the call is to
    persist. -/
theorem Does.disk {e : Ending} {dir : Dir} (h : Does s m c script after) (hstop : Stops c p e dir) :
    ∃ levels stored, Saved dir levels stored ∧
      (LevelsShow levels m.persisted ∨ LevelsShow levels after) := by
  rcases hstop.disk with hold | ⟨hlast, hmem, hnew⟩
  · exact ⟨_, _, hold, .inl h.shows⟩
  · rw [h.last] at hlast
    rw [hlast] at hmem hnew
    exact ⟨_, _, hnew, .inr (h.ends.last.2 hmem)⟩

/-- A call without failing operations that returns has persisted what it is to persist; one that is
    cut off has done so or has persisted nothing. -/
theorem Does.mirrors (h : Does s m c script after) (hno : ∀ o ∈ outcomes, o.fails = false) :
    ∃ persisted, Mirrors (s.perform script outcomes) ⟨m.memory, persisted⟩ ∧ (persisted = after ∨
      persisted = m.persisted ∧ (s.perform script outcomes).mem.isSome = false) := by
  have hstop := h.keeps.run outcomes
  have hend {result : Except LsmError Unit} :=
    fun hret => @Script.Ends.run script _ outcomes s.dir h.ends hno result hret
  unfold perform
  rcases hrun : script.run outcomes s.dir with ⟨p, dir, e⟩
  rw [hrun] at hstop hend
  cases e with
  | gone =>
    obtain ⟨levels, stored, hsaved, hshow | hshow⟩ := h.disk hstop
    · exact ⟨m.persisted, ⟨levels, stored, hsaved, hshow, nofun⟩, .inr ⟨rfl, rfl⟩⟩
    · exact ⟨after, ⟨levels, stored, hsaved, hshow, nofun⟩, .inl rfl⟩
  | returned result =>
    obtain ⟨rfl, hmemory, hafter⟩ := hend rfl
    rcases hstop.ok rfl with ⟨hidle, rfl, rfl⟩ | ⟨hsaved, hmem⟩
    · refine ⟨after, ⟨c.saved, c.stored, h.dir ▸ h.saved, h.levels ▸ h.idle hidle, ?_⟩, .inl rfl⟩
      intro q hq
      cases hq
      exact ⟨hstop.live, h.le, h.levels, h.memory⟩
    · refine ⟨after, ⟨p.store.levels, p.nextFileNo, hsaved, hafter hmem, ?_⟩, .inl rfl⟩
      intro q hq
      cases hq
      exact ⟨hstop.live, Nat.le_refl _, rfl, hmemory⟩

theorem does_flush (h : Mirrors s m) (hp : s.mem = some p) (hfit : StepFits p.store .flush) :
    ∃ c, Does s m c p.flush m.memory := by
  obtain ⟨levels, stored, hsaved, hshow, hmem⟩ := h
  obtain ⟨hlive, hle, hlevels, hmemory⟩ := hmem p hp
  refine ⟨_, rfl, hsaved, hle, hlevels, hshow, hmemory, ?_, rfl, flush_stops hlive hsaved hle, ?_⟩
  · intro hidle
    exact levelsShow_of_empty hmemory (memtable_eq_empty hidle)
  · exact (flush_ends hmemory hfit).mono fun q hq => ⟨hq, levelsShow_of_empty hq⟩

theorem does_compact (h : Mirrors s m) (hp : s.mem = some p) (hfit : StepFits p.store .compact) :
    ∃ c, Does s m c p.compact m.persisted := by
  obtain ⟨levels, stored, hsaved, hshow, hmem⟩ := h
  obtain ⟨hlive, hle, hlevels, hmemory⟩ := hmem p hp
  have hpersisted : LevelsShow p.store.levels m.persisted := by
    rw [hlevels]
    exact hshow
  refine ⟨_, rfl, hsaved, hle, hlevels, hshow, hmemory, fun _ => hpersisted, rfl,
    compact_stops hlive hsaved hle, ?_⟩
  refine (compact_ends hmemory hfit).mono ?_
  rintro q ⟨hsame, hkeep⟩
  refine ⟨?_, fun _ => hkeep .empty _ hpersisted⟩
  have hq := hkeep p.store.memtable _ hmemory
  rw [← hsame] at hq
  exact hq

/-- One step: what the map makes of a label mirrors what the system makes of it. -/
theorem mirrors_step {l : LsmLabel} (h : Mirrors s m) (hfit : CallFits s l)
    (hstep : s.step l = some s') : ∃ m', m.Step l s'.mem.isSome m' ∧ Mirrors s' m' := by
  cases l with
  | reopen blockSize trigger =>
    obtain ⟨levels, stored, hsaved, hshow, -⟩ := h
    rw [step, open_saved hsaved] at hstep
    cases hstep
    refine ⟨_, .reopen blockSize trigger, levels, stored, hsaved, hshow, fun p hp => ?_⟩
    cases hp
    exact ⟨hsaved.toTables, Nat.le_refl _, rfl, hshow⟩
  | put key value =>
    obtain ⟨levels, stored, hsaved, hshow, hmem⟩ := h
    obtain ⟨p, hp, rfl⟩ := map_eq_some_iff.mp hstep
    obtain ⟨hlive, hle, hlevels, hmemory⟩ := hmem p hp
    refine ⟨_, .put key value, levels, stored, hsaved, hshow, fun q hq => ?_⟩
    cases hq
    exact ⟨hlive, hle, hlevels, storeInv_memtable hmemory key (.value value)⟩
  | delete key =>
    obtain ⟨levels, stored, hsaved, hshow, hmem⟩ := h
    obtain ⟨p, hp, rfl⟩ := map_eq_some_iff.mp hstep
    obtain ⟨hlive, hle, hlevels, hmemory⟩ := hmem p hp
    refine ⟨_, .delete key, levels, stored, hsaved, hshow, fun q hq => ?_⟩
    cases hq
    exact ⟨hlive, hle, hlevels, storeInv_memtable hmemory key .tombstone⟩
  | flush outcomes =>
    obtain ⟨p, hp, rfl⟩ := map_eq_some_iff.mp hstep
    obtain ⟨c, hdoes⟩ := does_flush h hp (hfit.2 p hp)
    obtain ⟨persisted, hmirrors, rfl | ⟨rfl, hgone⟩⟩ := hdoes.mirrors hfit.1
    · exact ⟨_, .flush outcomes _, hmirrors⟩
    · exact ⟨m, hgone ▸ .cut outcomes, hmirrors⟩
  | compact outcomes =>
    obtain ⟨p, hp, rfl⟩ := map_eq_some_iff.mp hstep
    obtain ⟨c, hdoes⟩ := does_compact h hp (hfit.2 p hp)
    obtain ⟨persisted, hmirrors, rfl | ⟨rfl, -⟩⟩ := hdoes.mirrors hfit.1
    · exact ⟨m, .compact outcomes _, hmirrors⟩
    · exact ⟨m, .compact outcomes _, hmirrors⟩

theorem mirrors_empty : Mirrors .empty .empty :=
  ⟨[], 1, saved_empty, ⟨[], .nil, fun _ => rfl⟩, fun p hp => absurd hp (by simp [empty])⟩

/-- Every run whose calls fit is followed by the map. -/
theorem mirrors_run {ls : List LsmLabel} (h : Mirrors s m) (hfit : Meets step CallFits s ls)
    (hrun : runSteps step s ls = some s') : ∃ m', Follows s m ls s' m' ∧ Mirrors s' m' := by
  induction ls generalizing s m with
  | nil =>
    cases hrun
    exact ⟨m, .nil _ m, h⟩
  | cons l ls ih =>
    obtain ⟨s₁, hstep, hrest⟩ := runSteps_cons hrun
    rw [meets_cons _ ls hstep] at hfit
    obtain ⟨m₁, hmap, hmirrors⟩ := mirrors_step h hfit.1 hstep
    obtain ⟨m', hfollows, hend⟩ := ih hmirrors hfit.2 hrest
    exact ⟨m', .cons hstep hmap hfollows, hend⟩

/-! ### Crashes -/

theorem shows_of_inv {s : LsmStore} (h : StoreInv s contents) : s.Shows contents :=
  ⟨get_eq h, iter_eq h⟩

/-- Every table that a manifest names is complete in its file. -/
theorem saved_complete {dir : Dir} {levels : List (List SSTable)} {stored : Nat}
    (h : Saved dir levels stored) :
    ∃ next named, readManifest dir = .ok (next, named) ∧ ∀ no ∈ named.flatten,
      ∃ image t, dir (.sst no) = some image ∧ parse image = .ok t := by
  refine ⟨_, _, h.read, fun no hno => ?_⟩
  rw [← filterMap_flatten] at hno
  obtain ⟨t, ht, hfile⟩ := mem_filterMap.mp hno
  obtain ⟨_, image, t₀, rfl, -, himage, hparse⟩ := h.file t ht
  cases hfile
  exact ⟨image, t₀, himage, hparse⟩

/-- **Calls are crash atomic.** Take any run, crashes and reopenings included, in which no file
    operation fails and every table fits its words; a map follows it. Cut a flush or a compaction
    off after any number of its file operations: every table that the manifest names is complete in
    its file, and the directory opens with what was persisted before the call or, if it is a flush,
    with what was in memory. -/
theorem crash_atomic (ls : List LsmLabel) (s : LsmSystem) (p : PersistentLsm)
    (hok : Meets step CallFits .empty ls) (hrun : runSteps step .empty ls = some s)
    (hp : s.mem = some p) (op : LsmOp) (script : Script)
    (hscript : op = .flush ∧ script = p.flush ∨ op = .compact ∧ script = p.compact)
    (hfit : StepFits p.store op) :
    ∃ m, Follows .empty .empty ls s m ∧ p.store.Shows m.memory ∧ ∀ k blockSize trigger,
      let crashed := (script.run (replicate k .done ++ [.crash]) s.dir).2.1
      (∃ next named, readManifest crashed = .ok (next, named) ∧ ∀ no ∈ named.flatten,
        ∃ image t, crashed (.sst no) = some image ∧ parse image = .ok t) ∧
      ∃ q, openWithTrigger crashed blockSize trigger = .ok q ∧
        (q.store.Shows m.persisted ∨ op = .flush ∧ q.store.Shows m.memory) := by
  obtain ⟨m, hfollows, hmirrors⟩ := mirrors_run mirrors_empty hok hrun
  have hmemory : StoreInv p.store m.memory := by
    obtain ⟨_, _, _, _, hmem⟩ := hmirrors
    exact (hmem p hp).2.2.2
  refine ⟨m, hfollows, shows_of_inv hmemory, fun k blockSize trigger => ?_⟩
  intro crashed
  have hdisk : ∃ levels stored, Saved crashed levels stored ∧
      (LevelsShow levels m.persisted ∨ op = .flush ∧ LevelsShow levels m.memory) := by
    rcases hscript with ⟨rfl, rfl⟩ | ⟨rfl, rfl⟩
    · obtain ⟨c, hdoes⟩ := does_flush hmirrors hp hfit
      obtain ⟨levels, stored, hsaved, hshow⟩ := hdoes.disk (hdoes.keeps.run _)
      exact ⟨levels, stored, hsaved, hshow.imp_right fun h => ⟨rfl, h⟩⟩
    · obtain ⟨c, hdoes⟩ := does_compact hmirrors hp hfit
      obtain ⟨levels, stored, hsaved, hshow⟩ := hdoes.disk (hdoes.keeps.run _)
      exact ⟨levels, stored, hsaved, .inl (hshow.elim id id)⟩
  obtain ⟨levels, stored, hsaved, hshow⟩ := hdisk
  refine ⟨saved_complete hsaved, _, open_saved hsaved blockSize trigger, ?_⟩
  rcases hshow with hshow | ⟨rfl, hshow⟩
  · exact .inl (shows_of_inv hshow)
  · exact .inr ⟨rfl, shows_of_inv hshow⟩

/-- With the trigger 2, and a crash and a reopening on the way: the flush that is cut off has
    overwritten one key and deleted another, merges level 0 into level 1 and has not yet removed the
    two tables it merged. -/
theorem crash_atomic_cascade :
    let ls : List LsmLabel := [.reopen 64 2, .put [1] [2], .put [3] [4], .flush [],
      .put [5] [6], .flush [.done, .crash], .reopen 64 2, .put [1] [7], .delete [3]]
    ∃ s p, runSteps step .empty ls = some s ∧ s.mem = some p ∧
      ∃ m, Follows .empty .empty ls s m ∧ p.store.Shows m.memory ∧ ∃ q, openWithTrigger
        (p.flush.run (replicate 10 .done ++ [.crash]) s.dir).2.1 64 2 = .ok q ∧
        (q.store.Shows m.persisted ∨ q.store.Shows m.memory) ∧ q.store.get [1] = .ok (some [7]) ∧
        q.store.get [3] = .ok none ∧ q.store.get [5] = .ok none := by
  intro ls
  have hok : Meets step CallFits .empty ls := by decide +kernel
  have hsome : (runSteps step .empty ls).isSome := by decide +kernel
  have hstate : ∀ s ∈ runSteps step .empty ls, s.mem.isSome ∧ ∀ p ∈ s.mem,
      StepFits p.store .flush ∧ ∀ q ∈ (openWithTrigger
        (p.flush.run (replicate 10 .done ++ [.crash]) s.dir).2.1 64 2).toOption,
          q.store.get [1] = .ok (some [7]) ∧ q.store.get [3] = .ok none ∧
            q.store.get [5] = .ok none := by
    decide +kernel
  obtain ⟨s, hs⟩ := isSome_iff_exists.mp hsome
  obtain ⟨hmem, hflush⟩ := hstate s hs
  obtain ⟨p, hp⟩ := isSome_iff_exists.mp hmem
  obtain ⟨hfit, hget⟩ := hflush p hp
  obtain ⟨m, hfollows, hmemory, hcrash⟩ := crash_atomic ls s p hok hs hp .flush _
    (.inl ⟨rfl, rfl⟩) hfit
  obtain ⟨-, q, hq, hshow⟩ := hcrash 10 64 2
  exact ⟨s, p, hs, hp, m, hfollows, hmemory, q, hq, hshow.imp_right And.right,
    hget q (by rw [hq]; rfl)⟩

/-! ### A value that does not fit -/

/-- What is left of the map once a step of it is inverted. -/
theorem LsmMap.Step.inv {m m' : LsmMap} {l : LsmLabel} {alive : Bool} (h : m.Step l alive m') :
    match l with
    | .reopen _ _ => m' = { m with memory := m.persisted }
    | .put key value =>
      m' = { m with memory := fun k => valueAfter k (m.memory k) (.put key value) }
    | .flush _ => alive = true → m' = { m with persisted := m.memory }
    | _ => True := by
  cases h with
  | reopen | put => rfl
  | flush => exact fun _ => rfl
  | cut => exact nofun
  | delete | compact => trivial

/-- The map along a flush that returns, with a put before and behind it. -/
theorem persisted_of_flush {v : Buf} {s₃ s₄ : LsmSystem} {m : LsmMap}
    (hrun : runSteps step .empty [.reopen 4096 4, .put [0] v, .flush []] = some s₃)
    (halive : s₃.mem.isSome = true)
    (h : Follows .empty .empty [.reopen 4096 4, .put [0] v, .flush [], .put [2] [3]] s₄ m) :
    m.persisted [0] = some v ∧ m.memory [0] = some v := by
  rcases h with _ | ⟨hstep₁, hmap₁, h⟩
  rcases h with _ | ⟨hstep₂, hmap₂, h⟩
  rcases h with _ | ⟨hstep₃, hmap₃, h⟩
  rcases h with _ | ⟨hstep₄, hmap₄, h⟩
  cases h
  simp only [runSteps, hstep₁, hstep₂, hstep₃, some.injEq] at hrun
  rw [hrun] at hmap₃
  rw [hmap₄.inv, hmap₃.inv halive, hmap₂.inv, hmap₁.inv]
  exact ⟨rfl, rfl⟩

/-- The flush of a value whose length word is 0, for any bytes of that length: the table in memory
    is the table on disk. -/
theorem flush_long_saved {v : Buf} {t : SSTable}
    (ht : parse (buildTable 4096 defaultRestartInterval [([0], 1 :: v)]) = .ok t) :
    ∃ dir, runSteps step .empty [.reopen 4096 4, .put [0] v, .flush []] =
        some ⟨dir, some ⟨⟨.empty, [[t.withFileNo 1]], 4096, 4⟩, 2⟩⟩ ∧
      Saved dir [[t.withFileNo 1]] 2 := by
  generalize hp₁ : (⟨(LsmStore.new 4096 4).put [0] v, 1⟩ : PersistentLsm) = p₁
  generalize hp₂ : (⟨⟨.empty, [[t.withFileNo 1]], 4096, 4⟩, 2⟩ : PersistentLsm) = p₂
  have hflush : ∃ dir, p₁.flush.run [] (fun _ => none) = (p₂, dir, .returned (.ok ())) := by
    have himage : p₁.store.memtableImage =
        some (buildTable 4096 defaultRestartInterval [([0], 1 :: v)]) := by
      rw [← hp₁]
      rfl
    rw [PersistentLsm.flush, himage, ← hp₁, ← hp₂]
    dsimp only
    unfold addTable
    rw [ht, if_neg (show ¬ 1 + 1 ≥ 2 ^ 32 by decide)]
    exact ⟨_, rfl⟩
  obtain ⟨dir, hflush⟩ := hflush
  have hno : 1 = p₁.nextFileNo := by rw [← hp₁]
  have hlevels : [] = p₁.store.levels := by
    rw [← hp₁]
    rfl
  have hstop := (@flush_stops (fun _ => none) 1 p₁ [] (hno ▸ hlevels ▸ saved_empty.toTables)
    saved_empty hno.le).run []
  rw [hflush] at hstop
  -- The flush had something to do, so the manifest names its table.
  rcases hstop.ok rfl with ⟨hidle, -⟩ | ⟨hsaved, -⟩
  · rw [← hp₁] at hidle
    cases hidle
  refine ⟨dir, ?_, by rw [← hp₂] at hsaved; exact hsaved⟩
  have hstart : runSteps step .empty [.reopen 4096 4, .put [0] v] =
      some ⟨fun _ => none, some p₁⟩ := by
    rw [← hp₁]
    rfl
  rw [show ([.reopen 4096 4, .put [0] v, .flush []] : List LsmLabel) =
    [.reopen 4096 4, .put [0] v] ++ [.flush []] from rfl, runSteps_append _ _ hstart]
  simp only [runSteps, step, Option.map_some, perform, hflush]

/-- What is left of it when the next flush is cut off behind its first file operation. -/
theorem flush_long_reopened {v : Buf} (hv : v.length + 1 = 2 ^ 32) :
    let ls : List LsmLabel := [.reopen 4096 4, .put [0] v, .flush [], .put [2] [3]]
    ∃ s p q, runSteps step .empty ls = some s ∧ s.mem = some p ∧ openWithTrigger
        (p.flush.run [.done, .crash] s.dir).2.1 4096 4 = .ok q ∧ q.store.get [0] = .ok none ∧
      ∀ m, Follows .empty .empty ls s m → m.persisted [0] = some v ∧ m.memory [0] = some v := by
  intro ls
  obtain ⟨t, ht, hmay, hget⟩ := @table_long 4096 (1 :: v) (by rw [length_cons, hv])
  obtain ⟨dir, hrun, hsaved⟩ := flush_long_saved ht
  have hcrashed : Saved (Function.update dir (.sst 2) (some [])) [[t.withFileNo 1]] 2 :=
    hsaved.frame (Function.update_of_ne (by simp) _ _)
      fun no hno => Function.update_of_ne (by simpa using hno.ne) _ _
  refine ⟨⟨dir, some ⟨LsmStore.put ⟨.empty, [[t.withFileNo 1]], 4096, 4⟩ [2] [3], 2⟩⟩, _, _, ?_,
    rfl, open_saved hcrashed 4096 4, ?_, fun m hm => persisted_of_flush hrun rfl hm⟩
  · rw [show ls = [.reopen 4096 4, .put [0] v, .flush []] ++ [.put [2] [3]] from rfl,
      runSteps_append _ _ hrun]
    rfl
  · have hmay' : (t.withFileNo 1).mayContain [0] = true := hmay
    have hget' : (t.withFileNo 1).get [0] = .ok (some []) := hget
    change LsmStore.getFrom [0] [t.withFileNo 1] = _
    simp only [LsmStore.getFrom, hmay', hget', bind, Except.bind]
    rfl

/-- **A value of 4 GiB is lost to a reopening.** Its flush returns `Ok`, and the manifest names its
    table. The next flush is cut off behind its first file operation; the directory opens, and the
    key is gone, although every map that follows the run has persisted the value. -/
theorem long_value_not_reopened :
    let v := replicate (2 ^ 32 - 1) 0
    let ls : List LsmLabel := [.reopen 4096 4, .put [0] v, .flush [], .put [2] [3]]
    ∃ s p q, runSteps step .empty ls = some s ∧ s.mem = some p ∧ openWithTrigger
        (p.flush.run [.done, .crash] s.dir).2.1 4096 4 = .ok q ∧ q.store.get [0] = .ok none ∧
      ∀ m, Follows .empty .empty ls s m → m.persisted [0] = some v ∧ m.memory [0] = some v :=
  flush_long_reopened (by rw [length_replicate]; omega)

end ChibiDb.Lsm
