import ChibiDb.Data.Transition
import ChibiDb.Lsm.Store
import ChibiDb.Lsm.TableSpec

/-!
# The Store as a Map

Each table holds entries in key order, and the tables stand newest first. The
newest entry of a key over all of them is what a lookup finds; a merge of
neighbouring tables keeps it for every key, and a compaction keeps it apart from
the tombstones it drops. So flushes, cascades and compactions change nothing that
can be seen.

The one thing that can go wrong is the size of what is written: lengths and
offsets inside a table are 32-bit words. `StepFits` says that every table a call
writes can be written in them.

## Main definitions

* `lastValue`: What a sequence of calls leaves at a key.
* `LsmStore.writes`, `StepFits`: The tables a call writes, and that they fit.
* `newest`, `StoreInv`: The contents of the store.

## Theorems

* `cascade_settles`: The cascade ends with no level at the trigger.
* `storeInv_step`: A call whose tables fit does what it should.
* `store_is_map`: The main result.
* `long_value_lost`: A value of 4 GiB is not found again.
-/

namespace ChibiDb.Lsm

open List
open Option hiding or_assoc
open LsmStore (apply applyMerge cascade compact flush getFrom insertLevel0 new numSstables visible)
open BTreeMap (find)

/-! ### What the store is for -/

/-- What one call makes of the value of a key. -/
def valueAfter (key : Buf) (old : Option Buf) : LsmOp → Option Buf
  | .put k v => if key = k then some v else old
  | .delete k => if key = k then none else old
  | .flush => old
  | .compact => old

/-- The value of the last put of a key, unless a delete came later. -/
def lastValue (ops : List LsmOp) (key : Buf) : Option Buf := ops.foldl (valueAfter key) none

/-! ### What a call writes -/

/-- Entries as they are stored in a table. -/
def encodePairs (entries : List (Buf × MemEntry)) : List (Buf × Buf) :=
  entries.map fun e => (e.1, encodeEntry e.2)

namespace LsmStore

/-- The entries of each table that a cascade writes. -/
def cascadeWrites : Nat → LsmStore → List (List (Buf × MemEntry))
  | 0, _ => []
  | rounds + 1, s =>
    match s.levelNeedingCompaction with
    | none => []
    | some level =>
      match mergeTables .empty (s.levels.getD level []) with
      | .error _ => []
      | .ok merged =>
        merged.entries :: match SSTable.parse (buildFrom s.blockSize merged.entries) with
          | .error _ => []
          | .ok table => cascadeWrites rounds { s with levels := applyMerge table level s.levels }

/-- The entries of each table that a call writes. -/
def writes (s : LsmStore) : LsmOp → List (List (Buf × MemEntry))
  | .put _ _ => []
  | .delete _ => []
  | .flush =>
    match s.memtableImage with
    | none => []
    | some image =>
      s.memtable.entries :: match SSTable.parse image with
        | .error _ => []
        | .ok table =>
          cascadeWrites (s.insertLevel0 table).numSstables (s.insertLevel0 table).resetMemtable
  | .compact =>
    if s.numSstables < 2 then []
    else match mergeTables .empty s.tablesNewestFirst with
      | .error _ => []
      | .ok merged => [merged.entries.filter fun e => e.2.bytes?.isSome]

end LsmStore

/-- Every table the call writes can hold the lengths and offsets in its words. -/
def StepFits (s : LsmStore) (op : LsmOp) : Prop :=
  ∀ entries ∈ s.writes op, TableFits defaultRestartInterval s.blockSize (encodePairs entries)

instance decidableStepFits (s : LsmStore) (op : LsmOp) : Decidable (StepFits s op) :=
  decidableBAll (fun entries => TableFits defaultRestartInterval s.blockSize (encodePairs entries))
    (s.writes op)

/-- A call that succeeds. -/
def storeStep (s : LsmStore) (op : LsmOp) : Option LsmStore := (s.apply op).toOption

/-! ### The contents of some tables -/

theorem decode_encodeEntry (e : MemEntry) : decodeEntry (encodeEntry e) = e := by
  cases e <;> rfl

theorem find_encodePairs (key : Buf) (entries : List (Buf × MemEntry)) :
    find key (encodePairs entries) = (find key entries).map encodeEntry := by
  induction entries with
  | nil => rfl
  | cons _ _ ih =>
    rw [encodePairs, map_cons, find, find, ← encodePairs, ih]
    split <;> rfl

/-- A table that holds some entries in key order. -/
structure Holds (t : SSTable) (entries : List (Buf × MemEntry)) : Prop where
  sorted : entries.Pairwise fun a b => a.1 < b.1
  table : TableHolds t (encodePairs entries)

/-- The newest entry of a key, over tables that stand newest first. -/
def newest (key : Buf) : List (List (Buf × MemEntry)) → Option MemEntry
  | [] => none
  | entries :: older => (find key entries).or (newest key older)

theorem newest_append (key : Buf) (a b : List (List (Buf × MemEntry))) :
    newest key (a ++ b) = (newest key a).or (newest key b) := by
  induction a with
  | nil => rfl
  | cons _ _ ih => rw [cons_append, newest, newest, ih, Option.or_assoc]

variable {ess : List (List (Buf × MemEntry))} {ts : List SSTable} {entries : List (Buf × MemEntry)}
  {s : LsmStore} {rounds : Nat} {contents : Buf → Option Buf}

theorem getFrom_eq (key : Buf) (h : List.Forall₂ Holds ts ess) :
    getFrom key ts = .ok ((newest key ess).bind MemEntry.bytes?) := by
  induction h with
  | nil => rfl
  | @cons t entries _ _ ht _ ih =>
    have hget := ht.table.get key
    rw [find_encodePairs] at hget
    rw [getFrom, newest]
    by_cases hmay : t.mayContain key = true
    · simp only [hmay, hget, bind, Except.bind]
      cases hfind : find key entries with
      | none => exact ih
      | some => simp [decode_encodeEntry]
    · have hskip := ht.table.skip key (by simpa using hmay)
      rw [find_encodePairs, map_eq_none_iff] at hskip
      simp only [hmay, hskip]
      exact ih

theorem mergePairs_eq (key : Buf) (merged : MemTable) (entries : List (Buf × MemEntry)) :
    (mergePairs merged (encodePairs entries)).get? key =
      (merged.get? key).or (find key entries) := by
  induction entries generalizing merged with
  | nil =>
    rw [find, or_none]
    rfl
  | cons e _ ih =>
    rw [encodePairs, map_cons, mergePairs, foldl_cons, ← mergePairs, ← encodePairs, ih,
      BTreeMap.get?_alter, find, decode_encodeEntry]
    by_cases hk : key = e.1
    · rw [if_pos hk, if_pos hk, hk]
      cases merged.get? e.1 <;> rfl
    · rw [if_neg hk, if_neg hk]

theorem mergeTables_eq (h : List.Forall₂ Holds ts ess) (merged : MemTable) :
    ∃ m, mergeTables merged ts = .ok m ∧
      ∀ key, m.get? key = (merged.get? key).or (newest key ess) := by
  induction h generalizing merged with
  | nil => exact ⟨merged, rfl, fun key => (or_none).symm⟩
  | @cons _ entries _ _ ht _ ih =>
    obtain ⟨m, hm, hget⟩ := ih (mergePairs merged (encodePairs entries))
    refine ⟨m, ?_, fun key => ?_⟩
    · rw [mergeTables]
      simp only [ht.table.iter, bind, Except.bind]
      exact hm
    · rw [hget, mergePairs_eq, newest, Option.or_assoc]

/-- The table of some entries in key order, as it is read back. -/
theorem parse_entries {blockSize : Nat} (hs : entries.Pairwise fun a b => a.1 < b.1)
    (hfit : TableFits defaultRestartInterval blockSize (encodePairs entries)) :
    ∃ t, SSTable.parse (LsmStore.buildFrom blockSize entries) = .ok t ∧ Holds t entries := by
  obtain ⟨t, ht, hholds⟩ := parse_build (pairwise_map.mpr hs) hfit
  exact ⟨t, ht, hs, hholds⟩

/-! ### Levels -/

/-- The level that a merge empties, between those before and behind it. -/
theorem applyMerge_flatten (t : SSTable) {pre post : List (List SSTable)} {l : List SSTable} :
    (applyMerge t pre.length (pre ++ l :: post)).flatten =
      pre.flatten ++ t :: post.flatten := by
  induction pre with
  | nil => cases post <;> rfl
  | cons _ _ ih =>
    rw [cons_append, length_cons, applyMerge, flatten_cons, ih, flatten_cons, append_assoc]

theorem level_cases {level : Nat} (h : s.levelNeedingCompaction = some level) :
    ∃ pre l post, s.levels = pre ++ l :: post ∧ pre.length = level ∧
      s.levels.getD level [] = l ∧ s.compactionTrigger ≤ l.length := by
  obtain ⟨hlt, hl, -⟩ := findIdx?_eq_some_iff_getElem.mp h
  refine ⟨s.levels.take level, s.levels[level], s.levels.drop (level + 1), ?_, ?_, ?_, ?_⟩
  · rw [← drop_eq_getElem_cons hlt, take_append_drop]
  · rw [length_take]
    omega
  · rw [getD_eq_getElem?_getD, getElem?_eq_getElem hlt, getD_some]
  · simpa using hl

/-- A merge leaves fewer tables. -/
theorem numSstables_applyMerge {level : Nat} (t : SSTable) (ht : 2 ≤ s.compactionTrigger)
    (hl : s.levelNeedingCompaction = some level) :
    numSstables { s with levels := applyMerge t level s.levels } + 1 ≤
      s.numSstables := by
  obtain ⟨_, _, _, hlevels, rfl, -, _⟩ := level_cases hl
  unfold numSstables
  rw [← length_flatten, ← length_flatten, hlevels, applyMerge_flatten]
  simp only [flatten_append, flatten_cons, length_append, length_cons]
  omega

/-- As many rounds as there are tables are enough: each leaves fewer. -/
theorem cascade_settles {s' : LsmStore} (ht : 2 ≤ s.compactionTrigger) (hr : s.numSstables ≤ rounds)
    (h : cascade rounds s = .ok s') : s'.levelNeedingCompaction = none := by
  induction rounds generalizing s with
  | zero =>
    cases h
    cases hl : s'.levelNeedingCompaction with
    | none => rfl
    | some =>
      have hfewer := numSstables_applyMerge ⟨[], [], [], [], [], none⟩ ht hl
      omega
  | succ _ ih =>
    rw [cascade] at h
    cases hl : s.levelNeedingCompaction with
    | none =>
      rw [hl] at h
      cases h
      exact hl
    | some level =>
      simp only [hl, bind, Except.bind] at h
      split at h
      · cases h
      split at h
      · cases h
      rename_i t _
      refine ih (s := { s with levels := applyMerge t level s.levels }) ht ?_ h
      have hfewer := numSstables_applyMerge t ht hl
      omega

theorem holds_append {a b : List SSTable} (h : List.Forall₂ Holds (a ++ b) ess) :
    ∃ ea eb, List.Forall₂ Holds a ea ∧ List.Forall₂ Holds b eb ∧ ess = ea ++ eb :=
  ⟨ess.take a.length, ess.drop a.length, by simpa using forall₂_take a.length h,
    by simpa using forall₂_drop a.length h, (take_append_drop _ _).symm⟩

/-- The table that a level is merged into. In the place of the level, under any number, it keeps
    the newest entry of every key. -/
theorem merge_level {level : Nat} (h : List.Forall₂ Holds s.tablesNewestFirst ess)
    (hl : s.levelNeedingCompaction = some level) :
    ∃ m, mergeTables .empty (s.levels.getD level []) = .ok m ∧ ∀ t, Holds t m.entries →
      ∃ ess', List.Forall₂ Holds (applyMerge t level s.levels).flatten ess' ∧
        ∀ key, newest key ess' = newest key ess := by
  obtain ⟨pre, _, _, hlevels, rfl, hget, -⟩ := level_cases hl
  -- The tables of the level stand between the others, and so do their entries.
  unfold LsmStore.tablesNewestFirst at h
  rw [hlevels, flatten_append, flatten_cons] at h
  obtain ⟨e1, _, h1, h23, rfl⟩ := holds_append h
  obtain ⟨_, e3, h2, h3, rfl⟩ := holds_append h23
  obtain ⟨m, hm, hfind⟩ := mergeTables_eq h2 .empty
  refine ⟨m, by rw [hget, hm], fun t hholds => ⟨e1 ++ m.entries :: e3, ?_, fun key => ?_⟩⟩
  · rw [hlevels, applyMerge_flatten]
    exact rel_append h1 (.cons hholds h3)
  · have hkey := hfind key
    rw [BTreeMap.get?_empty, none_or, BTreeMap.get?] at hkey
    rw [newest_append, newest_append, newest_append, newest, hkey]

/-- A cascade keeps the newest entry of every key. -/
theorem cascade_eq (h : List.Forall₂ Holds s.tablesNewestFirst ess)
    (hfit : ∀ entries ∈ s.cascadeWrites rounds,
      TableFits defaultRestartInterval s.blockSize (encodePairs entries)) :
    ∃ s' ess', cascade rounds s = .ok s' ∧ s'.memtable = s.memtable ∧
      List.Forall₂ Holds s'.tablesNewestFirst ess' ∧ ∀ key, newest key ess' = newest key ess := by
  induction rounds generalizing s ess with
  | zero => exact ⟨s, ess, rfl, rfl, h, fun _ => rfl⟩
  | succ _ ih =>
    cases hl : s.levelNeedingCompaction with
    | none => exact ⟨s, ess, by rw [cascade, hl], rfl, h, fun _ => rfl⟩
    | some level =>
      obtain ⟨m, hm, hmerged⟩ := merge_level h hl
      rw [LsmStore.cascadeWrites, hl] at hfit
      simp only [hm] at hfit
      obtain ⟨t, ht, hholds⟩ := parse_entries m.sorted (hfit _ mem_cons_self)
      rw [ht] at hfit
      obtain ⟨ess₁, hrest, hsame⟩ := hmerged t hholds
      obtain ⟨s', ess', hs', hmem, hholds', hnew⟩ :=
        @ih ess₁ { s with levels := applyMerge t level s.levels } hrest (forall_mem_cons.mp hfit).2
      refine ⟨s', ess', ?_, hmem, hholds', fun key => (hnew key).trans (hsame key)⟩
      rw [cascade, hl]
      simp only [LsmStore.mergeImage, hm, ht, bind, Except.bind]
      exact hs'

/-! ### The whole contents -/

/-- The store holds these contents: the memtable on top, the tables below. -/
def StoreInv (s : LsmStore) (contents : Buf → Option Buf) : Prop :=
  ∃ ess, List.Forall₂ Holds s.tablesNewestFirst ess ∧
    ∀ key, ((s.memtable.get? key).or (newest key ess)).bind MemEntry.bytes? = contents key

theorem get_eq (h : StoreInv s contents) (key : Buf) : s.get key = .ok (contents key) := by
  obtain ⟨_, hholds, hc⟩ := h
  have hkey := hc key
  unfold LsmStore.get
  cases hm : s.memtable.get? key with
  | none =>
    rw [hm, none_or] at hkey
    rw [getFrom_eq key hholds, hkey]
  | some =>
    rw [hm, some_or, bind_some] at hkey
    exact congrArg Except.ok hkey

/-- Entries laid over a map, one after the other. -/
theorem overlay_eq (key : Buf) (m : MemTable) (hs : entries.Pairwise fun a b => a.1 < b.1) :
    (entries.foldl (fun m e => m.alter e.1 (fun _ => e.2)) m).get? key =
      (find key entries).or (m.get? key) := by
  induction entries generalizing m with
  | nil => rfl
  | cons e entries ih =>
    have hs' := pairwise_cons.mp hs
    rw [foldl_cons, ih _ hs'.2, BTreeMap.get?_alter, find]
    by_cases hk : key = e.1
    · rw [if_pos hk, if_pos hk, BTreeMap.find_eq_none_of_lt key entries (hk ▸ hs'.1),
        none_or, some_or]
    · rw [if_neg hk, if_neg hk]

theorem visible_sorted (m : MemTable) :
    (visible m.entries).Pairwise fun a b => a.1 < b.1 := by
  refine List.Pairwise.filterMap _ (fun a b hab a' ha b' hb => ?_) m.sorted
  obtain ⟨-, -, rfl⟩ := map_eq_some_iff.mp ha
  obtain ⟨-, -, rfl⟩ := map_eq_some_iff.mp hb
  exact hab

theorem mem_visible (m : MemTable) (key value : Buf) :
    (key, value) ∈ visible m.entries ↔
      (m.get? key).bind MemEntry.bytes? = some value := by
  unfold visible
  rw [mem_filterMap, bind_eq_some_iff]
  constructor
  · rintro ⟨⟨_, e⟩, he, hv⟩
    obtain ⟨_, hbytes, hkv⟩ := map_eq_some_iff.mp hv
    obtain ⟨rfl, rfl⟩ := Prod.mk.inj hkv
    exact ⟨e, (m.mem_entries_iff _ _).mp he, hbytes⟩
  · rintro ⟨e, he, hv⟩
    exact ⟨(key, e), (m.mem_entries_iff _ _).mpr he, by rw [hv]; rfl⟩

theorem iter_eq (h : StoreInv s contents) :
    ∃ l, s.iter = .ok l ∧ (l.Pairwise fun a b => a.1 < b.1) ∧
      ∀ key value, (key, value) ∈ l ↔ contents key = some value := by
  obtain ⟨_, hholds, hc⟩ := h
  obtain ⟨m, hm, hget⟩ := mergeTables_eq hholds .empty
  refine ⟨_, by simp only [LsmStore.iter, hm, bind, Except.bind]; rfl, visible_sorted _,
    fun key value => ?_⟩
  rw [mem_visible, overlay_eq key m s.memtable.sorted, hget, BTreeMap.get?_empty, none_or, ← hc]
  rfl

/-! ### Calls -/

theorem storeInv_memtable (h : StoreInv s contents) (key : Buf) (e : MemEntry) :
    StoreInv { s with memtable := s.memtable.alter key fun _ => e }
      fun k => if k = key then e.bytes? else contents k := by
  obtain ⟨ess, hholds, hc⟩ := h
  refine ⟨ess, hholds, fun k => ?_⟩
  simp only [BTreeMap.get?_alter, ← hc]
  by_cases hk : k = key
  · rw [if_pos hk, if_pos hk, some_or, bind_some]
  · rw [if_neg hk, if_neg hk]

theorem insertLevel0_tables (s : LsmStore) (t : SSTable) :
    (s.insertLevel0 t).tablesNewestFirst = t :: s.tablesNewestFirst := by
  unfold insertLevel0 LsmStore.tablesNewestFirst
  cases s.levels <;> rfl

theorem storeInv_flush (h : StoreInv s contents) (hfit : StepFits s .flush) :
    ∃ s', s.flush = .ok s' ∧ StoreInv s' contents := by
  unfold StepFits LsmStore.writes at hfit
  unfold flush
  cases himage : s.memtableImage with
  | none => exact ⟨s, rfl, h⟩
  | some =>
    obtain ⟨ess, hholds, hc⟩ := h
    rw [himage] at hfit
    unfold LsmStore.memtableImage at himage
    split at himage
    · cases himage
    cases himage
    obtain ⟨t, ht, htable⟩ := parse_entries s.memtable.sorted (hfit _ mem_cons_self)
    simp only [ht] at hfit
    have hlevel : List.Forall₂ Holds (s.insertLevel0 t).resetMemtable.tablesNewestFirst
        (s.memtable.entries :: ess) := by
      change List.Forall₂ Holds (s.insertLevel0 t).tablesNewestFirst _
      rw [insertLevel0_tables]
      exact .cons htable hholds
    have hsize : (s.insertLevel0 t).blockSize = s.blockSize := by
      unfold insertLevel0
      cases s.levels <;> rfl
    rw [← hsize] at hfit
    obtain ⟨s', ess', hs', hmem, hholds', hnew⟩ := cascade_eq hlevel (forall_mem_cons.mp hfit).2
    refine ⟨s', ?_, ess', hholds', fun key => ?_⟩
    · simp only [ht, bind, Except.bind]
      exact hs'
    · rw [hmem, hnew, newest, ← hc]
      rfl

/-- Without its tombstones a table shows the same values. -/
theorem find_values (key : Buf) (hs : entries.Pairwise fun a b => a.1 < b.1) :
    (find key (entries.filter fun e => e.2.bytes?.isSome)).bind MemEntry.bytes? =
      (find key entries).bind MemEntry.bytes? := by
  induction entries with
  | nil => rfl
  | cons e entries ih =>
    have hs' := pairwise_cons.mp hs
    rw [filter_cons, find]
    by_cases hv : e.2.bytes?.isSome = true
    · rw [if_pos hv, find]
      by_cases hk : key = e.1
      · rw [if_pos hk, if_pos hk]
      · rw [if_neg hk, if_neg hk, ih hs'.2]
    · rw [if_neg hv, ih hs'.2]
      by_cases hk : key = e.1
      · rw [if_pos hk, BTreeMap.find_eq_none_of_lt key entries (hk ▸ hs'.1), bind_some,
          not_isSome_iff_eq_none.mp hv]
        rfl
      · rw [if_neg hk]

/-- The table that a compaction writes shows what all the tables showed, under any memtable. -/
theorem compact_tables (hholds : List.Forall₂ Holds s.tablesNewestFirst ess)
    (hmany : ¬ s.numSstables < 2) (hfit : StepFits s .compact) :
    ∃ m t, mergeTables .empty s.tablesNewestFirst = .ok m ∧
      SSTable.parse (LsmStore.buildFrom s.blockSize
        (m.entries.filter fun e => e.2.bytes?.isSome)) = .ok t ∧
      Holds t (m.entries.filter fun e => e.2.bytes?.isSome) ∧
      ∀ (top : MemTable) key,
        ((top.get? key).or (newest key [m.entries.filter fun e => e.2.bytes?.isSome])).bind
          MemEntry.bytes? = ((top.get? key).or (newest key ess)).bind MemEntry.bytes? := by
  unfold StepFits LsmStore.writes at hfit
  obtain ⟨m, hm, hget⟩ := mergeTables_eq hholds .empty
  simp only [if_neg hmany, hm] at hfit
  obtain ⟨t, ht, htable⟩ := parse_entries (m.sorted.filter _) (hfit _ mem_cons_self)
  refine ⟨m, t, hm, ht, htable, fun top key => ?_⟩
  have hkey := hget key
  rw [BTreeMap.get?_empty, none_or, BTreeMap.get?] at hkey
  rw [newest, newest, or_none]
  cases top.get? key with
  | none => rw [none_or, none_or, find_values key m.sorted, hkey]
  | some => rfl

theorem storeInv_compact (h : StoreInv s contents) (hfit : StepFits s .compact) :
    ∃ s', s.compact = .ok s' ∧ StoreInv s' contents := by
  unfold compact LsmStore.compactedImage
  by_cases hfew : s.numSstables < 2
  · rw [if_pos hfew]
    exact ⟨s, rfl, h⟩
  obtain ⟨_, hholds, hc⟩ := h
  obtain ⟨m, t, hm, ht, htable, hsame⟩ := compact_tables hholds hfew hfit
  refine ⟨{ s with levels := [[t]] }, ?_, [m.entries.filter fun e => e.2.bytes?.isSome],
    .cons htable .nil, fun key => ?_⟩
  · simp only [if_neg hfew, hm, ht, bind, Except.bind]
  · rw [← hc]
    exact hsame s.memtable key

/-- One call: if the tables it writes fit, it succeeds and does what it should. -/
theorem storeInv_step {op : LsmOp} (h : StoreInv s contents) (hfit : StepFits s op) :
    ∃ s', storeStep s op = some s' ∧ StoreInv s' fun key => valueAfter key (contents key) op := by
  cases op with
  | put key value => exact ⟨_, rfl, storeInv_memtable h key (.value value)⟩
  | delete key => exact ⟨_, rfl, storeInv_memtable h key .tombstone⟩
  | flush =>
    obtain ⟨s', hs', hinv⟩ := storeInv_flush h hfit
    exact ⟨s', by rw [storeStep, apply, hs']; rfl, hinv⟩
  | compact =>
    obtain ⟨s', hs', hinv⟩ := storeInv_compact h hfit
    exact ⟨s', by rw [storeStep, apply, hs']; rfl, hinv⟩

theorem storeInv_run {ops : List LsmOp} (h : StoreInv s contents)
    (hfit : Meets storeStep StepFits s ops) :
    ∃ s', runSteps storeStep s ops = some s' ∧
      StoreInv s' fun key => ops.foldl (valueAfter key) (contents key) := by
  induction ops generalizing s contents with
  | nil => exact ⟨s, rfl, h⟩
  | cons _ _ ih =>
    obtain ⟨_, hs', hinv⟩ := storeInv_step h hfit.1
    obtain ⟨t, ht, htinv⟩ := ih hinv ((meets_cons _ _ hs').mp hfit).2
    exact ⟨t, by simp only [runSteps, hs', ht], htinv⟩

/-- **The store is a map.** In every run whose calls write tables that fit their words, every
    call succeeds, and in the state reached a lookup gives the last value put and not deleted
    since, and the iteration gives exactly those pairs in key order. -/
theorem store_is_map (blockSize trigger : Nat) (ops : List LsmOp)
    (hfit : Meets storeStep StepFits (new blockSize trigger) ops) :
    ∃ s, runSteps storeStep (new blockSize trigger) ops = some s ∧
      (∀ key, s.get key = .ok (lastValue ops key)) ∧
      ∃ l, s.iter = .ok l ∧ (l.Pairwise fun a b => a.1 < b.1) ∧
        ∀ key value, (key, value) ∈ l ↔ lastValue ops key = some value := by
  have h₀ : StoreInv (.new blockSize trigger) (lastValue []) := ⟨[], .nil, fun _ => rfl⟩
  obtain ⟨s, hs, hinv⟩ := storeInv_run h₀ hfit
  exact ⟨s, hs, get_eq hinv, iter_eq hinv⟩

/-- With the trigger 2: two keys are flushed, one is overwritten and the other deleted, the second
    flush merges level 0 into level 1, and the compaction at the end drops the tombstone. -/
theorem store_is_map_merged :
    let ops : List LsmOp := [.put [1] [2], .put [3] [4], .flush, .put [1] [5], .delete [3], .flush,
      .put [6] [7], .flush, .compact]
    ∃ s, runSteps storeStep (new 64 2) ops = some s ∧ s.numSstables = 1 ∧
      s.get [1] = .ok (some [5]) ∧ s.get [3] = .ok none ∧ s.get [6] = .ok (some [7]) := by
  intro ops
  obtain ⟨s, hs, hget, -⟩ := store_is_map 64 2 ops (by decide +kernel)
  have hnum : (runSteps storeStep (new 64 2) ops).map numSstables = some 1 := by decide +kernel
  rw [hs] at hnum
  exact ⟨s, hs, some.inj hnum, hget [1], hget [3], hget [6]⟩

/-! ### A value that does not fit -/

open BlockBuilder (entryBytes)

/-- The length of the value is written as 0, so the block gives back an empty value. -/
theorem parse_long {v : Buf} (hv : v.length = 2 ^ 32) :
    ∃ b, Block.parse (blockBytes defaultRestartInterval [([0], v)]) = .ok b ∧
      b.firstKey = .ok (some [0]) ∧ b.get [0] = .ok (some []) := by
  have hfinish := blockBytes_single defaultRestartInterval [0] v
  have hlen := length_entryBytes 0 [0] v
  generalize hrun : entryBytes 0 [0] v = run at hfinish hlen
  have hcheck : Block.checkRestarts run.length none [0] = .ok () := by
    rw [Block.checkRestarts, if_neg (by omega), if_neg (by simp)]
    rfl
  rw [hfinish, @parse_layout run [0] (by simp) (by simp), hcheck]
  refine ⟨_, rfl, ?_⟩
  generalize hb : (⟨run ++ [0].flatMap putFixed32 ++ putFixed32 [0].length, [0], run.length⟩ :
    Block) = b
  have hdrop : b.data.drop 0 =
      entryBytes 0 [0] v ++ ([0].flatMap putFixed32 ++ putFixed32 [0].length) := by
    rw [← hb, hrun, drop_zero, append_assoc]
  have hdecode := decode_entryBytes hdrop (by rw [← hb, hrun, Nat.zero_add])
  have hown : slice b.data (0 + (entryHeader 0 [0] v).length) 1 = [0] := by
    have hkey : b.data.drop 0 = entryHeader 0 [0] v ++
        ([0] ++ (v ++ ([0].flatMap putFixed32 ++ putFixed32 [0].length))) := by
      rw [hdrop, entryBytes, ← entryHeader]
      simp
    exact slice_eq (drop_behind hkey)
  rw [hv] at hdecode
  have hentry : b.entryAt 0 = .ok [0] := by
    unfold Block.entryAt Block.ownKey
    rw [hdecode]
    exact congrArg Except.ok hown
  have hrestarts : b.restarts = [0] := by rw [← hb]
  refine ⟨by rw [Block.firstKey, hrestarts, head?_cons]; simp only [hentry]; rfl, ?_⟩
  have hstart : b.restartArrayStart = run.length := by rw [← hb]
  obtain ⟨n, hn⟩ : ∃ n, b.restartArrayStart = n + 1 := ⟨run.length - 1, by omega⟩
  have hsearch : b.searchLoop [0] 1 0 1 = .ok 0 := by
    rw [Block.searchLoop, if_pos Nat.zero_lt_one, hrestarts]
    change (b.entryAt 0 >>= fun k => if k < [0] then _ else _) = _
    rw [hentry]
    rfl
  have hget : b.get [0] = b.scanLoop [0] (n + 1) [] 0 := by
    unfold Block.get
    rw [hrestarts, hn]
    change (b.searchLoop [0] 1 0 1 >>= _) = _
    rw [hsearch]
    rfl
  rw [hget, Block.scanLoop, if_pos (by omega), hdecode]
  unfold Block.ownKey Block.valueOf
  simp only [bind, Except.bind]
  rw [show ([] : Buf).take (0 % 2 ^ 32) = [] from rfl, nil_append]
  simp only [length_singleton, Nat.sub_zero, show 1 % 2 ^ 32 = 1 from rfl, hown, lt_irrefl,
    if_false, if_true]
  rfl

theorem table_long (blockSize : Nat) {v : Buf} (hv : v.length = 2 ^ 32) :
    ∃ t, SSTable.parse (buildTable blockSize defaultRestartInterval [([0], v)]) = .ok t ∧
      t.mayContain [0] = true ∧ t.get [0] = .ok (some []) := by
  obtain ⟨b, hb, hfirst, hget⟩ := parse_long hv
  have hblocks : tableBlocks defaultRestartInterval blockSize [([0], v)] = [[([0], v)]] := by
    rw [tableBlocks, cutLoop]
    split <;> rfl
  have hdata : (blockBytes defaultRestartInterval [([0], v)]).length < 2 ^ 63 := by
    have hentry := length_entryBytes_le 0 [0] v
    have hbytes := congrArg length (blockBytes_single defaultRestartInterval [0] v)
    rw [length_append, length_append] at hbytes
    rw [length_singleton, hv] at hentry
    rw [hbytes, show (([0] : List Nat).flatMap putFixed32).length = 4 from rfl,
      show (putFixed32 ([0] : List Nat).length).length = 4 from rfl]
    omega
  obtain ⟨hat, hparse⟩ := parse_one_block hblocks (show ([0] : Buf).length < 2 ^ 32 by decide)
    (show (bloomBytes [[0]]).length < 2 ^ 32 by decide) hdata
  rw [hb] at hat
  rw [SSTable.readFirstKey, hat] at hparse
  simp only [bind, Except.bind, hfirst] at hparse
  refine ⟨_, hparse, rfl, ?_⟩
  have hmay : maybeContains (bloomBytes [[0]]) [0] = true := maybeContains_bloom mem_cons_self
  unfold SSTable.get
  simp only [map_cons, map_nil, hmay]
  change (SSTable.blockAt _ ⟨0, _⟩ >>= fun block => block.get [0]) = _
  rw [hat]
  exact hget

/-- A flush of such a value alone, for any bytes of that length. -/
theorem flush_long {v : Buf} (hv : v.length + 1 = 2 ^ 32) :
    ∃ s, runSteps storeStep (new 4096 4) [.put [0] v, .flush] = some s ∧
      s.get [0] = .ok none := by
  obtain ⟨t, ht, hmay, hget⟩ := @table_long 4096 (1 :: v) (by rw [length_cons, hv])
  refine ⟨⟨.empty, [[t]], 4096, 4⟩, ?_, ?_⟩
  · have hflush : flush ((new 4096 4).put [0] v) =
        .ok ⟨.empty, [[t]], 4096, 4⟩ := by
      change (SSTable.parse (buildTable 4096 defaultRestartInterval [([0], 1 :: v)]) >>= _) = _
      rw [ht]
      rfl
    simp only [runSteps, storeStep, apply, Except.toOption, hflush]
  · unfold LsmStore.get LsmStore.tablesNewestFirst
    rw [BTreeMap.get?_empty, flatten_cons, flatten_nil, append_nil]
    simp only [getFrom, hmay, hget, bind, Except.bind]
    rfl

/-- **A value of 4 GiB is lost.** It is put and flushed, both calls succeed, and a lookup finds
    nothing: with its tag byte its length is 2^32, which the length word holds as 0. -/
theorem long_value_lost :
    let ops : List LsmOp := [.put [0] (replicate (2 ^ 32 - 1) 0), .flush]
    ∃ s, runSteps storeStep (new 4096 4) ops = some s ∧ s.get [0] = .ok none ∧
      lastValue ops [0] = some (replicate (2 ^ 32 - 1) 0) := by
  obtain ⟨s, hs, hget⟩ := @flush_long (replicate (2 ^ 32 - 1) 0) (by rw [length_replicate]; omega)
  exact ⟨s, hs, hget, rfl⟩

end ChibiDb.Lsm
