import ChibiDb.Lsm.Persist
import ChibiDb.Lsm.StoreSpec

/-!
# Durability of the Store

Every table in memory is complete in its file, under a number of its own, and so
is every table that the manifest names. A call only writes files whose numbers are
not in use, replaces the manifest in one step, and removes files that neither the
new manifest nor the memory names; so this holds wherever a call stops, and
reopening gives the tables of the manifest.

A flush that fails behind the table it wrote leaves that table in memory alone.
The memtable is empty then, so the next flush has nothing to do and succeeds
without a manifest.

## Main definitions

* `Tables`, `Saved`: Tables that are complete on disk, and those of the manifest.
* `Script.Keeps`: A property of every point where a call can stop.
* `Stops`: What holds there.
* `PersistentLsm.Named`: The manifest names the tables in memory.

## Theorems

* `open_saved`: Reopening gives the tables of the manifest.
* `cascade_fuel`: The rounds of a cascade are enough.
* `flush_stops`, `compact_stops`: The step lemmas.
* `sound_run`: What holds in every run.
* `flush_durable`: The main result.
* `flush_without_manifest`: A flush that succeeds and loses a table.
-/

namespace ChibiDb.Lsm

variable {nos : List Nat} {image : Buf} {script : Script}

open List Option Function
open PersistentLsm (addTable cascade compact openWithTrigger writeSstable)
open SSTable (fileNo parse)
open LsmSystem (empty perform step)

/-! ### The manifest reads back -/

section Manifest

variable {data rest : Buf} {pos : Nat}

theorem takeU32_put {n : Nat} (hn : n < 2 ^ 32) (h : data.drop pos = putFixed32 n ++ rest) :
    takeU32 data pos = .ok (n, pos + 4) ∧ data.drop (pos + 4) = rest := by
  have hs := slice_eq h
  have hd := drop_behind h
  have hlen := congrArg length h
  rw [putFixed32, length_leBytes] at hs hd
  rw [length_drop, length_append, putFixed32, length_leBytes] at hlen
  unfold takeU32
  rw [if_pos (by omega), hs, ofLeBytes_leBytes hn]
  exact ⟨rfl, hd⟩

theorem length_words (nos : List Nat) : (nos.flatMap putFixed32).length = nos.length * 4 := by
  simp [length_flatMap, putFixed32]

theorem takeNumbers_put (hn : ∀ no ∈ nos, no < 2 ^ 32)
    (h : data.drop pos = nos.flatMap putFixed32 ++ rest) :
    takeNumbers data nos.length pos = .ok (nos, pos + nos.length * 4) := by
  induction nos generalizing pos with
  | nil => rfl
  | cons no nos ih =>
    rw [flatMap_cons, append_assoc] at h
    obtain ⟨htake, hdrop⟩ := takeU32_put (hn no mem_cons_self) h
    have hrest := ih (forall_mem_cons.mp hn).2 hdrop
    rw [length_cons, takeNumbers]
    simp only [htake, hrest, bind, Except.bind]
    rw [show pos + 4 + nos.length * 4 = pos + (nos.length + 1) * 4 by omega]

theorem takeLevels_put {levels : List (List Nat)}
    (hn : ∀ level ∈ levels, level.length < 2 ^ 32 ∧ ∀ no ∈ level, no < 2 ^ 32)
    (h : data.drop pos = (levels.flatMap fun level =>
      putFixed32 level.length ++ level.flatMap putFixed32) ++ rest) :
    takeLevels data levels.length pos = .ok levels := by
  induction levels generalizing pos with
  | nil => rfl
  | cons level _ ih =>
    obtain ⟨hlevel, hnos⟩ := hn level mem_cons_self
    rw [flatMap_cons, append_assoc, append_assoc] at h
    obtain ⟨htake, hdrop⟩ := takeU32_put hlevel h
    have hsize := congrArg length h
    rw [length_drop, length_append, length_append, length_words, putFixed32,
      length_leBytes] at hsize
    have hbehind := drop_behind hdrop
    rw [length_words] at hbehind
    have hrest := ih (forall_mem_cons.mp hn).2 hbehind
    rw [length_cons, takeLevels]
    simp only [htake, bind, Except.bind]
    rw [if_neg (by omega), takeNumbers_put hnos hdrop]
    simp only [hrest]

theorem readManifest_encode {dir : Dir} {next : Nat} {levels : List (List Nat)}
    (h : dir .manifest = some (encodeManifest next levels)) (hnext : next < 2 ^ 32)
    (hlevels : levels.length < 2 ^ 32)
    (hn : ∀ level ∈ levels, level.length < 2 ^ 32 ∧ ∀ no ∈ level, no < 2 ^ 32) :
    readManifest dir = .ok (next, levels) := by
  generalize hbytes : encodeManifest next levels = bytes at h
  have h0 : bytes.drop 0 = _ := hbytes.symm
  rw [encodeManifest] at h0
  have h8 := drop_behind h0
  have h12 := drop_behind h8
  have h16 := drop_behind h12
  have hlen := congrArg length h0
  rw [putFixed32, putFixed32, length_leBytes] at h16
  simp only [drop_zero, length_append, putFixed32, length_leBytes] at hlen
  rw [show manifestMagic.length = 8 from rfl] at hlen
  have hmagic : bytes.take 8 = manifestMagic := slice_eq h0
  have hw8 := slice_eq h8
  have hw12 := slice_eq h12
  rw [putFixed32, length_leBytes] at hw8 hw12
  unfold readManifest
  rw [h]
  simp only [hmagic, bne_self_eq_false, Bool.or_false, decide_eq_true_eq]
  rw [if_neg (by omega)]
  have hlv := takeLevels_put hn (by rw [append_nil]; exact h16)
  rw [show slice bytes 12 4 = leBytes 4 levels.length from hw12,
    show slice bytes 8 4 = leBytes 4 next from hw8, ofLeBytes_leBytes hlevels,
    ofLeBytes_leBytes hnext]
  simp only [show takeLevels bytes levels.length 16 = .ok levels from hlv, bind, Except.bind]

end Manifest

/-! ### Tables on disk -/

variable {dir dir' : Dir} {levels levels' : List (List SSTable)} {next stored : Nat}

/-- The table is complete in the file of its number. -/
def InFile (dir : Dir) (next : Nat) (t : SSTable) : Prop :=
  ∃ no image t₀, t = SSTable.withFileNo t₀ no ∧ no < next ∧ dir (.sst no) = some image ∧
    parse image = .ok t₀

/-- Every table is complete in a file of its own, with a number below the next. -/
structure Tables (dir : Dir) (levels : List (List SSTable)) (next : Nat) : Prop where
  file : ∀ t ∈ levels.flatten, InFile dir next t
  nodup : (levels.flatten.map fileNo).Nodup
  depth : levels.length ≤ next
  pos : 1 ≤ next
  word : next < 2 ^ 32

/-- The manifest names these tables, and they are complete. -/
structure Saved (dir : Dir) (levels : List (List SSTable)) (stored : Nat) : Prop
    extends Tables dir levels stored where
  manifest : (dir .manifest = none ∧ levels = [] ∧ stored = 1) ∨ dir .manifest =
    some (encodeManifest stored (levels.map fun level => level.filterMap fileNo))

theorem saved_empty : Saved (fun _ => none) [] 1 where
  file := nofun
  nodup := nodup_nil
  depth := Nat.zero_le _
  pos := Nat.le_refl _
  word := by decide
  manifest := .inl ⟨rfl, rfl, rfl⟩

theorem Tables.frame (h : Tables dir levels next)
    (hd : ∀ no < next, dir' (.sst no) = dir (.sst no)) : Tables dir' levels next where
  file := by
    intro t ht
    obtain ⟨no, image, t₀, rfl, hno, himage, hparse⟩ := h.file t ht
    exact ⟨no, image, t₀, rfl, hno, (hd no hno).trans himage, hparse⟩
  nodup := h.nodup
  depth := h.depth
  pos := h.pos
  word := h.word

theorem Saved.frame (h : Saved dir levels stored) (hm : dir' .manifest = dir .manifest)
    (hd : ∀ no < stored, dir' (.sst no) = dir (.sst no)) : Saved dir' levels stored where
  toTables := h.toTables.frame hd
  manifest := by
    rw [hm]
    exact h.manifest

theorem Tables.later {next' : Nat} (h : Tables dir levels next) (hle : next ≤ next')
    (hw : next' < 2 ^ 32) : Tables dir levels next' where
  file := by
    intro t ht
    obtain ⟨no, image, t₀, rfl, hno, hrest⟩ := h.file t ht
    exact ⟨no, image, t₀, rfl, hno.trans_le hle, hrest⟩
  nodup := h.nodup
  depth := h.depth.trans hle
  pos := h.pos.trans hle
  word := hw

theorem Tables.lt (h : Tables dir levels next) {no : Nat}
    (hno : some no ∈ levels.flatten.map fileNo) : no < next := by
  obtain ⟨t, ht, hfile⟩ := mem_map.mp hno
  obtain ⟨_, -, _, rfl, hlt, -⟩ := h.file t ht
  cases hfile
  exact hlt

/-- Some tables go, and one with a new number comes. -/
theorem Tables.replace {a b : List SSTable} {t₀ : SSTable}
    (h : Tables dir levels next) (hw : next + 1 < 2 ^ 32)
    (hflat : levels'.flatten = a ++ t₀.withFileNo next :: b)
    (hsub : (a ++ b).Sublist levels.flatten) (hlen : levels'.length ≤ levels.length + 1)
    (himage : dir (.sst next) = some image) (hparse : parse image = .ok t₀) :
    Tables dir levels' (next + 1) where
  file := by
    intro t ht
    rw [hflat, mem_append, mem_cons] at ht
    have hold : t ∈ a ++ b → InFile dir (next + 1) t := fun hmem =>
      (h.later (Nat.le_succ _) hw).file t (hsub.subset hmem)
    rcases ht with ht | rfl | ht
    · exact hold (mem_append_left _ ht)
    · exact ⟨next, image, t₀, rfl, Nat.lt_succ_self _, himage, hparse⟩
    · exact hold (mem_append_right _ ht)
  nodup := by
    rw [hflat, map_append, map_cons, nodup_middle, nodup_cons, ← map_append]
    refine ⟨fun hmem => ?_, h.nodup.sublist (hsub.map _)⟩
    exact absurd (h.lt ((hsub.map _).subset hmem)) (Nat.lt_irrefl _)
  depth := hlen.trans (Nat.succ_le_succ h.depth)
  pos := Nat.le_add_left _ _
  word := hw

/-- The numbers of some tables bring them back. -/
theorem loadTables_eq {ts : List SSTable} (h : ∀ t ∈ ts, InFile dir next t) :
    loadTables dir (ts.filterMap fileNo) = .ok ts := by
  induction ts with
  | nil => rfl
  | cons t _ ih =>
    obtain ⟨no, _, t₀, rfl, -, himage, hparse⟩ := h t mem_cons_self
    have hrest := ih (forall_mem_cons.mp h).2
    rw [filterMap_cons_some (show (t₀.withFileNo no).fileNo = some no from rfl), loadTables, himage]
    simp only [hparse, hrest, bind, Except.bind]

theorem loadLevels_eq (h : ∀ t ∈ levels.flatten, InFile dir next t) :
    loadLevels dir (levels.map fun level => level.filterMap fileNo) = .ok levels := by
  induction levels with
  | nil => rfl
  | cons level _ ih =>
    rw [flatten_cons] at h
    have hhead := @loadTables_eq dir next level fun t ht => h t (mem_append_left _ ht)
    have hrest := ih fun t ht => h t (mem_append_right _ ht)
    rw [map_cons, loadLevels]
    simp only [hhead, hrest, bind, Except.bind]

theorem mem_numbers {ts : List SSTable} {no : Nat} (h : no ∈ ts.filterMap fileNo) :
    some no ∈ ts.map fileNo := by
  obtain ⟨t, ht, hno⟩ := mem_filterMap.mp h
  exact mem_map.mpr ⟨t, ht, hno⟩

/-- Distinct numbers below a bound are no more than the bound. -/
theorem length_numbers (h : Tables dir levels next) {level : List SSTable} (hl : level ∈ levels) :
    (level.filterMap fileNo).length ≤ next := by
  have hsub : level.Sublist levels.flatten := sublist_flatten_of_mem hl
  have hrange : level.map fileNo ⊆ (range next).map some := by
    intro _ ho
    obtain ⟨t, ht, rfl⟩ := mem_map.mp ho
    obtain ⟨_, -, _, rfl, hlt, -⟩ := h.file t (hsub.subset ht)
    exact mem_map_of_mem (mem_range.mpr hlt)
  have hle := ((h.nodup.sublist (hsub.map _)).subperm hrange).length_le
  rw [length_map, length_map, length_range] at hle
  exact (length_filterMap_le _ _).trans hle

theorem Saved.read (h : Saved dir levels stored) : readManifest dir =
    .ok (stored, levels.map fun level => level.filterMap fileNo) := by
  rcases h.manifest with ⟨hnone, rfl, rfl⟩ | hsome
  · rw [readManifest, hnone]
    rfl
  refine readManifest_encode hsome h.word ?_ ?_
  · rw [length_map]
    exact h.depth.trans_lt h.word
  intro _ hnos
  obtain ⟨level, hl, rfl⟩ := mem_map.mp hnos
  have hsub : level.Sublist levels.flatten := sublist_flatten_of_mem hl
  exact ⟨(length_numbers h.toTables hl).trans_lt h.word, fun no hno =>
    (h.lt ((hsub.map _).subset (mem_numbers hno))).trans h.word⟩

theorem foldl_max_lt {m n : Nat} (hm : m < n) (h : ∀ no ∈ nos, no < n) :
    nos.foldl max m < n := by
  induction nos generalizing m with
  | nil => exact hm
  | cons no _ ih =>
    exact ih (max_lt hm (h no mem_cons_self)) (forall_mem_cons.mp h).2

/-- Reopening gives the tables of the manifest. -/
theorem open_saved (h : Saved dir levels stored) (blockSize trigger : Nat) :
    openWithTrigger dir blockSize trigger =
      .ok ⟨{ LsmStore.new blockSize trigger with levels := levels }, stored⟩ := by
  have hmax : ((levels.map fun level => level.filterMap fileNo).flatten).foldl max 0 <
      stored := by
    rw [← filterMap_flatten]
    exact foldl_max_lt h.pos fun no hno => h.lt (mem_numbers hno)
  have hword := h.word
  unfold openWithTrigger
  simp only [h.read, loadLevels_eq h.file, bind, Except.bind]
  rw [if_neg (by omega), max_eq_left (by omega : _ + 1 ≤ stored), max_eq_left h.pos]

/-! ### Scripts -/

namespace Script

/-- The property holds wherever the script can stop. -/
def Keeps (ok : PersistentLsm → Ending → Dir → Prop) : Script → Dir → Prop
  | .ret p result, dir => ok p (.returned result) dir
  | .overflow p, dir => ok p .gone dir
  | .call p op next, dir => ok p .gone dir ∧
    (∀ left, ok p (.returned (.error op.error)) (op.spoil dir left)) ∧ next.Keeps ok (op.apply dir)
  | .ignore p op next, dir => ok p .gone dir ∧
    (∀ left, next.Keeps ok (op.spoil dir left)) ∧ next.Keeps ok (op.apply dir)

theorem Keeps.run {ok : PersistentLsm → Ending → Dir → Prop}
    (h : script.Keeps ok dir) (outcomes : List Outcome) :
    ok (script.run outcomes dir).1 (script.run outcomes dir).2.2
      (script.run outcomes dir).2.1 := by
  induction script generalizing outcomes dir with
  | call _ _ _ ih =>
    rcases outcomes with _ | ⟨_ | left | _, outcomes⟩
    · exact ih h.2.2 []
    · exact ih h.2.2 outcomes
    · exact h.2.1 left
    · exact h.1
  | ignore _ _ _ ih =>
    rcases outcomes with _ | ⟨_ | left | _, outcomes⟩
    · exact ih h.2.2 []
    · exact ih h.2.2 outcomes
    · exact ih (h.2.1 left) outcomes
    · exact h.1
  | _ => exact h

/-- The memory at the end when nothing fails. -/
def last : Script → PersistentLsm
  | .ret p _ => p
  | .overflow p => p
  | .call _ _ next => next.last
  | .ignore _ _ next => next.last

end Script

/-- A call: what it starts from, what is saved then, and what it is to end with. -/
structure Call where
  dir : Dir
  p : PersistentLsm
  saved : List (List SSTable)
  stored : Nat
  last : PersistentLsm
  memtable : MemTable
  /-- The call has nothing to do. -/
  idle : Prop

variable {c : Call} {p : PersistentLsm}

/-- What holds where a call stops: the manifest is the old one, or the one the call ends with. -/
structure Stops (c : Call) (p : PersistentLsm) (e : Ending) (dir : Dir) : Prop where
  live : Tables dir p.store.levels p.nextFileNo
  later : c.p.nextFileNo ≤ p.nextFileNo
  disk : Saved dir c.saved c.stored ∨
    (p = c.last ∧ p.store.memtable = c.memtable ∧ Saved dir p.store.levels p.nextFileNo)
  ok : e = .returned (.ok ()) → (c.idle ∧ p = c.p ∧ dir = c.dir) ∨
    (Saved dir p.store.levels p.nextFileNo ∧ p.store.memtable = c.memtable)

/-- What holds up to the manifest. -/
structure Before (c : Call) (p : PersistentLsm) (dir : Dir) : Prop where
  live : Tables dir p.store.levels p.nextFileNo
  later : c.p.nextFileNo ≤ p.nextFileNo
  disk : Saved dir c.saved c.stored
  le : c.stored ≤ c.p.nextFileNo

theorem Before.stops {e : Ending} (h : Before c p dir) (he : e ≠ .returned (.ok ())) :
    Stops c p e dir :=
  ⟨h.live, h.later, .inl h.disk, fun hok => absurd hok he⟩

theorem Before.frame (h : Before c p dir) (hm : dir' .manifest = dir .manifest)
    (hd : ∀ no < p.nextFileNo, dir' (.sst no) = dir (.sst no)) : Before c p dir' :=
  ⟨h.live.frame hd, h.later,
    h.disk.frame hm fun no hno => hd no (hno.trans_le (h.le.trans h.later)), h.le⟩

/-- A file that no table is in may be in any state. -/
theorem Before.update (h : Before c p dir) {f : FileName} (o : Option Buf)
    (hf : f = .manifestTmp ∨ f = .sst p.nextFileNo) : Before c p (update dir f o) := by
  refine h.frame (update_of_ne ?_ _ _) fun no hno => update_of_ne ?_ _ _
  · rcases hf with rfl | rfl <;> simp
  · rcases hf with rfl | rfl
    · simp
    · simpa using hno.ne

/-- Three operations write a file; wherever they stop, only that file has changed. -/
theorem keeps_file (h : Before c p dir) {f : FileName} {bytes : Buf} {next : Script}
    (hf : f = .manifestTmp ∨ f = .sst p.nextFileNo)
    (hnext : next.Keeps (Stops c) (update dir f (some bytes))) :
    Script.Keeps (Stops c) (.call p (.create f) (.call p (.write f bytes) (.call p (.sync f) next)))
      dir := by
  have hcreate := h.update (some []) hf
  have hwrite : FileOp.apply (FileOp.apply dir (.create f)) (.write f bytes) =
      update dir f (some bytes) := by
    simp [FileOp.apply]
  refine ⟨h.stops (by simp), fun left => (h.update left hf).stops (by simp),
    hcreate.stops (by simp), fun left => (hcreate.update left hf).stops (by simp), ?_⟩
  rw [hwrite]
  have hdone := h.update (some bytes) hf
  exact ⟨hdone.stops (by simp), fun left => (hdone.update left hf).stops (by simp), hnext⟩

theorem addTable_keeps (h : Before c p dir)
    {next : PersistentLsm → SSTable → Script} (hlast : (p.addTable image next).last = c.last)
    (hnext : ∀ t dir', parse image = .ok t → p.nextFileNo + 1 < 2 ^ 32 →
      dir' (.sst p.nextFileNo) = some image → Before c p dir' →
      (next { p with nextFileNo := p.nextFileNo + 1 } (t.withFileNo p.nextFileNo)).last = c.last →
      (next { p with nextFileNo := p.nextFileNo + 1 } (t.withFileNo p.nextFileNo)).Keeps
        (Stops c) dir') :
    (p.addTable image next).Keeps (Stops c) dir := by
  have hdone := h.update (some image) (.inr rfl)
  refine keeps_file h (.inr rfl) ?_
  unfold addTable writeSstable at hlast
  by_cases hover : p.nextFileNo + 1 ≥ 2 ^ 32
  · rw [if_pos hover]
    exact hdone.stops (by simp)
  rw [if_neg hover] at hlast ⊢
  cases hparse : parse image with
  | error =>
    have hcount : Before c { p with nextFileNo := p.nextFileNo + 1 }
        (update dir (.sst p.nextFileNo) (some image)) :=
      ⟨hdone.live.later (Nat.le_succ _) (Nat.lt_of_not_le hover), hdone.later.trans (Nat.le_succ _),
        hdone.disk, hdone.le⟩
    exact hcount.stops (by simp)
  | ok t =>
    rw [hparse] at hlast
    exact hnext t _ hparse (by omega) (update_self _ _ _) hdone hlast

/-- The store changes once the table is written. -/
theorem Before.replace {q : PersistentLsm} {a b : List SSTable} {t : SSTable}
    (h : Before c p dir) (hparse : parse image = .ok t) (hw : p.nextFileNo + 1 < 2 ^ 32)
    (himage : dir (.sst p.nextFileNo) = some image) (hq : q.nextFileNo = p.nextFileNo + 1)
    (hflat : q.store.levels.flatten = a ++ t.withFileNo p.nextFileNo :: b)
    (hsub : (a ++ b).Sublist p.store.levels.flatten)
    (hlen : q.store.levels.length ≤ p.store.levels.length + 1) : Before c q dir := by
  refine ⟨?_, hq ▸ h.later.trans (Nat.le_succ _), h.disk, h.le⟩
  rw [hq]
  exact h.live.replace hw hflat hsub hlen himage hparse

/-- Files that may go: none of them is in use. -/
def Obsolete (p : PersistentLsm) (nos : List Nat) : Prop :=
  ∀ no ∈ nos, no < p.nextFileNo ∧ some no ∉ p.store.levels.flatten.map fileNo

theorem removeFiles_last (p : PersistentLsm) (nos : List Nat) : (p.removeFiles nos).last = p := by
  induction nos with
  | nil => rfl
  | cons _ _ ih => exact ih

theorem removeFiles_keeps (hs : Saved dir p.store.levels p.nextFileNo)
    (hlater : c.p.nextFileNo ≤ p.nextFileNo) (hlast : p = c.last)
    (hmem : p.store.memtable = c.memtable) (hobs : Obsolete p nos) :
    (p.removeFiles nos).Keeps (Stops c) dir := by
  induction nos generalizing dir with
  | nil => exact ⟨hs.toTables, hlater, .inr ⟨hlast, hmem, hs⟩, fun _ => .inr ⟨hs, hmem⟩⟩
  | cons no nos ih =>
    have hrest : Obsolete p nos := (forall_mem_cons.mp hobs).2
    refine ⟨⟨hs.toTables, hlater, .inr ⟨hlast, hmem, hs⟩, fun _ => .inr ⟨hs, hmem⟩⟩,
      fun _ => ih hs hrest, ih ⟨?_, ?_⟩ hrest⟩
    · refine ⟨fun t ht => ?_, hs.nodup, hs.depth, hs.pos, hs.word⟩
      obtain ⟨n, image, t₀, rfl, hn, himage, hparse⟩ := hs.file t ht
      -- The file that goes is not the one of this table.
      have hne : n ≠ no := by
        rintro rfl
        exact (hobs n mem_cons_self).2 (mem_map.mpr ⟨_, ht, rfl⟩)
      exact ⟨n, image, t₀, rfl, hn, (update_of_ne (by simpa using hne) _ _).trans himage, hparse⟩
    · rw [FileOp.apply, update_of_ne (by simp)]
      exact hs.manifest

theorem writeManifest_keeps (h : Before c p dir)
    (hlast : (p.writeManifest (p.removeFiles nos)).last = c.last)
    (hmem : p.store.memtable = c.memtable) (hobs : Obsolete p nos) :
    (p.writeManifest (p.removeFiles nos)).Keeps (Stops c) dir := by
  rw [show (p.writeManifest (p.removeFiles nos)).last = p from removeFiles_last p nos] at hlast
  refine keeps_file h (.inl rfl) ?_
  generalize hbytes : encodeManifest p.nextFileNo
    (p.store.levels.map fun level => level.filterMap fileNo) = bytes
  have hdone := h.update (some bytes) (.inl rfl)
  refine ⟨hdone.stops (by simp), fun left => hdone.stops (by simp),
    removeFiles_keeps ⟨h.live.frame ?_, .inr ?_⟩ h.later hlast hmem hobs⟩
  · intro _ _
    simp [FileOp.apply]
  · simp [FileOp.apply, hbytes]

theorem length_applyMerge (t : SSTable) (level : Nat) (levels : List (List SSTable)) :
    (LsmStore.applyMerge t level levels).length ≤ levels.length + 1 := by
  induction levels generalizing level with
  | nil => simp [LsmStore.applyMerge]
  | cons _ levels ih =>
    cases level with
    | zero => cases levels <;> simp [LsmStore.applyMerge]
    | succ level =>
      rw [LsmStore.applyMerge]
      exact Nat.succ_le_succ (ih level)

theorem cascade_keeps {next : List Nat → PersistentLsm → Script} {rounds : Nat}
    (hnext : ∀ nos p dir, Before c p dir → (next nos p).last = c.last →
      p.store.memtable = c.memtable → Obsolete p nos → (next nos p).Keeps (Stops c) dir)
    (h : Before c p dir) (hlast : (cascade next rounds nos p).last = c.last)
    (hmem : p.store.memtable = c.memtable) (hobs : Obsolete p nos) :
    (cascade next rounds nos p).Keeps (Stops c) dir := by
  induction rounds generalizing nos p dir with
  | zero => exact hnext nos p dir h hlast hmem hobs
  | succ _ ih =>
    rw [cascade] at hlast ⊢
    cases hl : p.store.levelNeedingCompaction with
    | none =>
      rw [hl] at hlast
      exact hnext nos p dir h hlast hmem hobs
    | some level =>
      obtain ⟨pre, l, post, hlevels, rfl, hget, -⟩ := level_cases hl
      simp only [hl, hget] at hlast ⊢
      cases hmerge : p.store.mergeImage l with
      | error => exact h.stops (by simp)
      | ok =>
        rw [hmerge] at hlast
        refine addTable_keeps h hlast fun t dir' hparse hw himage hb hlast' => ?_
        have hflat := @applyMerge_flatten (t.withFileNo p.nextFileNo) pre post l
        have hold : p.store.levels.flatten = pre.flatten ++ (l ++ post.flatten) := by
          rw [hlevels, flatten_append, flatten_cons]
        refine ih (hb.replace hparse hw himage rfl (by rw [hlevels]; exact hflat) ?_
          (length_applyMerge _ _ _)) hlast' hmem ?_
        · rw [hold]
          exact (sublist_append_right l _).append_left _
        -- The tables of the level are gone, and the new one has a new number.
        have hnodup := h.live.nodup
        rw [hold, map_append, map_append, nodup_append, nodup_append] at hnodup
        obtain ⟨-, ⟨-, -, hlpost⟩, hprel⟩ := hnodup
        intro no hno
        have hlt : no < p.nextFileNo ∧ some no ∉ (pre.flatten ++ post.flatten).map
            fileNo := by
          rcases mem_append.mp hno with hno | hno
          · obtain ⟨hlt, hnot⟩ := hobs no hno
            refine ⟨hlt, fun hmem => hnot ?_⟩
            rw [hold]
            exact (((sublist_append_right l _).append_left _).map _).subset hmem
          · have hin := mem_numbers hno
            refine ⟨h.live.lt ?_, fun hmem => ?_⟩
            · rw [hold, map_append, map_append]
              exact mem_append_right _ (mem_append_left _ hin)
            rw [map_append, mem_append] at hmem
            rcases hmem with hmem | hmem
            · exact hprel _ hmem _ (mem_append_left _ hin) rfl
            · exact hlpost _ hin _ hmem rfl
        refine ⟨hlt.1.trans (Nat.lt_succ_self _), ?_⟩
        simp only [hlevels, hflat, map_append, map_cons, mem_append, mem_cons, not_or] at hlt ⊢
        exact ⟨hlt.2.1, fun heq => absurd (some.inj heq) hlt.1.ne, hlt.2.2⟩

theorem addTable_congr {next next' : PersistentLsm → SSTable → Script}
    (h : ∀ t, next { p with nextFileNo := p.nextFileNo + 1 } t =
      next' { p with nextFileNo := p.nextFileNo + 1 } t) :
    p.addTable image next = p.addTable image next' := by
  unfold addTable
  cases parse image with
  | error => rfl
  | ok => simp only [h]

/-- As many rounds as there are tables are enough: more change nothing. -/
theorem cascade_fuel {next : List Nat → PersistentLsm → Script} {rounds : Nat}
    (extra : Nat) (ht : 2 ≤ p.store.compactionTrigger) (hr : p.store.numSstables ≤ rounds) :
    cascade next (rounds + extra) nos p =
      cascade next rounds nos p := by
  induction rounds generalizing nos p with
  | zero =>
    have hnone : p.store.levelNeedingCompaction = none :=
      cascade_settles ht hr (by rw [LsmStore.cascade])
    cases extra with
    | zero => rfl
    | succ => simp only [cascade, hnone]
  | succ _ ih =>
    rw [Nat.add_right_comm, cascade, cascade]
    cases hl : p.store.levelNeedingCompaction with
    | none => rfl
    | some level =>
      dsimp only
      cases p.store.mergeImage (p.store.levels.getD level []) with
      | error => rfl
      | ok =>
        refine addTable_congr fun t => ih ht ?_
        have hfewer := numSstables_applyMerge t ht hl
        exact Nat.le_of_succ_le_succ (hfewer.trans hr)

theorem flush_stops {saved : List (List SSTable)}
    (h : Tables dir p.store.levels p.nextFileNo) (hs : Saved dir saved stored)
    (hle : stored ≤ p.nextFileNo) : p.flush.Keeps (Stops ⟨dir, p, saved, stored, p.flush.last,
      .empty, p.store.memtable.entries = []⟩) dir := by
  have hb : Before ⟨dir, p, saved, stored, p.flush.last, .empty, p.store.memtable.entries = []⟩ p
      dir := ⟨h, Nat.le_refl _, hs, hle⟩
  revert hb
  generalize hl : p.flush.last = last
  intro hb
  unfold PersistentLsm.flush at hl ⊢
  cases himage : p.store.memtableImage with
  | none =>
    refine ⟨h, Nat.le_refl _, .inl hs, fun _ => .inl ⟨?_, rfl, rfl⟩⟩
    unfold LsmStore.memtableImage at himage
    split at himage
    · exact isEmpty_iff.mp ‹_›
    · cases himage
  | some =>
    rw [himage] at hl
    refine addTable_keeps hb hl fun t dir' hparse hw hfile hb' hlast' => ?_
    have hflat := insertLevel0_tables p.store (t.withFileNo p.nextFileNo)
    refine cascade_keeps (fun nos q d hq hql hqm hqo => writeManifest_keeps hq hql hqm hqo)
      (hb'.replace hparse hw hfile rfl (a := []) hflat (List.Sublist.refl _) ?_) hlast' rfl
      nofun
    change (p.store.insertLevel0 _).levels.length ≤ _
    unfold LsmStore.insertLevel0
    cases p.store.levels <;> simp

theorem compact_stops {saved : List (List SSTable)}
    (h : Tables dir p.store.levels p.nextFileNo) (hs : Saved dir saved stored)
    (hle : stored ≤ p.nextFileNo) : p.compact.Keeps (Stops ⟨dir, p, saved, stored, p.compact.last,
      p.store.memtable, True⟩) dir := by
  have hb : Before ⟨dir, p, saved, stored, p.compact.last, p.store.memtable, True⟩ p dir :=
    ⟨h, Nat.le_refl _, hs, hle⟩
  revert hb
  generalize hl : p.compact.last = last
  intro hb
  unfold compact at hl ⊢
  cases himage : p.store.compactedImage with
  | error => exact hb.stops (by simp)
  | ok o =>
    cases o with
    | none => exact ⟨h, Nat.le_refl _, .inl hs, fun _ => .inl ⟨trivial, rfl, rfl⟩⟩
    | some =>
      rw [himage] at hl
      refine addTable_keeps hb hl fun t dir' hparse hw hfile hb' hlast' => ?_
      refine writeManifest_keeps (hb'.replace hparse hw hfile rfl (a := []) (b := []) rfl
        (nil_sublist _) (Nat.le_add_left _ _)) hlast' rfl fun no hno => ?_
      have hlt := h.lt (mem_numbers hno)
      refine ⟨hlt.trans (Nat.lt_succ_self _), fun hmem => ?_⟩
      exact absurd (some.inj (mem_singleton.mp hmem)) hlt.ne

/-! ### Runs -/

/-- Every table of the manifest is complete, and so is every table in memory. -/
def Sound (s : LsmSystem) : Prop :=
  ∃ levels stored, Saved s.dir levels stored ∧ ∀ p, s.mem = some p →
    Tables s.dir p.store.levels p.nextFileNo ∧ stored ≤ p.nextFileNo

/-- The manifest names the tables in memory. -/
def PersistentLsm.Named (p : PersistentLsm) (dir : Dir) : Prop :=
  (readManifest dir).map Prod.snd =
    .ok (p.store.levels.map fun level => level.filterMap fileNo)

theorem named_iff (hs : Saved dir levels stored) (h : Tables dir p.store.levels next) :
    p.Named dir ↔ levels = p.store.levels := by
  unfold PersistentLsm.Named
  rw [hs.read]
  constructor
  · intro heq
    have hload := loadLevels_eq hs.file
    have hnos : (levels.map fun level => level.filterMap fileNo) = _ := Except.ok.inj heq
    rw [hnos, loadLevels_eq h.file] at hload
    exact (Except.ok.inj hload).symm
  · rintro rfl
    rfl

variable {s s' : LsmSystem} {l : LsmLabel} {ls : List LsmLabel}

/-- Where a call stops, the directory is sound again. -/
theorem sound_perform {outcomes : List Outcome}
    (h : script.Keeps (Stops c) s.dir) (hle : c.stored ≤ c.p.nextFileNo) :
    Sound (s.perform script outcomes) := by
  have hstop := h.run outcomes
  unfold perform
  rcases hrun : script.run outcomes s.dir with ⟨p, dir, e⟩
  rw [hrun] at hstop
  have hsound : ∃ levels stored, Saved dir levels stored ∧ stored ≤ p.nextFileNo := by
    rcases hstop.disk with hold | ⟨-, -, hnew⟩
    · exact ⟨_, _, hold, hle.trans hstop.later⟩
    · exact ⟨_, _, hnew, Nat.le_refl _⟩
  obtain ⟨levels, stored, hs, hnext⟩ := hsound
  cases e with
  | returned =>
    refine ⟨levels, stored, hs, fun q hq => ?_⟩
    cases hq
    exact ⟨hstop.live, hnext⟩
  | gone => exact ⟨levels, stored, hs, nofun⟩

theorem sound_step (h : Sound s) (hstep : s.step l = some s') : Sound s' := by
  obtain ⟨levels, stored, hs, hmem⟩ := h
  cases l with
  | reopen =>
    rw [step, open_saved hs] at hstep
    cases hstep
    refine ⟨levels, stored, hs, fun p hp => ?_⟩
    cases hp
    exact ⟨hs.toTables, Nat.le_refl _⟩
  | flush =>
    obtain ⟨p, hp, rfl⟩ := map_eq_some_iff.mp hstep
    obtain ⟨hlive, hle⟩ := hmem p hp
    exact sound_perform (flush_stops hlive hs hle) hle
  | compact =>
    obtain ⟨p, hp, rfl⟩ := map_eq_some_iff.mp hstep
    obtain ⟨hlive, hle⟩ := hmem p hp
    exact sound_perform (compact_stops hlive hs hle) hle
  | _ =>
    obtain ⟨p, hp, rfl⟩ := map_eq_some_iff.mp hstep
    refine ⟨levels, stored, hs, fun q hq => ?_⟩
    cases hq
    exact hmem p hp

theorem sound_run (hrun : runSteps step .empty ls = some s) : Sound s :=
  invariant_of_steps _ Sound (fun _ _ _ => sound_step) _ _ _
    ⟨[], 1, saved_empty, fun p hp => absurd hp (by simp [empty])⟩ hrun

/-! ### What a flush makes durable -/

theorem contents_eq {a b : LsmStore} (hm : a.memtable = b.memtable) (hl : a.levels = b.levels) :
    (∀ key, a.get key = b.get key) ∧ a.iter = b.iter := by
  unfold LsmStore.get LsmStore.iter LsmStore.tablesNewestFirst
  rw [hm, hl]
  exact ⟨fun _ => rfl, rfl⟩

/-- **A flush makes everything durable.** In every run, whatever failed in it, a flush that
    returns `Ok` leaves a directory that opens with what the store has in memory, if the manifest
    named the tables in memory in case the flush found the memtable empty. -/
theorem flush_durable (ls : List LsmLabel) (s : LsmSystem) (p p' : PersistentLsm)
    (outcomes : List Outcome) (dir' : Dir) (hrun : runSteps step .empty ls = some s)
    (hp : s.mem = some p) (hnamed : p.store.memtable.entries = [] → p.Named s.dir)
    (hflush : p.flush.run outcomes s.dir = (p', dir', .returned (.ok ())))
    (blockSize trigger : Nat) :
    ∃ q, openWithTrigger dir' blockSize trigger = .ok q ∧
      (∀ key, q.store.get key = p'.store.get key) ∧ q.store.iter = p'.store.iter := by
  obtain ⟨_, _, hs, hmem⟩ := sound_run hrun
  obtain ⟨hlive, hle⟩ := hmem p hp
  have hstop := (flush_stops hlive hs hle).run outcomes
  rw [hflush] at hstop
  rcases hstop.ok rfl with ⟨hidle, hsame, hdir⟩ | ⟨hsaved, hempty⟩
  · have hlevels := (named_iff hs hlive).mp (hnamed hidle)
    cases hsame
    cases hdir
    refine ⟨_, open_saved hs blockSize trigger, contents_eq ?_ hlevels⟩
    cases hm : p.store.memtable with
    | mk =>
      simp only [hm] at hidle
      subst hidle
      rfl
  · exact ⟨_, open_saved hsaved blockSize trigger, contents_eq hempty.symm rfl⟩

/-- The first flush fails while it writes its table and leaves half of it, so the memtable stays;
    the second writes it under the next number; the third finds the memtable empty and the
    manifest naming what is in memory. -/
theorem flush_durable_again :
    ∃ s p, runSteps step .empty [.reopen 4096 4, .put [1] [2],
        .flush [.done, .failed (some [7])], .flush []] = some s ∧
      s.mem = some p ∧ p.store.memtable.entries = [] ∧
      ∃ q, openWithTrigger (p.flush.run [] s.dir).2.1 4096 4 = .ok q ∧
        q.store.get [1] = p.store.get [1] ∧ p.store.get [1] = .ok (some [2]) := by
  refine ⟨_, _, rfl, rfl, rfl, ?_⟩
  obtain ⟨q, hq, hget, -⟩ := flush_durable [.reopen 4096 4, .put [1] [2],
    .flush [.done, .failed (some [7])], .flush []] _ _ _ [] _ rfl rfl (fun _ => rfl) rfl 4096 4
  exact ⟨q, hq, hget [1], rfl⟩

/-- **A flush that loses a table.** The first flush fails when it creates the manifest. The second
    returns `Ok`, with the value in memory, and the directory opens without it. -/
theorem flush_without_manifest :
    ∃ s p, runSteps step .empty
        [.reopen 4096 4, .put [1] [2], .flush [.done, .done, .done, .failed none]] = some s ∧
      s.mem = some p ∧ p.flush.run [] s.dir = (p, s.dir, .returned (.ok ())) ∧
      p.store.get [1] = .ok (some [2]) ∧
      ∃ q, openWithTrigger s.dir 4096 4 = .ok q ∧ q.store.get [1] = .ok none :=
  ⟨_, _, rfl, rfl, rfl, rfl, _, rfl, rfl⟩

end ChibiDb.Lsm
