import ChibiDb.Core.BufferPool
import ChibiDb.Data.Transition

/-!
# What a Checkpoint Makes Durable

When `flush_all` returns `Ok` the log is cut, so every page content that existed
when it was called has to survive power loss. The flush writes the frames that
are dirty when it starts and syncs their files. A page an eviction wrote earlier
is clean in the pool, or not in it at all, and nothing remembers that its file
still needs a sync: it becomes durable only if some other frame of the same file
happens to be dirty.

`Covered` says that of the state the flush starts in: each file that holds an
unsynced write has a dirty frame. Along runs whose flushes are all covered,
every flush that returns `Ok` keeps its promise, whatever other threads do
meanwhile. A flush that is not covered breaks it by running to its end
undisturbed.

## Main definitions

* `Pool.Returning`: A flush has done all its work.
* `Covered`: Every file with an unsynced write has a dirty frame.
* `Pool.Inv`, `FlushInv`: What holds in every state, and of a flush.

## Theorems

* `flush_completes`: A flush can always run to its end, and syncs only the files
  on its list.
* `flush_durable_of_covered`: Covered flushes make everything durable, and no
  others do.
-/

namespace ChibiDb.Pool

open List Option Function

/-- A flush is about to return `Ok`; `owed` is what each page held when it was called. -/
def Returning (s : Pool) (owed : PageKey → Nat) : Prop :=
  ∃ pinned, s.flush = some ⟨[], [], pinned, owed⟩

/-- When a flush starts, every file that holds a write that is not durable has a dirty frame. -/
def Covered (s : Pool) : PoolLabel → Prop
  | .flushBegin => ∀ k, s.durable k < s.disk k → ∃ f ∈ s.frames, f.dirty = true ∧ f.key.1 = k.1
  | _ => True

/-- What every step keeps of a flush under way. A frame still to be written is pinned and holds
    content no older than is owed; every other page's file already does. -/
structure FlushInv (s : Pool) (fl : Flush) : Prop where
  toWrite_pinned : ∀ k ∈ fl.toWrite, k ∈ fl.pinned
  toWrite_frame : ∀ k ∈ fl.toWrite, ∃ f ∈ s.frames, f.key = k ∧ fl.owed k ≤ f.content
  owed_le : ∀ k, fl.owed k ≤ s.writes
  written : ∀ k, k ∉ fl.toWrite → fl.owed k ≤ s.disk k
  /-- A dirty frame can be written back at any time, so it is no older either. -/
  dirty : ∀ f ∈ s.frames, f.dirty = true → fl.owed f.key ≤ f.content

/-- What holds in every state. -/
structure Inv (s : Pool) : Prop where
  nodup : (s.frames.map (fun f => f.key)).Nodup
  frames_le : ∀ f ∈ s.frames, f.content ≤ s.writes
  disk_le : ∀ k, s.disk k ≤ s.writes
  flush : ∀ fl, s.flush = some fl → FlushInv s fl

/-- What covered flushes add: a file off the list holds nothing owed that is not durable. -/
def Syncing (s : Pool) : Prop :=
  ∀ fl, s.flush = some fl → ∀ k, k.1 ∉ fl.toSync → fl.owed k ≤ s.durable k

variable {f : PoolFrame} {k : PageKey} {s s' : Pool} {files : List Nat} {o : PageKey → Nat}
  {pinned : List PageKey} {l : PoolLabel}

/-- The frame found for a page is one of the pool, and is its frame. -/
theorem frame_some (h : s.frame k = some f) : f ∈ s.frames ∧ f.key = k := mem_of_find_key h

/-- With one frame for each page, the frame found is the frame there is. -/
theorem frame_of_mem (h : s.Inv) (hf : f ∈ s.frames) : s.frame f.key = some f :=
  find_key_of_mem h.nodup hf

/-- Of a dirty frame a flush owes the content. -/
theorem owed_of_dirty (h : s.Inv) (hf : f ∈ s.frames) (hd : f.dirty = true) :
    s.owed f.key = f.content := by
  rw [owed, frame_of_mem h hf]
  simp [hd]

/-- Of any other page it owes what is on disk. -/
theorem owed_of_clean (hno : ∀ f ∈ s.frames, f.dirty = true → f.key ≠ k) : s.owed k = s.disk k := by
  unfold owed
  cases hfr : s.frame k with
  | none => rfl
  | some f =>
    rcases frame_some hfr with ⟨hmem, hkey⟩
    have hd : ¬ f.dirty = true := fun hd => hno f hmem hd hkey
    simp [hd]

/-- The frames a flush starts with. -/
theorem mem_dirtyFrames (s : Pool) (f : PoolFrame) :
    f ∈ s.dirtyFrames ↔ f ∈ s.frames ∧ f.dirty = true := by
  simp [dirtyFrames]

/-- The files of a list of frames. -/
theorem mem_filesOf (fs : List PoolFrame) (file : Nat) :
    file ∈ filesOf fs ↔ ∃ f ∈ fs, f.key.1 = file := by
  simp [filesOf]

/-- A freshly opened pool. -/
theorem inv_start : start.Inv where
  nodup := nodup_nil
  frames_le := nofun
  disk_le := fun _ => Nat.le_refl _
  flush := nofun

/-- A page is loaded as it is on disk. -/
theorem inv_load (hk : ¬ (s.frame k).isSome = true) (h : s.Inv) :
    ({ s with frames := ⟨k, s.disk k, false⟩ :: s.frames } : Pool).Inv where
  nodup := by
    rw [map_cons, nodup_cons]
    exact ⟨not_mem_of_find_key (not_isSome_iff_eq_none.mp hk), h.nodup⟩
  frames_le := forall_mem_cons.mpr ⟨h.disk_le k, h.frames_le⟩
  disk_le := h.disk_le
  flush := by
    intro fl hfl
    have hi := h.flush fl hfl
    refine ⟨hi.toWrite_pinned, ?_, hi.owed_le, hi.written, ?_⟩
    · intro k' hk'
      rcases hi.toWrite_frame k' hk' with ⟨f, hf, hrest⟩
      exact ⟨f, mem_cons_of_mem _ hf, hrest⟩
    exact forall_mem_cons.mpr ⟨fun hd => absurd hd Bool.false_ne_true, hi.dirty⟩

/-- Changing frames in place keeps one frame for each page. -/
theorem nodup_map {g : PoolFrame → PoolFrame} (hg : ∀ f, (g f).key = f.key) (h : s.Inv) :
    ((s.frames.map g).map (fun f => f.key)).Nodup := by
  have hkeys : (s.frames.map g).map (fun f => f.key) = s.frames.map (fun f => f.key) := by
    rw [List.map_map]
    exact map_congr_left (fun f _ => hg f)
  rw [hkeys]
  exact h.nodup

/-- A modification makes the newest content there is. -/
theorem inv_modify (k : PageKey) (h : s.Inv) :
    ({ s with
        frames := s.frames.map (fun f => if f.key = k then ⟨k, s.writes + 1, true⟩ else f)
        writes := s.writes + 1 } : Pool).Inv where
  nodup := by
    refine nodup_map (fun f => ?_) h
    by_cases hf : f.key = k <;>
      simp [hf]
  frames_le := by
    intro g hg
    rcases mem_map.mp hg with ⟨f, hf, rfl⟩
    by_cases hk : f.key = k
    · simp [hk]
    · simp only [hk, if_false]
      exact Nat.le_succ_of_le (h.frames_le f hf)
  disk_le := fun k' => Nat.le_succ_of_le (h.disk_le k')
  flush := by
    intro fl hfl
    have hi := h.flush fl hfl
    refine ⟨hi.toWrite_pinned, ?_, fun k' => Nat.le_succ_of_le (hi.owed_le k'), hi.written, ?_⟩
    · intro k' hk'
      rcases hi.toWrite_frame k' hk' with ⟨f, hf, hkey, hle⟩
      refine ⟨_, mem_map_of_mem hf, ?_⟩
      by_cases hk : f.key = k
      · simp only [hk, if_true]
        exact ⟨hk.symm.trans hkey, Nat.le_succ_of_le (hi.owed_le k')⟩
      · simp only [hk, if_false]
        exact ⟨hkey, hle⟩
    · intro _ hg hd
      rcases mem_map.mp hg with ⟨f, hf, rfl⟩
      by_cases hk : f.key = k
      · simp only [hk, if_true]
        exact Nat.le_succ_of_le (hi.owed_le k)
      · simp only [hk, if_false] at hd ⊢
        exact hi.dirty f hf hd

/-- Frames a flush still has to write are pinned, so an eviction leaves them. -/
theorem flushInv_filter (hpin : ¬ s.Pinned k) {fl : Flush} (hfl : s.flush = some fl)
    {disk : PageKey → Nat} (hdisk : ∀ k', k' ∉ fl.toWrite → fl.owed k' ≤ disk k')
    (hi : FlushInv s fl) :
    FlushInv { s with frames := s.frames.filter (fun f => f.key ≠ k), disk := disk } fl where
  toWrite_pinned := hi.toWrite_pinned
  toWrite_frame := by
    intro k' hk'
    rcases hi.toWrite_frame k' hk' with ⟨f, hf, hkey, hle⟩
    refine ⟨f, mem_filter.mpr ⟨hf, decide_eq_true ?_⟩, hkey, hle⟩
    intro hfk
    exact hpin ⟨fl, hfl, hfk ▸ hkey ▸ hi.toWrite_pinned k' hk'⟩
  owed_le := hi.owed_le
  written := hdisk
  dirty := fun f hf hd => hi.dirty f (mem_of_mem_filter hf) hd

/-- The eviction of a clean frame, or one whose write fails, takes the frame away. -/
theorem inv_evict_clean (hpin : ¬ s.Pinned k) (h : s.Inv) :
    ({ s with frames := s.frames.filter (fun f => f.key ≠ k) } : Pool).Inv where
  nodup := h.nodup.sublist (filter_sublist.map _)
  frames_le := fun f hf => h.frames_le f (mem_of_mem_filter hf)
  disk_le := h.disk_le
  flush := fun fl hfl => flushInv_filter hpin hfl (h.flush fl hfl).written (h.flush fl hfl)

/-- The eviction of a dirty frame writes it first, and it is no older than is owed. -/
theorem inv_evict_dirty (hf : f ∈ s.frames) (hd : f.dirty = true) (hpin : ¬ s.Pinned f.key)
    (h : s.Inv) :
    ({ s.writePage f with frames := s.frames.filter (fun g => g.key ≠ f.key) } : Pool).Inv where
  nodup := h.nodup.sublist (filter_sublist.map _)
  frames_le := fun g hg => h.frames_le g (mem_of_mem_filter hg)
  disk_le := by
    intro k
    simp only [writePage, update_apply]
    split
    · exact h.frames_le f hf
    · exact h.disk_le k
  flush := by
    intro fl hfl
    have hi := h.flush fl hfl
    refine flushInv_filter hpin hfl ?_ hi
    intro k hk
    simp only [writePage, update_apply]
    split
    · next hkf => exact hkf ▸ hi.dirty f hf hd
    · exact hi.written k hk

/-- A new page goes to disk at once. -/
theorem inv_allocPage (k : PageKey) (h : s.Inv) :
    ({ s with
        disk := update s.disk k (s.writes + 1)
        writes := s.writes + 1 } : Pool).Inv where
  nodup := h.nodup
  frames_le := fun f hf => Nat.le_succ_of_le (h.frames_le f hf)
  disk_le := by
    intro k'
    simp only [update_apply]
    split
    · exact Nat.le_refl _
    · exact Nat.le_succ_of_le (h.disk_le k')
  flush := by
    intro fl hfl
    have hi := h.flush fl hfl
    refine ⟨hi.toWrite_pinned, hi.toWrite_frame, fun k' => Nat.le_succ_of_le (hi.owed_le k'), ?_,
      hi.dirty⟩
    intro k' hk'
    simp only [update_apply]
    split
    · exact Nat.le_succ_of_le (hi.owed_le k')
    · exact hi.written k' hk'

/-- Nothing is owed that was not written. -/
theorem owed_le_writes (h : s.Inv) (k : PageKey) : s.owed k ≤ s.writes := by
  unfold owed
  cases hfr : s.frame k with
  | none => exact h.disk_le k
  | some f =>
    dsimp only
    split
    · exact h.frames_le f (frame_some hfr).1
    · exact h.disk_le k

/-- A flush starts with every dirty frame on its list. -/
theorem inv_flushBegin (h : s.Inv) :
    ({ s with flush := some ⟨s.dirtyFrames.map (fun f => f.key), filesOf s.dirtyFrames,
        s.dirtyFrames.map (fun f => f.key), s.owed⟩ } : Pool).Inv := by
  refine { h with flush := fun _ hfl => ?_ }
  cases hfl
  refine ⟨fun k hk => hk, ?_, owed_le_writes h, ?_, ?_⟩
  · intro k hk
    rcases mem_map.mp hk with ⟨f, hf, rfl⟩
    rcases (mem_dirtyFrames s f).mp hf with ⟨hmem, hd⟩
    exact ⟨f, hmem, rfl, le_of_eq (owed_of_dirty h hmem hd)⟩
  · intro _ hk
    refine le_of_eq (owed_of_clean (fun f hf hd hkey => hk ?_))
    exact mem_map.mpr ⟨f, (mem_dirtyFrames s f).mpr ⟨hf, hd⟩, hkey⟩
  · intro _ hf hd
    exact le_of_eq (owed_of_dirty h hf hd)

/-- The frame written holds what is owed, so its file does afterwards. -/
theorem inv_flushWrite {ks : List PageKey} (hfl : s.flush = some ⟨k :: ks, files, pinned, o⟩)
    (hf : s.frame k = some f) (h : s.Inv) :
    ({ s.writePage f with
        frames := s.frames.map (fun f => if f.key = k then { f with dirty := false } else f)
        flush := some ⟨ks, files, pinned, o⟩ } : Pool).Inv where
  nodup := by
    refine nodup_map (fun g => ?_) h
    by_cases hg : g.key = k <;>
      simp [hg]
  frames_le := by
    intro g hg
    rcases mem_map.mp hg with ⟨g', hg', rfl⟩
    split <;>
      exact h.frames_le g' hg'
  disk_le := by
    intro k'
    simp only [writePage, update_apply]
    split
    · exact h.frames_le f (frame_some hf).1
    · exact h.disk_le k'
  flush := by
    intro _ hfl'
    cases hfl'
    have hi := h.flush _ hfl
    rcases frame_some hf with ⟨_, hkey⟩
    have hle : o k ≤ f.content := by
      rcases hi.toWrite_frame k mem_cons_self with ⟨g, hg, hgk, hgle⟩
      cases hf.symm.trans (hgk ▸ frame_of_mem h hg)
      exact hgle
    refine ⟨fun k' hk' => hi.toWrite_pinned k' (mem_cons_of_mem _ hk'), ?_, hi.owed_le, ?_, ?_⟩
    · intro k' hk'
      rcases hi.toWrite_frame k' (mem_cons_of_mem _ hk') with ⟨g, hg, hgk, hgle⟩
      refine ⟨_, mem_map_of_mem hg, ?_⟩
      by_cases hgk' : g.key = k
      · simp only [hgk', if_true]
        exact ⟨hgk'.symm.trans hgk, hgle⟩
      · simp only [hgk', if_false]
        exact ⟨hgk, hgle⟩
    · intro k' hk'
      simp only [writePage, update_apply, hkey]
      split
      · next hkk => exact hkk ▸ hle
      rename_i hkk
      exact hi.written k' (not_mem_cons_of_ne_of_not_mem hkk hk')
    · intro _ hg hd
      rcases mem_map.mp hg with ⟨g', hg', rfl⟩
      by_cases hk' : g'.key = k
      · simp only [hk', if_true] at hd
        cases hd
      · simp only [hk', if_false] at hd ⊢
        exact hi.dirty g' hg' hd

/-- Every step, in terms of the state it leads to. -/
inductive PoolStep (s : Pool) : PoolLabel → Pool → Prop where
  | load (k : PageKey) (hk : ¬ (s.frame k).isSome = true) :
      PoolStep s (.load k) { s with frames := ⟨k, s.disk k, false⟩ :: s.frames }
  | modify (k : PageKey) :
      PoolStep s (.modify k) { s with
        frames := s.frames.map (fun f => if f.key = k then ⟨k, s.writes + 1, true⟩ else f)
        writes := s.writes + 1 }
  | evictDirty (f : PoolFrame) (hf : f ∈ s.frames) (hd : f.dirty = true)
      (hpin : ¬ s.Pinned f.key) :
      PoolStep s (.evict f.key)
        { s.writePage f with frames := s.frames.filter (fun g => g.key ≠ f.key) }
  | evictClean (l : PoolLabel) (k : PageKey) (hpin : ¬ s.Pinned k) :
      PoolStep s l { s with frames := s.frames.filter (fun f => f.key ≠ k) }
  | allocPage (k : PageKey) :
      PoolStep s (.allocPage k) { s with
        disk := update s.disk k (s.writes + 1)
        writes := s.writes + 1 }
  | flushBegin :
      PoolStep s .flushBegin { s with
        flush := some ⟨s.dirtyFrames.map (fun f => f.key), filesOf s.dirtyFrames,
          s.dirtyFrames.map (fun f => f.key), s.owed⟩ }
  | flushWrite (k : PageKey) (ks : List PageKey) (files : List Nat) (pinned : List PageKey)
      (o : PageKey → Nat) (f : PoolFrame) (hfl : s.flush = some ⟨k :: ks, files, pinned, o⟩)
      (hf : s.frame k = some f) :
      PoolStep s .flushWrite { s.writePage f with
        frames := s.frames.map (fun f => if f.key = k then { f with dirty := false } else f)
        flush := some ⟨ks, files, pinned, o⟩ }
  | flushSync (file : Nat) (files : List Nat) (pinned : List PageKey) (o : PageKey → Nat)
      (hfl : s.flush = some ⟨[], file :: files, pinned, o⟩) :
      PoolStep s .flushSync { s.syncFile file with flush := some ⟨[], files, pinned, o⟩ }
  | flushDone (l : PoolLabel) : PoolStep s l { s with flush := none }

/-- Every step is one of these. -/
theorem step_cases (h : s.step l = some s') : PoolStep s l s' := by
  cases l with
  | load k =>
    rcases ite_none_left_eq_some.mp h with ⟨hk, h⟩
    cases h
    exact .load k hk
  | modify k =>
    rcases ite_some_none_eq_some.mp h with ⟨_, rfl⟩
    exact .modify k
  | evict k =>
    simp only [step] at h
    split at h
    · cases h
    · next f hfr =>
      rcases frame_some hfr with ⟨hmem, rfl⟩
      rcases ite_none_left_eq_some.mp h with ⟨hpin, h⟩
      split at h
      · next hd =>
        cases h
        exact .evictDirty f hmem hd hpin
      · cases h
        exact .evictClean _ _ hpin
  | evictErr k =>
    simp only [step] at h
    split at h
    · cases h
    · rcases ite_none_left_eq_some.mp h with ⟨hpin, h⟩
      cases h
      exact .evictClean _ k (not_or.mp hpin).2
  | allocPage k =>
    cases h
    exact .allocPage k
  | flushBegin =>
    rcases ite_none_left_eq_some.mp h with ⟨_, h⟩
    cases h
    exact .flushBegin
  | flushWrite =>
    simp only [step] at h
    split at h
    · next k ks files pinned o hfl =>
      split at h
      · cases h
      · next f hfr =>
        cases h
        exact .flushWrite k ks files pinned o f hfl hfr
    · cases h
  | flushSync =>
    simp only [step] at h
    split at h
    · next file files pinned o hfl =>
      cases h
      exact .flushSync file files pinned o hfl
    · cases h
  | flushErr =>
    rcases ite_some_none_eq_some.mp h with ⟨_, rfl⟩
    exact .flushDone _
  | flushEnd =>
    simp only [step] at h
    split at h
    · cases h
      exact .flushDone _
    · cases h

/-- A sync changes no page. -/
theorem inv_flushSync {file : Nat} (hfl : s.flush = some ⟨[], file :: files, pinned, o⟩)
    (h : s.Inv) : ({ s.syncFile file with flush := some ⟨[], files, pinned, o⟩ } : Pool).Inv := by
  refine { h with flush := fun _ hfl' => ?_ }
  cases hfl'
  exact { h.flush _ hfl with }

/-- Every step keeps the invariant. -/
theorem inv_step (h : s.Inv) (hstep : s.step l = some s') : s'.Inv := by
  cases step_cases hstep with
  | load _ hk => exact inv_load hk h
  | modify k => exact inv_modify k h
  | evictDirty _ hf hd hpin => exact inv_evict_dirty hf hd hpin h
  | evictClean _ _ hpin => exact inv_evict_clean hpin h
  | allocPage k => exact inv_allocPage k h
  | flushBegin => exact inv_flushBegin h
  | flushWrite _ _ _ _ _ _ hfl hf => exact inv_flushWrite hfl hf h
  | flushSync _ _ _ _ hfl => exact inv_flushSync hfl h
  | flushDone => exact { h with flush := nofun }

/-- Only the start of a flush and a sync matter here: everything else leaves the
    list of files and what is durable alone. -/
theorem syncing_step (h : s.Inv) (hsync : s.Syncing) (hcov : Covered s l)
    (hstep : s.step l = some s') : s'.Syncing := by
  cases step_cases hstep with
  | flushBegin =>
    intro _ hfl k hk
    cases hfl
    have hclean : ∀ f ∈ s.frames, f.dirty = true → f.key.1 ≠ k.1 := by
      intro f hf hd hfile
      exact hk ((mem_filesOf _ _).mpr ⟨f, (mem_dirtyFrames s f).mpr ⟨hf, hd⟩, hfile⟩)
    have howed : s.owed k = s.disk k :=
      owed_of_clean (fun f hf hd hkey => hclean f hf hd (by rw [hkey]))
    -- An unsynced write would have a dirty frame in its file.
    by_contra hlt
    rcases hcov k (by rw [← howed]; exact Nat.lt_of_not_le hlt) with ⟨f, hf, hd, hfile⟩
    exact hclean f hf hd hfile
  | flushWrite _ _ _ _ _ _ hfl =>
    intro _ hfl' k' hk'
    cases hfl'
    exact hsync _ hfl k' hk'
  | flushSync file _ _ _ hfl =>
    intro _ hfl' k hk
    cases hfl'
    simp only [syncFile]
    by_cases hfile : k.1 = file
    · rw [if_pos hfile]
      exact (h.flush _ hfl).written k not_mem_nil
    rw [if_neg hfile]
    exact hsync _ hfl k (not_mem_cons_of_ne_of_not_mem hfile hk)
  | flushDone => exact nofun
  | _ => exact hsync

/-- Once everything is written the syncs go through one by one. -/
theorem syncs_complete (s : Pool) (hfl : s.flush = some ⟨[], files, pinned, o⟩) :
    ∃ ls t, runSteps step s ls = some t ∧ t.Returning o ∧
      ∀ k, k.1 ∉ files → t.durable k = s.durable k := by
  induction files generalizing s with
  | nil => exact ⟨[], s, rfl, ⟨pinned, hfl⟩, fun _ _ => rfl⟩
  | cons file files ih =>
    have hstep : s.step .flushSync =
        some { s.syncFile file with flush := some ⟨[], files, pinned, o⟩ } := by
      simp only [step, hfl]
    rcases ih { s.syncFile file with flush := some ⟨[], files, pinned, o⟩ } rfl with
      ⟨ls, t, hrun, hret, hdur⟩
    refine ⟨.flushSync :: ls, t, by simp only [runSteps, hstep, hrun], hret, ?_⟩
    intro k hk
    rw [hdur k (fun hin => hk (mem_cons_of_mem _ hin))]
    exact if_neg (ne_of_not_mem_cons hk)

/-- A flush can always run to its end without other threads, and it makes
    durable only what is in the files on its list. -/
theorem flush_completes {ws : List PageKey} (s : Pool) (h : s.Inv)
    (hfl : s.flush = some ⟨ws, files, pinned, o⟩) :
    ∃ ls t, runSteps step s ls = some t ∧ t.Returning o ∧
      ∀ k, k.1 ∉ files → t.durable k = s.durable k := by
  induction ws generalizing s with
  | nil => exact syncs_complete s hfl
  | cons k ks ih =>
    -- The frame is pinned, so it is still there to be written.
    rcases (h.flush _ hfl).toWrite_frame k mem_cons_self with ⟨f, hf, hkey, _⟩
    have hfr : s.frame k = some f := hkey ▸ frame_of_mem h hf
    have hstep : s.step .flushWrite = some { s.writePage f with
        frames := s.frames.map (fun f => if f.key = k then { f with dirty := false } else f)
        flush := some ⟨ks, files, pinned, o⟩ } := by
      simp only [step, hfl, hfr]
    rcases ih _ (inv_step h hstep) rfl with ⟨ls, t, hrun, hret, hdur⟩
    exact ⟨.flushWrite :: ls, t, by simp only [runSteps, hstep, hrun], hret, hdur⟩

/-- Along every run whose flushes are covered when they start, a flush that returns `Ok` has made
    durable, for every page, the content it had when the flush was called or a later one. The
    condition is exact: in any state of any run in which no flush is under way and which is not
    covered, a flush called now can return `Ok` and leave some page's content not durable. -/
theorem flush_durable_of_covered (ls : List PoolLabel) (s : Pool)
    (hrun : runSteps step start ls = some s) :
    (Meets step Covered start ls → ∀ owed, s.Returning owed → ∀ k, owed k ≤ s.durable k) ∧
    (s.flush = none → ¬ Covered s .flushBegin →
      ∃ ms t, runSteps step s (.flushBegin :: ms) = some t ∧ t.Returning s.owed ∧
        ∃ k, t.durable k < s.owed k) := by
  have hinv : s.Inv := invariant_of_steps step Inv (fun _ _ _ => inv_step) start s ls inv_start hrun
  constructor
  · intro hcov _ hret k
    have hboth : s.Inv ∧ s.Syncing :=
      invariant_of_meets step Covered (fun s => s.Inv ∧ s.Syncing)
        (fun s l s' hs hc hstep =>
          ⟨inv_step hs.1 hstep, syncing_step hs.1 hs.2 hc hstep⟩)
        start s ls ⟨inv_start, nofun⟩ hcov hrun
    rcases hret with ⟨_, hfl⟩
    exact hboth.2 _ hfl k not_mem_nil
  · intro hnone hcov
    simp only [Covered] at hcov
    push Not at hcov
    rcases hcov with ⟨k, hlt, hclean⟩
    have hstep : s.step .flushBegin = some { s with
        flush := some ⟨s.dirtyFrames.map (fun f => f.key), filesOf s.dirtyFrames,
          s.dirtyFrames.map (fun f => f.key), s.owed⟩ } := by
      simp [step, hnone]
    rcases flush_completes _ (inv_step hinv hstep) rfl with
      ⟨ms, t, hms, hret, hdur⟩
    refine ⟨ms, t, by simp only [runSteps, hstep, hms], hret, k, ?_⟩
    have hoff : k.1 ∉ filesOf s.dirtyFrames := by
      intro hmem
      rcases (mem_filesOf _ _).mp hmem with ⟨f, hf, hfile⟩
      rcases (mem_dirtyFrames s f).mp hf with ⟨hin, hd⟩
      exact hclean f hin hd hfile
    rw [hdur k hoff, owed_of_clean (fun f hf hd hkey => hclean f hf hd (by rw [hkey]))]
    exact hlt

/-- Two pages of a file are modified. One is evicted, so its content is on disk and not durable, and
    the other is still dirty when a flush starts. -/
def evictedBeside : List PoolLabel :=
  [.load (0, 0), .modify (0, 0), .load (0, 1), .modify (0, 1), .evict (0, 0), .flushBegin,
    .flushWrite, .flushSync]

/-- The flush syncs the file for the dirty page, and the evicted one becomes durable with it. -/
theorem flush_durable_of_covered_evicted :
    ∃ s owed, runSteps step start evictedBeside = some s ∧ s.Returning owed ∧
      owed (0, 0) = 1 ∧ owed (0, 1) = 2 ∧ ∀ k, owed k ≤ s.durable k := by
  have hcov : Meets step Covered start evictedBeside := by
    refine ⟨trivial, trivial, trivial, trivial, trivial, ?_, trivial, trivial, trivial⟩
    intro k (hk : 0 < update (fun _ : PageKey => 0) (0, 0) 1 k)
    refine ⟨⟨(0, 1), 2, true⟩, mem_cons_self, rfl, ?_⟩
    -- only the evicted page is on disk and not durable
    by_cases hk0 : k = (0, 0)
    · rw [hk0]
    · rw [update_of_ne hk0] at hk
      exact absurd hk (Nat.lt_irrefl 0)
  exact ⟨_, _, rfl, ⟨_, rfl⟩, rfl, rfl,
    (flush_durable_of_covered evictedBeside _ rfl).1 hcov _ ⟨_, rfl⟩⟩

/-- A page is loaded, modified and evicted. A flush called then finds no dirty frame and returns
    `Ok` at once, and the page's content is lost to power loss. -/
theorem flush_ok_leaves_evicted_page :
    ∃ s owed, runSteps step start [.load (0, 0), .modify (0, 0), .evict (0, 0), .flushBegin]
        = some s ∧ s.Returning owed ∧ s.disk (0, 0) = 1 ∧ owed (0, 0) = 1 ∧
      s.durable (0, 0) = 0 :=
  ⟨_, _, rfl, ⟨_, rfl⟩, rfl, rfl, rfl⟩

end ChibiDb.Pool
