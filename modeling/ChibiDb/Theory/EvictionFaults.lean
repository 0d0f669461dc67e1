import ChibiDb.Theory.PoolTransparent
import ChibiDb.Data.Transition

/-!
# Accesses That End With a Disk Error

`frame_for` takes the victim out of the page table and out of the policy before
it writes a dirty one back. If that write fails the access returns the error,
and the frame is not put back: the page is left to its file, with whatever the
write left there. A failing read comes after the evictions and before the new
frame, so the pages that were evicted for it are in their files.

Pages are arbitrary, so one that a short write leaves unreadable is a page of
its own.

## Main definitions

* `DiskFault`: The operation that fails.
* `SeqPool.accessFault`: The pool an access leaves that ends with its error.
* `SeqPool.latest`: The content of a page, in its frame or in its file.
* `SeqPool.Saved`: Clean frames are in their files.
* `PoolOp`, `SeqPool.opStep`: What can be done with a pool, operations that fail included.
* `DiskFault.Harmless`: The failing write left the page as it was last changed.

## Theorems

* `SeqPool.latest_makeRoomFault`: The pages after the error.
* `SeqPool.saved_run`: In every pool that is reached clean frames are in their files.
* `SeqPool.accessFault_keeps_iff`: When no page is lost.
* `SeqPool.accessFault_loses_change`: A change that is lost.
-/

namespace ChibiDb

open List Function

variable {Page : Type} [Inhabited Page]

/-- A disk operation that fails: the write of a page, with what it leaves in the
    file, or the read of the page that is accessed. -/
inductive DiskFault (Page : Type) where
  | writePage (k : PageKey) (left : Page)
  | readPage

namespace SeqPool

/-- Evict until the disk operation fails. A victim whose write fails is out of
    the pool by then. `none`: there is no such operation. -/
def makeRoomFault (fault : DiskFault Page) : Nat → SeqPool Page → Option (SeqPool Page)
  | 0, _ => none
  | fuel + 1, s =>
    if s.frames.length < s.capacity then
      match fault with
      | .writePage _ _ => none
      | .readPage => some s
    else match s.replacer.chooseVictim s.pinsOf s.referenced with
      | none => none
      | some v => match s.find v.key with
        | none => none
        | some f => match fault with
          | .writePage k left =>
            if f.dirty ∧ v.key = k then
              some { s.dropFrame v f with disk := writeDisk s.disk f.key left }
            else makeRoomFault fault fuel (s.dropFrame v f)
          | .readPage => makeRoomFault fault fuel (s.dropFrame v f)

/-- The pool after an access that ends with the error of a disk operation. -/
def accessFault (s : SeqPool Page) (k : PageKey) (fault : DiskFault Page) :
    Option (SeqPool Page) :=
  match s.find k with
  | some _ => none
  | none => makeRoomFault fault (s.frames.length + 1) s

/-- The content a page was last given, wherever it is. -/
def latest (s : SeqPool Page) (k : PageKey) : Page :=
  match s.find k with
  | some f => f.data
  | none => readDisk s.disk k

/-- What is not dirty is in its file. -/
def Saved (s : SeqPool Page) : Prop :=
  ∀ k f, s.find k = some f → f.dirty = false → readDisk s.disk k = f.data

end SeqPool

/-- The pages after the error. -/
def DiskFault.leaves (pages : PageKey → Page) : DiskFault Page → PageKey → Page
  | .writePage victim left => update pages victim left
  | .readPage => pages

/-- A failing write left its page as it was last changed. -/
def DiskFault.Harmless (s : SeqPool Page) : DiskFault Page → Prop
  | .writePage victim left => left = s.latest victim
  | .readPage => True

namespace SeqPool

variable {s s' : SeqPool Page} {v : Victim} {f : CachedPage Page} {k : PageKey}
  {fault : DiskFault Page} {disk : Nat → List Page}

/-- A page is found after a frame was taken out if it was found before and is another one. -/
theorem find_drop (k : PageKey) :
    find { s.dropFrame v f with disk := disk } k =
      if k = v.key then none
      else (s.find k).map (fun g => { g with accessed := v.referenced g.key }) := by
  simp only [find, dropFrame, find?_map, find?_filter]
  split
  case isTrue hk =>
    rw [find?_eq_none.mpr, Option.map_none]
    intro g _
    simp [hk]
  case isFalse hk =>
    congr 1
    congr 1
    funext g
    by_cases hg : g.key = k
    · simp [hg, hk]
    · simp [hg]

/-- The page of the frame that is taken out is left to the file. -/
theorem latest_drop (hdisk : ∀ k, k ≠ v.key → readDisk disk k = readDisk s.disk k) :
    latest { s.dropFrame v f with disk := disk } = update s.latest v.key (readDisk disk v.key) := by
  funext k
  rw [latest, find_drop, update_apply]
  by_cases hk : k = v.key
  · rw [if_pos hk, if_pos hk, hk]
  rw [if_neg hk, if_neg hk, latest]
  cases s.find k with
  | none => exact hdisk k hk
  | some g => rfl

/-- An eviction that succeeds has left it in the file. -/
theorem dropFrame_keeps (hs : s.Saved) (hf : s.find v.key = some f) :
    (s.dropFrame v f).Saved ∧ (s.dropFrame v f).latest = s.latest := by
  have hdisk : ∀ k, readDisk (s.dropFrame v f).disk k =
      if k = v.key then f.data else readDisk s.disk k := by
    intro k
    rw [dropFrame]
    cases hd : f.dirty with
    | true => rw [if_pos rfl, readDisk_writeDisk, (find_some hf).2]
    | false =>
      rw [if_neg Bool.false_ne_true]
      split
      case isTrue hk => rw [hk, hs _ f hf hd]
      case isFalse => rfl
  constructor
  · intro k g hg hd
    rw [show find (s.dropFrame v f) k = _ from find_drop (f := f) k] at hg
    split at hg
    · cases hg
    case isFalse hk =>
      rcases Option.map_eq_some_iff.mp hg with ⟨g₀, hg₀, rfl⟩
      rw [hdisk, if_neg hk]
      exact hs k g₀ hg₀ hd
  · refine (latest_drop (f := f) (fun k hk => (hdisk k).trans (if_neg hk))).trans ?_
    rw [hdisk, if_pos rfl, update_eq_self_iff, latest, hf]

/-- The page whose write fails is left to its file, and the others stay. -/
theorem latest_makeRoomFault {fuel : Nat} (s : SeqPool Page) (hs : s.Saved)
    (h : makeRoomFault fault fuel s = some s') : s'.latest = fault.leaves s.latest := by
  induction fuel generalizing s with
  | zero => exact nomatch h
  | succ fuel ih =>
    unfold makeRoomFault at h
    split at h
    · cases fault with
      | writePage => exact nomatch h
      | readPage =>
        cases h
        rfl
    · split at h
      · exact nomatch h
      case h_2 v _ =>
        split at h
        · exact nomatch h
        case h_2 f hf =>
          have hkeeps := dropFrame_keeps hs hf
          rw [← hkeeps.2]
          cases fault with
          | readPage => exact ih _ hkeeps.1 h
          | writePage =>
            dsimp only at h
            split at h
            case isFalse => exact ih _ hkeeps.1 h
            rename_i hk
            cases h
            rw [latest_drop, readDisk_writeDisk, (find_some hf).2, if_pos rfl, hk.2, hkeeps.2]
            · rfl
            · intro k' hne
              rw [readDisk_writeDisk, (find_some hf).2, if_neg hne]

/-! ### The pools that are reached -/

/-- What can be done with a pool: a page is resolved to a frame, a closure ends, a page is added to
    a file, everything is flushed, or a page is resolved and a disk operation fails on the way. -/
inductive PoolOp (Page : Type) where
  | frameFor (k : PageKey)
  | endWrite (k : PageKey) (data : Page)
  | endRead (k : PageKey)
  | allocPage (file : Nat)
  | flushAll
  | fault (k : PageKey) (fault : DiskFault Page)

/-- One operation. -/
def opStep (s : SeqPool Page) : PoolOp Page → Option (SeqPool Page)
  | .frameFor k => (s.frameFor k).toOption
  | .endWrite k data => some (s.endWrite k data)
  | .endRead k => some (s.endRead k)
  | .allocPage file => some { s with disk := allocDisk s.disk file }
  | .flushAll => some s.flushed
  | .fault k fault => s.accessFault k fault

/-- There is one frame for each page, and what is not dirty is in its file. -/
structure Sound (s : SeqPool Page) : Prop where
  nodup : (s.frames.map (fun f => f.key)).Nodup
  saved : s.Saved

/-- A frame may be changed if it is dirty then, or keeps what it holds. -/
theorem sound_setPage {g : CachedPage Page → CachedPage Page} (hs : s.Sound)
    (hkey : ∀ f, (g f).key = f.key)
    (hg : ∀ f, (g f).dirty = false → f.dirty = false ∧ (g f).data = f.data) :
    (s.setPage k g).Sound := by
  refine ⟨?_, ?_⟩
  · rw [keys_setPage s k g hkey]
    exact hs.nodup
  · intro k' f hf hd
    rw [find_setPage hkey] at hf
    rcases Option.map_eq_some_iff.mp hf with ⟨f₀, hf₀, rfl⟩
    split at hd
    · next hk =>
      rw [if_pos hk, (hg f₀ hd).2]
      exact hs.saved k' f₀ hf₀ (hg f₀ hd).1
    · next hk =>
      rw [if_neg hk]
      exact hs.saved k' f₀ hf₀ hd

/-- An eviction keeps the pool sound. -/
theorem sound_dropFrame (hs : s.Sound) (hf : s.find v.key = some f) : (s.dropFrame v f).Sound := by
  refine ⟨?_, (dropFrame_keeps hs.saved hf).1⟩
  rw [dropFrame, List.map_map]
  exact hs.nodup.sublist (filter_sublist.map _)

/-- So does making room, and it brings no page into the pool. -/
theorem sound_makeRoom {fuel : Nat} (s : SeqPool Page) (hs : s.Sound) (hk : s.find k = none)
    (h : makeRoom fuel s = .ok s') : s'.Sound ∧ s'.find k = none := by
  induction fuel generalizing s with
  | zero =>
    cases h
    exact ⟨hs, hk⟩
  | succ fuel ih =>
    unfold makeRoom at h
    split at h
    · cases h
      exact ⟨hs, hk⟩
    split at h
    · cases h
    next v _ =>
    unfold evictPage at h
    cases hf : s.find v.key with
    | none =>
      rw [hf] at h
      cases h
    | some f =>
      rw [hf] at h
      refine ih (s.dropFrame v f) (sound_dropFrame hs hf) ?_ h
      rw [show (s.dropFrame v f).find k = _ from find_drop (f := f) k, hk]
      split <;> rfl

/-- A page is loaded as it is in its file. -/
theorem sound_loadPage (hs : s.Sound) (hk : s.find k = none) : (s.loadPage k).Sound := by
  refine ⟨nodup_cons.mpr ⟨find_none hk, hs.nodup⟩, ?_⟩
  intro k' f hf hd
  unfold find loadPage at hf
  rw [find?_cons] at hf
  split at hf
  · next hkey =>
    cases hf
    rw [← of_decide_eq_true hkey]
    rfl
  · exact hs.saved k' f hf hd

theorem sound_frameFor (hs : s.Sound) (h : s.frameFor k = .ok s') : s'.Sound := by
  unfold frameFor at h
  split at h
  · cases h
    have hset := sound_setPage (k := k) hs
      (g := fun f => { f with accessed := true, pins := f.pins + 1 }) (fun _ => rfl)
      (fun _ hd => ⟨hd, rfl⟩)
    exact ⟨hset.nodup, hset.saved⟩
  next hk =>
  split at h
  · cases h
  next t hroom =>
  cases h
  rcases sound_makeRoom s hs hk hroom with ⟨ht, hkt⟩
  exact sound_loadPage ht hkt

/-- After a flush every page of the pool is in its file. -/
theorem sound_flushed (hs : s.Sound) : s.flushed.Sound := by
  have hres : ∀ f ∈ s.frames, f.data = s.pageData f.key := by
    intro f hf
    have hfind : s.find f.key = some f := find_key_of_mem hs.nodup hf
    rw [pageData, hfind]
  refine ⟨?_, ?_⟩
  · rw [flushed, List.map_map]
    exact hs.nodup
  · intro k f hf _
    have hfind : s.flushed.find k = (s.find k).map (fun f => { f with dirty := false }) := by
      unfold find flushed
      rw [find?_map]
      rfl
    rw [hfind] at hf
    rcases Option.map_eq_some_iff.mp hf with ⟨f₀, hf₀, rfl⟩
    rw [flushed, readDisk_writeDirty hres]
    split
    · rw [pageData, hf₀]
    · next hclean =>
      -- a frame that was not written was clean
      refine hs.saved k f₀ hf₀ (Bool.eq_false_iff.mpr fun hd => hclean ?_)
      exact ⟨f₀, (find_some hf₀).1, hd, (find_some hf₀).2⟩

/-- An access that fails takes frames out and nothing else. -/
theorem sound_makeRoomFault {fuel : Nat} (s : SeqPool Page) (hs : s.Sound)
    (h : makeRoomFault fault fuel s = some s') : s'.Sound := by
  induction fuel generalizing s with
  | zero => cases h
  | succ fuel ih =>
    unfold makeRoomFault at h
    split at h
    · cases fault with
      | writePage => cases h
      | readPage =>
        cases h
        exact hs
    split at h
    · cases h
    next v _ =>
    split at h
    · cases h
    next f hf =>
    have hdrop := sound_dropFrame hs hf
    cases fault with
    | readPage => exact ih _ hdrop h
    | writePage key left =>
      dsimp only at h
      split at h
      · cases h
        refine ⟨hdrop.nodup, ?_⟩
        intro k g hg hd
        rw [find_drop] at hg
        split at hg
        · cases hg
        · next hk =>
          rcases Option.map_eq_some_iff.mp hg with ⟨g₀, hg₀, rfl⟩
          rw [readDisk_writeDisk, (find_some hf).2, if_neg hk]
          exact hs.saved k g₀ hg₀ hd
      · exact ih _ hdrop h

/-- Every operation keeps the pool sound, whether it succeeds or fails. -/
theorem sound_opStep {op : PoolOp Page} (hs : s.Sound) (h : s.opStep op = some s') : s'.Sound := by
  cases op with
  | frameFor k =>
    simp only [opStep] at h
    cases hr : s.frameFor k with
    | error =>
      rw [hr] at h
      cases h
    | ok t =>
      rw [hr] at h
      cases h
      exact sound_frameFor hs hr
  | endWrite k data =>
    cases h
    exact sound_setPage hs (fun _ => rfl) (fun _ hd => nomatch hd)
  | endRead k =>
    cases h
    exact sound_setPage hs (fun _ => rfl) (fun _ hd => ⟨hd, rfl⟩)
  | allocPage file =>
    cases h
    refine ⟨hs.nodup, fun k f hf hd => ?_⟩
    exact (readDisk_allocDisk s.disk file k).trans (hs.saved k f hf hd)
  | flushAll =>
    cases h
    exact sound_flushed hs
  | fault k fault =>
    simp only [opStep, accessFault] at h
    split at h
    · cases h
    · exact sound_makeRoomFault s hs h

/-- In every pool that operations lead to, from a new one on, what is not dirty is in its file. -/
theorem saved_run {policy : EvictionPolicy} {capacity : Nat} {ops : List (PoolOp Page)}
    (h : runSteps opStep (new policy capacity disk) ops = some s) : s.Saved := by
  have hstart : (new policy capacity disk).Sound := ⟨nodup_nil, fun _ _ hf => nomatch hf⟩
  exact (invariant_of_steps opStep Sound (fun _ _ _ => sound_opStep) _ s ops hstart h).saved

/-- After an access that ends with a disk error every page has the content it had, exactly if no
    write failed or the write that failed left its page as it was last changed. -/
theorem accessFault_keeps_iff (s s' : SeqPool Page) (hs : s.Saved) (k : PageKey)
    (fault : DiskFault Page) (h : s.accessFault k fault = some s') :
    (∀ k', s'.latest k' = s.latest k') ↔ fault.Harmless s := by
  unfold accessFault at h
  split at h
  · exact nomatch h
  rw [← funext_iff, latest_makeRoomFault s hs h]
  cases fault with
  | writePage => exact update_eq_self_iff
  | readPage => exact iff_of_true rfl trivial

/-- One frame, with a page that holds 3 in its file and was changed to 7. -/
def changedPool : SeqPool Nat :=
  ((new .clock 1 (fun _ => [3])).loadPage (0, 0)).endWrite (0, 0) 7

/-- Two pages that were read, one of which was changed to 7. -/
def twoPages : List (PoolOp Nat) :=
  [.frameFor (0, 0), .endWrite (0, 0) 7, .frameFor (0, 1), .endRead (0, 1)]

/-- The pool has a clean frame beside the dirty one. The write of the dirty page reports an error
    although it went through, and every page is as it was. -/
theorem accessFault_keeps_iff_written :
    ∃ s s' : SeqPool Nat, runSteps opStep (new .clock 2 (fun _ => [3, 4])) twoPages = some s ∧
      s.frames.map (fun f => (f.key, f.dirty)) = [((0, 1), false), ((0, 0), true)] ∧
      s.accessFault (0, 2) (.writePage (0, 0) 7) = some s' ∧ ∀ k, s'.latest k = s.latest k := by
  have hrun : ∃ s s' : SeqPool Nat,
      runSteps opStep (new .clock 2 (fun _ => [3, 4])) twoPages = some s ∧
      s.frames.map (fun f => (f.key, f.dirty)) = [((0, 1), false), ((0, 0), true)] ∧
      s.accessFault (0, 2) (.writePage (0, 0) 7) = some s' ∧ s.latest (0, 0) = 7 :=
    ⟨_, _, rfl, rfl, rfl, rfl⟩
  rcases hrun with ⟨s, s', hs, hframes, hfault, hlatest⟩
  refine ⟨s, s', hs, hframes, hfault, ?_⟩
  exact (accessFault_keeps_iff s s' (saved_run hs) (0, 2) _ hfault).mpr hlatest.symm

/-- The write fails before its first byte. The next read finds the old content. -/
theorem accessFault_loses_change :
    changedPool.latest (0, 0) = 7 ∧
      ((changedPool.accessFault (0, 1) (.writePage (0, 0) 3)).bind
        (fun s => (s.frameFor (0, 0)).toOption)).map (fun s => s.pageData (0, 0)) = some 3 := by
  decide

end SeqPool

end ChibiDb
