import ChibiDb.Core.SequentialPool
import ChibiDb.Data.Transition

/-!
# The Buffer Pool Is Transparent

A series of operations on the pool returns what it would return if every page
were kept in one map. `PageMap` is that map, together with the pages changed
since the last flush; `PoolProg.onMap` runs a series on it. `PoolProg.Nests`
says when a series keeps to the rules: at most so many closures are open at a
time, all on different pages, and `flush_all`, which latches every page changed
since the last one, is not called inside a closure on one of them.

`Sim` relates the pool to the map: a resident page has its content in its frame,
a clean or absent one in its file. A frame is pinned exactly while a closure has
it open, so as long as fewer closures are open than there are frames the policy
finds a victim. Evicting and loading keep the relation, whatever the policy
chooses.

## Main definitions

* `PageMap`, `PoolProg.onMap`: Running a series on a map.
* `PoolProg.Nests`: The rules.
* `Sim`: Pool and map hold the same pages.

## Theorems

* `readDisk_writeDisk`, `readDisk_allocDisk`: What writing and appending change.
* `makeRoom_sim`: Room is found, and nothing is lost.
* `frameFor_sim`: A page is resolved to its content.
* `flushAll_sim`: A flush succeeds, and the files hold the map.
* `pool_transparent`: Whole series.
-/

namespace ChibiDb

open List Option

variable {Page V : Type}

/-! ### Frames -/

variable {k : PageKey} {s : SeqPool Page} {latched : List PageKey}

namespace SeqPool

variable {f : CachedPage Page}

theorem find_some (h : s.find k = some f) : f ∈ s.frames ∧ f.key = k := mem_of_find_key h

theorem find_none (h : s.find k = none) : k ∉ s.frames.map (fun f => f.key) :=
  not_mem_of_find_key h

theorem find_of_mem (h : k ∈ s.frames.map (fun f => f.key)) : ∃ f, s.find k = some f := by
  cases hf : s.find k with
  | none => exact absurd h (find_none hf)
  | some f => exact ⟨f, rfl⟩

/-- Changing a frame's other fields leaves the page table as it is. -/
theorem keys_setPage (s : SeqPool Page) (k : PageKey) (g : CachedPage Page → CachedPage Page)
    (hg : ∀ f, (g f).key = f.key) :
    (s.setPage k g).frames.map (fun f => f.key) = s.frames.map (fun f => f.key) := by
  rw [setPage, List.map_map]
  apply map_congr_left
  intro f _
  simp only [Function.comp]
  split
  · exact hg f
  · rfl

theorem mem_setPage {g : CachedPage Page → CachedPage Page} (h : f ∈ (s.setPage k g).frames) :
    (∃ f₀ ∈ s.frames, f₀.key = k ∧ f = g f₀) ∨ (f ∈ s.frames ∧ f.key ≠ k) := by
  rcases mem_map.mp h with ⟨f₀, hf₀, heq⟩
  by_cases hk : f₀.key = k
  · rw [if_pos hk] at heq
    exact .inl ⟨f₀, hf₀, hk, heq.symm⟩
  · rw [if_neg hk] at heq
    rw [← heq]
    exact .inr ⟨hf₀, hk⟩

/-- The frame of a page after the frames of a page were changed. -/
theorem find_setPage {g : CachedPage Page → CachedPage Page} (hg : ∀ f, (g f).key = f.key)
    (s : SeqPool Page) (k k' : PageKey) :
    (s.setPage k g).find k' = (s.find k').map (fun f => if f.key = k then g f else f) := by
  unfold SeqPool.find setPage
  rw [find?_map]
  congr 2
  funext f
  rw [Function.comp_apply]
  split
  · rw [hg]
  · rfl

end SeqPool

variable [Inhabited Page]

/-- All pages in one map, and those changed since the last flush. -/
structure PageMap (Page : Type) where
  pages : PageKey → Page
  changed : List PageKey

/-- The map that files hold. -/
def PageMap.ofDisk (disk : Nat → List Page) : PageMap Page := ⟨readDisk disk, []⟩

/-- Change a page. -/
def PageMap.put (m : PageMap Page) (k : PageKey) (data : Page) : PageMap Page :=
  ⟨Function.update m.pages k data, k :: m.changed⟩

/-- Run a series of operations on the map. -/
def PoolProg.onMap : PoolProg Page V → PageMap Page → V × Page × PageMap Page
  | .ret v data, m => (v, data, m)
  | .withPage k body next, m =>
    let r := (body (m.pages k)).onMap m
    (next r.1).onMap (r.2.2.put k r.2.1)
  | .readPage k body next, m =>
    let r := (body (m.pages k)).onMap m
    (next r.1).onMap r.2.2
  | .allocPage _ next, m => next.onMap m
  | .flushAll next, m => next.onMap { m with changed := [] }

/-- At most `c` closures are open at a time, on different pages, and no closure
    flushes a page it has open. -/
def PoolProg.Nests (c : Nat) : PoolProg Page V → List PageKey → PageMap Page → Prop
  | .ret _ _, _, _ => True
  | .withPage k body next, latched, m =>
    latched.length < c ∧ k ∉ latched ∧ (body (m.pages k)).Nests c (k :: latched) m ∧
      (next ((body (m.pages k)).onMap m).1).Nests c latched
        (((body (m.pages k)).onMap m).2.2.put k ((body (m.pages k)).onMap m).2.1)
  | .readPage k body next, latched, m =>
    latched.length < c ∧ k ∉ latched ∧ (body (m.pages k)).Nests c (k :: latched) m ∧
      (next ((body (m.pages k)).onMap m).1).Nests c latched ((body (m.pages k)).onMap m).2.2
  | .allocPage _ next, latched, m => next.Nests c latched m
  | .flushAll next, latched, m =>
    (∀ k ∈ latched, k ∉ m.changed) ∧ next.Nests c latched { m with changed := [] }

/-- The pool and the map hold the same pages, and the open pages are those with a pin. -/
structure Sim (s : SeqPool Page) (latched : List PageKey) (m : PageMap Page) : Prop where
  nodup : (s.frames.map (fun f => f.key)).Nodup
  registered : s.replacer.keys.Perm (s.frames.map (fun f => f.key))
  room : s.frames.length ≤ s.capacity
  distinct : latched.Nodup
  opened : ∀ k ∈ latched, k ∈ s.frames.map (fun f => f.key)
  pins : ∀ f ∈ s.frames, f.pins = if f.key ∈ latched then 1 else 0
  resident : ∀ f ∈ s.frames, f.data = m.pages f.key
  clean : ∀ f ∈ s.frames, f.dirty = false → readDisk s.disk f.key = m.pages f.key
  absent : ∀ k, k ∉ s.frames.map (fun f => f.key) → readDisk s.disk k = m.pages k
  dirty : ∀ f ∈ s.frames, f.dirty = true → f.key ∈ m.changed

/-! ### Files -/

theorem getElem?_writeFile (pages : List Page) (no i : Nat) (data : Page) :
    ((writeFile pages no data)[i]?).getD default =
      if i = no then data else (pages[i]?).getD default := by
  unfold writeFile
  by_cases hlt : no < pages.length
  · rw [if_pos hlt, getElem?_set]
    by_cases hi : no = i
    · rw [if_pos hi, if_pos hlt, if_pos hi.symm]
      rfl
    · rw [if_neg hi, if_neg (fun h => hi h.symm)]
  · rw [if_neg hlt, append_assoc]
    by_cases hi : i < pages.length
    · rw [getElem?_append_left hi, if_neg (by omega)]
    -- behind the old end: the gap reads as zeros, with or without it
    have hnone : pages[i]? = none := getElem?_eq_none (by omega)
    rw [getElem?_append_right (by omega), hnone]
    by_cases hgap : i < no
    · rw [getElem?_append_left (by rw [length_replicate]; omega),
        getElem?_replicate, if_pos (by omega), if_neg (by omega)]
      rfl
    rw [getElem?_append_right (by rw [length_replicate]; omega), length_replicate]
    by_cases heq : i = no
    · rw [if_pos heq, heq, Nat.sub_self]
      rfl
    · rw [if_neg heq, getElem?_eq_none (by rw [length_singleton]; omega)]

/-- Writing a page changes that page only. -/
theorem readDisk_writeDisk (disk : Nat → List Page) (k k' : PageKey) (data : Page) :
    readDisk (writeDisk disk k data) k' = if k' = k then data else readDisk disk k' := by
  unfold readDisk writeDisk
  rw [Function.update_apply]
  by_cases hfile : k'.1 = k.1
  · rw [if_pos hfile, getElem?_writeFile, hfile]
    by_cases hno : k'.2 = k.2
    · rw [if_pos hno, if_pos (Prod.ext hfile hno)]
    · rw [if_neg hno, if_neg (fun h => hno (congrArg Prod.snd h))]
  · rw [if_neg hfile, if_neg (fun h => hfile (congrArg Prod.fst h))]

/-- Appending a page of zeros changes nothing that can be read. -/
theorem readDisk_allocDisk (disk : Nat → List Page) (file : Nat) (k : PageKey) :
    readDisk (allocDisk disk file) k = readDisk disk k := by
  unfold readDisk allocDisk
  rw [Function.update_apply]
  by_cases hfile : k.1 = file
  · rw [if_pos hfile, hfile]
    by_cases hi : k.2 < (disk file).length
    · rw [getElem?_append_left hi]
    -- the new page and what is behind it read as zeros, as before
    have hnone : (disk file)[k.2]? = none := getElem?_eq_none (by omega)
    rw [getElem?_append_right (by omega), hnone]
    by_cases heq : k.2 = (disk file).length
    · rw [heq, Nat.sub_self]
      rfl
    · rw [getElem?_eq_none (by rw [length_singleton]; omega)]
  · rw [if_neg hfile]

open SeqPool

variable {m : PageMap Page}

/-- The pinned frames are the open pages. -/
theorem Sim.pinsOf (h : Sim s latched m) (hk : k ∈ s.frames.map (fun f => f.key)) :
    s.pinsOf k = if k ∈ latched then 1 else 0 := by
  rcases find_of_mem hk with ⟨f, hf⟩
  rcases find_some hf with ⟨hmem, hkey⟩
  rw [SeqPool.pinsOf, hf, ← hkey]
  exact h.pins f hmem

/-- A full pool with fewer open pages than frames has an unpinned one. -/
theorem Sim.exists_unpinned (h : Sim s latched m) (hopen : latched.length < s.frames.length) :
    ∃ k ∈ s.replacer.keys, s.pinsOf k = 0 := by
  by_contra hall
  have hsub : ∀ k ∈ s.frames.map (fun f => f.key), k ∈ latched := by
    intro k hk
    by_contra hno
    apply hall
    refine ⟨k, h.registered.mem_iff.mpr hk, ?_⟩
    rw [h.pinsOf hk, if_neg hno]
  have hle := (subperm_of_subset h.nodup hsub).length_le
  rw [length_map] at hle
  omega

/-! ### Making room -/

theorem evictPage_sim (h : Sim s latched m) {v : Victim} (hpins : s.pinsOf v.key = 0)
    (hperm : s.replacer.keys.Perm (v.key :: v.replacer.keys)) :
    ∃ s', s.evictPage v = .ok s' ∧ Sim s' latched m ∧ s'.capacity = s.capacity ∧
      s'.frames.length + 1 = s.frames.length ∧
      ∀ k, k ∈ s'.frames.map (fun f => f.key) → k ∈ s.frames.map (fun f => f.key) := by
  have hkeys := hperm.symm.trans h.registered
  have hres : v.key ∈ s.frames.map (fun f => f.key) := hkeys.mem_iff.mp mem_cons_self
  rcases find_of_mem hres with ⟨f, hf⟩
  rcases find_some hf with ⟨hfmem, hfkey⟩
  have hnotlatched : v.key ∉ latched := by
    intro hmem
    rw [h.pinsOf hres, if_pos hmem] at hpins
    exact absurd hpins Nat.one_ne_zero
  -- the keys that stay
  have hmap : (s.dropFrame v f).frames.map (fun f => f.key) =
      (s.frames.map (fun f => f.key)).filter (fun k => k ≠ v.key) := by
    rw [dropFrame, List.map_map, List.filter_map]
    rfl
  have hstay : ((s.frames.map (fun f => f.key)).filter (fun k => k ≠ v.key)).Perm
      v.replacer.keys := by
    have hno : v.key ∉ v.replacer.keys := (nodup_cons.mp (hkeys.nodup_iff.mpr h.nodup)).1
    have hfil := hkeys.symm.filter (fun k => decide (k ≠ v.key))
    rw [filter_cons_of_neg (by simp)] at hfil
    have hself : v.replacer.keys.filter (fun k => decide (k ≠ v.key)) = v.replacer.keys := by
      rw [filter_eq_self]
      intro k hk
      apply decide_eq_true
      intro heq
      rw [heq] at hk
      exact hno hk
    rw [hself] at hfil
    exact hfil
  have hframe : ∀ g ∈ (s.dropFrame v f).frames, ∃ g₀ ∈ s.frames, g₀.key ≠ v.key ∧
      g.key = g₀.key ∧ g.data = g₀.data ∧ g.dirty = g₀.dirty ∧ g.pins = g₀.pins := by
    intro g hg
    rcases mem_map.mp hg with ⟨g₀, hg₀, heq⟩
    rcases mem_filter.mp hg₀ with ⟨hmem, hne⟩
    rw [← heq]
    exact ⟨g₀, hmem, of_decide_eq_true hne, rfl, rfl, rfl, rfl⟩
  -- the page that leaves is in its file, and no other page of a file changes
  have hdisk : ∀ k, readDisk (s.dropFrame v f).disk k =
      if k = v.key then m.pages k else readDisk s.disk k := by
    intro k
    rw [dropFrame]
    cases hd : f.dirty with
    | true =>
      rw [if_pos rfl, readDisk_writeDisk, hfkey]
      by_cases hk : k = v.key
      · rw [if_pos hk, if_pos hk, h.resident f hfmem, hfkey, hk]
      · rw [if_neg hk, if_neg hk]
    | false =>
      rw [if_neg Bool.false_ne_true]
      by_cases hk : k = v.key
      · rw [if_pos hk, hk, ← hfkey]
        exact h.clean f hfmem hd
      · rw [if_neg hk]
  have hlen : (s.dropFrame v f).frames.length + 1 = s.frames.length := by
    have hleft := hstay.length_eq
    have hright := hkeys.length_eq
    rw [← hmap, length_map] at hleft
    rw [length_cons, length_map] at hright
    omega
  refine ⟨s.dropFrame v f, by rw [evictPage, hf], ?_, rfl, hlen, ?_⟩
  · refine ⟨?_, ?_, ?_, h.distinct, ?_, ?_, ?_, ?_, ?_, ?_⟩
    · rw [hmap]
      exact h.nodup.filter _
    · rw [hmap]
      exact hstay.symm
    · have hroom := h.room
      have hcap : (s.dropFrame v f).capacity = s.capacity := rfl
      omega
    · intro k hk
      rw [hmap, mem_filter]
      refine ⟨h.opened k hk, decide_eq_true ?_⟩
      intro heq
      rw [heq] at hk
      exact hnotlatched hk
    · intro g hg
      rcases hframe g hg with ⟨g₀, hg₀, _, hkey, _, _, hp⟩
      rw [hp, hkey]
      exact h.pins g₀ hg₀
    · intro g hg
      rcases hframe g hg with ⟨g₀, hg₀, _, hkey, hdata, _, _⟩
      rw [hdata, hkey]
      exact h.resident g₀ hg₀
    · intro g hg hclean
      rcases hframe g hg with ⟨g₀, hg₀, hne, hkey, _, hd, _⟩
      rw [hdisk, hkey, if_neg hne]
      exact h.clean g₀ hg₀ (hd ▸ hclean)
    · intro k hk
      rw [hmap] at hk
      rw [hdisk]
      by_cases heq : k = v.key
      · rw [if_pos heq]
      rw [if_neg heq]
      apply h.absent
      intro hmem
      exact hk (mem_filter.mpr ⟨hmem, decide_eq_true heq⟩)
    · intro g hg hd
      rcases hframe g hg with ⟨g₀, hg₀, _, hkey, _, hd₀, _⟩
      rw [hkey]
      exact h.dirty g₀ hg₀ (hd₀ ▸ hd)
  · intro _ hk
    rw [hmap] at hk
    exact (mem_filter.mp hk).1

/-- Room is found while fewer pages are open than fit, and nothing is lost. -/
theorem makeRoom_sim {fuel : Nat} (s : SeqPool Page) (h : Sim s latched m)
    (hopen : latched.length < s.capacity) (hfuel : s.frames.length < fuel) :
    ∃ s', makeRoom fuel s = .ok s' ∧ Sim s' latched m ∧ s'.capacity = s.capacity ∧
      s'.frames.length < s'.capacity ∧
      ∀ k, k ∈ s'.frames.map (fun f => f.key) → k ∈ s.frames.map (fun f => f.key) := by
  induction fuel generalizing s with
  | zero => exact absurd hfuel (Nat.not_lt_zero _)
  | succ _ ih =>
    rw [makeRoom]
    split
    case isTrue hroom => exact ⟨s, rfl, h, rfl, hroom, fun k hk => hk⟩
    rename_i hfull
    rcases s.replacer.chooseVictim_spec s.referenced
      (h.exists_unpinned (by omega)) with ⟨v, hv, hpins, hperm⟩
    rcases evictPage_sim h hpins hperm with ⟨s₁, hs₁, h₁, hcap, _, hsub⟩
    rcases ih s₁ h₁ (by omega) (by omega) with ⟨s', hs', h', hcap', hroom, hsub'⟩
    refine ⟨s', ?_, h', hcap'.trans hcap, hroom, fun k hk => hsub k (hsub' k hk)⟩
    simp only [hv, hs₁]
    exact hs'

/-! ### Opening and closing pages -/

theorem loadPage_sim (h : Sim s latched m) (hroom : s.frames.length < s.capacity)
    (hk : k ∉ s.frames.map (fun f => f.key)) : Sim (s.loadPage k) (k :: latched) m := by
  have hnew : k ∉ latched := fun hmem => hk (h.opened k hmem)
  have hne : ∀ f ∈ s.frames, f.key ≠ k := by
    intro f hf heq
    exact hk (mem_map.mpr ⟨f, hf, heq⟩)
  refine ⟨?_, ?_, ?_, ?_, ?_, ?_, ?_, ?_, ?_, ?_⟩
  · exact nodup_cons.mpr ⟨hk, h.nodup⟩
  · simp only [loadPage, Replacer.keys_push, map_cons]
    exact (perm_append_singleton k _).trans (h.registered.cons k)
  · exact hroom
  · exact nodup_cons.mpr ⟨hnew, h.distinct⟩
  · exact forall_mem_cons.mpr ⟨mem_cons_self, fun k' hk' => mem_cons_of_mem _ (h.opened k' hk')⟩
  · intro f hf
    rcases mem_cons.mp hf with rfl | hf
    · rw [if_pos mem_cons_self]
    · rw [h.pins f hf]
      simp [hne f hf]
  · exact forall_mem_cons.mpr ⟨h.absent k hk, h.resident⟩
  · exact forall_mem_cons.mpr ⟨fun _ => h.absent k hk, h.clean⟩
  · intro _ hk'
    apply h.absent
    intro hmem
    exact hk' (mem_cons_of_mem _ hmem)
  · exact forall_mem_cons.mpr ⟨fun hd => absurd hd Bool.false_ne_true, h.dirty⟩

/-- One frame changes and keeps its key. The other pages stay as they are. -/
theorem setPage_sim {latched' : List PageKey} {m' : PageMap Page} {r : Replacer}
    {g : CachedPage Page → CachedPage Page} (h : Sim s latched m) (hg : ∀ f, (g f).key = f.key)
    (hk : k ∈ s.frames.map (fun f => f.key)) (hr : r.keys.Perm s.replacer.keys)
    (hdistinct : latched'.Nodup) (hlatched : ∀ k' ≠ k, k' ∈ latched' ↔ k' ∈ latched)
    (hpages : ∀ k' ≠ k, m'.pages k' = m.pages k') (hchanged : ∀ k' ∈ m.changed, k' ∈ m'.changed)
    (hself : ∀ f ∈ s.frames, f.key = k → (g f).pins = (if k ∈ latched' then 1 else 0) ∧
      (g f).data = m'.pages k ∧ ((g f).dirty = false → readDisk s.disk k = m'.pages k) ∧
      ((g f).dirty = true → k ∈ m'.changed)) :
    Sim { s.setPage k g with replacer := r } latched' m' := by
  have hkeys := keys_setPage s k g hg
  refine ⟨?_, ?_, ?_, hdistinct, ?_, ?_, ?_, ?_, ?_, ?_⟩
  · rw [hkeys]
    exact h.nodup
  · rw [hkeys]
    exact hr.trans h.registered
  · simp only [setPage, length_map]
    exact h.room
  · intro k' hk'
    rw [hkeys]
    by_cases heq : k' = k
    · exact heq ▸ hk
    · exact h.opened k' ((hlatched k' heq).mp hk')
  · intro f hf
    rcases mem_setPage hf with ⟨f₀, hf₀, hkey, rfl⟩ | ⟨hf₀, hkey⟩
    · rw [hg, hkey]
      exact (hself f₀ hf₀ hkey).1
    · simp only [h.pins f hf₀, hlatched _ hkey]
  · intro f hf
    rcases mem_setPage hf with ⟨f₀, hf₀, hkey, rfl⟩ | ⟨hf₀, hkey⟩
    · rw [hg, hkey]
      exact (hself f₀ hf₀ hkey).2.1
    · rw [hpages _ hkey]
      exact h.resident f hf₀
  · intro f hf hd
    rcases mem_setPage hf with ⟨f₀, hf₀, hkey, rfl⟩ | ⟨hf₀, hkey⟩
    · rw [hg, hkey]
      exact (hself f₀ hf₀ hkey).2.2.1 hd
    · rw [hpages _ hkey]
      exact h.clean f hf₀ hd
  · intro k' hk'
    rw [hkeys] at hk'
    rw [hpages k' (fun heq => hk' (heq ▸ hk))]
    exact h.absent k' hk'
  · intro f hf hd
    rcases mem_setPage hf with ⟨f₀, hf₀, hkey, rfl⟩ | ⟨hf₀, _⟩
    · rw [hg, hkey]
      exact (hself f₀ hf₀ hkey).2.2.2 hd
    · exact hchanged _ (h.dirty f hf₀ hd)

theorem hit_sim (h : Sim s latched m) (hk : k ∈ s.frames.map (fun f => f.key))
    (hnew : k ∉ latched) :
    Sim { s.setPage k (fun f => { f with accessed := true, pins := f.pins + 1 }) with
      replacer := s.replacer.recordAccess k } (k :: latched) m := by
  refine setPage_sim h (fun _ => rfl) hk (Replacer.keys_recordAccess k s.replacer)
    (nodup_cons.mpr ⟨hnew, h.distinct⟩) ?_ (fun _ _ => rfl) (fun _ hm => hm) ?_
  · intro k' hne
    rw [mem_cons, or_iff_right hne]
  intro f hf hkey
  have hp := h.pins f hf
  rw [hkey, if_neg hnew] at hp
  rw [if_pos mem_cons_self, hp, ← hkey]
  exact ⟨rfl, h.resident f hf, h.clean f hf, h.dirty f hf⟩

/-- An open page is in its frame. -/
theorem Sim.pageData (h : Sim s latched m) (hk : k ∈ latched) : s.pageData k = m.pages k := by
  rcases find_of_mem (h.opened k hk) with ⟨f, hf⟩
  rcases find_some hf with ⟨hmem, hkey⟩
  rw [SeqPool.pageData, hf, ← hkey]
  exact h.resident f hmem

/-- A page that is not open is resolved, whatever has to be evicted. -/
theorem frameFor_sim (h : Sim s latched m) (hopen : latched.length < s.capacity)
    (hnew : k ∉ latched) :
    ∃ s', s.frameFor k = .ok s' ∧ Sim s' (k :: latched) m ∧ s'.capacity = s.capacity := by
  unfold frameFor
  cases hf : s.find k with
  | some f =>
    rcases find_some hf with ⟨hmem, hkey⟩
    exact ⟨_, rfl, hit_sim h (mem_map.mpr ⟨f, hmem, hkey⟩) hnew, rfl⟩
  | none =>
    rcases makeRoom_sim s h hopen (Nat.lt_succ_self _)
      with ⟨s₁, hs₁, h₁, hcap, hroom, hsub⟩
    simp only [hs₁]
    exact ⟨_, rfl, loadPage_sim h₁ hroom (fun hmem => find_none hf (hsub k hmem)), hcap⟩

/-- A closure ends: its page gets the content it left and loses its pin. -/
theorem endWrite_sim (h : Sim s (k :: latched) m) (data : Page) :
    Sim (s.endWrite k data) latched (m.put k data) := by
  have hnew := nodup_cons.mp h.distinct
  refine setPage_sim h (fun _ => rfl) (h.opened k mem_cons_self) (.refl _) hnew.2 ?_ ?_
    (fun _ => mem_cons_of_mem k) ?_
  · intro k' hne
    rw [mem_cons, or_iff_right hne]
  · intro k' hne
    exact Function.update_of_ne hne ..
  intro f hf hkey
  have hp := h.pins f hf
  rw [hkey, if_pos mem_cons_self] at hp
  rw [if_neg hnew.1, hp]
  exact ⟨rfl, (Function.update_self k data m.pages).symm, nofun, fun _ => mem_cons_self⟩

theorem endRead_sim (h : Sim s (k :: latched) m) : Sim (s.endRead k) latched m := by
  have hnew := nodup_cons.mp h.distinct
  refine setPage_sim h (fun _ => rfl) (h.opened k mem_cons_self) (.refl _) hnew.2 ?_
    (fun _ _ => rfl) (fun _ hm => hm) ?_
  · intro k' hne
    rw [mem_cons, or_iff_right hne]
  intro f hf hkey
  have hp := h.pins f hf
  rw [hkey, if_pos mem_cons_self] at hp
  rw [if_neg hnew.1, hp, ← hkey]
  exact ⟨rfl, h.resident f hf, h.clean f hf, h.dirty f hf⟩

/-! ### Flushing -/

/-- Writing frames that hold the map's pages leaves a page of the file at the map's, or as it
    was. -/
theorem readDisk_writeDirty {frames : List (CachedPage Page)} {pages : PageKey → Page}
    (hres : ∀ f ∈ frames, f.data = pages f.key) (disk : Nat → List Page) (k : PageKey) :
    readDisk (writeDirty disk frames) k =
      if ∃ f ∈ frames, f.dirty = true ∧ f.key = k then pages k else readDisk disk k := by
  induction frames generalizing disk with
  | nil => simp only [writeDirty, not_mem_nil, false_and, exists_false, if_false]
  | cons f frames ih =>
    have hrest := ih (forall_mem_cons.mp hres).2
    rw [writeDirty]
    cases hd : f.dirty with
    | false =>
      rw [if_neg Bool.false_ne_true, hrest]
      simp [hd]
    | true =>
      rw [if_pos rfl, hrest, readDisk_writeDisk]
      simp only [mem_cons, exists_eq_or_imp, hd, true_and]
      by_cases hlater : ∃ g ∈ frames, g.dirty = true ∧ g.key = k
      · rw [if_pos hlater, if_pos (.inr hlater)]
      rw [if_neg hlater]
      by_cases hk : f.key = k
      · rw [if_pos hk.symm, if_pos (.inl hk), hres f mem_cons_self, hk]
      · rw [if_neg (fun h => hk h.symm), if_neg (fun h => h.elim hk hlater)]

/-- A flush that latches no open page succeeds, and the files hold the map. -/
theorem flushAll_sim (h : Sim s latched m) (hfree : ∀ k ∈ latched, k ∉ m.changed) :
    ∃ s', s.flushAll latched = .ok s' ∧ Sim s' latched { m with changed := [] } ∧
      s'.capacity = s.capacity ∧ ∀ k, readDisk s'.disk k = m.pages k := by
  have hno : ¬ ∃ f ∈ s.frames, f.dirty = true ∧ f.key ∈ latched := by
    intro hex
    rcases hex with ⟨f, hf, hd, hk⟩
    exact hfree f.key hk (h.dirty f hf hd)
  have hkeys : s.flushed.frames.map (fun f => f.key) = s.frames.map (fun f => f.key) := by
    rw [flushed, List.map_map]
    rfl
  have hall : ∀ k, readDisk s.flushed.disk k = m.pages k := by
    intro k
    rw [flushed, readDisk_writeDirty h.resident]
    split
    · rfl
    case isFalse hclean =>
      by_cases hk : k ∈ s.frames.map (fun f => f.key)
      · rcases mem_map.mp hk with ⟨f, hf, hkey⟩
        rw [← hkey]
        apply h.clean f hf
        rw [Bool.eq_false_iff]
        intro hd
        exact hclean ⟨f, hf, hd, hkey⟩
      · exact h.absent k hk
  refine ⟨s.flushed, by rw [SeqPool.flushAll, if_neg hno], ?_, rfl, hall⟩
  refine ⟨?_, ?_, ?_, h.distinct, ?_, ?_, ?_, ?_, ?_, ?_⟩
  · rw [hkeys]
    exact h.nodup
  · rw [hkeys]
    exact h.registered
  · rw [flushed, length_map]
    exact h.room
  · rw [hkeys]
    exact h.opened
  · intro f hf
    rcases mem_map.mp hf with ⟨f₀, hf₀, rfl⟩
    exact h.pins f₀ hf₀
  · intro f hf
    rcases mem_map.mp hf with ⟨f₀, hf₀, rfl⟩
    exact h.resident f₀ hf₀
  · intro f _ _
    exact hall f.key
  · intro k _
    exact hall k
  · intro _ hf hd
    rcases mem_map.mp hf with ⟨_, _, rfl⟩
    cases hd

theorem allocDisk_sim (h : Sim s latched m) (file : Nat) :
    Sim { s with disk := allocDisk s.disk file } latched m :=
  { h with
    clean := fun f hf hd => (readDisk_allocDisk s.disk file f.key).trans (h.clean f hf hd)
    absent := fun k hk => (readDisk_allocDisk s.disk file k).trans (h.absent k hk) }

/-! ### Series of operations -/

/-- By induction on the series: what a closure does is a series of its own. -/
theorem run_sim {prog : PoolProg Page V} (latched : List PageKey) (s : SeqPool Page)
    (m : PageMap Page) (h : Sim s latched m) (hn : prog.Nests s.capacity latched m) :
    ∃ s', prog.run latched s = .ok ((prog.onMap m).1, (prog.onMap m).2.1, s') ∧
      Sim s' latched (prog.onMap m).2.2 ∧ s'.capacity = s.capacity := by
  induction prog generalizing latched s m with
  | ret => exact ⟨s, rfl, h, rfl⟩
  | withPage k _ _ ihbody ihnext =>
    rcases hn with ⟨hopen, hnew, hbody, hnext⟩
    rcases frameFor_sim h hopen hnew with ⟨s₁, hs₁, h₁, hcap₁⟩
    have hdata := h₁.pageData mem_cons_self
    rw [← hcap₁] at hbody hnext
    rcases ihbody (m.pages k) (k :: latched) s₁ m h₁ hbody with ⟨s₂, hs₂, h₂, hcap₂⟩
    rw [← hcap₂] at hnext
    rcases ihnext _ latched (s₂.endWrite k _) _ (endWrite_sim h₂ _) hnext
      with ⟨s₃, hs₃, h₃, hcap₃⟩
    refine ⟨s₃, ?_, h₃, hcap₃.trans (hcap₂.trans hcap₁)⟩
    simp only [PoolProg.run, hs₁, if_neg hnew, hdata, hs₂]
    exact hs₃
  | readPage k _ _ ihbody ihnext =>
    rcases hn with ⟨hopen, hnew, hbody, hnext⟩
    rcases frameFor_sim h hopen hnew with ⟨s₁, hs₁, h₁, hcap₁⟩
    have hdata := h₁.pageData mem_cons_self
    rw [← hcap₁] at hbody hnext
    rcases ihbody (m.pages k) (k :: latched) s₁ m h₁ hbody with ⟨s₂, hs₂, h₂, hcap₂⟩
    rw [← hcap₂] at hnext
    rcases ihnext _ latched (s₂.endRead k) _ (endRead_sim h₂) hnext
      with ⟨s₃, hs₃, h₃, hcap₃⟩
    refine ⟨s₃, ?_, h₃, hcap₃.trans (hcap₂.trans hcap₁)⟩
    simp only [PoolProg.run, hs₁, if_neg hnew, hdata, hs₂]
    exact hs₃
  | allocPage file _ ih =>
    exact ih latched { s with disk := allocDisk s.disk file } m (allocDisk_sim h file) hn
  | flushAll _ ih =>
    rcases hn with ⟨hfree, hnext⟩
    rcases flushAll_sim h hfree with ⟨s₁, hs₁, h₁, hcap₁, _⟩
    rw [← hcap₁] at hnext
    rcases ih latched s₁ _ h₁ hnext with ⟨s₂, hs₂, h₂, hcap₂⟩
    refine ⟨s₂, ?_, h₂, hcap₂.trans hcap₁⟩
    simp only [PoolProg.run, hs₁]
    exact hs₂

theorem sim_new (policy : EvictionPolicy) (capacity : Nat) (disk : Nat → List Page) :
    Sim (SeqPool.new policy capacity disk) [] (PageMap.ofDisk disk) where
  nodup := nodup_nil
  registered := by
    rw [SeqPool.new, Replacer.keys_fromPolicy]
    exact List.Perm.refl _
  room := Nat.zero_le _
  distinct := nodup_nil
  opened := nofun
  pins := nofun
  resident := nofun
  clean := nofun
  absent := fun k _ => rfl
  dirty := nofun

/-- Whatever the policy, the capacity and the files: a series of operations whose closures nest at
    most as deep as there are frames, on different pages, runs to its end and returns what it
    returns on the map, and a flush then leaves the map in the files. -/
theorem pool_transparent (policy : EvictionPolicy) (capacity : Nat) (hcap : 1 ≤ capacity)
    (disk : Nat → List Page) (prog : PoolProg Page V)
    (hnests : prog.Nests capacity [] (PageMap.ofDisk disk)) :
    ∃ s s', prog.run [] (SeqPool.new policy capacity disk) =
        .ok ((prog.onMap (PageMap.ofDisk disk)).1, (prog.onMap (PageMap.ofDisk disk)).2.1, s) ∧
      s.flushAll [] = .ok s' ∧
      ∀ k, readDisk s'.disk k = (prog.onMap (PageMap.ofDisk disk)).2.2.pages k := by
  have hmax : (SeqPool.new policy capacity disk).capacity = capacity := Nat.max_eq_left hcap
  rw [← hmax] at hnests
  rcases run_sim [] _ _ (sim_new policy capacity disk) hnests with ⟨s, hs, hsim, _⟩
  rcases flushAll_sim hsim nofun
    with ⟨s', hs', _, _, hdisk⟩
  exact ⟨s, s', hs, hs', hdisk⟩

/-- Page 0 is changed, page 1 is changed inside a closure on page 2, and page 0 is read again. -/
def changeAndReload : PoolProg Nat Nat :=
  .withPage (0, 0) (fun _ => .ret 0 7) fun _ =>
  .readPage (0, 2) (fun _ => .withPage (0, 1) (fun _ => .ret 0 9) fun _ => .ret 0 0) fun _ =>
  .readPage (0, 0) (fun data => .ret data 0) fun v => .ret v 0

/-- Two frames for three pages: page 0 is evicted and loaded again. -/
theorem pool_transparent_reload :
    ∃ s s', changeAndReload.run [] (SeqPool.new .clock 2 (fun _ => [])) = .ok (7, 0, s) ∧
      s.flushAll [] = .ok s' ∧
      ∀ k, readDisk s'.disk k =
        (changeAndReload.onMap (PageMap.ofDisk (fun _ => []))).2.2.pages k :=
  pool_transparent .clock 2 (by decide) (fun _ => []) changeAndReload (by
    simp only [changeAndReload, PoolProg.Nests]
    decide)

end ChibiDb
