import ChibiDb.Core.SharedPool
import ChibiDb.Data.Transition

/-!
# Frames That Are Evicted Before They Are Pinned

A call that misses enters its frame in the page table under the pool's lock and
pins it after the lock is released. In between the frame is unpinned, and a
second call that needs room may evict it. The first call then pins and changes
an orphan: the change is in no file, and the next call reads the page as it was.

`NoRace` excludes that of one step: none of the frames it evicts is waiting for
its pin. A write-back that fails loses its frame as well, and is excluded too.
Along runs whose steps all meet it, every frame a call holds is in the page
table, and the content of each page, whether it is in a frame or in its file, is
what the last `with_page` left.

## Main definitions

* `SharedPool.NoRace`: No frame is evicted that is waiting for its pin.
* `SharedPool.holders`: How many pins a frame should have.
* `SharedPool.Inv`: What holds along runs without a race.

## Theorems

* `SharedPool.evict_inv`: Evicting a frame nobody holds.
* `SharedPool.step_inv`: One step without a race.
* `SharedPool.observes_latest`: What every call sees.
* `SharedPool.write_lost`: Two calls and a pool of one frame.
-/

namespace ChibiDb.SharedPool

open List Option
open Function (comp update update_apply update_of_ne update_self)

variable {Page : Type}

/-- No frame that the step evicts is waiting for its pin, and no write-back fails. -/
def NoRace (s : SharedPool Page) : SharedLabel Page → Prop
  | .miss _ _ victims => ∀ x ∈ s.calls, x.pinned = false → x.frame ∉ victims
  | .missReadErr _ victims => ∀ x ∈ s.calls, x.pinned = false → x.frame ∉ victims
  | .missWriteErr _ _ _ => False
  | _ => True

instance (s : SharedPool Page) (l : SharedLabel Page) : Decidable (s.NoRace l) := by
  unfold NoRace
  split <;> infer_instance

/-- The pins of a frame that calls hold. -/
def heldPins (calls : List PoolCall) (i : Nat) : Nat :=
  calls.countP (fun x => x.pinned && decide (x.frame = i))

/-- The pins of a frame that a flush holds. -/
def flushPins : Option SharedFlush → Nat → Nat
  | none, _ => 0
  | some fl, i => fl.frames.count i

/-- The calls and flushes that hold a frame. -/
def holders (s : SharedPool Page) (i : Nat) : Nat := heldPins s.calls i + flushPins s.flush i

/-- What holds along runs without a race. -/
structure Inv (s : SharedPool Page) : Prop where
  nodup : s.table.Nodup
  below : ∀ i ∈ s.table, i < s.next
  one : ∀ i ∈ s.table, ∀ j ∈ s.table, (s.frame i).key = (s.frame j).key → i = j
  ids : (s.calls.map (fun x => x.id)).Nodup
  /-- No call holds an orphan. -/
  held : ∀ x ∈ s.calls, x.frame ∈ s.table
  flushed : ∀ fl, s.flush = some fl →
    fl.frames.Nodup ∧ (∀ i ∈ fl.frames, i ∈ s.table) ∧ ∀ i ∈ fl.toWrite, i ∈ fl.frames
  pins : ∀ i ∈ s.table, (s.frame i).pins = s.holders i
  resident : ∀ i ∈ s.table, (s.frame i).data = s.latest (s.frame i).key
  clean : ∀ i ∈ s.table, (s.frame i).dirty = false →
    s.disk (s.frame i).key = s.latest (s.frame i).key
  absent : ∀ k, (∀ i ∈ s.table, (s.frame i).key ≠ k) → s.disk k = s.latest k

theorem inv_start (capacity : Nat) (disk : PageKey → Page) : (start capacity disk).Inv where
  nodup := nodup_nil
  below := nofun
  one := nofun
  ids := nodup_nil
  held := nofun
  flushed := fun fl hfl => absurd hfl (by simp [start])
  pins := nofun
  resident := nofun
  clean := nofun
  absent := fun k _ => rfl

variable {c i : Nat} {k : PageKey} {s s' : SharedPool Page} {x : PoolCall} {calls : List PoolCall}
  {fl : SharedFlush}

theorem lookup_some (h : s.lookup k = some i) : i ∈ s.table ∧ (s.frame i).key = k :=
  mem_of_find_key h

theorem lookup_none (h : s.lookup k = none) : ∀ i ∈ s.table, (s.frame i).key ≠ k := by
  intro i hi heq
  have hno := find?_eq_none.mp h i hi
  exact hno (decide_eq_true heq)

theorem call_some (h : s.call c = some x) : x ∈ s.calls ∧ x.id = c := mem_of_find_key h

theorem call_none (h : s.call c = none) : c ∉ s.calls.map (fun x => x.id) := not_mem_of_find_key h

theorem heldPins_perm {calls' : List PoolCall} (h : calls.Perm calls') (i : Nat) :
    heldPins calls i = heldPins calls' i := h.countP_eq _

theorem heldPins_cons (x : PoolCall) (calls : List PoolCall) (i : Nat) :
    heldPins (x :: calls) i =
      heldPins calls i + if x.pinned = true ∧ x.frame = i then 1 else 0 := by
  simp [heldPins, countP_cons]

/-- An unpinned frame of the table is neither pinned by a call nor by a flush. -/
theorem unheld_of_pins (h : s.Inv) (hi : i ∈ s.table) (hpins : (s.frame i).pins = 0) :
    (∀ x ∈ s.calls, x.pinned = true → x.frame ≠ i) ∧ ∀ fl, s.flush = some fl → i ∉ fl.frames := by
  have hsum : heldPins s.calls i + flushPins s.flush i = 0 := (h.pins i hi).symm.trans hpins
  constructor
  · intro x hx hp heq
    have hpos : 0 < heldPins s.calls i := countP_pos_iff.mpr ⟨x, hx, by simp [hp, heq]⟩
    omega
  · intro fl hfl hmem
    have hpos : 0 < fl.frames.count i := count_pos_iff.mpr hmem
    rw [hfl, flushPins] at hsum
    omega

/-! ### Making room -/

/-- The frames that stay are as they were. -/
theorem unlist_inv {frame : Nat → SharedFrame Page} {disk : PageKey → Page} (h : s.Inv)
    (hi : i ∈ s.table) (hpins : (s.frame i).pins = 0)
    (hwait : ∀ x ∈ s.calls, x.pinned = false → x.frame ≠ i)
    (hframe : ∀ j, j ≠ i → frame j = s.frame j)
    (hdisk : ∀ k, k ≠ (s.frame i).key → disk k = s.disk k)
    (hout : disk (s.frame i).key = s.latest (s.frame i).key) :
    Inv { s with table := s.table.erase i, frame := frame, disk := disk } := by
  have hmem : ∀ j, j ∈ s.table.erase i ↔ j ≠ i ∧ j ∈ s.table := fun _ => h.nodup.mem_erase_iff
  have hold : ∀ j ∈ s.table.erase i, frame j = s.frame j := fun j hj => hframe j ((hmem j).mp hj).1
  have hin : ∀ j ∈ s.table.erase i, j ∈ s.table := fun j hj => ((hmem j).mp hj).2
  rcases unheld_of_pins h hi hpins with ⟨hcall, hfl⟩
  refine { h with
    nodup := h.nodup.erase i, below := fun j hj => h.below j (hin j hj), one := ?one, held := ?held
    flushed := ?flushed, pins := ?pins, resident := ?resident, clean := ?clean, absent := ?absent }
  case one =>
    intro j hj j' hj' hkeys
    dsimp only at hkeys
    rw [hold j hj, hold j' hj'] at hkeys
    exact h.one j (hin j hj) j' (hin j' hj') hkeys
  case held =>
    intro x hx
    refine (hmem x.frame).mpr ⟨?_, h.held x hx⟩
    cases hp : x.pinned with
    | true => exact hcall x hx hp
    | false => exact hwait x hx hp
  case flushed =>
    intro fl heq
    rcases h.flushed fl heq with ⟨hnd, hin, hto⟩
    exact ⟨hnd, fun j hj => (hmem j).mpr ⟨fun hji => hfl fl heq (hji ▸ hj), hin j hj⟩, hto⟩
  case pins =>
    intro j hj
    dsimp only
    rw [hold j hj]
    exact h.pins j (hin j hj)
  case resident =>
    intro j hj
    dsimp only
    rw [hold j hj]
    exact h.resident j (hin j hj)
  case clean =>
    intro j hj
    dsimp only
    have hkey : (s.frame j).key ≠ (s.frame i).key :=
      fun heq => ((hmem j).mp hj).1 (h.one j (hin j hj) i hi heq)
    rw [hold j hj, hdisk _ hkey]
    exact h.clean j (hin j hj)
  case absent =>
    intro k hk
    dsimp only at hk ⊢
    by_cases hki : k = (s.frame i).key
    · rw [hki]
      exact hout
    rw [hdisk k hki]
    apply h.absent
    intro j hj heq
    by_cases hji : j = i
    · rw [hji] at heq
      exact hki heq.symm
    · apply hk j ((hmem j).mpr ⟨hji, hj⟩)
      rw [hframe j hji]
      exact heq

/-- Evicting a frame nobody holds or waits for. -/
theorem evict_inv (h : s.Inv) (hs : s.evict i = some s')
    (hwait : ∀ x ∈ s.calls, x.pinned = false → x.frame ≠ i) : s'.Inv := by
  unfold evict at hs
  split at hs
  case isFalse => cases hs
  rename_i hguard
  rcases hguard with ⟨_, hi, hpins⟩
  cases hd : (s.frame i).dirty with
  | true =>
    simp only [hd, if_true] at hs
    cases hs
    exact unlist_inv h hi hpins hwait (fun _ hj => update_of_ne hj _ _)
      (fun _ hk => update_of_ne hk _ _)
      ((update_self _ _ _).trans (h.resident i hi))
  | false =>
    simp only [hd, if_false, Bool.false_eq_true] at hs
    cases hs
    exact unlist_inv h hi hpins hwait (fun _ _ => rfl) (fun _ _ => rfl) (h.clean i hi hd)

theorem evict_keys (hs : s.evict i = some s') : s'.calls = s.calls ∧
    ∀ j, (s'.frame j).key = (s.frame j).key ∧ (j ∈ s'.table → j ∈ s.table) := by
  unfold evict at hs
  split at hs
  case isFalse => cases hs
  split at hs
  · cases hs
    refine ⟨rfl, fun j => ⟨?_, mem_of_mem_erase⟩⟩
    simp only [writeBack, unlist, setFrame, update_apply]
    by_cases hj : j = i
    · rw [if_pos hj, hj]
    · rw [if_neg hj]
  · cases hs
    exact ⟨rfl, fun _ => ⟨rfl, mem_of_mem_erase⟩⟩

theorem evictAll_inv {victims : List Nat} (s : SharedPool Page) (h : s.Inv)
    (hs : s.evictAll victims = some s')
    (hwait : ∀ x ∈ s.calls, x.pinned = false → x.frame ∉ victims) :
    s'.Inv ∧ s'.calls = s.calls ∧
      ∀ j, (s'.frame j).key = (s.frame j).key ∧ (j ∈ s'.table → j ∈ s.table) := by
  induction victims generalizing s with
  | nil =>
    cases hs
    exact ⟨h, rfl, fun j => ⟨rfl, fun hj => hj⟩⟩
  | cons i _ ih =>
    rw [evictAll] at hs
    cases hev : s.evict i with
    | none =>
      rw [hev] at hs
      cases hs
    | some s₁ =>
      rw [hev] at hs
      rcases evict_keys hev with ⟨hcalls, hkeys⟩
      have h₁ := evict_inv h hev (fun x hx hp heq => hwait x hx hp (mem_cons.mpr (.inl heq)))
      rcases ih s₁ h₁ hs (by
        intro x hx hp hmem
        rw [hcalls] at hx
        exact hwait x hx hp (mem_cons_of_mem _ hmem)) with ⟨hinv, hc, hk⟩
      exact ⟨hinv, hc.trans hcalls, fun j =>
        ⟨(hk j).1.trans (hkeys j).1, fun hmem => (hkeys j).2 ((hk j).2 hmem)⟩⟩

theorem publish_inv (h : s.Inv) (hc : c ∉ s.calls.map (fun x => x.id))
    (hk : ∀ i ∈ s.table, (s.frame i).key ≠ k) : (s.publish c k).Inv := by
  have hold : ∀ j ∈ s.table, (s.publish c k).frame j = s.frame j := by
    intro j hj
    exact update_of_ne (Nat.ne_of_lt (h.below j hj)) _ _
  have hnew : (s.publish c k).frame s.next = ⟨k, s.disk k, false, 0⟩ := update_self _ _ _
  have hdisk : s.disk k = s.latest k := h.absent k hk
  -- nobody holds a frame that is not made yet
  have hfresh : s.holders s.next = 0 := by
    have hcalls : heldPins s.calls s.next = 0 := by
      rw [heldPins, countP_eq_zero]
      intro x hx hp
      rw [Bool.and_eq_true, decide_eq_true_eq] at hp
      have hlt := h.below x.frame (h.held x hx)
      omega
    have hflush : flushPins s.flush s.next = 0 := by
      cases hfl : s.flush with
      | none => rfl
      | some fl =>
        rw [flushPins, count_eq_zero]
        intro hmem
        have hlt := h.below s.next ((h.flushed fl hfl).2.1 s.next hmem)
        omega
    rw [holders, hcalls, hflush]
  have hholders : ∀ j, (s.publish c k).holders j = s.holders j := by
    intro j
    simp only [holders, publish, heldPins_cons, Bool.false_eq_true, false_and, if_false,
      Nat.add_zero]
    rfl
  refine ⟨?_, ?_, ?_, ?_, ?_, ?_, ?_, ?_, ?_, ?_⟩
  · refine nodup_cons.mpr ⟨?_, h.nodup⟩
    intro hmem
    have hlt := h.below s.next hmem
    omega
  · exact forall_mem_cons.mpr
      ⟨Nat.lt_succ_self _, fun j hj => Nat.lt_succ_of_lt (h.below j hj)⟩
  · intro j hj j' hj' heq
    rcases mem_cons.mp hj with rfl | hj
    · rcases mem_cons.mp hj' with rfl | hj'
      · rfl
      · rw [hnew, hold j' hj'] at heq
        exact absurd heq.symm (hk j' hj')
    · rcases mem_cons.mp hj' with rfl | hj'
      · rw [hnew, hold j hj] at heq
        exact absurd heq (hk j hj)
      · rw [hold j hj, hold j' hj'] at heq
        exact h.one j hj j' hj' heq
  · exact nodup_cons.mpr ⟨hc, h.ids⟩
  · exact forall_mem_cons.mpr ⟨mem_cons_self, fun x hx => mem_cons_of_mem _ (h.held x hx)⟩
  · intro fl hfl
    rcases h.flushed fl hfl with ⟨hnd, hin, hto⟩
    exact ⟨hnd, fun j hj => mem_cons_of_mem _ (hin j hj), hto⟩
  · intro j hj
    rw [hholders]
    rcases mem_cons.mp hj with rfl | hj
    · rw [hnew, hfresh]
    · rw [hold j hj]
      exact h.pins j hj
  · intro j hj
    rcases mem_cons.mp hj with rfl | hj
    · rw [hnew]
      exact hdisk
    · rw [hold j hj]
      exact h.resident j hj
  · intro j hj
    rcases mem_cons.mp hj with rfl | hj
    · rw [hnew]
      exact fun _ => hdisk
    · rw [hold j hj]
      exact h.clean j hj
  · intro _ hk'
    apply h.absent
    intro j hj heq
    apply hk' j (mem_cons_of_mem _ hj)
    rw [hold j hj]
    exact heq

/-! ### Pins -/

/-- Steps that change pins only. -/
theorem inv_of_pins (s : SharedPool Page) {frame : Nat → SharedFrame Page}
    {flush : Option SharedFlush} (h : s.Inv)
    (hframe : ∀ i, (frame i).key = (s.frame i).key ∧ (frame i).data = (s.frame i).data ∧
      (frame i).dirty = (s.frame i).dirty) (hids : (calls.map (fun x => x.id)).Nodup)
    (hheld : ∀ x ∈ calls, x.frame ∈ s.table) (hflushed : ∀ fl, flush = some fl →
      fl.frames.Nodup ∧ (∀ i ∈ fl.frames, i ∈ s.table) ∧ ∀ i ∈ fl.toWrite, i ∈ fl.frames)
    (hpins : ∀ i ∈ s.table, (frame i).pins = heldPins calls i + flushPins flush i) :
    Inv { s with frame := frame, calls := calls, flush := flush } := by
  refine { h with
    ids := hids, held := hheld, flushed := hflushed, pins := hpins, one := ?one
    resident := ?resident, clean := ?clean, absent := ?absent }
  case one =>
    intro i hi j hj heq
    rw [(hframe i).1, (hframe j).1] at heq
    exact h.one i hi j hj heq
  case resident =>
    intro i hi
    rw [(hframe i).1, (hframe i).2.1]
    exact h.resident i hi
  case clean =>
    intro i hi
    rw [(hframe i).1, (hframe i).2.2]
    exact h.clean i hi
  case absent => exact fun k hk => h.absent k (fun i hi => (hframe i).1 ▸ hk i hi)

theorem setFrame_frame (s : SharedPool Page) (i j : Nat) (f : SharedFrame Page) :
    (s.setFrame i f).frame j = if j = i then f else s.frame j := by
  simp only [setFrame, update_apply]

theorem addPin_frame (s : SharedPool Page) (i j : Nat) :
    (s.addPin i).frame j =
      { s.frame j with pins := (s.frame j).pins + if j = i then 1 else 0 } := by
  rw [addPin, setFrame_frame]
  by_cases hj : j = i
  · rw [if_pos hj, if_pos hj, hj]
  · rw [if_neg hj, if_neg hj, Nat.add_zero]

theorem dropPin_frame (s : SharedPool Page) (i j : Nat) :
    (s.dropPin i).frame j =
      { s.frame j with pins := (s.frame j).pins - if j = i then 1 else 0 } := by
  rw [dropPin, setFrame_frame]
  by_cases hj : j = i
  · rw [if_pos hj, if_pos hj, hj]
  · rw [if_neg hj, if_neg hj, Nat.sub_zero]

theorem addPins_eq (is : List Nat) (s : SharedPool Page) :
    s.addPins is = { s with frame := fun j =>
      { s.frame j with pins := (s.frame j).pins + is.count j } } := by
  induction is generalizing s with
  | nil => simp only [addPins, count_nil, Nat.add_zero]
  | cons i is ih =>
    rw [addPins, ih]
    simp only [addPin_frame, count_cons, beq_iff_eq, eq_comm (a := i), Nat.add_assoc,
      Nat.add_comm (count _ is)]
    rfl

theorem dropPins_eq (is : List Nat) (s : SharedPool Page) :
    s.dropPins is = { s with frame := fun j =>
      { s.frame j with pins := (s.frame j).pins - is.count j } } := by
  induction is generalizing s with
  | nil => simp only [dropPins, count_nil, Nat.sub_zero]
  | cons i is ih =>
    rw [dropPins, ih]
    simp only [dropPin_frame, count_cons, beq_iff_eq, eq_comm (a := i), Nat.sub_sub,
      Nat.add_comm (count _ is)]
    rfl

theorem hit_inv (h : s.Inv) (hc : c ∉ s.calls.map (fun x => x.id)) (hi : i ∈ s.table) :
    ({ s.addPin i with calls := ⟨c, i, true⟩ :: s.calls } : SharedPool Page).Inv := by
  refine inv_of_pins s h ?_ (nodup_cons.mpr ⟨hc, h.ids⟩) ?_ h.flushed ?_
  · intro j
    simp [addPin_frame]
  · exact forall_mem_cons.mpr ⟨hi, h.held⟩
  · intro j hj
    have hp := h.pins j hj
    simp only [holders] at hp
    simp only [addPin_frame, heldPins_cons, true_and, eq_comm (a := i)]
    change _ = _ + flushPins s.flush j
    omega

theorem pin_inv (h : s.Inv) (hx : x ∈ s.calls) (hp : x.pinned = false) :
    ({ s.addPin x.frame with
      calls := s.calls.map (fun y => if y.id = x.id then { y with pinned := true } else y) } :
      SharedPool Page).Inv := by
  have hids : (s.calls.map (fun y => if y.id = x.id then { y with pinned := true } else y)).map
      (fun y => y.id) = s.calls.map (fun y => y.id) := by
    rw [List.map_map]
    apply map_congr_left
    intro y _
    simp only [comp]
    split <;> rfl
  -- the call itself, and the others as they were
  have hperm := perm_map_key (fun y : PoolCall => { y with pinned := true }) h.ids hx
  refine inv_of_pins s h ?_ ?_ ?_ h.flushed ?_
  · intro j
    simp [addPin_frame]
  · rw [hids]
    exact h.ids
  · intro _ hy
    rcases mem_map.mp hy with ⟨z, hz, heq⟩
    rw [← heq]
    split
    · exact h.held z hz
    · exact h.held z hz
  · intro j hj
    have hpj := h.pins j hj
    rw [holders, heldPins_perm (perm_cons_filter_key h.ids hx), heldPins_cons, hp] at hpj
    rw [heldPins_perm hperm, heldPins_cons, addPin_frame]
    simp only [Bool.false_eq_true, false_and, if_false, true_and, eq_comm (a := x.frame)] at hpj ⊢
    change _ = _ + flushPins s.flush j
    omega

theorem release_inv (h : s.Inv) (hx : x ∈ s.calls) (hp : x.pinned = true) :
    ({ s.dropPin x.frame with calls := s.calls.filter (fun y => y.id ≠ x.id) } :
      SharedPool Page).Inv := by
  refine inv_of_pins s h ?_ ?_ ?_ h.flushed ?_
  · intro j
    simp [dropPin_frame]
  · exact h.ids.sublist (filter_sublist.map _)
  · intro y hy
    exact h.held y (mem_filter.mp hy).1
  intro j hj
  have hpj := h.pins j hj
  rw [holders, heldPins_perm (perm_cons_filter_key h.ids hx), heldPins_cons, hp] at hpj
  simp only [true_and, eq_comm (a := x.frame)] at hpj
  rw [dropPin_frame]
  change (s.frame j).pins - _ = _ + flushPins s.flush j
  omega

theorem flushBegin_inv (h : s.Inv) (hno : s.flush = none) {is : List Nat} (hnd : is.Nodup)
    (his : ∀ i ∈ is, i ∈ s.table) :
    ({ s.addPins is with flush := some ⟨is, is⟩ } : SharedPool Page).Inv := by
  rw [addPins_eq]
  refine inv_of_pins s h (fun j => ⟨rfl, rfl, rfl⟩) h.ids h.held ?_ ?_
  · intro _ hfl
    cases hfl
    exact ⟨hnd, his, fun i hi => hi⟩
  intro j hj
  have hp := h.pins j hj
  rw [holders, hno] at hp
  simp only [flushPins] at hp ⊢
  omega

theorem flushEnd_inv (h : s.Inv) (hfl : s.flush = some fl) :
    ({ s.dropPins fl.frames with flush := none } : SharedPool Page).Inv := by
  rw [dropPins_eq]
  refine inv_of_pins s h (fun j => ⟨rfl, rfl, rfl⟩) h.ids h.held ?_ ?_
  · intro _ hfl'
    cases hfl'
  intro j hj
  have hp := h.pins j hj
  rw [holders, hfl] at hp
  simp only [flushPins] at hp ⊢
  omega

/-! ### Accesses -/

/-- A frame changes its content or its dirty mark: the others are other pages. -/
theorem inv_of_frame {flush : Option SharedFlush} {disk latest : PageKey → Page} (h : s.Inv)
    (hi : i ∈ s.table) (f : SharedFrame Page) (hkey : f.key = (s.frame i).key)
    (hpins : f.pins = (s.frame i).pins) (hflush : flushPins flush = flushPins s.flush)
    (hflushed : ∀ fl, flush = some fl →
      fl.frames.Nodup ∧ (∀ j ∈ fl.frames, j ∈ s.table) ∧ ∀ j ∈ fl.toWrite, j ∈ fl.frames)
    (hdata : f.data = latest f.key) (hclean : f.dirty = false → disk f.key = latest f.key)
    (hother : ∀ k, k ≠ f.key → disk k = s.disk k ∧ latest k = s.latest k) :
    Inv { s with
      frame := update s.frame i f, flush := flush, disk := disk, latest := latest } := by
  have hself : update s.frame i f i = f := update_self _ _ _
  have hne : ∀ j, j ≠ i → update s.frame i f j = s.frame j :=
    fun j hj => update_of_ne hj _ _
  have hk : ∀ j, (update s.frame i f j).key = (s.frame j).key := by
    intro j
    by_cases hj : j = i
    · rw [hj, hself, hkey]
    · rw [hne j hj]
  have hkj : ∀ j ∈ s.table, j ≠ i → (s.frame j).key ≠ f.key := by
    intro j hj hji heq
    exact hji (h.one j hj i hi (heq.trans hkey))
  refine { h with
    flushed := hflushed, one := ?one, pins := ?pins, resident := ?resident, clean := ?clean
    absent := ?absent }
  case one =>
    intro j hj j' hj' heq
    rw [hk, hk] at heq
    exact h.one j hj j' hj' heq
  case pins =>
    intro j hj
    dsimp only
    rw [holders, hflush]
    by_cases hji : j = i
    · rw [hji, hself, hpins]
      exact h.pins i hi
    · rw [hne j hji]
      exact h.pins j hj
  case resident =>
    intro j hj
    dsimp only
    by_cases hji : j = i
    · rw [hji, hself]
      exact hdata
    · rw [hne j hji, (hother _ (hkj j hj hji)).2]
      exact h.resident j hj
  case clean =>
    intro j hj
    dsimp only
    by_cases hji : j = i
    · rw [hji, hself]
      exact hclean
    · rw [hne j hji, (hother _ (hkj j hj hji)).1, (hother _ (hkj j hj hji)).2]
      exact h.clean j hj
  case absent =>
    intro k hk'
    have hki : k ≠ f.key := by
      intro heq
      apply hk' i hi
      rw [hk, ← hkey, heq]
    dsimp only
    rw [(hother k hki).1, (hother k hki).2]
    exact h.absent k (fun j hj => hk j ▸ hk' j hj)

theorem write_inv (h : s.Inv) (hi : i ∈ s.table) (data : Page) :
    ({ s.setFrame i { s.frame i with data := data, dirty := true } with
      latest := update s.latest (s.frame i).key data } : SharedPool Page).Inv := by
  refine inv_of_frame h hi { s.frame i with data := data, dirty := true } rfl rfl rfl
    h.flushed ?_ ?_ ?_
  · simp
  · exact nofun
  · exact fun k hk => ⟨rfl, update_of_ne hk _ _⟩

theorem flushWrite_inv (h : s.Inv) (hfl : s.flush = some fl) (hi : i ∈ fl.toWrite) :
    ({ s.writeBack i with flush := some ⟨fl.frames, fl.toWrite.erase i⟩ } :
      SharedPool Page).Inv := by
  rcases h.flushed fl hfl with ⟨hnd, hin, hto⟩
  have hmem : i ∈ s.table := hin i (hto i hi)
  have hdisk : (s.writeBack i).disk (s.frame i).key = s.latest (s.frame i).key :=
    (update_self _ _ _).trans (h.resident i hmem)
  refine inv_of_frame h hmem { s.frame i with dirty := false } rfl rfl ?_ ?_
    (h.resident i hmem) (fun _ => hdisk) ?_
  · rw [hfl]
    rfl
  · intro _ hfl'
    cases hfl'
    exact ⟨hnd, hin, fun j hj => hto j (mem_of_mem_erase hj)⟩
  · exact fun k hk => ⟨update_of_ne hk _ _, rfl⟩

/-! ### Runs -/

theorem step_inv (s : SharedPool Page) (l : SharedLabel Page) (s' : SharedPool Page) (h : s.Inv)
    (hok : s.NoRace l) (hs : s.step l = some s') : s'.Inv := by
  cases l with
  | hit =>
    simp only [step] at hs
    split at hs
    case h_1 i hc hl =>
      cases hs
      exact hit_inv h (call_none hc) (lookup_some hl).1
    case h_2 => cases hs
  | miss =>
    simp only [step] at hs
    split at hs
    case h_1 s₁ hc hl hev =>
      split at hs
      · cases hs
        rcases evictAll_inv s h hev hok with ⟨h₁, hcalls, hkeys⟩
        refine publish_inv h₁ ?_ ?_
        · rw [hcalls]
          exact call_none hc
        · intro i hi
          rw [(hkeys i).1]
          exact lookup_none hl i ((hkeys i).2 hi)
      · cases hs
    case h_2 => cases hs
  | missReadErr =>
    simp only [step] at hs
    split at hs
    · exact (evictAll_inv s h hs hok).1
    · cases hs
  | missWriteErr => exact absurd hok not_false
  | pin =>
    simp only [step] at hs
    split at hs
    case h_1 id i hc =>
      injection hs with hs
      rcases call_some hc with ⟨hmem, hid⟩
      subst hid
      rw [← hs]
      exact pin_inv h hmem rfl
    case h_2 => cases hs
  | write =>
    simp only [step] at hs
    split at hs
    case h_1 id i hc =>
      cases hs
      exact write_inv h (h.held _ (call_some hc).1) _
    case h_2 => cases hs
  | read =>
    simp only [step] at hs
    split at hs
    · cases hs
      exact h
    · cases hs
  | release =>
    simp only [step] at hs
    split at hs
    case h_1 id i hc =>
      injection hs with hs
      rcases call_some hc with ⟨hmem, hid⟩
      subst hid
      rw [← hs]
      exact release_inv h hmem rfl
    case h_2 => cases hs
  | flushBegin =>
    simp only [step] at hs
    split at hs
    · cases hs
    case isFalse hno =>
      cases hs
      refine flushBegin_inv h ?_ (h.nodup.filter _) (fun i hi => (mem_filter.mp hi).1)
      exact not_isSome_iff_eq_none.mp hno
  | flushWrite =>
    simp only [step] at hs
    split at hs
    case h_1 frames toWrite hfl =>
      split at hs
      case isTrue hi =>
        cases hs
        exact flushWrite_inv h hfl hi
      case isFalse => cases hs
    case h_2 => cases hs
  | flushEnd =>
    simp only [step] at hs
    split at hs
    case h_1 frames toWrite hfl =>
      cases hs
      exact flushEnd_inv h hfl
    case h_2 => cases hs

/-- In every run whose steps evict no frame that waits for its pin, what a call
    sees in its frame is what the last `with_page` of that page left. -/
theorem observes_latest (capacity : Nat) (disk : PageKey → Page) (ls : List (SharedLabel Page))
    (s : SharedPool Page) (hrun : runSteps step (start capacity disk) ls = some s)
    (hok : Meets step NoRace (start capacity disk) ls) (c : Nat) (k : PageKey) (data : Page)
    (hobs : s.observes c = some (k, data)) : data = s.latest k := by
  have h : s.Inv := invariant_of_meets step NoRace Inv step_inv (start capacity disk) s ls
    (inv_start capacity disk) hok hrun
  unfold observes at hobs
  split at hobs
  · cases hobs
  case h_2 x hc =>
    split at hobs
    · simp only [some.injEq, Prod.mk.injEq] at hobs
      rw [← hobs.1, ← hobs.2]
      exact h.resident x.frame (h.held x (call_some hc).1)
    · cases hobs

/-- Page 0 is changed, pushed out by page 1, and read again. -/
def evictedAndRead : List (SharedLabel Nat) :=
  [.miss 0 (0, 0) [], .pin 0, .write 0 (fun _ => 7), .release 0,
    .miss 1 (0, 1) [0], .pin 1, .release 1, .miss 2 (0, 0) [1], .pin 2]

theorem observes_latest_evicted :
    ∃ s, runSteps step (start 1 (fun _ => 0)) evictedAndRead = some s ∧
      s.observes 2 = some ((0, 0), 7) ∧ 7 = s.latest (0, 0) :=
  ⟨_, rfl, rfl, observes_latest 1 (fun _ => 0) evictedAndRead _ rfl (by decide) 2 (0, 0) 7 rfl⟩

/-- Call 0 reads page 0 into the only frame; before it pins the frame, call 1
    evicts it for page 1. Call 0 then writes to the orphan and returns. Call 2
    reads page 0 as it was. No two frames are ever pinned at once. -/
theorem write_lost :
    ∃ s, runSteps step (start 1 (fun _ => 0))
        [.miss 0 (0, 0) [], .miss 1 (0, 1) [0], .pin 1, .read 1, .release 1,
          .pin 0, .write 0 (fun _ => 7), .release 0, .miss 2 (0, 0) [1], .pin 2] = some s ∧
      s.observes 2 = some ((0, 0), 0) ∧ s.latest (0, 0) = 7 :=
  ⟨_, rfl, rfl, rfl⟩

end ChibiDb.SharedPool
