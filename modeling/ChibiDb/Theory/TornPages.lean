import ChibiDb.Core.DoubleWrite
import ChibiDb.Data.Transition

/-!
# Which Torn Pages Are Repaired

A page write of `flush_all` begins only after the record of that page is in the
double-write file and synced, so wherever it is cut short recovery writes the
staged image over it. An eviction writes its page without a record. While a
flush is under way an evicted page is not one of those it has staged, since
those are pinned, so recovery leaves what the eviction's write left: a mixture
of two images.

## Main definitions

* `stageRecords`: The double-write file of a list of pages.
* `DwInv`: What holds in every state.

## Theorems

* `replayed_records`: Recovery replays every complete record and stops.
* `recover_records`: The files after it.
* `crashBuffer_records`: What a crash leaves of the buffer.
* `double_write_protects`: Which crashes are repaired.
* `torn_eviction_stays`: One that is not.
-/

namespace ChibiDb

open List Option Function
open DwState (pinned stagePage start step writing)

variable {Path : Type}

/-- The double-write file of a list of pages. -/
def stageRecords (c : PathCodec Path) (rs : List (PageAddr Path × PageImage)) : List UInt8 :=
  rs.flatMap (fun r => stageRecord c r.1 r.2)

/-! ### The format -/

theorem length_stageRecord (c : PathCodec Path) (a : PageAddr Path) (page : PageImage) :
    (stageRecord c a page).length = 4 + (c.bytes a.path).length + 4 + pageSize := by
  simp only [stageRecord, length_append, length_leBytes, page.property]

/-- The first four bytes give the length of the path. -/
theorem take_stageRecord (c : PathCodec Path) (a : PageAddr Path) (page : PageImage)
    (rest : List UInt8) :
    ofLeBytes ((stageRecord c a page ++ rest).take 4) = (c.bytes a.path).length := by
  have htake : (stageRecord c a page ++ rest).take 4 = leBytes 4 (c.bytes a.path).length := by
    rw [stageRecord, append_assoc, append_assoc, append_assoc]
    exact take_left' (length_leBytes 4 _)
  rw [htake, ofLeBytes_leBytes (c.short a.path)]

/-- A complete record is replayed. -/
theorem replayLoop_record (c : PathCodec Path) (fuel : Nat) (a : PageAddr Path) (page : PageImage)
    (rest : List UInt8) :
    replayLoop c (fuel + 1) (stageRecord c a page ++ rest) =
      (replayLoop c fuel rest).map (fun rs => (a, page) :: rs) := by
  have hlen := length_stageRecord c a page
  have hpath := take_stageRecord c a page rest
  have hall : (stageRecord c a page ++ rest).length =
      4 + (c.bytes a.path).length + 4 + pageSize + rest.length := by
    rw [length_append, hlen]
  -- the parts of the record, one after the other
  have hparts : stageRecord c a page ++ rest = leBytes 4 (c.bytes a.path).length ++
      (c.bytes a.path ++ (leBytes 4 a.no.toNat ++ (page.val ++ rest))) := by
    simp [stageRecord]
  have hdrop4 : (stageRecord c a page ++ rest).drop 4 =
      c.bytes a.path ++ (leBytes 4 a.no.toNat ++ (page.val ++ rest)) := by
    rw [hparts]
    exact drop_left' (length_leBytes 4 _)
  have hdropPath : (stageRecord c a page ++ rest).drop (4 + (c.bytes a.path).length) =
      leBytes 4 a.no.toNat ++ (page.val ++ rest) := by
    rw [← drop_drop, hdrop4]
    exact drop_left' rfl
  have hdropNo : (stageRecord c a page ++ rest).drop (4 + (c.bytes a.path).length + 4) =
      page.val ++ rest := by
    rw [← drop_drop, hdropPath]
    exact drop_left' (length_leBytes 4 _)
  have hdropAll : (stageRecord c a page ++ rest).drop
      (4 + (c.bytes a.path).length + 4 + pageSize) = rest := by
    rw [← drop_drop, hdropNo]
    exact drop_left' page.property
  have hno : UInt32.ofNat (ofLeBytes (((stageRecord c a page ++ rest).drop
      (4 + (c.bytes a.path).length)).take 4)) = a.no := by
    rw [hdropPath, take_left' (length_leBytes 4 _),
      ofLeBytes_leBytes (by have := a.no.toNat_lt; omega), UInt32.ofNat_toNat]
  have hpage : ((stageRecord c a page ++ rest).drop
      (4 + (c.bytes a.path).length + 4)).take pageSize = page.val := by
    rw [hdropNo]
    exact take_left' page.property
  rw [replayLoop, if_neg (by omega)]
  simp only [hpath]
  rw [dif_neg (by omega)]
  have hparse : c.parse (((stageRecord c a page ++ rest).drop 4).take (c.bytes a.path).length) =
      some a.path := by
    rw [hdrop4, take_left' rfl]
    exact c.parse_bytes a.path
  simp only [hparse, hno, hpage, hdropAll]
  rfl

variable {c : PathCodec Path} {tail : List UInt8} {rs : List (PageAddr Path × PageImage)}
  {s : DwState Path}

/-- A record that is not there in full is where recovery stops. -/
theorem replayLoop_partial (fuel : Nat) {a : PageAddr Path} {page : PageImage} {n : Nat}
    (hn : n < (stageRecord c a page).length) :
    replayLoop c fuel ((stageRecord c a page).take n) = .ok [] := by
  have hlen := length_stageRecord c a page
  have htake : ((stageRecord c a page).take n).length = n := by
    rw [length_take]
    omega
  cases fuel with
  | zero => rfl
  | succ =>
    rw [replayLoop]
    by_cases h4 : n < 4
    · rw [if_pos (by omega)]
    rw [if_neg (by omega)]
    have hpath := take_stageRecord c a page []
    rw [append_nil] at hpath
    have htake4 : ((stageRecord c a page).take n).take 4 = (stageRecord c a page).take 4 := by
      rw [take_take, Nat.min_eq_left (by omega)]
    simp only [htake4, hpath]
    rw [dif_pos (by omega)]

/-- What may stand behind the complete records. -/
def Tail (c : PathCodec Path) (tail : List UInt8) : Prop :=
  tail = [] ∨ ∃ a page n, n < (stageRecord c a page).length ∧ tail = (stageRecord c a page).take n

theorem replayLoop_tail (fuel : Nat) (h : Tail c tail) : replayLoop c fuel tail = .ok [] := by
  rcases h with rfl | ⟨_, _, _, hn, rfl⟩
  · cases fuel <;> rfl
  · exact replayLoop_partial fuel hn

theorem replayLoop_records (h : Tail c tail) (fuel : Nat) (hfuel : rs.length ≤ fuel) :
    replayLoop c fuel (stageRecords c rs ++ tail) = .ok rs := by
  induction rs generalizing fuel with
  | nil => exact replayLoop_tail fuel h
  | cons _ _ ih =>
    rw [length_cons] at hfuel
    cases fuel with
    | zero => omega
    | succ fuel =>
      rw [stageRecords, flatMap_cons, append_assoc, replayLoop_record]
      exact congrArg (Except.map _) (ih fuel (by omega))

theorem length_le_stageRecords (c : PathCodec Path) (rs : List (PageAddr Path × PageImage)) :
    rs.length ≤ (stageRecords c rs).length := by
  induction rs with
  | nil => exact Nat.le_refl _
  | cons r _ ih =>
    have hlen := length_stageRecord c r.1 r.2
    rw [stageRecords] at ih ⊢
    rw [flatMap_cons, length_append, length_cons]
    omega

/-- Recovery replays every complete record, in order, and ignores the rest. -/
theorem replayed_records (rs : List (PageAddr Path × PageImage)) (h : Tail c tail) :
    replayed c (stageRecords c rs ++ tail) = .ok rs := by
  refine replayLoop_records h _ ?_
  have hle := length_le_stageRecords c rs
  rw [length_append]
  omega

theorem recover_records [DecidableEq Path] (rs : List (PageAddr Path × PageImage))
    (h : Tail c tail) (disk : PageStore Path) :
    recover c (stageRecords c rs ++ tail) disk = .ok (applyRecords disk rs) := by
  rw [recover, replayed_records rs h]
  rfl

/-- A page has the image of its last record, or what it had. -/
theorem applyRecords_spec [DecidableEq Path] (rs : List (PageAddr Path × PageImage))
    (disk : PageStore Path) (a : PageAddr Path) :
    (∃ r ∈ rs, r.1 = a ∧ applyRecords disk rs a = r.2) ∨
      ((∀ r ∈ rs, r.1 ≠ a) ∧ applyRecords disk rs a = disk a) := by
  induction rs generalizing disk with
  | nil => exact .inr ⟨nofun, rfl⟩
  | cons r rs ih =>
    have hstep : applyRecords disk (r :: rs) = applyRecords (update disk r.1 r.2) rs := rfl
    rw [hstep]
    rcases ih (update disk r.1 r.2) with ⟨r', hr', ha, heq⟩ | ⟨hno, heq⟩
    · exact .inl ⟨r', mem_cons_of_mem _ hr', ha, heq⟩
    by_cases hra : r.1 = a
    · refine .inl ⟨r, mem_cons_self, hra, ?_⟩
      rw [heq, ← hra, update_self]
    refine .inr ⟨forall_mem_cons.mpr ⟨hra, hno⟩, ?_⟩
    rw [heq, update_of_ne (Ne.symm hra)]

/-- Cutting the buffer leaves some complete records and part of the next. -/
theorem take_stageRecords (c : PathCodec Path) (rs : List (PageAddr Path × PageImage)) (n : Nat) :
    ∃ rs' tail, (∀ r ∈ rs', r ∈ rs) ∧ Tail c tail ∧
      (stageRecords c rs).take n = stageRecords c rs' ++ tail := by
  induction rs generalizing n with
  | nil =>
    refine ⟨[], [], fun r hr => hr, .inl rfl, ?_⟩
    rw [stageRecords, flatMap_nil, take_nil, append_nil]
  | cons r _ ih =>
    rw [stageRecords, flatMap_cons, take_append]
    by_cases hn : n < (stageRecord c r.1 r.2).length
    · refine ⟨[], (stageRecord c r.1 r.2).take n, nofun, .inr ⟨r.1, r.2, n, hn, rfl⟩, ?_⟩
      rw [Nat.sub_eq_zero_of_le (by omega), take_zero, append_nil, stageRecords,
        flatMap_nil, nil_append]
    · rcases ih (n - (stageRecord c r.1 r.2).length) with ⟨rs', tail, hsub, htail, heq⟩
      refine ⟨r :: rs', tail, forall_mem_cons.mpr ⟨mem_cons_self,
        fun r' hr' => mem_cons_of_mem _ (hsub r' hr')⟩, htail, ?_⟩
      rw [stageRecords] at heq
      rw [heq, take_of_length_le (by omega), stageRecords, stageRecords, flatMap_cons,
        append_assoc]

/-! ### Every state -/

/-- What holds of the records in the buffer while a flush is under way. -/
structure FlushStaged (fl : DwFlush Path) (rs : List (PageAddr Path × PageImage)) : Prop where
  /-- Only pinned pages are staged. -/
  pinned : ∀ r ∈ rs, r.1 ∈ fl.pinned
  /-- A page to be written is staged, or will be. -/
  staged : ∀ a ∈ fl.toWrite, a ∈ fl.toStage ∨ ∃ r ∈ rs, r.1 = a
  toStage : ∀ a ∈ fl.toStage, a ∈ fl.pinned

/-- What holds in every state, with the records the buffer consists of. -/
structure DwInv (c : PathCodec Path) (s : DwState Path) (rs : List (PageAddr Path × PageImage)) :
    Prop where
  disk : ∀ a, s.disk a ∈ s.images a
  buffer : s.buffer = stageRecords c rs
  complete : ∀ r ∈ rs, r.2 ∈ s.images r.1
  idle : s.flush = none → rs = []
  flush : ∀ fl, s.flush = some fl → FlushStaged fl rs
  synced : ∀ fl, s.flush = some fl → fl.synced = true → s.synced = s.buffer.length

theorem dwInv_start (c : PathCodec Path) (disk : PageStore Path) :
    DwInv c (start disk) [] where
  disk := fun a => mem_cons_self
  buffer := rfl
  complete := nofun
  idle := fun _ => rfl
  flush := fun fl hfl => absurd hfl (by simp [start])
  synced := fun fl hfl => absurd hfl (by simp [start])

/-- Steps that touch frames only. -/
theorem dwInv_frames (h : DwInv c s rs) (frames : List (DwFrame Path)) :
    DwInv c { s with frames := frames } rs :=
  { h with }

variable [DecidableEq Path]

theorem mem_images_update {images : PageAddr Path → List PageImage} (a : PageAddr Path)
    {b : PageAddr Path} (image : PageImage) {x : PageImage} (h : x ∈ images b) :
    x ∈ update images a (image :: images a) b := by
  by_cases hb : b = a
  · rw [hb] at h ⊢
    rw [update_self]
    exact mem_cons_of_mem _ h
  · rw [update_of_ne hb]
    exact h

theorem dwInv_writePage (h : DwInv c s rs) (a : PageAddr Path) (image : PageImage) :
    DwInv c (s.writePage a image) rs := by
  refine { h with
    disk := fun b => ?_, complete := fun r hr => mem_images_update a image (h.complete r hr) }
  simp only [DwState.writePage]
  by_cases hb : b = a
  · rw [hb, update_self, update_self]
    exact mem_cons_self
  · rw [update_of_ne hb, update_of_ne hb]
    exact h.disk b

theorem dwInv_step {l : DwLabel Path} {s' : DwState Path} (h : DwInv c s rs)
    (hs : s.step c l = some s') : ∃ rs', DwInv c s' rs' := by
  cases l with
  | load | modify =>
    simp only [step] at hs
    split at hs
    all_goals cases hs
    exact ⟨rs, dwInv_frames h _⟩
  | evict a =>
    simp only [step] at hs
    split at hs
    · cases hs
    case h_2 f _ =>
      split at hs
      · cases hs
      split at hs
      all_goals cases hs
      · exact ⟨rs, dwInv_writePage (dwInv_frames h _) a f.image⟩
      · exact ⟨rs, dwInv_frames h _⟩
  | flushBegin =>
    simp only [step] at hs
    split at hs
    · cases hs
    case isFalse hno =>
      cases hs
      have hnone : s.flush = none := by
        cases hfl : s.flush with
        | none => rfl
        | some => exact absurd (.inl (by rw [hfl]; rfl)) hno
      have hrs := h.idle hnone
      subst hrs
      refine ⟨[], h.disk, h.buffer, h.complete, fun _ => rfl, ?_, ?_⟩
      · rintro _ ⟨⟩
        exact ⟨nofun, fun a ha => .inl ha, fun a ha => ha⟩
      · rintro _ ⟨⟩ hsync
        cases hsync
  | stage =>
    simp only [step] at hs
    split at hs
    case h_1 pinned a rest toWrite hfl =>
      split at hs
      · cases hs
      case h_2 f _ =>
        cases hs
        have hold := h.flush _ hfl
        refine ⟨rs ++ [(a, f.image)], fun b => mem_images_update a f.image (h.disk b), ?_, ?_,
          nofun, ?_, ?_⟩
        · simp [stagePage, h.buffer, stageRecords]
        · intro r hr
          rcases mem_append.mp hr with hr | hr
          · exact mem_images_update a f.image (h.complete r hr)
          · rw [mem_singleton.mp hr]
            simp only [stagePage, update_self]
            exact mem_cons_self
        · rintro _ ⟨⟩
          refine ⟨?_, ?_, fun b hb => hold.toStage b (mem_cons_of_mem _ hb)⟩
          · intro r hr
            rcases mem_append.mp hr with hr | hr
            · exact hold.pinned r hr
            · rw [mem_singleton.mp hr]
              exact hold.toStage a mem_cons_self
          · intro b hb
            rcases hold.staged b hb with hst | ⟨r, hr, hrb⟩
            · rcases mem_cons.mp hst with rfl | hst
              · exact .inr ⟨(b, f.image), mem_append_right _ mem_cons_self, rfl⟩
              · exact .inl hst
            · exact .inr ⟨r, mem_append_left _ hr, hrb⟩
        · rintro _ ⟨⟩ hsync
          cases hsync
    case h_2 => cases hs
  | sync =>
    simp only [step] at hs
    split at hs
    case h_1 pinned toWrite hfl =>
      cases hs
      have hold := h.flush _ hfl
      refine ⟨rs, h.disk, h.buffer, h.complete, nofun, ?_, fun _ _ _ => rfl⟩
      rintro _ ⟨⟩
      exact ⟨hold.pinned, hold.staged, hold.toStage⟩
    case h_2 => cases hs
  | flushWrite =>
    simp only [step] at hs
    split at hs
    case h_1 pinned a rest hfl =>
      split at hs
      · cases hs
      case h_2 f _ =>
        cases hs
        have hold := h.flush _ hfl
        have hw := dwInv_writePage h a f.image
        refine ⟨rs, hw.disk, hw.buffer, hw.complete, nofun, ?_, fun _ _ _ => h.synced _ hfl rfl⟩
        rintro _ ⟨⟩
        exact ⟨hold.pinned, fun b hb => hold.staged b (mem_cons_of_mem _ hb), hold.toStage⟩
    case h_2 => cases hs
  | reset =>
    simp only [step] at hs
    split at hs
    case h_1 =>
      cases hs
      exact ⟨[], h.disk, rfl, nofun, fun _ => rfl, nofun, nofun⟩
    case h_2 => cases hs

/-! ### Crashes -/

/-- What a crash leaves of the buffer: some of its records, and all of them while
    the pages are being written. -/
theorem crashBuffer_records (h : DwInv c s rs) {buffer : List UInt8} (hb : s.CrashBuffer c buffer) :
    ∃ rs' tail, (∀ r ∈ rs', r ∈ rs) ∧ Tail c tail ∧ buffer = stageRecords c rs' ++ tail ∧
      (∀ fl, s.flush = some fl → fl.synced = true → rs' = rs) := by
  rcases hb with ⟨n, hn, rfl⟩ | ⟨n, hn, rfl⟩
  · by_cases hfull : s.buffer.length ≤ n
    · refine ⟨rs, [], fun r hr => hr, .inl rfl, ?_, fun _ _ _ => rfl⟩
      rw [take_of_length_le hfull, h.buffer, append_nil]
    rcases take_stageRecords c rs n with ⟨rs', tail, hsub, htail, heq⟩
    refine ⟨rs', tail, hsub, htail, ?_, ?_⟩
    · rw [h.buffer]
      exact heq
    · intro fl hfl hsync
      have hs := h.synced fl hfl hsync
      omega
  · -- a record is being appended, so nothing is synced yet
    unfold DwState.appending at hn ⊢
    split at hn
    case h_1 pinned a rest toWrite hfl =>
      split at hn
      · exact absurd hn (Nat.not_lt_zero _)
      case h_2 f hf =>
        refine ⟨rs, (stageRecord c a f.image).take n, fun r hr => hr,
          .inr ⟨a, f.image, n, hn, rfl⟩, ?_, fun _ _ _ => rfl⟩
        rw [h.buffer]
    case h_2 => exact absurd hn (Nat.not_lt_zero _)

/-- The step whose write was cut short, if any, is one of `flush_all`. -/
def TornByFlush : Option (DwLabel Path) → Prop
  | none => True
  | some .flushWrite => True
  | some _ => False

/-- After a crash that tears no page, or one that `flush_all` was writing, recovery leaves in every
    page a complete image written to or staged for it. A page torn by an eviction stays as it is. -/
theorem double_write_protects (c : PathCodec Path) (disk₀ : PageStore Path)
    (ls : List (DwLabel Path)) (s : DwState Path)
    (hrun : runSteps (step c) (start disk₀) ls = some s)
    (torn : Option (DwLabel Path)) (disk : PageStore Path) (buffer : List UInt8)
    (hdisk : s.CrashDisk torn disk) (hbuffer : s.CrashBuffer c buffer) :
    ∃ disk', recover c buffer disk = .ok disk' ∧
      (TornByFlush torn → ∀ a, disk' a ∈ s.images a) ∧
      (∀ a, torn = some (.evict a) → disk' a = disk a) := by
  have hinv : ∃ rs, DwInv c s rs := by
    refine invariant_of_steps (step c) (fun s => ∃ rs, DwInv c s rs) ?_
      (start disk₀) s ls ⟨[], dwInv_start c disk₀⟩ hrun
    rintro s l _ ⟨rs, hs⟩ hstep
    exact dwInv_step hs hstep
  rcases hinv with ⟨_, h⟩
  rcases crashBuffer_records h hbuffer with ⟨rs', _, hsub, htail, heq, hall⟩
  refine ⟨applyRecords disk rs', ?_, ?_, ?_⟩
  · rw [heq]
    exact recover_records rs' htail disk
  · intro hflush a
    rcases applyRecords_spec rs' disk a with ⟨r, hr, ha, himage⟩ | ⟨hno, himage⟩
    · rw [himage, ← ha]
      exact h.complete r (hsub r hr)
    rw [himage]
    cases torn with
    | none =>
      have hd : disk = s.disk := hdisk
      rw [hd]
      exact h.disk a
    | some l =>
      cases l with
      | flushWrite =>
        rcases hdisk with ⟨b, image, mix, hwriting, _, hd⟩
        -- the torn page has a record, and the whole buffer is left
        simp only [writing] at hwriting
        split at hwriting
        case h_1 pinned b₀ rest hfl =>
          split at hwriting
          · cases hwriting
          simp only [some.injEq, Prod.mk.injEq] at hwriting
          rcases (h.flush _ hfl).staged b₀ mem_cons_self with hst | ⟨r, hr, hrb⟩
          · cases hst
          rw [hall _ hfl rfl] at hno
          rw [hd, update_of_ne
            (fun hab => hno r hr (hrb.trans (hwriting.1.trans hab.symm)))]
          exact h.disk a
        case h_2 => cases hwriting
      | _ => exact absurd hflush not_false
  · intro a htorn
    subst htorn
    rcases hdisk with ⟨_, _, _, hwriting, _, _⟩
    rcases applyRecords_spec rs' disk a with ⟨r, hr, ha, _⟩ | ⟨_, himage⟩
    · -- a page that can be evicted is not pinned, so it is not staged
      exfalso
      have hpinned : s.pinned a = false := by
        simp only [writing] at hwriting
        split at hwriting
        · cases hwriting
        · split at hwriting
          case isTrue hcond => exact hcond.1
          case isFalse => cases hwriting
      cases hfl : s.flush with
      | none =>
        rw [h.idle hfl] at hsub
        exact absurd (hsub r hr) not_mem_nil
      | some fl =>
        have hin := (h.flush fl hfl).pinned r (hsub r hr)
        rw [ha] at hin
        simp [pinned, hfl, hin] at hpinned
    · exact himage

/-- Paths of a database with one file. -/
def onePath : PathCodec Unit where
  bytes := fun _ => []
  parse := fun _ => some ()
  parse_bytes := fun _ => rfl
  short := fun _ => by decide

/-- A page of equal bytes. -/
def plainPage (b : UInt8) : PageImage := ⟨replicate pageSize b, length_replicate⟩

/-- A page whose first half is of one byte and whose second half of another. -/
def halfPage (b b' : UInt8) : PageImage :=
  ⟨replicate 4096 b ++ replicate 4096 b', by
    rw [length_append, length_replicate, length_replicate, pageSize]⟩

theorem halfPage_mixture (b b' : UInt8) : Mixture (plainPage b') (plainPage b) (halfPage b b') := by
  intro i
  simp only [halfPage, plainPage, pageSize, getElem?_append, length_replicate, getElem?_replicate]
  by_cases hi : i < 4096
  · rw [if_pos hi, if_pos hi, if_pos (by omega : i < 8192), if_pos (by omega : i < 8192)]
    exact .inr rfl
  rw [if_neg hi]
  by_cases hi' : i < 8192
  · rw [if_pos (by omega : i - 4096 < 4096), if_pos hi', if_pos hi']
    exact .inl rfl
  · rw [if_neg (by omega : ¬ i - 4096 < 4096), if_neg hi', if_neg hi']
    exact .inl rfl

theorem halfPage_ne (b b' : UInt8) (h : b ≠ b') :
    halfPage b b' ≠ plainPage b' ∧ halfPage b b' ≠ plainPage b := by
  constructor
  · -- the first byte
    intro heq
    have hbyte := congrArg (fun p : PageImage => p.val[0]?) heq
    simp only [halfPage, plainPage, pageSize, getElem?_append, length_replicate,
      getElem?_replicate] at hbyte
    rw [if_pos (by decide), if_pos (by decide), if_pos (by decide), some.injEq] at hbyte
    exact h hbyte
  · -- the last byte
    intro heq
    have hbyte := congrArg (fun p : PageImage => p.val[8191]?) heq
    simp only [halfPage, plainPage, pageSize, getElem?_append, length_replicate,
      getElem?_replicate] at hbyte
    rw [if_neg (by decide), if_pos (by decide), if_pos (by decide), some.injEq] at hbyte
    exact h hbyte.symm

/-- The state after page 0 is loaded and filled with ones. -/
def modifiedState : DwState Unit :=
  ⟨[⟨⟨(), 0⟩, plainPage 1, true⟩], fun _ => plainPage 0, [], 0, none, fun _ => [plainPage 0]⟩

/-- A flush of that page, torn in the middle of its write, is repaired. -/
theorem double_write_protects_flush :
    ∃ s, runSteps (step onePath) (start (fun _ => plainPage 0))
        [.load ⟨(), 0⟩, .modify ⟨(), 0⟩ (plainPage 1), .flushBegin, .stage, .sync] = some s ∧
      s.CrashDisk (some .flushWrite) (update s.disk ⟨(), 0⟩ (halfPage 1 0)) ∧
      ∃ disk', recover onePath s.buffer (update s.disk ⟨(), 0⟩ (halfPage 1 0)) =
          .ok disk' ∧ ∀ a, disk' a ∈ s.images a := by
  have hcrash : ({ stagePage onePath modifiedState ⟨(), 0⟩ (plainPage 1) with
      synced := (stageRecord onePath ⟨(), 0⟩ (plainPage 1)).length
      flush := some ⟨[⟨(), 0⟩], [], [⟨(), 0⟩], true⟩ } : DwState Unit).CrashDisk (some .flushWrite)
        (update (fun _ => plainPage 0) ⟨(), 0⟩ (halfPage 1 0)) :=
    ⟨⟨(), 0⟩, plainPage 1, halfPage 1 0, rfl, halfPage_mixture 1 0, rfl⟩
  refine ⟨_, rfl, hcrash, ?_⟩
  rcases double_write_protects onePath (fun _ => plainPage 0)
    [.load ⟨(), 0⟩, .modify ⟨(), 0⟩ (plainPage 1), .flushBegin, .stage, .sync] _ rfl
    (some .flushWrite) _ _ hcrash (.inl ⟨_, Nat.le_refl _, (take_length).symm⟩)
    with ⟨disk', hrec, hflush, _⟩
  exact ⟨disk', hrec, hflush trivial⟩

/-- Page 0 is filled with ones and evicted, and the crash cuts the write in the
    middle: after recovery the page is neither the old nor the new one. -/
theorem torn_eviction_stays :
    runSteps (step onePath) (start (fun _ => plainPage 0))
        [.load ⟨(), 0⟩, .modify ⟨(), 0⟩ (plainPage 1)] = some modifiedState ∧
      modifiedState.CrashDisk (some (.evict ⟨(), 0⟩))
        (update modifiedState.disk ⟨(), 0⟩ (halfPage 1 0)) ∧
      modifiedState.CrashBuffer onePath [] ∧
      ∃ disk', recover onePath [] (update modifiedState.disk ⟨(), 0⟩ (halfPage 1 0)) =
          .ok disk' ∧ disk' ⟨(), 0⟩ ≠ plainPage 1 ∧
        disk' ⟨(), 0⟩ ∉ modifiedState.images ⟨(), 0⟩ := by
  have hne := halfPage_ne 1 0 (by decide)
  refine ⟨rfl, ⟨⟨(), 0⟩, plainPage 1, halfPage 1 0, rfl, halfPage_mixture 1 0, rfl⟩,
    .inl ⟨0, Nat.le_refl _, rfl⟩, _, rfl, ?_, ?_⟩
  · rw [applyRecords, foldl_nil, update_self]
    exact hne.2
  · rw [applyRecords, foldl_nil, update_self]
    simp only [modifiedState, mem_singleton]
    exact hne.1

end ChibiDb
