import ChibiDb.Theory.DbInv

/-!
# Transaction Ids Across a Crash

Recovery rebuilds the next transaction id from the saved catalog and the log.
The catalog is saved by DDL, a checkpoint or VACUUM and the log is written at
commit, but the pool may write a page back at any time. A transaction that
began after the catalog was saved and has not committed leaves its id on such a
page and nowhere else: after a crash the id is handed out again, and the rows of
the dead transaction belong to the new one.

Ids are handed out fresh exactly as long as every crash finds each id on the
table pages covered by the saved catalog or by the log.

## Main definitions

* `Covered`: The saved catalog or the log accounts for every id on disk.
* `NewIdsFresh`: The next id is above every id on disk.

## Theorems

* `bounded_step`: Away from uncovered crashes no page holds an id still to be
  handed out.
* `new_ids_fresh_iff_covered`: The main result.
* `stolen_page_reuses_id`: A run that hands out the id of a dead transaction.
-/

namespace ChibiDb

open List Option

/-- The actions of a transaction that wrote nothing and commits. -/
def TrxAction.ends : TrxAction → Bool
  | .commitReadOnly => true
  | .commitCount => true
  | .commitMark => true
  | .commitFinish => true
  | _ => false

namespace IdReuse

/-- An id that recovery will not hand out: below the saved counter, or not above
    an id of the log. -/
def Accounted (s : Db) (id : Nat) : Prop := id < s.saved.nextTrxId ∨ ∃ e ∈ s.log, id ≤ e.1

instance (s : Db) (id : Nat) : Decidable (Accounted s id) :=
  inferInstanceAs (Decidable (_ ∨ _))

/-- The saved catalog or the log accounts for every id on disk. -/
def Covered (s : Db) : Prop :=
  ∀ v ∈ s.disk.versions, Accounted s v.creator ∧ (v.deleter ≠ 0 → Accounted s v.deleter)

instance (s : Db) : Decidable (Covered s) :=
  inferInstanceAs (Decidable (∀ v ∈ s.disk.versions, _ ∧ (v.deleter ≠ 0 → _)))

/-- A crash is met only when the ids on disk are covered. -/
def CrashesCovered (s : Db) (l : Label) : Prop := l = .crash → Covered s

instance (s : Db) (l : Label) : Decidable (CrashesCovered s l) :=
  inferInstanceAs (Decidable (_ → _))

/-- The id handed out next is above every creator id and every deleter id on
    the table pages on disk. -/
def NewIdsFresh (s : Db) : Prop :=
  ∀ v ∈ s.disk.versions,
    v.creator < s.tm.beginOpen.1 ∧ (v.deleter ≠ 0 → v.deleter < s.tm.beginOpen.1)

/-- The ids of a version are below a bound, and it has a creator. -/
structure Below (n : Nat) (v : Version) : Prop where
  creator_pos : 0 < v.creator
  creator_lt : v.creator < n
  deleter_lt : v.deleter < n

/-- The deleter an undo entry would restore. -/
def prevDeleter : Undo → Nat
  | .insert .. => 0
  | .deleteMark _ _ d _ => d
  | .update _ _ _ _ d _ => d

/-- No page and no undo entry holds an id that is still to be handed out. -/
structure Bounded (s : Db) : Prop where
  inv : Inv s
  mem : s.mem.All (Below s.tm.nextId)
  disk : s.disk.All (Below s.tm.nextId)
  undo : ∀ x ∈ s.trxs, ∀ u ∈ x.undo, prevDeleter u < s.tm.nextId

variable {s s' : Db}

/-- Where the ids of a stored version come from: it was there, or is new, or has another mark, the
    own id of the transaction or one that its undo list kept. -/
theorem slot_of_trxStep {x : Trx} {a : TrxAction} {f : Nat} {rid : Rid} {w : Version}
    (h : Db.TrxStep s x a s') (hw : s'.mem.get f rid = some w) :
    s.mem.get f rid = some w ∨ a.ends = false ∧
      ((x.phase = .running ∧ w.creator = x.id ∧ w.deleter = 0) ∨
        ∃ v, s.mem.get f rid = some v ∧ w.creator = v.creator ∧
          ((w.deleter = x.id ∧ (x.phase = .running ∨ x.pending ≠ none)) ∨
            ∃ u ∈ x.undo, prevDeleter u = w.deleter)) := by
  have hset : ∀ {g : Nat} {r : Rid} {o : Option Version},
      (s.mem.setSlot g r o).get f rid = some w →
      s.mem.get f rid = some w ∨ s.mem.get f rid = s.mem.get g r ∧ o = some w := by
    intro g r o hw
    rcases Heap.get_setSlot_cases hw with ⟨rfl, rfl, ho⟩ | ⟨_, hw⟩
    · exact .inr ⟨rfl, ho⟩
    · exact .inl hw
  cases h with
  | insert _ _ _ _ _ hph | updateInsert _ _ _ _ _ _ hph =>
    refine (hset hw).imp_right (fun hw => ⟨rfl, .inl ⟨hph, ?_⟩⟩)
    rw [← some.inj hw.2]
    exact ⟨rfl, rfl⟩
  | deleteMark _ _ v hph _ _ _ hv =>
    rcases hset hw with hw | ⟨hget, hw⟩
    · exact .inl hw
    · rw [← some.inj hw]
      exact .inr ⟨rfl, .inr ⟨v, hget.trans hv, rfl, .inl ⟨rfl, .inl hph⟩⟩⟩
  | updateMark _ v hp hv =>
    rcases hset hw with hw | ⟨hget, hw⟩
    · exact .inl hw
    · rw [← some.inj hw, hp]
      exact .inr ⟨rfl, .inr ⟨v, hget.trans hv, rfl, .inl ⟨rfl, .inr (some_ne_none _)⟩⟩⟩
  | undoInsert | undoUpdate => exact (hset hw).imp_right (fun hw => nomatch hw.2)
  | undoMark _ _ _ _ _ v _ hu hv =>
    rcases hset hw with hw | ⟨hget, hw⟩
    · exact .inl hw
    · rw [← some.inj hw, hu]
      exact .inr ⟨rfl, .inr ⟨v, hget.trans hv, rfl, .inr ⟨_, mem_cons_self, rfl⟩⟩⟩
  | _ => exact .inl hw

/-- The mark an undo entry keeps was kept before, or is on a page. -/
def Kept (s : Db) (x : Trx) (a : TrxAction) (u : Undo) : Prop :=
  (∃ o ∈ x.undo, prevDeleter o = prevDeleter u) ∨ a.ends = false ∧ (prevDeleter u = 0 ∨
    ∃ f rid v, s.mem.get f rid = some v ∧ v.deleter = prevDeleter u)

/-- The undo entries after a step were there before, or the step made them. -/
theorem undo_of_trxStep {x z : Trx} {a : TrxAction} (h : Db.TrxStep s x a s')
    (hz : z ∈ s'.trxs) : z ∈ s.trxs ∨ z.id = x.id ∧ ∀ u ∈ z.undo, Kept s x a u := by
  have hput : ∀ {y : Trx}, z ∈ (s.putTrx y).trxs → y.id = x.id → (∀ u ∈ y.undo, Kept s x a u) →
      z ∈ s.trxs ∨ z.id = x.id ∧ ∀ u ∈ z.undo, Kept s x a u := by
    intro y hz hid hu
    rcases s.mem_putTrx hz with rfl | ⟨hz, _⟩
    · exact .inr ⟨hid, hu⟩
    · exact .inl hz
  have hold : ∀ u ∈ x.undo, Kept s x a u := fun u hu => .inl ⟨u, hu, rfl⟩
  cases h with
  | insert =>
    exact hput hz rfl (forall_mem_cons.mpr ⟨.inr ⟨rfl, .inl rfl⟩, hold⟩)
  | deleteMark f rid v _ _ _ _ hv =>
    exact hput hz rfl (forall_mem_cons.mpr ⟨.inr ⟨rfl, .inr ⟨f, rid, v, hv, rfl⟩⟩, hold⟩)
  | updateMark u v _ hv =>
    exact hput hz rfl (forall_mem_cons.mpr ⟨.inr ⟨rfl, .inr ⟨_, _, v, hv, rfl⟩⟩, hold⟩)
  | undoInsert _ _ _ _ _ _ hu | undoMark _ _ _ _ _ _ _ hu =>
    rw [hu] at hold
    exact hput hz rfl (forall_mem_cons.mp hold).2
  | undoUpdate _ _ _ _ _ _ _ _ _ hu =>
    rw [hu] at hold
    have hrest := forall_mem_cons.mp hold
    exact hput hz rfl (forall_mem_cons.mpr ⟨hrest.1, hrest.2⟩)
  | removeOpen => exact .inl hz
  | finishRollback | commitFinish => exact .inl ((s.mem_dropTrx x.id z).mp hz).1
  | _ => exact hput hz rfl hold

/-- A transaction's step keeps every id in the store below the next one. -/
theorem bounded_trxStep {x : Trx} {a : TrxAction} (hb : Bounded s) (hx : x ∈ s.trxs)
    (h : Db.TrxStep s x a s') : Bounded s' := by
  have hid := hb.inv.trx_lt x hx
  have hpos := hb.inv.next_pos
  have hframe : s'.tm.nextId = s.tm.nextId ∧ s'.disk = s.disk := by
    cases h <;> exact ⟨rfl, rfl⟩
  refine ⟨hb.inv.trxStep hx h, ?_, ?_, ?_⟩
  · rw [hframe.1]
    intro f rid w hw
    rcases slot_of_trxStep h hw with hw | ⟨_, ⟨_, hc, hd⟩ | ⟨v, hv, hc, hd⟩⟩
    · exact hb.mem f rid w hw
    · exact ⟨hc ▸ hid.1, hc ▸ hid.2, hd ▸ hpos⟩
    refine ⟨hc ▸ (hb.mem f rid v hv).creator_pos, hc ▸ (hb.mem f rid v hv).creator_lt, ?_⟩
    rcases hd with ⟨hd, _⟩ | ⟨u, hu, hd⟩
    · exact hd ▸ hid.2
    · exact hd ▸ hb.undo x hx u hu
  · rw [hframe.1, hframe.2]
    exact hb.disk
  · rw [hframe.1]
    intro z hz u hu
    rcases undo_of_trxStep h hz with hz | ⟨_, hz⟩
    · exact hb.undo z hz u hu
    rcases hz u hu with ⟨o, ho, hd⟩ | ⟨_, hd | ⟨f, rid, v, hv, hd⟩⟩
    · exact hd ▸ hb.undo x hx o ho
    · exact hd ▸ hpos
    · exact hd ▸ (hb.mem f rid v hv).deleter_lt

/-- Redo writes only ids of the log, and recovery goes past all of those. -/
theorem below_redo (hi : Inv s) (h : Db.Reopened s s') (hdisk : s.disk.All (Below s'.tm.nextId)) :
    s'.mem.All (Below s'.tm.nextId) := by
  have hlog : ∀ r ∈ redoRecords s.log, ∃ t, 0 < t ∧ t < s'.tm.nextId ∧ r.WrittenBy t := by
    intro r hr
    rcases ((mem_redoRecords_iff s.log r).mp hr).2 with ⟨t, ht, _⟩
    refine ⟨t, (hi.log_lt _ ht).1, ?_, hi.log_ok _ ht⟩
    rw [h.tm, Db.lt_nextId_recoveredTm_iff]
    exact .inr (.inr ⟨_, ht, Nat.le_refl _⟩)
  refine Db.redo_invariant (Heap.All (Below s'.tm.nextId)) s.disk hdisk ?_ h.mem
  intro _ _ r hr hg hone
  rcases hlog r hr with ⟨t, hpos, ht, hw⟩
  cases Db.redoOne_cases hone with
  | skip => exact hg
  | fill =>
    refine Heap.all_setSlot _ _ hg ?_
    rintro _ ⟨⟩
    exact ⟨hw.1.symm ▸ hpos, hw.1.symm ▸ ht, by rw [hw.2]; omega⟩
  | mark _ hv =>
    refine Heap.all_setSlot _ _ hg ?_
    rintro _ ⟨⟩
    exact ⟨(hg _ _ _ hv).creator_pos, (hg _ _ _ hv).creator_lt, hw.symm ▸ ht⟩

/-- After a reopen the next id is above exactly the ids accounted for. -/
theorem accounted_iff (h : Db.Reopened s s') {id : Nat} (hid : id ≠ 0) :
    id < s'.tm.nextId ↔ Accounted s id := by
  rw [h.tm, Db.lt_nextId_recoveredTm_iff]
  unfold Accounted
  simp [hid]

/-- Every step whose crashes are covered keeps the bound. -/
theorem bounded_step {l : Label} (hb : Bounded s) (hok : CrashesCovered s l)
    (h : s.step l = some s') : Bounded s' := by
  have hi' := hb.inv.step h
  cases Db.step_cases h with
  | begin hv =>
    have hmono : ∀ v, Below s.tm.nextId v → Below (s.tm.nextId + 1) v :=
      fun v hv => ⟨hv.creator_pos, Nat.lt_succ_of_lt hv.creator_lt,
        Nat.lt_succ_of_lt hv.deleter_lt⟩
    refine ⟨hi', fun f rid v hg => hmono v (hb.mem f rid v hg),
      fun f rid v hg => hmono v (hb.disk f rid v hg), ?_⟩
    intro x hx u hu
    rcases mem_cons.mp hx with rfl | hx
    · cases hu
    · exact Nat.lt_succ_of_lt (hb.undo x hx u hu)
  | trx _ _ _ _ hx hstep => exact bounded_trxStep hb hx hstep
  | writeBack => exact ⟨hi', hb.mem, Heap.all_copyPage _ _ hb.disk hb.mem, hb.undo⟩
  | createTable =>
    have hempty : ∀ p ∈ ([[]] : List Page), p = [] := fun p hp => mem_singleton.mp hp
    exact ⟨hi', Heap.all_setFile _ hempty hb.mem, Heap.all_setFile _ hempty hb.disk, hb.undo⟩
  | dropTable =>
    have hempty : ∀ p ∈ ([] : List Page), p = [] := nofun
    exact ⟨hi', Heap.all_setFile _ hempty hb.mem, Heap.all_setFile _ hempty hb.disk, hb.undo⟩
  | vacuumDelete =>
    exact ⟨hi', Heap.all_clearSlot _ _ hb.mem, hb.disk, hb.undo⟩
  | vacuumUnmark f rid _ v _ hv =>
    refine ⟨hi', Heap.all_setSlot _ _ hb.mem ?_, hb.disk, hb.undo⟩
    rintro _ ⟨⟩
    exact ⟨(hb.mem f rid v hv).creator_pos, (hb.mem f rid v hv).creator_lt, hb.inv.next_pos⟩
  | crash s' hre =>
    have hr := Db.reopened_of_reopen hre
    have hcov := hok rfl
    have hdisk : s.disk.All (Below s'.tm.nextId) := by
      rw [Heap.all_iff_versions]
      intro v hv
      have hlt : ∀ id, (id ≠ 0 → Accounted s id) → id < s'.tm.nextId := by
        intro id hid
        by_cases h0 : id = 0
        · rw [h0]
          exact hi'.next_pos
        · exact (accounted_iff hr h0).mpr (hid h0)
      exact ⟨((Heap.all_iff_versions _ s.disk).mp hb.disk v hv).creator_pos,
        hlt _ (fun _ => (hcov v hv).1), hlt _ (hcov v hv).2⟩
    refine ⟨hi', below_redo hb.inv hr hdisk, hr.disk.symm ▸ hdisk, ?_⟩
    simp [hr.trxs]
  | _ => exact ⟨hi', hb.mem, hb.disk, hb.undo⟩

/-- The empty store is bounded. -/
theorem bounded_fresh (inlineLimit : Nat) : Bounded (Db.fresh inlineLimit) where
  inv := Inv.fresh inlineLimit
  mem := Heap.all_nil _
  disk := Heap.all_nil _
  undo := nofun

/-- Within the bound, no new id is on the disk. -/
theorem newIdsFresh_of_bounded (hb : Bounded s) : NewIdsFresh s := by
  intro v hv
  have hbelow := (Heap.all_iff_versions _ s.disk).mp hb.disk v hv
  exact ⟨hbelow.creator_lt, fun _ => hbelow.deleter_lt⟩

/-- In every run whose crashes all find the ids on disk covered, the next id is above every id on
    disk at every moment, and a further crash keeps it so exactly if it finds them covered too. -/
theorem new_ids_fresh_iff_covered (inlineLimit : Nat) (ls : List Label) (s : Db)
    (hrun : runSteps Db.step (Db.fresh inlineLimit) ls = some s)
    (hok : Meets Db.step CrashesCovered (Db.fresh inlineLimit) ls) :
    NewIdsFresh s ∧ ∀ s', s.step .crash = some s' → (NewIdsFresh s' ↔ Covered s) := by
  have hb : Bounded s := invariant_of_meets Db.step CrashesCovered Bounded
    (fun s l s' hb hok h => bounded_step hb hok h) _ _ ls (bounded_fresh inlineLimit) hok hrun
  refine ⟨newIdsFresh_of_bounded hb, ?_⟩
  intro _ hcrash
  have hr := Db.reopened_of_reopen hcrash
  constructor
  · intro hfresh v hv
    have hlt := hfresh v (hr.disk.symm ▸ hv)
    refine ⟨?_, fun hd => (accounted_iff hr hd).mp (hlt.2 hd)⟩
    by_cases h0 : v.creator = 0
    · rw [h0]
      exact .inl hb.inv.saved_pos
    · exact (accounted_iff hr h0).mp hlt.1
  · intro hcov
    exact newIdsFresh_of_bounded (bounded_step hb (fun _ => hcov) hcrash)

/-- A table is created, and a transaction commits a row to it. -/
def committedRow : List Label :=
  [.begin, .createTable 1 .row, .trx 1 .commitReadOnly, .trx 1 .commitCount, .trx 1 .commitMark,
    .trx 1 .commitFinish,
    .begin, .trx 2 (.insert 0 1 [.int 7]), .trx 2 .commitAppend, .trx 2 .commitRecord]

/-- A run with a committed row written back meets the condition. -/
theorem new_ids_fresh_committed_row :
    ∃ s, runSteps Db.step (Db.fresh 255) (committedRow ++ [.writeBack 0 1, .crash]) = some s ∧
      s.disk.versions ≠ [] ∧ NewIdsFresh s := by
  have hrun : ∃ s, runSteps Db.step (Db.fresh 255)
      (committedRow ++ [.writeBack 0 1, .crash]) = some s ∧ s.disk.versions ≠ [] := by
    refine ⟨_, rfl, ?_⟩
    decide
  rcases hrun with ⟨s, hs, hne⟩
  exact ⟨s, hs, hne, (new_ids_fresh_iff_covered 255 _ s hs (by decide)).1⟩

/-- The page of a transaction that has not committed is evicted and the process
    dies. The id of the dead transaction is handed out again. -/
theorem stolen_page_reuses_id :
    ∃ s, runSteps Db.step (Db.fresh 255)
      [.begin, .createTable 1 .row, .trx 1 .commitReadOnly, .trx 1 .commitCount,
        .trx 1 .commitMark, .trx 1 .commitFinish, .begin, .trx 2 (.insert 0 1 [.int 7]),
        .writeBack 0 1, .crash] = some s ∧
      s.disk.versions = [⟨2, 0, 0, [.int 7]⟩] ∧ s.tm.beginOpen.1 = 2 ∧ ¬ NewIdsFresh s := by
  refine ⟨_, rfl, rfl, rfl, ?_⟩
  intro hfresh
  exact absurd (hfresh ⟨2, 0, 0, [.int 7]⟩ (by decide)).1 (by decide)

end IdReuse

end ChibiDb
