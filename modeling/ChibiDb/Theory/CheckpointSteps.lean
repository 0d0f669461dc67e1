import ChibiDb.Core.Checkpoint

/-!
# What Transactions and Checkpoints Do to the Books

The steps of `Checkpointing` as an inductive relation, and what holds of the
open set, the commit bits and the log in every run. A transaction is in the
open set until it rolls back or has set its commit bit; a commit frame in the
log belongs to a transaction that has its bit or is on its way to it; and a
transaction that runs CHECKPOINT does nothing else.

## Main definitions

* `WriterStep`, `Step`: The steps of one transaction, and of the system.
* `Bumped`: The transactions the commit counter has counted.
* `Coherent`: The invariant.

## Theorems

* `step_cases`: A step of the system is a `Step`.
* `Coherent.step`: Every step keeps the invariant.
-/

namespace ChibiDb


open List hiding isEmpty_iff
open Option hiding or_self

/-- In the log with its commit frame and not yet in the commit bits. -/
def Writer.Pending (x : Writer) : Prop :=
  x.phase = .logged ∨ x.phase = .synced ∨ x.phase = .counted

namespace Checkpointing

/-- What a step of a transaction needs and what it leads to. -/
inductive WriterStep (s : Checkpointing) (x : Writer) : WriterAction → Checkpointing → Prop where
  | write (page : Nat) (wrote : Bool)
      (h : (x.phase = .running ∧ s.busy x.id = false) ∨ x.phase = .aborting) :
      WriterStep s x (.write page wrote) { s.putWriter { x with wrote := wrote } with
        writes := ⟨x.id, page, s.writes.length⟩ :: s.writes }
  | appendFrames (hph : x.phase = .running) (hw : x.wrote = true) (hb : s.busy x.id = false) :
      WriterStep s x .appendFrames
        { s.putWriter { x with phase := .appended } with log := s.log ++ [.rows x.id] }
  | appendCommit (hph : x.phase = .appended) :
      WriterStep s x .appendCommit
        { s.putWriter { x with phase := .logged } with log := s.log ++ [.commit x.id] }
  | sync (hph : x.phase = .logged) :
      WriterStep s x .sync (s.putWriter { x with phase := .synced })
  | count (h : x.phase = .synced ∨
      (x.phase = .running ∧ x.wrote = false ∧ s.busy x.id = false)) :
      WriterStep s x .count
        { s.putWriter { x with phase := .counted } with tm := s.tm.bumpCommits }
  | mark (hph : x.phase = .counted) :
      WriterStep s x .mark
        { s.putWriter { x with phase := .marked } with tm := s.tm.markCommitted x.id }
  | leave (hph : x.phase = .marked) :
      WriterStep s x .leave { s.dropWriter x.id with tm := s.tm.removeOpen x.id }
  | rollback (hph : x.phase = .running) (hb : s.busy x.id = false) :
      WriterStep s x .rollback
        { s.putWriter { x with phase := .aborting } with tm := s.tm.removeOpen x.id }
  | finishRollback (hph : x.phase = .aborting) :
      WriterStep s x .finishRollback (s.dropWriter x.id)

variable {a : WriterAction} {s s' : Checkpointing} {x y : Writer}

/-- A writer's step is one of the listed cases. -/
theorem writerStep_cases (h : s.writerStep x a = some s') : WriterStep s x a s' := by
  cases a <;>
    simp only [writerStep, ite_some_none_eq_some, Bool.not_eq_true] at h <;>
    rcases h with ⟨hg, rfl⟩
  case appendFrames => exact .appendFrames hg.1 hg.2.1 hg.2.2
  case rollback => exact .rollback hg.1 hg.2
  all_goals
    constructor
    exact hg

/-- What a step needs and what it leads to. -/
inductive Step (s : Checkpointing) : CheckpointLabel → Checkpointing → Prop where
  | begin : Step s .begin { s with
      tm := s.tm.beginOpen.2, writers := ⟨s.tm.nextId, .running, false⟩ :: s.writers }
  | trx (x : Writer) (a : WriterAction) (s' : Checkpointing) (hx : x ∈ s.writers)
      (h : WriterStep s x a s') : Step s (.trx x.id a) s'
  | writeBack (page : Nat) : Step s (.writeBack page)
      { s with disk := s.writes.filter (fun w => w.page = page) ++ s.disk }
  | guardCall (h : s.tm.openSet = []) : Step s (.guard none) { s with callers := s.callers + 1 }
  | guardStatement (x : Writer) (hx : x ∈ s.writers) (hph : x.phase = .running)
      (hw : x.wrote = false) (hb : s.busy x.id = false) :
      Step s (.guard (some x.id)) { s with statements := x.id :: s.statements }
  | lockCall (hf : s.flush = none) : Step s (.lock none)
      { s with callers := s.callers - 1, flush := some ⟨none, .locked⟩ }
  | lockStatement (id : Nat) (hf : s.flush = none) (hid : id ∈ s.statements) :
      Step s (.lock (some id)) { s with
        statements := s.statements.filter (fun i => i ≠ id), flush := some ⟨some id, .locked⟩ }
  | readCount (ex : Option Nat) (hf : s.flush = some ⟨ex, .locked⟩) :
      Step s (.flush .readCount) (s.setStage ex (.counted s.tm.commits))
  | flushStart (ex : Option Nat) (c : Nat) (hf : s.flush = some ⟨ex, .counted c⟩) :
      Step s (.flush .flushStart) (s.setStage ex (.flushing c s.writes))
  | flushEnd (ex : Option Nat) (c : Nat) (due : List PageWrite)
      (hf : s.flush = some ⟨ex, .flushing c due⟩) (h : ∀ w ∈ due, w ∈ s.disk) :
      Step s (.flush .flushEnd) (s.setStage ex (.flushed c))
  | readNextId (ex : Option Nat) (c : Nat) (hf : s.flush = some ⟨ex, .flushed c⟩) :
      Step s (.flush .readNextId) (s.setStage ex (.nextIdRead c s.tm.nextId))
  | readBase (ex : Option Nat) (c n : Nat) (hf : s.flush = some ⟨ex, .nextIdRead c n⟩) :
      Step s (.flush .readBase) (s.setStage ex (.baseRead c n s.tm.committed.base))
  | readIds (ex : Option Nat) (c n b : Nat) (hf : s.flush = some ⟨ex, .baseRead c n b⟩) :
      Step s (.flush .readIds) (s.setStage ex (.idsRead c n b s.tm.committed.marked))
  | writeCatalog (ex : Option Nat) (c n b : Nat) (ids : List Nat)
      (hf : s.flush = some ⟨ex, .idsRead c n b ids⟩) :
      Step s (.flush .writeCatalog) { s.setStage ex (.saved c) with saved := ⟨n, b, ids⟩ }
  | finish (ex : Option Nat) (c : Nat) (hf : s.flush = some ⟨ex, .saved c⟩) :
      Step s (.flush .finish)
        { s with log := if s.truncates then [] else s.log, flush := none }

theorem mem_of_writer {id : Nat} (h : s.writer id = some x) : x ∈ s.writers ∧ x.id = id :=
  mem_of_find_key h

/-- A step is one of the listed cases. -/
theorem step_cases {l : CheckpointLabel} (h : s.step l = some s') : Step s l s' := by
  cases l with
  | begin =>
    cases h
    exact .begin
  | trx id a =>
    simp only [step] at h
    cases hx : s.writer id with
    | none => simp only [hx, reduceCtorEq] at h
    | some x =>
      simp only [hx] at h
      rcases mem_of_writer hx with ⟨hmem, rfl⟩
      exact .trx x a s' hmem (writerStep_cases h)
  | writeBack page =>
    cases h
    exact .writeBack page
  | guard exclude =>
    cases exclude with
    | none =>
      simp only [step, TransactionManager.noOpenTransactions, List.isEmpty_iff,
        ite_some_none_eq_some] at h
      rcases h with ⟨ho, rfl⟩
      exact .guardCall ho
    | some id =>
      simp only [step] at h
      split at h
      · cases h
      · next x hx =>
        simp only [ite_some_none_eq_some, Bool.not_eq_true] at h
        rcases h with ⟨⟨hph, hw, hb, _⟩, rfl⟩
        rcases mem_of_writer hx with ⟨hmem, rfl⟩
        exact .guardStatement x hmem hph hw hb
  | lock exclude =>
    cases exclude with
    | none =>
      rcases ite_some_none_eq_some.mp h with ⟨⟨hf, _⟩, rfl⟩
      exact .lockCall hf
    | some id =>
      rcases ite_some_none_eq_some.mp h with ⟨⟨hf, hid⟩, rfl⟩
      exact .lockStatement id hf hid
  | flush =>
    simp only [step] at h
    split at h
    · cases h
    · next c hf =>
      rcases c with ⟨ex, _⟩
      dsimp only at h
      unfold flushStep at h
      split at h
      case h_3 =>
        rw [ite_none_right_eq_some] at h
        rw [← some.inj h.2]
        exact .flushEnd ex _ _ hf h.1
      case h_9 => cases h
      all_goals
        rw [← some.inj h]
        constructor
        exact hf

theorem mem_putWriter (s : Checkpointing) :
    y ∈ (s.putWriter x).writers → y = x ∨ (y ∈ s.writers ∧ y.id ≠ x.id) :=
  mem_map_put

theorem mem_putWriter_self (s : Checkpointing) (hx : x ∈ s.writers) (hid : y.id = x.id) :
    y ∈ (s.putWriter y).writers :=
  mem_map.mpr ⟨x, hx, if_pos hid.symm⟩

theorem mem_putWriter_of_ne (s : Checkpointing) {z : Writer} (hz : z ∈ s.writers)
    (hid : z.id ≠ y.id) : z ∈ (s.putWriter y).writers :=
  mem_map.mpr ⟨z, hz, if_neg hid⟩

theorem map_id_putWriter (s : Checkpointing) (x : Writer) :
    (s.putWriter x).writers.map (fun y => y.id) = s.writers.map (fun y => y.id) :=
  map_map_put

theorem mem_dropWriter (s : Checkpointing) (id : Nat) (y : Writer) :
    y ∈ (s.dropWriter id).writers ↔ y ∈ s.writers ∧ y.id ≠ id := by
  simp [dropWriter]

/-- The commit counter has counted the transaction. -/
def Bumped (s : Checkpointing) (id : Nat) : Prop :=
  s.tm.committed.isCommitted id = true ∨ ∃ x ∈ s.writers, x.id = id ∧ x.phase = .counted

/-- One transaction and the books. -/
structure WriterOk (s : Checkpointing) (x : Writer) : Prop where
  pos : 0 < x.id
  lt : x.id < s.tm.nextId
  opened : x.id ∈ s.tm.openSet ↔ x.phase ≠ .aborting
  status : s.tm.committed.isCommitted x.id = true ↔ x.phase = .marked

/-- The books agree with the transactions and the log. -/
structure Coherent (s : Checkpointing) : Prop where
  pos : 0 < s.tm.nextId
  ids : (s.writers.map (fun x => x.id)).Nodup
  committedLt : ∀ t, s.tm.committed.isCommitted t = true → t < s.tm.nextId
  openOf : ∀ t ∈ s.tm.openSet, ∃ x ∈ s.writers, x.id = t
  trx : ∀ x ∈ s.writers, s.WriterOk x
  /-- A CHECKPOINT statement does nothing else. -/
  idle : ∀ x ∈ s.writers, s.busy x.id = true → x.phase = .running ∧ x.wrote = false
  busy : ∀ id, s.busy id = true → ∃ x ∈ s.writers, x.id = id
  apart : ∀ c id, s.flush = some c → c.exclude = some id → id ∉ s.statements
  log : ∀ id, .commit id ∈ s.log →
    s.Bumped id ∨ ∃ x ∈ s.writers, x.id = id ∧ (x.phase = .logged ∨ x.phase = .synced)

theorem eq_of_id (h : Coherent s) (hx : x ∈ s.writers) (hy : y ∈ s.writers) (hid : x.id = y.id) :
    x = y :=
  inj_on_of_nodup_map h.ids hx hy hid

namespace Coherent

/-- A commit record in the log is of a committed id or of a pending writer. -/
theorem of_log (h : Coherent s) {id : Nat} (hlog : .commit id ∈ s.log) :
    s.tm.committed.isCommitted id = true ∨ ∃ x ∈ s.writers, x.id = id ∧ x.Pending := by
  rcases h.log id hlog with (hc | ⟨x, hx, hid, hph⟩) | ⟨x, hx, hid, hph⟩
  · exact .inl hc
  · exact .inr ⟨x, hx, hid, .inr (.inr hph)⟩
  · exact .inr ⟨x, hx, hid, hph.elim .inl (fun h => .inr (.inl h))⟩

theorem log_of (s : Checkpointing) (id : Nat)
    (h : s.tm.committed.isCommitted id = true ∨ ∃ x ∈ s.writers, x.id = id ∧ x.Pending) :
    s.Bumped id ∨ ∃ x ∈ s.writers, x.id = id ∧ (x.phase = .logged ∨ x.phase = .synced) := by
  rcases h with hc | ⟨x, hx, hid, hph | hph | hph⟩
  · exact .inl (.inl hc)
  · exact .inr ⟨x, hx, hid, .inl hph⟩
  · exact .inr ⟨x, hx, hid, .inr hph⟩
  · exact .inl (.inr ⟨x, hx, hid, hph⟩)

/-- One transaction becomes `y`. -/
theorem put (h : Coherent s) (hx : x ∈ s.writers) (hwriters : s'.writers = (s.putWriter y).writers)
    (hid : y.id = x.id) (hnext : s'.tm.nextId = s.tm.nextId) (hflush : s'.flush = s.flush)
    (hstatements : s'.statements = s.statements) (hcl : ∀ t, t ≠ x.id →
      (s'.tm.committed.isCommitted t = true ↔ s.tm.committed.isCommitted t = true))
    (hopen : ∀ t, t ≠ x.id → (t ∈ s'.tm.openSet ↔ t ∈ s.tm.openSet))
    (hown : x.id ∈ s'.tm.openSet ↔ y.phase ≠ .aborting)
    (hstatus : s'.tm.committed.isCommitted x.id = true ↔ y.phase = .marked)
    (hnew : ∀ id, .commit id ∈ s'.log → .commit id ∈ s.log ∨ (id = x.id ∧ y.Pending))
    (hidle : s.busy x.id = true → y.phase = .running ∧ y.wrote = false)
    (hkeep : x.Pending → y.Pending ∨ y.phase = .marked)
    (hmarked : x.phase = .marked → y.phase = .marked) : Coherent s' := by
  have hy : y ∈ s'.writers := by
    rw [hwriters]
    exact s.mem_putWriter_self hx hid
  have hother : ∀ z ∈ s.writers, z.id ≠ x.id → z ∈ s'.writers := by
    intro z hz hne
    rw [hwriters]
    exact s.mem_putWriter_of_ne hz (hid.symm ▸ hne)
  have hcases : ∀ z ∈ s'.writers, z = y ∨ (z ∈ s.writers ∧ z.id ≠ x.id) := by
    intro z hz
    rw [hwriters] at hz
    exact (s.mem_putWriter hz).imp_right (fun h => ⟨h.1, hid ▸ h.2⟩)
  have hbusy : ∀ id, s'.busy id = s.busy id := by
    intro id
    unfold Checkpointing.busy
    rw [hflush, hstatements]
  have hthere : ∀ z ∈ s.writers, ∃ z' ∈ s'.writers, z'.id = z.id := by
    intro z hz
    by_cases hzx : z.id = x.id
    · exact ⟨y, hy, hid.trans hzx.symm⟩
    · exact ⟨z, hother z hz hzx, rfl⟩
  have hok := h.trx x hx
  constructor
  case pos => exact hnext ▸ h.pos
  case ids =>
    rw [hwriters, map_id_putWriter]
    exact h.ids
  case committedLt =>
    intro t ht
    rw [hnext]
    by_cases htx : t = x.id
    · rw [htx]
      exact hok.lt
    · exact h.committedLt t ((hcl t htx).mp ht)
  case openOf =>
    intro t ht
    by_cases htx : t = x.id
    · exact ⟨y, hy, hid.trans htx.symm⟩
    · rcases h.openOf t ((hopen t htx).mp ht) with ⟨z, hz, rfl⟩
      exact hthere z hz
  case trx =>
    intro z hz
    rcases hcases z hz with rfl | ⟨hz, hne⟩
    · exact ⟨hid ▸ hok.pos, hid ▸ hnext ▸ hok.lt, hid ▸ hown, hid ▸ hstatus⟩
    · have hzok := h.trx z hz
      exact ⟨hzok.pos, hnext ▸ hzok.lt, (hopen z.id hne).trans hzok.opened,
        (hcl z.id hne).trans hzok.status⟩
  case idle =>
    intro z hz hb
    rw [hbusy] at hb
    rcases hcases z hz with rfl | ⟨hz, _⟩
    · exact hidle (hid ▸ hb)
    · exact h.idle z hz hb
  case busy =>
    intro id hb
    rw [hbusy] at hb
    rcases h.busy id hb with ⟨z, hz, rfl⟩
    exact hthere z hz
  case apart =>
    rw [hflush, hstatements]
    exact h.apart
  case log =>
    intro id hin
    apply log_of
    by_cases hidx : id = x.id
    · rw [hidx] at hin ⊢
      have hpend : y.Pending ∨ y.phase = .marked := by
        rcases hnew _ hin with hold | ⟨_, hp⟩
        · rcases h.of_log hold with hc | ⟨z, hz, hzid, hp⟩
          · exact .inr (hmarked (hok.status.mp hc))
          · rw [eq_of_id h hz hx hzid] at hp
            exact hkeep hp
        · exact .inl hp
      rcases hpend with hp | hm
      · exact .inr ⟨y, hy, hid, hp⟩
      · exact .inl (hstatus.mpr hm)
    · rcases hnew id hin with hold | ⟨he, _⟩
      · rcases h.of_log hold with hc | ⟨z, hz, rfl, hp⟩
        · exact .inl ((hcl id hidx).mpr hc)
        · exact .inr ⟨z, hother z hz hidx, rfl, hp⟩
      · exact absurd he hidx

/-- A transaction goes away, and had left the open set or leaves it now. -/
theorem drop {tm : TransactionManager} (h : Coherent s) (hx : x ∈ s.writers)
    (hnext : tm.nextId = s.tm.nextId) (hcommitted : tm.committed = s.tm.committed)
    (hopen : ∀ t, t ∈ tm.openSet ↔ t ∈ s.tm.openSet ∧ t ≠ x.id)
    (hph : x.phase = .marked ∨ x.phase = .aborting) :
    Coherent { s.dropWriter x.id with tm := tm } := by
  have hmem := s.mem_dropWriter x.id
  have hnot : ∀ z ∈ s.writers, z.Pending → z.id ≠ x.id := by
    intro z hz hp hid
    rw [eq_of_id h hz hx hid] at hp
    unfold Writer.Pending at hp
    rcases hph with hph | hph <;>
      simp [hph] at hp
  refine { h with
    pos := hnext ▸ h.pos, ids := h.ids.sublist (filter_sublist.map _)
    committedLt := ?lt, openOf := ?openOf, trx := ?trx, busy := ?busy, log := ?log
    idle := fun z hz hb => h.idle z ((hmem z).mp hz).1 hb }
  case lt =>
    rw [hcommitted, hnext]
    exact h.committedLt
  case openOf =>
    intro t ht
    rcases (hopen t).mp ht with ⟨ht, hne⟩
    rcases h.openOf t ht with ⟨z, hz, rfl⟩
    exact ⟨z, (hmem z).mpr ⟨hz, hne⟩, rfl⟩
  case trx =>
    intro z hz
    rcases (hmem z).mp hz with ⟨hz, hne⟩
    have hzok := h.trx z hz
    refine ⟨hzok.pos, hnext ▸ hzok.lt, ?_, hcommitted ▸ hzok.status⟩
    rw [hopen, ← hzok.opened]
    exact ⟨fun ht => ht.1, fun ht => ⟨ht, hne⟩⟩
  case busy =>
    intro id hb
    rcases h.busy id hb with ⟨z, hz, rfl⟩
    refine ⟨z, (hmem z).mpr ⟨hz, fun hid => ?_⟩, rfl⟩
    rw [hid] at hb
    rw [(h.idle x hx hb).1] at hph
    exact absurd hph (by simp)
  case log =>
    intro _ hin
    apply log_of
    rcases h.of_log hin with hc | ⟨z, hz, hzid, hp⟩
    · exact .inl (hcommitted ▸ hc)
    · exact .inr ⟨z, (hmem z).mpr ⟨hz, hnot z hz hp⟩, hzid, hp⟩

/-- A checkpoint moves on; transactions and books stay. -/
theorem same {log : List LogFrame} {saved : SavedIds} {callers : Nat} {statements : List Nat}
    {flush : Option FlushInner} (h : Coherent s) (hlog : ∀ f ∈ log, f ∈ s.log)
    (hbusy : ∀ id, { s with statements := statements, flush := flush }.busy id = true →
      s.busy id = true ∨ ∃ x ∈ s.writers, x.id = id ∧ x.phase = .running ∧ x.wrote = false)
    (hapart : ∀ c id, flush = some c → c.exclude = some id → id ∉ statements) :
    Coherent { s with
      log := log, saved := saved, callers := callers, statements := statements
      flush := flush } := by
  refine { h with
    trx := fun x hx => { h.trx x hx with }, log := fun id hin => h.log id (hlog _ hin)
    idle := ?idle, busy := ?busy, apart := hapart }
  case idle =>
    intro x hx hb
    rcases hbusy x.id hb with hb | ⟨y, hy, hid, hidle⟩
    · exact h.idle x hx hb
    · rw [← eq_of_id h hy hx hid]
      exact hidle
  case busy =>
    intro id hb
    rcases hbusy id hb with hb | ⟨y, hy, hid, _⟩
    · exact h.busy id hb
    · exact ⟨y, hy, hid⟩

/-- A commit moves on: neither the commit bits nor the open set change. -/
theorem advance {q : CommitPhase} (h : Coherent s) (hx : x ∈ s.writers)
    (hwriters : s'.writers = (s.putWriter { x with phase := q }).writers)
    (hnext : s'.tm.nextId = s.tm.nextId) (hcommitted : s'.tm.committed = s.tm.committed)
    (hopen : s'.tm.openSet = s.tm.openSet) (hflush : s'.flush = s.flush)
    (hstatements : s'.statements = s.statements)
    (hnew : ∀ id, .commit id ∈ s'.log → .commit id ∈ s.log ∨
      (id = x.id ∧ (q = .logged ∨ q = .synced ∨ q = .counted))) (hbusy : s.busy x.id = false)
    (hp : x.phase ≠ .aborting ∧ x.phase ≠ .marked) (hq : q ≠ .aborting ∧ q ≠ .marked)
    (hkeep : x.Pending → q = .logged ∨ q = .synced ∨ q = .counted) : Coherent s' := by
  have hok := h.trx x hx
  refine h.put hx hwriters rfl hnext hflush hstatements ?_ ?_ ?_ ?_ hnew ?_
    (fun hpend => .inl (hkeep hpend)) (fun hm => absurd hm hp.2)
  · intro t _
    rw [hcommitted]
  · intro _ _
    rw [hopen]
  · rw [hopen, hok.opened]
    exact ⟨fun _ => hq.1, fun _ => hp.1⟩
  · rw [hcommitted, hok.status]
    exact ⟨fun hm => absurd hm hp.2, fun hm => absurd hm hq.2⟩
  · intro hb
    cases hbusy.symm.trans hb

/-- A writer's step keeps coherence. -/
theorem writerStep (h : Coherent s) (hx : x ∈ s.writers) (hs : WriterStep s x a s') :
    Coherent s' := by
  have hok := h.trx x hx
  have hremoved : ∀ t, t ∈ (s.tm.removeOpen x.id).openSet ↔ t ∈ s.tm.openSet ∧ t ≠ x.id := by
    simp [TransactionManager.removeOpen]
  have hactive : s.busy x.id = true → x.phase = .running := fun hb => (h.idle x hx hb).1
  have hidle : x.phase ≠ .running → s.busy x.id = false := by
    intro hne
    rw [← Bool.not_eq_true]
    exact fun hb => hne (hactive hb)
  cases hs with
  | write _ _ hg =>
    refine h.put hx rfl rfl rfl rfl rfl (fun _ _ => Iff.rfl) (fun _ _ => Iff.rfl)
      hok.opened hok.status (fun _ h => .inl h) ?_ .inl id
    intro hb
    rcases hg with ⟨_, hg⟩ | hg
    · cases hg.symm.trans hb
    · exact absurd (hg.symm.trans (hactive hb)) nofun
  | appendFrames hph _ hb =>
    refine h.advance hx rfl rfl rfl rfl rfl rfl ?_ hb ?_ ?_ ?_
    · intro id hin
      rcases mem_append.mp hin with hin | hin
      · exact .inl hin
      · exact absurd (mem_singleton.mp hin) nofun
    · simp [hph]
    · simp
    · intro hp
      simp [Writer.Pending, hph] at hp
  | appendCommit hph =>
    refine h.advance hx rfl rfl rfl rfl rfl rfl ?_ (hidle ?_) ?_ ?_ ?_
    · intro _ hin
      rcases mem_append.mp hin with hin | hin
      · exact .inl hin
      · exact .inr ⟨LogFrame.commit.inj (mem_singleton.mp hin), .inl rfl⟩
    · simp [hph]
    · simp [hph]
    · simp
    · exact fun _ => .inl rfl
  | sync hph =>
    refine h.advance hx rfl rfl rfl rfl rfl rfl (fun _ hin => .inl hin) (hidle ?_) ?_ ?_ ?_
    · simp [hph]
    · simp [hph]
    · simp
    · exact fun _ => .inr (.inl rfl)
  | count hg =>
    refine h.advance hx rfl rfl rfl rfl rfl rfl (fun _ hin => .inl hin) ?_ ?_ ?_ ?_
    · rcases hg with hph | ⟨_, _, hb⟩
      · exact hidle (hph.trans_ne nofun)
      · exact hb
    · rcases hg with hph | ⟨hph, _⟩ <;>
        simp [hph]
    · simp
    · exact fun _ => .inr (.inr rfl)
  | mark hph =>
    refine h.put hx rfl rfl rfl rfl rfl ?_ (fun _ _ => Iff.rfl) ?_ ?_
      (fun _ hin => .inl hin) ?_ (fun _ => .inr rfl) (fun _ => rfl)
    · intro t hne
      rw [TransactionManager.markCommitted, Clog.isCommitted_mark]
      exact ⟨fun hc => hc.resolve_right (fun hx => hne hx.1), .inl⟩
    · refine hok.opened.trans ?_
      simp [hph]
    · rw [TransactionManager.markCommitted, Clog.isCommitted_mark]
      exact ⟨fun _ => rfl, fun _ => .inr ⟨rfl, Nat.pos_iff_ne_zero.mp hok.pos⟩⟩
    · intro hb
      exact absurd (hph.symm.trans (hactive hb)) nofun
  | leave hph =>
    exact h.drop hx rfl rfl hremoved (.inl hph)
  | rollback hph hb =>
    refine h.put hx rfl rfl rfl rfl rfl (fun _ _ => Iff.rfl)
      (fun t hne => (hremoved t).trans (and_iff_left hne)) ?_ ?_ (fun _ hin => .inl hin) ?_ ?_ ?_
    · simp [hremoved]
    · refine hok.status.trans ?_
      simp [hph]
    · intro hbt
      cases hb.symm.trans hbt
    · intro hp
      simp [Writer.Pending, hph] at hp
    · intro hm
      exact absurd (hph.symm.trans hm) nofun
  | finishRollback hph =>
    refine h.drop hx rfl rfl ?_ (.inr hph)
    intro _
    refine ⟨fun ht => ⟨ht, fun hid => ?_⟩, fun ht => ht.1⟩
    rw [hid] at ht
    exact hok.opened.mp ht hph

/-- Beginning keeps coherence. -/
theorem begin (h : Coherent s) :
    Coherent { s with
      tm := s.tm.beginOpen.2, writers := ⟨s.tm.nextId, .running, false⟩ :: s.writers } := by
  have hne : ∀ x ∈ s.writers, x.id ≠ s.tm.nextId := fun x hx => Nat.ne_of_lt (h.trx x hx).lt
  have hopen : ∀ t, t ∈ s.tm.beginOpen.2.openSet ↔ t = s.tm.nextId ∨ t ∈ s.tm.openSet :=
    fun t => mem_insert_iff
  constructor
  case pos => exact Nat.succ_pos _
  case ids =>
    rw [map_cons, nodup_cons]
    refine ⟨fun hin => ?_, h.ids⟩
    rcases mem_map.mp hin with ⟨x, hx, hid⟩
    exact hne x hx hid
  case committedLt => exact fun t ht => Nat.lt_succ_of_lt (h.committedLt t ht)
  case openOf =>
    intro t ht
    rcases (hopen t).mp ht with rfl | ht
    · exact ⟨_, mem_cons_self, rfl⟩
    · rcases h.openOf t ht with ⟨x, hx, hid⟩
      exact ⟨x, mem_cons_of_mem _ hx, hid⟩
  case trx =>
    intro x hx
    rcases mem_cons.mp hx with rfl | hx
    · refine ⟨h.pos, Nat.lt_succ_self _, ?_, ?_⟩
      · simp [hopen]
      · refine ⟨fun hc => ?_, fun hm => CommitPhase.noConfusion hm⟩
        exact absurd (h.committedLt _ hc) (Nat.lt_irrefl _)
    · have hok := h.trx x hx
      refine ⟨hok.pos, Nat.lt_succ_of_lt hok.lt, ?_, hok.status⟩
      rw [hopen, ← hok.opened]
      exact ⟨fun ht => ht.resolve_left (hne x hx), .inr⟩
  case idle => exact forall_mem_cons.mpr ⟨fun _ => ⟨rfl, rfl⟩, h.idle⟩
  case busy =>
    intro id hb
    rcases h.busy id hb with ⟨x, hx, hid⟩
    exact ⟨x, mem_cons_of_mem _ hx, hid⟩
  case apart => exact h.apart
  case log =>
    intro _ hin
    apply log_of
    rcases h.of_log hin with hc | ⟨x, hx, hrest⟩
    · exact .inl hc
    · exact .inr ⟨x, mem_cons_of_mem _ hx, hrest⟩

/-- The checkpoint that holds the lock goes on. -/
theorem setStage (h : Coherent s) {ex : Option Nat} {st st' : FlushStage} {saved : SavedIds}
    (hf : s.flush = some ⟨ex, st⟩) : Coherent { s.setStage ex st' with saved := saved } := by
  refine h.same (fun _ hf => hf) (fun id hb => .inl ?_) ?_
  · unfold Checkpointing.busy at hb ⊢
    rw [hf]
    exact hb
  · intro _ id hc hex
    rw [← some.inj hc] at hex
    exact h.apart ⟨ex, st⟩ id hf hex

/-- Every step keeps coherence. -/
theorem step (s' : Checkpointing) (l : CheckpointLabel) (h : Coherent s)
    (hstep : s.step l = some s') : Coherent s' := by
  cases step_cases hstep with
  | begin => exact h.begin
  | trx _ _ _ hx hs => exact h.writerStep hx hs
  | writeBack | guardCall => exact { h with trx := fun x hx => { h.trx x hx with } }
  | guardStatement x hx hph hw hb =>
    refine h.same (fun _ hf => hf) (fun id hbusy => ?_) (fun c id hc hex hin => ?_)
    · simp only [Checkpointing.busy, Bool.or_eq_true, decide_eq_true_eq, mem_cons] at hbusy ⊢
      rcases hbusy with (rfl | hin) | hex
      · exact .inr ⟨x, hx, rfl, hph, hw⟩
      · exact .inl (.inl hin)
      · exact .inl (.inr hex)
    · rcases mem_cons.mp hin with rfl | hin
      · have hc' : s.flush = some c := hc
        simp [Checkpointing.busy, hc', hex] at hb
      · exact h.apart c id hc hex hin
  | lockCall hf =>
    refine h.same (fun _ hf => hf) (fun id hbusy => ?_) (fun c id hc hex => ?_)
    · simp only [Checkpointing.busy, any_some, reduceCtorEq, decide_false, Bool.or_false] at hbusy
      refine .inl ?_
      rw [Checkpointing.busy, hbusy, Bool.true_or]
    · rw [← some.inj hc] at hex
      cases hex
  | lockStatement _ hf hid =>
    refine h.same (fun _ hf => hf) (fun i hbusy => .inl ?_) (fun c i hc hex => ?_)
    · simp only [Checkpointing.busy, any_some, Bool.or_eq_true, decide_eq_true_eq,
        mem_filter, some.injEq] at hbusy ⊢
      rcases hbusy with hin | rfl
      · exact .inl hin.1
      · exact .inl hid
    · rw [← some.inj hc] at hex
      cases hex
      simp
  | readCount _ hf | flushStart _ _ hf | flushEnd _ _ _ hf | readNextId _ _ hf
  | readBase _ _ _ hf | readIds _ _ _ _ hf | writeCatalog _ _ _ _ _ hf =>
    exact h.setStage hf
  | finish _ c hf =>
    refine h.same (fun f hf => ?_) (fun id hb => .inl ?_) nofun
    · split at hf
      · cases hf
      · exact hf
    · simp only [Checkpointing.busy, any_none, Bool.or_false] at hb
      rw [Checkpointing.busy, hb, Bool.true_or]

end Coherent

end Checkpointing

end ChibiDb
