import ChibiDb.Theory.CheckpointSteps

/-!
# Cutting the Log While Transactions Commit

A committer moves the commit counter first, then sets its commit bit, then
leaves the open set. A checkpoint that reads the counter after the first of
these and the commit bits before the second has a catalog without that
transaction; if the transaction then leaves in time, the checkpoint finds
nothing open and the counter where it was, and cuts the log with the
transaction's commit frame in it.

Nothing else can go wrong. The pages of everyone the counter has counted are on
disk, and a transaction that has not moved the counter is still open.

## Main definitions

* `StageOk`: What a checkpoint has read, and what has happened since.
* `Blocked`: The checkpoint under way will not cut the log.
* `MarkOk`: A commit bit that no checkpoint under way has missed.
* `CommitsKept`: What has to hold when the log is cut.
* `Doomed`: A checkpoint that has missed a commit and can still cut the log.
* `Ready`: The states runs start from.

## Theorems

* `StagesOk.step`: What holds of a checkpoint in every run.
* `Complete.step`: What holds as long as no bit is missed.
* `leads_to_loss`: A missed bit can be followed by a cut that loses it.
* `truncation_keeps_commits_of_markOk`: The main result.
-/

namespace ChibiDb

open List
open Option hiding or_self
open TransactionManager (markCommitted new removeOpen)

/-- Between its first frame in the log and the commit counter. -/
def Writer.committing (x : Writer) : Bool :=
  x.phase = .appended ∨ x.phase = .logged ∨ x.phase = .synced

/-- The commit count a checkpoint started from. -/
def FlushStage.commits : FlushStage → Option Nat
  | .locked => none
  | .counted c => some c
  | .flushing c _ => some c
  | .flushed c => some c
  | .nextIdRead c _ => some c
  | .baseRead c _ _ => some c
  | .idsRead c _ _ _ => some c
  | .saved c => some c

/-- A catalog says that a transaction has committed. -/
def SavedIds.Records (cat : SavedIds) (id : Nat) : Prop :=
  id ≠ 0 ∧ (id < cat.clogBase ∨ id ∈ cat.committedTrxs)

namespace Checkpointing

/-- The page writes the checkpoint has or will have seen to. -/
def pages (s : Checkpointing) : FlushStage → Option (List PageWrite)
  | .locked => none
  | .counted _ => none
  | .flushing _ due => some due
  | _ => some s.disk

/-- The catalog the checkpoint saves. -/
def catalog (s : Checkpointing) : FlushStage → Option SavedIds
  | .idsRead _ n b ids => some ⟨n, b, ids⟩
  | .saved _ => some s.saved
  | _ => none

/-- The writes of every transaction the counter has counted are among `ws`. -/
def Covered (s : Checkpointing) (ws : List PageWrite) : Prop :=
  ∀ w ∈ s.writes, s.Bumped w.trx → w ∈ ws

/-- What a checkpoint has read, and what has happened since. -/
structure StageOk (s : Checkpointing) (st : FlushStage) : Prop where
  le : ∀ c ∈ st.commits, c ≤ s.tm.commits
  covered : ∀ c ∈ st.commits, s.tm.commits = c → ∀ ws ∈ s.pages st, s.Covered ws
  base : ∀ c n b, st = .baseRead c n b → b = s.tm.committed.base
  catalog : ∀ cat ∈ s.catalog st, cat.clogBase = s.tm.committed.base ∧
    ∀ t ∈ cat.committedTrxs, t ∈ s.tm.committed.marked

/-- What holds of the checkpoint under way. -/
def StagesOk (s : Checkpointing) : Prop := ∀ c, s.flush = some c → s.StageOk c.stage

/-- The checkpoint that is under way will not cut the log: a transaction that
    is committing will move the counter before it leaves, and a CHECKPOINT
    statement waits for the lock with its transaction open. -/
def Blocked (s : Checkpointing) : Prop :=
  (∃ y ∈ s.writers, y.committing = true) ∨ s.statements ≠ []

/-- The catalog has every commit of the log, or the log is not cut. -/
def Complete (s : Checkpointing) : Prop :=
  ∀ c, s.flush = some c → ∀ n ∈ c.stage.commits, s.tm.commits = n →
    ∀ cat ∈ s.catalog c.stage, ∀ id, .commit id ∈ s.log →
      s.tm.committed.isCommitted id = true → cat.Records id ∨ s.Blocked

/-- What the steps of transactions do to what a checkpoint relies on. -/
structure Drift (s s' : Checkpointing) : Prop where
  flush : s'.flush = s.flush
  statements : s'.statements = s.statements
  saved : s'.saved = s.saved
  base : s'.tm.committed.base = s.tm.committed.base
  marked : ∀ t ∈ s.tm.committed.marked, t ∈ s'.tm.committed.marked
  commits : s.tm.commits ≤ s'.tm.commits
  bumped : s'.tm.commits = s.tm.commits → ∀ id, s'.Bumped id → s.Bumped id
  writes : ∀ w ∈ s'.writes, s'.Bumped w.trx → w ∈ s.writes
  disk : ∀ w ∈ s.disk, w ∈ s'.disk

variable {t : Nat} {a : WriterAction} {s s' : Checkpointing} {x : Writer} {st : FlushStage}
  {ex : Option Nat} {l : CheckpointLabel}
variable {id : Nat}

theorem mem_catalog {cat : SavedIds} (hc : cat ∈ s'.catalog st) (h : s'.saved = s.saved) :
    cat ∈ s.catalog st := by
  cases st with
  | saved =>
    rw [Checkpointing.catalog, h] at hc
    exact hc
  | _ => exact hc

theorem mem_marked_mark {c : Clog} (x : Nat) (h : t ∈ c.marked) :
    t ∈ (c.markCommitted x).marked := by
  unfold Clog.markCommitted
  split
  · exact h
  · exact mem_insert_of_mem h

theorem base_mark (c : Clog) (x : Nat) : (c.markCommitted x).base = c.base := by
  unfold Clog.markCommitted
  split <;> rfl

/-- Whoever a step of `x` counts as bumped was so before, or is `x` in its new state. -/
theorem bumped_put {y : Writer} (h : s'.Bumped id) (hwriters : s'.writers = (s.putWriter y).writers)
    (hcommitted : s'.tm.committed = s.tm.committed) (hph : y.phase ≠ .counted) : s.Bumped id := by
  rcases h with hc | ⟨z, hz, hzid, hph'⟩
  · exact .inl (hcommitted ▸ hc)
  rw [hwriters] at hz
  rcases s.mem_putWriter hz with rfl | ⟨hz, _⟩
  · exact absurd hph' hph
  · exact .inr ⟨z, hz, hzid, hph'⟩

/-- Neither the pages nor what has been counted and marked changes. -/
theorem Drift.of_bumped (hflush : s'.flush = s.flush) (hstatements : s'.statements = s.statements)
    (hsaved : s'.saved = s.saved) (hclog : s'.tm.committed = s.tm.committed)
    (hcommits : s'.tm.commits = s.tm.commits) (hbumped : ∀ id, s'.Bumped id → s.Bumped id)
    (hwrites : s'.writes = s.writes) (hdisk : s'.disk = s.disk) : Drift s s' :=
  ⟨hflush, hstatements, hsaved, by rw [hclog], fun t ht => hclog ▸ ht, Nat.le_of_eq hcommits.symm,
    fun _ => hbumped, fun w hw _ => hwrites ▸ hw, fun w hw => hdisk ▸ hw⟩

theorem drift_of_step (h : Coherent s) (hx : x ∈ s.writers) (hs : WriterStep s x a s') :
    Drift s s' := by
  have hok := h.trx x hx
  cases hs with
  | write page wrote hg =>
    have hne : x.phase ≠ .counted ∧ x.phase ≠ .marked := by
      rcases hg with ⟨hg, _⟩ | hg <;>
        simp [hg]
    refine ⟨rfl, rfl, rfl, rfl, fun _ ht => ht, Nat.le_refl _, fun _ _ hb =>
      bumped_put hb rfl rfl hne.1, fun w hw hbw => ?_, fun _ hw => hw⟩
    rcases mem_cons.mp hw with rfl | hw
    · -- A transaction the counter has counted writes no more.
      rcases bumped_put hbw rfl rfl hne.1 with hc | ⟨z, hz, hzid, hph⟩
      · exact absurd (hok.status.mp hc) hne.2
      · rw [eq_of_id h hz hx hzid] at hph
        exact absurd hph hne.1
    · exact hw
  | appendFrames | appendCommit | sync | rollback =>
    exact .of_bumped rfl rfl rfl rfl rfl
      (fun _ hb => bumped_put hb rfl rfl nofun) rfl rfl
  | count =>
    refine ⟨rfl, rfl, rfl, rfl, fun _ ht => ht, Nat.le_succ _, fun heq => ?_, fun _ hw _ => hw,
      fun _ hw => hw⟩
    exact absurd heq (Nat.succ_ne_self _)
  | mark hph =>
    refine ⟨rfl, rfl, rfl, base_mark _ _, fun t ht => mem_marked_mark _ ht, Nat.le_refl _,
      fun _ id hbump => ?_, fun _ hw _ => hw, fun _ hw => hw⟩
    rcases hbump with hc | ⟨z, hz, hzid, hzph⟩
    · rw [markCommitted, Clog.isCommitted_mark] at hc
      rcases hc with hc | ⟨rfl, _⟩
      · exact .inl hc
      · exact .inr ⟨x, hx, rfl, hph⟩
    · rcases s.mem_putWriter hz with rfl | ⟨hz, _⟩
      · cases hzph
      · exact .inr ⟨z, hz, hzid, hzph⟩
  | _ =>
    refine .of_bumped rfl rfl rfl rfl rfl (fun id hbump => ?_) rfl rfl
    rcases hbump with hc | ⟨z, hz, hrest⟩
    · exact .inl hc
    · exact .inr ⟨z, ((s.mem_dropWriter x.id z).mp hz).1, hrest⟩

theorem drift_begin (s : Checkpointing) :
    Drift s { s with
      tm := s.tm.beginOpen.2, writers := ⟨s.tm.nextId, .running, false⟩ :: s.writers } := by
  refine .of_bumped rfl rfl rfl rfl rfl (fun _ h => ?_) rfl rfl
  rcases h with hc | ⟨z, hz, hzid, hph⟩
  · exact .inl hc
  · rcases mem_cons.mp hz with rfl | hz
    · exact absurd hph nofun
    · exact .inr ⟨z, hz, hzid, hph⟩

theorem drift_writeBack (s : Checkpointing) (page : Nat) :
    Drift s { s with disk := s.writes.filter (fun w => w.page = page) ++ s.disk } :=
  ⟨rfl, rfl, rfl, rfl, fun _ ht => ht, Nat.le_refl _, fun _ _ hb => hb, fun _ hw _ => hw,
    fun _ hw => mem_append_right _ hw⟩

namespace StageOk

theorem drift (h : s.StageOk st) (hd : Drift s s') : s'.StageOk st := by
  constructor
  case le => exact fun c hc => Nat.le_trans (h.le c hc) hd.commits
  case covered =>
    intro c hc heq ws hws w hw hbump
    have hsame : s.tm.commits = c := Nat.le_antisymm (heq ▸ hd.commits) (h.le c hc)
    have hcov : ∀ ws' ∈ s.pages st, w ∈ ws' := by
      intro ws' hws'
      exact h.covered c hc hsame ws' hws' w (hd.writes w hw hbump)
        (hd.bumped (heq.trans hsame.symm) _ hbump)
    cases st with
    | locked | counted => simp [pages, mem_def] at hws
    | flushing => exact hcov ws hws
    | _ =>
      rw [← some.inj hws]
      exact hd.disk w (hcov s.disk rfl)
  case base =>
    intro c n b hst
    rw [hd.base]
    exact h.base c n b hst
  case catalog =>
    intro cat hc
    have hc := mem_catalog hc hd.saved
    rw [hd.base]
    exact ⟨(h.catalog cat hc).1, fun t ht => hd.marked t ((h.catalog cat hc).2 t ht)⟩

/-- The checkpoint goes on and nothing else changes. -/
theorem next {st' : FlushStage} {saved : SavedIds} (h : s.StageOk st)
    (hcommits : st'.commits = st.commits)
    (hpages : ∀ ws' ∈ s.pages st', ∃ ws ∈ s.pages st, ∀ w ∈ ws, w ∈ ws')
    (hbase : ∀ c n b, st' = .baseRead c n b → b = s.tm.committed.base)
    (hcat : ∀ cat ∈ ({ s with saved := saved } : Checkpointing).catalog st',
      cat.clogBase = s.tm.committed.base ∧ ∀ t ∈ cat.committedTrxs, t ∈ s.tm.committed.marked) :
    StageOk { s.setStage ex st' with saved := saved } st' := by
  refine ⟨hcommits ▸ h.le, fun c hc heq ws' hws' w hw hbump => ?_, hbase,
    fun cat hc => hcat cat (mem_catalog hc rfl)⟩
  · rw [hcommits] at hc
    rcases hpages ws' (by cases st' <;> exact hws') with ⟨ws, hws, hsub⟩
    exact hsub w (h.covered c hc heq ws hws w hw hbump)

theorem locked (s : Checkpointing) : s.StageOk .locked where
  le := nofun
  covered := nofun
  base := nofun
  catalog := nofun

end StageOk

namespace StagesOk

theorem drift (h : StagesOk s) (hd : Drift s s') : StagesOk s' := by
  intro c hc
  rw [hd.flush] at hc
  exact (h c hc).drift hd

theorem at_stage (hf : s.flush = some ⟨ex, st⟩) (h : s.StageOk st) : StagesOk s := by
  intro _ hc
  cases hf.symm.trans hc
  exact h

theorem step (hc : Coherent s) (h : StagesOk s) (hstep : s.step l = some s') : StagesOk s' := by
  cases step_cases hstep with
  | begin => exact h.drift (drift_begin s)
  | trx _ _ _ hx hs => exact h.drift (drift_of_step hc hx hs)
  | writeBack page => exact h.drift (drift_writeBack s page)
  | lockCall | lockStatement => exact at_stage rfl (StageOk.locked _)
  | readCount =>
    refine at_stage rfl ⟨fun c hin => ?_, nofun, nofun, nofun⟩
    rw [← some.inj hin]
    exact Nat.le_refl _
  | flushStart _ c hf =>
    refine at_stage rfl ⟨(h _ hf).le, fun _ _ _ ws hws w hw _ => ?_, nofun, nofun⟩
    rw [← some.inj hws]
    exact hw
  | flushEnd _ c due hf hd =>
    refine at_stage rfl ((h _ hf).next rfl (fun ws' hws' => ?_) nofun nofun)
    rw [← some.inj hws']
    exact ⟨due, rfl, hd⟩
  | readNextId _ c hf =>
    exact at_stage rfl ((h _ hf).next rfl (fun ws' hws' => ⟨ws', hws', fun _ => id⟩) nofun nofun)
  | readBase _ _ _ hf =>
    refine at_stage rfl ((h _ hf).next rfl (fun ws' hws' => ⟨ws', hws', fun _ => id⟩)
      (fun c' n' b hst => ?_) nofun)
    injection hst with _ _ hb
    exact hb.symm
  | readIds _ c n b hf =>
    refine at_stage rfl ((h _ hf).next rfl (fun ws' hws' => ⟨ws', hws', fun _ => id⟩) nofun
      (fun cat hcat => ?_))
    rw [← some.inj hcat]
    exact ⟨(h _ hf).base c n b rfl, fun t ht => ht⟩
  | writeCatalog _ c n b ids hf =>
    refine at_stage rfl ((h _ hf).next rfl (fun ws' hws' => ⟨ws', hws', fun _ => id⟩) nofun
      (fun cat hcat => ?_))
    rw [← some.inj hcat]
    exact (h _ hf).catalog ⟨n, b, ids⟩ rfl
  | finish _ c =>
    exact nofun
  | _ => exact fun c hf => ⟨(h c hf).le, (h c hf).covered, (h c hf).base, (h c hf).catalog⟩

end StagesOk

/-- A commit bit is set for a transaction with its commit frame in the log: no
    checkpoint under way has already read the commit bits, or the counter has
    moved since it read it, or it will not cut the log for another reason. -/
def MarkOk (s : Checkpointing) : CheckpointLabel → Prop
  | .trx id .mark => .commit id ∈ s.log → ∀ c ∈ s.flush, ∀ n ∈ c.stage.afterIds,
      s.tm.commits ≠ n ∨ s.Blocked
  | _ => True

instance (s : Checkpointing) : Decidable s.Blocked := by
  unfold Blocked
  infer_instance

instance (s : Checkpointing) (l : CheckpointLabel) : Decidable (MarkOk s l) := by
  unfold MarkOk
  split <;> infer_instance

theorem afterIds_iff (s : Checkpointing) (st : FlushStage) (n : Nat) :
    n ∈ st.afterIds ↔ n ∈ st.commits ∧ ∃ cat, cat ∈ s.catalog st := by
  cases st with
  | idsRead | saved =>
    exact ⟨fun h => ⟨h, _, rfl⟩, fun h => h.1⟩
  | _ =>
    simp [FlushStage.afterIds, Checkpointing.catalog]

/-- Whoever is committing is still doing so, or has moved the counter. -/
theorem blocked_of_step (h : Coherent s) (hx : x ∈ s.writers) (hs : WriterStep s x a s')
    (hsame : s'.tm.commits = s.tm.commits) (hb : s.Blocked) : s'.Blocked := by
  have hd := drift_of_step h hx hs
  rcases hb with ⟨y, hy, hcom⟩ | hstmt
  · refine .inl ?_
    have hput : ∀ z, s'.writers = (s.putWriter z).writers → z.id = x.id →
        (y = x → z.committing = true) → ∃ y ∈ s'.writers, y.committing = true := by
      intro z hwriters hid hz
      rw [hwriters]
      by_cases hyx : y.id = x.id
      · exact ⟨z, s.mem_putWriter_self hx hid, hz (eq_of_id h hy hx hyx)⟩
      · exact ⟨y, s.mem_putWriter_of_ne hy (hid.symm ▸ hyx), hcom⟩
    have hnot : x.committing = false → y ≠ x := by
      intro hno hyx
      rw [hyx, hno] at hcom
      cases hcom
    have hdrop : s'.writers = (s.dropWriter x.id).writers → x.committing = false →
        ∃ y ∈ s'.writers, y.committing = true := by
      intro hwriters hno
      rw [hwriters]
      refine ⟨y, (s.mem_dropWriter x.id y).mpr ⟨hy, fun hid => ?_⟩, hcom⟩
      exact hnot hno (eq_of_id h hy hx hid)
    cases hs with
    | write => exact hput _ rfl rfl (fun hyx => hyx ▸ hcom)
    | appendFrames | appendCommit | sync => exact hput _ rfl rfl (fun _ => rfl)
    | count => exact absurd hsame (Nat.succ_ne_self _)
    | mark hph | rollback hph =>
      refine hput _ rfl rfl (fun hyx => absurd hyx (hnot ?_))
      simp [Writer.committing, hph]
    | leave hph | finishRollback hph =>
      refine hdrop rfl ?_
      simp [Writer.committing, hph]
  · exact .inr (hd.statements ▸ hstmt)

/-- A commit in the log that counts after a step: it did so before, or its bit has just been set. -/
theorem committed_of_step (h : Coherent s) (hx : x ∈ s.writers) (hs : WriterStep s x a s')
    (hlog : .commit id ∈ s'.log) (hc : s'.tm.committed.isCommitted id = true) :
    .commit id ∈ s.log ∧ (s.tm.committed.isCommitted id = true ∨ (id = x.id ∧ a = .mark)) := by
  have hok := h.trx x hx
  cases hs with
  | appendFrames =>
    refine ⟨?_, .inl hc⟩
    rcases mem_append.mp hlog with hlog | hnew
    · exact hlog
    · exact absurd (mem_singleton.mp hnew) nofun
  | appendCommit hph =>
    refine ⟨?_, .inl hc⟩
    rcases mem_append.mp hlog with hlog | hnew
    · exact hlog
    · rw [LogFrame.commit.inj (mem_singleton.mp hnew)] at hc
      exact absurd (hph.symm.trans (hok.status.mp hc)) nofun
  | mark =>
    refine ⟨hlog, ?_⟩
    rw [markCommitted, Clog.isCommitted_mark] at hc
    exact hc.imp_right (fun hx => ⟨hx.1, rfl⟩)
  | _ => exact ⟨hlog, .inl hc⟩

namespace Complete

theorem trx (hco : Coherent s) (hst : StagesOk s) (h : Complete s) (hx : x ∈ s.writers)
    (hs : WriterStep s x a s') (hok : MarkOk s (.trx x.id a)) : Complete s' := by
  have hd := drift_of_step hco hx hs
  intro c hc n hn heq cat hcat id hlog hcom
  rw [hd.flush] at hc
  -- The counter moves only forward, so it was unmoved before.
  have hold : s.tm.commits = n := Nat.le_antisymm (heq ▸ hd.commits) ((hst c hc).le n hn)
  have hsame : s'.tm.commits = s.tm.commits := heq.trans hold.symm
  have hcat := mem_catalog hcat hd.saved
  rcases committed_of_step hco hx hs hlog hcom with ⟨hlog, hcom | ⟨rfl, rfl⟩⟩
  · exact (h c hc n hn hold cat hcat id hlog hcom).imp_right (blocked_of_step hco hx hs hsame)
  have hafter : n ∈ c.stage.afterIds := (afterIds_iff s c.stage n).mpr ⟨hn, cat, hcat⟩
  rcases hok hlog c hc n hafter with hne | hb
  · exact absurd hold hne
  · exact .inr (blocked_of_step hco hx hs hsame hb)

theorem step (hco : Coherent s) (hst : StagesOk s) (h : Complete s) (hok : MarkOk s l)
    (hstep : s.step l = some s') : Complete s' := by
  -- Before the commit bits are read there is nothing to show.
  have hearly : ∀ t : Checkpointing, (∀ c, t.flush = some c → t.catalog c.stage = none) →
      Complete t := by
    intro _ hnone c hc n _ _ cat hcat
    rw [hnone c hc] at hcat
    simp [mem_def] at hcat
  have hstage : ∀ ex st, s.catalog st = none → Complete (s.setStage ex st) := by
    intro ex st hnone
    apply hearly
    intro c hc
    rw [← some.inj hc]
    cases st with
    | saved => simp [Checkpointing.catalog] at hnone
    | _ => exact hnone
  cases step_cases hstep with
  | begin =>
    intro c hc n hn heq cat hcat id hlog hcom
    refine (h c hc n hn heq cat (mem_catalog hcat rfl) id hlog hcom).imp_right (fun hb => ?_)
    rcases hb with ⟨y, hy, hcom⟩ | hstmt
    · exact .inl ⟨y, mem_cons_of_mem _ hy, hcom⟩
    · exact .inr hstmt
  | trx _ _ _ hx hs => exact h.trx hco hst hx hs hok
  | writeBack | guardCall => exact h
  | guardStatement =>
    intro c hc n hn heq cat hcat id hlog hcom
    exact (h c hc n hn heq cat (mem_catalog hcat rfl) id hlog hcom).imp_right
      (fun _ => .inr (cons_ne_nil _ _))
  | lockCall | lockStatement =>
    apply hearly
    intro c hc
    rw [← some.inj hc]
    rfl
  | readCount ex | flushStart ex | flushEnd ex | readNextId ex | readBase ex =>
    exact hstage ex _ rfl
  | readIds _ c n b hf =>
    intro c' hc m hm heq cat hcat id hlog hcom
    rw [← some.inj hc] at hcat
    rw [← some.inj hcat]
    refine .inl ?_
    have hb : b = s.tm.committed.base := (hst _ hf).base c n b rfl
    rw [hb]
    exact (Clog.isCommitted_iff _ _).mp hcom
  | writeCatalog _ _ n b ids hf =>
    intro _ hc m hm heq _ hcat id hlog hcom
    rw [← some.inj hc] at hm hcat
    rw [← some.inj hcat]
    exact h _ hf m hm heq ⟨n, b, ids⟩ rfl id hlog hcom
  | finish _ c =>
    apply hearly
    exact nofun

end Complete

/-- What has to hold when the log is cut: every transaction with a commit frame in it has all its
    page writes on disk, and a manager resumed from the saved catalog counts it as committed. -/
def CommitsKept (s : Checkpointing) : Prop :=
  ∀ id, .commit id ∈ s.log →
    (∀ w ∈ s.writes, w.trx = id → w ∈ s.disk) ∧
    (new s.saved.nextTrxId s.saved.committedTrxs
      s.saved.clogBase).committed.isCommitted id = true

theorem truncates_iff (s : Checkpointing) :
    s.truncates = true ↔ ∃ ex c, s.flush = some ⟨ex, .saved c⟩ ∧ s.tm.commits = c ∧
      ∀ t ∈ s.tm.openSet, some t = ex := by
  unfold truncates
  split
  · rename_i ex c hf
    rw [hf, Bool.and_eq_true, nothingOpen, Bool.not_eq_true', List.any_eq_false]
    simp only [ne_eq, decide_not, Bool.not_eq_true', decide_eq_false_iff_not, not_not,
      decide_eq_true_eq, some.injEq, FlushInner.mk.injEq, FlushStage.saved.injEq]
    constructor
    · intro h
      exact ⟨ex, c, ⟨rfl, rfl⟩, h.2, h.1⟩
    · intro h
      rcases h with ⟨_, _, ⟨rfl, rfl⟩, hc, ho⟩
      exact ⟨ho, hc⟩
  · rename_i hno
    simp only [Bool.false_eq_true, false_iff]
    intro h
    rcases h with ⟨ex, c, hf, _⟩
    exact hno ex c hf

/-- When the log is cut, whoever is still there rolls back or waits for its own CHECKPOINT. -/
theorem phase_of_truncates (h : Coherent s) (ht : s.truncates = true) (hx : x ∈ s.writers) :
    x.phase = .aborting ∨ x.phase = .running := by
  rcases (s.truncates_iff).mp ht with ⟨_, _, hf, _, hopen⟩
  by_cases hab : x.phase = .aborting
  · exact .inl hab
  have hex := hopen x.id ((h.trx x hx).opened.mpr hab)
  refine .inr (h.idle x hx ?_).1
  simp only [busy, hf, any_some, Bool.or_eq_true, decide_eq_true_eq]
  exact .inr hex.symm

theorem commitsKept_of_truncates (h : Coherent s) (hst : StagesOk s) (hcomp : Complete s)
    (ht : s.truncates = true) : CommitsKept s := by
  rcases (s.truncates_iff).mp ht with ⟨_, c, hf, hc, hopen⟩
  have hnot : ¬ s.Blocked := by
    intro hb
    rcases hb with ⟨y, hy, hcom⟩ | hstmt
    · rcases phase_of_truncates h ht hy with hp | hp <;>
        simp [Writer.committing, hp] at hcom
    -- The transaction of a waiting CHECKPOINT would be open.
    rcases exists_mem_of_ne_nil _ hstmt with ⟨i, hi⟩
    have hbusy : s.busy i = true := by
      simp [busy, hi]
    rcases h.busy i hbusy with ⟨y, hy, rfl⟩
    have hrun := (h.idle y hy hbusy).1
    have hex := hopen y.id ((h.trx y hy).opened.mpr (hrun.trans_ne (by decide)))
    exact h.apart _ y.id hf hex.symm hi
  intro id hlog
  have hcom : s.tm.committed.isCommitted id = true := by
    rcases h.of_log hlog with hcom | ⟨_, hy, _, hp⟩
    · exact hcom
    · rcases phase_of_truncates h ht hy with hph | hph <;>
        simp [Writer.Pending, hph] at hp
  constructor
  · intro w hw hid
    exact (hst _ hf).covered c rfl hc s.disk rfl w hw (.inl (hid ▸ hcom))
  · rw [isCommitted_new]
    exact (hcomp _ hf c rfl hc s.saved rfl id hlog hcom).resolve_right hnot

/-- A checkpoint that has missed the commit of `id` and can still cut the log. -/
structure Doomed (s : Checkpointing) (id : Nat) (ex : Option Nat) (st : FlushStage) : Prop where
  flush : s.flush = some ⟨ex, st⟩
  after : s.tm.commits ∈ st.afterIds
  log : .commit id ∈ s.log
  free : ¬ s.Blocked
  missed : ∀ cat ∈ s.catalog st, ¬ cat.Records id

theorem writer_of_mem (h : Coherent s) (hx : x ∈ s.writers) : s.writer x.id = some x :=
  find_key_of_mem h.ids hx

/-- A writer that is not committing takes the place of another. -/
theorem mem_put_idle {z w : Writer} (hz : z.committing = false)
    (hw : w ∈ (s.putWriter z).writers) : w ∈ s.writers ∨ w.committing = false := by
  rcases s.mem_putWriter hw with rfl | ⟨hw, _⟩
  · exact .inr hz
  · exact .inl hw

namespace Doomed

theorem keep {tm : TransactionManager} {ws : List Writer} (h : Doomed s id ex st)
    (hcommits : tm.commits = s.tm.commits)
    (hwriters : ∀ z ∈ ws, z ∈ s.writers ∨ z.committing = false) :
    Doomed { s with tm := tm, writers := ws } id ex st := by
  refine { h with after := hcommits ▸ h.after, free := fun hb => ?_, missed := ?_ }
  · rcases hb with ⟨y, hy, hcom⟩ | hstmt
    · rcases hwriters y hy with hy | hno
      · exact h.free (.inl ⟨y, hy, hcom⟩)
      · cases hno.symm.trans hcom
    · exact h.free (.inr hstmt)
  · exact fun cat hc => h.missed cat (mem_catalog hc rfl)

/-- An open transaction that is in the way can get out of it. -/
theorem close (hco : Coherent s) (h : Doomed s id ex st) (ht : t ∈ s.tm.openSet)
    (hne : some t ≠ ex) :
    ∃ ls s', runSteps Checkpointing.step s ls = some s' ∧ Doomed s' id ex st ∧
      s'.tm.openSet = (s.tm.removeOpen t).openSet := by
  rcases hco.openOf t ht with ⟨y, hy, rfl⟩
  have hnab := (hco.trx y hy).opened.mp ht
  have hwriter := writer_of_mem hco hy
  have hstmt : s.statements = [] := by
    by_contra hno
    exact h.free (.inr hno)
  have hbusy : s.busy y.id = false := by
    rw [busy, h.flush, hstmt, any_some]
    simp only [not_mem_nil, decide_false, Bool.false_or, decide_eq_false_iff_not]
    exact fun he => hne he.symm
  have hnot : y.committing = false := by
    rw [← Bool.not_eq_true]
    exact fun hc => h.free (.inl ⟨y, hy, hc⟩)
  -- A marked transaction leaves; one that is counted is marked first.
  have hleave : ∀ (s : Checkpointing) (y : Writer), Coherent s → Doomed s id ex st →
      y ∈ s.writers → y.phase = .marked → ∃ s', s.step (.trx y.id .leave) = some s' ∧
        Doomed s' id ex st ∧ s'.tm.openSet = (s.tm.removeOpen y.id).openSet := by
    intro s y hco h hy hph
    have hstep : s.step (.trx y.id .leave) =
        some { s.dropWriter y.id with tm := s.tm.removeOpen y.id } := by
      simp [step, writer_of_mem hco hy, writerStep, hph]
    refine ⟨_, hstep, h.keep rfl (fun z hz => ?_), rfl⟩
    exact .inl ((s.mem_dropWriter y.id z).mp hz).1
  cases hph : y.phase with
  | running =>
    have hstep : s.step (.trx y.id .rollback) = some
        { s.putWriter { y with phase := .aborting } with tm := s.tm.removeOpen y.id } := by
      simp [step, hwriter, writerStep, hph, hbusy]
    refine ⟨[.trx y.id .rollback], _, by simp only [runSteps, hstep]; rfl, ?_, rfl⟩
    exact h.keep rfl (fun _ => mem_put_idle rfl)
  | counted =>
    have hstep : s.step (.trx y.id .mark) = some { s.putWriter { y with phase := .marked } with
        tm := s.tm.markCommitted y.id } := by
      simp [step, hwriter, writerStep, hph]
    rcases hleave _ { y with phase := .marked } (hco.step _ _ hstep)
      (h.keep rfl (fun _ => mem_put_idle rfl)) (s.mem_putWriter_self hy rfl) rfl
      with ⟨s', hlv, hd', hopen⟩
    refine ⟨[.trx y.id .mark, .trx y.id .leave], s', ?_, hd', hopen⟩
    rw [runSteps, hstep]
    dsimp only
    rw [runSteps, hlv]
    rfl
  | marked =>
    rcases hleave s y hco h hy hph with ⟨s', hlv, hd', hopen⟩
    exact ⟨[.trx y.id .leave], s', by simp only [runSteps, hlv], hd', hopen⟩
  | aborting => exact absurd hph hnab
  | _ =>
    simp [Writer.committing, hph] at hnot

end Doomed

/-- One after the other they get out of the way. -/
theorem Doomed.closeAll (hco : Coherent s) (h : Doomed s id ex st) :
    ∃ ls s', runSteps Checkpointing.step s ls = some s' ∧ Doomed s' id ex st ∧
      ∀ t ∈ s'.tm.openSet, some t = ex := by
  -- On how many are still in the way.
  induction hn : (s.tm.openSet.filter (fun t => some t ≠ ex)).length using
    Nat.strong_induction_on generalizing s with
  | _ n ih =>
    by_cases hall : ∀ t ∈ s.tm.openSet, some t = ex
    · exact ⟨[], s, rfl, h, hall⟩
    push Not at hall
    rcases hall with ⟨t, ht, hne⟩
    rcases h.close hco ht hne with ⟨ls, s', hrun, hd, hopen⟩
    have hlt : (s'.tm.openSet.filter (fun t => some t ≠ ex)).length < n := by
      rw [hopen, ← hn, removeOpen]
      rw [filter_comm]
      refine length_filter_lt_length_iff_exists.mpr ⟨t, ?_, ?_⟩
      · exact mem_filter.mpr ⟨ht, decide_eq_true hne⟩
      · simp
    have hco' : Coherent s' := invariant_of_steps Checkpointing.step Coherent
      (fun _ l s' hs => hs.step s' l) s s' ls hco hrun
    rcases ih _ hlt hco' hd rfl with ⟨ms, s'', hrun', hd', hall'⟩
    refine ⟨ls ++ ms, s'', ?_, hd', hall'⟩
    rw [runSteps_append s ms hrun, hrun']

/-- A catalog without the commit is saved and the log is cut. -/
theorem Doomed.lost {c : Nat} (h : Doomed s id ex (.saved c))
    (hopen : ∀ t ∈ s.tm.openSet, some t = ex) : s.truncates = true ∧ ¬ CommitsKept s := by
  constructor
  · exact (s.truncates_iff).mpr ⟨ex, c, h.flush, (some.inj h.after).symm, hopen⟩
  intro hkept
  refine h.missed s.saved rfl ?_
  have hrec := (hkept id h.log).2
  rw [isCommitted_new] at hrec
  exact hrec

theorem leads_to_loss (hco : Coherent s) (h : Doomed s id ex st) :
    ∃ ls t, runSteps Checkpointing.step s ls = some t ∧ t.truncates = true ∧ ¬ CommitsKept t := by
  rcases h.closeAll hco with ⟨ls, s', hrun, hd, hopen⟩
  have hafter := hd.after
  cases st with
  | saved =>
    exact ⟨ls, s', hrun, hd.lost hopen⟩
  | idsRead c n b ids =>
    have hstep : s'.step (.flush .writeCatalog) =
        some { s'.setStage ex (.saved c) with saved := ⟨n, b, ids⟩ } := by
      simp only [step, hd.flush, flushStep]
    have hrun' : runSteps Checkpointing.step s (ls ++ [.flush .writeCatalog]) =
        some { s'.setStage ex (.saved c) with saved := ⟨n, b, ids⟩ } := by
      rw [runSteps_append s _ hrun, runSteps, hstep]
      rfl
    have hd' : Doomed { s'.setStage ex (.saved c) with saved := ⟨n, b, ids⟩ } id ex
        (.saved c) := by
      refine ⟨rfl, hafter, hd.log, hd.free, fun cat hcat => ?_⟩
      rw [← some.inj hcat]
      exact hd.missed ⟨n, b, ids⟩ rfl
    exact ⟨_, _, hrun', hd'.lost hopen⟩
  | _ =>
    simp [FlushStage.afterIds] at hafter

/-- A database that has just been opened: nothing is open, and what the log has
    committed counts as committed. -/
structure Ready (s : Checkpointing) : Prop where
  pos : 0 < s.tm.nextId
  writers : s.writers = []
  openSet : s.tm.openSet = []
  statements : s.statements = []
  flush : s.flush = none
  committedLt : ∀ t, s.tm.committed.isCommitted t = true → t < s.tm.nextId
  log : ∀ id, .commit id ∈ s.log → s.tm.committed.isCommitted id = true

theorem Ready.coherent (s : Checkpointing) (h : Ready s) : Coherent s := by
  have hno : ∀ x, x ∉ s.writers := by
    simp [h.writers]
  have hbusy : ∀ id, ¬ s.busy id = true := by
    intro id
    simp [busy, h.statements, h.flush]
  constructor
  case pos => exact h.pos
  case ids =>
    rw [h.writers]
    exact nodup_nil
  case committedLt => exact h.committedLt
  case openOf => simp [h.openSet]
  case trx => exact fun x hx => absurd hx (hno x)
  case idle => exact fun x hx => absurd hx (hno x)
  case busy => exact fun id hb => absurd hb (hbusy id)
  case apart => simp [h.flush]
  case log => exact fun id hin => .inl (.inl (h.log id hin))

theorem Ready.stages (s : Checkpointing) (h : Ready s) : StagesOk s ∧ Complete s := by
  have hno : ∀ c, s.flush ≠ some c := by
    simp [h.flush]
  exact ⟨fun c hc => absurd hc (hno c), fun c hc => absurd hc (hno c)⟩

/-- Along every run whose commit bits are all `MarkOk`, whenever a checkpoint cuts the log every
    commit in it is on the pages and in the saved catalog. The condition is exact: a commit bit that
    does not meet it can be followed by steps that end in a cut of the log with that commit lost. -/
theorem truncation_keeps_commits_of_markOk (s₀ : Checkpointing) (h₀ : Ready s₀)
    (ls : List CheckpointLabel) (s : Checkpointing)
    (hrun : runSteps Checkpointing.step s₀ ls = some s)
    (hok : Meets Checkpointing.step MarkOk s₀ ls) :
    (s.truncates = true → CommitsKept s) ∧
    ∀ id s', s.step (.trx id .mark) = some s' → ¬ MarkOk s (.trx id .mark) →
      ∃ ms t, runSteps Checkpointing.step s' ms = some t ∧ t.truncates = true ∧
        ¬ CommitsKept t := by
  have hinv : Coherent s ∧ StagesOk s ∧ Complete s :=
    invariant_of_meets Checkpointing.step MarkOk (fun s => Coherent s ∧ StagesOk s ∧ Complete s)
      (fun s l s' h hl hs => ⟨h.1.step s' l hs, h.2.1.step h.1 hs,
        h.2.2.step h.1 h.2.1 hl hs⟩)
      s₀ s ls ⟨h₀.coherent, h₀.stages⟩ hok hrun
  rcases hinv with ⟨hco, hst, hcomp⟩
  refine ⟨commitsKept_of_truncates hco hst hcomp, fun id s' hstep hbad => ?_⟩
  cases step_cases hstep with
  | trx x _ _ hx hs =>
    cases hs with
    | mark hph =>
      -- The bit was not there when the checkpoint read the bits.
      simp only [MarkOk, Classical.not_imp, not_forall, not_or, not_not] at hbad
      rcases hbad with ⟨hlog, c, hc, _, hn, heq, hfree⟩
      have hd : Doomed s x.id c.exclude c.stage := by
        refine ⟨hc, heq ▸ hn, hlog, hfree, fun cat hcat hrec => ?_⟩
        rcases (hst c hc).catalog cat hcat with ⟨hbase, hsub⟩
        have hcom : s.tm.committed.isCommitted x.id = true := by
          rw [Clog.isCommitted_iff, ← hbase]
          exact ⟨hrec.1, hrec.2.imp_right (hsub _)⟩
        exact absurd (hph.symm.trans ((hco.trx x hx).status.mp hcom)) nofun
      exact leads_to_loss (hco.step _ _ hstep) (hd.keep rfl (fun _ => mem_put_idle rfl))

/-- A database without tables or transactions. -/
def empty : Checkpointing :=
  { tm := new 1 [] 0, log := [], writes := [], disk := [], saved := ⟨1, 0, []⟩,
    writers := [], callers := 0, statements := [], flush := none }

theorem ready_empty : Ready empty where
  pos := Nat.one_pos
  writers := rfl
  openSet := rfl
  statements := rfl
  flush := rfl
  committedLt := by
    intro _ ht
    rw [empty, isCommitted_new] at ht
    exact absurd ht.2 (by simp)
  log := fun id hin => nomatch hin

/-- Transaction 1 writes a page and commits, up to the commit counter. -/
def commitUpToCount : List CheckpointLabel :=
  [.begin, .trx 1 (.write 0 true), .trx 1 .appendFrames, .trx 1 .appendCommit, .trx 1 .sync,
    .trx 1 .count]

/-- A checkpoint up to the saved catalog. -/
def flushUpToSave : List CheckpointLabel :=
  [.lock none, .flush .readCount, .flush .flushStart, .writeBack 0, .flush .flushEnd,
    .flush .readNextId, .flush .readBase, .flush .readIds, .flush .writeCatalog]

/-- A checkpoint waits for the lock until the commit is complete. -/
def checkpointAfterCommit : List CheckpointLabel :=
  [.guard none] ++ commitUpToCount ++ [.trx 1 .mark, .trx 1 .leave] ++ flushUpToSave

theorem checkpoint_after_commit_keeps_it :
    ∃ s, runSteps Checkpointing.step empty checkpointAfterCommit = some s ∧
      s.truncates = true ∧ LogFrame.commit 1 ∈ s.log ∧ CommitsKept s :=
  ⟨_, rfl, rfl, by decide, (truncation_keeps_commits_of_markOk empty ready_empty
    checkpointAfterCommit _ rfl (by decide)).1 rfl⟩

/-- The checkpoint reads the counter after the commit has moved it, and the
    commit bits before the commit has set its own. -/
def checkpointInsideCommit : List CheckpointLabel :=
  [.guard none] ++ commitUpToCount ++ flushUpToSave ++ [.trx 1 .mark, .trx 1 .leave]

theorem checkpoint_loses_commit :
    ∃ s t, runSteps Checkpointing.step empty checkpointInsideCommit = some s ∧
      LogFrame.commit 1 ∈ s.log ∧ s.step (.flush .finish) = some t ∧ t.log = [] ∧
      (new t.saved.nextTrxId t.saved.committedTrxs
        t.saved.clogBase).committed.isCommitted 1 = false ∧ ¬ CommitsKept s := by
  refine ⟨_, _, rfl, by decide, rfl, by decide, by decide, fun hkept => ?_⟩
  exact absurd (hkept 1 (by decide)).2 (by decide)

end Checkpointing

end ChibiDb
