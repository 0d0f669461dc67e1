import ChibiDb.Theory.IdReuse
import ChibiDb.Theory.RedoSlot

/-!
# The Vacuum Horizon Across a Crash

VACUUM cleans the pages in the buffer pool, then moves the horizon past every id
handed out and saves it with the catalog. From then on every id below it counts
as committed. The pages it cleaned are on disk only when something writes them
back. If the process dies before, the old pages come back under the new
horizon: a version of a transaction that rolled back is visible, and a mark of
one hides a committed row.

Recovery is right exactly when the disk holds no such version and no such mark
at the crash. A mark from the log can hide an uncommitted version again, if its
slot had been used before; the condition allows for that.

A read only transaction leaves its id nowhere, so a crash can hand it out again.
Whether the creator of a version committed is therefore asked of the latest
transaction that had its id. A checkpoint reads the next id before it reads the
commit bits, and transactions begin and commit in between, so the next id it
saves may be older than the ids it saves as committed.

## Main definitions

* `Traced`, `Traced.step`: The database with checkpoints that read the next id in a step of its own,
  and the ids whose latest transaction committed.
* `CrashesCovered`: A crash finds every id on disk and in the saved catalog accounted for.
* `DoneOk`: What counts as committed by name did commit.
* `HorizonSafe`: No later snapshot sees a version whose creator never committed
  or takes a mark of such a transaction for a deletion.
* `HorizonClean`: The disk has nothing the horizon would misjudge.

## Theorems

* `doneOk_step`: Every step keeps `DoneOk`.
* `safe_of_clean`, `clean_of_safe`: The two directions, for one crash.
* `sound_step`: Every step keeps what the two need.
* `horizon_safe_iff_clean`: The main result.
* `vacuum_revives_rolled_back_row`: A run in which a rolled back row is visible
  after a crash.
-/

namespace ChibiDb.Horizon

open List
open Option hiding or_self

/-! ### The system -/

/-- A database, with what the checkpoint under way has read and what became of the ids. -/
structure Traced where
  db : Db
  /-- The next id that the checkpoint under way is going to save. -/
  nextIdRead : Option Nat
  /-- The ids whose latest transaction durably committed. No code reads it. -/
  done : List Nat

/-- The steps of the database, and the first read of a checkpoint that saves the catalog. -/
inductive TracedLabel where
  | readNextId
  | db (l : Label)
  deriving DecidableEq, Repr

/-- The statements that need the database to themselves. They wait for a checkpoint, which runs
    inside a statement. -/
def isExclusive : Label → Bool
  | .createTable .. | .dropTable .. | .otherDdl _ | .vacuumBegin _ => true
  | _ => false

/-- The ids whose latest transaction committed, after a step. An id that is handed out names a new
    transaction from then on. -/
def doneAfter (s : Db) (done : List Nat) : Label → List Nat
  | .begin => done.filter (fun id => id ≠ s.tm.nextId)
  | .trx id .commitRecord => id :: done
  | .trx id .commitReadOnly => id :: done
  | _ => done

namespace Traced

/-- A new database in an empty directory. -/
def fresh (inlineLimit : Nat) : Traced := ⟨Db.fresh inlineLimit, none, []⟩

/-- One step. `save_catalog` reads the next id, the horizon and the commit bits one after the other.
    The horizon only moves in VACUUM, so the last two reads are one. -/
def step (s : Traced) : TracedLabel → Option Traced
  | .readNextId =>
    match s.db.checkpoint with
    | some ⟨_, false⟩ =>
      if s.db.vacuum = none ∧ s.nextIdRead = none then
        some { s with nextIdRead := some s.db.tm.nextId }
      else none
    | _ => none
  | .db .checkpointSave =>
    match s.nextIdRead, s.db.step .checkpointSave with
    | some n, some db =>
      some { s with
        db := { db with saved := { db.saved with nextTrxId := n } }, nextIdRead := none }
    | _, _ => none
  | .db .crash => (s.db.step .crash).map (fun db => { s with db := db, nextIdRead := none })
  | .db l =>
    if isExclusive l ∧ s.nextIdRead ≠ none then none
    else (s.db.step l).map (fun db => { s with db := db, done := doneAfter s.db s.done l })

end Traced

/-- A crash finds every id on disk covered, and recovery hands out no id that the saved catalog has
    as committed. -/
def CrashesCovered (s : Traced) (l : TracedLabel) : Prop :=
  l = .db .crash → IdReuse.Covered s.db ∧
    ∀ id ∈ s.db.saved.committedTrxs, IdReuse.Accounted s.db id

instance decidableCrashesCovered (s : Traced) (l : TracedLabel) : Decidable (CrashesCovered s l) :=
  inferInstanceAs (Decidable (_ → _ ∧ ∀ id ∈ s.db.saved.committedTrxs, _))

/-- What the commit status, the saved catalog and the log call committed by name did commit, and
    none of it is still to be handed out. -/
structure DoneOk (s : Db) (done : List Nat) : Prop where
  marked : ∀ x ∈ s.tm.committed.marked, x ∈ done ∧ x < s.tm.nextId
  saved : ∀ x ∈ s.saved.committedTrxs, x ∈ done ∧ x < s.tm.nextId
  log : ∀ x, (x, Record.commit) ∈ s.log → x ∈ done
  trx : ∀ x ∈ s.trxs, (x.phase = .logged ∨ x.phase = .counted ∨ x.phase = .marked) → x.id ∈ done

/-- An id that counts as committed once the database is open again. -/
def Counts (s : Db) (x : Nat) : Prop :=
  x ≠ 0 ∧ (x < s.saved.clogBase ∨ x ∈ s.saved.committedTrxs ∨ (x, Record.commit) ∈ s.log)

/-- Whether a version on disk will be hidden: by the mark it carries, or by one
    that redo puts on it. -/
def WillBeHidden (s : Db) (f : Nat) (rid : Rid) (v : Version) : Prop :=
  Counts s v.deleter ∨ (v.deleter = 0 ∧ ∃ r ∈ redoRecords s.log, markAt f rid r = true)

/-- The disk holds nothing that the saved horizon misjudges: no version of a transaction that never
    committed, unless it will be hidden, and no mark of one on a version that did commit. -/
def HorizonClean (s : Traced) : Prop :=
  ∀ f rid v, (layoutOf s.db.saved.tables f).isSome → s.db.disk.get f rid = some v →
    (v.creator < s.db.saved.clogBase → v.creator ∈ s.done ∨ WillBeHidden s.db f rid v) ∧
    (v.creator ∈ s.done → v.deleter ≠ 0 → v.deleter < s.db.saved.clogBase → v.deleter ∈ s.done)

/-- No snapshot taken from now on sees a version whose creator never committed, or takes the mark of
    a transaction that never committed for a deletion of a version that did. -/
def HorizonSafe (s : Traced) : Prop :=
  ∀ f rid v, (layoutOf s.db.tables f).isSome → s.db.mem.get f rid = some v →
    ∀ snap id, s.db.tm.Later snap id →
      (snap.visible s.db.tm.committed id v.creator v.deleter = true → v.creator ∈ s.done) ∧
      (v.creator ∈ s.done → v.deleter ≠ 0 →
        (v.deleter = id ∨ snap.committedBefore s.db.tm.committed v.deleter = true) →
        v.deleter ∈ s.done)

/-! ### What the commit status names -/

variable {c : Clog} {f x y : Nat} {s s' : Db} {rid : Rid} {done done' : List Nat}

theorem mem_marked_mark (h : y ∈ (c.markCommitted x).marked) : y = x ∨ y ∈ c.marked := by
  unfold Clog.markCommitted at h
  split at h
  · exact .inr h
  · exact mem_insert_iff.mp h

theorem mem_marked_foldl {ids : List Nat} (c : Clog)
    (h : y ∈ (ids.foldl Clog.markCommitted c).marked) : y ∈ ids ∨ y ∈ c.marked := by
  induction ids generalizing c with
  | nil => exact .inr h
  | cons x _ ih =>
    rcases ih (c.markCommitted x) h with hy | hy
    · exact .inl (mem_cons_of_mem x hy)
    · rcases mem_marked_mark hy with rfl | hy
      · exact .inl mem_cons_self
      · exact .inr hy

theorem mem_marked_advance {b : Nat} (h : y ∈ (c.advanceBase b).marked) : y ∈ c.marked := by
  unfold Clog.advanceBase at h
  split at h
  · exact h
  · exact (mem_filter.mp h).1

/-- The ids marked at recovery come from the catalog or the log. -/
theorem mem_marked_recovered (h : y ∈ s.recoveredTm.committed.marked) :
    y ∈ s.saved.committedTrxs ∨ (y, Record.commit) ∈ s.log := by
  have hensure := s.savedTm.committed_ensureNextIdAtLeast
  have hsaved : ∀ z, z ∈ s.savedTm.committed.marked → z ∈ s.saved.committedTrxs := by
    intro _ hz
    rcases mem_marked_foldl _ hz with hz | hz
    · exact hz
    · exact absurd (mem_marked_advance hz) not_mem_nil
  unfold Db.recoveredTm at h
  by_cases hr : s.committedRepaired = true
  · simp only [hr, if_true, TransactionManager.extendCommitted, hensure] at h
    rcases mem_marked_foldl _ h with hy | hy
    · exact .inr ((mem_committedIds_log s.log y).mp hy)
    · exact .inl (hsaved y hy)
  · simp only [hr, Bool.false_eq_true, if_false, hensure] at h
    exact .inl (hsaved y h)

/-- One transaction becomes `y`; it may log its commit, and then it is listed. -/
theorem doneOk_put {y : Trx} {extra : List (Nat × Record Version)} (he : DoneOk s done)
    (htrxs : s'.trxs = (s.putTrx y).trxs) (hsaved : s'.saved = s.saved)
    (hnext : s'.tm.nextId = s.tm.nextId) (hlog : s'.log = s.log ++ extra)
    (hdone : ∀ x ∈ done, x ∈ done') (hextra : ∀ x, (x, Record.commit) ∈ extra → x ∈ done')
    (hmarked : ∀ x ∈ s'.tm.committed.marked, x ∈ done' ∧ x < s.tm.nextId)
    (hy : (y.phase = .logged ∨ y.phase = .counted ∨ y.phase = .marked) → y.id ∈ done') :
    DoneOk s' done' where
  marked := by
    rw [hnext]
    exact hmarked
  saved := by
    rw [hsaved, hnext]
    exact fun x hx => ⟨hdone x (he.saved x hx).1, (he.saved x hx).2⟩
  log := by
    intro x hx
    rw [hlog] at hx
    rcases mem_append.mp hx with hx | hx
    · exact hdone x (he.log x hx)
    · exact hextra x hx
  trx := by
    intro z hz hph
    rw [htrxs] at hz
    rcases s.mem_putTrx hz with rfl | ⟨hz, _⟩
    · exact hy hph
    · exact hdone _ (he.trx z hz hph)

/-- The common case: the log, the commit status and the listed ids stay. -/
theorem doneOk_quiet {y : Trx} (he : DoneOk s done)
    (hy : (y.phase = .logged ∨ y.phase = .counted ∨ y.phase = .marked) → y.id ∈ done) :
    ∀ z ∈ (s.putTrx y).trxs,
      (z.phase = .logged ∨ z.phase = .counted ∨ z.phase = .marked) → z.id ∈ done := by
  intro z hz hph
  rcases s.mem_putTrx hz with rfl | ⟨hz, _⟩
  · exact hy hph
  · exact he.trx z hz hph

/-- A step of one transaction: only its commit lists anything, and it lists its own id. -/
theorem doneOk_trxStep {x : Trx} {a : TrxAction} (he : DoneOk s done) (hi : Inv s)
    (hx : x ∈ s.trxs) (h : Db.TrxStep s x a s') :
    DoneOk s' (doneAfter s done (.trx x.id a)) := by
  have hrun : x.phase = .running →
      ¬ (x.phase = .logged ∨ x.phase = .counted ∨ x.phase = .marked) := by
    intro hph
    simp [hph]
  have hlisted : ∀ z ∈ s.tm.committed.marked, z ∈ x.id :: done ∧ z < s.tm.nextId :=
    fun z hz => ⟨mem_cons_of_mem _ (he.marked z hz).1, (he.marked z hz).2⟩
  cases h with
  | loadNextId hph | startStatement hph | scan _ _ _ _ _ _ hph | insert _ _ _ _ _ hph
  | deleteMark _ _ _ hph | updateInsert _ _ _ _ _ _ hph =>
    exact { he with trx := doneOk_quiet he (fun hd => absurd hd (hrun hph)) }
  | readOpen | updateMark | undoInsert | undoMark | undoUpdate =>
    exact { he with trx := doneOk_quiet he (he.trx x hx) }
  | failStatement | endUndo | rollback =>
    exact { he with trx := doneOk_quiet he (fun hd => absurd hd (by simp)) }
  | removeOpen => exact { he with }
  | finishRollback | commitFinish =>
    exact { he with trx := fun z hz => he.trx z ((s.mem_dropTrx x.id z).mp hz).1 }
  | commitAppend hph hp =>
    refine doneOk_put he rfl rfl rfl rfl (fun _ h => h) ?_ he.marked (fun hd => absurd hd (by simp))
    intro t ht
    rcases mem_map.mp ht with ⟨_, hr, heq⟩
    rw [wal_eq_of_running (hi.trx_ok x hx) hph hp] at hr
    rw [Prod.mk.injEq] at heq
    rw [heq.2] at hr
    exact absurd hr (commit_not_mem_redoBuffer x.id x.undo)
  | commitRecord =>
    refine doneOk_put he rfl rfl rfl rfl (fun _ h => mem_cons_of_mem _ h) ?_ hlisted
      (fun _ => mem_cons_self)
    intro _ ht
    rw [mem_singleton, Prod.mk.injEq] at ht
    rw [ht.1]
    exact mem_cons_self
  | commitReadOnly =>
    exact doneOk_put he rfl rfl rfl (append_nil _).symm (fun _ h => mem_cons_of_mem _ h) nofun
      hlisted (fun _ => mem_cons_self)
  | commitCount hph =>
    exact { he with trx := doneOk_quiet he (fun _ => he.trx x hx (.inl hph)) }
  | commitMark hph =>
    have hdone := he.trx x hx (.inr (.inl hph))
    refine doneOk_put he rfl rfl rfl (append_nil _).symm (fun _ h => h)
      nofun ?_ (fun _ => hdone)
    intro z hz
    rcases mem_marked_mark hz with rfl | hz
    · exact ⟨hdone, (hi.trx_lt x hx).2⟩
    · exact he.marked z hz

/-- An id that is handed out was not listed by anything, so it can be taken off. -/
theorem doneOk_begin (he : DoneOk s done) (hi : Inv s) :
    DoneOk { s with tm := s.tm.beginOpen.2, trxs := Trx.fresh s.tm.nextId :: s.trxs }
      (doneAfter s done .begin) := by
  have hkeep : ∀ z, z ∈ done → z < s.tm.nextId → z ∈ doneAfter s done .begin :=
    fun z hz hlt => mem_filter.mpr ⟨hz, decide_eq_true (Nat.ne_of_lt hlt)⟩
  refine ⟨fun z hz => ?_, fun z hz => ?_, fun z hz => ?_, ?_⟩
  · have h := he.marked z hz
    exact ⟨hkeep z h.1 h.2, Nat.lt_succ_of_lt h.2⟩
  · have h := he.saved z hz
    exact ⟨hkeep z h.1 h.2, Nat.lt_succ_of_lt h.2⟩
  · exact hkeep z (he.log z hz) (hi.log_lt _ hz).2
  · refine forall_mem_cons.mpr ⟨by simp [Trx.fresh], fun z hz hph => ?_⟩
    exact hkeep _ (he.trx z hz hph) (hi.trx_lt z hz).2

/-- A crash: the ids the saved catalog and the log list are not handed out again. -/
theorem doneOk_crash (he : DoneOk s done) (hr : Db.Reopened s s')
    (hids : ∀ id ∈ s.saved.committedTrxs, IdReuse.Accounted s id) : DoneOk s' done := by
  have hlt : ∀ z, IdReuse.Accounted s z → z < s'.tm.nextId := by
    intro z hz
    rw [hr.tm, Db.lt_nextId_recoveredTm_iff]
    exact hz.imp_right .inr
  have hsaved : ∀ z ∈ s.saved.committedTrxs, z ∈ done ∧ z < s'.tm.nextId :=
    fun z hz => ⟨(he.saved z hz).1, hlt z (hids z hz)⟩
  have hmarked : ∀ z ∈ s'.tm.committed.marked, z ∈ done ∧ z < s'.tm.nextId := by
    intro z hz
    rw [hr.tm] at hz
    rcases mem_marked_recovered hz with hz | hz
    · exact hsaved z hz
    · exact ⟨he.log z hz, hlt z (.inr ⟨_, hz, Nat.le_refl _⟩)⟩
  refine ⟨hmarked, ?_, ?_, ?_⟩
  · rcases hr.saved with hs | hs
    · rw [hs]
      exact hsaved
    · rw [hs]
      exact hmarked
  · rw [hr.log]
    exact he.log
  · simp [hr.trxs]

/-- Every step of the database keeps `DoneOk`. -/
theorem doneOk_step {l : Label} (he : DoneOk s done) (hi : Inv s) (h : s.step l = some s')
    (hids : l = .crash → ∀ id ∈ s.saved.committedTrxs, IdReuse.Accounted s id) :
    DoneOk s' (doneAfter s done l) := by
  cases Db.step_cases h with
  | begin => exact doneOk_begin he hi
  | trx _ _ _ _ hx hstep => exact doneOk_trxStep he hi hx hstep
  | checkpointSave | createTable | dropTable | otherDdl | vacuumSave =>
    exact { he with saved := he.marked }
  | truncate => exact { he with log := fun _ hm => absurd hm not_mem_nil }
  | vacuumHorizon => exact { he with marked := fun z hz => he.marked z (mem_marked_advance hz) }
  | crash s' hre => exact doneOk_crash he (Db.reopened_of_reopen hre) (hids rfl)
  | _ => exact { he with }

/-! ### One crash -/

/-- What counts as committed after recovery. -/
theorem counts_iff (hr : Db.Reopened s s') (x : Nat) :
    s'.tm.committed.isCommitted x = true ↔ Counts s x := by
  rw [hr.tm, Db.isCommitted_recoveredTm]
  rfl

/-- Only the horizon can make an id count that never committed. -/
theorem lt_base_of_counts (he : DoneOk s done) (h : Counts s x) (hx : x ∉ done) :
    x < s.saved.clogBase := by
  rcases h.2 with hb | hc | hl
  · exact hb
  · exact absurd (he.saved x hc).1 hx
  · exact absurd (he.log x hl) hx

/-- A mark that redo applies is one of a transaction whose commit is in the log. -/
theorem counts_of_redo_mark (hi : Inv s) {d n : Nat}
    (h : Record.deleteMark f rid d n ∈ redoRecords s.log) : d ≠ 0 ∧ (d, Record.commit) ∈ s.log := by
  rcases ((mem_redoRecords_iff s.log _).mp h).2 with ⟨t, ht, hc⟩
  have hd : d = t := hi.log_ok _ ht
  rw [hd]
  exact ⟨Nat.pos_iff_ne_zero.mp (hi.log_lt _ ht).1, hc⟩

/-- So is a version that redo inserts, and it carries no mark. -/
theorem counts_of_redo_insert (hi : Inv s) {v : Version}
    (h : Record.insert f rid v ∈ redoRecords s.log) :
    v.deleter = 0 ∧ (v.creator, Record.commit) ∈ s.log := by
  rcases ((mem_redoRecords_iff s.log _).mp h).2 with ⟨t, ht, hc⟩
  have hv : v.creator = t ∧ v.deleter = 0 := hi.log_ok _ ht
  rw [hv.1]
  exact ⟨hv.2, hc⟩

/-- A clean disk makes recovery safe. -/
theorem safe_of_clean (hi : Inv s) (he : DoneOk s done) (hr : Db.Reopened s s')
    (hb : s'.mem.All (IdReuse.Below s'.tm.nextId)) {n m : Option Nat}
    (hclean : HorizonClean ⟨s, n, done⟩) : HorizonSafe ⟨s', m, done⟩ := by
  simp only [HorizonClean] at hclean
  simp only [HorizonSafe]
  intro f rid v hf hv _ id hlater
  have hbelow := hb f rid v hv
  rw [hr.tables] at hf
  rcases isSome_iff_exists.mp hf with ⟨_, hl⟩
  have hfold := get_redo s.disk rid hl hr.mem
  rw [hv] at hfold
  rw [visible_later _ hlater hbelow.creator_lt hbelow.deleter_lt hbelow.creator_pos,
    committedBefore_later _ hlater hbelow.deleter_lt, counts_iff hr, counts_iff hr]
  have hmarks : ∀ g q d n, Record.deleteMark g q d n ∈ redoRecords s.log → d ≠ 0 :=
    fun g q d n h => (counts_of_redo_mark hi h).1
  have hnotid : v.deleter ≠ 0 → v.deleter ≠ id := by
    intro h0 hid
    have := hbelow.deleter_lt
    rcases hlater.own with hown | hown
    · exact h0 (hid.trans hown)
    · omega
  rcases foldl_origin _ hfold.symm with ⟨x, hx, hc, _, hd⟩
  have hdel : v.deleter ∉ done → v.deleter ≠ 0 → v.deleter = x.deleter := by
    intro hne _
    refine hd.resolve_right ?_
    rintro ⟨n, hn⟩
    exact hne (he.log _ (counts_of_redo_mark hi hn).2)
  rcases hx with hx | hx
  · -- the version was on disk
    have hcl := hclean f rid x hf hx
    refine ⟨?_, ?_⟩
    · intro hvis
      by_contra hne
      have hlt := lt_base_of_counts he hvis.1 hne
      rw [hc] at hlt hne
      rcases hcl.1 hlt with hev | hcount | ⟨h0, hmark⟩
      · exact hne hev
      · rw [hx, foldl_marked f rid _ hcount.1, some.injEq] at hfold
        exact hvis.2 (hfold ▸ hcount)
      rcases foldl_first_mark h0 hmarks hmark with ⟨_, _, hmem, heq⟩
      rw [hx, heq, some.injEq] at hfold
      have hcm := counts_of_redo_mark hi hmem
      exact hvis.2 (hfold ▸ ⟨hcm.1, .inr (.inr hcm.2)⟩)
    · intro hev h0 hdel'
      by_contra hne
      have hcount := hdel'.resolve_left (hnotid h0)
      have hlt := lt_base_of_counts he hcount hne
      have heq := hdel hne h0
      rw [heq] at hlt hne h0
      rw [hc] at hev
      exact hne (hcl.2 hev h0 hlt)
  · -- the version comes from the log
    have hins := counts_of_redo_insert hi hx
    refine ⟨fun _ => hc.symm ▸ he.log _ hins.2, ?_⟩
    intro _ h0 _
    by_contra hne
    exact h0 ((hdel hne h0).trans hins.1)

/-- If recovery is safe, the disk was clean. -/
theorem clean_of_safe (hr : Db.Reopened s s') (hb : s.disk.All (IdReuse.Below s'.tm.nextId))
    {n m : Option Nat} (hsafe : HorizonSafe ⟨s', m, done⟩) : HorizonClean ⟨s, n, done⟩ := by
  simp only [HorizonSafe] at hsafe
  simp only [HorizonClean]
  intro f rid x hf hx
  have hbelow := hb f rid x hx
  have hlater := later_now s'.tm
  rcases isSome_iff_exists.mp hf with ⟨_, hl⟩
  have hfold := get_redo s.disk rid hl hr.mem
  rw [hx] at hfold
  -- the version as it stands on disk, when nothing marks it
  have hsame : s'.mem.get f rid = some x →
      (Counts s x.creator ∧ ¬ Counts s x.deleter → x.creator ∈ done) ∧
      (x.creator ∈ done → x.deleter ≠ 0 → Counts s x.deleter → x.deleter ∈ done) := by
    intro hg
    have hs := hsafe f rid x (hr.tables.symm ▸ hf) hg _ _ hlater
    rw [visible_later _ hlater hbelow.creator_lt hbelow.deleter_lt hbelow.creator_pos,
      committedBefore_later _ hlater hbelow.deleter_lt, counts_iff hr, counts_iff hr] at hs
    exact ⟨hs.1, fun hev h0 hc => hs.2 hev h0 (.inr hc)⟩
  have hcreator : x.creator < s.saved.clogBase → Counts s x.creator :=
    fun hlt => ⟨Nat.pos_iff_ne_zero.mp hbelow.creator_pos, .inl hlt⟩
  by_cases h0 : x.deleter = 0
  · refine ⟨?_, fun _ hne => absurd h0 hne⟩
    intro hlt
    by_cases hmark : ∃ r ∈ redoRecords s.log, markAt f rid r = true
    · exact .inr (.inr ⟨h0, hmark⟩)
    rw [foldl_unmarked x (by simpa using hmark)] at hfold
    exact .inl ((hsame hfold).1 ⟨hcreator hlt, fun hc => hc.1 h0⟩)
  · rw [foldl_marked f rid _ h0] at hfold
    refine ⟨?_, fun hev hne hlt => (hsame hfold).2 hev hne ⟨h0, .inl hlt⟩⟩
    intro hlt
    by_cases hcount : Counts s x.deleter
    · exact .inr (.inl hcount)
    · exact .inl ((hsame hfold).1 ⟨hcreator hlt, hcount⟩)

/-! ### Whole runs -/

/-- What one step can do: read the next id, save it with the rest of the catalog, or anything the
    database does. -/
inductive TracedStep (s : Traced) : TracedLabel → Traced → Prop where
  | readNextId : TracedStep s .readNextId { s with nextIdRead := some s.db.tm.nextId }
  | save (n : Nat) (db : Db) (hn : s.nextIdRead = some n)
      (hstep : s.db.step .checkpointSave = some db) :
      TracedStep s (.db .checkpointSave)
        { s with
          db := { db with saved := { db.saved with nextTrxId := n } }, nextIdRead := none }
  | plain (l : Label) (db : Db) (read : Option Nat) (hstep : s.db.step l = some db)
      (hread : ∀ n, read = some n → s.nextIdRead = some n) :
      TracedStep s (.db l) ⟨db, read, doneAfter s.db s.done l⟩

/-- A traced step is one of the listed cases. -/
theorem Traced.step_cases {s t : Traced} {l : TracedLabel} (h : s.step l = some t) :
    TracedStep s l t := by
  unfold Traced.step at h
  split at h
  · split at h
    · rw [ite_some_none_eq_some] at h
      rw [← h.2]
      exact .readNextId
    · cases h
  · split at h
    · next n db hn hstep =>
      cases h
      exact .save n db hn hstep
    · cases h
  · rcases map_eq_some_iff.mp h with ⟨db, hstep, rfl⟩
    exact .plain _ db none hstep nofun
  · rw [ite_none_left_eq_some, map_eq_some_iff] at h
    rcases h with ⟨_, db, hstep, rfl⟩
    exact .plain _ db _ hstep (fun _ hn => hn)

/-- What holds in every state of a run whose crashes are covered. -/
structure Sound (s : Traced) : Prop where
  bounded : IdReuse.Bounded s.db
  done : DoneOk s.db s.done
  read : ∀ n, s.nextIdRead = some n → 0 < n

/-- The empty store is sound. -/
theorem sound_fresh (inlineLimit : Nat) : Sound (Traced.fresh inlineLimit) where
  bounded := IdReuse.bounded_fresh inlineLimit
  done := ⟨nofun, nofun, nofun, nofun⟩
  read := nofun

/-- Every step keeps what the two directions need. -/
theorem sound_step {s t : Traced} {l : TracedLabel} (hs : Sound s) (hok : CrashesCovered s l)
    (h : s.step l = some t) : Sound t := by
  cases Traced.step_cases h with
  | readNextId =>
    refine ⟨hs.bounded, hs.done, ?_⟩
    rintro _ ⟨⟩
    exact hs.bounded.inv.next_pos
  | save n db hn hstep =>
    have hsave : Label.checkpointSave ≠ .crash := by decide
    have hb := IdReuse.bounded_step hs.bounded (fun hl => absurd hl hsave) hstep
    have hd := doneOk_step hs.done hs.bounded.inv hstep (fun hl => absurd hl hsave)
    -- an older next id in the saved catalog matters to nobody before the next crash
    exact ⟨⟨{ hb.inv with saved_pos := hs.read n hn }, hb.mem, hb.disk, hb.undo⟩,
      ⟨hd.marked, hd.saved, hd.log, hd.trx⟩, nofun⟩
  | plain l db read hstep hread =>
    have hcrash : l = .crash → TracedLabel.db l = .db .crash := fun hl => by rw [hl]
    exact ⟨IdReuse.bounded_step hs.bounded (fun hl => (hok (hcrash hl)).1) hstep,
      doneOk_step hs.done hs.bounded.inv hstep (fun hl => (hok (hcrash hl)).2),
      fun n hn => hs.read n (hread n hn)⟩

/-- **The horizon across a crash.** After any run whose crashes are covered and a further one, a
    later snapshot judges every stored version right, whatever the saved horizon, exactly if the
    disk was clean at the crash. -/
theorem horizon_safe_iff_clean (inlineLimit : Nat) (ls : List TracedLabel) (s s' : Traced)
    (hrun : runSteps Traced.step (Traced.fresh inlineLimit) ls = some s)
    (hok : Meets Traced.step CrashesCovered (Traced.fresh inlineLimit) (ls ++ [.db .crash]))
    (hcrash : s.step (.db .crash) = some s') : HorizonSafe s' ↔ HorizonClean s := by
  have hrun' : runSteps Traced.step (Traced.fresh inlineLimit) (ls ++ [.db .crash]) = some s' := by
    rw [runSteps_append _ _ hrun]
    simp only [runSteps, hcrash]
  have hsound : ∀ (ks : List TracedLabel) (t : Traced),
      Meets Traced.step CrashesCovered (Traced.fresh inlineLimit) ks →
      runSteps Traced.step (Traced.fresh inlineLimit) ks = some t → Sound t :=
    fun ks t => invariant_of_meets Traced.step CrashesCovered Sound (fun _ _ _ => sound_step) _ t ks
      (sound_fresh inlineLimit)
  have hs := hsound ls s (meets_of_append hok) hrun
  have hs' := hsound _ s' hok hrun'
  rcases map_eq_some_iff.mp hcrash with ⟨db, hre, rfl⟩
  have hr := Db.reopened_of_reopen hre
  exact ⟨clean_of_safe hr (hr.disk ▸ hs'.bounded.disk),
    safe_of_clean hs.bounded.inv hs.done hr hs'.bounded.mem⟩

/-- A transaction that wrote commits, in its separate steps. -/
def commitWriter (id : Nat) : List TracedLabel :=
  [.db (.trx id .commitAppend), .db (.trx id .commitRecord), .db (.trx id .commitCount),
    .db (.trx id .commitMark), .db (.trx id .commitFinish)]

/-- A transaction that wrote nothing commits. -/
def commitReader (id : Nat) : List TracedLabel :=
  [.db (.trx id .commitReadOnly), .db (.trx id .commitCount), .db (.trx id .commitMark),
    .db (.trx id .commitFinish)]

/-- A transaction with one write takes it back. -/
def rollBack (id : Nat) : List TracedLabel :=
  [.db (.trx id .rollback), .db (.trx id .undoOne), .db (.trx id .removeOpen),
    .db (.trx id .finishRollback)]

/-- A table is created by transaction 1 and transaction 2 inserts a row. -/
def insertedRow : List TracedLabel :=
  [.db .begin, .db (.createTable 1 .row)] ++ commitReader 1 ++
    [.db .begin, .db (.trx 2 (.insert 0 1 [.int 7]))]

/-- The row is committed. Transaction 3 commits without a write and a crash hands its id out again.
    The second transaction 3 inserts a row that reaches the disk, and rolls back. A checkpoint reads
    the next id, and saves it when transaction 4 has begun. This one is a VACUUM, and the page is
    written back before the crash. -/
def vacuumedRow : List TracedLabel :=
  insertedRow ++ commitWriter 2 ++ [.db (.writeBack 0 1), .db .begin] ++ commitReader 3 ++
    [.db .crash, .db .begin, .db (.trx 3 (.insert 0 1 [.int 8])), .db (.writeBack 0 1)] ++
    rollBack 3 ++
    [.db .checkpointBegin, .readNextId, .db .begin, .db .checkpointSave, .db (.checkpointEnd none),
      .db (.vacuumBegin 4), .db .vacuumOne, .db .vacuumHorizon, .db .vacuumSave,
      .db (.writeBack 0 1)]

/-- A run that vacuums a row behind the horizon meets the condition. -/
theorem horizon_safe_vacuumed_row :
    ∃ s s', runSteps Traced.step (Traced.fresh 255) vacuumedRow = some s ∧
      s.db.saved.clogBase = 5 ∧ 3 ∉ s.done ∧ s.step (.db .crash) = some s' ∧
      s'.db.mem.versions ≠ [] ∧ HorizonSafe s' := by
  have hrun : ∃ s s', runSteps Traced.step (Traced.fresh 255) vacuumedRow = some s ∧
      s.db.saved.clogBase = 5 ∧ 3 ∉ s.done ∧ s.step (.db .crash) = some s' ∧
      s'.db.mem.versions ≠ [] ∧ s.db.disk.versions = [⟨2, 0, 0, [.int 7]⟩] ∧ 2 ∈ s.done :=
    ⟨_, _, rfl, rfl, by decide, rfl, by decide, rfl, by decide⟩
  rcases hrun with ⟨s, s', hs, hbase, hnew, hcrash, hne, hdisk, hdone⟩
  refine ⟨s, s', hs, hbase, hnew, hcrash, hne,
    (horizon_safe_iff_clean 255 vacuumedRow s s' hs (by decide) hcrash).mpr ?_⟩
  intro f rid v _ hv
  have hmem := (Heap.mem_versions_iff s.db.disk v).mpr ⟨f, rid, hv⟩
  rw [hdisk, mem_singleton] at hmem
  rw [hmem]
  exact ⟨fun _ => .inl hdone, fun _ hd => absurd rfl hd⟩

/-- The inserting transaction rolls back, but its page had reached the disk.
    VACUUM saves a horizon above its id and the process dies: after recovery a
    new snapshot sees the row that was rolled back. -/
theorem vacuum_revives_rolled_back_row :
    ∃ s s', runSteps Traced.step (Traced.fresh 255)
      (insertedRow ++ [.db (.writeBack 0 1)] ++ rollBack 2 ++ [.db .begin, .db (.vacuumBegin 3),
        .db .vacuumHorizon, .db .vacuumSave]) = some s ∧
      CrashesCovered s (.db .crash) ∧ s.step (.db .crash) = some s' ∧
      s'.db.mem.get 0 ⟨1, 0⟩ = some ⟨2, 0, 0, [.int 7]⟩ ∧
      s'.db.tm.snapshot.visible s'.db.tm.committed readOnlyTrxId 2 0 = true ∧ 2 ∉ s'.done ∧
      ¬ HorizonSafe s' := by
  refine ⟨_, _, rfl, by decide, rfl, rfl, rfl, by decide, ?_⟩
  intro hsafe
  have hseen := hsafe 0 ⟨1, 0⟩ ⟨2, 0, 0, [.int 7]⟩ rfl rfl _ _ (later_now _)
  exact absurd (hseen.1 rfl) (by decide)

end ChibiDb.Horizon
