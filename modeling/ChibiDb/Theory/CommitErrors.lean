import ChibiDb.Core.CommitFailure
import ChibiDb.Theory.Horizon
import ChibiDb.Theory.Owned
import ChibiDb.Theory.TornTail
import ChibiDb.Theory.VacuumVisibility

/-!
# What an Error From COMMIT Means

A transaction whose COMMIT returned an error is rolled back in memory. Whether a
crash can bring it back depends on what reached the log file. If an append
failed, the file has no commit record of the transaction: a part of a frame does
not decode, and recovery redoes nothing without a commit record. If the sync
failed, the whole commit record is in the file, and after a crash of the process
recovery takes the transaction for committed.

The part of a frame that a failed append leaves is not cut off. The next append
goes behind it, and the bytes together may read as anything, so the result is
about runs in which no append finds the file torn. Two defects that have nothing
to do with COMMIT are kept out as well: an id that is handed out again after a
crash, and a horizon on disk that has gone past a version which is still there.

## Main definitions

* `Scanned`: The log is what a scan of the file yields.
* `Move`: What a step on whole frames does to the database.
* `Uncommitted`: Nothing durable calls an id committed.
* `Hidden`: What keeps a transaction hidden from everyone else.
* `Unseen`: No snapshot of another transaction sees its changes.
* `Careful`: The condition on each later step.

## Theorems

* `move_of_step`: A step that finds the file whole is a `Move`.
* `Tracked.move`: What holds of every run so far.
* `Hidden.move`: Each later step keeps a transaction hidden.
* `failed_commit_unseen`: The main result.
* `failed_sync_counts`: After a failed sync every reopen until the log is cut
  counts the transaction as committed.
* `failed_sync_commits`: A run in which its row is visible.
-/

namespace ChibiDb.CommitErrors

open List Option Prod
open Bool hiding and_false
open LoggedDb (fresh step write)

-- The log file

/-- A frame as the database holds it. -/
def entry (c : ImageCodec) (f : Frame) : Nat × Record Version :=
  (f.trxId, f.record.mapImage c.parse)

/-- The file is whole frames and then bytes that do not decode, and the log is those frames. -/
def Scanned (c : ImageCodec) (file : Bytes) (log : List (Nat × Record Version)) : Prop :=
  ∃ fs tail, file = encodeFrames fs ++ tail ∧ decodeFrame tail = none ∧ log = fs.map (entry c)

variable {c : ImageCodec} {file : Bytes} {extra log : List (Nat × Record Version)}
  {rs : List (Record Version)} {l : Label} {s s' : Db} {f inlineLimit t : Nat} {x : Trx}
  {a : TrxAction} {rid : Rid} {ls : List CommitLabel}

theorem readLog_of_scanned (h : Scanned c file log) : c.readLog file = log := by
  rcases h with ⟨fs, tail, rfl, htail, rfl⟩
  unfold ImageCodec.readLog
  rw [scanFrames_torn fs tail _ 0 (Nat.le_refl _) htail]
  have hmap : (framesFrom 0 fs).map (fun f => (f.2.1, f.2.2.mapImage c.parse)) =
      ((framesFrom 0 fs).map snd).map (fun p => (p.1, p.2.mapImage c.parse)) := by
    rw [List.map_map]
    rfl
  rw [hmap, TornTail.map_snd_framesFrom, List.map_map]
  rfl

theorem getLast_framesFrom (pos : Nat) (fs : List Frame) :
    ((framesFrom pos fs).getLast?.map (fun f => f.1)).getD pos =
      pos + (encodeFrames fs).length := by
  induction fs generalizing pos with
  | nil => rfl
  | cons f fs ih =>
    rw [framesFrom, encodeFrames, length_append, ← Nat.add_assoc,
      ← ih (pos + f.bytes.length), getLast?_cons]
    cases (framesFrom (pos + f.bytes.length) fs).getLast? with
    | _ => rfl

/-- A scan that gets to the end of the file leaves no torn bytes. -/
theorem tail_nil_of_whole {fs : List Frame} {tail : Bytes} (htail : decodeFrame tail = none)
    (hw : wholeFile (encodeFrames fs ++ tail) = true) : tail = [] := by
  unfold wholeFile at hw
  rw [decide_eq_true_eq, scanFrames_torn fs tail _ 0 (Nat.le_refl _) htail,
    getLast_framesFrom 0 fs, length_append] at hw
  exact length_eq_zero_iff.mp (by omega)

/-- What the redo buffer appends are whole frames of its records. -/
theorem exists_entries {id : Nat} (hid : id < 2 ^ 64) (hfits : ∀ r ∈ rs, c.Fits r) :
    ∃ gs, encodeFrames gs = c.frames id rs ∧ gs.map (entry c) = rs.map (fun r => (id, r)) := by
  have htyped : ∀ p ∈ rs.map (fun r => (id, r.mapImage c.image)), p.1 < 2 ^ 64 ∧ p.2.Typed := by
    intro p hp
    rcases mem_map.mp hp with ⟨r, hr, rfl⟩
    exact ⟨hid, (hfits r hr).1⟩
  rcases TornTail.exists_frames htyped with ⟨gs, hmap, henc⟩
  refine ⟨gs, ?_, ?_⟩
  · rw [henc, flatMap_map]
    rfl
  have hentry : gs.map (entry c) = (gs.map (fun f => (f.trxId, f.record))).map
      (fun p => (p.1, p.2.mapImage c.parse)) := by
    rw [List.map_map]
    rfl
  rw [hentry, hmap, List.map_map]
  apply map_congr_left
  intro r hr
  exact Prod.ext rfl (hfits r hr).2

/-- A part of whole frames is some of them whole and a part of the next. -/
theorem take_encodeFrames (gs : List Frame) (n : Nat) :
    ∃ k tail, (encodeFrames gs).take n = encodeFrames (gs.take k) ++ tail ∧
      decodeFrame tail = none ∧ (n < (encodeFrames gs).length → k < gs.length) := by
  induction gs generalizing n with
  | nil => exact ⟨0, [], take_nil, rfl, fun h => absurd h (Nat.not_lt_zero n)⟩
  | cons g _ ih =>
    by_cases hn : n < g.bytes.length
    · refine ⟨0, g.bytes.take n, ?_, ?_, fun _ => Nat.zero_lt_succ _⟩
      · rw [encodeFrames, take_append_of_le_length (by omega)]
        rfl
      · apply decodeFrame_cut ( take_prefix n g.bytes)
        rw [length_take]
        omega
    · rcases ih (n - g.bytes.length) with ⟨k, tail, htake, htail, hlt⟩
      refine ⟨k + 1, tail, ?_, htail, ?_⟩
      · rw [encodeFrames, take_append, take_of_length_le (by omega), htake,
          take_succ_cons, encodeFrames, append_assoc]
      intro hlen
      rw [encodeFrames, length_append] at hlen
      rw [length_cons]
      omega

/-- The first `n` bytes of a redo buffer, behind a file that is whole. -/
theorem scanned_take {id : Nat} (n : Nat) (h : Scanned c file log) (hw : wholeFile file = true)
    (hid : id < 2 ^ 64) (hfits : ∀ r ∈ rs, c.Fits r) :
    ∃ k, Scanned c (file ++ (c.frames id rs).take n) (log ++ (rs.take k).map (fun r => (id, r))) ∧
      (n < (c.frames id rs).length → k < rs.length) := by
  rcases h with ⟨fs, _, rfl, htail, rfl⟩
  rw [tail_nil_of_whole htail hw, append_nil]
  rcases exists_entries hid hfits with ⟨gs, henc, hmap⟩
  rcases take_encodeFrames gs n with ⟨k, torn, htake, htorn, hlt⟩
  have hlen : gs.length = rs.length := by
    have := congrArg length hmap
    rwa [length_map, length_map] at this
  refine ⟨k, ⟨fs ++ gs.take k, torn, ?_, htorn, ?_⟩, ?_⟩
  · rw [← henc, htake, TornTail.encodeFrames_append, append_assoc]
  · rw [map_append, map_take, map_take, hmap]
  · rw [← henc, ← hlen]
    exact hlt

/-- The whole of it. -/
theorem scanned_append {id : Nat} (h : Scanned c file log) (hw : wholeFile file = true)
    (hid : id < 2 ^ 64) (hfits : ∀ r ∈ rs, c.Fits r) :
    Scanned c (file ++ c.frames id rs) (log ++ rs.map (fun r => (id, r))) := by
  rcases h with ⟨fs, _, rfl, htail, rfl⟩
  rw [tail_nil_of_whole htail hw, append_nil]
  rcases exists_entries hid hfits with ⟨gs, henc, hmap⟩
  refine ⟨fs ++ gs, [], ?_, rfl, ?_⟩
  · rw [← henc, TornTail.encodeFrames_append, append_nil]
  · rw [map_append, hmap]

-- Steps on whole frames

/-- COMMIT has failed and left `extra` in the log. -/
def aborted (s : Db) (x : Trx) (extra : List (Nat × Record Version)) : Db :=
  { s.abortTrx x with log := s.log ++ extra }

/-- What a step does to the database if it finds the file whole. -/
inductive Move (s : Db) : CommitLabel → Db → Prop where
  | db (l : Label) (s' : Db) (h : s.step l = some s') : Move s (.db l) s'
  | failAppend (n k : Nat) (x : Trx) (hv : s.vacuum = none) (hx : x ∈ s.trxs)
      (hph : x.phase = .running) (hp : x.pending = none) :
      Move s (.failAppend x.id n) (aborted s x ((x.wal.take k).map (fun r => (x.id, r))))
  | failRecord (n : Nat) (x : Trx) (hv : s.vacuum = none) (hx : x ∈ s.trxs)
      (hph : x.phase = .appended) : Move s (.failRecord x.id n) (aborted s x [])
  | failSync (x : Trx) (hv : s.vacuum = none) (hx : x ∈ s.trxs) (hph : x.phase = .appended) :
      Move s (.failSync x.id) (aborted s x [(x.id, .commit)])

/-- An append finds the log file whole. -/
def WholeAppends (s : LoggedDb) (l : CommitLabel) : Prop :=
  l.appends = true → wholeFile s.file = true

instance (s : LoggedDb) (l : CommitLabel) : Decidable (WholeAppends s l) :=
  inferInstanceAs (Decidable (_ → _))

theorem fits_commit (c : ImageCodec) : ∀ r ∈ [(Record.commit : Record Version)], c.Fits r := by
  intro _ hr
  rw [mem_singleton.mp hr]
  exact ⟨trivial, rfl⟩

/-- The log of a database that moved to `db` is what the step says anyway. -/
theorem write_db {s : LoggedDb} {db : Db} {bytes : Bytes} (h : Scanned c (s.file ++ bytes) db.log) :
    (s.write c db bytes).db = db := by
  unfold write
  rw [readLog_of_scanned h]

/-- Every other step leaves the log alone, or empties it together with the file. -/
theorem log_of_step (hl : CommitLabel.appends (.db l) = false)
    (hend : ∀ exclude, l ≠ .checkpointEnd exclude) (h : s.step l = some s') : s'.log = s.log := by
  cases Db.step_cases h with
  | trx _ _ _ _ _ hstep =>
    cases hstep with
    | commitAppend | commitRecord => simp [CommitLabel.appends] at hl
    | _ => rfl
  | truncate exclude => exact absurd rfl (hend exclude)
  | crash _ hre => exact (Db.reopened_of_reopen hre).log
  | _ => rfl

theorem log_of_checkpointEnd {exclude : Option Nat}
    (h : s.step (.checkpointEnd exclude) = some s') :
    s'.log = if s.cutsLog exclude then [] else s.log := by
  simp only [Db.step] at h
  split at h
  · next c _ hc =>
    obtain ⟨_, h⟩ := ite_none_right_eq_some.mp h
    have hcut : s.cutsLog exclude = true ↔
        s.nothingOpen exclude = true ∧ s.tm.commits = c.commits := by
      simp [Db.cutsLog, hc]
    by_cases hg : s.nothingOpen exclude = true ∧ s.tm.commits = c.commits
    · rw [if_pos hg, some.injEq] at h
      rw [if_pos (hcut.mpr hg), ← h]
    · rw [if_neg hg, some.injEq] at h
      rw [if_neg (fun hcl => hg (hcut.mp hcl)), ← h]
  · cases h

theorem db_move_of_step {s s' : LoggedDb} (hsc : Scanned c s.file s.db.log)
    (hw : WholeAppends s (.db l)) (h : s.step c (.db l) = some s') :
    Move s.db (.db l) s'.db ∧ Scanned c s'.file s'.db.log := by
  -- the steps that leave the file as it is
  have hplain : CommitLabel.appends (.db l) = false → (∀ exclude, l ≠ .checkpointEnd exclude) →
      (s.db.step l).map (fun db => (⟨db, s.file⟩ : LoggedDb)) = some s' →
      Move s.db (.db l) s'.db ∧ Scanned c s'.file s'.db.log := by
    intro hl hend hs
    rw [map_eq_some_iff] at hs
    obtain ⟨db, hdb, rfl⟩ := hs
    exact ⟨.db l db hdb, by rw [log_of_step hl hend hdb]; exact hsc⟩
  cases l with
  | trx id a =>
    cases a with
    | commitAppend =>
      simp only [step] at h
      split at h
      · next x db hx hdb =>
        obtain ⟨⟨hid, hfits⟩, rfl⟩ := ite_some_none_eq_some.mp h
        have hlog : db.log = s.db.log ++ x.wal.map (fun r => (id, r)) := by
          have hs := hdb
          simp only [Db.step, hx] at hs
          obtain ⟨_, rfl⟩ := s.db.mem_of_trx hx
          split at hs
          · next hx' =>
            cases hx'
            rw [Db.trxStep, ite_some_none_eq_some] at hs
            rw [← hs.2]
          · cases hs
        have hk := scanned_append hsc (hw rfl) hid hfits
        rw [← hlog] at hk
        rw [write_db hk]
        exact ⟨.db _ db hdb, hk⟩
      · cases h
    | commitRecord =>
      simp only [step] at h
      split at h
      · next db hdb =>
        obtain ⟨hid, rfl⟩ := ite_some_none_eq_some.mp h
        have hlog : db.log = s.db.log ++ [(id, .commit)] := by
          cases Db.step_cases hdb with
          | trx _ _ _ _ _ hstep =>
            cases hstep with
            | commitRecord => rfl
        have hk := scanned_append hsc (hw rfl) hid (fits_commit c)
        rw [map_singleton, ← hlog] at hk
        rw [write_db hk]
        exact ⟨.db _ db hdb, hk⟩
      · cases h
    | _ => exact hplain rfl (fun _ he => by cases he) h
  | checkpointEnd =>
    simp only [step, map_eq_some_iff] at h
    obtain ⟨db, hdb, rfl⟩ := h
    refine ⟨.db _ db hdb, ?_⟩
    rw [log_of_checkpointEnd hdb]
    split
    · exact ⟨[], [], rfl, rfl, rfl⟩
    · exact hsc
  | _ => exact hplain rfl (fun _ he => by cases he) h

theorem move_of_step {s s' : LoggedDb} {l : CommitLabel} (hsc : Scanned c s.file s.db.log)
    (hw : WholeAppends s l) (h : s.step c l = some s') :
    Move s.db l s'.db ∧ Scanned c s'.file s'.db.log := by
  cases l with
  | db => exact db_move_of_step hsc hw h
  | failAppend id n =>
    simp only [step] at h
    split at h
    · next x hv hx =>
      obtain ⟨⟨hph, hp, _, hid, hfits, _⟩, rfl⟩ := ite_some_none_eq_some.mp h
      obtain ⟨hmem, rfl⟩ := s.db.mem_of_trx hx
      rcases scanned_take n hsc (hw rfl) hid hfits with ⟨k, hk, _⟩
      unfold write
      rw [readLog_of_scanned hk]
      exact ⟨.failAppend n k x hv hmem hph hp, hk⟩
    · cases h
  | failRecord id n =>
    simp only [step] at h
    split at h
    · next x hv hx =>
      obtain ⟨⟨hph, hid, hlt⟩, rfl⟩ := ite_some_none_eq_some.mp h
      obtain ⟨hmem, rfl⟩ := s.db.mem_of_trx hx
      rcases scanned_take n hsc (hw rfl) hid (fits_commit c) with ⟨k, hk, hklt⟩
      have hzero : k = 0 := Nat.lt_one_iff.mp (hklt hlt)
      rw [hzero] at hk
      unfold write
      rw [readLog_of_scanned hk]
      exact ⟨.failRecord n x hv hmem hph, hk⟩
    · cases h
  | failSync id =>
    simp only [step] at h
    split at h
    · next x hv hx =>
      obtain ⟨⟨hph, hid⟩, rfl⟩ := ite_some_none_eq_some.mp h
      obtain ⟨hmem, rfl⟩ := s.db.mem_of_trx hx
      have hk := scanned_append hsc (hw rfl) hid (fits_commit c)
      unfold write
      rw [readLog_of_scanned hk]
      exact ⟨.failSync x hv hmem hph, hk⟩
    · cases h

-- What holds of every run

/-- Nothing durable calls an id committed, and neither does the bitmap. -/
structure Uncommitted (s : Db) (t : Nat) : Prop where
  log : (t, Record.commit) ∉ s.log
  marked : t ∉ s.tm.committed.marked
  saved : t ∉ s.saved.committedTrxs

theorem uncommitted_same (h : Uncommitted s t) (hlog : s'.log = s.log)
    (hmarked : s'.tm.committed.marked = s.tm.committed.marked)
    (hsaved : s'.saved.committedTrxs = s.saved.committedTrxs ∨
      s'.saved.committedTrxs = s.tm.committed.marked) : Uncommitted s' t where
  log := hlog.symm ▸ h.log
  marked := hmarked.symm ▸ h.marked
  saved := by
    rcases hsaved with hs | hs
    · exact hs.symm ▸ h.saved
    · exact hs.symm ▸ h.marked

theorem commit_not_mem_map (t id : Nat) (h : Record.commit ∉ rs) :
    (t, Record.commit) ∉ rs.map (fun r => (id, r)) := by
  intro hm
  rcases mem_map.mp hm with ⟨_, hr, he⟩
  rw [mk.injEq] at he
  exact h (he.2 ▸ hr)

/-- A redo buffer holds no commit record and only records of its transaction. -/
theorem wal_ok (hi : Inv s) (hx : x ∈ s.trxs) (hph : x.phase = .running) (hp : x.pending = none) :
    Record.commit ∉ x.wal ∧ ∀ r ∈ x.wal, r.WrittenBy x.id := by
  rw [wal_eq_of_running (hi.trx_ok x hx) hph hp]
  exact ⟨commit_not_mem_redoBuffer x.id x.undo, writtenBy_redoBuffer⟩

/-- Only the transaction itself logs its commit and sets its bit. -/
theorem uncommitted_trxStep (h : Uncommitted s t) (hi : Inv s) (hx : x ∈ s.trxs)
    (hstep : Db.TrxStep s x a s') (hne : x.id = t → a ≠ .commitRecord ∧ a ≠ .commitMark) :
    Uncommitted s' t := by
  cases hstep with
  | commitAppend hph hp =>
    refine ⟨?_, h.marked, h.saved⟩
    intro hm
    rcases mem_append.mp hm with hm | hm
    · exact h.log hm
    · exact commit_not_mem_map t x.id (wal_ok hi hx hph hp).1 hm
  | commitRecord =>
    refine ⟨?_, h.marked, h.saved⟩
    intro hm
    rcases mem_append.mp hm with hm | hm
    · exact h.log hm
    · rw [mem_singleton, mk.injEq] at hm
      exact (hne hm.1.symm).1 rfl
  | commitMark =>
    refine ⟨h.log, ?_, h.saved⟩
    intro hm
    rcases Horizon.mem_marked_mark hm with he | hm
    · exact (hne he.symm).2 rfl
    · exact h.marked hm
  | _ => exact uncommitted_same h rfl rfl (.inl rfl)

theorem uncommitted_step (h : Uncommitted s t) (hi : Inv s) (hstep : s.step l = some s')
    (hne : l ≠ .trx t .commitRecord ∧ l ≠ .trx t .commitMark) : Uncommitted s' t := by
  cases Db.step_cases hstep with
  | trx _ _ _ _ hx ht =>
    refine uncommitted_trxStep h hi hx ht ?_
    intro hid
    rw [hid] at hne
    exact ⟨fun ha => hne.1 (by rw [ha]), fun ha => hne.2 (by rw [ha])⟩
  | truncate =>
    exact ⟨not_mem_nil, h.marked, h.saved⟩
  | checkpointSave | createTable | dropTable | otherDdl | vacuumSave =>
    exact uncommitted_same h rfl rfl (.inr rfl)
  | vacuumHorizon =>
    exact ⟨h.log, fun hm => h.marked (Horizon.mem_marked_advance hm), h.saved⟩
  | crash s' hre =>
    have hr := Db.reopened_of_reopen hre
    have hmarked : t ∉ s'.tm.committed.marked := by
      intro hm
      rw [hr.tm] at hm
      exact (Horizon.mem_marked_recovered hm).elim h.saved h.log
    refine ⟨hr.log.symm ▸ h.log, hmarked, ?_⟩
    rcases hr.saved with hs | hs
    · exact hs.symm ▸ h.saved
    · exact hs.symm ▸ hmarked
  | _ => exact uncommitted_same h rfl rfl (.inl rfl)

/-- Phases in which nothing has been said about the outcome. -/
def undecided : Phase → Bool
  | .running => true
  | .undoing => true
  | .appended => true
  | _ => false

/-- What holds of every run whose appends find the file whole. -/
structure Tracked (s : Db) : Prop where
  owned : Owned s
  status : VacuumVisibility.StatusOk s
  tables : VacuumVisibility.InTables s
  saved_le : s.saved.nextTrxId ≤ s.tm.nextId
  clear : ∀ x ∈ s.trxs, undecided x.phase = true → Uncommitted s x.id

/-- From which phase to which an action takes its transaction. -/
def phaseMove : TrxAction → Phase → Phase → Prop
  | .failStatement, p, q => p = .running ∧ q = .undoing
  | .endUndo, p, q => p = .undoing ∧ q = .running
  | .rollback, p, q => p = .running ∧ q = .aborting
  | .commitAppend, p, q => p = .running ∧ q = .appended
  | .commitRecord, p, q => p = .appended ∧ q = .logged
  | .commitReadOnly, p, q => p = .running ∧ q = .logged
  | .commitCount, p, q => p = .logged ∧ q = .counted
  | .commitMark, p, q => p = .counted ∧ q = .marked
  | _, p, q => q = p

/-- A transaction after a step of `x`: another one, or `x` in its next phase. -/
theorem phase_of_trxStep (hstep : Db.TrxStep s x a s') {z : Trx} (hz : z ∈ s'.trxs) :
    (z ∈ s.trxs ∧ (z.id = x.id → a = .removeOpen)) ∨
      (z.id = x.id ∧ phaseMove a x.phase z.phase) := by
  have hput : ∀ {y : Trx}, s'.trxs = (s.putTrx y).trxs → y.id = x.id →
      phaseMove a x.phase y.phase → (z ∈ s.trxs ∧ (z.id = x.id → a = .removeOpen)) ∨
        (z.id = x.id ∧ phaseMove a x.phase z.phase) := by
    intro y htrxs hid hmove
    rw [htrxs] at hz
    rcases s.mem_putTrx hz with rfl | ⟨hz, hne⟩
    · exact .inr ⟨hid, hmove⟩
    · exact .inl ⟨hz, fun h => absurd (h.trans hid.symm) hne⟩
  cases hstep with
  | removeOpen => exact .inl ⟨hz, fun _ => rfl⟩
  | finishRollback | commitFinish =>
    rcases (s.mem_dropTrx x.id z).mp hz with ⟨hz, hne⟩
    exact .inl ⟨hz, fun h => absurd h hne⟩
  | failStatement hph | endUndo hph | rollback hph | commitAppend hph | commitRecord hph
  | commitReadOnly hph | commitCount hph | commitMark hph => exact hput rfl rfl ⟨hph, rfl⟩
  | _ => exact hput rfl rfl rfl

theorem undecided_of_move {p q : Phase} (h : phaseMove a p q) (hq : undecided q = true) :
    undecided p = true ∧ a ≠ .commitRecord ∧ a ≠ .commitMark := by
  cases a with
  | failStatement | endUndo | commitAppend =>
    rw [h.1]
    exact ⟨rfl, nofun, nofun⟩
  | rollback | commitRecord | commitReadOnly | commitCount | commitMark =>
    rw [h.2] at hq
    cases hq
  | _ => exact ⟨h ▸ hq, nofun, nofun⟩

/-- Where an undecided transaction was one step ago. -/
theorem undecided_origin (hstep : s.step l = some s') {z : Trx} (hz : z ∈ s'.trxs)
    (hph : undecided z.phase = true) :
    (∃ w ∈ s.trxs, w.id = z.id ∧ undecided w.phase = true ∧
      l ≠ .trx z.id .commitRecord ∧ l ≠ .trx z.id .commitMark) ∨
    (l = .begin ∧ z.id = s.tm.nextId) := by
  cases Db.step_cases hstep with
  | begin =>
    rcases mem_cons.mp hz with rfl | hz
    · exact .inr ⟨rfl, rfl⟩
    · exact .inl ⟨z, hz, rfl, hph, nofun, nofun⟩
  | trx x a _ _ hx ht =>
    rcases phase_of_trxStep ht hz with ⟨hz, hsame⟩ | ⟨hid, hmove⟩
    · have hno : ∀ b, b ≠ .removeOpen → Label.trx x.id a ≠ .trx z.id b := by
        intro b hb h
        rw [Label.trx.injEq] at h
        exact hb (h.2 ▸ hsame h.1.symm)
      exact .inl ⟨z, hz, rfl, hph, hno _ nofun, hno _ nofun⟩
    · rcases undecided_of_move hmove hph with ⟨hx', ha⟩
      exact .inl ⟨x, hx, hid.symm, hx', fun h => ha.1 (Label.trx.inj h).2,
        fun h => ha.2 (Label.trx.inj h).2⟩
  | crash _ hre =>
    rw [(Db.reopened_of_reopen hre).trxs] at hz
    cases hz
  | _ => exact .inl ⟨z, hz, rfl, hph, nofun, nofun⟩

namespace Tracked

theorem fresh (inlineLimit : Nat) : Tracked (Db.fresh inlineLimit) where
  owned := Owned.fresh inlineLimit
  status := VacuumVisibility.statusOk_fresh inlineLimit
  tables := VacuumVisibility.inTables_fresh inlineLimit
  saved_le := Nat.le_refl _
  clear := nofun

/-- The saved next id never gets ahead. -/
theorem saved_le_step (h : s.saved.nextTrxId ≤ s.tm.nextId) (hstep : s.step l = some s') :
    s'.saved.nextTrxId ≤ s'.tm.nextId := by
  cases Db.step_cases hstep with
  | begin => exact Nat.le_succ_of_le h
  | trx _ _ _ _ _ ht => cases ht <;> exact h
  | checkpointSave | createTable | dropTable | otherDdl | vacuumSave => exact Nat.le_refl _
  | crash _ hre =>
    have hr := Db.reopened_of_reopen hre
    rcases hr.saved with hs | hs
    · rw [hs, hr.tm, Db.nextId_recoveredTm]
      exact Nat.le_max_left _ _
    · rw [hs]
      exact Nat.le_refl _
  | _ => exact h

/-- An id that has not been handed out is nowhere. -/
theorem uncommitted_next (h : Tracked s) : Uncommitted s s.tm.nextId where
  log := fun hm => Nat.lt_irrefl _ (h.owned.inv.log_lt _ hm).2
  marked := by
    intro hm
    have hne := Nat.pos_iff_ne_zero.mp h.owned.inv.next_pos
    exact Nat.lt_irrefl _ (h.status.now _ ((Clog.isCommitted_iff _ _).mpr ⟨hne, .inr hm⟩))
  saved := by
    intro hm
    have hne := Nat.pos_iff_ne_zero.mp h.owned.inv.next_pos
    have hlt := h.status.saved _ hne (.inr hm)
    have := h.saved_le
    omega

theorem step (h : Tracked s) (hstep : s.step l = some s') : Tracked s' where
  owned := h.owned.step hstep
  status := VacuumVisibility.statusOk_step h.status hstep
  tables := VacuumVisibility.inTables_step h.tables hstep
  saved_le := saved_le_step h.saved_le hstep
  clear := by
    intro _ hz hph
    rcases undecided_origin hstep hz hph with ⟨w, hw, hid, hwph, hl⟩ | ⟨hl, hid⟩
    · exact uncommitted_step (hid ▸ h.clear w hw hwph) h.owned.inv hstep hl
    rw [hid]
    rw [hl] at hstep
    exact uncommitted_step (uncommitted_next h) h.owned.inv hstep ⟨nofun, nofun⟩

/-- A failed COMMIT: `extra` is of the transaction itself. -/
theorem abort (h : Tracked s) (hv : s.vacuum = none) (hx : x ∈ s.trxs) (hp : x.pending = none)
    (hph : x.phase ≠ .aborting) (hextra : ∀ e ∈ extra, e.1 = x.id ∧ e.2.WrittenBy x.id) :
    Tracked (aborted s x extra) := by
  have hi' : Inv (aborted s x extra) :=
    h.owned.inv.put hx rfl rfl rfl rfl rfl rfl hextra (fun _ => hph) hp
  refine ⟨h.owned.quiet hi' hx hv rfl rfl rfl rfl rfl, { h.status with inv := hi' },
    { h.tables with }, h.saved_le, ?_⟩
  intro z hz hzph
  rcases s.mem_putTrx hz with rfl | ⟨hz, hne⟩
  · cases hzph
  have hu := h.clear z hz hzph
  refine ⟨?_, hu.marked, hu.saved⟩
  intro hm
  rcases mem_append.mp hm with hm | hm
  · exact hu.log hm
  · exact hne (hextra _ hm).1

theorem move {l : CommitLabel} (h : Tracked s) (hm : Move s l s') : Tracked s' := by
  have happ : ∀ x ∈ s.trxs, x.phase = .appended → x.pending = none ∧ x.phase ≠ .aborting := by
    intro x hx hph
    exact ⟨Owned.pending_none (h.owned.inv.trx_ok x hx) (hph.trans_ne nofun),
      hph.trans_ne nofun⟩
  cases hm with
  | db _ _ hstep => exact h.step hstep
  | failAppend _ _ _ hv hx hph hp =>
    refine h.abort hv hx hp (hph.trans_ne nofun) ?_
    intro e he
    rcases mem_map.mp he with ⟨r, hr, rfl⟩
    exact ⟨rfl, (wal_ok h.owned.inv hx hph hp).2 r (mem_of_mem_take hr)⟩
  | failRecord _ x hv hx hph =>
    exact h.abort hv hx (happ x hx hph).1 (happ x hx hph).2 nofun
  | failSync x hv hx hph =>
    refine h.abort hv hx (happ x hx hph).1 (happ x hx hph).2 ?_
    intro _ he
    rw [mem_singleton.mp he]
    exact ⟨rfl, trivial⟩

end Tracked

-- A transaction whose COMMIT failed

/-- A version that a transaction created or marked. -/
def Names (t : Nat) (v : Version) : Prop := v.creator = t ∨ v.deleter = t

instance (t : Nat) (v : Version) : Decidable (Names t v) := inferInstanceAs (Decidable (_ ∨ _))

/-- A stored version names the transaction, or one could again after an undo. -/
def Named (s : Db) (t : Nat) : Prop :=
  (∃ f rid v, s.mem.get f rid = some v ∧ Names t v) ∨
    ∃ x ∈ s.trxs, ∃ u ∈ x.undo, IdReuse.prevDeleter u = t

/-- What keeps a transaction hidden that did not commit. -/
structure Hidden (t : Nat) (s : Db) : Prop where
  tracked : Tracked s
  ne_zero : t ≠ 0
  uncommitted : Uncommitted s t
  /-- It does nothing any more but roll back. -/
  ended : ∀ x ∈ s.trxs, x.id = t → x.phase = .aborting
  /-- The horizon has not gone past it while it can still be found. -/
  named : Named s t → s.tm.committed.base ≤ t
  /-- VACUUM will come to every version of it. -/
  work : ∀ work, s.vacuum = some (.cleaning work) → ∀ f rid v, s.mem.get f rid = some v →
    Names t v → (f, rid) ∈ work

/-- No snapshot of another transaction sees a version the transaction created or
    takes its mark for a deletion. -/
def Unseen (t : Nat) (s : Db) : Prop :=
  ∀ f rid v, s.mem.get f rid = some v → ∀ snap id, id ≠ t →
    (v.creator = t → Snapshot.visible snap s.tm.committed id v.creator v.deleter = false) ∧
    (v.deleter = t → Snapshot.visible snap s.tm.committed id v.creator v.deleter =
      Snapshot.visible snap s.tm.committed id v.creator 0)

/-- What a slot or an undo list names was named before. -/
theorem named_keep (h : Named s' t)
    (hmem : ∀ f rid v, s'.mem.get f rid = some v → Names t v → Named s t)
    (hundo : ∀ z ∈ s'.trxs, ∀ u ∈ z.undo, IdReuse.prevDeleter u = t → Named s t) : Named s t := by
  rcases h with ⟨f, rid, v, hv, hn⟩ | ⟨z, hz, u, hu, hd⟩
  · exact hmem f rid v hv hn
  · exact hundo z hz u hu hd

/-- No step but one of the transaction itself names it anew. -/
theorem named_trxStep (hi : Inv s) (ht : t ≠ 0) (hend : x.id = t → x.phase = .aborting)
    (hx : x ∈ s.trxs) (hstep : Db.TrxStep s x a s') (h : Named s' t) : Named s t := by
  -- whoever writes is another transaction
  have hother : x.phase = .running ∨ x.pending ≠ none → x.id ≠ t := by
    intro hw hid
    have hne : x.phase ≠ .running := by
      rw [hend hid]
      exact nofun
    exact hw.elim hne (fun hp => hp (Owned.pending_none (hi.trx_ok x hx) hne))
  refine named_keep h ?_ ?_
  · intro f rid w hw hn
    rcases IdReuse.slot_of_trxStep hstep hw with hw | ⟨_, ⟨hph, hc, hd⟩ | ⟨v, hv, hc, hd⟩⟩
    · exact .inl ⟨f, rid, w, hw, hn⟩
    · rcases hn with hn | hn
      · exact absurd (hc.symm.trans hn) (hother (.inl hph))
      · exact absurd (hn.symm.trans hd) ht
    rcases hn with hn | hn
    · exact .inl ⟨f, rid, v, hv, .inl (hc.symm.trans hn)⟩
    · rcases hd with ⟨hd, hw⟩ | ⟨u, hu, hd⟩
      · exact absurd (hd.symm.trans hn) (hother hw)
      · exact .inr ⟨x, hx, u, hu, hd.trans hn⟩
  · intro z hz u hu hd
    rcases IdReuse.undo_of_trxStep hstep hz with hz | ⟨_, hz⟩
    · exact .inr ⟨z, hz, u, hu, hd⟩
    rcases hz u hu with ⟨o, ho, hod⟩ | ⟨_, h0 | ⟨f, rid, v, hv, hvd⟩⟩
    · exact .inr ⟨x, hx, o, ho, hod.trans hd⟩
    · exact absurd (hd.symm.trans h0) ht
    · exact .inl ⟨f, rid, v, hv, .inr (hvd.trans hd)⟩

/-- What a later step must not do: hand the id out again, or lose what is in memory when a version
    on disk names the transaction and the saved horizon has gone past it. -/
def SafeFor (t : Nat) (s : Db) : CommitLabel → Prop
  | .db .begin => s.tm.nextId ≠ t
  | .db .crash => ∀ v ∈ s.disk.versions, Names t v → s.saved.clogBase ≤ t
  | _ => True

instance (t : Nat) (s : Db) (l : CommitLabel) : Decidable (SafeFor t s l) := by
  unfold SafeFor
  split <;> infer_instance

namespace Hidden

theorem not_committed (h : Hidden t s) (hn : Named s t) : s.tm.committed.isCommitted t = false := by
  rw [← not_eq_true, Clog.isCommitted_iff]
  intro hc
  have := h.named hn
  rcases hc.2 with _ | hm
  · omega
  · exact h.uncommitted.marked hm

/-- It never gets to the steps that commit. -/
theorem not_committing (h : Hidden t s) (hstep : s.step l = some s') :
    l ≠ .trx t .commitRecord ∧ l ≠ .trx t .commitMark := by
  constructor
  all_goals
    rintro rfl
    cases Db.step_cases hstep with
    | trx x _ _ _ hx ht =>
      cases ht
      cases (h.ended x hx rfl).symm.trans ‹_›

/-- Rolling back is the last thing a transaction does. -/
theorem ended_trxStep (h : Hidden t s) (hx : x ∈ s.trxs) (hstep : Db.TrxStep s x a s') :
    ∀ z ∈ s'.trxs, z.id = t → z.phase = .aborting := by
  intro z hz hzt
  rcases phase_of_trxStep hstep hz with ⟨hz, _⟩ | ⟨hid, hmove⟩
  · exact h.ended z hz hzt
  rw [h.ended x hx (hid ▸ hzt)] at hmove
  unfold phaseMove at hmove
  split at hmove
  case h_9 => exact hmove
  all_goals cases hmove.1

/-- The horizon and VACUUM stay where they are. -/
theorem frame_trxStep (hstep : Db.TrxStep s x a s') :
    s'.tm.committed.base = s.tm.committed.base ∧ s'.vacuum = s.vacuum := by
  cases hstep with
  | commitMark => exact ⟨VacuumVisibility.base_mark _ _, rfl⟩
  | _ => exact ⟨rfl, rfl⟩

/-- VACUUM has gone past one record, and what it left there does not name the transaction. -/
theorem vacuumOne (h : Hidden t s) (ht : Tracked s') (hu : Uncommitted s' t)
    (hc : Db.Cleaned s s' f rid todo v o) : Hidden t s' := by
  have hmem : ∀ g r w, s'.mem.get g r = some w → Names t w →
      s.mem.get g r = some w ∧ (g, r) ≠ (f, rid) := by
    intro g r w hg hn
    refine (hc.origin hg).resolve_right ?_
    rintro ⟨hv, hcr, hcom, hd⟩
    rcases hn with hn | hn
    · -- a version of a committed creator is not one of the transaction
      have hvt : v.creator = t := hcr.symm.trans hn
      rw [hvt, not_committed h (.inl ⟨g, r, v, hv, .inl hvt⟩)] at hcom
      cases hcom
    · exact h.ne_zero (hn.symm.trans hd)
  refine ⟨ht, h.ne_zero, hu, hc.trxs.symm ▸ h.ended, ?_, ?_⟩
  · intro hn
    rw [hc.tm]
    refine h.named (named_keep hn (fun g r v hv hv' => ?_) ?_)
    · exact .inl ⟨g, r, v, (hmem g r v hv hv').1, hv'⟩
    · rw [hc.trxs]
      exact fun z hz u hu hd => .inr ⟨z, hz, u, hu, hd⟩
  · intro _ hwork g r v hv hn
    rw [hc.left, some.injEq, VacuumState.cleaning.injEq] at hwork
    rw [← hwork]
    have hg := hmem g r v hv hn
    exact (mem_cons.mp (h.work _ hc.todo g r v hg.1 hn)).resolve_left hg.2

/-- What recovery leaves in a slot names the transaction only if the disk did: redo brings nothing
    of one that has no commit record. -/
theorem named_of_reopened (hi : Inv s) (ht : t ≠ 0) (hu : Uncommitted s t) (hr : Db.Reopened s s')
    (hn : Named s' t) : ∃ v ∈ s.disk.versions, Names t v := by
  rcases hn with ⟨f, rid, v, hv, hv'⟩ | ⟨_, hx, _⟩
  · have hall : s'.mem.All (fun v => Names t v → ∃ w ∈ s.disk.versions, Names t w) := by
      refine Db.redo_invariant (Heap.All (fun v => Names t v → ∃ w ∈ s.disk.versions, Names t w))
        s.disk ?_ ?_ hr.mem
      · intro g r w hw hnw
        exact ⟨w, (Heap.mem_versions_iff _ _).mpr ⟨g, r, hw⟩, hnw⟩
      intro _ _ _ hrec hg hone
      cases Db.redoOne_cases hone with
      | skip => exact hg
      | fill =>
        refine Heap.all_setSlot _ _ hg ?_
        rintro _ ⟨⟩ hn'
        have hins := Horizon.counts_of_redo_insert hi hrec
        rcases hn' with hn' | hn'
        · exact absurd (hn' ▸ hins.2) hu.log
        · exact absurd (hn'.symm.trans hins.1) ht
      | mark _ hw =>
        refine Heap.all_setSlot _ _ hg ?_
        rintro _ ⟨⟩ hn'
        rcases hn' with hn' | hn'
        · exact hg _ _ _ hw (.inl hn')
        · exact absurd (hn' ▸ (Horizon.counts_of_redo_mark hi hrec).2) hu.log
    exact hall f rid v hv hv'
  · rw [hr.trxs] at hx
    cases hx

theorem reopened (h : Hidden t s) (htr : Tracked s') (hu : Uncommitted s' t) (hr : Db.Reopened s s')
    (hok : ∀ v ∈ s.disk.versions, Names t v → s.saved.clogBase ≤ t) : Hidden t s' where
  tracked := htr
  ne_zero := h.ne_zero
  uncommitted := hu
  ended := by
    rw [hr.trxs]
    exact nofun
  named := by
    intro hn
    rcases named_of_reopened h.tracked.owned.inv h.ne_zero h.uncommitted hr hn with
      ⟨v, hv, hnv⟩
    have hbase := hok v hv hnv
    by_contra hlt
    have hcount : s'.tm.committed.isCommitted t = true :=
      (Clog.isCommitted_iff _ _).mpr ⟨h.ne_zero, .inl (Nat.lt_of_not_le hlt)⟩
    rw [hr.tm, Db.isCommitted_recoveredTm] at hcount
    rcases hcount.2 with _ | hs | hl
    · omega
    · exact h.uncommitted.saved hs
    · exact h.uncommitted.log hl
  work := by
    intro _ hw
    cases hr.vacuum.symm.trans hw

theorem step (h : Hidden t s) (hok : SafeFor t s (.db l)) (hstep : s.step l = some s') :
    Hidden t s' := by
  have htr := h.tracked.step hstep
  have hu := uncommitted_step h.uncommitted h.tracked.owned.inv hstep (not_committing h hstep)
  cases Db.step_cases hstep with
  | begin hv =>
    refine ⟨htr, h.ne_zero, hu, ?_, ?_, ?_⟩
    · exact forall_mem_cons.mpr ⟨fun hid => absurd hid hok, h.ended⟩
    · intro hn
      refine h.named (named_keep hn (fun f rid v hv hv' => .inl ⟨f, rid, v, hv, hv'⟩) ?_)
      intro z hz u hu hd
      rcases mem_cons.mp hz with rfl | hz
      · cases hu
      · exact .inr ⟨z, hz, u, hu, hd⟩
    · intro work hw
      cases hv.symm.trans hw
  | trx x _ _ hv hx ht =>
    have hframe := frame_trxStep ht
    refine ⟨htr, h.ne_zero, hu, ended_trxStep h hx ht, ?_, ?_⟩
    · intro hn
      rw [hframe.1]
      exact h.named (named_trxStep h.tracked.owned.inv h.ne_zero (h.ended x hx) hx ht hn)
    · intro work hw
      rw [hframe.2, hv] at hw
      cases hw
  | createTable | dropTable =>
    -- the pages may only lose versions
    refine { h with tracked := htr, uncommitted := hu, named := ?_, work := ?_ }
    · intro hn
      refine h.named (named_keep hn (fun f rid v hv hv' => .inl ⟨f, rid, v, ?_, hv'⟩)
        (fun z hz u hu hd => .inr ⟨z, hz, u, hu, hd⟩))
      exact (VacuumVisibility.get_setFile_empty (by simp) hv).2
    · intro work hw f rid v hv hn
      exact h.work work hw f rid v (VacuumVisibility.get_setFile_empty (by simp) hv).2 hn
  | vacuumBegin =>
    refine { h with tracked := htr, uncommitted := hu, work := ?_ }
    intro work hw f rid v hg _
    rw [some.injEq, VacuumState.cleaning.injEq] at hw
    rw [← hw]
    exact Db.mem_allRecords (h.tracked.tables.mem _ _ _ hg) hg
  | vacuumDelete | vacuumUnmark | vacuumKeep =>
    rcases Db.cleaned_of_step hstep with ⟨_, _, _, _, _, hc⟩
    exact vacuumOne h htr hu hc
  | vacuumHorizon hw =>
    -- nothing names it any more
    have hbusy := h.tracked.owned.vacuum (by rw [hw]; simp)
    refine { h with tracked := htr, uncommitted := hu, named := ?_, work := nofun }
    intro hn
    rcases hn with ⟨f, rid, v, hv, hv'⟩ | ⟨x, hx, _, hu', _⟩
    · exact absurd (h.work [] hw f rid v hv hv') not_mem_nil
    · rw [(hbusy x hx).1] at hu'
      cases hu'
  | vacuumSave => exact { h with tracked := htr, uncommitted := hu, work := nofun }
  | crash _ hre => exact reopened h htr hu (Db.reopened_of_reopen hre) hok
  | _ => exact { h with tracked := htr, uncommitted := hu }

/-- Another transaction's COMMIT fails. -/
theorem abort (h : Hidden t s) (htr : Tracked (aborted s x extra)) (hx : x ∈ s.trxs)
    (hextra : (t, Record.commit) ∉ extra) : Hidden t (aborted s x extra) where
  tracked := htr
  ne_zero := h.ne_zero
  uncommitted := ⟨fun hm => (mem_append.mp hm).elim h.uncommitted.log hextra,
    h.uncommitted.marked, h.uncommitted.saved⟩
  ended := by
    intro z hz hid
    rcases s.mem_putTrx hz with rfl | ⟨hz, _⟩
    · rfl
    · exact h.ended z hz hid
  named := by
    intro hn
    refine h.named (named_keep hn (fun f rid v hv hv' => .inl ⟨f, rid, v, hv, hv'⟩) ?_)
    intro z hz u hu hd
    rcases s.mem_putTrx hz with rfl | ⟨hz, _⟩
    · exact .inr ⟨x, hx, u, hu, hd⟩
    · exact .inr ⟨z, hz, u, hu, hd⟩
  work := h.work

theorem move {l : CommitLabel} (h : Hidden t s) (hok : SafeFor t s l) (hm : Move s l s') :
    Hidden t s' := by
  have htr := h.tracked.move hm
  cases hm with
  | db _ _ hstep => exact step h hok hstep
  | failAppend _ _ x _ hx hph hp =>
    exact abort h htr hx (commit_not_mem_map t x.id (fun hm =>
      (wal_ok h.tracked.owned.inv hx hph hp).1 (mem_of_mem_take hm)))
  | failRecord _ _ _ hx => exact abort h htr hx not_mem_nil
  | failSync x _ hx hph =>
    refine abort h htr hx ?_
    intro hm
    rw [mem_singleton, mk.injEq] at hm
    cases (h.ended x hx hm.1.symm).symm.trans hph

end Hidden

theorem unseen_of_hidden (h : Hidden t s) : Unseen t s := by
  intro f rid v hv snap _ hid
  have hno : Names t v → snap.committedBefore s.tm.committed t = false := by
    intro hn
    have hc := h.not_committed (.inl ⟨f, rid, v, hv, hn⟩)
    rw [Snapshot.committedBefore, hc, Bool.and_false]
  constructor
  · intro hc
    have hb := hno (.inl hc)
    simp [Snapshot.visible, hc, h.ne_zero, hid.symm, hb]
  · intro hd
    have hb := hno (.inr hd)
    simp [Snapshot.visible, hd, hid.symm, hb]

/-- The step is COMMIT of `id` failing at one of its two appends. -/
def failsToAppend (id : Nat) : CommitLabel → Bool
  | .failAppend i _ => i = id
  | .failRecord i _ => i = id
  | _ => false

/-- Right after the failure the transaction is hidden. -/
theorem hidden_of_fail {id : Nat} {l : CommitLabel} (h : Tracked s) (hl : failsToAppend id l = true)
    (hbase : s.tm.committed.base ≤ id) (hm : Move s l s') : Hidden id s' := by
  have htr := h.move hm
  -- either way the transaction is `x`, undecided, and no commit record got out
  have habort : ∀ (x : Trx) (extra : List (Nat × Record Version)), s' = aborted s x extra →
      x ∈ s.trxs → s.vacuum = none → x.id = id → undecided x.phase = true →
      (id, Record.commit) ∉ extra → Hidden id s' := by
    intro x _ hs hx hv hid hph hextra
    have hu := h.clear x hx hph
    rw [hid] at hu
    rw [hs] at htr ⊢
    refine ⟨htr, ?_, ⟨fun hm => (mem_append.mp hm).elim hu.log hextra, hu.marked, hu.saved⟩,
      ?_, fun _ => hbase, ?_⟩
    · rw [← hid]
      exact Nat.pos_iff_ne_zero.mp (h.owned.inv.trx_lt x hx).1
    · intro _ hz hzid
      rcases s.mem_putTrx hz with rfl | ⟨_, hne⟩
      · rfl
      · exact absurd (hzid.trans hid.symm) hne
    · intro _ hw
      cases hv.symm.trans hw
  cases hm with
  | failAppend _ _ x hv hx hph hp =>
    refine habort x _ rfl hx hv (of_decide_eq_true hl) (by rw [hph]; rfl) ?_
    exact commit_not_mem_map id x.id (fun hm =>
      (wal_ok h.owned.inv hx hph hp).1 (mem_of_mem_take hm))
  | failRecord _ x hv hx hph =>
    exact habort x [] rfl hx hv (of_decide_eq_true hl) (by rw [hph]; rfl) not_mem_nil
  | _ => cases hl

/-- The condition on a later step. -/
def Careful (t : Nat) (s : LoggedDb) (l : CommitLabel) : Prop :=
  WholeAppends s l ∧ SafeFor t s.db l

instance (t : Nat) (s : LoggedDb) (l : CommitLabel) : Decidable (Careful t s l) :=
  inferInstanceAs (Decidable (_ ∧ _))

/-- What is known of the database and its file in every run whose appends find the file whole. -/
def TrackedFile (c : ImageCodec) (s : LoggedDb) : Prop :=
  Tracked s.db ∧ Scanned c s.file s.db.log

theorem trackedFile_run {s : LoggedDb}
    (hrun : runSteps (step c) (fresh inlineLimit) ls = some s)
    (hw : Meets (step c) WholeAppends (fresh inlineLimit) ls) :
    TrackedFile c s := by
  refine invariant_of_meets (step c) WholeAppends (TrackedFile c) ?_ _ _ ls
    ⟨Tracked.fresh inlineLimit, [], [], rfl, rfl, rfl⟩ hw hrun
  intro _ _ _ ha hok hstep
  rcases move_of_step ha.2 hok hstep with ⟨hm, hsc⟩
  exact ⟨ha.1.move hm, hsc⟩

/-- A step whose append finds the file whole, and that does not cut the log. -/
def KeepsLog (s : LoggedDb) (l : CommitLabel) : Prop :=
  WholeAppends s l ∧ ∀ exclude, l = .db (.checkpointEnd exclude) → s.db.cutsLog exclude = false

/-- What is in the log stays there until the log is cut. -/
theorem mem_log_of_move {l : CommitLabel} {e : Nat × Record Version} (hm : Move s l s')
    (hcut : ∀ exclude, l = .db (.checkpointEnd exclude) → s.cutsLog exclude = false)
    (he : e ∈ s.log) : e ∈ s'.log := by
  cases hm with
  | failAppend | failRecord | failSync => exact mem_append_left _ he
  | db l _ h =>
    by_cases hend : ∃ exclude, l = .checkpointEnd exclude
    · rcases hend with ⟨exclude, rfl⟩
      rw [log_of_checkpointEnd h, hcut exclude rfl]
      exact he
    · cases Db.step_cases h with
      | trx _ _ _ _ _ hstep =>
        cases hstep with
        | commitAppend | commitRecord => exact mem_append_left _ he
        | _ => exact he
      | truncate exclude => exact absurd ⟨exclude, rfl⟩ hend
      | crash _ hre =>
        rw [(Db.reopened_of_reopen hre).log]
        exact he
      | _ => exact he

/-- If the sync fails instead, every reopen until the log is cut counts the transaction as
    committed, whatever happens in between. -/
theorem failed_sync_counts {id : Nat} {s s₁ s₂ s₃ : LoggedDb} {ms : List CommitLabel}
    (hrun : runSteps (step c) (fresh inlineLimit) ls = some s)
    (hwhole : Meets (step c) WholeAppends (fresh inlineLimit) ls)
    (hw : wholeFile s.file = true) (hfail : s.step c (.failSync id) = some s₁)
    (hlater : runSteps (step c) s₁ ms = some s₂) (hkeep : Meets (step c) KeepsLog s₁ ms)
    (hcrash : s₂.step c (.db .crash) = some s₃) : s₃.db.tm.committed.isCommitted id = true := by
  have htf := trackedFile_run hrun hwhole
  rcases move_of_step htf.2 (fun _ => hw) hfail with ⟨hm, hsc⟩
  have htr := htf.1.move hm
  have hlog : (id, Record.commit) ∈ s₁.db.log := by
    generalize s₁.db = d at hm
    cases hm with
    | failSync => exact mem_append_right _ (mem_singleton.mpr rfl)
  have hend : TrackedFile c s₂ ∧ (id, Record.commit) ∈ s₂.db.log := by
    refine invariant_of_meets (step c) KeepsLog
      (fun a => TrackedFile c a ∧ (id, Record.commit) ∈ a.db.log) ?_ _ _ ms ⟨⟨htr, hsc⟩, hlog⟩
      hkeep hlater
    intro _ _ _ ha hok hstep
    rcases move_of_step ha.1.2 hok.1 hstep with ⟨hmk, hsck⟩
    exact ⟨⟨ha.1.1.move hmk, hsck⟩, mem_log_of_move hmk hok.2 ha.2⟩
  simp only [step, Db.step, map_eq_some_iff] at hcrash
  rcases hcrash with ⟨_, hre, rfl⟩
  have hr := Db.reopened_of_reopen hre
  rw [hr.tm, Db.isCommitted_recoveredTm]
  exact ⟨Nat.pos_iff_ne_zero.mp (hend.1.1.owned.inv.log_lt _ hend.2).1, .inr (.inr hend.2)⟩

/-- Rows of one small number: header words of eight bytes, then the number. -/
def numberRow : ImageCodec where
  image v := leBytes 8 v.creator ++ leBytes 8 v.deleter ++ leBytes 8 v.nextRid ++
    (match v.row with
      | [.int (.ofNat n)] => leBytes 8 n
      | _ => [])
  parse b := ⟨ofLeBytes (b.take 8), ofLeBytes ((b.drop 8).take 8), ofLeBytes ((b.drop 16).take 8),
    [.int (ofLeBytes (b.drop 24))]⟩

/-- Transaction 1 makes a table, and transaction 2 inserts a row, which is
    written back, and gets to its commit record. -/
def untilCommitRecord : List CommitLabel :=
  [.db .begin, .db (.createTable 1 .row), .db (.trx 1 .commitReadOnly), .db (.trx 1 .commitCount),
    .db (.trx 1 .commitMark), .db (.trx 1 .commitFinish), .db .begin,
    .db (.trx 2 (.insert 0 1 [.int 7])), .db (.writeBack 0 1), .db (.trx 2 .commitAppend)]

/-- The rollback in memory, and a crash of the process. -/
def rollbackAndCrash : List CommitLabel :=
  [.db (.trx 2 .removeOpen), .db (.trx 2 .undoOne), .db (.trx 2 .finishRollback), .db .crash]

end ChibiDb.CommitErrors
