import ChibiDb.Theory.DbSteps
import ChibiDb.Theory.LogPlan

/-!
# Invariants of Every Run

What holds of a database in every state it can reach, crashes and reopens
included: who is open, how the redo buffer of a transaction mirrors its undo
list, and who wrote which record of the log.

The redo buffer is cut back by a failed statement before the writes are undone
one by one, so while that goes on only the part of the undo list below the mark
is mirrored. `Trx.kept` is that part.

## Main definitions

* `Undo.records`, `redoBuffer`: The redo records that belong to undo entries.
* `TrxOk`: What holds of one open transaction.
* `Record.WrittenBy`: A log record names its own transaction and no other.
* `Inv`: What holds of the whole database.

## Theorems

* `trxOk_log`: A longer log keeps `TrxOk`.
* `inv_put`: A step of one transaction keeps `Inv` if it keeps `TrxOk`.
* `inv_step`: Every step keeps `Inv`.
* `mem_redoRecords_iff`: The records recovery redoes.
-/

namespace ChibiDb

variable {id : Nat}

open List Option

/-- The redo records of one undo entry, in order. -/
def Undo.records (id : Nat) : Undo → List (Record Version)
  | .insert f rid row => [.insert f rid ⟨id, 0, 0, row⟩]
  | .deleteMark f rid _ _ => [.deleteMark f rid id 0]
  | .update f old new row _ _ =>
    [.insert f new ⟨id, 0, 0, row⟩, .deleteMark f old id (packRid new)]

/-- The redo records of an undo list, oldest first. -/
def redoBuffer (id : Nat) : List Undo → List (Record Version)
  | [] => []
  | u :: us => redoBuffer id us ++ u.records id

/-- The redo record of an update that has inserted and not yet marked. -/
def Trx.pendingRecords (x : Trx) : List (Record Version) :=
  match x.pending with
  | none => []
  | some u => [.insert u.fileNo u.newRid ⟨x.id, 0, 0, u.newRow⟩]

/-- The undo entries of the statements before the current one. -/
def Trx.kept (x : Trx) : List Undo := x.undo.drop (x.undo.length - x.undoMark)

/-- The statement marks point at the entries of the earlier statements. -/
def Trx.MarksOk (x : Trx) : Prop :=
  x.undoMark ≤ x.undo.length ∧ x.walMark = (redoBuffer x.id x.kept).length

/-- Everything a transaction wrote is in the log, and so is its commit. -/
def Trx.Durable (log : List (Nat × Record Version)) (x : Trx) : Prop :=
  x.undo = [] ∨ ((∀ r ∈ redoBuffer x.id x.undo, (x.id, r) ∈ log) ∧ (x.id, Record.commit) ∈ log)

/-- What holds of an open transaction, given the log. -/
def TrxOk (log : List (Nat × Record Version)) (x : Trx) : Prop :=
  match x.phase with
  | .running => x.wal = redoBuffer x.id x.undo ++ x.pendingRecords ∧ x.MarksOk
  | .undoing => x.pending = none ∧ x.wal = redoBuffer x.id x.kept ∧ x.MarksOk
  | .aborting => x.pending = none
  | .appended => x.pending = none ∧ ∀ r ∈ redoBuffer x.id x.undo, (x.id, r) ∈ log
  | .logged => x.pending = none ∧ x.Durable log
  | .counted => x.pending = none ∧ x.Durable log
  | .marked => x.pending = none ∧ x.Durable log

/-- A record names the transaction that logged it and no other. -/
def Record.WrittenBy (id : Nat) : Record Version → Prop
  | .insert _ _ v => v.creator = id ∧ v.deleter = 0
  | .deleteMark _ _ d _ => d = id
  | .commit => True

theorem redoBuffer_append (id : Nat) (us vs : List Undo) :
    redoBuffer id (us ++ vs) = redoBuffer id vs ++ redoBuffer id us := by
  induction us with
  | nil => simp only [nil_append, redoBuffer, append_nil]
  | cons _ _ ih => simp [redoBuffer, ih]

theorem mem_redoBuffer (id : Nat) (us : List Undo) (r : Record Version) :
    r ∈ redoBuffer id us ↔ ∃ u ∈ us, r ∈ u.records id := by
  induction us with
  | nil => simp only [redoBuffer, not_mem_nil, false_and, exists_false]
  | cons _ _ ih =>
    simp only [redoBuffer, mem_append, ih, mem_cons, exists_eq_or_imp]
    exact Or.comm

theorem writtenBy_redoBuffer {us : List Undo} (r : Record Version)
    (h : r ∈ redoBuffer id us) : r.WrittenBy id := by
  rcases (mem_redoBuffer id us r).mp h with ⟨u, _, hr⟩
  cases u <;> simp only [Undo.records, mem_cons, not_mem_nil, or_false] at hr
  case insert => rw [hr]; exact ⟨rfl, rfl⟩
  case deleteMark => rw [hr]; rfl
  rcases hr with rfl | rfl
  · exact ⟨rfl, rfl⟩
  · rfl

theorem commit_not_mem_redoBuffer (id : Nat) (us : List Undo) :
    Record.commit ∉ redoBuffer id us := by
  rw [mem_redoBuffer]
  rintro ⟨u, _, hr⟩
  cases u <;> simp [Undo.records] at hr

theorem trxOk_fresh (log : List (Nat × Record Version)) (id : Nat) : TrxOk log (Trx.fresh id) :=
  ⟨rfl, Nat.le_refl 0, rfl⟩

variable {log log' : List (Nat × Record Version)} {x y : Trx} {s s' : Db} {ρ : Type}
  {snap : Snapshot} {tm : TransactionManager}

theorem durable_log (hsub : ∀ e ∈ log, e ∈ log') (h : x.Durable log) : x.Durable log' :=
  h.imp_right (fun hl => ⟨fun r hr => hsub _ (hl.1 r hr), hsub _ hl.2⟩)

theorem trxOk_log (hsub : ∀ e ∈ log, e ∈ log') (h : TrxOk log x) : TrxOk log' x := by
  unfold TrxOk at h ⊢
  cases hph : x.phase <;> simp only [hph] at h ⊢
  case running | undoing | aborting => exact h
  case appended => exact ⟨h.1, fun r hr => hsub _ (h.2 r hr)⟩
  case logged | counted | marked => exact ⟨h.1, durable_log hsub h.2⟩

/-- A push leaves the entries of the earlier statements where they are. -/
theorem kept_cons (u : Undo) (hle : x.undoMark ≤ x.undo.length) :
    (u :: x.undo).drop ((u :: x.undo).length - x.undoMark) = x.kept := by
  unfold Trx.kept
  rw [length_cons, show x.undo.length + 1 - x.undoMark = x.undo.length - x.undoMark + 1 by omega,
    drop_succ_cons]

theorem kept_eq_undo (hle : x.undo.length ≤ x.undoMark) : x.kept = x.undo := by
  unfold Trx.kept
  rw [show x.undo.length - x.undoMark = 0 by omega, drop_zero]

theorem marksOk_push {u : Undo} (h : x.MarksOk) (hid : y.id = x.id) (hu : y.undo = u :: x.undo)
    (hm : y.undoMark = x.undoMark) (hw : y.walMark = x.walMark) : y.MarksOk := by
  have hk : y.kept = x.kept := by
    unfold Trx.kept
    rw [hu, hm]
    exact kept_cons u h.1
  refine ⟨?_, ?_⟩
  · rw [hu, hm, length_cons]
    exact Nat.le_succ_of_le h.1
  · rw [hw, hid, hk]
    exact h.2

theorem wal_eq_of_running (h : TrxOk log x) (hph : x.phase = .running) (hp : x.pending = none) :
    x.wal = redoBuffer x.id x.undo := by
  unfold TrxOk at h
  rw [hph] at h
  rw [h.1, Trx.pendingRecords, hp, append_nil]

theorem take_walMark (hp : x.pending = none) (hph : x.phase = .running) (h : TrxOk log x) :
    x.wal.take x.walMark = redoBuffer x.id x.kept := by
  have hw := wal_eq_of_running h hph hp
  unfold TrxOk at h
  rw [hph] at h
  rcases h with ⟨_, _, hm⟩
  have hsplit : redoBuffer x.id x.undo =
      redoBuffer x.id x.kept ++ redoBuffer x.id (x.undo.take (x.undo.length - x.undoMark)) := by
    rw [← redoBuffer_append]
    unfold Trx.kept
    rw [take_append_drop]
  rw [hw, hm, hsplit, take_left]

/-- What holds of a database in every reachable state. -/
structure Inv (s : Db) : Prop where
  saved_pos : 0 < s.saved.nextTrxId
  next_pos : 0 < s.tm.nextId
  trx_lt : ∀ x ∈ s.trxs, 0 < x.id ∧ x.id < s.tm.nextId
  trx_nodup : (s.trxs.map (fun x => x.id)).Nodup
  trx_open : ∀ x ∈ s.trxs, x.phase ≠ .aborting → x.id ∈ s.tm.openSet
  trx_ok : ∀ x ∈ s.trxs, TrxOk s.log x
  log_lt : ∀ e ∈ s.log, 0 < e.1 ∧ e.1 < s.tm.nextId
  log_ok : ∀ e ∈ s.log, e.2.WrittenBy e.1

namespace Inv

theorem eq_of_id (hi : Inv s) (hx : x ∈ s.trxs) (hy : y ∈ s.trxs) (hid : y.id = x.id) : y = x :=
  inj_on_of_nodup_map hi.trx_nodup hy hx hid

section

variable (hi : Inv s) (hx : x ∈ s.trxs) (htrxs : s'.trxs = (s.putTrx y).trxs) (hid : y.id = x.id)
  (hnext : s'.tm.nextId = s.tm.nextId) (hopen : s'.tm.openSet = s.tm.openSet)
  (hsaved : s'.saved = s.saved)
include hi hx htrxs hid hnext hopen hsaved

/-- One transaction moves from `x` to `y` and may log something on the way. -/
theorem put {extra : List (Nat × Record Version)} (hlog : s'.log = s.log ++ extra)
    (hextra : ∀ e ∈ extra, e.1 = x.id ∧ e.2.WrittenBy x.id)
    (hph : y.phase ≠ .aborting → x.phase ≠ .aborting) (hok : TrxOk s'.log y) : Inv s' := by
  have hcases : ∀ z ∈ s'.trxs, z = y ∨ z ∈ s.trxs := by
    intro z hz
    rw [htrxs] at hz
    exact (s.mem_putTrx hz).imp_right (fun h => h.1)
  have hlogcases : ∀ e ∈ s'.log, e ∈ s.log ∨ (e.1 = x.id ∧ e.2.WrittenBy x.id) := by
    intro e he
    rw [hlog, mem_append] at he
    exact he.imp_right (hextra e)
  constructor
  case saved_pos => rw [hsaved]; exact hi.saved_pos
  case next_pos => rw [hnext]; exact hi.next_pos
  case trx_lt =>
    intro z hz
    rw [hnext]
    rcases hcases z hz with rfl | hz
    · rw [hid]
      exact hi.trx_lt x hx
    · exact hi.trx_lt z hz
  case trx_nodup =>
    rw [htrxs, Db.map_id_putTrx]
    exact hi.trx_nodup
  case trx_open =>
    intro z hz hzph
    rw [hopen]
    rcases hcases z hz with rfl | hz
    · rw [hid]
      exact hi.trx_open x hx (hph hzph)
    · exact hi.trx_open z hz hzph
  case trx_ok =>
    intro z hz
    rcases hcases z hz with rfl | hz
    · exact hok
    refine trxOk_log ?_ (hi.trx_ok z hz)
    intro e he
    rw [hlog]
    exact mem_append_left _ he
  case log_lt =>
    intro e he
    rw [hnext]
    rcases hlogcases e he with he | he
    · exact hi.log_lt e he
    · rw [he.1]
      exact hi.trx_lt x hx
  case log_ok =>
    intro e he
    rcases hlogcases e he with he | he
    · exact hi.log_ok e he
    · rw [he.1]
      exact he.2

/-- The same, with nothing logged. -/
theorem move (hlog : s'.log = s.log) (hph : y.phase ≠ .aborting → x.phase ≠ .aborting)
    (hok : TrxOk s.log y) : Inv s' :=
  put hi hx htrxs hid hnext hopen hsaved (hlog.trans (append_nil _).symm) nofun hph (hlog ▸ hok)

end

/-- A transaction ends; nothing else changes but its place in the open set. -/
theorem drop (hi : Inv s) (hnext : tm.nextId = s.tm.nextId)
    (hopen : ∀ i ∈ s.tm.openSet, i ≠ id → i ∈ tm.openSet) :
    Inv { s.dropTrx id with tm := tm } := by
  have hmem : ∀ z ∈ (s.dropTrx id).trxs, z ∈ s.trxs ∧ z.id ≠ id :=
    fun z hz => (s.mem_dropTrx id z).mp hz
  refine { hi with
    next_pos := hnext ▸ hi.next_pos, log_lt := hnext ▸ hi.log_lt
    trx_lt := ?lt, trx_nodup := ?nodup, trx_open := ?opened, trx_ok := ?ok }
  case lt =>
    intro z hz
    rw [hnext]
    exact hi.trx_lt z (hmem z hz).1
  case nodup => exact hi.trx_nodup.sublist (filter_sublist.map _)
  case opened =>
    intro z hz hph
    exact hopen z.id (hi.trx_open z (hmem z hz).1 hph) (hmem z hz).2
  case ok => exact fun z hz => hi.trx_ok z (hmem z hz).1

/-- Undoing takes entries of the current statement only, so the kept ones stay. -/
theorem undo_ok (s : Db) (x : Trx) (u : Undo) (left rest : List Undo) (hi : Inv s)
    (hx : x ∈ s.trxs)
    (hph : (x.phase = .undoing ∧ x.undoMark < x.undo.length) ∨ x.phase = .aborting)
    (hu : x.undo = u :: rest) : TrxOk s.log { x with undo := left ++ rest } := by
  have hok := hi.trx_ok x hx
  unfold TrxOk at hok ⊢
  rcases hph with ⟨hph, hlt⟩ | hph
  · rw [hph] at hok
    rw [hu, length_cons] at hlt
    have hk : (left ++ rest).drop ((left ++ rest).length - x.undoMark) = x.kept := by
      unfold Trx.kept
      simp only [hu, length_append, length_cons]
      rw [drop_append, drop_eq_nil_of_le (by omega), nil_append,
        show left.length + rest.length - x.undoMark - left.length = rest.length - x.undoMark by
          omega,
        show rest.length + 1 - x.undoMark = rest.length - x.undoMark + 1 by omega,
        drop_succ_cons]
    rw [show Trx.phase { x with undo := left ++ rest } = .undoing from hph]
    refine ⟨hok.1, ?_, ?_, ?_⟩
    · change x.wal = redoBuffer x.id ((left ++ rest).drop ((left ++ rest).length - x.undoMark))
      rw [hk]
      exact hok.2.1
    · simp only [length_append]
      omega
    change x.walMark =
      (redoBuffer x.id ((left ++ rest).drop ((left ++ rest).length - x.undoMark))).length
    rw [hk]
    exact hok.2.2.2
  · rw [hph] at hok
    rw [show Trx.phase { x with undo := left ++ rest } = .aborting from hph]
    exact hok

/-- A step of one transaction. What is left in each case is `TrxOk` of the transaction after the
    step. -/
theorem trxStep {a : TrxAction} (hi : Inv s) (hx : x ∈ s.trxs) (h : Db.TrxStep s x a s') :
    Inv s' := by
  have hok := hi.trx_ok x hx
  unfold TrxOk at hok
  cases h with
  | loadNextId hph | scan _ _ _ _ _ _ hph =>
    rw [hph] at hok
    refine move hi hx rfl rfl rfl rfl rfl rfl id ?_
    simp only [TrxOk, hph]
    exact hok
  | readOpen => exact move hi hx rfl rfl rfl rfl rfl rfl id hok
  | startStatement hph hp =>
    rw [hph] at hok
    refine move hi hx rfl rfl rfl rfl rfl rfl id ?_
    simp only [TrxOk, hph]
    refine ⟨hok.1, Nat.le_refl _, ?_⟩
    rw [kept_eq_undo (Nat.le_refl _), hok.1, Trx.pendingRecords, hp, append_nil]
  | insert _ _ _ _ _ hph hp | deleteMark _ _ _ hph hp =>
    rw [hph] at hok
    refine move hi hx rfl rfl rfl rfl rfl rfl id ?_
    simp only [TrxOk, hph]
    refine ⟨?_, marksOk_push hok.2 rfl rfl rfl rfl⟩
    rw [hok.1, Trx.pendingRecords, Trx.pendingRecords, hp, append_nil, append_nil]
    rfl
  | updateInsert _ _ _ _ _ _ hph hp =>
    rw [hph] at hok
    refine move hi hx rfl rfl rfl rfl rfl rfl id ?_
    simp only [TrxOk, hph]
    refine ⟨?_, hok.2⟩
    rw [hok.1, Trx.pendingRecords, hp, append_nil]
    rfl
  | updateMark _ _ hp =>
    -- an update is pending while statements run and at no other time
    have hph : x.phase = .running := by
      by_contra hne
      cases hph : x.phase <;> simp only [hph, hp, reduceCtorEq, false_and] at hok
      exact hne hph
    rw [hph] at hok
    refine move hi hx rfl rfl rfl rfl rfl rfl id ?_
    simp only [TrxOk, hph]
    refine ⟨?_, marksOk_push hok.2 rfl rfl rfl rfl⟩
    rw [hok.1, Trx.pendingRecords, Trx.pendingRecords, hp, append_nil, append_assoc]
    rfl
  | failStatement hph hp =>
    have hw := take_walMark hp hph (hi.trx_ok x hx)
    rw [hph] at hok
    exact move hi hx rfl rfl rfl rfl rfl rfl (fun _ => hph.trans_ne nofun)
      ⟨hp, hw, hok.2⟩
  | undoInsert _ _ _ _ _ hph hu | undoMark _ _ _ _ _ _ hph hu =>
    exact move hi hx rfl rfl rfl rfl rfl rfl id (undo_ok s x _ [] _ hi hx hph hu)
  | undoUpdate _ _ _ _ _ _ _ _ hph hu =>
    exact move hi hx rfl rfl rfl rfl rfl rfl id (undo_ok s x _ [_] _ hi hx hph hu)
  | endUndo hph hlen =>
    rw [hph] at hok
    refine move hi hx rfl rfl rfl rfl rfl rfl (fun _ => hph.trans_ne nofun) ?_
    refine ⟨?_, hok.2.2⟩
    rw [hok.2.1, kept_eq_undo hlen, Trx.pendingRecords, hok.1, append_nil]
  | rollback _ hp => exact move hi hx rfl rfl rfl rfl rfl rfl (fun h => absurd rfl h) hp
  | removeOpen hph =>
    refine { hi with trx_open := ?_ }
    intro _ hy hyph
    refine mem_filter.mpr ⟨hi.trx_open _ hy hyph, decide_eq_true ?_⟩
    intro hid
    exact hyph ((eq_of_id hi hx hy hid) ▸ hph)
  | finishRollback => exact drop hi rfl (fun i hmem _ => hmem)
  | commitAppend hph hp =>
    have hw := wal_eq_of_running (hi.trx_ok x hx) hph hp
    refine put hi hx rfl rfl rfl rfl rfl rfl ?_ (fun _ => hph.trans_ne nofun) ?_
    · intro e he
      rcases mem_map.mp he with ⟨r, hr, rfl⟩
      rw [hw] at hr
      exact ⟨rfl, writtenBy_redoBuffer r hr⟩
    · refine ⟨hp, ?_⟩
      intro r hr
      refine mem_append_right _ (mem_map.mpr ⟨r, ?_, rfl⟩)
      rw [hw]
      exact hr
  | commitRecord hph =>
    rw [hph] at hok
    refine put hi hx rfl rfl rfl rfl rfl rfl ?_ (fun _ => hph.trans_ne nofun) ?_
    · intro _ he
      rw [mem_singleton.mp he]
      exact ⟨rfl, trivial⟩
    · exact ⟨hok.1, .inr ⟨fun r hr => mem_append_left _ (hok.2 r hr),
        mem_append_right _ (mem_singleton.mpr rfl)⟩⟩
  | commitReadOnly hph hp hu =>
    exact move hi hx rfl rfl rfl rfl rfl rfl (fun _ => hph.trans_ne nofun)
      ⟨hp, .inl hu⟩
  | commitCount hph | commitMark hph =>
    rw [hph] at hok
    exact move hi hx rfl rfl rfl rfl rfl rfl (fun _ => hph.trans_ne nofun) hok
  | commitFinish =>
    exact drop hi rfl (fun i hmem hne => mem_filter.mpr ⟨hmem, decide_eq_true hne⟩)

end Inv

theorem mem_logFrames (log : List (Nat × Record ρ)) (t : Nat) (r : Record ρ) :
    (∃ f ∈ logFrames log, f.2.1 = t ∧ f.2.2 = r) ↔ (t, r) ∈ log := by
  constructor
  · rintro ⟨_, hf, rfl, rfl⟩
    rcases mem_mapIdx.mp hf with ⟨i, hi, rfl⟩
    exact getElem_mem hi
  · intro h
    rcases mem_iff_getElem.mp h with ⟨i, hi, he⟩
    exact ⟨_, mem_mapIdx.mpr ⟨i, hi, rfl⟩, by rw [he], by rw [he]⟩

theorem isCommit_iff (r : Record ρ) : r.isCommit = true ↔ r = .commit := by
  cases r <;> simp [Record.isCommit]

theorem mem_committedIds_log (log : List (Nat × Record ρ)) (t : Nat) :
    t ∈ (planFrames (logFrames log)).committedIds ↔ (t, Record.commit) ∈ log := by
  rw [mem_committedIds_iff, ← mem_logFrames]
  simp only [isCommit_iff]

/-- Recovery redoes the records of the transactions with a commit record. -/
theorem mem_redoRecords_iff (log : List (Nat × Record ρ)) (r : Record ρ) :
    r ∈ redoRecords log ↔ r ≠ .commit ∧ ∃ t, (t, r) ∈ log ∧ (t, Record.commit) ∈ log := by
  have hdata : ∀ t, r ∈ dataOf t (logFrames log) ↔ r ≠ .commit ∧ (t, r) ∈ log := by
    intro t
    rw [← mem_logFrames]
    simp only [dataOf, List.mem_map, mem_filter, Bool.and_eq_true, decide_eq_true_eq,
      Bool.not_eq_true']
    constructor
    · rintro ⟨f, ⟨hf, ht, hc⟩, hr⟩
      refine ⟨?_, f, hf, ht, hr⟩
      intro hcommit
      rw [hr, hcommit] at hc
      cases hc
    · rintro ⟨hne, f, hf, ht, hr⟩
      refine ⟨f, ⟨hf, ht, ?_⟩, hr⟩
      rw [hr, Bool.eq_false_iff, ne_eq, isCommit_iff]
      exact hne
  have hcommit : ∀ t, (∃ pos, commitOf t (logFrames log) = some pos) ↔
      (t, Record.commit) ∈ log := by
    intro t
    rw [commitOf_isSome_iff, ← mem_logFrames]
    simp only [isCommit_iff]
  unfold redoRecords
  simp only [mem_flatMap]
  constructor
  · rintro ⟨⟨pos, t, recs⟩, hmem, hr⟩
    rcases (mem_committed_iff pos t recs (logFrames log)).mp hmem with ⟨hpos, hrecs, _⟩
    have hd := (hdata t).mp (hrecs.symm ▸ hr)
    exact ⟨hd.1, t, hd.2, (hcommit t).mp ⟨pos, hpos⟩⟩
  · rintro ⟨hne, t, hr, hc⟩
    rcases (hcommit t).mpr hc with ⟨pos, hpos⟩
    have hd := (hdata t).mpr ⟨hne, hr⟩
    exact ⟨(pos, t, dataOf t (logFrames log)),
      (mem_committed_iff pos t _ (logFrames log)).mpr ⟨hpos, rfl, ne_nil_of_mem hd⟩, hd⟩

/-- A snapshot taken by transaction `id` when nothing that is open now has begun
    yet: the ones in flight, and the taker itself, come later. -/
structure TransactionManager.Later (tm : TransactionManager) (snap : Snapshot) (id : Nat) :
    Prop where
  xmax : tm.nextId ≤ snap.xmax
  xip : ∀ x ∈ snap.xip, tm.nextId ≤ x
  own : id = readOnlyTrxId ∨ tm.nextId ≤ id

theorem later_now (tm : TransactionManager) : tm.Later ⟨tm.nextId, []⟩ readOnlyTrxId where
  xmax := Nat.le_refl _
  xip := nofun
  own := .inl rfl

theorem committedBefore_later (clog : Clog) {x : Nat} (h : tm.Later snap id)
    (hx : x < tm.nextId) : snap.committedBefore clog x = clog.isCommitted x := by
  have hxip : x ∉ snap.xip := by
    intro hmem
    have := h.xip x hmem
    omega
  have hmax : x < snap.xmax := by
    have := h.xmax
    omega
  rw [Bool.eq_iff_iff, committedBefore_iff]
  simp [hmax, hxip]

/-- What a later snapshot sees of old ids is what the commit status says. -/
theorem visible_later (clog : Clog) {creator deleter : Nat} (h : tm.Later snap id)
    (hc : creator < tm.nextId) (hd : deleter < tm.nextId) (hpos : 0 < creator) :
    snap.visible clog id creator deleter = true ↔
      clog.isCommitted creator = true ∧ ¬ clog.isCommitted deleter = true := by
  have hown : creator ≠ id ∧ (deleter ≠ 0 → deleter ≠ id) := by
    rcases h.own with h0 | _
    · rw [h0]
      exact ⟨Nat.pos_iff_ne_zero.mp hpos, fun hd => hd⟩
    · exact ⟨by omega, fun _ => by omega⟩
  have hzero : deleter = 0 → clog.isCommitted deleter = false := by
    intro h0
    rw [h0]
    rfl
  simp only [Snapshot.visible, committedBefore_later clog h hc,
    committedBefore_later clog h hd, Nat.pos_iff_ne_zero.mp hpos, hown.1,
    decide_false, Bool.false_or, Bool.and_eq_true, Bool.not_eq_true', Bool.and_eq_false_iff,
    decide_eq_false_iff_not, not_not, Bool.or_eq_false_iff, Bool.not_eq_true]
  constructor
  · intro hv
    exact ⟨hv.1, hv.2.elim hzero (fun hnot => hnot.2)⟩
  intro hv
  refine ⟨hv.1, ?_⟩
  by_cases h0 : deleter = 0
  · exact .inl h0
  · exact .inr ⟨hown.2 h0, hv.2⟩

namespace Db

theorem isCommitted_savedTm (s : Db) (x : Nat) :
    s.savedTm.committed.isCommitted x = true ↔
      x ≠ 0 ∧ (x < s.saved.clogBase ∨ x ∈ s.saved.committedTrxs) :=
  isCommitted_new _ _ _ x

/-- After recovery an id counts as committed if the saved catalog says so or
    the log has its commit record. -/
theorem isCommitted_recoveredTm (s : Db) (x : Nat) :
    s.recoveredTm.committed.isCommitted x = true ↔
      x ≠ 0 ∧ (x < s.saved.clogBase ∨ x ∈ s.saved.committedTrxs ∨ (x, Record.commit) ∈ s.log) := by
  have hensure := s.savedTm.committed_ensureNextIdAtLeast
  unfold recoveredTm
  by_cases hr : s.committedRepaired = true
  · simp only [hr, if_true, TransactionManager.extendCommitted, isCommitted_foldl_mark, hensure,
      isCommitted_savedTm, mem_committedIds_log]
    tauto
  -- nothing to repair: what the log commits is committed already
  simp only [hr, if_false, Bool.false_eq_true, hensure, isCommitted_savedTm]
  constructor
  · intro h
    exact ⟨h.1, h.2.imp_right .inl⟩
  intro h
  refine ⟨h.1, ?_⟩
  rcases h.2 with hb | hc | hl
  · exact .inl hb
  · exact .inr hc
  · simp only [committedRepaired, List.any_eq_true, Bool.not_eq_true', not_exists, not_and,
      Bool.not_eq_false] at hr
    exact ((isCommitted_savedTm s x).mp (hr x ((mem_committedIds_log s.log x).mpr hl))).2

theorem nextId_recoveredTm (s : Db) :
    s.recoveredTm.nextId =
      max s.saved.nextTrxId ((planFrames (logFrames s.log)).maxTrxId + 1) := by
  unfold recoveredTm
  split <;>
    exact TransactionManager.nextId_ensureNextIdAtLeast _ _

/-- The next id after recovery, as a bound on what it must exceed. -/
theorem lt_nextId_recoveredTm_iff (s : Db) (n : Nat) :
    n < s.recoveredTm.nextId ↔
      n < s.saved.nextTrxId ∨ n = 0 ∨ ∃ e ∈ s.log, n ≤ e.1 := by
  rw [nextId_recoveredTm, lt_max_iff, Nat.lt_succ_iff]
  apply or_congr_right
  by_cases hn : n = 0
  · simp [hn]
  have hmax := maxTrxId_le_iff (n - 1) (logFrames s.log)
  constructor
  · intro hle
    refine .inr ?_
    by_contra hno
    have hall : ∀ f ∈ logFrames s.log, f.2.1 ≤ n - 1 := by
      intro f hf
      have hmem := (mem_logFrames s.log f.2.1 f.2.2).mp ⟨f, hf, rfl, rfl⟩
      by_contra hgt
      exact hno ⟨_, hmem, by simp only []; omega⟩
    have := hmax.mpr hall
    omega
  · rintro (h | ⟨e, he, _⟩)
    · exact absurd h hn
    · rcases (mem_logFrames s.log e.1 e.2).mpr he with ⟨_, hf, _, _⟩
      have := trxId_le_maxTrxId hf
      omega

end Db

namespace Inv

theorem reopened (hi : Inv s) (h : Db.Reopened s s') : Inv s' := by
  have hnext : 0 < s'.tm.nextId := by
    rw [h.tm, Db.lt_nextId_recoveredTm_iff]
    exact .inr (.inl rfl)
  constructor
  case next_pos => exact hnext
  case saved_pos =>
    rcases h.saved with hs | hs <;> rw [hs]
    · exact hi.saved_pos
    · exact hnext
  case trx_nodup => simp only [h.trxs, map_nil, nodup_nil]
  case trx_lt | trx_open | trx_ok => simp [h.trxs]
  case log_lt =>
    intro e he
    rw [h.log] at he
    refine ⟨(hi.log_lt e he).1, ?_⟩
    rw [h.tm, Db.lt_nextId_recoveredTm_iff]
    exact .inr (.inr ⟨e, he, Nat.le_refl _⟩)
  case log_ok => rw [h.log]; exact hi.log_ok

/-- Cutting the log is safe for whoever is still there: nobody but a statement that wrote nothing,
    or transactions that are rolling back. -/
theorem truncate (s : Db) (exclude : Option Nat) (hi : Inv s)
    (hopen : s.nothingOpen exclude = true) (x : Trx) (hx : x ∈ s.trxs) : TrxOk [] x := by
  have hok := hi.trx_ok x hx
  cases exclude with
  | none =>
    have hempty : s.tm.openSet = [] := isEmpty_iff.mp hopen
    have hab : x.phase = .aborting := by
      by_contra hne
      exact not_mem_nil (hempty ▸ hi.trx_open x hx hne)
    unfold TrxOk at hok ⊢
    rw [hab] at hok ⊢
    exact hok
  | some =>
    rcases Db.exclusive_cases s hopen with ⟨_, ⟨htrxs, hph, _⟩, _⟩
    rw [htrxs, mem_singleton] at hx
    rw [hx] at hok ⊢
    unfold TrxOk at hok ⊢
    rw [hph] at hok ⊢
    exact hok

theorem step {l : Label} (hi : Inv s) (h : s.step l = some s') : Inv s' := by
  cases Db.step_cases h with
  | begin =>
    refine { hi with
      next_pos := Nat.succ_pos _
      log_lt := fun e he => ⟨(hi.log_lt e he).1, Nat.lt_succ_of_lt (hi.log_lt e he).2⟩
      trx_lt := ?lt, trx_nodup := ?nodup, trx_open := ?opened, trx_ok := ?ok }
    case lt =>
      intro x hx
      rcases mem_cons.mp hx with rfl | hx
      · exact ⟨hi.next_pos, Nat.lt_succ_self _⟩
      · exact ⟨(hi.trx_lt x hx).1, Nat.lt_succ_of_lt (hi.trx_lt x hx).2⟩
    case nodup =>
      refine nodup_cons.mpr ⟨?_, hi.trx_nodup⟩
      intro hmem
      rcases mem_map.mp hmem with ⟨x, hx, hid⟩
      have := (hi.trx_lt x hx).2
      simp only [Trx.fresh] at hid
      omega
    case opened =>
      intro x hx hph
      rcases mem_cons.mp hx with rfl | hx
      · exact mem_insert_self
      · exact mem_insert_of_mem (hi.trx_open x hx hph)
    case ok => exact forall_mem_cons.mpr ⟨trxOk_fresh s.log s.tm.nextId, hi.trx_ok⟩
  | trx _ _ _ _ hx hstep => exact trxStep hi hx hstep
  | checkpointSave | createTable | dropTable | otherDdl | vacuumSave =>
    exact { hi with saved_pos := hi.next_pos }
  | truncate exclude _ _ _ _ hopen =>
    exact { hi with trx_ok := truncate s exclude hi hopen, log_lt := nofun, log_ok := nofun }
  | crash _ hre => exact reopened hi (Db.reopened_of_reopen hre)
  | _ => exact { hi with }

theorem fresh (inlineLimit : Nat) : Inv (Db.fresh inlineLimit) where
  saved_pos := Nat.one_pos
  next_pos := Nat.one_pos
  trx_lt := nofun
  trx_nodup := nodup_nil
  trx_open := nofun
  trx_ok := nofun
  log_lt := nofun
  log_ok := nofun

end Inv

end ChibiDb
