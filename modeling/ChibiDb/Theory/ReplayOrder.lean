import ChibiDb.Theory.Owned
import ChibiDb.Theory.RedoAgain
import ChibiDb.Theory.RedoPlan
import ChibiDb.Theory.VacuumVisibility

/-!
# Recovery Can Be Repeated

Redo gives the same result a second time if no insert into a slot follows a mark
on it in the log. Without VACUUM it never does: a transaction marks a version it
can see, which is one of its own or one that has committed, and from then on
nothing empties the slot any more. Whoever put the version there has committed
before.

The run starts where the log was last cut. Until the crash it is made of any
transactions in any interleaving, DDL, checkpoints and write-backs.

## Main definitions

* `Plain`, `Cut`: The steps of such a run, and where it starts.
* `Taken`: A slot that stays taken.
* `TrxOrder`, `Ordered`: The invariant.

## Theorems

* `taken_put`: What a step of one transaction does to the slots of others.
* `Ordered.step`: Every step keeps the invariant.
* `replay_idempotent`: The main result.
* `replay_idempotent_half_written`: It applies to a run.
-/

namespace ChibiDb

open Option Prod
open Bool hiding false_or or_false true_and
open List hiding isEmpty_iff
open Record (commit deleteMark)

/-- The slot a record is about. -/
def Record.slot : Record Version → Option (Nat × Rid)
  | .insert f rid _ => some (f, rid)
  | .deleteMark f rid _ _ => some (f, rid)
  | .commit => none

/-- The commit record is in the log, if there was anything to log. -/
def Phase.committing : Phase → Bool
  | .logged => true
  | .counted => true
  | .marked => true
  | _ => false

namespace Replay

/-- A step that is neither part of VACUUM nor a crash. -/
def Plain : Label → Bool
  | .vacuumBegin _ => false
  | .vacuumOne => false
  | .vacuumHorizon => false
  | .vacuumSave => false
  | .crash => false
  | _ => true

/-- A database whose log has just been cut. What is open is rolling back, or is
    the transaction of the CHECKPOINT statement and has done nothing. -/
structure Cut (s : Db) : Prop where
  log : s.log = []
  uncommitted : ∀ x ∈ s.trxs, s.tm.committed.isCommitted x.id = false
  idle : ∀ x ∈ s.trxs, x.phase ≠ .aborting → x.undo = [] ∧ x.pending = none ∧ x.targets = []

/-- The slots a transaction has picked or marked. -/
def picks (x : Trx) : List (Nat × Rid) :=
  x.targets ++ x.marks ++ x.pending.toList.map (fun p => (p.fileNo, p.oldRid))

/-- What a transaction has in the log. -/
def logs (x : Trx) : List (Record Version) :=
  match x.phase with
  | .running => []
  | .undoing => []
  | .aborting => []
  | _ => redoBuffer x.id x.undo

/-- A slot that stays taken, as far as transactions other than `id` go: who
    made what is in it can not take it back any more. -/
structure Taken (s : Db) (id : Nat) (e : Nat × Rid) : Prop where
  file : e.1 < s.nextTableFile
  there : (layoutOf s.tables e.1).isSome = true → ∃ v, s.mem.get e.1 e.2 = some v
  made : (layoutOf s.tables e.1).isSome = true → ∀ y ∈ s.trxs, y.id ≠ id → e ∈ y.creates →
    (y.id, commit) ∈ s.log

/-- The writes of one transaction that has not been rolled back. -/
structure TrxOrder (s : Db) (x : Trx) : Prop where
  picks : ∀ e ∈ picks x, Taken s x.id e
  order : x.undo.Pairwise (fun a b => ∀ e, a.created = some e → b.marked ≠ some e)
  split : ∀ u ∈ x.undo, ∀ e, u.created = some e → u.marked ≠ some e
  pending : ∀ p, x.pending = some p → (p.fileNo, p.newRid) ∉ x.marks ∧ p.newRid ≠ p.oldRid
  targets : x.phase = .undoing → x.targets = []
  logged : recordsOf x.id s.log = logs x

/-- File numbers are not used again. -/
structure FilesOk (s : Db) : Prop where
  now : ∀ t ∈ s.tables, t.fileNo < s.nextTableFile
  saved : ∀ t ∈ s.saved.tables, t.fileNo < s.saved.nextTableFile

/-- The invariant of a run since the log was cut. -/
structure Ordered (s : Db) : Prop where
  owned : Owned s
  status : VacuumVisibility.StatusOk s
  tables : VacuumVisibility.InTables s
  files : FilesOk s
  trx : ∀ x ∈ s.trxs, x.phase ≠ .aborting → TrxOrder s x
  ends : ∀ x ∈ s.trxs, ((x.id, commit) ∈ s.log → x.phase.committing = true) ∧
    (s.tm.committed.isCommitted x.id = true → x.phase = .marked)
  once : CommitsOnce s.log
  kept : ∀ r ∈ commitOrder s.log, ∀ e, r.slot = some e → Taken s 0 e
  last : MarksLast (commitOrder s.log)

-- File numbers

variable {l : Label} {f t : Nat} {rs : List (Record Version)} {log : List (Nat × Record Version)}
  {e : Nat × Rid}
variable {s s' : Db} {x y : Trx}

theorem filesOk_step (h : FilesOk s) (hstep : s.step l = some s') : FilesOk s' := by
  have hcreate : ∀ layout, ∀ t ∈ s.tables ++ [⟨s.nextTableFile, layout⟩],
      t.fileNo < s.nextTableFile + 1 := by
    intro layout t ht
    rcases mem_append.mp ht with ht | ht
    · exact Nat.lt_succ_of_lt (h.now t ht)
    · rw [mem_singleton.mp ht]
      exact Nat.lt_succ_self _
  cases Db.step_cases hstep with
  | trx _ _ _ _ _ ht => cases ht <;> exact ⟨h.now, h.saved⟩
  | checkpointSave | otherDdl | vacuumSave => exact ⟨h.now, h.now⟩
  | createTable _ layout => exact ⟨hcreate layout, hcreate layout⟩
  | dropTable =>
    exact ⟨fun t ht => h.now t (mem_filter.mp ht).1, fun t ht => h.now t (mem_filter.mp ht).1⟩
  | crash _ hre =>
    unfold Db.reopen at hre
    split at hre
    · cases hre
    cases hre
    split
    · exact ⟨h.saved, h.saved⟩
    · exact ⟨h.saved, h.saved⟩
  | _ => exact ⟨h.now, h.saved⟩

theorem filesOk_fresh (inlineLimit : Nat) : FilesOk (Db.fresh inlineLimit) where
  now := nofun
  saved := nofun

theorem file_lt_of_table (h : FilesOk s) (hf : (layoutOf s.tables f).isSome = true) :
    f < s.nextTableFile := by
  rcases Db.layoutOf_isSome_iff.mp hf with ⟨t, ht, rfl⟩
  exact h.now t ht

-- The log

theorem recordsOf_append (t : Nat) (log more : List (Nat × Record Version)) :
    recordsOf t (log ++ more) = recordsOf t log ++ recordsOf t more := by
  unfold recordsOf
  rw [filter_append, map_append]

theorem recordsOf_own (t : Nat) (h : commit ∉ rs) :
    recordsOf t (rs.map (fun r => (t, r))) = rs := by
  unfold recordsOf
  rw [List.filter_map, List.map_map]
  have hall : rs.filter ((fun e : Nat × Record Version => decide (e.1 = t) && !e.2.isCommit) ∘
      fun r => (t, r)) = rs := by
    refine filter_eq_self.mpr (fun r hr => ?_)
    simp only [Function.comp_apply, decide_true, Bool.true_and, Bool.not_eq_true']
    rw [← Bool.not_eq_true, isCommit_iff]
    exact fun hc => h (hc ▸ hr)
  rw [hall]
  exact map_id rs

theorem recordsOf_other {u : Nat} (rs : List (Record Version)) (h : t ≠ u) :
    recordsOf t (rs.map (fun r => (u, r))) = [] := by
  unfold recordsOf
  rw [map_eq_nil_iff, filter_eq_nil_iff]
  intro _ he
  rcases mem_map.mp he with ⟨_, _, hr⟩
  rw [← hr]
  simp [h.symm]

theorem recordsOf_commit (t u : Nat) : recordsOf t [(u, commit)] = [] := by
  unfold recordsOf
  simp [Record.isCommit]

/-- Frames of a transaction that has not committed are not redone. -/
theorem commitOrder_append (hrs : commit ∉ rs) (ht : (t, commit) ∉ log) :
    commitOrder (log ++ rs.map (fun r => (t, r))) = commitOrder log := by
  unfold commitOrder
  rw [filter_append, filter_commit_map t hrs, append_nil]
  refine flatMap_congr (fun e he => ?_)
  rcases mem_filter.mp he with ⟨he, hc⟩
  have hne : e.1 ≠ t := by
    intro heq
    refine ht ?_
    rw [isCommit_iff] at hc
    rw [← heq, ← hc]
    exact he
  rw [recordsOf_append, recordsOf_other _ hne, append_nil]

theorem commitOrder_commit (log : List (Nat × Record Version)) (t : Nat) :
    commitOrder (log ++ [(t, commit)]) = commitOrder log ++ recordsOf t log := by
  have hsame : ∀ u, recordsOf u (log ++ [(t, commit)]) = recordsOf u log := by
    intro _
    rw [recordsOf_append, recordsOf_commit, append_nil]
  unfold commitOrder
  rw [filter_append, flatMap_append]
  simp only [hsame]
  have hone : ([(t, commit)] : List (Nat × Record Version)).filter (fun e => e.2.isCommit) =
      [(t, commit)] := rfl
  rw [hone, flatMap_singleton]

-- Slots that stay taken

section Put

variable (s s' : Db) (x y : Trx)

/-- What every step of transaction `x`, which becomes `y`, does to the slots. -/
structure SlotStep : Prop where
  trxs : s'.trxs = (s.putTrx y).trxs
  id : y.id = x.id
  tables : s'.tables = s.tables
  nextTableFile : s'.nextTableFile = s.nextTableFile
  /-- A slot is emptied by the one who filled it. -/
  mem : ∀ f rid v, s.mem.get f rid = some v →
    (∃ w, s'.mem.get f rid = some w) ∨ ((f, rid) ∈ x.creates ∧ x.phase.committing = false)
  /-- What is filled was free. -/
  creates : ∀ e ∈ y.creates, e ∈ x.creates ∨ s.mem.get e.1 e.2 = none
  commits : ∀ t, (t, commit) ∈ s.log → (t, commit) ∈ s'.log

variable {s s' x y}

theorem taken_put (h : Ordered s) (hx : x ∈ s.trxs) (hs : SlotStep s s' x y) {id : Nat}
    (ht : Taken s id e)
    (hid : id ≠ x.id ∨ ((∃ v, s.mem.get e.1 e.2 = some v) → ∃ w, s'.mem.get e.1 e.2 = some w)) :
    Taken s' id e := by
  constructor
  case file => rw [hs.nextTableFile]; exact ht.file
  case there =>
    intro hf
    rw [hs.tables] at hf
    rcases hid with hid | hw
    · rcases ht.there hf with ⟨v, hv⟩
      rcases hs.mem e.1 e.2 v hv with hw | ⟨hc, hno⟩
      · exact hw
      -- its own transaction would have committed
      have hcommit := ht.made hf x hx hid.symm hc
      rw [(h.ends x hx).1 hcommit] at hno
      cases hno
    · exact hw (ht.there hf)
  case made =>
    intro hf z hz hne hc
    rw [hs.tables] at hf
    rw [hs.trxs] at hz
    rcases s.mem_putTrx hz with hzy | ⟨hz, _⟩
    · subst hzy
      rcases hs.creates e hc with hc | hfree
      · rw [hs.id] at hne ⊢
        exact hs.commits _ (ht.made hf x hx hne hc)
      · rcases ht.there hf with ⟨_, hv⟩
        cases hfree.symm.trans hv
    · exact hs.commits _ (ht.made hf z hz hne hc)

theorem trxOrder_other (h : Ordered s) (hx : x ∈ s.trxs) (hs : SlotStep s s' x y) {z : Trx}
    (hz : z ∈ s.trxs) (hne : z.id ≠ x.id) (hph : z.phase ≠ .aborting)
    (hlog : recordsOf z.id s'.log = recordsOf z.id s.log) : TrxOrder s' z where
  picks := fun e he => taken_put h hx hs ((h.trx z hz hph).picks e he) (.inl hne)
  order := (h.trx z hz hph).order
  split := (h.trx z hz hph).split
  pending := (h.trx z hz hph).pending
  targets := (h.trx z hz hph).targets
  logged := hlog.trans (h.trx z hz hph).logged

end Put

/-- The parts of the invariant that are known of every run. -/
structure Known (s : Db) : Prop where
  owned : Owned s
  status : VacuumVisibility.StatusOk s
  tables : VacuumVisibility.InTables s
  files : FilesOk s

theorem known_step (h : Known s) (hstep : s.step l = some s') : Known s' where
  owned := h.owned.step hstep
  status := VacuumVisibility.statusOk_step h.status hstep
  tables := VacuumVisibility.inTables_step h.tables hstep
  files := filesOk_step h.files hstep

theorem known_fresh (inlineLimit : Nat) : Known (Db.fresh inlineLimit) where
  owned := Owned.fresh inlineLimit
  status := VacuumVisibility.statusOk_fresh inlineLimit
  tables := VacuumVisibility.inTables_fresh inlineLimit
  files := filesOk_fresh inlineLimit

namespace Ordered

theorem known (h : Ordered s) : Known s := ⟨h.owned, h.status, h.tables, h.files⟩

/-- One transaction becomes `y` and logs no commit. -/
theorem put {extra : List (Record Version)} (h : Ordered s) (hk : Known s')
    (hx : x ∈ s.trxs) (hs : SlotStep s s' x y)
    (hlog : s'.log = s.log ++ extra.map (fun r => (x.id, r))) (hextra : commit ∉ extra)
    (hrun : extra = [] ∨ x.phase = .running)
    (hclog : ∀ t, t ≠ x.id → s'.tm.committed.isCommitted t = true →
      s.tm.committed.isCommitted t = true) (hy : y.phase ≠ .aborting → TrxOrder s' y)
    (hcommit : x.phase.committing = true → y.phase.committing = true)
    (hstatus : s'.tm.committed.isCommitted x.id = true → y.phase = .marked) : Ordered s' := by
  have hno : extra ≠ [] → (x.id, commit) ∉ s.log := by
    intro hne hmem
    have hc := (h.ends x hx).1 hmem
    rcases hrun with hr | hr
    · exact hne hr
    · rw [hr] at hc
      cases hc
  have hmem : ∀ t, (t, commit) ∈ s'.log ↔ (t, commit) ∈ s.log := by
    intro _
    rw [hlog, mem_append]
    refine ⟨fun hm => hm.resolve_right ?_, .inl⟩
    intro hm
    rcases mem_map.mp hm with ⟨r, hr, he⟩
    rw [mk.injEq] at he
    exact hextra (he.2 ▸ hr)
  have horder : commitOrder s'.log = commitOrder s.log := by
    rw [hlog]
    by_cases he : extra = []
    · rw [he, map_nil, append_nil]
    · exact commitOrder_append hextra (hno he)
  have hcases : ∀ z ∈ s'.trxs, z = y ∨ (z ∈ s.trxs ∧ z.id ≠ x.id) := by
    intro z hz
    rw [hs.trxs] at hz
    exact (s.mem_putTrx hz).imp_right (fun hz => ⟨hz.1, hs.id ▸ hz.2⟩)
  refine { hk with trx := ?trx, ends := ?ends, once := ?once, kept := ?kept, last := ?last }
  case trx =>
    intro z hz hph
    rcases hcases z hz with hzy | ⟨hz, hne⟩
    · rw [hzy] at hph ⊢
      exact hy hph
    · refine trxOrder_other h hx hs hz hne hph ?_
      rw [hlog, recordsOf_append, recordsOf_other _ hne, append_nil]
  case ends =>
    intro z hz
    rcases hcases z hz with hzy | ⟨hz, hne⟩
    · rw [hzy, hs.id, hmem]
      exact ⟨fun hc => hcommit ((h.ends x hx).1 hc), hstatus⟩
    · rw [hmem]
      exact ⟨(h.ends z hz).1, fun hc => (h.ends z hz).2 (hclog z.id hne hc)⟩
  case once =>
    rw [hlog]
    exact commitsOnce_append x.id hextra h.once
  case kept =>
    intro r hr e he
    rw [horder] at hr
    have hpos := (h.status.inv.trx_lt x hx).1
    exact taken_put h hx hs (h.kept r hr e he) (.inl (by omega))
  case last =>
    rw [horder]
    exact h.last

/-- Transactions may go, and slots that were taken stay so. -/
theorem carry (h : Ordered s) (hk : Known s') (htrxs : ∀ z ∈ s'.trxs, z ∈ s.trxs)
    (htaken : ∀ i e, Taken s i e → Taken s' i e) (hlog : s'.log = s.log)
    (hclog : s'.tm.committed = s.tm.committed) : Ordered s' := by
  refine { hk with trx := ?trx, ends := ?ends, once := ?once, kept := ?kept, last := ?last }
  case trx =>
    intro z hz hph
    have hok := h.trx z (htrxs z hz) hph
    exact ⟨fun e he => htaken _ e (hok.picks e he), hok.order, hok.split, hok.pending, hok.targets,
      hlog ▸ hok.logged⟩
  case ends =>
    intro z hz
    rw [hlog, hclog]
    exact h.ends z (htrxs z hz)
  case once => exact hlog ▸ h.once
  case kept =>
    intro r hr e he
    exact htaken 0 e (h.kept r (hlog ▸ hr) e he)
  case last => exact hlog ▸ h.last

/-- Neither the log nor the pages in memory change. -/
theorem fewer (h : Ordered s) (hk : Known s') (htrxs : ∀ z ∈ s'.trxs, z ∈ s.trxs)
    (hmem : s'.mem = s.mem) (htables : s'.tables = s.tables)
    (hnext : s'.nextTableFile = s.nextTableFile) (hlog : s'.log = s.log)
    (hclog : s'.tm.committed = s.tm.committed) : Ordered s' := by
  refine carry h hk htrxs (fun i e ht => ?_) hlog hclog
  refine ⟨hnext ▸ ht.file, htables ▸ hmem ▸ ht.there, fun hf z hz => ?_⟩
  rw [hlog]
  exact ht.made (htables ▸ hf) z (htrxs z hz)

/-- A file is made or dropped that no picked or logged slot is in. -/
theorem ddl (f : Nat) (h : Ordered s) (hk : Known s') (htrxs : s'.trxs = s.trxs)
    (hnext : s.nextTableFile ≤ s'.nextTableFile)
    (hget : ∀ g rid, g ≠ f → s'.mem.get g rid = s.mem.get g rid)
    (htables : ∀ g, g < s.nextTableFile → (layoutOf s'.tables g).isSome = true →
      g ≠ f ∧ (layoutOf s.tables g).isSome = true) (hlog : s'.log = s.log)
    (hclog : s'.tm.committed = s.tm.committed) : Ordered s' := by
  refine carry h hk (fun z hz => htrxs ▸ hz) (fun i e ht => ?_) hlog hclog
  refine ⟨Nat.lt_of_lt_of_le ht.file hnext, fun hf => ?_, fun hf z hz => ?_⟩
  · rw [hget _ _ (htables e.1 ht.file hf).1]
    exact ht.there (htables e.1 ht.file hf).2
  · rw [hlog]
    exact ht.made (htables e.1 ht.file hf).2 z (htrxs ▸ hz)

variable {m : Heap} {tm : TransactionManager} {ever : List Nat}

/-- The transaction fills slots or marks what is in them, and logs nothing. -/
theorem write (h : Ordered s) (hk : Known { s.putTrx y with tm := tm, mem := m, ever := ever })
    (hx : x ∈ s.trxs) (hid : y.id = x.id)
    (hclog : ∀ t, t ≠ x.id → tm.committed.isCommitted t = true →
      s.tm.committed.isCommitted t = true)
    (hkeep : ∀ f rid v, s.mem.get f rid = some v → ∃ w, m.get f rid = some w)
    (hcreates : ∀ e ∈ y.creates, e ∈ x.creates ∨ s.mem.get e.1 e.2 = none)
    (hy : y.phase ≠ .aborting → TrxOrder s y)
    (hcommit : x.phase.committing = true → y.phase.committing = true)
    (hstatus : tm.committed.isCommitted x.id = true → y.phase = .marked) :
    Ordered { s.putTrx y with tm := tm, mem := m, ever := ever } := by
  have hs : SlotStep s { s.putTrx y with tm := tm, mem := m, ever := ever } x y :=
    ⟨rfl, hid, rfl, rfl, fun f rid v hv => .inl (hkeep f rid v hv), hcreates, fun _ ht => ht⟩
  refine put h hk hx hs (append_nil _).symm not_mem_nil (.inl rfl) hclog (fun hph => ?_) hcommit
    hstatus
  refine { hy hph with picks := fun e he => taken_put h hx hs ((hy hph).picks e he) (.inr ?_) }
  intro hv
  rcases hv with ⟨v, hv⟩
  exact hkeep e.1 e.2 v hv

/-- A running transaction has nothing in the log. -/
theorem running (h : Ordered s) (hk : Known { s.putTrx y with mem := m }) (hx : x ∈ s.trxs)
    (hid : y.id = x.id) (hph : x.phase = .running) (hyph : y.phase = .running)
    (hkeep : ∀ f rid v, s.mem.get f rid = some v → ∃ w, m.get f rid = some w)
    (hcreates : ∀ e ∈ y.creates, e ∈ x.creates ∨ s.mem.get e.1 e.2 = none)
    (hpicks : ∀ e ∈ picks y, Taken s x.id e)
    (hundo : y.undo.Pairwise (fun a b => ∀ e, a.created = some e → b.marked ≠ some e) ∧
      ∀ u ∈ y.undo, ∀ e, u.created = some e → u.marked ≠ some e)
    (hpend : ∀ p, y.pending = some p → (p.fileNo, p.newRid) ∉ y.marks ∧ p.newRid ≠ p.oldRid) :
    Ordered { s.putTrx y with mem := m } := by
  have hlogs : ∀ z : Trx, z.phase = .running → logs z = [] := by
    intro z hz
    rw [logs, hz]
  refine write h hk hx hid (fun _ _ ht => ht) hkeep hcreates (fun _ => ?_) (fun hc => ?_)
    (fun hc => ?_)
  · refine ⟨hid ▸ hpicks, hundo.1, hundo.2, hpend, fun hu => ?_, ?_⟩
    · cases hyph.symm.trans hu
    · rw [hid, (h.trx x hx (hph.trans_ne nofun)).logged, hlogs x hph,
        hlogs y hyph]
  · rw [hph] at hc
    cases hc
  · cases hph.symm.trans ((h.ends x hx).2 hc)

/-- The transaction writes nothing. -/
theorem quiet (h : Ordered s) (hk : Known { s.putTrx y with tm := tm, ever := ever })
    (hx : x ∈ s.trxs) (hid : y.id = x.id) (hundo : y.undo = x.undo) (hpend : y.pending = x.pending)
    (htargets : y.targets = [] ∨
      (y.targets = x.targets ∧ (y.phase = .undoing → x.phase = .undoing)))
    (hclog : ∀ t, t ≠ x.id → tm.committed.isCommitted t = true →
      s.tm.committed.isCommitted t = true)
    (hph : y.phase ≠ .aborting → x.phase ≠ .aborting ∧ logs y = logs x)
    (hcommit : x.phase.committing = true → y.phase.committing = true)
    (hstatus : tm.committed.isCommitted x.id = true → y.phase = .marked) :
    Ordered { s.putTrx y with tm := tm, ever := ever } := by
  have hmarks : y.marks = x.marks := congrArg (filterMap Undo.marked) hundo
  refine write h hk hx hid hclog (fun f rid v hv => ⟨v, hv⟩) (fun e he => .inl ?_) (fun hy => ?_)
    hcommit hstatus
  · unfold Trx.creates at he ⊢
    rw [← hundo, ← hpend]
    exact he
  have hok := h.trx x hx (hph hy).1
  constructor
  case picks =>
    intro e he
    rw [hid]
    refine hok.picks e ?_
    unfold picks at he ⊢
    rw [hmarks, hpend] at he
    rcases htargets with ht | ht
    · rw [ht, nil_append] at he
      rw [append_assoc]
      exact mem_append_right _ he
    · rw [ht.1] at he
      exact he
  case order => exact hundo ▸ hok.order
  case split => exact hundo ▸ hok.split
  case pending => exact hpend ▸ hmarks ▸ hok.pending
  case targets =>
    intro hu
    rcases htargets with ht | ht
    · exact ht
    · exact ht.1.trans (hok.targets (ht.2 hu))
  case logged => rw [hid, hok.logged, (hph hy).2]

variable {rid : Rid} {us : List Undo} {u : Undo}

/-- A slot picked by `x` is taken, so a free one is not among them. -/
theorem not_pick_of_free (h : Ordered s) (hx : x ∈ s.trxs)
    (hph : x.phase ≠ .aborting) (hf : (layoutOf s.tables f).isSome = true)
    (hfree : s.mem.get f rid = none) : (f, rid) ∉ picks x := by
  intro he
  rcases ((h.trx x hx hph).picks _ he).there hf with ⟨_, hv⟩
  cases hfree.symm.trans hv

theorem mem_picks_of_mark (h : e ∈ x.marks) : e ∈ picks x :=
  mem_append_left _ (mem_append_right _ h)

/-- A visible version is the transaction's own, or its creator has committed. -/
theorem taken_of_visible (h : Ordered s) {snap : Snapshot} {v : Version}
    (hv : s.mem.get f rid = some v)
    (hvis : snap.visible s.tm.committed x.id v.creator v.deleter = true) :
    Taken s x.id (f, rid) := by
  have hf := h.tables.mem f rid v hv
  refine ⟨file_lt_of_table h.files hf, fun _ => ⟨v, hv⟩, fun _ y hy hne hc => ?_⟩
  rcases h.owned.created y hy _ hc with ⟨_, hw, hwc⟩
  rw [hv, some.injEq] at hw
  rw [← hw] at hwc
  have hpos := (h.status.inv.trx_lt y hy).1
  simp only [Snapshot.visible, and_eq_true, or_eq_true, decide_eq_true_eq] at hvis
  rcases hvis.1 with (_ | hown) | hb
  · omega
  · exact absurd (hwc.symm.trans hown) hne
  -- its creator counts as committed, so everything it did is in the log
  have hcom := ((committedBefore_iff _ _ _).mp hb).2.2
  rw [hwc] at hcom
  have hmarked := (h.ends y hy).2 hcom
  have hok := h.status.inv.trx_ok y hy
  unfold TrxOk at hok
  rw [hmarked] at hok
  rcases hok.2 with hnil | hdur
  · rw [Owned.creates_nil hnil hok.1] at hc
    cases hc
  · exact hdur.2

theorem keep_of_mark {h : Heap} (f : Nat) (rid : Rid) (v : Version) {g : Nat} {r : Rid}
    {w : Version} (hw : h.get g r = some w) : ∃ u, (h.setSlot f rid (some v)).get g r = some u := by
  rw [Heap.get_setSlot]
  split
  · exact ⟨v, rfl⟩
  · exact ⟨w, hw⟩

/-- A record says what its write has filled or marked. -/
theorem created_of_records {id : Nat} {v : Version} (h : .insert f rid v ∈ u.records id) :
    u.created = some (f, rid) := by
  cases u <;> simp only [Undo.records, mem_cons, not_mem_nil, or_false, reduceCtorEq,
    Record.insert.injEq] at h
  · rw [Undo.created, h.1, h.2.1]
  · rw [Undo.created, h.1, h.2.1]

theorem marked_of_records {id d n : Nat} (h : .deleteMark f rid d n ∈ u.records id) :
    u.marked = some (f, rid) := by
  cases u <;> simp only [Undo.records, mem_cons, not_mem_nil, or_false, reduceCtorEq, false_or,
    deleteMark.injEq] at h
  · rw [Undo.marked, h.1, h.2.1]
  · rw [Undo.marked, h.1, h.2.1]

/-- What one transaction logs has its marks last, given the order of its writes. -/
theorem marksLast_redoBuffer (id : Nat)
    (h : us.Pairwise (fun a b => ∀ e, a.created = some e → b.marked ≠ some e)) :
    MarksLast (redoBuffer id us) := by
  induction us with
  | nil => exact List.Pairwise.nil
  | cons u us ih =>
    rw [pairwise_cons] at h
    unfold MarksLast
    rw [redoBuffer, pairwise_append]
    refine ⟨ih h.2, ?_, ?_⟩
    · cases u with
      | update =>
        -- the insert comes first
        refine pairwise_pair.mpr (fun g r hm => ?_)
        cases hm
      | _ => exact pairwise_singleton _ _
    · intro a ha _ hb f rid hm
      rcases (mem_redoBuffer id us a).mp ha with ⟨o, ho, hao⟩
      rcases (markAt_iff f rid a).mp hm with ⟨_, _, rfl⟩
      by_contra hi
      rw [not_eq_false, insertAt_iff] at hi
      rcases hi with ⟨_, rfl⟩
      exact h.1 o ho _ (created_of_records hb) (marked_of_records hao)

/-- A record in the redo buffer is about a slot that was filled or marked. -/
theorem slot_redoBuffer {id : Nat} {r : Record Version} (hr : r ∈ redoBuffer id us)
    (he : r.slot = some e) : (∃ u ∈ us, u.created = some e) ∨ ∃ u ∈ us, u.marked = some e := by
  rcases (mem_redoBuffer id us r).mp hr with ⟨u, hu, hru⟩
  cases r with
  | insert => exact .inl ⟨u, hu, he ▸ created_of_records hru⟩
  | deleteMark => exact .inr ⟨u, hu, he ▸ marked_of_records hru⟩
  | commit => cases he

theorem mem_creates_of_undo (hu : u ∈ x.undo) (he : u.created = some e) : e ∈ x.creates :=
  mem_append_right _ (mem_filterMap.mpr ⟨u, hu, he⟩)

theorem mem_marks_of_undo (hu : u ∈ x.undo) (he : u.marked = some e) : e ∈ x.marks :=
  mem_filterMap.mpr ⟨u, hu, he⟩

/-- A write is put on the undo list: what it fills has not been marked. -/
theorem undo_cons (hok : TrxOrder s x)
    (hnew : ∀ e, u.created = some e → e ∉ x.marks ∧ u.marked ≠ some e) :
    (u :: x.undo).Pairwise (fun a b => ∀ e, a.created = some e → b.marked ≠ some e) ∧
      ∀ o ∈ u :: x.undo, ∀ e, o.created = some e → o.marked ≠ some e := by
  constructor
  · refine pairwise_cons.mpr ⟨fun o ho e he hom => ?_, hok.order⟩
    exact (hnew e he).1 (mem_marks_of_undo ho hom)
  exact forall_mem_cons.mpr ⟨fun e he => (hnew e he).2, hok.split⟩

/-- The commit record: from now on nothing empties what the transaction wrote. -/
theorem commitRecord (h : Ordered s) (hx : x ∈ s.trxs) (hph : x.phase = .appended)
    (hk : Known { s.putTrx { x with phase := .logged } with
      log := s.log ++ [(x.id, .commit)], ever := ever }) :
    Ordered { s.putTrx { x with phase := .logged } with
      log := s.log ++ [(x.id, .commit)], ever := ever } := by
  have hpos := (h.status.inv.trx_lt x hx).1
  have hok := h.trx x hx (hph.trans_ne nofun)
  have hnot : (x.id, commit) ∉ s.log := by
    intro hc
    have hc' := (h.ends x hx).1 hc
    rw [hph] at hc'
    cases hc'
  have hs : SlotStep s { s.putTrx { x with phase := .logged } with
      log := s.log ++ [(x.id, .commit)], ever := ever } x { x with phase := .logged } :=
    ⟨rfl, rfl, rfl, rfl, fun f rid v hv => .inl ⟨v, hv⟩, fun e he => .inl he,
      fun t ht => mem_append_left _ ht⟩
  have hrec : ∀ t, recordsOf t (s.log ++ [(x.id, .commit)]) = recordsOf t s.log := by
    intro _
    rw [recordsOf_append, recordsOf_commit, append_nil]
  have hown : recordsOf x.id s.log = redoBuffer x.id x.undo := by
    rw [hok.logged, logs, hph]
  have horder : commitOrder (s.log ++ [(x.id, .commit)]) =
      commitOrder s.log ++ redoBuffer x.id x.undo := by
    rw [commitOrder_commit, hown]
  have htaken := fun e (he : Taken s x.id e) => taken_put h hx hs he (.inr fun hv => hv)
  refine { hk with trx := ?trx, ends := ?ends, once := ?once, kept := ?kept, last := ?last }
  case trx =>
    intro z hz hzph
    rcases s.mem_putTrx hz with rfl | ⟨hz, hzne⟩
    · refine { hok with
        picks := fun e he => htaken e (hok.picks e he), targets := nofun, logged := ?_ }
      exact (hrec x.id).trans hown
    · exact trxOrder_other h hx hs hz hzne hzph (hrec z.id)
  case ends =>
    intro z hz
    rcases s.mem_putTrx hz with rfl | ⟨hz, hzne⟩
    · exact ⟨fun _ => rfl, fun hc => nomatch hph.symm.trans ((h.ends x hx).2 hc)⟩
    · refine ⟨fun hc => (h.ends z hz).1 ?_, (h.ends z hz).2⟩
      rw [mem_append, mem_singleton, mk.injEq] at hc
      exact hc.resolve_right (fun heq => hzne heq.1)
  case once => exact commitsOnce_commit hnot h.once
  case kept =>
    intro r hr e he
    rw [horder, mem_append] at hr
    rcases hr with hr | hr
    · exact taken_put h hx hs (h.kept r hr e he) (.inl (by omega))
    -- its own writes: nobody else has made what is there
    have hother : Taken s x.id e := by
      rcases slot_redoBuffer hr he with ⟨u, hu, hc⟩ | ⟨u, hu, hm⟩
      · have hec := mem_creates_of_undo hu hc
        rcases h.owned.created x hx e hec with ⟨v, hv, _⟩
        have hf := h.tables.mem e.1 e.2 v hv
        refine ⟨file_lt_of_table h.files hf, fun _ => ⟨v, hv⟩, ?_⟩
        intro _ z hz hzne hzc
        exact absurd hzc (h.owned.not_created_by_other hx hz hzne hec)
      · exact hok.picks e (mem_picks_of_mark (mem_marks_of_undo hu hm))
    refine { htaken e hother with made := fun hf z hz _ hzc => ?_ }
    by_cases hzx : z.id = x.id
    · rw [hzx]
      exact mem_append_right _ (mem_singleton_self _)
    · exact (htaken e hother).made hf z hz hzx hzc
  case last =>
    unfold MarksLast
    rw [horder, pairwise_append]
    refine ⟨h.last, marksLast_redoBuffer x.id hok.order, ?_⟩
    intro a ha _ hb f rid hm
    by_contra hi
    rw [not_eq_false, insertAt_iff] at hi
    rcases hi with ⟨_, rfl⟩
    rcases (mem_redoBuffer x.id x.undo _).mp hb with ⟨u, hu, hru⟩
    have hec : (f, rid) ∈ x.creates := mem_creates_of_undo hu (created_of_records hru)
    -- a mark in the log says that who made the slot has committed
    rcases (markAt_iff f rid a).mp hm with ⟨_, _, had⟩
    have hkept := h.kept a ha (f, rid) (by rw [had]; rfl)
    rcases h.owned.created x hx _ hec with ⟨w, hw, _⟩
    exact hnot (hkept.made (h.tables.mem f rid w hw) x hx (by omega) hec)

/-- A slot that the transaction filled is emptied again. -/
theorem clear {rest : List Undo} (left : List Undo) (h : Ordered s) (hx : x ∈ s.trxs)
    (hk : Known { s.putTrx { x with undo := left ++ rest } with mem := s.mem.setSlot f rid none })
    (hu : x.undo = u :: rest) (hcr : u.created = some (f, rid))
    (hleft : ∀ o ∈ left, o.created = none ∧ ∀ e, o.marked = some e → u.marked = some e)
    (hph : (x.phase = .undoing ∧ x.undoMark < x.undo.length) ∨ x.phase = .aborting) :
    Ordered { s.putTrx { x with undo := left ++ rest } with
      mem := s.mem.setSlot f rid none } := by
  have hpend := Owned.pending_none_of_undo (h.status.inv.trx_ok x hx) hph
  have hmemx : u ∈ x.undo := hu ▸ mem_cons_self
  have hsub : ∀ o ∈ rest, o ∈ x.undo := fun o ho => hu ▸ mem_cons_of_mem _ ho
  have hno : x.phase.committing = false := by
    rcases hph with hp | hp
    · rw [hp.1]
      rfl
    · rw [hp]
      rfl
  have hnone : ∀ o ∈ left, ∀ e, o.created ≠ some e := by
    intro o ho e he
    rw [(hleft o ho).1] at he
    cases he
  have hcreates : ∀ e ∈ ({ x with undo := left ++ rest } : Trx).creates, e ∈ x.creates := by
    intro e he
    rw [Trx.creates, hpend, nil_append, mem_filterMap] at he
    rcases he with ⟨o, ho, hoc⟩
    rcases mem_append.mp ho with ho | ho
    · exact absurd hoc (hnone o ho e)
    · exact mem_creates_of_undo (hsub o ho) hoc
  have hs : SlotStep s { s.putTrx { x with undo := left ++ rest } with
      mem := s.mem.setSlot f rid none } x { x with undo := left ++ rest } := by
    refine ⟨rfl, rfl, rfl, rfl, fun g r v hv => ?_, fun e he => .inl (hcreates e he),
      fun _ ht => ht⟩
    rw [Heap.get_setSlot]
    split
    · next heq =>
      rw [heq.1, heq.2]
      exact .inr ⟨mem_creates_of_undo hmemx hcr, hno⟩
    · exact .inl ⟨v, hv⟩
  refine put h hk hx hs (append_nil _).symm not_mem_nil (.inl rfl) (fun _ _ ht => ht)
    (fun hyph => ?_) id (h.ends x hx).2
  have hok := h.trx x hx hyph
  have hundoing : x.phase = .undoing := (hph.resolve_right hyph).1
  have hord := hok.order
  rw [hu, pairwise_cons] at hord
  refine { hok with
    picks := ?picks, order := ?order, split := ?split, pending := ?pending, logged := ?logged }
  case picks =>
    intro e he
    rw [picks, hok.targets hundoing, hpend, nil_append, toList_none, map_nil, append_nil] at he
    rcases mem_filterMap.mp he with ⟨o, ho, hom⟩
    -- what is emptied now is not marked by anything that is left
    have hmark : e ∈ x.marks ∧ e ≠ (f, rid) := by
      rcases mem_append.mp ho with ho | ho
      · have hum := (hleft o ho).2 e hom
        exact ⟨mem_marks_of_undo hmemx hum, fun he => hok.split u hmemx _ hcr (he ▸ hum)⟩
      · exact ⟨mem_marks_of_undo (hsub o ho) hom, fun he => hord.1 o ho _ hcr (he ▸ hom)⟩
    refine taken_put h hx hs (hok.picks e (mem_picks_of_mark hmark.1)) (.inr (fun hv => ?_))
    rw [Heap.get_setSlot, if_neg (fun heq => hmark.2 (Prod.ext heq.1 heq.2))]
    exact hv
  case order =>
    refine pairwise_append.mpr ⟨?_, hord.2, fun a ha _ _ e he => absurd he (hnone a ha e)⟩
    exact pairwise_of_forall_mem_list (fun a ha b _ e he => absurd he (hnone a ha e))
  case split =>
    intro o ho e hoe
    rcases mem_append.mp ho with ho | ho
    · exact absurd hoe (hnone o ho e)
    · exact hok.split o (hsub o ho) e hoe
  case pending =>
    intro _ hp
    cases hpend.symm.trans hp
  case logged =>
    have hlogged := hok.logged
    rw [logs, hundoing] at hlogged
    rw [logs, hundoing]
    exact hlogged

theorem trxStep {a : TrxAction} (h : Ordered s) (hk : Known s')
    (hx : x ∈ s.trxs) (hstep : Db.TrxStep s x a s') : Ordered s' := by
  have hstatus := (h.ends x hx).2
  have hrun : x.phase = .running → x.phase ≠ .aborting := by
    intro hr
    exact hr.trans_ne (by decide)
  have hclog : ∀ t, t ≠ x.id → s.tm.committed.isCommitted t = true →
    s.tm.committed.isCommitted t = true := fun _ _ ht => ht
  -- who is not marked yet does not count as committed
  have hnot : ∀ {P : Prop} {p}, x.phase = p → p ≠ .marked →
      s.tm.committed.isCommitted x.id = true → P :=
    fun hph hne hc => absurd (hstatus hc) (hph.trans_ne hne)
  have hopen : ∀ {P : Prop} {p}, x.phase = p → p.committing = false →
      x.phase.committing = true → P := by
    intro _ _ hph hp hc
    rw [hph, hp] at hc
    cases hc
  cases hstep with
  | loadNextId | readOpen =>
    exact quiet h hk hx rfl rfl rfl (.inr ⟨rfl, id⟩) hclog (fun hy => ⟨hy, rfl⟩) id hstatus
  | startStatement =>
    exact quiet h hk hx rfl rfl rfl (.inl rfl) hclog (fun hy => ⟨hy, rfl⟩) id hstatus
  | scan _ _ _ _ _ hv hph hvis =>
    have hok := h.trx x hx (hrun hph)
    refine running h hk hx rfl hph hph (fun g r w hw => ⟨w, hw⟩) (fun e he => .inl he)
      (fun e he => ?_) ⟨hok.order, hok.split⟩ hok.pending
    rcases mem_cons.mp he with he | he
    · rw [he]
      exact taken_of_visible h hv hvis
    · exact hok.picks e he
  | insert f _ _ _ _ hph hp hl _ hfree =>
    have hok := h.trx x hx (hrun hph)
    have hf : (layoutOf s.tables f).isSome = true := by rw [hl]; rfl
    have hfresh := not_pick_of_free h hx (hrun hph) hf hfree
    refine running h hk hx rfl hph hph (fun g r w hw => keep_of_mark _ _ _ hw) (fun e he => ?_)
      hok.picks (undo_cons hok (fun e he => ?_)) (fun q hq => ?_)
    · simp only [Trx.creates, hp, nil_append, filterMap_cons, Undo.created, mem_cons] at he ⊢
      rcases he with he | he
      · rw [he]
        exact .inr hfree
      · exact .inl he
    · cases he
      exact ⟨fun hm => hfresh (mem_picks_of_mark hm), (some_ne_none _).symm⟩
    · cases hp.symm.trans hq
  | deleteMark _ _ _ hph hp ht =>
    have hok := h.trx x hx (hrun hph)
    refine running h hk hx rfl hph hph (fun g r w hw => keep_of_mark _ _ _ hw) (fun e he => .inl he)
      (fun e he => hok.picks e ?_) (undo_cons hok (fun _ h => by cases h)) (fun q hq => ?_)
    · simp only [picks, Trx.marks, hp, toList_none, map_nil, append_nil,
        filterMap_cons, Undo.marked, mem_append, mem_filter, mem_cons] at he ⊢
      rcases he with he | he | he
      · exact .inl he.1
      · rw [he]
        exact .inl ht
      · exact .inr he
    · cases hp.symm.trans hq
  | updateInsert f rid _ _ new _ hph _ ht _ hl _ hfree =>
    have hok := h.trx x hx (hrun hph)
    have hf : (layoutOf s.tables f).isSome = true := by rw [hl]; rfl
    have hfresh := not_pick_of_free h hx (hrun hph) hf hfree
    have htp : (f, rid) ∈ picks x := mem_append_left _ (mem_append_left _ ht)
    refine running h hk hx rfl hph hph (fun g r w hw => keep_of_mark _ _ _ hw) (fun e he => ?_)
      (fun e he => hok.picks e ?_) ⟨hok.order, hok.split⟩ (fun q hq => ?_)
    · simp only [Trx.creates, cons_append, nil_append, mem_cons] at he
      rcases he with he | he
      · rw [he]
        exact .inr hfree
      · exact .inl (mem_append_right _ he)
    · simp only [picks, Trx.marks, toList_some, map_cons, map_nil,
        mem_append, mem_filter, mem_singleton] at he
      rcases he with (he | he) | he
      · exact mem_append_left _ (mem_append_left _ he.1)
      · exact mem_picks_of_mark he
      · rw [he]
        exact htp
    · cases hq
      refine ⟨fun hm => hfresh (mem_picks_of_mark hm), fun heq => hfresh ?_⟩
      rw [show new = rid from heq]
      exact htp
  | updateMark u _ hp =>
    have hph : x.phase = .running := by
      by_contra hne
      have hnone := Owned.pending_none (h.status.inv.trx_ok x hx) hne
      cases hp.symm.trans hnone
    have hok := h.trx x hx (hrun hph)
    have hpo := hok.pending u hp
    refine running h hk hx rfl hph hph (fun g r w hw => keep_of_mark _ _ _ hw)
      (fun e he => .inl ?_) (fun e he => hok.picks e ?_) (undo_cons hok (fun e he => ?_))
      (fun _ h => by cases h)
    · simp only [Trx.creates, hp, nil_append, filterMap_cons, Undo.created] at he ⊢
      exact he
    · simp only [picks, Trx.marks, hp, toList_none, toList_some, map_nil, map_cons, append_nil,
        filterMap_cons, Undo.marked, mem_append, mem_cons, not_mem_nil, or_false] at he ⊢
      rcases he with he | he | he
      · exact .inl (.inl he)
      · exact .inr he
      · exact .inl (.inr he)
    · cases he
      refine ⟨hpo.1, fun hom => ?_⟩
      rw [Undo.marked, some.injEq, mk.injEq] at hom
      exact hpo.2 hom.2.symm
  | failStatement hph =>
    exact quiet h hk hx rfl rfl rfl (.inl rfl) hclog
      (fun _ => ⟨hrun hph, by simp only [logs, hph]⟩) (hopen hph rfl)
      (hnot hph (by decide))
  | undoInsert _ _ _ _ _ hph hu => exact clear [] h hx hk hu rfl (forall_mem_nil _) hph
  | undoMark f rid _ _ rest _ hph hu =>
    have hsub : ∀ o ∈ rest, o ∈ x.undo := fun o ho => hu ▸ mem_cons_of_mem _ ho
    have hpend := Owned.pending_none_of_undo (h.status.inv.trx_ok x hx) hph
    refine write h hk hx rfl hclog (fun g r w hw => keep_of_mark _ _ _ hw) (fun e he => .inl ?_)
      (fun hy => ?_) id hstatus
    · simp only [Trx.creates, hpend, nil_append, mem_filterMap] at he ⊢
      rcases he with ⟨o, ho, hoc⟩
      exact ⟨o, hsub o ho, hoc⟩
    have hok := h.trx x hx hy
    have hund : x.phase = .undoing := (hph.resolve_right hy).1
    refine { hok with
      picks := ?picks, order := ?order, split := fun o ho => hok.split o (hsub o ho),
      pending := ?pending, logged := ?logged }
    case picks =>
      intro e he
      refine hok.picks e ?_
      simp only [picks, Trx.marks, hpend, toList_none, map_nil, append_nil,
        mem_append, mem_filterMap] at he ⊢
      rcases he with he | ⟨o, ho, hom⟩
      · exact .inl he
      · exact .inr ⟨o, hsub o ho, hom⟩
    case order =>
      have hord := hok.order
      rw [hu] at hord
      exact (pairwise_cons.mp hord).2
    case pending =>
      intro _ hq
      cases hpend.symm.trans hq
    case logged =>
      have hlogged := hok.logged
      simp only [logs, hund] at hlogged ⊢
      exact hlogged
  | undoUpdate f old _ _ d n _ _ hph hu =>
    refine clear [.deleteMark f old d n] h hx hk hu rfl (fun o ho => ?_) hph
    rw [mem_singleton.mp ho]
    exact ⟨rfl, fun e he => he⟩
  | endUndo hph =>
    exact quiet h hk hx rfl rfl rfl (.inr ⟨rfl, Phase.noConfusion⟩) hclog
      (fun _ => ⟨hph.trans_ne (by decide), by simp only [logs, hph]⟩)
      (hopen hph rfl) (hnot hph (by decide))
  | rollback hph =>
    exact quiet h hk hx rfl rfl rfl (.inl rfl) hclog (fun hy => absurd rfl hy)
      (hopen hph rfl) (hnot hph (by decide))
  | removeOpen => exact fewer h hk (fun z hz => hz) rfl rfl rfl rfl rfl
  | commitAppend hph hp =>
    have hok := h.trx x hx (hrun hph)
    have hwal := wal_eq_of_running (h.status.inv.trx_ok x hx) hph hp
    have hnc : commit ∉ x.wal := by
      rw [hwal]
      exact commit_not_mem_redoBuffer x.id x.undo
    have hs : SlotStep s { s.putTrx { x with phase := .appended, targets := [] } with
        log := s.log ++ x.wal.map (fun r => (x.id, r)) } x
        { x with phase := .appended, targets := [] } :=
      ⟨rfl, rfl, rfl, rfl, fun f rid v hv => .inl ⟨v, hv⟩, fun e he => .inl he,
        fun t ht => mem_append_left _ ht⟩
    refine put h hk hx hs rfl hnc (.inr hph) hclog (fun _ => ?_) (hopen hph rfl)
      (hnot hph (by decide))
    refine { hok with picks := fun e he => ?_, targets := Phase.noConfusion, logged := ?_ }
    · refine taken_put h hx hs (hok.picks e ?_) (.inr id)
      exact mem_append.mpr ((mem_append.mp he).imp_left (fun hm => mem_append_right _ hm))
    have hnone := hok.logged
    simp only [logs, hph] at hnone
    rw [recordsOf_append, hnone, nil_append, recordsOf_own x.id hnc, hwal]
    rfl
  | commitRecord hph => exact commitRecord h hx hph hk
  | commitReadOnly hph _ hu =>
    exact quiet h hk hx rfl rfl rfl (.inl rfl) hclog
      (fun _ => ⟨hrun hph, by simp only [logs, hph, hu, redoBuffer]⟩) (fun _ => rfl)
      (hnot hph (by decide))
  | commitCount hph =>
    exact quiet h hk hx rfl rfl rfl (.inr ⟨rfl, Phase.noConfusion⟩) hclog
      (fun _ => ⟨hph.trans_ne (by decide), by simp only [logs, hph]⟩) (fun _ => rfl)
      (hnot hph (by decide))
  | commitMark hph =>
    refine quiet h hk hx rfl rfl rfl (.inr ⟨rfl, Phase.noConfusion⟩) (fun t ht hc => ?_)
      (fun _ => ⟨hph.trans_ne (by decide), by simp only [logs, hph]⟩) (fun _ => rfl)
      (fun _ => rfl)
    rcases (Clog.isCommitted_mark _ _ _).mp hc with hc | hc
    · exact hc
    · exact absurd hc.1 ht
  | _ =>
    exact fewer h hk (fun z hz => ((s.mem_dropTrx x.id z).mp hz).1) rfl rfl rfl rfl rfl

/-- Where the log is empty, only what the open transactions picked matters. -/
theorem of_log_nil (hk : Known s) (hlog : s.log = [])
    (htrx : ∀ x ∈ s.trxs, x.phase ≠ .aborting → x.undo = [] ∧ x.pending = none ∧
      ∀ e ∈ x.targets, Taken s x.id e)
    (htargets : ∀ x ∈ s.trxs, x.phase = .undoing → x.targets = [])
    (hstatus : ∀ x ∈ s.trxs, s.tm.committed.isCommitted x.id = true → x.phase = .marked) :
    Ordered s := by
  refine { hk with trx := ?trx, ends := ?ends, once := ?once, kept := ?kept, last := ?last }
  case trx =>
    intro x hx hph
    rcases htrx x hx hph with ⟨hu, hp, ht⟩
    constructor
    case picks =>
      intro e he
      simp only [picks, Trx.marks, hu, hp, filterMap_nil, append_nil, toList_none, map_nil] at he
      exact ht e he
    case order => rw [hu]; exact List.Pairwise.nil
    case split =>
      intro _ hmem
      rw [hu] at hmem
      cases hmem
    case pending =>
      intro _ hpp
      cases hp.symm.trans hpp
    case targets => exact htargets x hx
    case logged =>
      rw [hlog]
      unfold logs
      rw [hu]
      cases x.phase <;> rfl
  case ends =>
    refine fun x hx => ⟨fun hc => ?_, hstatus x hx⟩
    rw [hlog] at hc
    cases hc
  case once => rw [hlog]; exact nodup_nil
  case kept =>
    intro _ hr
    rw [hlog] at hr
    cases hr
  case last => rw [hlog]; exact List.Pairwise.nil

theorem of_cut (hk : Known s) (hc : Cut s) : Ordered s := by
  refine of_log_nil hk hc.log (fun x hx hph => ?_) (fun x hx hph => ?_) (fun x hx hcom => ?_)
  · rcases hc.idle x hx hph with ⟨hu, hp, ht⟩
    refine ⟨hu, hp, fun e he => ?_⟩
    rw [ht] at he
    cases he
  · refine (hc.idle x hx ?_).2.2
    exact hph.trans_ne nofun
  · cases (hc.uncommitted x hx).symm.trans hcom

/-- The log is cut again. -/
theorem truncate {exclude : Option Nat} {c : Option Checkpoint} (h : Ordered s)
    (hk : Known { s with log := [], checkpoint := c }) (hopen : s.nothingOpen exclude = true) :
    Ordered { s with log := [], checkpoint := c } := by
  refine of_log_nil hk rfl (fun x hx hph => ?_) (fun x hx hph => ?_) (fun x hx => (h.ends x hx).2)
  · -- who is not rolling back is alone and has written nothing
    have halone : s.trxs = [x] ∧ x.undo = [] ∧ x.pending = none := by
      cases exclude with
      | none =>
        have hmemo := h.status.inv.trx_open x hx hph
        rw [Db.nothingOpen, TransactionManager.noOpenTransactions, List.isEmpty_iff] at hopen
        rw [hopen] at hmemo
        cases hmemo
      | some =>
        rcases s.exclusive_cases hopen with ⟨_, ⟨hy, _, hu, hp⟩, _⟩
        rw [hy, mem_singleton] at hx
        rw [hx]
        exact ⟨hy, hu, hp⟩
    refine ⟨halone.2.1, halone.2.2, fun e he => ?_⟩
    refine { (h.trx x hx hph).picks e (mem_append_left _ (mem_append_left _ he)) with
      made := fun _ z hz hne => ?_ }
    rw [halone.1, mem_singleton] at hz
    exact absurd (by rw [hz]) hne
  · refine (h.trx x hx ?_).targets hph
    exact hph.trans_ne nofun

theorem begin (h : Ordered s) (hk : Known { s with
      tm := s.tm.beginOpen.2, trxs := Trx.fresh s.tm.nextId :: s.trxs }) :
    Ordered { s with tm := s.tm.beginOpen.2, trxs := Trx.fresh s.tm.nextId :: s.trxs } := by
  -- the new id is nowhere in the log
  have hnew : ∀ r, (s.tm.nextId, r) ∉ s.log := by
    intro r hr
    exact absurd (h.status.inv.log_lt _ hr).2 (Nat.lt_irrefl _)
  have htaken : ∀ i e, Taken s i e → Taken { s with
      tm := s.tm.beginOpen.2, trxs := Trx.fresh s.tm.nextId :: s.trxs } i e := by
    intro _ e ht
    refine { ht with made := fun hf z hz hne hc => ?_ }
    rcases mem_cons.mp hz with rfl | hz
    · cases hc
    · exact ht.made hf z hz hne hc
  refine { hk with trx := ?trx, ends := ?ends, once := h.once, kept := ?kept, last := h.last }
  case trx =>
    intro z hz hph
    rcases mem_cons.mp hz with rfl | hz
    · refine ⟨nofun, List.Pairwise.nil, nofun, nofun, fun _ => rfl, ?_⟩
      refine map_eq_nil_iff.mpr (filter_eq_nil_iff.mpr (fun e he hc => ?_))
      rw [and_eq_true, decide_eq_true_eq] at hc
      have hid : e.1 = s.tm.nextId := hc.1
      exact hnew e.2 (hid ▸ he)
    · exact { h.trx z hz hph with picks := fun e he => htaken _ e ((h.trx z hz hph).picks e he) }
  case ends =>
    intro z hz
    rcases mem_cons.mp hz with rfl | hz
    · refine ⟨fun hc => absurd hc (hnew _), fun hc => ?_⟩
      exact absurd (h.status.now _ hc) (Nat.lt_irrefl _)
    · exact h.ends z hz
  case kept => exact fun r hr e he => htaken 0 e (h.kept r hr e he)

theorem step (h : Ordered s) (hplain : Plain l = true) (hstep : s.step l = some s') :
    Ordered s' := by
  have hk := known_step h.known hstep
  cases Db.step_cases hstep with
  | begin => exact begin h hk
  | trx _ _ _ _ hx ht => exact trxStep h hk hx ht
  | truncate _ _ _ _ _ hopen => exact truncate h hk hopen
  | createTable =>
    refine ddl s.nextTableFile h hk rfl (Nat.le_succ _) (fun g rid hne => ?_)
      (fun g hg hf => ⟨Nat.ne_of_lt hg, ?_⟩) rfl rfl
    · rw [Heap.get_setFile, if_neg hne]
    rcases Db.layoutOf_isSome_iff.mp hf with ⟨t, ht, rfl⟩
    rcases mem_append.mp ht with ht | ht
    · exact Db.layoutOf_isSome_iff.mpr ⟨t, ht, rfl⟩
    · -- the new table has a new file
      rw [mem_singleton.mp ht] at hg
      exact absurd hg (Nat.lt_irrefl _)
  | dropTable _ f =>
    refine ddl f h hk rfl (Nat.le_refl _) (fun g rid hne => ?_) (fun g hg hf => ?_) rfl rfl
    · rw [Heap.get_setFile, if_neg hne]
    · rcases Db.layoutOf_isSome_iff.mp hf with ⟨t, ht, rfl⟩
      rcases mem_filter.mp ht with ⟨ht, hne⟩
      exact ⟨of_decide_eq_true hne, Db.layoutOf_isSome_iff.mpr ⟨t, ht, rfl⟩⟩
  | vacuumBegin | vacuumDelete | vacuumUnmark | vacuumKeep | vacuumHorizon | vacuumSave | crash =>
    cases hplain
  | _ => exact fewer h hk (fun z hz => hz) rfl rfl rfl rfl rfl

theorem run (s0 : Db) {ms : List Label} (h : Ordered s0)
    (hplain : ∀ l ∈ ms, Plain l = true) (hrun : runSteps Db.step s0 ms = some s) : Ordered s := by
  exact invariant_of_meets Db.step _ Ordered (fun _ _ _ h => h.step) s0 s ms h
    (meets_of_labels s0 hplain) hrun

end Ordered

-- Write-backs after the first recovery

theorem run_writeBack (pages : List (Nat × Nat)) (s : Db) :
    ∃ t, runSteps Db.step s (pages.map (fun e => .writeBack e.1 e.2)) = some t ∧
      t.log = s.log ∧ t.saved = s.saved ∧ t.inlineLimit = s.inlineLimit ∧
      ∀ f p, t.disk.page f p = s.disk.page f p ∨ t.disk.page f p = s.mem.page f p := by
  induction pages generalizing s with
  | nil => exact ⟨s, rfl, rfl, rfl, rfl, fun f p => .inl rfl⟩
  | cons e _ ih =>
    rcases ih { s with disk := s.disk.copyPage s.mem e.1 e.2 } with
      ⟨t, hrun, hlog, hsaved, hlim, hpages⟩
    refine ⟨t, hrun, hlog, hsaved, hlim, fun f p => ?_⟩
    rcases hpages f p with hp | hp
    · unfold Heap.copyPage at hp
      rw [Heap.page_setPage] at hp
      split at hp
      · next heq =>
        rw [← heq.1, ← heq.2] at hp
        exact .inr hp
      · exact .inl hp
    · exact .inr hp

/-- A table is created and a checkpoint cuts the log. -/
def newTable (layout : Layout) : List Label :=
  [.begin, .createTable 1 layout, .trx 1 .commitReadOnly, .trx 1 .commitCount, .trx 1 .commitMark,
    .trx 1 .commitFinish, .checkpointBegin, .checkpointSave, .checkpointEnd none]

/-- COMMIT of a transaction that has written. -/
def commitTrx (id : Nat) : List Label :=
  [.trx id .commitAppend, .trx id .commitRecord, .trx id .commitCount, .trx id .commitMark,
    .trx id .commitFinish]

/-- A row is inserted, and the page goes to disk after another transaction has
    put a row next to it. The first row is updated and committed, the other one
    is rolled back, and no page is written any more. -/
def halfWritten : List Label :=
  [.begin, .trx 2 (.insert 0 1 [.int 7])] ++ commitTrx 2 ++
    [.begin, .trx 3 (.insert 0 1 [.int 8]), .writeBack 0 1, .begin, .trx 4 .loadNextId,
      .trx 4 .readOpen, .trx 4 .startStatement, .trx 4 (.scan 0 ⟨1, 0⟩),
      .trx 4 (.updateInsert 0 ⟨1, 0⟩ 1 [.int 9]), .trx 4 .updateMark] ++ commitTrx 4 ++
    [.trx 3 .rollback, .trx 3 .undoOne, .trx 3 .removeOpen, .trx 3 .finishRollback]

end Replay

end ChibiDb
