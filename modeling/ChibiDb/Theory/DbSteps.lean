import ChibiDb.Core.Database
import ChibiDb.Data.Transition

/-!
# What a Step of the Database Does

`Db.step` is a function with guards and lookups. This file says once, as an
inductive relation, what each of its enabled steps needs and what it leads to,
with page operations reduced to the one slot they change. Proofs about runs go
by cases on the relation and never unfold the function.

## Main definitions

* `Skipped`, `RedoStep`: Redoing one record.
* `TrxStep`: The steps of one transaction.
* `DbStep`: The steps of the database.
* `Cleaned`: What VACUUM makes of one record.
* `Reopened`: A database and what opening it again makes of it.

## Theorems

* `trxStep_cases`: A step of a transaction is a `TrxStep`.
* `step_cases`: A step of the database is a `DbStep`.
* `cleaned_of_step`: A step of VACUUM deals with one record.
* `reopened_of_reopen`: What `Db.reopen` returns.
* `mem_putTrx`, `mem_dropTrx`: The transactions after a step.
-/

namespace ChibiDb.Db

open List Option

variable {h' : Heap} {f lim : Nat} {tables : List Table} {rid : Rid} {s s' : Db} {x y : Trx}

/-- The record has nothing left to do. -/
def Skipped (tables : List Table) (h : Heap) : Record Version → Prop
  | .insert f rid _ => (layoutOf tables f).isSome = true → (h.get f rid).isSome = true
  | .deleteMark f rid _ _ =>
    (layoutOf tables f).isSome = true → ∀ v, h.get f rid = some v → v.deleter ≠ 0
  | .commit => True

theorem redoOne_of_skipped {h : Heap} {r : Record Version} (hs : Skipped tables h r) :
    redoOne lim tables h r = some h := by
  cases r with
  | insert f rid v =>
    rw [redoOne]
    cases hl : layoutOf tables f with
    | none => rfl
    | some => exact if_pos (hs (by rw [hl]; rfl))
  | deleteMark f rid d n =>
    rw [redoOne]
    cases hl : layoutOf tables f with
    | none => rfl
    | some =>
      cases hv : h.get f rid with
      | none => rfl
      | some v => exact if_neg (hs (by rw [hl]; rfl) v hv)
  | commit => rfl

/-- Redoing one record changes at most the one slot it is about. -/
inductive RedoStep (tables : List Table) (h : Heap) : Record Version → Heap → Prop where
  | skip {r} (hs : Skipped tables h r) : RedoStep tables h r h
  | fill {f rid v} (hl : (layoutOf tables f).isSome = true) (hfree : h.get f rid = none) :
      RedoStep tables h (.insert f rid v) (h.setSlot f rid (some v))
  | mark {f rid d n v} (hl : (layoutOf tables f).isSome = true) (hv : h.get f rid = some v)
      (hd : v.deleter = 0) :
      RedoStep tables h (.deleteMark f rid d n)
        (h.setSlot f rid (some { v with deleter := d, nextRid := n }))

/-- What replaying one record can do. -/
theorem redoOne_cases {h : Heap} {r : Record Version} (hr : redoOne lim tables h r = some h') :
    RedoStep tables h r h' := by
  by_cases hs : Skipped tables h r
  · rw [redoOne_of_skipped hs, some.injEq] at hr
    exact hr ▸ .skip hs
  cases r with
  | insert f rid v =>
    rcases Classical.not_imp.mp hs with ⟨hl, hfree⟩
    rcases isSome_iff_exists.mp hl with ⟨layout, hlayout⟩
    simp only [redoOne, hlayout, Heap.insertAt, if_neg hfree, ite_some_none_eq_some] at hr
    exact hr.2 ▸ .fill hl (not_isSome_iff_eq_none.mp hfree)
  | deleteMark f rid d n =>
    rcases Classical.not_imp.mp hs with ⟨hl, hno⟩
    rcases isSome_iff_exists.mp hl with ⟨layout, hlayout⟩
    simp only [not_forall, not_not] at hno
    rcases hno with ⟨v, hv, hd⟩
    simp only [redoOne, hlayout, hv, if_pos hd, Heap.deleteMark, some.injEq] at hr
    exact hr ▸ .mark hl hv hd
  | commit => exact absurd trivial hs

theorem redo_cons {r : Record Version} {rs : List (Record Version)} {h : Heap}
    (hr : redo lim tables (r :: rs) h = some h') :
    ∃ g, redoOne lim tables h r = some g ∧ redo lim tables rs g = some h' := by
  simp only [redo] at hr
  split at hr
  · cases hr
  · next g hone => exact ⟨g, hone, hr⟩

/-- What every redo step preserves, redoing a list preserves. -/
theorem redo_invariant (P : Heap → Prop) {rs : List (Record Version)} (h : Heap) (hP : P h)
    (hstep : ∀ g g' r, r ∈ rs → P g → redoOne lim tables g r = some g' → P g')
    (hr : redo lim tables rs h = some h') : P h' := by
  induction rs generalizing h with
  | nil =>
    cases hr
    exact hP
  | cons r _ ih =>
    rcases redo_cons hr with ⟨g, hone, hrest⟩
    exact ih g (hstep h g r mem_cons_self hP hone)
      (fun a b q hq => hstep a b q (mem_cons_of_mem r hq)) hrest

/-- The steps of transaction `x` of database `s`. -/
inductive TrxStep (s : Db) (x : Trx) : TrxAction → Db → Prop where
  | loadNextId (hph : x.phase = .running) :
      TrxStep s x .loadNextId (s.putTrx { x with xmax := some s.tm.nextId })
  | readOpen (n : Nat) (hx : x.xmax = some n) :
      TrxStep s x .readOpen
        (s.putTrx { x with xmax := none, snapshot := some ⟨n, s.tm.xip⟩ })
  | startStatement (hph : x.phase = .running) (hp : x.pending = none) :
      TrxStep s x .startStatement (s.putTrx { x with
        undoMark := x.undo.length, walMark := x.wal.length, targets := [] })
  | scan (f : Nat) (rid : Rid) (snap : Snapshot) (v : Version) (hsnap : x.snapshot = some snap)
      (hv : s.mem.get f rid = some v) (hph : x.phase = .running)
      (hvis : snap.visible s.tm.committed x.id v.creator v.deleter = true) :
      TrxStep s x (.scan f rid) (s.putTrx { x with targets := (f, rid) :: x.targets })
  | insert (f p : Nat) (row : Row) (rid : Rid) (layout : Layout) (hph : x.phase = .running)
      (hp : x.pending = none) (hl : layoutOf s.tables f = some layout)
      (hacc : layout.accepts row = true) (hfree : s.mem.get f rid = none) :
      TrxStep s x (.insert f p row)
        { s.putTrx { x with
            undo := .insert f rid row :: x.undo
            wal := x.wal ++ [.insert f rid ⟨x.id, 0, 0, row⟩] } with
          mem := s.mem.setSlot f rid (some ⟨x.id, 0, 0, row⟩) }
  | deleteMark (f : Nat) (rid : Rid) (v : Version) (hph : x.phase = .running)
      (hp : x.pending = none) (ht : (f, rid) ∈ x.targets) (hlock : s.locked x.id f rid = false)
      (hv : s.mem.get f rid = some v) :
      TrxStep s x (.deleteMark f rid)
        { s.putTrx { x with
            targets := x.targets.filter (fun e => e ≠ (f, rid))
            undo := .deleteMark f rid v.deleter v.nextRid :: x.undo
            wal := x.wal ++ [.deleteMark f rid x.id 0] } with
          mem := s.mem.setSlot f rid (some { v with deleter := x.id, nextRid := 0 }) }
  | updateInsert (f : Nat) (rid : Rid) (p : Nat) (row : Row) (new : Rid) (layout : Layout)
      (hph : x.phase = .running) (hp : x.pending = none) (ht : (f, rid) ∈ x.targets)
      (hlock : s.locked x.id f rid = false) (hl : layoutOf s.tables f = some layout)
      (hacc : layout.accepts row = true) (hfree : s.mem.get f new = none) :
      TrxStep s x (.updateInsert f rid p row)
        { s.putTrx { x with
            targets := x.targets.filter (fun e => e ≠ (f, rid))
            pending := some ⟨f, rid, new, row⟩
            wal := x.wal ++ [.insert f new ⟨x.id, 0, 0, row⟩] } with
          mem := s.mem.setSlot f new (some ⟨x.id, 0, 0, row⟩) }
  | updateMark (u : PendingUpdate) (v : Version) (hp : x.pending = some u)
      (hv : s.mem.get u.fileNo u.oldRid = some v) :
      TrxStep s x .updateMark
        { s.putTrx { x with
            pending := none
            undo := .update u.fileNo u.oldRid u.newRid u.newRow v.deleter v.nextRid :: x.undo
            wal := x.wal ++ [.deleteMark u.fileNo u.oldRid x.id (packRid u.newRid)] } with
          mem := s.mem.setSlot u.fileNo u.oldRid
            (some { v with deleter := x.id, nextRid := packRid u.newRid }) }
  | failStatement (hph : x.phase = .running) (hp : x.pending = none) :
      TrxStep s x .failStatement
        (s.putTrx { x with phase := .undoing, wal := x.wal.take x.walMark, targets := [] })
  | undoInsert (f : Nat) (rid : Rid) (row : Row) (rest : List Undo) (v : Version)
      (hph : (x.phase = .undoing ∧ x.undoMark < x.undo.length) ∨ x.phase = .aborting)
      (hu : x.undo = .insert f rid row :: rest) (hv : s.mem.get f rid = some v) :
      TrxStep s x .undoOne
        { s.putTrx { x with undo := rest } with mem := s.mem.setSlot f rid none }
  | undoMark (f : Nat) (rid : Rid) (d n : Nat) (rest : List Undo) (v : Version)
      (hph : (x.phase = .undoing ∧ x.undoMark < x.undo.length) ∨ x.phase = .aborting)
      (hu : x.undo = .deleteMark f rid d n :: rest) (hv : s.mem.get f rid = some v) :
      TrxStep s x .undoOne
        { s.putTrx { x with undo := rest } with
          mem := s.mem.setSlot f rid (some { v with deleter := d, nextRid := n }) }
  | undoUpdate (f : Nat) (old new : Rid) (row : Row) (d n : Nat) (rest : List Undo) (v : Version)
      (hph : (x.phase = .undoing ∧ x.undoMark < x.undo.length) ∨ x.phase = .aborting)
      (hu : x.undo = .update f old new row d n :: rest) (hv : s.mem.get f new = some v) :
      TrxStep s x .undoOne
        { s.putTrx { x with undo := .deleteMark f old d n :: rest } with
          mem := s.mem.setSlot f new none }
  | endUndo (hph : x.phase = .undoing) (hlen : x.undo.length ≤ x.undoMark) :
      TrxStep s x .endUndo (s.putTrx { x with phase := .running })
  | rollback (hph : x.phase = .running) (hp : x.pending = none) :
      TrxStep s x .rollback (s.putTrx { x with phase := .aborting, wal := [], targets := [] })
  | removeOpen (hph : x.phase = .aborting) :
      TrxStep s x .removeOpen { s with tm := s.tm.removeOpen x.id }
  | finishRollback (hph : x.phase = .aborting) (hu : x.undo = []) (ho : x.id ∉ s.tm.openSet) :
      TrxStep s x .finishRollback (s.dropTrx x.id)
  | commitAppend (hph : x.phase = .running) (hp : x.pending = none) (hu : x.undo ≠ []) :
      TrxStep s x .commitAppend
        { s.putTrx { x with phase := .appended, targets := [] } with
          log := s.log ++ x.wal.map (fun r => (x.id, r)) }
  | commitRecord (hph : x.phase = .appended) :
      TrxStep s x .commitRecord
        { s.putTrx { x with phase := .logged } with
          log := s.log ++ [(x.id, .commit)]
          ever := x.id :: s.ever }
  | commitReadOnly (hph : x.phase = .running) (hp : x.pending = none) (hu : x.undo = []) :
      TrxStep s x .commitReadOnly
        { s.putTrx { x with phase := .logged, targets := [] } with ever := x.id :: s.ever }
  | commitCount (hph : x.phase = .logged) :
      TrxStep s x .commitCount
        { s.putTrx { x with phase := .counted } with tm := s.tm.bumpCommits }
  | commitMark (hph : x.phase = .counted) :
      TrxStep s x .commitMark
        { s.putTrx { x with phase := .marked } with tm := s.tm.markCommitted x.id }
  | commitFinish (hph : x.phase = .marked) :
      TrxStep s x .commitFinish { s.dropTrx x.id with tm := s.tm.removeOpen x.id }

/-- What a version insert that succeeds has done. -/
theorem insertVersion_eq_some {p : Nat} {v : Version} {mem : Heap}
    (h : s.insertVersion f p v = some (rid, mem)) :
    ∃ layout, layoutOf s.tables f = some layout ∧ layout.accepts v.row = true ∧
      s.mem.get f rid = none ∧ mem = s.mem.setSlot f rid (some v) := by
  unfold insertVersion at h
  cases hl : layoutOf s.tables f with
  | none =>
    rw [hl] at h
    cases h
  | some layout =>
    rw [hl] at h
    simp only [ite_none_right_eq_some] at h
    obtain ⟨hrid, hmem, hacc⟩ := Heap.insert_eq_some h.2
    refine ⟨layout, rfl, hacc, ?_, hmem⟩
    rw [hrid]
    exact Heap.get_freeSlot s.mem f p

/-- A transaction's step is one of the listed cases. -/
theorem trxStep_cases {a : TrxAction} (h : s.trxStep x a = some s') : TrxStep s x a s' := by
  cases a with
  | loadNextId | removeOpen | commitRecord | commitCount | commitMark | commitFinish =>
    simp only [trxStep, ite_some_none_eq_some] at h
    obtain ⟨hph, rfl⟩ := h
    constructor
    exact hph
  | startStatement | failStatement | endUndo | rollback =>
    simp only [trxStep, ite_some_none_eq_some] at h
    obtain ⟨⟨hph, hp⟩, rfl⟩ := h
    constructor
    · exact hph
    · exact hp
  | finishRollback | commitAppend | commitReadOnly =>
    simp only [trxStep, ite_some_none_eq_some] at h
    obtain ⟨⟨hph, hp, hu⟩, rfl⟩ := h
    constructor
    · exact hph
    · exact hp
    · exact hu
  | readOpen =>
    simp only [trxStep] at h
    split at h
    · cases h
    · next n hx =>
      cases h
      exact .readOpen n hx
  | scan f rid =>
    simp only [trxStep] at h
    split at h
    · next snap v hsnap hv =>
      rw [ite_some_none_eq_some] at h
      obtain ⟨⟨hph, hvis⟩, rfl⟩ := h
      exact .scan f rid snap v hsnap hv hph hvis
    · cases h
  | insert f p row =>
    simp only [trxStep, ite_none_right_eq_some] at h
    obtain ⟨⟨hph, hp⟩, h⟩ := h
    split at h
    · cases h
    · next rid _ hi =>
      obtain ⟨layout, hl, hacc, hfree, rfl⟩ := insertVersion_eq_some hi
      cases h
      exact .insert f p row rid layout hph hp hl hacc hfree
  | deleteMark f rid =>
    simp only [trxStep, ite_none_right_eq_some] at h
    obtain ⟨⟨hph, hp, ht, hlock⟩, h⟩ := h
    split at h
    · next v _ hv hm =>
      obtain ⟨_, hv', rfl⟩ := Heap.deleteMark_eq_some hm
      cases hv.symm.trans hv'
      cases h
      exact .deleteMark f rid v hph hp ht (Bool.eq_false_iff.mpr hlock) hv
    · cases h
  | updateInsert f rid p row =>
    simp only [trxStep, ite_none_right_eq_some] at h
    obtain ⟨⟨hph, hp, ht, hlock⟩, h⟩ := h
    split at h
    · cases h
    · next new _ hi =>
      obtain ⟨layout, hl, hacc, hfree, rfl⟩ := insertVersion_eq_some hi
      cases h
      exact .updateInsert f rid p row new layout hph hp ht (Bool.eq_false_iff.mpr hlock) hl
        hacc hfree
  | updateMark =>
    simp only [trxStep] at h
    split at h
    · cases h
    · next u hp =>
      split at h
      · next v _ hv hm =>
        obtain ⟨_, hv', rfl⟩ := Heap.deleteMark_eq_some hm
        cases hv.symm.trans hv'
        cases h
        exact .updateMark u v hp hv
      · cases h
  | undoOne =>
    simp only [trxStep, ite_none_right_eq_some] at h
    obtain ⟨hph, h⟩ := h
    split at h
    · cases h
    · next u rest hu =>
      split at h
      · cases h
      · next mem left hw =>
        cases h
        cases u with
        | insert f rid row =>
          obtain ⟨rfl, v, hv, rfl⟩ := undoWrite_eq_some hw
          exact .undoInsert f rid row rest v hph hu hv
        | deleteMark f rid d n =>
          obtain ⟨rfl, v, hv, rfl⟩ := undoWrite_eq_some hw
          exact .undoMark f rid d n rest v hph hu hv
        | update f old new row d n =>
          obtain ⟨rfl, v, hv, rfl⟩ := undoWrite_eq_some hw
          exact .undoUpdate f old new row d n rest v hph hu hv

/-- Every step, with what it needs and what it leads to. -/
inductive DbStep (s : Db) : Label → Db → Prop where
  | begin (hv : s.vacuum = none) :
      DbStep s .begin
        { s with tm := s.tm.beginOpen.2, trxs := Trx.fresh s.tm.nextId :: s.trxs }
  | trx (x : Trx) (a : TrxAction) (s' : Db) (hv : s.vacuum = none) (hx : x ∈ s.trxs)
      (hstep : TrxStep s x a s') : DbStep s (.trx x.id a) s'
  | writeBack (f p : Nat) :
      DbStep s (.writeBack f p) { s with disk := s.disk.copyPage s.mem f p }
  | checkpointBegin (hv : s.vacuum = none) :
      DbStep s .checkpointBegin { s with checkpoint := some ⟨s.tm.commits, false⟩ }
  | checkpointSave (c : Checkpoint) (hv : s.vacuum = none) (hc : s.checkpoint = some c) :
      DbStep s .checkpointSave
        { s with saved := s.catalogNow, checkpoint := some { c with saved := true } }
  | truncate (exclude : Option Nat) (c : Checkpoint) (hv : s.vacuum = none)
      (hc : s.checkpoint = some c) (hsaved : c.saved = true)
      (hopen : s.nothingOpen exclude = true) (hcommits : s.tm.commits = c.commits) :
      DbStep s (.checkpointEnd exclude) { s with log := [], checkpoint := none }
  | keepLog (exclude : Option Nat) (hv : s.vacuum = none) :
      DbStep s (.checkpointEnd exclude) { s with checkpoint := none }
  | createTable (id : Nat) (layout : Layout) (hv : s.vacuum = none)
      (he : s.exclusive id = true) :
      DbStep s (.createTable id layout)
        { s with
          nextTableFile := s.nextTableFile + 1
          tables := s.tables ++ [⟨s.nextTableFile, layout⟩]
          mem := s.mem.setFile s.nextTableFile [[]]
          disk := s.disk.setFile s.nextTableFile [[]]
          saved :=
            { s.catalogNow with
              nextTableFile := s.nextTableFile + 1
              tables := s.tables ++ [⟨s.nextTableFile, layout⟩] } }
  | dropTable (id f : Nat) (hv : s.vacuum = none) (he : s.exclusive id = true) :
      DbStep s (.dropTable id f)
        { s with
          tables := s.tables.filter (fun t => t.fileNo ≠ f)
          mem := s.mem.setFile f []
          disk := s.disk.setFile f []
          saved := { s.catalogNow with tables := s.tables.filter (fun t => t.fileNo ≠ f) } }
  | otherDdl (id : Nat) (hv : s.vacuum = none) (he : s.exclusive id = true) :
      DbStep s (.otherDdl id) { s with saved := s.catalogNow }
  | vacuumBegin (id : Nat) (hv : s.vacuum = none) (he : s.exclusive id = true) :
      DbStep s (.vacuumBegin id) { s with vacuum := some (.cleaning s.allRecords) }
  | vacuumDelete (f : Nat) (rid : Rid) (work : List (Nat × Rid)) (v : Version)
      (hw : s.vacuum = some (.cleaning ((f, rid) :: work))) (hv : s.mem.get f rid = some v)
      (hdead : s.tm.committed.isCommitted v.creator = false ∨
        v.deleter ≠ 0 ∧ s.tm.committed.isCommitted v.deleter = true) :
      DbStep s .vacuumOne
        { s with mem := s.mem.setSlot f rid none, vacuum := some (.cleaning work) }
  | vacuumUnmark (f : Nat) (rid : Rid) (work : List (Nat × Rid)) (v : Version)
      (hw : s.vacuum = some (.cleaning ((f, rid) :: work))) (hv : s.mem.get f rid = some v)
      (hcr : s.tm.committed.isCommitted v.creator = true)
      (hd : s.tm.committed.isCommitted v.deleter = false) :
      DbStep s .vacuumOne
        { s with
          mem := s.mem.setSlot f rid (some { v with deleter := 0, nextRid := 0 })
          vacuum := some (.cleaning work) }
  | vacuumKeep (f : Nat) (rid : Rid) (work : List (Nat × Rid)) (v : Version)
      (hw : s.vacuum = some (.cleaning ((f, rid) :: work))) (hv : s.mem.get f rid = some v)
      (hcr : s.tm.committed.isCommitted v.creator = true) (hd : v.deleter = 0) :
      DbStep s .vacuumOne { s with vacuum := some (.cleaning work) }
  | vacuumHorizon (hw : s.vacuum = some (.cleaning [])) :
      DbStep s .vacuumHorizon
        { s with tm := s.tm.advanceHorizon s.tm.nextId, vacuum := some .saving }
  | vacuumSave (hw : s.vacuum = some .saving) :
      DbStep s .vacuumSave { s with saved := s.catalogNow, vacuum := none }
  | crash (s' : Db) (h : s.reopen = some s') : DbStep s .crash s'

theorem vacuumOne_cases {work : List (Nat × Rid)}
    (hw : s.vacuum = some (.cleaning ((f, rid) :: work))) (h : s.step .vacuumOne = some s') :
    DbStep s .vacuumOne s' := by
  simp only [step, hw] at h
  cases hv : s.mem.get f rid with
  | none => simp only [Db.vacuumOne, hv, reduceCtorEq] at h
  | some v =>
    simp only [Db.vacuumOne, hv, Bool.or_eq_true, Bool.not_eq_true', Bool.and_eq_true,
      decide_eq_true_eq] at h
    by_cases hdead : s.tm.committed.isCommitted v.creator = false ∨
        v.deleter ≠ 0 ∧ s.tm.committed.isCommitted v.deleter = true
    · rw [if_pos hdead] at h
      simp only [Heap.delete, hv] at h
      cases h
      exact .vacuumDelete f rid work v hw hv hdead
    · rw [if_neg hdead] at h
      have hcr : s.tm.committed.isCommitted v.creator = true :=
        Bool.not_eq_false _ ▸ fun hc => hdead (.inl hc)
      by_cases hd : v.deleter = 0
      · simp only [hd, ne_eq, not_true_eq_false, false_and, if_false] at h
        cases h
        exact .vacuumKeep f rid work v hw hv hcr hd
      have hnc : s.tm.committed.isCommitted v.deleter = false :=
        Bool.not_eq_true _ ▸ fun hc => hdead (.inr ⟨hd, hc⟩)
      simp only [hd, ne_eq, not_false_eq_true, hnc, Bool.false_eq_true, and_self, if_true,
        Heap.deleteMark, hv, some.injEq] at h
      rw [← h]
      exact .vacuumUnmark f rid work v hw hv hcr hnc

theorem mem_of_trx (s : Db) {id : Nat} (h : s.trx id = some x) : x ∈ s.trxs ∧ x.id = id :=
  mem_of_find_key h

/-- VACUUM and DDL run alone, on behalf of a transaction that wrote nothing. -/
theorem exclusive_cases (s : Db) {id : Nat} (h : s.exclusive id = true) :
    ∃ x, (s.trxs = [x] ∧ x.phase = .running ∧ x.undo = [] ∧ x.pending = none) ∧ x.id = id ∧
      ∀ i ∈ s.tm.openSet, i = id := by
  unfold exclusive at h
  split at h
  · cases h
  · next x hx =>
    simp only [Bool.and_eq_true, decide_eq_true_eq, Bool.not_eq_true',
      TransactionManager.hasOpenExcluding, List.any_eq_false, decide_not] at h
    exact ⟨x, h.1, (mem_of_trx s hx).2,
      fun i hi => of_decide_eq_true (Bool.not_eq_false _ ▸ h.2 i hi)⟩

/-- A step is one of the listed cases. -/
theorem step_cases {l : Label} (h : s.step l = some s') : DbStep s l s' := by
  cases l with
  | begin =>
    simp only [step, ite_some_none_eq_some] at h
    obtain ⟨hv, rfl⟩ := h
    exact .begin hv
  | trx id a =>
    simp only [step] at h
    split at h
    · next x hv hx =>
      obtain ⟨hmem, rfl⟩ := mem_of_trx s hx
      exact .trx x a s' hv hmem (trxStep_cases h)
    · cases h
  | writeBack f p =>
    cases h
    exact .writeBack f p
  | checkpointBegin =>
    simp only [step, ite_some_none_eq_some] at h
    obtain ⟨hv, rfl⟩ := h
    exact .checkpointBegin hv.1
  | checkpointSave =>
    simp only [step] at h
    split at h
    · next c hv hc =>
      rw [ite_none_left_eq_some] at h
      cases h.2
      exact .checkpointSave c hv hc
    · cases h
  | checkpointEnd exclude =>
    simp only [step] at h
    split at h
    · next c hv hc =>
      obtain ⟨hsaved, h⟩ := ite_none_right_eq_some.mp h
      split at h
      · next hg =>
        cases h
        exact .truncate exclude c hv hc hsaved hg.1 hg.2
      · cases h
        exact .keepLog exclude hv
    · cases h
  | createTable | dropTable | otherDdl | vacuumBegin =>
    simp only [step, ite_some_none_eq_some] at h
    obtain ⟨⟨hv, he⟩, rfl⟩ := h
    constructor
    · exact hv
    · exact he
  | vacuumOne =>
    cases hw : s.vacuum with
    | none => simp only [step, hw, reduceCtorEq] at h
    | some w =>
      cases w with
      | saving => simp only [step, hw, reduceCtorEq] at h
      | cleaning work =>
        cases work with
        | nil => simp only [step, hw, reduceCtorEq] at h
        | cons => exact vacuumOne_cases hw h
  | vacuumHorizon | vacuumSave =>
    simp only [step] at h
    split at h
    · next hw =>
      cases h
      constructor
      exact hw
    · cases h
  | crash => exact .crash s' h

/-- What opening the database again makes of what a crash left behind. -/
structure Reopened (s s' : Db) : Prop where
  inlineLimit : s'.inlineLimit = s.inlineLimit
  tm : s'.tm = s.recoveredTm
  mem : redo s.inlineLimit s.saved.tables (redoRecords s.log) s.disk = some s'.mem
  disk : s'.disk = s.disk
  log : s'.log = s.log
  saved : s'.saved = s.saved ∨ s'.saved = s'.catalogNow
  tables : s'.tables = s.saved.tables
  trxs : s'.trxs = []
  vacuum : s'.vacuum = none
  ever : s'.ever = s.ever

/-- A reopen that succeeds has replayed the log over the disk. -/
theorem reopened_of_reopen (h : s.reopen = some s') : Reopened s s' := by
  unfold reopen at h
  cases hmem : redo s.inlineLimit s.saved.tables (redoRecords s.log) s.disk with
  | none =>
    rw [hmem] at h
    cases h
  | some =>
    rw [hmem] at h
    simp only [some.injEq] at h
    by_cases hr : s.committedRepaired = true
    · rw [if_pos hr] at h
      rw [← h]
      exact ⟨rfl, rfl, hmem, rfl, rfl, .inr rfl, rfl, rfl, rfl, rfl⟩
    · rw [if_neg hr] at h
      rw [← h]
      exact ⟨rfl, rfl, hmem, rfl, rfl, .inl rfl, rfl, rfl, rfl, rfl⟩

theorem layoutOf_isSome_iff {tables : List Table} :
    (layoutOf tables f).isSome = true ↔ ∃ t ∈ tables, t.fileNo = f := by
  rw [layoutOf, isSome_map, find?_isSome]
  simp only [decide_eq_true_eq]

/-- A VACUUM starts with every record of every table on its list. -/
theorem mem_allRecords {v : Version} (hf : (layoutOf s.tables f).isSome = true)
    (hv : s.mem.get f rid = some v) :
    (f, rid) ∈ s.allRecords := by
  rcases layoutOf_isSome_iff.mp hf with ⟨t, ht, rfl⟩
  refine mem_flatMap.mpr ⟨t, ht, mem_map.mpr ⟨rid, ?_, rfl⟩⟩
  rw [Heap.mem_scan_iff, hv]
  rfl

/-- VACUUM has moved on past the record at `rid` of file `f`. Its slot `o` is
empty only if the version was dead, and bears no mark otherwise. -/
structure Cleaned (s s' : Db) (f : Nat) (rid : Rid) (work : List (Nat × Rid)) (v : Version)
    (o : Option Version) : Prop where
  todo : s.vacuum = some (.cleaning ((f, rid) :: work))
  left : s'.vacuum = some (.cleaning work)
  tm : s'.tm = s.tm
  trxs : s'.trxs = s.trxs
  slot : s.mem.get f rid = some v
  get : ∀ g r, s'.mem.get g r = if g = f ∧ r = rid then o else s.mem.get g r
  dead : o = none → s.tm.committed.isCommitted v.creator = false ∨
    (v.deleter ≠ 0 ∧ s.tm.committed.isCommitted v.deleter = true)
  kept : ∀ w, o = some w → w.creator = v.creator ∧
    s.tm.committed.isCommitted v.creator = true ∧ w.deleter = 0

/-- One vacuum step cleans the slot at the head of its work list. -/
theorem cleaned_of_step (hstep : s.step .vacuumOne = some s') :
    ∃ f rid work v o, Cleaned s s' f rid work v o := by
  cases step_cases hstep with
  | vacuumDelete f rid work v hw hv hdead =>
    exact ⟨f, rid, work, v, none, hw, rfl, rfl, rfl, hv,
      fun _ _ => Heap.get_setSlot _ _ _ _ _ _, fun _ => hdead, nofun⟩
  | vacuumUnmark f rid work v hw hv hcr =>
    refine ⟨f, rid, work, v, _, hw, rfl, rfl, rfl, hv,
      fun _ _ => Heap.get_setSlot _ _ _ _ _ _, nofun, ?_⟩
    intro _ hw
    cases hw
    exact ⟨rfl, hcr, rfl⟩
  | vacuumKeep f rid work v hw hv hcr hd =>
    refine ⟨f, rid, work, v, some v, hw, rfl, rfl, rfl, hv, ?_, nofun, ?_⟩
    · intro _ _
      split
      · next he => rw [he.1, he.2, hv]
      · rfl
    · intro _ hw
      cases hw
      exact ⟨rfl, hcr, hd⟩

/-- A version found afterwards is an old one elsewhere, or the one left clean. -/
theorem Cleaned.origin {work : List (Nat × Rid)} {v w : Version} {o : Option Version} {g : Nat}
    {r : Rid} (hc : Cleaned s s' f rid work v o) (hg : s'.mem.get g r = some w) :
    (s.mem.get g r = some w ∧ (g, r) ≠ (f, rid)) ∨
    (s.mem.get g r = some v ∧ w.creator = v.creator ∧
      s.tm.committed.isCommitted v.creator = true ∧ w.deleter = 0) := by
  rw [hc.get] at hg
  split at hg
  · next he => exact .inr ⟨by rw [he.1, he.2, hc.slot], hc.kept w hg⟩
  · next hne => exact .inl ⟨hg, fun he => hne (Prod.mk.inj he)⟩

theorem mem_putTrx (s : Db) (h : y ∈ (s.putTrx x).trxs) : y = x ∨ (y ∈ s.trxs ∧ y.id ≠ x.id) :=
  mem_map_put h

theorem mem_dropTrx (s : Db) (id : Nat) (y : Trx) :
    y ∈ (s.dropTrx id).trxs ↔ y ∈ s.trxs ∧ y.id ≠ id := by
  simp [dropTrx]

theorem map_id_putTrx (s : Db) (x : Trx) :
    (s.putTrx x).trxs.map (fun y => y.id) = s.trxs.map (fun y => y.id) :=
  map_map_put

end ChibiDb.Db
