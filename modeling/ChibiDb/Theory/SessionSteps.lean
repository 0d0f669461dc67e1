import ChibiDb.Core.Sessions
import ChibiDb.Data.Transition

/-!
# What a Step of the Sessions Does

`Sessions.step` is a function with guards and lookups. This file says once, as
an inductive relation, what each enabled step needs and what it leads to, with
the undo of a write reduced to the one slot it changes.

## Main definitions

* `SessionStep`: The steps of one transaction.
* `SessionsStep`: The steps of the system.
* `Statement.claims`: The versions a statement may still write.

## Theorems

* `act_cases`: A step of a transaction is a `SessionStep`.
* `step_cases`: A step of the system is a `SessionsStep`.
* `mem_putTrx`, `mem_dropTrx`: The transactions after a step.
-/

namespace ChibiDb

open List Option

/-- The versions a statement picked and has not written yet. -/
def Statement.claims (st : Statement) : List Rid :=
  st.targets ++ st.plan.map (fun e => e.1) ++ (st.check.bind (fun c => c.exclude)).toList

namespace Sessions

/-- What a step of a transaction needs and what it leads to. -/
inductive SessionStep (s : Sessions) (x : TrxState) : SessionAction → Sessions → Prop where
  | ssiBegin (hst : x.stage = .running) (hreg : x.registered = false) :
      SessionStep s x .ssiBegin
        ((s.onSsi (fun g => g.begin x.id)).putTrx { x with registered := true })
  | loadNextId (hst : x.stage = .running) (hreg : x.registered = true) (hstmt : x.stmt = none)
      (honce : s.isolation = .readCommitted ∨ x.snapshot = none) :
      SessionStep s x .loadNextId (s.putTrx { x with xmax := some s.tm.nextId })
  | readOpen (n : Nat) (hx : x.xmax = some n) (hst : x.stage = .running) (hstmt : x.stmt = none) :
      SessionStep s x .readOpen (s.putTrx { x with
        xmax := none, snapshot := some ⟨n, s.tm.xip⟩, start := s.finished.length })
  | startStatement (f : Nat) (hst : x.stage = .running) (hstmt : x.stmt = none)
      (hx : x.xmax = none) (hsnap : x.snapshot ≠ none) :
      SessionStep s x (.startStatement f)
        (s.putTrx { x with stmt := some (.start f x.undo.length) })
  | noteRead (f : Nat) (hst : x.stage = .running) (hstmt : x.stmt ≠ none) :
      SessionStep s x (.noteRead f)
        ((s.onSsi (fun g => g.noteRead x.id f)).putTrx { x with
          readTables := x.readTables.insert f })
  | look (f : Nat) (rid : Rid) (st : Statement) (reads : List Read) (hstmt : x.stmt = some st)
      (hst : x.stage = .running) (hf : f ∈ x.readTables)
      (hreads : reads =
        if (s.heap.get f rid).any (fun v => v.creator = x.id ∨ v.deleter = x.id) then x.reads
        else ⟨f, rid, ((s.heap.get f rid).filter (fun v => x.visible s.tm.committed v)).map
          (fun v => v.row)⟩ :: x.reads) :
      SessionStep s x (.scan f rid false) (s.putTrx { x with reads := reads })
  | pick (rid : Rid) (st : Statement) (v : Version) (reads : List Read) (hstmt : x.stmt = some st)
      (hst : x.stage = .running) (hf : st.table ∈ x.readTables)
      (hv : s.heap.get st.table rid = some v) (hvis : x.visible s.tm.committed v = true)
      (hnew : rid ∉ st.targets) (hwr : st.writing = false) (hchk : st.check = none)
      (hplan : st.plan = [])
      (hreads : reads = if v.creator = x.id ∨ v.deleter = x.id then x.reads
        else ⟨st.table, rid, some v.row⟩ :: x.reads) :
      SessionStep s x (.scan st.table rid true) (s.putTrx { x with
        reads := reads, stmt := some { st with targets := rid :: st.targets } })
  | beginCheck (row : Row) (exclude : Option Rid) (st : Statement) (hstmt : x.stmt = some st)
      (hst : x.stage = .running) (hchk : st.check = none) (hready : st.ready = none)
      (hp : x.pending = none) (hidx : x.indexing = [])
      (hex : ∀ rid ∈ exclude, rid ∈ st.targets ∧ st.writing = false)
      (hchecks : s.uniqueIndexesFor st.table = []) :
      SessionStep s x (.beginCheck row exclude) (s.putTrx { x with
        stmt := some { st with
          targets := st.targets.filter (fun r => exclude ≠ some r)
          check := some ⟨row, exclude, [], .idle⟩ } })
  | beginCheckNote (row : Row) (exclude : Option Rid) (st : Statement) (hstmt : x.stmt = some st)
      (hst : x.stage = .running) (hchk : st.check = none) (hready : st.ready = none)
      (hp : x.pending = none) (hidx : x.indexing = [])
      (hex : ∀ rid ∈ exclude, rid ∈ st.targets ∧ st.writing = false)
      (hchecks : s.uniqueIndexesFor st.table ≠ []) :
      SessionStep s x (.beginCheck row exclude)
        ((s.onSsi (fun g => g.noteRead x.id st.table)).putTrx { x with
          readTables := x.readTables.insert st.table
          stmt := some { st with
            targets := st.targets.filter (fun r => exclude ≠ some r)
            check := some ⟨row, exclude,
              (s.uniqueIndexesFor st.table).filter (fun ix => keyIn ix row ≠ .null), .idle⟩ } })
  | claimKey (st : Statement) (row : Row) (exclude : Option Rid) (ix : IndexMeta)
      (todo : List IndexMeta) (hstmt : x.stmt = some st)
      (hchk : st.check = some ⟨row, exclude, ix :: todo, .idle⟩) (hst : x.stage = .running)
      (hnew : (ix.col, keyIn ix row) ∉ st.claimed)
      (hfree : s.lockFree x.id (.unique ix.file (keyIn ix row)) = true) :
      SessionStep s x .claimKey
        ((s.lock x.id (.unique ix.file (keyIn ix row))).putTrx { x with
          stmt := some { st with
            claimed := (ix.col, keyIn ix row) :: st.claimed
            check := some ⟨row, exclude, ix :: todo, .locked⟩ } })
  | search (st : Statement) (row : Row) (exclude : Option Rid) (ix : IndexMeta)
      (todo : List IndexMeta) (hstmt : x.stmt = some st)
      (hchk : st.check = some ⟨row, exclude, ix :: todo, .locked⟩) (hst : x.stage = .running) :
      SessionStep s x .search (s.putTrx { x with
        stmt := some { st with
          check := some ⟨row, exclude, ix :: todo,
            .found (s.searchIndex ix.file (keyIn ix row))⟩ } })
  | examine (st : Statement) (row : Row) (exclude : Option Rid) (todo : List IndexMeta)
      (rid : Rid) (rids : List Rid) (hstmt : x.stmt = some st)
      (hchk : st.check = some ⟨row, exclude, todo, .found (rid :: rids)⟩)
      (hst : x.stage = .running) (hpass : s.passesOver x.id st.table exclude rid = true) :
      SessionStep s x .examine (s.putTrx { x with
        stmt := some { st with check := some ⟨row, exclude, todo, .found rids⟩ } })
  | nextIndex (st : Statement) (row : Row) (exclude : Option Rid) (ix : IndexMeta)
      (todo : List IndexMeta) (hstmt : x.stmt = some st)
      (hchk : st.check = some ⟨row, exclude, ix :: todo, .found []⟩) (hst : x.stage = .running) :
      SessionStep s x .nextIndex (s.putTrx { x with
        stmt := some { st with check := some ⟨row, exclude, todo, .idle⟩ } })
  | endCheckUpdate (st : Statement) (row : Row) (rid : Rid) (hstmt : x.stmt = some st)
      (hchk : st.check = some ⟨row, some rid, [], .idle⟩) (hst : x.stage = .running) :
      SessionStep s x .endCheck (s.putTrx { x with
        stmt := some { st with check := none, plan := (rid, row) :: st.plan } })
  | endCheckInsert (st : Statement) (row : Row) (hstmt : x.stmt = some st)
      (hchk : st.check = some ⟨row, none, [], .idle⟩) (hst : x.stage = .running) :
      SessionStep s x .endCheck (s.putTrx { x with
        stmt := some { st with check := none, ready := some row } })
  | noteWrite (st : Statement) (hstmt : x.stmt = some st) (hst : x.stage = .running)
      (hchk : st.check = none) :
      SessionStep s x .noteWrite
        ((s.onSsi (fun g => g.noteWrite x.id st.table)).putTrx { x with
          wroteTables := x.wroteTables.insert st.table
          stmt := some { st with writing := true } })
  | storeInsert (rid : Rid) (st : Statement) (row : Row) (hstmt : x.stmt = some st)
      (hready : st.ready = some row) (hst : x.stage = .running) (hwr : st.writing = true)
      (hp : x.pending = none) (hidx : x.indexing = [])
      (hfree : s.heap.get st.table rid = none) :
      SessionStep s x (.storeInsert rid)
        { s.putTrx { x with
            undo := .insert st.table rid row :: x.undo
            indexing := s.entriesOf st.table row rid
            stmt := some { st with ready := none } } with
          heap := s.heap.setSlot st.table rid (some ⟨x.id, 0, 0, row⟩) }
  | indexInsert (e : IndexEntry) (rest : List IndexEntry) (hidx : x.indexing = e :: rest)
      (hst : x.stage = .running) :
      SessionStep s x .indexInsert
        { s.putTrx { x with indexing := rest } with index := e :: s.index }
  | lockRow (rid : Rid) (st : Statement) (hstmt : x.stmt = some st) (hst : x.stage = .running)
      (hwr : st.writing = true)
      (hrid : rid ∈ st.targets ∨ rid ∈ st.plan.map (fun e => e.1))
      (hfree : s.lockFree x.id (.row st.table rid) = true) :
      SessionStep s x (.lockRow rid) (s.lock x.id (.row st.table rid))
  | storeDeleteMark (rid : Rid) (st : Statement) (v : Version) (hstmt : x.stmt = some st)
      (hv : s.heap.get st.table rid = some v) (hst : x.stage = .running)
      (hwr : st.writing = true) (hp : x.pending = none) (hidx : x.indexing = [])
      (hrid : rid ∈ st.targets) (hlock : (.row st.table rid, x.id) ∈ s.locks)
      (hnoconf : s.isolation = .readCommitted → s.rowWasConcurrentlyModified x v = false) :
      SessionStep s x (.storeDeleteMark rid)
        { s.putTrx { x with
            undo := .deleteMark st.table rid v.deleter v.nextRid :: x.undo
            stmt := some { st with targets := st.targets.filter (fun r => r ≠ rid) } } with
          heap := s.heap.setSlot st.table rid (some { v with deleter := x.id, nextRid := 0 }) }
  | storeVersion (rid : Rid) (row : Row) (new : Rid) (st : Statement) (v : Version)
      (hstmt : x.stmt = some st) (hv : s.heap.get st.table rid = some v)
      (hst : x.stage = .running) (hwr : st.writing = true) (hp : x.pending = none)
      (hidx : x.indexing = []) (hplan : (rid, row) ∈ st.plan)
      (hlock : (.row st.table rid, x.id) ∈ s.locks)
      (hnoconf : s.isolation = .readCommitted → s.rowWasConcurrentlyModified x v = false)
      (hfree : s.heap.get st.table new = none) :
      SessionStep s x (.storeVersion rid row new)
        { s.putTrx { x with
            pending := some ⟨st.table, rid, new, row⟩
            stmt := some { st with plan := st.plan.filter (fun e => e.1 ≠ rid) } } with
          heap := s.heap.setSlot st.table new (some ⟨x.id, 0, 0, row⟩) }
  | linkVersion (p : PendingUpdate) (v : Version) (hp : x.pending = some p)
      (hv : s.heap.get p.fileNo p.oldRid = some v) (hst : x.stage = .running) :
      SessionStep s x .linkVersion
        { s.putTrx { x with
            pending := none
            undo := .update p.fileNo p.oldRid p.newRid p.newRow v.deleter v.nextRid :: x.undo
            indexing := s.entriesOf p.fileNo p.newRow p.newRid } with
          heap := s.heap.setSlot p.fileNo p.oldRid
            (some { v with deleter := x.id, nextRid := packRid p.newRid }) }
  | endStatement (st : Statement) (hstmt : x.stmt = some st) (hst : x.stage = .running)
      (hp : x.pending = none) (hidx : x.indexing = []) (hchk : st.check = none)
      (hready : st.ready = none) (hplan : st.plan = []) :
      SessionStep s x .endStatement (s.putTrx { x with stmt := none })
  | failStatement (retry : Bool) (hst : x.stage = .running) (hstmt : x.stmt ≠ none)
      (hp : x.pending = none) (hidx : x.indexing = [])
      (hretry : retry = true → s.isolation = .readCommitted) :
      SessionStep s x (.failStatement retry) (s.putTrx { x with stage := .undoing retry })
  | undoInsert (f : Nat) (rid : Rid) (row : Row) (rest : List Undo) (v : Version)
      (hun : x.unindexing = []) (hable : x.undoable = true)
      (hu : x.undo = .insert f rid row :: rest) (hv : s.heap.get f rid = some v) :
      SessionStep s x .undoOne
        { s.putTrx { x with undo := rest, unindexing := s.entriesOf f row rid } with
          heap := s.heap.setSlot f rid none }
  | undoMark (f : Nat) (rid : Rid) (d n : Nat) (rest : List Undo) (v : Version)
      (hun : x.unindexing = []) (hable : x.undoable = true)
      (hu : x.undo = .deleteMark f rid d n :: rest) (hv : s.heap.get f rid = some v) :
      SessionStep s x .undoOne
        { s.putTrx { x with undo := rest, unindexing := [] } with
          heap := s.heap.setSlot f rid (some { v with deleter := d, nextRid := n }) }
  | undoUpdate (f : Nat) (old new : Rid) (row : Row) (d n : Nat) (rest : List Undo) (v : Version)
      (hun : x.unindexing = []) (hable : x.undoable = true)
      (hu : x.undo = .update f old new row d n :: rest) (hv : s.heap.get f new = some v) :
      SessionStep s x .undoOne
        { s.putTrx { x with
            undo := .deleteMark f old d n :: rest, unindexing := s.entriesOf f row new } with
          heap := s.heap.setSlot f new none }
  | unindex (e : IndexEntry) (rest : List IndexEntry) (hun : x.unindexing = e :: rest)
      (he : e ∈ s.index) :
      SessionStep s x .unindex
        { s.putTrx { x with unindexing := rest } with index := s.index.erase e }
  | endUndo (st : Statement) (retry : Bool) (hstmt : x.stmt = some st)
      (hst : x.stage = .undoing retry) (hlen : x.undo.length ≤ st.undoMark)
      (hun : x.unindexing = []) :
      SessionStep s x .endUndo
        { s.putTrx { x with stage := .running, stmt := none } with
          locks := if retry = false ∧ st.undoMark = 0 then s.locksWithout x.id else s.locks }
  | rollback (hst : (x.stage = .running ∧ x.stmt = none) ∨ x.stage = .validated ∨
      x.stage = .checked) :
      SessionStep s x .rollback (s.putTrx { x with stage := .aborting })
  | removeOpen (hst : x.stage = .aborting ∨ x.stage = .ended) (hcl : x.closed = false) :
      SessionStep s x .removeOpen
        { s.putTrx { x with closed := true } with tm := s.tm.removeOpen x.id }
  | ssiAbort (hst : x.stage = .aborting ∨ x.stage = .ended) (hcl : x.closed = true)
      (hreg : x.registered = true) :
      SessionStep s x .ssiAbort
        ((s.onSsi (fun g => g.abort x.id)).putTrx { x with registered := false })
  | finishUndo (hst : x.stage = .aborting) (hu : x.undo = []) (hun : x.unindexing = []) :
      SessionStep s x .finishUndo
        { s.putTrx { x with stage := .ended } with locks := s.locksWithout x.id }
  | dropAborted (hst : x.stage = .ended) (hcl : x.closed = true) (hreg : x.registered = false) :
      SessionStep s x .dropAborted (s.dropTrx x.id)
  | ssiCheck (hst : x.stage = .running) (hstmt : x.stmt = none) (hsnap : x.snapshot ≠ none)
      (hno : s.isolation = .serializable → s.ssi.hasCycleThrough x.id = false) :
      SessionStep s x .ssiCheck (s.putTrx { x with stage := .validated })
  | checkConflicts (hst : x.stage = .validated)
      (hpass : s.isolation = .readCommitted ∨ ∀ u ∈ x.undo, s.entryPasses x u = true) :
      SessionStep s x .checkConflicts (s.putTrx { x with stage := .checked })
  | markCommitted (hst : x.stage = .checked) :
      SessionStep s x .markCommitted
        { s.putTrx { x with stage := .committed } with
          tm := s.tm.markCommitted x.id
          kills := x.marks.map (fun e => (e, x.id)) ++ s.kills
          done := x :: s.done }
  | closeCommitted (hst : x.stage = .committed) (hcl : x.closed = false) :
      SessionStep s x .closeCommitted
        { s.putTrx { x with closed := true } with
          tm := s.tm.removeOpen x.id
          finished := s.finished ++ [x.id] }
  | ssiCommit (hst : x.stage = .committed) (hcl : x.closed = true) (hreg : x.registered = true) :
      SessionStep s x .ssiCommit
        ((s.onSsi (fun g => g.commit x.id)).putTrx { x with registered := false })
  | dropCommitted (hst : x.stage = .committed) (hcl : x.closed = true)
      (hreg : x.registered = false) :
      SessionStep s x .dropCommitted
        { s.dropTrx x.id with locks := s.locksWithout x.id }

variable {s s' : Sessions} {x y : TrxState}

theorem scan_cases {f : Nat} {rid : Rid} {pick : Bool} (h : s.act x (.scan f rid pick) = some s') :
    SessionStep s x (.scan f rid pick) s' := by
  simp only [act] at h
  split at h
  · cases h
  · next st hstmt =>
    simp only [hstmt, ite_none_right_eq_some] at h
    rcases h with ⟨⟨hst, hf⟩, h⟩
    cases pick with
    | false =>
      simp only [Bool.false_eq_true, if_false, some.injEq] at h
      rw [← h, ← hstmt]
      exact .look f rid st _ hstmt hst hf rfl
    | true =>
      simp only [if_true, ite_some_none_eq_some, Bool.not_eq_true] at h
      rcases h with ⟨⟨rfl, hrow, hnew, hwr, hchk, hplan⟩, rfl⟩
      cases hv : s.heap.get st.table rid with
      | none =>
        simp [hv] at hrow
      | some v =>
        have hvis : x.visible s.tm.committed v = true := by
          by_contra hno
          rw [hv, filter_some, if_neg hno] at hrow
          simp at hrow
        simp only [filter_some, hvis, if_true, map_some, any_some, decide_eq_true_eq]
        exact .pick rid st v _ hstmt hst hf hv hvis hnew hwr hchk hplan rfl

/-- Which undo entry is on top decides which slot is written. -/
theorem undo_cases (h : s.act x .undoOne = some s') : SessionStep s x .undoOne s' := by
  rcases ite_none_right_eq_some.mp h with ⟨⟨hun, hable⟩, h⟩
  split at h
  · cases h
  · next u rest hu =>
    split at h
    · cases h
    · next hw =>
      cases h
      cases u with
      | insert f rid row =>
        rcases Db.undoWrite_eq_some hw with ⟨rfl, v, hv, rfl⟩
        exact .undoInsert f rid row rest v hun hable hu hv
      | deleteMark f rid d n =>
        rcases Db.undoWrite_eq_some hw with ⟨rfl, v, hv, rfl⟩
        exact .undoMark f rid d n rest v hun hable hu hv
      | update f old new row d n =>
        rcases Db.undoWrite_eq_some hw with ⟨rfl, v, hv, rfl⟩
        exact .undoUpdate f old new row d n rest v hun hable hu hv

/-- The guards of `act`, read off branch by branch. -/
theorem act_cases {a : SessionAction} (h : s.act x a = some s') : SessionStep s x a s' := by
  cases a with
  | rollback | markCommitted =>
    rcases ite_some_none_eq_some.mp h with ⟨_, rfl⟩
    constructor
    assumption
  | ssiBegin | noteRead | removeOpen | closeCommitted =>
    simp only [act, ite_some_none_eq_some, Bool.not_eq_true] at h
    rcases h with ⟨⟨_, _⟩, rfl⟩
    constructor <;> assumption
  | ssiAbort | finishUndo | dropAborted | ssiCommit | dropCommitted =>
    simp only [act, ite_some_none_eq_some, Bool.not_eq_true] at h
    rcases h with ⟨⟨_, _, _⟩, rfl⟩
    constructor <;> assumption
  | loadNextId | startStatement =>
    rcases ite_some_none_eq_some.mp h with ⟨⟨_, _, _, _⟩, rfl⟩
    constructor <;> assumption
  | readOpen =>
    simp only [act] at h
    split at h
    · cases h
    · rcases ite_some_none_eq_some.mp h with ⟨⟨_, _⟩, rfl⟩
      constructor <;> assumption
  | scan => exact scan_cases h
  | beginCheck row exclude =>
    simp only [act] at h
    split at h
    · cases h
    · next st hstmt =>
      simp only [ite_none_right_eq_some, Bool.not_eq_true] at h
      rcases h with ⟨⟨hst, hchk, hready, hp, hidx, hex⟩, h⟩
      by_cases hchecks : s.uniqueIndexesFor st.table = []
      · rw [if_pos hchecks, some.injEq] at h
        rw [← h, hchecks, filter_nil]
        exact .beginCheck row exclude st hstmt hst hchk hready hp hidx hex hchecks
      · cases (if_neg hchecks).symm.trans h
        exact .beginCheckNote row exclude st hstmt hst hchk hready hp hidx hex hchecks
  | claimKey =>
    simp only [act] at h
    split at h
    · split at h
      · rcases ite_some_none_eq_some.mp h with ⟨⟨_, _, _⟩, rfl⟩
        constructor <;> assumption
      · simp at h
    · simp at h
  | search | nextIndex =>
    simp only [act] at h
    split at h
    · split at h
      · rcases ite_some_none_eq_some.mp h with ⟨_, rfl⟩
        constructor <;> assumption
      · simp at h
    · simp at h
  | examine =>
    simp only [act] at h
    split at h
    · split at h
      · rcases ite_some_none_eq_some.mp h with ⟨⟨_, _⟩, rfl⟩
        constructor <;> assumption
      · simp at h
    · simp at h
  | endCheck =>
    simp only [act] at h
    split at h
    · split at h
      · rcases ite_some_none_eq_some.mp h with ⟨_, rfl⟩
        apply SessionStep.endCheckUpdate <;> assumption
      · rcases ite_some_none_eq_some.mp h with ⟨_, rfl⟩
        apply SessionStep.endCheckInsert <;> assumption
      · simp at h
    · simp at h
  | noteWrite =>
    simp only [act] at h
    split at h
    · cases h
    · rcases ite_some_none_eq_some.mp h with ⟨⟨_, _⟩, rfl⟩
      constructor <;> assumption
  | storeInsert rid =>
    simp only [act] at h
    split at h
    · cases h
    · split at h
      · cases h
      · rcases ite_some_none_eq_some.mp h with ⟨⟨_, _, _, _, _⟩, rfl⟩
        constructor <;> assumption
  | indexInsert =>
    simp only [act] at h
    cases hidx : x.indexing with
    | nil => simp only [hidx, reduceCtorEq] at h
    | cons e rest =>
      simp only [hidx, ite_some_none_eq_some] at h
      rcases h with ⟨_, rfl⟩
      constructor <;> assumption
  | lockRow rid =>
    simp only [act] at h
    split at h
    · cases h
    · rcases ite_some_none_eq_some.mp h with ⟨⟨_, _, _, _⟩, rfl⟩
      constructor <;> assumption
  | storeDeleteMark rid =>
    simp only [act] at h
    split at h
    · cases h
    · split at h
      · cases h
      · simp only [ite_some_none_eq_some, not_and, Bool.not_eq_true] at h
        rcases h with ⟨⟨_, _, _, _, _, _, _⟩, rfl⟩
        constructor <;> assumption
  | storeVersion rid row new =>
    simp only [act] at h
    split at h
    · cases h
    · split at h
      · cases h
      · simp only [ite_some_none_eq_some, not_and, Bool.not_eq_true] at h
        rcases h with ⟨⟨_, _, _, _, _, _, _, _⟩, rfl⟩
        constructor <;> assumption
  | linkVersion =>
    simp only [act] at h
    split at h
    · cases h
    · split at h
      · cases h
      · rcases ite_some_none_eq_some.mp h with ⟨_, rfl⟩
        constructor <;> assumption
  | endStatement =>
    simp only [act] at h
    split at h
    · cases h
    · rcases ite_some_none_eq_some.mp h with ⟨⟨_, _, _, _, _, _⟩, rfl⟩
      constructor <;> assumption
  | failStatement =>
    rcases ite_some_none_eq_some.mp h with ⟨⟨_, _, _, _, _⟩, rfl⟩
    constructor <;> assumption
  | undoOne => exact undo_cases h
  | unindex =>
    simp only [act] at h
    cases hun : x.unindexing with
    | nil => simp only [hun, reduceCtorEq] at h
    | cons e rest =>
      simp only [hun, ite_some_none_eq_some] at h
      rcases h with ⟨_, rfl⟩
      constructor <;> assumption
  | endUndo =>
    simp only [act] at h
    split at h
    · rcases ite_some_none_eq_some.mp h with ⟨⟨_, _⟩, rfl⟩
      constructor <;> assumption
    · simp at h
  | ssiCheck =>
    simp only [act, ite_some_none_eq_some, not_and, Bool.not_eq_true] at h
    rcases h with ⟨⟨_, _, _, _⟩, rfl⟩
    constructor <;> assumption
  | checkConflicts =>
    simp only [act, ite_none_right_eq_some, some.injEq, List.all_eq_true] at h
    rcases h with ⟨⟨_, _⟩, rfl⟩
    constructor <;> assumption

/-- Every step of the sessions. -/
inductive SessionsStep (s : Sessions) : SessionLabel → Sessions → Prop where
  | begin : SessionsStep s .begin
      { s with tm := s.tm.beginOpen.2, trxs := TrxState.fresh s.tm.nextId :: s.trxs }
  | act (x : TrxState) (a : SessionAction) (s' : Sessions) (hx : x ∈ s.trxs)
      (h : SessionStep s x a s') : SessionsStep s (.act x.id a) s'

theorem mem_of_trx {id : Nat} (h : s.trx id = some x) : x ∈ s.trxs ∧ x.id = id :=
  mem_of_find_key h

/-- A step is one of the listed cases. -/
theorem step_cases {l : SessionLabel} (h : s.step l = some s') : SessionsStep s l s' := by
  cases l with
  | begin =>
    cases h
    exact .begin
  | act id a =>
    simp only [step] at h
    cases hx : s.trx id with
    | none => simp only [hx, reduceCtorEq] at h
    | some x =>
      rw [hx] at h
      rcases mem_of_trx hx with ⟨hmem, rfl⟩
      exact .act x a s' hmem (act_cases h)

theorem mem_putTrx (s : Sessions) : y ∈ (s.putTrx x).trxs → y = x ∨ (y ∈ s.trxs ∧ y.id ≠ x.id) :=
  mem_map_put

theorem mem_putTrx_self (s : Sessions) (hx : x ∈ s.trxs) (hid : y.id = x.id) :
    y ∈ (s.putTrx y).trxs :=
  mem_map.mpr ⟨x, hx, if_pos hid.symm⟩

theorem mem_putTrx_of_ne (s : Sessions) {z : TrxState} (hz : z ∈ s.trxs) (hid : z.id ≠ y.id) :
    z ∈ (s.putTrx y).trxs :=
  mem_map.mpr ⟨z, hz, if_neg hid⟩

/-- Putting back what is there changes nothing. -/
theorem putTrx_self (hx : ∀ y ∈ s.trxs, y.id = x.id → y = x) : (s.putTrx x).trxs = s.trxs := by
  simp only [putTrx]
  rw [map_congr_left (g := id), List.map_id]
  intro y hy
  by_cases hid : y.id = x.id
  · rw [if_pos hid, hx y hy hid, id_eq]
  · rw [if_neg hid, id_eq]

theorem map_id_putTrx (s : Sessions) (x : TrxState) :
    (s.putTrx x).trxs.map (fun y => y.id) = s.trxs.map (fun y => y.id) :=
  map_map_put

theorem mem_dropTrx (s : Sessions) (id : Nat) (y : TrxState) :
    y ∈ (s.dropTrx id).trxs ↔ y ∈ s.trxs ∧ y.id ≠ id := by
  simp [dropTrx]

/-- A lock is free for a transaction when nobody else has it. -/
theorem lockFree_iff (s : Sessions) (id : Nat) (k : LockKey) :
    s.lockFree id k = true ↔ ∀ a, (k, a) ∈ s.locks → a = id := by
  simp only [lockFree, List.all_eq_true, decide_eq_true_eq]
  constructor
  · intro h a ha
    exact (h (k, a) ha).resolve_left (fun hne => hne rfl)
  intro h e he
  by_cases hk : e.1 = k
  · exact Or.inr (h e.2 (hk ▸ he))
  · exact Or.inl hk

theorem mem_locksWithout (s : Sessions) (id : Nat) (e : LockKey × Nat) :
    e ∈ s.locksWithout id ↔ e ∈ s.locks ∧ e.2 ≠ id := by
  simp [locksWithout]

end Sessions

end ChibiDb
