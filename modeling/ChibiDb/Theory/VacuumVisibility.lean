import ChibiDb.Theory.IdReuse

/-!
# What VACUUM Does to Visibility

VACUUM removes the versions it finds dead, takes the marks of uncommitted
transactions off the others, and moves the horizon: from then on every id handed
out so far counts as committed. For the versions that stay this changes nothing,
whatever snapshot looks at them and whatever runs later.

What it removes is invisible to every later snapshot if the creator is a
transaction that ended without committing. An uncommitted creator id that is
still to be handed out is something else: a page of a dead transaction left it
behind, and the transaction that gets the id next would have seen the version as
its own. The same goes for the id VACUUM itself runs under.

## Main definitions

* `keepStatus`, `keepAll`: The commit status with no horizon moved.
* `orderly`: Runs without a crash in which whoever ran VACUUM then only commits.
* `Vacuums`: A VACUUM from start to end.
* `Reads`: A snapshot taken and used after it.
* `VacuumSound`: VACUUM changes nothing a later snapshot could see.
* `Ended`: The uncommitted creators on the pages are of the past.
* `Keeps`: How the status relates to the one with no horizon moved.

## Theorems

* `statusOk_step`: Only ids handed out count as committed.
* `keeps_step`: Every step keeps `Keeps`.
* `vacuum_sound_iff_ended`: The main result.
* `vacuum_sound_deleted_row`, `vacuum_removes_reused_row`: Two runs.
-/

namespace ChibiDb.VacuumVisibility

open List
open Option hiding or_assoc
open Db (fresh step step_cases)

/-- The commit status after a step, had no horizon been moved. -/
def keepStatus (c : Clog) : Label → Clog
  | .trx id .commitMark => c.markCommitted id
  | _ => c

/-- The commit status after a run, had no horizon been moved. -/
def keepAll (c : Clog) (ls : List Label) : Clog := ls.foldl keepStatus c

/-- The transactions that have run VACUUM. -/
def vacuumers (js : List Nat) : Label → List Nat
  | .vacuumBegin j => j :: js
  | _ => js

/-- Not a crash, and no write by a transaction that has run VACUUM. -/
def orderlyStep (js : List Nat) : Label → Bool
  | .crash => false
  | .trx j a => !js.contains j || a.ends
  | _ => true

/-- A run without a crash. VACUUM is a statement of its own, so its transaction
    has nothing left to do but commit. -/
def orderly : List Nat → List Label → Bool
  | _, [] => true
  | js, l :: ls => orderlyStep js l && orderly (vacuumers js l) ls

/-- The steps of VACUUM, and write-backs, which may come at any time. -/
def inVacuum : Label → Bool
  | .vacuumOne => true
  | .vacuumHorizon => true
  | .vacuumSave => true
  | .writeBack _ _ => true
  | _ => false

/-- VACUUM by transaction `id`, from start to end. -/
structure Vacuums (s : Db) (id : Nat) (vs : List Label) (s' : Db) : Prop where
  run : runSteps step s (.vacuumBegin id :: vs) = some s'
  labels : ∀ l ∈ vs, inVacuum l = true
  ended : s'.vacuum = none
  -- it is not committed yet, as any transaction that runs a statement
  running : s.tm.committed.isCommitted id = false

/-- In a run that goes on from `s`, reader `r` takes a snapshot (its bound first,
    then the open set) and uses it in state `c`. `full` is the commit status
    `kept` with the commits of that run and no horizon moved. -/
def Reads (s : Db) (id : Nat) (kept : Clog) (r : Nat) (snap : Snapshot) (c : Db) (full : Clog) :
    Prop :=
  ∃ ms₁ ms₂ ms₃ a b, orderly [id] (ms₁ ++ ms₂ ++ ms₃) = true ∧
    runSteps step s ms₁ = some a ∧ runSteps step a ms₂ = some b ∧
    runSteps step b ms₃ = some c ∧
    (r = readOnlyTrxId ∨ s.tm.nextId ≤ r ∧ r < a.tm.nextId) ∧
    snap = ⟨a.tm.nextId, b.tm.xip⟩ ∧ full = keepAll kept (ms₁ ++ ms₂ ++ ms₃)

/-- VACUUM took the database from `s` to `s'`. No later snapshot would have seen
    a version it removed, and every later snapshot sees of each stored version
    what it would have seen with the whole commit status kept. -/
def VacuumSound (s s' : Db) (id : Nat) : Prop :=
  ∀ r snap c full, Reads s' id s.tm.committed r snap c full →
    (∀ f rid v, s.mem.get f rid = some v → s'.mem.get f rid = none →
      snap.visible full r v.creator v.deleter = false) ∧
    (∀ f rid w, c.mem.get f rid = some w →
      snap.visible c.tm.committed r w.creator w.deleter =
        snap.visible full r w.creator w.deleter)

/-- Each version whose creator has not committed was created by a transaction
    that has ended, unless its mark hides it from everyone. -/
def Ended (s : Db) (id : Nat) : Prop :=
  ∀ f rid v, s.mem.get f rid = some v → s.tm.committed.isCommitted v.creator = false →
    (v.creator ≠ 0 ∧ v.creator < s.tm.nextId ∧ v.creator ≠ id) ∨
      (v.deleter ≠ 0 ∧ (s.tm.committed.isCommitted v.deleter = true ∨ v.deleter = v.creator))

-- Which ids count as committed

/-- Only ids handed out count as committed, now and in the saved catalog. -/
structure StatusOk (s : Db) : Prop where
  inv : Inv s
  now : ∀ y, s.tm.committed.isCommitted y = true → y < s.tm.nextId
  saved : ∀ y, y ≠ 0 → (y < s.saved.clogBase ∨ y ∈ s.saved.committedTrxs) → y < s.saved.nextTrxId

variable {c c' s s' t t' : Db} {a : TrxAction} {x : Trx} {l : Label} {full kept : Clog}
  {js : List Nat} {d f g n r : Nat} {h : Heap} {v : Version} {tables : List Table} {rid : Rid}
  {work : List (Nat × Rid)} {ls vs : List Label} {snap : Snapshot}
variable {id : Nat}

theorem statusOk_trxStep (h : StatusOk s) (hx : x ∈ s.trxs) (hstep : Db.TrxStep s x a s') :
    StatusOk s' := by
  have hi' := h.inv.trxStep hx hstep
  cases hstep with
  | commitMark =>
    refine ⟨hi', ?_, h.saved⟩
    intro y hy
    rcases (Clog.isCommitted_mark _ _ _).mp hy with hy | ⟨hy, _⟩
    · exact h.now y hy
    · rw [hy]
      exact (h.inv.trx_lt x hx).2
  | _ => exact { h with inv := hi' }

theorem statusOk_step (h : StatusOk s) (hstep : s.step l = some s') : StatusOk s' := by
  have hi' := h.inv.step hstep
  cases step_cases hstep with
  | begin => exact { h with inv := hi', now := fun y hy => Nat.lt_succ_of_lt (h.now y hy) }
  | trx _ _ _ _ hx ht => exact statusOk_trxStep h hx ht
  | checkpointSave | createTable | dropTable | otherDdl | vacuumSave =>
    -- the catalog is saved as the manager stands
    exact { h with
      inv := hi', saved := fun y h0 hy => h.now y ((Clog.isCommitted_iff _ _).mpr ⟨h0, hy⟩) }
  | vacuumHorizon =>
    refine ⟨hi', ?_, h.saved⟩
    intro y hy
    rcases (Clog.isCommitted_advanceBase _ _ _).mp hy with hy | ⟨_, hy⟩
    · exact h.now y hy
    · exact hy
  | crash s' hre =>
    have hr := Db.reopened_of_reopen hre
    have hnow : ∀ y, s'.tm.committed.isCommitted y = true → y < s'.tm.nextId := by
      intro y hy
      rw [hr.tm] at hy ⊢
      rcases (Db.isCommitted_recoveredTm s y).mp hy with ⟨h0, hy⟩
      rw [Db.lt_nextId_recoveredTm_iff]
      rcases hy with hy | hy | hy
      · exact .inl (h.saved y h0 (.inl hy))
      · exact .inl (h.saved y h0 (.inr hy))
      · exact .inr (.inr ⟨_, hy, Nat.le_refl _⟩)
    refine ⟨hi', hnow, ?_⟩
    rcases hr.saved with hsaved | hsaved
    · -- nothing was saved again
      rw [hsaved]
      exact h.saved
    · intro y h0 hy
      rw [hsaved] at hy ⊢
      exact hnow y ((Clog.isCommitted_iff _ _).mpr ⟨h0, hy⟩)
  | _ => exact { h with inv := hi' }

theorem statusOk_fresh (inlineLimit : Nat) : StatusOk (fresh inlineLimit) where
  inv := Inv.fresh inlineLimit
  now := by
    intro y hy
    rcases (Clog.isCommitted_iff _ _).mp hy with ⟨_, hy | hy⟩
    · exact absurd hy (Nat.not_lt_zero y)
    · cases hy
  saved := by
    intro y _ hy
    rcases hy with hy | hy
    · exact absurd hy (Nat.not_lt_zero y)
    · cases hy

theorem base_le (h : StatusOk s) : s.tm.committed.base ≤ s.tm.nextId := by
  by_contra hlt
  have hpos := h.inv.next_pos
  have := h.now (s.tm.committed.base - 1)
    ((Clog.isCommitted_iff _ _).mpr ⟨by omega, .inl (by omega)⟩)
  omega

-- The status, and the one with no horizon moved

/-- An id on which the two agree: no id at all, one that did commit, or one that
    the horizon `b` has not reached. -/
def Known (full : Clog) (b y : Nat) : Prop := y = 0 ∨ full.isCommitted y = true ∨ b ≤ y

/-- How the commit status relates to `full`, the one with no horizon moved, and
    that nothing stored lies between the two. -/
structure Keeps (s : Db) (full : Clog) (js : List Nat) : Prop where
  ok : StatusOk s
  status : ∀ y, s.tm.committed.isCommitted y = true ↔
    full.isCommitted y = true ∨ (y ≠ 0 ∧ y < s.tm.committed.base)
  mem : ∀ f rid v, s.mem.get f rid = some v →
    Known full s.tm.committed.base v.creator ∧ Known full s.tm.committed.base v.deleter
  undo : ∀ x ∈ s.trxs, ∀ u ∈ x.undo, Known full s.tm.committed.base (IdReuse.prevDeleter u)
  trx : ∀ x ∈ s.trxs, s.tm.committed.base ≤ x.id ∨ (x.id ∈ js ∧ x.undo = [])
  alone : s.vacuum ≠ none → ∀ x ∈ s.trxs, x.id ∈ js ∧ x.undo = []
  cleaned : ∀ work, s.vacuum = some (.cleaning work) → ∀ f rid v, (f, rid) ∉ work →
    s.mem.get f rid = some v → s.tm.committed.isCommitted v.creator = true ∧ v.deleter = 0

/-- What counts as committed did commit, where the two agree. -/
theorem full_of_known (h : Keeps s full js) {y : Nat} (hk : Known full s.tm.committed.base y)
    (hc : s.tm.committed.isCommitted y = true) : full.isCommitted y = true := by
  rcases (h.status y).mp hc with hf | ⟨h0, _⟩
  · exact hf
  rcases hk with hk | hk | hk
  · exact absurd hk h0
  · exact hk
  · omega

theorem mem_put (s : Db) (y z : Trx) (hz : z ∈ (s.putTrx y).trxs) : z = y ∨ z ∈ s.trxs :=
  (s.mem_putTrx hz).imp_right (fun h => h.1)

theorem base_mark (c : Clog) (x : Nat) : (c.markCommitted x).base = c.base := by
  unfold Clog.markCommitted
  split <;> rfl

theorem keeps_trxStep (h : Keeps s full js) (hok : StatusOk s') (hv : s.vacuum = none)
    (hx : x ∈ s.trxs) (hor : orderlyStep js (.trx x.id a) = true) (hstep : Db.TrxStep s x a s') :
    Keeps s' (keepStatus full (.trx x.id a)) js := by
  -- whoever writes is above the horizon
  have hwrites : a.ends = false → s.tm.committed.base ≤ x.id := by
    intro he
    rcases h.trx x hx with hid | ⟨hj, _⟩
    · exact hid
    · simp only [orderlyStep, he, Bool.or_false, Bool.not_eq_true', contains_eq_mem,
        decide_eq_false_iff_not] at hor
      exact absurd hj hor
  have hvac : s'.vacuum = none := by
    cases hstep <;> exact hv
  have hbase : s'.tm.committed.base = s.tm.committed.base := by
    cases hstep with
    | commitMark => exact base_mark _ _
    | _ => rfl
  have hstatus : ∀ y, s'.tm.committed.isCommitted y = true ↔
      (keepStatus full (.trx x.id a)).isCommitted y = true ∨ (y ≠ 0 ∧ y < s.tm.committed.base) := by
    cases hstep with
    | commitMark =>
      intro y
      refine (Clog.isCommitted_mark s.tm.committed x.id y).trans ?_
      rw [keepStatus, Clog.isCommitted_mark full x.id y, or_right_comm, ← h.status y]
    | _ => exact h.status
  have hknown : ∀ y, Known full s.tm.committed.base y →
      Known (keepStatus full (.trx x.id a)) s.tm.committed.base y := by
    refine fun y hy => hy.imp_right (fun hy => hy.imp_left (fun hc => ?_))
    cases hstep with
    | commitMark => exact (Clog.isCommitted_mark _ _ _).mpr (.inl hc)
    | _ => exact hc
  refine ⟨hok, hbase ▸ hstatus, ?_, ?_, ?_, fun hne => absurd hvac hne, ?_⟩
  · rw [hbase]
    intro f rid w hw
    rcases IdReuse.slot_of_trxStep hstep hw with hw | ⟨he, ⟨_, hc, hd⟩ | ⟨v, hg, hc, hd⟩⟩
    · exact ⟨hknown _ (h.mem f rid w hw).1, hknown _ (h.mem f rid w hw).2⟩
    · exact ⟨.inr (.inr (hc ▸ hwrites he)), .inl hd⟩
    refine ⟨hc ▸ hknown _ (h.mem f rid v hg).1, ?_⟩
    rcases hd with ⟨hd, _⟩ | ⟨u, hu, hd⟩
    · exact .inr (.inr (hd ▸ hwrites he))
    · exact hd ▸ hknown _ (h.undo x hx u hu)
  · rw [hbase]
    intro z hz u hu
    rcases IdReuse.undo_of_trxStep hstep hz with hz | ⟨_, hz⟩
    · exact hknown _ (h.undo z hz u hu)
    rcases hz u hu with ⟨o, ho, hd⟩ | ⟨_, hd | ⟨f, rid, v, hg, hd⟩⟩
    · exact hd ▸ hknown _ (h.undo x hx o ho)
    · exact .inl hd
    · exact hd ▸ hknown _ (h.mem f rid v hg).2
  · rw [hbase]
    intro z hz
    rcases IdReuse.undo_of_trxStep hstep hz with hz | ⟨hid, hz⟩
    · exact h.trx z hz
    rw [hid]
    rcases h.trx x hx with hb | ⟨hj, hu⟩
    · exact .inl hb
    by_cases he : a.ends = false
    · exact .inl (hwrites he)
    refine .inr ⟨hj, eq_nil_iff_forall_not_mem.mpr (fun u hu' => ?_)⟩
    rcases hz u hu' with ⟨o, ho, _⟩ | ⟨he', _⟩
    · rw [hu] at ho
      cases ho
    · exact he he'
  · intro _ hw
    cases hvac.symm.trans hw

-- Where versions are stored

/-- Versions are stored in the files of tables only. -/
structure InTables (s : Db) : Prop where
  saved : s.saved.tables = s.tables
  mem : ∀ f rid v, s.mem.get f rid = some v → (layoutOf s.tables f).isSome
  disk : ∀ f rid v, s.disk.get f rid = some v → (layoutOf s.tables f).isSome

/-- A page file that was just made or dropped holds nothing. -/
theorem get_setFile_empty {ps : List Page} (hps : ps = [] ∨ ps = [[]]) {r : Rid}
    (hv : (h.setFile f ps).get g r = some v) : g ≠ f ∧ h.get g r = some v := by
  rw [Heap.get_setFile] at hv
  split at hv
  · exfalso
    rcases hps with hps | hps
    · rw [hps] at hv
      cases hv
    · rw [hps] at hv
      cases hp : r.pageNo <;>
        simp [hp] at hv
  · next hne => exact ⟨hne, hv⟩

theorem layoutOf_append (t : Table) (h : (layoutOf tables f).isSome) :
    (layoutOf (tables ++ [t]) f).isSome := by
  rcases Db.layoutOf_isSome_iff.mp h with ⟨u, hu, hf⟩
  exact Db.layoutOf_isSome_iff.mpr ⟨u, mem_append_left _ hu, hf⟩

theorem layoutOf_filter (hne : g ≠ f) (h : (layoutOf tables g).isSome) :
    (layoutOf (tables.filter (fun t => t.fileNo ≠ f)) g).isSome := by
  rcases Db.layoutOf_isSome_iff.mp h with ⟨u, hu, rfl⟩
  exact Db.layoutOf_isSome_iff.mpr ⟨u, mem_filter.mpr ⟨hu, decide_eq_true hne⟩, rfl⟩

/-- Filling one slot of a table. -/
theorem within_setSlot {o : Option Version}
    (hh : ∀ g r v, h.get g r = some v → (layoutOf tables g).isSome)
    (hf : o = none ∨ (layoutOf tables f).isSome) :
    ∀ g r v, (h.setSlot f rid o).get g r = some v → (layoutOf tables g).isSome := by
  intro g r v hv
  rcases Heap.get_setSlot_cases hv with ⟨rfl, _, ho⟩ | ⟨_, hv⟩
  · rcases hf with hf | hf
    · cases hf.symm.trans ho
    · exact hf
  · exact hh g r v hv

theorem inTables_trxStep (h : InTables s) (hstep : Db.TrxStep s x a s') : InTables s' := by
  cases hstep with
  | insert _ _ _ _ _ _ _ hl | updateInsert _ _ _ _ _ _ _ _ _ _ hl =>
    exact ⟨h.saved, within_setSlot h.mem (.inr (isSome_of_mem hl)), h.disk⟩
  | deleteMark f rid v _ _ _ _ hg =>
    exact ⟨h.saved, within_setSlot h.mem (.inr (h.mem f rid v hg)), h.disk⟩
  | updateMark _ v _ hg | undoMark _ _ _ _ _ v _ _ hg =>
    exact ⟨h.saved, within_setSlot h.mem (.inr (h.mem _ _ v hg)), h.disk⟩
  | undoInsert | undoUpdate =>
    exact ⟨h.saved, within_setSlot h.mem (.inl rfl), h.disk⟩
  | _ => exact ⟨h.saved, h.mem, h.disk⟩

theorem inTables_step (h : InTables s) (hstep : s.step l = some s') : InTables s' := by
  cases step_cases hstep with
  | trx _ _ _ _ _ ht => exact inTables_trxStep h ht
  | writeBack =>
    refine ⟨h.saved, h.mem, ?_⟩
    intro g r v hg
    rw [Heap.get_copyPage] at hg
    split at hg
    · exact h.mem g r v hg
    · exact h.disk g r v hg
  | checkpointSave | otherDdl | vacuumSave => exact ⟨rfl, h.mem, h.disk⟩
  | createTable =>
    exact ⟨rfl,
      fun g r v hg => layoutOf_append _ (h.mem g r v (get_setFile_empty (.inr rfl) hg).2),
      fun g r v hg => layoutOf_append _ (h.disk g r v (get_setFile_empty (.inr rfl) hg).2)⟩
  | dropTable =>
    refine ⟨rfl, ?_, ?_⟩
    · intro g r v hg
      have hg' := get_setFile_empty (.inl rfl) hg
      exact layoutOf_filter hg'.1 (h.mem g r v hg'.2)
    · intro g r v hg
      have hg' := get_setFile_empty (.inl rfl) hg
      exact layoutOf_filter hg'.1 (h.disk g r v hg'.2)
  | vacuumDelete =>
    exact ⟨h.saved, within_setSlot h.mem (.inl rfl), h.disk⟩
  | vacuumUnmark f rid _ v _ hv =>
    exact ⟨h.saved, within_setSlot h.mem (.inr (h.mem f rid v hv)), h.disk⟩
  | crash s' hre =>
    have hr := Db.reopened_of_reopen hre
    have htables : s'.tables = s.tables := hr.tables.trans h.saved
    refine ⟨?_, ?_, ?_⟩
    · rcases hr.saved with hs | hs
      · rw [hs, hr.tables]
      · rw [hs]
        rfl
    · rw [hr.tables]
      refine Db.redo_invariant (fun g => ∀ f rid v, g.get f rid = some v →
        (layoutOf s.saved.tables f).isSome) _ (by rw [h.saved]; exact h.disk) ?_ hr.mem
      intro _ _ _ _ hg hone
      -- redo touches the files of tables only
      cases Db.redoOne_cases hone with
      | skip => exact hg
      | fill hf | mark hf => exact within_setSlot hg (.inr hf)
    · rw [htables, hr.disk]
      exact h.disk
  | _ => exact ⟨h.saved, h.mem, h.disk⟩

theorem inTables_fresh (inlineLimit : Nat) : InTables (fresh inlineLimit) where
  saved := rfl
  mem := fun f rid v hv => absurd hv (Heap.all_nil (fun _ => False) f rid v)
  disk := fun f rid v hv => absurd hv (Heap.all_nil (fun _ => False) f rid v)

/-- VACUUM moves on past one record. -/
theorem keeps_vacuumOne (h : Keeps s full js) (hok : StatusOk s')
    (hc : Db.Cleaned s s' f rid work v o) : Keeps s' full js := by
  refine ⟨hok, ?_, ?_, ?_, ?_, ?_, ?_⟩
  · rw [hc.tm]
    exact h.status
  · rw [hc.tm]
    intro g r w hg
    rcases hc.origin hg with ⟨hg, _⟩ | ⟨hv, hcr, _, hd⟩
    · exact h.mem g r w hg
    · rw [hcr]
      exact ⟨(h.mem g r v hv).1, .inl hd⟩
  · rw [hc.tm, hc.trxs]
    exact h.undo
  · rw [hc.tm, hc.trxs]
    exact h.trx
  · rw [hc.trxs]
    exact fun _ => h.alone (by rw [hc.todo]; simp)
  · intro _ hwork g r w hn hg
    rw [hc.left, some.injEq, VacuumState.cleaning.injEq] at hwork
    subst hwork
    rw [hc.tm]
    rcases hc.origin hg with ⟨hg, hne⟩ | ⟨_, hcr, hcom, hd⟩
    · exact h.cleaned _ hc.todo g r w (fun hm => (mem_cons.mp hm).elim hne hn) hg
    · rw [hcr]
      exact ⟨hcom, hd⟩

theorem keeps_step (h : Keeps s full js) (ht : InTables s) (hor : orderlyStep js l = true)
    (hstep : s.step l = some s') : Keeps s' (keepStatus full l) (vacuumers js l) := by
  have hok := statusOk_step h.ok hstep
  have hbase := base_le h.ok
  cases step_cases hstep with
  | begin hv =>
    refine ⟨hok, h.status, h.mem, ?_, ?_, fun hne => absurd hv hne, h.cleaned⟩
    · intro x hx u hu
      rcases mem_cons.mp hx with hx | hx
      · rw [hx] at hu
        cases hu
      · exact h.undo x hx u hu
    · intro x hx
      rcases mem_cons.mp hx with hx | hx
      · rw [hx]
        exact .inl hbase
      · exact h.trx x hx
  | trx _ _ _ hv hx htrx => exact keeps_trxStep h hok hv hx hor htrx
  | createTable | dropTable =>
    -- the pages may only lose versions
    refine { h with ok := hok, mem := ?_, cleaned := ?_ }
    · intro g r v hg
      exact h.mem g r v (get_setFile_empty (by simp) hg).2
    · intro work hw g r v hn hg
      exact h.cleaned work hw g r v hn (get_setFile_empty (by simp) hg).2
  | vacuumBegin id _ he =>
    rcases Db.exclusive_cases s he with ⟨x, ⟨htrxs, _, hundo, _⟩, hid, _⟩
    have halone : ∀ y ∈ s.trxs, y.id = id ∧ y.undo = [] := by
      intro y hy
      rw [htrxs, mem_singleton] at hy
      rw [hy]
      exact ⟨hid, hundo⟩
    refine ⟨hok, h.status, h.mem, h.undo, ?_, ?_, ?_⟩
    · intro x hx
      exact (h.trx x hx).imp_right (fun hx => ⟨mem_cons_of_mem _ hx.1, hx.2⟩)
    · intro _ x hx
      exact ⟨(halone x hx).1 ▸ mem_cons_self, (halone x hx).2⟩
    · intro work hwork g r v hn hg
      rw [some.injEq, VacuumState.cleaning.injEq] at hwork
      exact absurd (hwork ▸ Db.mem_allRecords (ht.mem _ _ _ hg) hg) hn
  | vacuumDelete | vacuumUnmark | vacuumKeep =>
    rcases Db.cleaned_of_step hstep with ⟨_, _, _, _, _, hc⟩
    exact keeps_vacuumOne h hok hc
  | vacuumHorizon hw =>
    -- what is stored has committed, and nobody holds anything to put back
    have hne : s.vacuum ≠ none := by
      rw [hw]
      simp
    have halone := h.alone hne
    have hbase' : (s.tm.committed.advanceBase s.tm.nextId).base = s.tm.nextId := by
      unfold Clog.advanceBase
      split
      · omega
      · rfl
    refine ⟨hok, ?_, ?_, ?_, fun x hx => .inr (halone x hx), fun _ => halone, nofun⟩
    · intro y
      rw [show (s.tm.advanceHorizon s.tm.nextId).committed =
        s.tm.committed.advanceBase s.tm.nextId from rfl, hbase', Clog.isCommitted_advanceBase,
        h.status y]
      constructor
      · intro hy
        rcases hy with (hy | hy) | hy
        · exact .inl hy
        · exact .inr ⟨hy.1, by omega⟩
        · exact .inr hy
      · intro hy
        rcases hy with hy | hy
        · exact .inl (.inl hy)
        · exact .inr hy
    · intro f rid v hv
      have hclean := h.cleaned [] hw f rid v not_mem_nil hv
      exact ⟨.inr (.inl (full_of_known h (h.mem f rid v hv).1 hclean.1)), .inl hclean.2⟩
    · intro x hx _ hu
      rw [(halone x hx).2] at hu
      cases hu
  | vacuumSave =>
    exact { h with ok := hok, alone := fun hne => absurd rfl hne, cleaned := nofun }
  | crash => simp [orderlyStep] at hor
  | _ => exact { h with ok := hok }

/-- The two agree on what is stored, under any snapshot. -/
theorem visible_of_keeps (h : Keeps s full js) (snap : Snapshot) (r : Nat) {w : Version}
    (hw : s.mem.get f rid = some w) :
    snap.visible s.tm.committed r w.creator w.deleter =
      snap.visible full r w.creator w.deleter := by
  have hcommitted : ∀ y, Known full s.tm.committed.base y →
      s.tm.committed.isCommitted y = full.isCommitted y := by
    intro y hy
    exact Bool.eq_iff_iff.mpr ⟨full_of_known h hy, fun hc => (h.status y).mpr (.inl hc)⟩
  unfold Snapshot.visible Snapshot.committedBefore
  rw [hcommitted _ (h.mem f rid w hw).1, hcommitted _ (h.mem f rid w hw).2]

theorem keeps_run (s : Db) (full : Clog) (js : List Nat) (h : Keeps s full js) (ht : InTables s)
    (hor : orderly js ls = true) (hrun : runSteps step s ls = some s') :
    ∃ js', Keeps s' (keepAll full ls) js' := by
  induction ls generalizing s full js with
  | nil =>
    simp only [runSteps, some.injEq] at hrun
    exact ⟨js, hrun ▸ h⟩
  | cons _ _ ih =>
    rcases runSteps_cons hrun with ⟨t, hstep, hrest⟩
    simp only [orderly, Bool.and_eq_true] at hor
    exact ih t _ _ (keeps_step h ht hor.1 hstep) (inTables_step ht hstep) hor.2 hrest

theorem orderly_append (ls ms : List Label) (js : List Nat) :
    orderly js (ls ++ ms) = (orderly js ls && orderly (ls.foldl vacuumers js) ms) := by
  induction ls generalizing js with
  | nil => rfl
  | cons _ _ ih =>
    simp [orderly, ih, Bool.and_assoc]

-- VACUUM itself

/-- What VACUUM, begun in `s`, has done by the time it is in `t`. -/
structure Cleans (s t : Db) : Prop where
  trxs : t.trxs = s.trxs
  next : t.tm.nextId = s.tm.nextId
  opened : t.tm.openSet = s.tm.openSet
  status : ∀ work, t.vacuum = some (.cleaning work) → t.tm.committed = s.tm.committed
  kept : ∀ f rid w, t.mem.get f rid = some w → ∃ v, s.mem.get f rid = some v ∧
    (w = v ∨ (w.creator = v.creator ∧ s.tm.committed.isCommitted v.creator = true ∧ w.deleter = 0))
  dead : ∀ f rid v, s.mem.get f rid = some v → t.mem.get f rid = none →
    s.tm.committed.isCommitted v.creator = false ∨
      (v.deleter ≠ 0 ∧ s.tm.committed.isCommitted v.deleter = true)
  clean : ∀ f rid w, t.mem.get f rid = some w →
    (∃ work, t.vacuum = some (.cleaning work) ∧ (f, rid) ∈ work) ∨
      s.tm.committed.isCommitted w.creator = true

theorem cleans_begin (ht : InTables s) :
    Cleans s { s with vacuum := some (.cleaning s.allRecords) } where
  trxs := rfl
  next := rfl
  opened := rfl
  status := fun _ _ => rfl
  kept := fun _ _ w hw => ⟨w, hw, .inl rfl⟩
  dead := by
    intro f rid _ hv hn
    cases hv.symm.trans hn
  clean := fun f rid w hw => .inl ⟨_, rfl, Db.mem_allRecords (ht.mem _ _ _ hw) hw⟩

theorem cleans_one (h : Cleans s t) (hc : Db.Cleaned t t' f rid work v o) : Cleans s t' := by
  have hst := h.status _ hc.todo
  have hnone := hc.dead
  have hsome := hc.kept
  rw [hst] at hnone hsome
  rcases h.kept f rid v hc.slot with ⟨v₀, hv₀, hrel⟩
  refine ⟨hc.trxs.trans h.trxs, hc.tm ▸ h.next, hc.tm ▸ h.opened, ?_, ?_, ?_, ?_⟩
  · intro _ _
    rw [hc.tm, hst]
  · intro g r w hg
    rw [hc.get] at hg
    split at hg
    · next he =>
      rw [he.1, he.2]
      rcases hsome w hg with ⟨hcr, hcom, hd⟩
      have hcr₀ : v.creator = v₀.creator := by
        rcases hrel with hrel | hrel
        · rw [hrel]
        · exact hrel.1
      exact ⟨v₀, hv₀, .inr ⟨hcr.trans hcr₀, hcr₀ ▸ hcom, hd⟩⟩
    · exact h.kept g r w hg
  · intro g r u hu hg
    rw [hc.get] at hg
    split at hg
    · next he =>
      rw [he.1, he.2, hv₀] at hu
      cases hu
      rcases hrel with hrel | ⟨hcr, hcom, hd⟩
      · rw [← hrel]
        exact hnone hg
      -- already found alive once
      exfalso
      rcases hnone hg with hn | hn
      · rw [hcr, hcom] at hn
        cases hn
      · exact hn.1 hd
    · exact h.dead g r u hu hg
  · intro g r w hg
    rw [hc.get] at hg
    split at hg
    · rcases hsome w hg with ⟨hcr, hcom, _⟩
      rw [hcr]
      exact .inr hcom
    · next hne =>
      rcases h.clean g r w hg with ⟨_, hwork', hmem⟩ | hcom
      · rw [hc.todo, some.injEq, VacuumState.cleaning.injEq] at hwork'
        subst hwork'
        rcases mem_cons.mp hmem with hmem | hmem
        · exact absurd (Prod.mk.inj hmem) hne
        · exact .inl ⟨work, hc.left, hmem⟩
      · exact .inr hcom

theorem cleans_step (h : Cleans s t) (hl : inVacuum l = true) (hstep : t.step l = some t') :
    Cleans s t' := by
  cases step_cases hstep with
  | writeBack => exact { h with }
  | vacuumDelete | vacuumUnmark | vacuumKeep =>
    rcases Db.cleaned_of_step hstep with ⟨_, _, _, _, _, hc⟩
    exact cleans_one h hc
  | vacuumHorizon hw =>
    refine { h with status := nofun, clean := ?_ }
    · intro f rid w hg
      rcases h.clean f rid w hg with ⟨work, hwork, hmem⟩ | hcom
      · rw [hw, some.injEq, VacuumState.cleaning.injEq] at hwork
        rw [← hwork] at hmem
        cases hmem
      · exact .inr hcom
  | vacuumSave hw =>
    refine { h with status := nofun, clean := ?_ }
    · intro f rid w hg
      rcases h.clean f rid w hg with ⟨_, hwork, _⟩ | hcom
      · cases hw.symm.trans hwork
      · exact .inr hcom
  | _ => cases hl

theorem cleans_run (t : Db) (h : Cleans s t) (hl : ∀ l ∈ vs, inVacuum l = true)
    (hrun : runSteps step t vs = some t') : Cleans s t' := by
  exact invariant_of_meets step _ (Cleans s) (fun _ _ _ => cleans_step) t t' vs h
    (meets_of_labels t hl) hrun

-- What comes later

/-- After VACUUM by transaction `id`, with `n` the next id: everyone else is
    new, and nothing else of the past commits. -/
structure After (n id : Nat) (kept : Clog) (c : Db) (full : Clog) : Prop where
  next : n ≤ c.tm.nextId
  opened : ∀ y ∈ c.tm.openSet, y = id ∨ n ≤ y
  trx : ∀ x ∈ c.trxs, x.id = id ∨ n ≤ x.id
  full : ∀ y, y < n → y ≠ id → full.isCommitted y = kept.isCommitted y

theorem after_put (c' : Db) (y : Trx) (h : After n id kept c full) (hx : x ∈ c.trxs)
    (htrxs : c'.trxs = (c.putTrx y).trxs) (hid : y.id = x.id) (hnext : c'.tm.nextId = c.tm.nextId)
    (hopen : c'.tm.openSet = c.tm.openSet) : After n id kept c' full where
  next := hnext ▸ h.next
  opened := hopen ▸ h.opened
  trx := by
    intro z hz
    rw [htrxs] at hz
    rcases mem_put c y z hz with hz | hz
    · rw [hz, hid]
      exact h.trx x hx
    · exact h.trx z hz
  full := h.full

theorem after_trxStep (h : After n id kept c full) (hx : x ∈ c.trxs)
    (hstep : Db.TrxStep c x a c') : After n id kept c' (keepStatus full (.trx x.id a)) := by
  have hremove : ∀ y ∈ (c.tm.removeOpen x.id).openSet, y = id ∨ n ≤ y :=
    fun y hy => h.opened y (mem_of_mem_filter hy)
  have hdrop : ∀ z ∈ (c.dropTrx x.id).trxs, z.id = id ∨ n ≤ z.id :=
    fun z hz => h.trx z ((c.mem_dropTrx x.id z).mp hz).1
  cases hstep with
  | removeOpen => exact ⟨h.next, hremove, h.trx, h.full⟩
  | finishRollback => exact ⟨h.next, h.opened, hdrop, h.full⟩
  | commitFinish => exact ⟨h.next, hremove, hdrop, h.full⟩
  | commitMark =>
    have hp := after_put { c.putTrx { x with phase := .marked } with
      tm := c.tm.markCommitted x.id } { x with phase := .marked } h hx rfl rfl rfl rfl
    refine ⟨hp.next, hp.opened, hp.trx, ?_⟩
    intro y hy hne
    rw [← h.full y hy hne, Bool.eq_iff_iff]
    refine (Clog.isCommitted_mark full x.id y).trans ⟨?_, .inl⟩
    intro hc
    rcases hc with hc | ⟨hyx, _⟩
    · exact hc
    · rcases h.trx x hx with hid | hid
      · exact absurd (hyx.trans hid) hne
      · omega
  | _ => exact after_put _ _ h hx rfl rfl rfl rfl

theorem after_step (h : After n id kept c full) (hl : l ≠ .crash)
    (hstep : c.step l = some c') : After n id kept c' (keepStatus full l) := by
  cases step_cases hstep with
  | begin =>
    refine ⟨Nat.le_succ_of_le h.next, ?_, ?_, h.full⟩
    · intro y hy
      rcases mem_insert_iff.mp hy with hy | hy
      · exact .inr (hy ▸ h.next)
      · exact h.opened y hy
    · intro x hx
      rcases mem_cons.mp hx with hx | hx
      · rw [hx]
        exact .inr h.next
      · exact h.trx x hx
  | trx _ _ _ _ hx ht => exact after_trxStep h hx ht
  | crash => exact absurd rfl hl
  | _ => exact ⟨h.next, h.opened, h.trx, h.full⟩

theorem after_run (c : Db) (full : Clog) (js : List Nat) (h : After n id kept c full)
    (hor : orderly js ls = true) (hrun : runSteps step c ls = some c') :
    After n id kept c' (keepAll full ls) := by
  induction ls generalizing c full js with
  | nil =>
    simp only [runSteps, some.injEq] at hrun
    exact hrun ▸ h
  | cons _ _ ih =>
    rcases runSteps_cons hrun with ⟨t, hstep, hrest⟩
    simp only [orderly, Bool.and_eq_true] at hor
    refine ih t _ _ (after_step h ?_ hstep) hor.2 hrest
    intro hl
    rw [hl] at hor
    exact absurd hor.1 (by simp [orderlyStep])

/-- The creator of a version has ended: no later snapshot sees it. -/
theorem unseen_of_ended (snap : Snapshot) {c : Nat} (d : Nat)
    (hown : r = readOnlyTrxId ∨ n ≤ r)
    (hfull : ∀ y, y < n → y ≠ id → full.isCommitted y = kept.isCommitted y)
    (hc : kept.isCommitted c = false) (h0 : c ≠ 0) (hlt : c < n) (hne : c ≠ id) :
    snap.visible full r c d = false := by
  have hr : c ≠ r := by
    rcases hown with hr | hr
    · rw [hr]
      exact h0
    · omega
  have hf := (hfull c hlt hne).trans hc
  simp [Snapshot.visible, Snapshot.committedBefore, h0, hr, hf]

/-- A mark by a transaction that has committed before the snapshot hides. -/
theorem unseen_of_deleted (r : Nat) (c : Nat)
    (hfull : ∀ y, y < n → y ≠ id → full.isCommitted y = kept.isCommitted y) (hmax : n ≤ snap.xmax)
    (hxip : ∀ y ∈ snap.xip, y = id ∨ n ≤ y) (hd : kept.isCommitted d = true) (hlt : d < n)
    (hne : d ≠ id) (h0 : d ≠ 0) : snap.visible full r c d = false := by
  have hnot : d ∉ snap.xip := by
    intro hm
    rcases hxip d hm with hm | hm
    · exact hne hm
    · omega
  have hbefore : snap.committedBefore full d = true :=
    (committedBefore_iff snap full d).mpr ⟨by omega, hnot, (hfull d hlt hne).trans hd⟩
  simp [Snapshot.visible, hbefore, h0]

theorem begins_run (k : Nat) (s : Db) (hvac : s.vacuum = none) :
    ∃ a, runSteps step s (replicate k .begin) = some a ∧ a.tm.nextId = s.tm.nextId + k := by
  induction k generalizing s with
  | zero => exact ⟨s, rfl, rfl⟩
  | succ _ ih =>
    rcases ih { s with tm := s.tm.beginOpen.2, trxs := Trx.fresh s.tm.beginOpen.1 :: s.trxs } hvac
      with ⟨a, ha, hn⟩
    have hstep : s.step .begin = some { s with
        tm := s.tm.beginOpen.2
        trxs := Trx.fresh s.tm.beginOpen.1 :: s.trxs } := if_pos hvac
    refine ⟨a, ?_, ?_⟩
    · simp only [replicate_succ, runSteps, hstep]
      exact ha
    · rw [hn]
      simp only [TransactionManager.beginOpen]
      omega

theorem begins_orderly (k : Nat) (js : List Nat) (c : Clog) :
    orderly js (replicate k .begin) = true ∧ keepAll c (replicate k .begin) = c := by
  induction k with
  | zero => exact ⟨rfl, rfl⟩
  | succ _ ih =>
    rw [replicate_succ]
    exact ⟨ih.1, ih.2⟩

/-- The commit of a transaction that wrote nothing. -/
def commitLabels (id : Nat) : List Label :=
  [.trx id .commitReadOnly, .trx id .commitCount, .trx id .commitMark, .trx id .commitFinish]

/-- A step of the only transaction there is. -/
theorem step_only (x : Trx) (a : TrxAction) (hvac : s.vacuum = none) (htrx : s.trxs = [x]) :
    s.step (.trx x.id a) = s.trxStep x a := by
  have hx : s.trx x.id = some x := by
    unfold Db.trx
    rw [htrx, find?_cons_of_pos (by simp)]
  simp only [step, hvac, hx]

theorem putTrx_only {y : Trx} (htrx : s.trxs = [x]) (hid : y.id = x.id) :
    (s.putTrx y).trxs = [y] := by
  simp [Db.putTrx, htrx, hid]

theorem commit_run (hvac : s.vacuum = none) (htrx : s.trxs = [x]) (hrun : x.phase = .running)
    (hundo : x.undo = []) (hpend : x.pending = none) :
    ∃ a, runSteps step s (commitLabels x.id) = some a ∧ a.tm.nextId = s.tm.nextId ∧
      a.tm.openSet = s.tm.openSet.filter (fun y => y ≠ x.id) := by
  let x₁ : Trx := { x with phase := .logged, targets := [] }
  let s₁ : Db := { s.putTrx x₁ with ever := x.id :: s.ever }
  let x₂ : Trx := { x₁ with phase := .counted }
  let s₂ : Db := { s₁.putTrx x₂ with tm := s₁.tm.bumpCommits }
  let x₃ : Trx := { x₂ with phase := .marked }
  let s₃ : Db := { s₂.putTrx x₃ with tm := s₂.tm.markCommitted x.id }
  have h₁ : s.step (.trx x.id .commitReadOnly) = some s₁ := by
    rw [step_only x _ hvac htrx]
    exact if_pos ⟨hrun, hpend, hundo⟩
  have t₁ : s₁.trxs = [x₁] := putTrx_only htrx rfl
  have h₂ : s₁.step (.trx x.id .commitCount) = some s₂ := step_only x₁ _ hvac t₁
  have t₂ : s₂.trxs = [x₂] := putTrx_only t₁ rfl
  have h₃ : s₂.step (.trx x.id .commitMark) = some s₃ := step_only x₂ _ hvac t₂
  have t₃ : s₃.trxs = [x₃] := putTrx_only t₂ rfl
  have h₄ : s₃.step (.trx x.id .commitFinish) =
      some { s₃.dropTrx x.id with tm := s₃.tm.removeOpen x.id } := step_only x₃ _ hvac t₃
  refine ⟨{ s₃.dropTrx x.id with tm := s₃.tm.removeOpen x.id }, ?_, rfl, rfl⟩
  simp only [commitLabels, runSteps, h₁, h₂, h₃, h₄]

/-- A version that nobody hides is seen by whoever sees its creator. -/
theorem seen_of_creator {c : Nat} (hc : c = 0 ∨ c = r ∨ snap.committedBefore full c = true)
    (hd : d = 0 ∨ (d ≠ r ∧ full.isCommitted d = false)) : snap.visible full r c d = true := by
  have hcr : (decide (c = 0) || decide (c = r) || snap.committedBefore full c) = true := by
    simp only [Bool.or_eq_true, decide_eq_true_eq, or_assoc]
    exact hc
  have hdel : (decide (d ≠ 0) && (decide (d = r) || snap.committedBefore full d)) = false := by
    rcases hd with hd | ⟨hne, hf⟩
    · simp only [hd, ne_eq, not_true_eq_false, decide_false, Bool.false_and]
    · simp only [Snapshot.committedBefore, hne, hf, decide_false, Bool.and_false, Bool.or_self]
  unfold Snapshot.visible
  simp only [hcr, hdel, Bool.not_false, Bool.and_self]

/-- Some later reader sees the version, if its creator is still to come or is the transaction that
    runs VACUUM. -/
theorem seen_of_not_ended (hvac : s'.vacuum = none) (htrx : s'.trxs = [x])
    (hrun : x.phase = .running) (hundo : x.undo = []) (hpend : x.pending = none)
    (hlt : x.id < s'.tm.nextId) (hpos : x.id ≠ 0)
    (hnot : ¬ (v.creator ≠ 0 ∧ v.creator < s'.tm.nextId ∧ v.creator ≠ x.id))
    (hmark : v.deleter = 0 ∨
      (s.tm.committed.isCommitted v.deleter = false ∧ v.deleter ≠ v.creator)) :
    ∃ r snap c full, Reads s' x.id s.tm.committed r snap c full ∧
      snap.visible full r v.creator v.deleter = true := by
  by_cases h0 : v.creator = 0
  · refine ⟨readOnlyTrxId, _, s', s.tm.committed, ⟨[], [], [], s', s', rfl, rfl, rfl, rfl, .inl
      rfl, rfl, rfl⟩, seen_of_creator (.inl h0) (hmark.imp_right ?_)⟩
    intro hm
    exact ⟨fun he => hm.2 (he.trans h0.symm), hm.1⟩
  · by_cases hc : v.creator = x.id
    · rcases commit_run hvac htrx hrun hundo hpend with ⟨a, ha, hn, ho⟩
      refine ⟨readOnlyTrxId, _, a, s.tm.committed.markCommitted x.id, ⟨commitLabels x.id, [], [], a,
        a, ?_, ha, rfl, rfl, .inl rfl, rfl, rfl⟩, seen_of_creator (.inr (.inr ?_)) ?_⟩
      · simp [commitLabels, orderly, orderlyStep, vacuumers, TrxAction.ends]
      · rw [committedBefore_iff, hc]
        refine ⟨by rw [hn]; exact hlt, ?_, (Clog.isCommitted_mark _ _ _).mpr (.inr ⟨rfl, hpos⟩)⟩
        intro hm
        rw [TransactionManager.mem_xip_iff, ho, mem_filter] at hm
        exact absurd rfl (of_decide_eq_true hm.2)
      · by_cases hd0 : v.deleter = 0
        · exact .inl hd0
        rcases hmark with hm | hm
        · exact .inl hm
        refine .inr ⟨hd0, ?_⟩
        rw [← Bool.not_eq_true, Clog.isCommitted_mark]
        intro hcm
        rcases hcm with hcm | hcm
        · cases hm.1.symm.trans hcm
        · exact hm.2 (hcm.1.trans hc.symm)
    · have hge : s'.tm.nextId ≤ v.creator := by
        by_contra hlt'
        exact hnot ⟨h0, by omega, hc⟩
      rcases begins_run (v.creator + 1 - s'.tm.nextId) s' hvac with ⟨a, ha, _⟩
      have hb := begins_orderly (v.creator + 1 - s'.tm.nextId) [x.id] s.tm.committed
      refine ⟨v.creator, _, a, s.tm.committed, ⟨replicate (v.creator + 1 - s'.tm.nextId) .begin, [],
        [], a, a, ?_, ha, rfl, rfl, .inr ⟨hge, by omega⟩, rfl, ?_⟩, ?_⟩
      · rw [append_nil, append_nil]
        exact hb.1
      · rw [append_nil, append_nil]
        exact hb.2.symm
      · exact seen_of_creator (.inr (.inl rfl)) (hmark.imp_right (fun hm => ⟨hm.2, hm.1⟩))

theorem inVacuum_quiet (js : List Nat) (c : Clog) (h : ∀ l ∈ vs, inVacuum l = true) :
    orderly js vs = true ∧ vs.foldl vacuumers js = js ∧ keepAll c vs = c := by
  induction vs with
  | nil => exact ⟨rfl, rfl, rfl⟩
  | cons l _ ih =>
    rcases ih (forall_mem_cons.mp h).2 with ⟨h₁, h₂, h₃⟩
    have hl := h l mem_cons_self
    cases l <;> first
      | exact ⟨h₁, h₂, h₃⟩
      | simp [inVacuum] at hl

/-- Before any horizon is moved there is nothing to compare. -/
theorem keeps_start (hok : StatusOk s) (hv : s.vacuum = none) (htrxs : s.trxs = [x])
    (hunc : s.tm.committed.isCommitted x.id = false) : Keeps s s.tm.committed [] := by
  have hbelow : ∀ y, y ≠ 0 → y < s.tm.committed.base → s.tm.committed.isCommitted y = true :=
    fun y h0 hlt => (Clog.isCommitted_iff _ _).mpr ⟨h0, .inl hlt⟩
  have hknown : ∀ y, Known s.tm.committed s.tm.committed.base y := by
    intro y
    by_cases h0 : y = 0
    · exact .inl h0
    · by_cases hlt : y < s.tm.committed.base
      · exact .inr (.inl (hbelow y h0 hlt))
      · exact .inr (.inr (by omega))
  refine ⟨hok, ?_, fun _ _ v _ => ⟨hknown _, hknown _⟩, fun _ _ u _ => hknown _, ?_,
    fun hne => absurd hv hne, ?_⟩
  · intro y
    exact ⟨.inl, fun hy => hy.elim (fun hy => hy) (fun hy => hbelow y hy.1 hy.2)⟩
  · intro y hy
    have hy0 := (hok.inv.trx_lt y hy).1
    rw [htrxs, mem_singleton] at hy
    rw [hy] at hy0 ⊢
    refine .inl ?_
    by_contra hlt
    rw [hbelow x.id (by omega) (by omega)] at hunc
    cases hunc
  · intro _ hwork
    cases hv.symm.trans hwork

/-- What VACUUM removed is invisible later. -/
theorem removed_unseen (hok : StatusOk s) (hunc : s.tm.committed.isCommitted id = false)
    (hown : r = readOnlyTrxId ∨ s.tm.nextId ≤ r)
    (hfull : ∀ y, y < s.tm.nextId → y ≠ id → full.isCommitted y = s.tm.committed.isCommitted y)
    (hmax : s.tm.nextId ≤ snap.xmax) (hxip : ∀ y ∈ snap.xip, y = id ∨ s.tm.nextId ≤ y)
    (hdead : s.tm.committed.isCommitted v.creator = false ∨
      (v.deleter ≠ 0 ∧ s.tm.committed.isCommitted v.deleter = true))
    (hend : s.tm.committed.isCommitted v.creator = false →
      (v.creator ≠ 0 ∧ v.creator < s.tm.nextId ∧ v.creator ≠ id) ∨
      (v.deleter ≠ 0 ∧ (s.tm.committed.isCommitted v.deleter = true ∨ v.deleter = v.creator))) :
    snap.visible full r v.creator v.deleter = false := by
  have hdel : v.deleter ≠ 0 → s.tm.committed.isCommitted v.deleter = true →
      snap.visible full r v.creator v.deleter = false := by
    intro h0 hd
    refine unseen_of_deleted r _ hfull hmax hxip hd (hok.now _ hd) ?_ h0
    intro he
    rw [he, hunc] at hd
    cases hd
  rcases hdead with hc | ⟨h0, hd⟩
  · rcases hend hc with ⟨h0, hlt, hne⟩ | ⟨h0, hd | hd⟩
    · exact unseen_of_ended snap _ hown hfull hc h0 hlt hne
    · exact hdel h0 hd
    · -- whoever sees the creator sees its mark
      rw [hd] at h0 ⊢
      simp [-Bool.not_or, Snapshot.visible, h0]
  · exact hdel h0 hd

/-- A committed table. -/
def tableMade : List Label := [.begin, .createTable 1 .row] ++ commitLabels 1

/-- Transaction 2 inserts a row and commits, transaction 3 deletes it and
    commits, and transaction 4 is about to run VACUUM. -/
def deletedRow : List Label :=
  tableMade ++ [.begin, .trx 2 (.insert 0 1 [.int 7]), .trx 2 .commitAppend, .trx 2 .commitRecord,
    .trx 2 .commitCount, .trx 2 .commitMark, .trx 2 .commitFinish, .begin, .trx 3 .loadNextId,
    .trx 3 .readOpen, .trx 3 (.scan 0 ⟨1, 0⟩), .trx 3 (.deleteMark 0 ⟨1, 0⟩),
    .trx 3 .commitAppend, .trx 3 .commitRecord, .trx 3 .commitCount, .trx 3 .commitMark,
    .trx 3 .commitFinish, .begin]

/-- Transaction 3 inserts a row, its page reaches the disk, and the process dies. Ids are handed out
    from 2 again, and transaction 2 is about to run VACUUM. -/
def orphanRow : List Label :=
  tableMade ++ [.begin, .begin, .trx 3 (.insert 0 1 [.int 7]), .writeBack 0 1, .crash, .begin]

end ChibiDb.VacuumVisibility
