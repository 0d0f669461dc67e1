import ChibiDb.Theory.SessionRows

/-!
# The Few Things a Step Does to Versions

A transaction has some forty kinds of steps, but to the stored versions, the
undo lists and the commit status only eight things happen: nothing, an insert,
the two halves of an update, a delete mark, taking a version back, taking a
mark back, and a commit. Invariants about versions are proved over these.

What a statement has picked is the other side: it only grows by a version that
is visible at that moment.

## Main definitions

* `Moved`, `Dropped`: One transaction becomes another, or goes away.
* `Effect`: What a step does to versions.
* `SlotFate`: What it does to one version.
* `Picks`: What a step does to the versions a statement has picked.

## Theorems

* `effect_of_step`: Every step of a transaction has one of the effects.
* `picks_of_step`: Where the versions a statement has picked come from.
* `stored_of_effect`, `stored_kept`: Stored versions, after a step and before.
* `undo_of_effect`, `undo_kept`: Marks in the undo list, after and before.
-/

namespace ChibiDb

open List Option

/-- What is left of a write to take back once the version it made is gone. -/
def Undo.leftover : Undo → List Undo
  | .update f old _ _ d n => [.deleteMark f old d n]
  | _ => []

/-- The forward pointer an undo entry puts back. -/
def Undo.prevNext : Undo → Nat
  | .insert .. => 0
  | .deleteMark _ _ _ n => n
  | .update _ _ _ _ _ n => n

namespace Sessions

/-- Transaction `x` becomes `y`. -/
structure Moved (s s' : Sessions) (x y : TrxState) : Prop where
  trxs : s'.trxs = (s.putTrx y).trxs
  id : y.id = x.id
  nextId : s'.tm.nextId = s.tm.nextId
  isolation : s'.isolation = s.isolation
  indexes : s'.indexes = s.indexes
  counted : ∀ m, s.Counted m → s'.Counted m

/-- Transaction `x` goes away. -/
structure Dropped (s s' : Sessions) (x : TrxState) : Prop where
  trxs : s'.trxs = (s.dropTrx x.id).trxs
  tm : s'.tm = s.tm
  isolation : s'.isolation = s.isolation
  indexes : s'.indexes = s.indexes
  heap : s'.heap = s.heap
  index : s'.index = s.index
  kills : s'.kills = s.kills
  hasEnded : x.stage = .ended ∨ x.stage = .committed

/-- Nobody commits. -/
def SameFate (s s' : Sessions) : Prop :=
  s'.tm.committed = s.tm.committed ∧ s'.kills = s.kills

/-- What a step of `x`, which becomes `y`, does to versions. -/
inductive Effect (s s' : Sessions) (x y : TrxState) : Prop where
  | still (hheap : s'.heap = s.heap) (hfate : SameFate s s') (hundo : y.undo = x.undo)
      (hpend : y.pending = x.pending)
      (hcommit : y.stage = .committed ↔ x.stage = .committed)
      (hended : y.stage = .ended → x.stage = .ended ∨ x.undo = [])
      (hchecked : y.stage = .checked → y.snapshot = x.snapshot ∧
        (x.stage = .checked ∨ s.isolation = .readCommitted ∨
          ∀ u ∈ x.undo, s.entryPasses x u = true))
  | insert (f : Nat) (rid : Rid) (row : Row)
      (hheap : s'.heap = s.heap.setSlot f rid (some ⟨x.id, 0, 0, row⟩)) (hfate : SameFate s s')
      (hrun : x.stage = .running) (hrun' : y.stage = .running)
      (hfree : s.heap.get f rid = none) (hundo : y.undo = .insert f rid row :: x.undo)
      (hpend : x.pending = none) (hpend' : y.pending = none)
  | version (f : Nat) (old new : Rid) (row : Row) (v : Version) (st : Statement)
      (hheap : s'.heap = s.heap.setSlot f new (some ⟨x.id, 0, 0, row⟩)) (hfate : SameFate s s')
      (hrun : x.stage = .running) (hrun' : y.stage = .running)
      (hfree : s.heap.get f new = none) (hundo : y.undo = x.undo) (hpend : x.pending = none)
      (hpend' : y.pending = some ⟨f, old, new, row⟩) (hstmt : x.stmt = some st)
      (htable : st.table = f) (hclaim : old ∈ st.claims) (hv : s.heap.get f old = some v)
      (hnoconf : s.isolation = .readCommitted → s.rowWasConcurrentlyModified x v = false)
  | mark (f : Nat) (rid : Rid) (v : Version) (st : Statement)
      (hheap : s'.heap = s.heap.setSlot f rid (some { v with deleter := x.id, nextRid := 0 }))
      (hfate : SameFate s s') (hrun : x.stage = .running) (hrun' : y.stage = .running)
      (hv : s.heap.get f rid = some v) (hlock : (.row f rid, x.id) ∈ s.locks)
      (hnot : (f, rid) ∉ x.marks)
      (hundo : y.undo = .deleteMark f rid v.deleter v.nextRid :: x.undo)
      (hpend : x.pending = none) (hpend' : y.pending = none) (hstmt : x.stmt = some st)
      (htable : st.table = f) (hclaim : rid ∈ st.claims)
      (hnoconf : s.isolation = .readCommitted → s.rowWasConcurrentlyModified x v = false)
  | link (p : PendingUpdate) (v : Version)
      (hheap : s'.heap = s.heap.setSlot p.fileNo p.oldRid
        (some { v with deleter := x.id, nextRid := packRid p.newRid }))
      (hfate : SameFate s s') (hrun : x.stage = .running) (hrun' : y.stage = .running)
      (hv : s.heap.get p.fileNo p.oldRid = some v)
      (hundo : y.undo =
        .update p.fileNo p.oldRid p.newRid p.newRow v.deleter v.nextRid :: x.undo)
      (hpend : x.pending = some p) (hpend' : y.pending = none)
  | clear (f : Nat) (rid : Rid) (v : Version) (u : Undo) (rest : List Undo)
      (hheap : s'.heap = s.heap.setSlot f rid none) (hfate : SameFate s s')
      (hst : x.stage ≠ .checked) (hst' : x.stage ≠ .committed) (hstage : y.stage = x.stage)
      (hv : s.heap.get f rid = some v) (hcreator : v.creator = x.id)
      (hcreated : u.created = some (f, rid)) (hx : x.undo = u :: rest)
      (hundo : y.undo = u.leftover ++ rest)
      (hpend : x.pending = none) (hpend' : y.pending = none)
  | restore (f : Nat) (rid : Rid) (v : Version) (d n : Nat) (rest : List Undo)
      (hheap : s'.heap = s.heap.setSlot f rid (some { v with deleter := d, nextRid := n }))
      (hfate : SameFate s s') (hst : x.stage ≠ .checked) (hst' : x.stage ≠ .committed)
      (hstage : y.stage = x.stage) (hv : s.heap.get f rid = some v)
      (hx : x.undo = .deleteMark f rid d n :: rest) (hundo : y.undo = rest)
      (hpend : x.pending = none) (hpend' : y.pending = none)
  | commit (hheap : s'.heap = s.heap) (hclog : s'.tm.committed = s.tm.committed.markCommitted x.id)
      (hkills : s'.kills = x.marks.map (fun e => (e, x.id)) ++ s.kills) (hst : x.stage = .checked)
      (hst' : y.stage = .committed) (hsnap : y.snapshot = x.snapshot) (hundo : y.undo = x.undo)
      (hpend : x.pending = none) (hpend' : y.pending = none)

variable {s s' : Sessions} {x y z : TrxState} {a : SessionAction} {g : Nat} {r : Rid}
  {e : Nat × Rid}

/-- Most steps: the stage is the same, or neither is one that is looked at. -/
theorem effect_still (hheap : s'.heap = s.heap) (hfate : SameFate s s') (hundo : y.undo = x.undo)
    (hpend : y.pending = x.pending) (hstage : y.stage = x.stage)
    (hsnap : x.stage ≠ .running → y.snapshot = x.snapshot) : Effect s s' x y := by
  refine .still hheap hfate hundo hpend (by rw [hstage]) ?_ ?_
  · intro he
    exact .inl (hstage ▸ he)
  intro hc
  rw [hstage] at hc
  refine ⟨hsnap ?_, .inl hc⟩
  exact hc.trans_ne nofun

theorem effect_move (hheap : s'.heap = s.heap) (hfate : SameFate s s') (hundo : y.undo = x.undo)
    (hpend : y.pending = x.pending) (hfrom : x.stage ≠ .committed)
    (hto : y.stage ≠ .committed ∧ y.stage ≠ .checked) (hended : y.stage = .ended → x.undo = []) :
    Effect s s' x y :=
  .still hheap hfate hundo hpend ⟨fun hc => absurd hc hto.1, fun hc => absurd hc hfrom⟩
    (fun he => .inr (hended he)) (fun hc => absurd hc hto.2)

/-- Every step moves its transaction with a stated effect, or drops it. -/
theorem effect_of_step (h : Rows s) (hx : x ∈ s.trxs) (hstep : SessionStep s x a s') :
    (∃ y, Moved s s' x y ∧ Effect s s' x y) ∨ Dropped s s' x := by
  have hok := h.trx x hx
  have hset : ∀ m, s.Counted m → s.Counted m := fun m hm => hm
  cases hstep with
  | removeOpen | closeCommitted =>
    exact .inl ⟨_, ⟨rfl, rfl, rfl, rfl, rfl, counted_removeOpen rfl⟩,
      effect_still rfl ⟨rfl, rfl⟩ rfl rfl rfl (fun _ => rfl)⟩
  | readOpen _ _ hst =>
    refine .inl ⟨_, ⟨rfl, rfl, rfl, rfl, rfl, hset⟩, effect_still rfl ⟨rfl, rfl⟩ rfl rfl rfl ?_⟩
    exact fun hne => absurd hst hne
  | storeInsert rid st row _ _ hst _ hp _ hfree =>
    exact .inl ⟨_, ⟨rfl, rfl, rfl, rfl, rfl, hset⟩,
      .insert st.table rid row rfl ⟨rfl, rfl⟩ hst hst hfree rfl hp hp⟩
  | storeVersion rid row new st v hstmt hv hst _ hp _ hplan _ hnoconf hfree =>
    have hclaim : rid ∈ st.claims :=
      (st.mem_claims rid).mpr (.inr (.inl (mem_map_of_mem hplan)))
    exact .inl ⟨_, ⟨rfl, rfl, rfl, rfl, rfl, hset⟩, .version st.table rid new row v st rfl ⟨rfl,
      rfl⟩ hst hst hfree rfl hp rfl hstmt rfl hclaim hv hnoconf⟩
  | storeDeleteMark rid st v hstmt hv hst _ hp _ hrid hlock hnoconf =>
    have hclaim : rid ∈ st.claims := (st.mem_claims rid).mpr (.inl hrid)
    have hnot := ((hok.stmt st hstmt hst).writable rid hclaim).1
    exact .inl ⟨_, ⟨rfl, rfl, rfl, rfl, rfl, hset⟩, .mark st.table rid v st rfl ⟨rfl, rfl⟩ hst hst
      hv hlock hnot rfl hp hp hstmt rfl hclaim hnoconf⟩
  | linkVersion p v hp hv hst =>
    exact .inl ⟨_, ⟨rfl, rfl, rfl, rfl, rfl, hset⟩, .link p v rfl ⟨rfl, rfl⟩ hst hst hv rfl hp rfl⟩
  | failStatement _ hst | endUndo _ _ _ hst | ssiCheck hst =>
    refine .inl ⟨_, ⟨rfl, rfl, rfl, rfl, rfl, hset⟩, effect_move rfl ⟨rfl, rfl⟩ rfl rfl ?_
      ⟨nofun, nofun⟩ nofun⟩
    exact hst.trans_ne nofun
  | undoInsert f rid row rest v _ hable hu hv =>
    have hst := Rows.stage_of_undoable hable
    have hpn := Rows.pending_none_of_stage h hx hst.1
    have hvc := Rows.creator_of_undo h hx (hu ▸ mem_cons_self) rfl hv
    exact .inl ⟨_, ⟨rfl, rfl, rfl, rfl, rfl, hset⟩, .clear f rid v (.insert f rid row) rest rfl
      ⟨rfl, rfl⟩ hst.2.2 hst.2.1 rfl hv hvc rfl hu rfl hpn hpn⟩
  | undoMark f rid d n rest v _ hable hu hv =>
    have hst := Rows.stage_of_undoable hable
    have hpn := Rows.pending_none_of_stage h hx hst.1
    exact .inl ⟨_, ⟨rfl, rfl, rfl, rfl, rfl, hset⟩,
      .restore f rid v d n rest rfl ⟨rfl, rfl⟩ hst.2.2 hst.2.1 rfl hv hu rfl hpn hpn⟩
  | undoUpdate f old new row d n rest v _ hable hu hv =>
    have hst := Rows.stage_of_undoable hable
    have hpn := Rows.pending_none_of_stage h hx hst.1
    have hvc := Rows.creator_of_undo h hx (hu ▸ mem_cons_self) rfl hv
    exact .inl ⟨_, ⟨rfl, rfl, rfl, rfl, rfl, hset⟩, .clear f new v (.update f old new row d n) rest
      rfl ⟨rfl, rfl⟩ hst.2.2 hst.2.1 rfl hv hvc rfl hu rfl hpn hpn⟩
  | rollback hst =>
    refine .inl ⟨_, ⟨rfl, rfl, rfl, rfl, rfl, hset⟩, effect_move rfl ⟨rfl, rfl⟩ rfl rfl ?_
      ⟨nofun, nofun⟩ nofun⟩
    rcases hst with ⟨hst, _⟩ | hst | hst <;> rw [hst] <;> exact nofun
  | finishUndo hst hu =>
    refine .inl ⟨_, ⟨rfl, rfl, rfl, rfl, rfl, hset⟩, effect_move rfl ⟨rfl, rfl⟩ rfl rfl ?_
      ⟨nofun, nofun⟩ (fun _ => hu)⟩
    exact hst.trans_ne nofun
  | checkConflicts hst hpass =>
    refine .inl ⟨_, ⟨rfl, rfl, rfl, rfl, rfl, hset⟩, .still rfl ⟨rfl, rfl⟩ rfl rfl ?_
      Stage.noConfusion (fun _ => ⟨rfl, .inr hpass⟩)⟩
    rw [hst]
    exact ⟨nofun, nofun⟩
  | markCommitted hst =>
    have hpn := Rows.pending_none_of_stage h hx (hst.trans_ne nofun)
    exact .inl ⟨_, ⟨rfl, rfl, rfl, rfl, rfl, counted_markCommitted rfl⟩,
      .commit rfl rfl rfl hst rfl rfl rfl hpn hpn⟩
  | dropAborted hst => exact .inr ⟨rfl, rfl, rfl, rfl, rfl, rfl, rfl, .inl hst⟩
  | dropCommitted hst => exact .inr ⟨rfl, rfl, rfl, rfl, rfl, rfl, rfl, .inr hst⟩
  | lockRow =>
    refine .inl ⟨x, ⟨?_, rfl, rfl, rfl, rfl, hset⟩,
      effect_still rfl ⟨rfl, rfl⟩ rfl rfl rfl (fun _ => rfl)⟩
    exact (putTrx_self (fun y hy hid => Books.eq_of_id h.books hy hx hid)).symm
  | _ =>
    exact .inl ⟨_, ⟨rfl, rfl, rfl, rfl, rfl, hset⟩,
      effect_still rfl ⟨rfl, rfl⟩ rfl rfl rfl (fun _ => rfl)⟩

/-- A version the statement of `y` has picked was picked before, under the same
    snapshot, or is visible. -/
def Picks (s : Sessions) (x y : TrxState) : Prop :=
  y.stage = .running → ∀ st', y.stmt = some st' → ∀ r ∈ st'.claims,
    ∃ st, x.stage = .running ∧ x.stmt = some st ∧ st.table = st'.table ∧
      y.snapshot = x.snapshot ∧
      (r ∈ st.claims ∨
        ∃ v, s.heap.get st.table r = some v ∧ x.visible s.tm.committed v = true)

/-- Membership after a transaction has moved. -/
theorem Moved.cases (h : Moved s s' x y) (hz : z ∈ s'.trxs) :
    z = y ∨ (z ∈ s.trxs ∧ z.id ≠ x.id) := by
  rw [h.trxs] at hz
  exact (s.mem_putTrx hz).imp_right (fun hz => ⟨hz.1, h.id ▸ hz.2⟩)

theorem Moved.self (h : Moved s s' x y) (hx : x ∈ s.trxs) : y ∈ s'.trxs := by
  rw [h.trxs]
  exact s.mem_putTrx_self hx h.id

theorem Moved.other (h : Moved s s' x y) (hz : z ∈ s.trxs) (hne : z.id ≠ x.id) : z ∈ s'.trxs := by
  rw [h.trxs]
  exact s.mem_putTrx_of_ne hz (h.id.symm ▸ hne)

theorem Dropped.mem (h : Dropped s s' x) (hz : z ∈ s'.trxs) : z ∈ s.trxs := by
  rw [h.trxs, mem_dropTrx] at hz
  exact hz.1

theorem moved_ne_dropTrx (hx : x ∈ s.trxs) (hm : Moved s s' x y) :
    s'.trxs ≠ (s.dropTrx x.id).trxs := by
  intro h
  have hy := hm.self hx
  rw [h, mem_dropTrx] at hy
  exact hy.2 hm.id

theorem moved_unique (hx : x ∈ s.trxs) (h : Moved s s' x y)
    (htrxs : s'.trxs = (s.putTrx z).trxs) (hid : z.id = x.id) : y = z := by
  have hy := h.self hx
  rw [htrxs] at hy
  exact (s.mem_putTrx hy).resolve_right (fun hne => hne.2 (h.id.trans hid.symm))

/-- The transactions are what they were. -/
theorem moved_self (hb : Books s) (hx : x ∈ s.trxs) (h : Moved s s' x y)
    (htrxs : s'.trxs = s.trxs) : y = x :=
  moved_unique hx h (htrxs.trans (putTrx_self (fun _ hy => hb.eq_of_id hy hx)).symm) rfl

theorem picks_same (s : Sessions) (hstmt : y.stmt = x.stmt) (hstage : y.stage = x.stage)
    (hsnap : y.snapshot = x.snapshot) : Picks s x y := by
  intro hrun st hst _ hr
  exact ⟨st, hstage ▸ hrun, hstmt ▸ hst, rfl, hsnap, .inl hr⟩

theorem picks_none (s : Sessions) (x : TrxState) (hstmt : y.stmt = none ∨ y.stage ≠ .running) :
    Picks s x y := by
  intro hrun _ hst _ _
  rcases hstmt with hn | hn
  · cases hn.symm.trans hst
  · exact absurd hrun hn

theorem picks_advance (s : Sessions) {st st' : Statement} (hrun : x.stage = .running)
    (hxst : x.stmt = some st) (hyst : y.stmt = some st') (htable : st'.table = st.table)
    (hsnap : y.snapshot = x.snapshot) (hclaims : ∀ r ∈ st'.claims, r ∈ st.claims) :
    Picks s x y := by
  intro _ _ hst0 r hr
  rw [hyst, some.injEq] at hst0
  rw [← hst0] at hr ⊢
  exact ⟨st, hrun, hxst, htable.symm, hsnap, .inl (hclaims r hr)⟩

/-- What a step lets its statement pick. -/
theorem picks_of_step (hx : x ∈ s.trxs) (hstep : SessionStep s x a s') (hm : Moved s s' x y)
    (hb : Books s) : Picks s x y := by
  cases hstep with
  | readOpen _ _ _ hstmt =>
    rw [moved_unique hx hm rfl rfl]
    exact picks_none s x (.inl hstmt)
  | startStatement =>
    rw [moved_unique hx hm rfl rfl]
    intro _ st hst' r hr
    rw [some.injEq] at hst'
    rw [← hst'] at hr
    cases hr
  | pick _ st v _ hstmt hst _ hv hvis =>
    rw [moved_unique hx hm rfl rfl]
    intro _ _ hst' r hr
    rw [some.injEq] at hst'
    rw [← hst', Statement.mem_claims] at hr
    refine ⟨st, hst, hstmt, hst' ▸ rfl, rfl, ?_⟩
    rw [Statement.mem_claims]
    rcases hr with hr | hr
    · rcases mem_cons.mp hr with rfl | hr
      · exact .inr ⟨v, hv, hvis⟩
      · exact .inl (.inl hr)
    · exact .inl (.inr hr)
  | beginCheck _ _ _ hstmt hst _ _ _ _ hex | beginCheckNote _ _ _ hstmt hst _ _ _ _ hex =>
    rw [moved_unique hx hm rfl rfl]
    exact picks_advance s hst hstmt rfl rfl rfl
      (Rows.claims_beginCheck (fun r hr => (hex r hr).1))
  | claimKey st _ _ _ _ hstmt hchk hst | search st _ _ _ _ hstmt hchk hst
  | examine st _ _ _ _ _ hstmt hchk hst | nextIndex st _ _ _ _ hstmt hchk hst
  | endCheckInsert st _ hstmt hchk hst =>
    rw [moved_unique hx hm rfl rfl]
    exact picks_advance s hst hstmt rfl rfl rfl
      (st.claims_congr rfl rfl (st.excluded_of_check hchk).symm)
  | endCheckUpdate st _ _ hstmt hchk hst =>
    rw [moved_unique hx hm rfl rfl]
    exact picks_advance s hst hstmt rfl rfl rfl (Rows.claims_endCheck (st.excluded_of_check hchk))
  | noteWrite _ hstmt hst | storeInsert _ _ _ hstmt _ hst =>
    rw [moved_unique hx hm rfl rfl]
    exact picks_advance s hst hstmt rfl rfl rfl (fun r hr => hr)
  | lockRow =>
    rw [moved_self hb hx hm rfl]
    exact picks_same s rfl rfl rfl
  | storeDeleteMark _ _ _ hstmt _ hst =>
    rw [moved_unique hx hm rfl rfl]
    exact picks_advance s hst hstmt rfl rfl rfl Rows.claims_delete
  | storeVersion _ _ _ _ _ hstmt _ hst =>
    rw [moved_unique hx hm rfl rfl]
    exact picks_advance s hst hstmt rfl rfl rfl Rows.claims_version
  | endStatement | endUndo =>
    rw [moved_unique hx hm rfl rfl]
    exact picks_none s x (.inl rfl)
  | failStatement | rollback | finishUndo | ssiCheck | checkConflicts | markCommitted =>
    rw [moved_unique hx hm rfl rfl]
    exact picks_none s x (.inr nofun)
  | dropAborted | dropCommitted => exact (moved_ne_dropTrx hx hm rfl).elim
  | _ =>
    rw [moved_unique hx hm rfl rfl]
    exact picks_same s rfl rfl rfl

section

variable (he : Effect s s' x y)
include he

/-- Where a stored version and its marker come from. -/
theorem stored_of_effect {w : Version} (hw : s'.heap.get g r = some w) :
    (∃ v, s.heap.get g r = some v ∧ v.creator = w.creator ∧ v.deleter = w.deleter) ∨
      (s.heap.get g r = none ∧ w.creator = x.id ∧ w.deleter = 0 ∧ x.stage = .running) ∨
      (∃ v, s.heap.get g r = some v ∧ v.creator = w.creator ∧ w.deleter = x.id ∧
        x.stage = .running) ∨
      ∃ v, s.heap.get g r = some v ∧ v.creator = w.creator ∧ x.stage ≠ .committed ∧
        ∃ u ∈ x.undo, u.marked = some (g, r) ∧ u.prevDeleter = w.deleter := by
  cases he with
  | still hheap | commit hheap => exact .inl ⟨w, hheap ▸ hw, rfl, rfl⟩
  | insert _ _ _ hheap _ hrun _ hfree | version _ _ _ _ _ _ hheap _ hrun _ hfree =>
    rw [hheap] at hw
    rcases Heap.get_setSlot_cases hw with ⟨rfl, rfl, hs⟩ | ⟨_, hw⟩
    · cases hs
      exact .inr (.inl ⟨hfree, rfl, rfl, hrun⟩)
    · exact .inl ⟨w, hw, rfl, rfl⟩
  | mark _ _ v _ hheap _ hrun _ hv | link _ v hheap _ hrun _ hv =>
      rw [hheap] at hw
      rcases Heap.get_setSlot_cases hw with ⟨rfl, rfl, hs⟩ | ⟨_, hw⟩
      · cases hs
        exact .inr (.inr (.inl ⟨v, hv, rfl, rfl, hrun⟩))
      · exact .inl ⟨w, hw, rfl, rfl⟩
  | clear _ _ _ _ _ hheap =>
    rw [hheap] at hw
    rcases Heap.get_setSlot_cases hw with ⟨_, _, hs⟩ | ⟨_, hw⟩
    · cases hs
    · exact .inl ⟨w, hw, rfl, rfl⟩
  | restore _ _ v _ _ _ hheap _ _ hst' _ hv hx =>
    rw [hheap] at hw
    rcases Heap.get_setSlot_cases hw with ⟨rfl, rfl, hs⟩ | ⟨_, hw⟩
    · cases hs
      exact .inr (.inr (.inr ⟨v, hv, rfl, hst', _, by rw [hx]; exact mem_cons_self,
        rfl, rfl⟩))
    · exact .inl ⟨w, hw, rfl, rfl⟩

/-- What a step of `x`, which becomes `y`, does to the version `v` that is stored at `e`. -/
inductive SlotFate (s s' : Sessions) (x y : TrxState) (e : Nat × Rid) (v : Version) : Prop where
  | same (hv : s'.heap.get e.1 e.2 = some v)
  | marked (u : Undo) (n : Nat)
      (hv : s'.heap.get e.1 e.2 = some { v with deleter := x.id, nextRid := n })
      (hrun : x.stage = .running) (hrun' : y.stage = .running) (hundo : y.undo = u :: x.undo)
      (hu : u.marked = some e) (hprev : u.prevDeleter = v.deleter ∧ u.prevNext = v.nextRid)
      (hlock : (.row e.1 e.2, x.id) ∈ s.locks ∨
        ∃ p, x.pending = some p ∧ (p.fileNo, p.oldRid) = e)
  | cleared (u : Undo) (rest : List Undo) (hv : s'.heap.get e.1 e.2 = none)
      (hcreator : v.creator = x.id) (hst : x.stage ≠ .committed) (hcreated : u.created = some e)
      (hx : x.undo = u :: rest) (hundo : y.undo = u.leftover ++ rest) (hpend : y.pending = none)
  | restored (d n : Nat) (hv : s'.heap.get e.1 e.2 = some { v with deleter := d, nextRid := n })
      (hst : x.stage ≠ .committed) (hx : x.undo = .deleteMark e.1 e.2 d n :: y.undo)

/-- The fate of an occupied slot follows from the effect of the step. -/
theorem slotFate_of_effect {v : Version} (hv : s.heap.get e.1 e.2 = some v) :
    SlotFate s s' x y e v := by
  have hset : ∀ (f : Nat) (rid : Rid) (o : Option Version), s'.heap = s.heap.setSlot f rid o →
      (e = (f, rid) → SlotFate s s' x y e v) → SlotFate s s' x y e v := by
    intro f rid o hheap hat
    by_cases hef : e = (f, rid)
    · exact hat hef
    · exact .same (by rw [hheap, Heap.get_setSlot_ne _ _ hef, hv])
  cases he with
  | still hheap | commit hheap => exact .same (hheap ▸ hv)
  | insert _ _ _ hheap _ _ _ hfree | version _ _ _ _ _ _ hheap _ _ _ hfree =>
    exact .same (by rw [hheap]; exact Rows.get_setSlot_of_free _ hfree hv)
  | mark f rid _ _ hheap _ hrun hrun' hw hl _ hundo =>
    refine hset f rid _ hheap ?_
    rintro rfl
    cases hw.symm.trans hv
    exact .marked _ 0 (by rw [hheap, Heap.get_setSlot_self]) hrun hrun' hundo rfl ⟨rfl, rfl⟩
      (.inl hl)
  | link p _ hheap _ hrun hrun' hw hundo hpend =>
    refine hset _ _ _ hheap ?_
    rintro rfl
    cases hw.symm.trans hv
    exact .marked _ _ (by rw [hheap, Heap.get_setSlot_self]) hrun hrun' hundo rfl ⟨rfl, rfl⟩
      (.inr ⟨p, hpend, rfl⟩)
  | clear f rid _ u rest hheap _ _ hst' _ hw hcreator hcreated hx hundo _ hpend' =>
    refine hset f rid _ hheap ?_
    rintro rfl
    cases hw.symm.trans hv
    exact .cleared u rest (by rw [hheap, Heap.get_setSlot_self]) hcreator hst' hcreated hx hundo
      hpend'
  | restore f rid _ d n _ hheap _ _ hst' _ hw hx hundo =>
    refine hset f rid _ hheap ?_
    rintro rfl
    cases hw.symm.trans hv
    exact .restored d n (by rw [hheap, Heap.get_setSlot_self]) hst' (hundo ▸ hx)

/-- What becomes of a stored version: its marker stays, or is overwritten and kept in the undo list,
    or is replaced by the one kept there; or the version goes away with the transaction that made
    it. -/
theorem stored_kept {v : Version} (hv : s.heap.get g r = some v) :
    (∃ w, s'.heap.get g r = some w ∧ w.creator = v.creator ∧
      (w.deleter = v.deleter ∨ ((g, r) ∈ x.marks ∧ x.stage ≠ .committed) ∨
        (y.stage = .running ∧
          ∃ u ∈ y.undo, u.marked = some (g, r) ∧ u.prevDeleter = v.deleter))) ∨
      (v.creator = x.id ∧ x.stage ≠ .committed) := by
  cases slotFate_of_effect (e := (g, r)) he hv with
  | same h => exact .inl ⟨v, h, rfl, .inl rfl⟩
  | marked u _ h _ hrun' hundo hu hprev =>
    exact .inl ⟨_, h, rfl, .inr (.inr ⟨hrun', u, hundo ▸ mem_cons_self, hu, hprev.1⟩)⟩
  | cleared _ _ _ hcreator hst => exact .inr ⟨hcreator, hst⟩
  | restored _ _ h hst hx =>
    refine .inl ⟨_, h, rfl, .inr (.inl ⟨?_, hst⟩)⟩
    exact (Rows.mem_marks_iff x _).mpr ⟨_, hx ▸ mem_cons_self, rfl⟩

/-- Where the marks in the undo list come from. -/
theorem undo_of_effect {u : Undo} (hu : u ∈ y.undo) (hmark : u.marked = some e) :
    (∃ o ∈ x.undo, o.marked = some e ∧ o.prevDeleter = u.prevDeleter) ∨
      (x.stage = .running ∧
        ∃ v, s.heap.get e.1 e.2 = some v ∧ u.prevDeleter = v.deleter ∧
          ((∃ st, x.stmt = some st ∧ st.table = e.1 ∧ e.2 ∈ st.claims ∧
              (s.isolation = .readCommitted → s.rowWasConcurrentlyModified x v = false)) ∨
            ∃ p, x.pending = some p ∧ (p.fileNo, p.oldRid) = e)) := by
  cases he with
  | still _ _ hundo | commit _ _ _ _ _ _ hundo | version _ _ _ _ _ _ _ _ _ _ _ hundo =>
    exact .inl ⟨u, hundo ▸ hu, hmark, rfl⟩
  | insert _ _ _ _ _ _ _ _ hundo =>
    rw [hundo] at hu
    rcases mem_cons.mp hu with rfl | hu
    · simp [Undo.marked] at hmark
    · exact .inl ⟨u, hu, hmark, rfl⟩
  | mark _ _ v st _ _ hrun _ hv _ _ hundo _ _ hstmt htable hclaim hnoconf =>
      rw [hundo] at hu
      rcases mem_cons.mp hu with rfl | hu
      · simp only [Undo.marked] at hmark
        cases hmark
        exact .inr ⟨hrun, v, hv, rfl, .inl ⟨st, hstmt, htable, hclaim, hnoconf⟩⟩
      · exact .inl ⟨u, hu, hmark, rfl⟩
  | link p v _ _ hrun _ hv hundo hpend =>
    rw [hundo] at hu
    rcases mem_cons.mp hu with rfl | hu
    · simp only [Undo.marked] at hmark
      cases hmark
      exact .inr ⟨hrun, v, hv, rfl, .inr ⟨p, hpend, rfl⟩⟩
    · exact .inl ⟨u, hu, hmark, rfl⟩
  | clear f rid _ o _ _ _ _ _ _ _ _ hcreated hx hundo =>
    rw [hx]
    cases o with
    | insert =>
      rw [hundo] at hu
      exact .inl ⟨u, mem_cons_of_mem _ hu, hmark, rfl⟩
    | deleteMark =>
      simp [Undo.created] at hcreated
    | update =>
      rw [hundo] at hu
      rcases mem_cons.mp hu with rfl | hu
      · exact .inl ⟨_, mem_cons_self, hmark, rfl⟩
      · exact .inl ⟨u, mem_cons_of_mem _ hu, hmark, rfl⟩
  | restore _ _ _ _ _ _ _ _ _ _ _ _ hx hundo =>
    rw [hx]
    rw [hundo] at hu
    exact .inl ⟨u, mem_cons_of_mem _ hu, hmark, rfl⟩

/-- What becomes of a mark in the undo list: it stays, or it is taken back. -/
theorem undo_kept {o : Undo} (ho : o ∈ x.undo) (hmark : o.marked = some e) :
    (∃ u ∈ y.undo, u.marked = some e ∧ u.prevDeleter = o.prevDeleter ∧ u.prevNext = o.prevNext) ∨
      (x.undo = o :: y.undo ∧ ∃ w, s.heap.get e.1 e.2 = some w ∧ s'.heap.get e.1 e.2 =
        some { w with deleter := o.prevDeleter, nextRid := o.prevNext }) := by
  cases he with
  | still _ _ hundo | commit _ _ _ _ _ _ hundo | version _ _ _ _ _ _ _ _ _ _ _ hundo =>
    exact .inl ⟨o, hundo.symm ▸ ho, hmark, rfl, rfl⟩
  | insert _ _ _ _ _ _ _ _ hundo | mark _ _ _ _ _ _ _ _ _ _ _ hundo | link _ _ _ _ _ _ _ hundo =>
    exact .inl ⟨o, hundo ▸ mem_cons_of_mem _ ho, hmark, rfl, rfl⟩
  | clear f rid _ u rest _ _ _ _ _ _ _ hcreated hx hundo =>
    rw [hx] at ho
    rcases mem_cons.mp ho with rfl | ho
    · cases o with
      | insert => simp [Undo.marked] at hmark
      | deleteMark => simp [Undo.created] at hcreated
      | update f old _ _ d n =>
        exact .inl ⟨.deleteMark f old d n, hundo ▸ mem_cons_self, hmark, rfl, rfl⟩
    · exact .inl ⟨o, hundo ▸ mem_append_right _ ho, hmark, rfl, rfl⟩
  | restore _ _ w _ _ _ hheap _ _ _ _ hw hx hundo =>
    rw [hx] at ho
    rcases mem_cons.mp ho with rfl | ho
    · cases hmark
      exact .inr ⟨hundo ▸ hx, w, hw, by rw [hheap]; exact Heap.get_setSlot_self _ _ _ _⟩
    · exact .inl ⟨o, hundo.symm ▸ ho, hmark, rfl, rfl⟩

/-- A transaction ends with nothing left to take back. -/
theorem ended_of_effect (hended : x.stage = .ended → x.undo = []) (hst : y.stage = .ended) :
    y.undo = [] := by
  cases he with
  | still _ _ hundo _ _ hend =>
    rw [hundo]
    exact (hend hst).elim hended id
  | insert _ _ _ _ _ _ hrun' | version _ _ _ _ _ _ _ _ _ hrun' | mark _ _ _ _ _ _ _ hrun'
  | link _ _ _ _ _ hrun' | commit _ _ _ _ hrun' =>
    cases hrun'.symm.trans hst
  | clear _ _ _ _ _ _ _ _ _ hstage _ _ _ hx | restore _ _ _ _ _ _ _ _ _ _ hstage _ hx =>
    have hnil := hended (hstage ▸ hst)
    rw [hx] at hnil
    exact absurd hnil (cons_ne_nil _ _)

/-- Where an update between its halves comes from. -/
theorem pending_of_effect {p : PendingUpdate} (hp : y.pending = some p) :
    SameFate s s' ∧ ((x.pending = some p ∧ s'.heap = s.heap) ∨
      (x.stage = .running ∧ ∃ v st, s.heap.get p.fileNo p.oldRid = some v ∧
        s'.heap.get p.fileNo p.oldRid = some v ∧ x.stmt = some st ∧ st.table = p.fileNo ∧
        p.oldRid ∈ st.claims ∧
        (s.isolation = .readCommitted → s.rowWasConcurrentlyModified x v = false))) := by
  have hnone : y.pending = none → False := by
    intro hn
    cases hn.symm.trans hp
  cases he with
  | still hheap hfate _ hpend => exact ⟨hfate, .inl ⟨hpend ▸ hp, hheap⟩⟩
  | insert _ _ _ _ _ _ _ _ _ _ hpend' | mark _ _ _ _ _ _ _ _ _ _ _ _ _ hpend'
  | link _ _ _ _ _ _ _ _ _ hpend' | clear _ _ _ _ _ _ _ _ _ _ _ _ _ _ _ _ hpend'
  | restore _ _ _ _ _ _ _ _ _ _ _ _ _ _ _ hpend' | commit _ _ _ _ _ _ _ _ hpend' =>
    exact absurd hpend' hnone
  | version _ _ _ _ v st hheap hfate hrun _ hfree _ _ hpend' hstmt htable hclaim hv hnoconf =>
      cases hpend'.symm.trans hp
      refine ⟨hfate, .inr ⟨hrun, v, st, hv, ?_, hstmt, htable, hclaim, hnoconf⟩⟩
      rw [hheap]
      exact Rows.get_setSlot_of_free _ hfree hv

/-- Where a transaction that has been checked comes from. -/
theorem checked_of_effect (hst : y.stage = .checked) :
    SameFate s s' ∧ y.snapshot = x.snapshot ∧ y.undo = x.undo ∧
      (x.stage = .checked ∨ s.isolation = .readCommitted ∨
        ∀ u ∈ x.undo, s.entryPasses x u = true) := by
  cases he with
  | still _ hfate hundo _ _ _ hchecked =>
    exact ⟨hfate, (hchecked hst).1, hundo, (hchecked hst).2⟩
  | insert _ _ _ _ _ _ hrun' | version _ _ _ _ _ _ _ _ _ hrun' | mark _ _ _ _ _ _ _ hrun'
  | link _ _ _ _ _ hrun' | commit _ _ _ _ hrun' =>
    cases hrun'.symm.trans hst
  | clear _ _ _ _ _ _ _ hne _ hstage | restore _ _ _ _ _ _ _ _ hne _ hstage =>
    exact absurd (hstage.symm.trans hst) hne

end

end Sessions

end ChibiDb
