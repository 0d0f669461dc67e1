import ChibiDb.Theory.SessionSteps

/-!
# The Books of the Transaction Manager

What ties transactions to the id counter, the open set and the commit status in
every reachable state, and what follows for snapshots: a transaction that can
still commit counts as uncommitted for every snapshot taken before, whatever it
does later. So what a snapshot counts as committed never changes.

## Main definitions

* `BookOk`, `Books`: The invariant, for one transaction and for all.

## Theorems

* `Books.sessionStep`: Every step of a session keeps the books.
* `Books.committedBefore_mark`: A commit does not change what the snapshots
  count as committed.
-/

namespace ChibiDb.Sessions

open List Option

/-- One transaction and the books. -/
structure BookOk (s : Sessions) (x : TrxState) : Prop where
  pos : 0 < x.id
  lt : x.id < s.tm.nextId
  opened : x.closed = false ↔ x.id ∈ s.tm.openSet
  status : s.tm.committed.isCommitted x.id = true ↔ x.stage = .committed
  closing : x.closed = true → x.stage = .aborting ∨ x.stage = .ended ∨ x.stage = .committed
  bound : ∀ n, x.xmax = some n → n ≤ s.tm.nextId
  /-- No snapshot counts a transaction that is still open. -/
  snap : ∀ snap, x.snapshot = some snap → snap.xmax ≤ s.tm.nextId ∧
    ∀ t ∈ s.tm.openSet, snap.xmax ≤ t ∨ t ∈ snap.xip

/-- The books agree with the transactions. -/
structure Books (s : Sessions) : Prop where
  pos : 0 < s.tm.nextId
  ids : (s.trxs.map (fun x => x.id)).Nodup
  committedLt : ∀ t, s.tm.committed.isCommitted t = true → t < s.tm.nextId
  openOf : ∀ t ∈ s.tm.openSet, ∃ x ∈ s.trxs, x.id = t ∧ x.closed = false
  trx : ∀ x ∈ s.trxs, BookOk s x

namespace Books

variable {s s' : Sessions} {x y : TrxState}

theorem eq_of_id (h : Books s) (hx : x ∈ s.trxs) (hy : y ∈ s.trxs) (hid : x.id = y.id) : x = y :=
  inj_on_of_nodup_map h.ids hx hy hid

theorem trx_of_mem (h : Books s) (hx : x ∈ s.trxs) : s.trx x.id = some x :=
  find_key_of_mem h.ids hx

/-- One transaction becomes `y`; only its own id may change its status or leave the open set. -/
theorem put (h : Books s) (hx : x ∈ s.trxs) (htrxs : s'.trxs = (s.putTrx y).trxs)
    (hid : y.id = x.id) (hnext : s'.tm.nextId = s.tm.nextId) (hcl : ∀ t, t ≠ x.id →
      (s'.tm.committed.isCommitted t = true ↔ s.tm.committed.isCommitted t = true))
    (hopen : ∀ t, t ∈ s'.tm.openSet ↔ t ∈ s.tm.openSet ∧ (t = x.id → y.closed = false))
    (hclosed : x.closed = true → y.closed = true)
    (hstatus : s'.tm.committed.isCommitted x.id = true ↔ y.stage = .committed)
    (hclosing : y.closed = true → y.stage = .aborting ∨ y.stage = .ended ∨ y.stage = .committed)
    (hbound : ∀ n, y.xmax = some n → n ≤ s.tm.nextId)
    (hsnap : ∀ snap, y.snapshot = some snap → x.snapshot = some snap ∨
      (snap.xmax ≤ s.tm.nextId ∧ ∀ t ∈ s.tm.openSet, t ∈ snap.xip)) : Books s' := by
  have hok := h.trx x hx
  have hcases : ∀ z ∈ s'.trxs, z = y ∨ (z ∈ s.trxs ∧ z.id ≠ x.id) := by
    intro z hz
    rw [htrxs] at hz
    exact (s.mem_putTrx hz).imp_right (fun h => ⟨h.1, hid ▸ h.2⟩)
  constructor
  case pos => exact hnext ▸ h.pos
  case ids =>
    rw [htrxs, map_id_putTrx]
    exact h.ids
  case committedLt =>
    intro t ht
    rw [hnext]
    by_cases htx : t = x.id
    · rw [htx]
      exact hok.lt
    · exact h.committedLt t ((hcl t htx).mp ht)
  case openOf =>
    intro t ht
    rw [hopen] at ht
    rcases h.openOf t ht.1 with ⟨z, hz, hzt, hzc⟩
    by_cases hne : z.id = x.id
    · refine ⟨y, ?_, ?_, ht.2 (hzt ▸ hne)⟩
      · rw [htrxs]
        exact s.mem_putTrx_self hx hid
      · rw [hid, ← hne, hzt]
    · refine ⟨z, ?_, hzt, hzc⟩
      rw [htrxs]
      exact s.mem_putTrx_of_ne hz (hid.symm ▸ hne)
  case trx =>
    intro z hz
    rcases hcases z hz with rfl | ⟨hz, hne⟩
    · constructor
      case pos => exact hid ▸ hok.pos
      case lt => exact hid ▸ hnext ▸ hok.lt
      case opened =>
        rw [hid, hopen]
        constructor
        · intro hc
          refine ⟨?_, fun _ => hc⟩
          rw [← hok.opened]
          cases hxc : x.closed with
          | false => rfl
          | true => cases (hclosed hxc).symm.trans hc
        · exact fun ht => ht.2 rfl
      case status => rw [hid]; exact hstatus
      case closing => exact hclosing
      case bound => exact hnext ▸ hbound
      case snap =>
        intro snap hs
        rw [hnext]
        rcases hsnap snap hs with hs | hs
        · have hok' := hok.snap snap hs
          exact ⟨hok'.1, fun t ht => hok'.2 t ((hopen t).mp ht).1⟩
        · exact ⟨hs.1, fun t ht => .inr (hs.2 t ((hopen t).mp ht).1)⟩
    · have hokz := h.trx z hz
      refine { hokz with
        lt := hnext ▸ hokz.lt, status := (hcl z.id hne).trans hokz.status
        bound := hnext ▸ hokz.bound, opened := ?opened, snap := ?snap }
      case opened =>
        rw [hopen, hokz.opened]
        exact ⟨fun ht => ⟨ht, fun he => absurd he hne⟩, fun ht => ht.1⟩
      case snap =>
        intro snap hs
        rw [hnext]
        exact ⟨(hokz.snap snap hs).1, fun t ht => (hokz.snap snap hs).2 t ((hopen t).mp ht).1⟩

/-- While its own mark stays, a transaction does not matter to the open set. -/
theorem mem_openSet_iff (s : Sessions) (h : Books s) (hx : x ∈ s.trxs) (t : Nat) :
    t ∈ s.tm.openSet ↔ t ∈ s.tm.openSet ∧ (t = x.id → x.closed = false) :=
  ⟨fun ht => ⟨ht, fun he => (h.trx x hx).opened.mpr (he ▸ ht)⟩, fun ht => ht.1⟩

section

variable (h : Books s) (hx : x ∈ s.trxs) (htrxs : s'.trxs = (s.putTrx y).trxs) (htm : s'.tm = s.tm)
  (hid : y.id = x.id) (hclosed : y.closed = x.closed)
include h hx htrxs htm hid hclosed

/-- The manager does not change, and neither does what the books say about `x`. -/
theorem quiet (hstage : y.stage = .committed ↔ x.stage = .committed)
    (hclosing : x.closed = true → y.stage = .aborting ∨ y.stage = .ended ∨ y.stage = .committed)
    (hxmax : y.xmax = x.xmax) (hsnap : y.snapshot = x.snapshot) : Books s' := by
  have hok := h.trx x hx
  refine put h hx htrxs hid (htm ▸ rfl) (fun t _ => by rw [htm]) ?_
    hclosed.trans ?_ (fun hc => hclosing (hclosed ▸ hc)) ?_ ?_
  · rw [htm, hclosed]
    exact mem_openSet_iff s h hx
  · rw [htm, hstage]
    exact hok.status
  · rw [hxmax]
    exact hok.bound
  · rw [hsnap]
    exact fun snap hs => .inl hs

/-- The stage does not change either. -/
theorem same (hstage : y.stage = x.stage) (hxmax : y.xmax = x.xmax)
    (hsnap : y.snapshot = x.snapshot) : Books s' :=
  quiet h hx htrxs htm hid hclosed (by rw [hstage])
    (fun hc => hstage ▸ (h.trx x hx).closing hc) hxmax hsnap

/-- A running transaction is open, so a change of stage is no matter of the open set. -/
theorem move (hfrom : x.stage ≠ .committed) (hto : y.stage ≠ .committed)
    (hgo : y.stage = .aborting ∨ y.stage = .ended ∨ (x.stage ≠ .aborting ∧ x.stage ≠ .ended))
    (hxmax : y.xmax = x.xmax) (hsnap : y.snapshot = x.snapshot) : Books s' := by
  refine quiet h hx htrxs htm hid hclosed
    ⟨fun hc => absurd hc hto, fun hc => absurd hc hfrom⟩ ?_ hxmax hsnap
  intro hc
  rcases hgo with hgo | hgo | hgo
  · exact .inl hgo
  · exact .inr (.inl hgo)
  rcases (h.trx x hx).closing hc with ha | he | hcm
  · exact absurd ha hgo.1
  · exact absurd he hgo.2
  · exact absurd hcm hfrom

end

theorem drop (h : Books s) (hx : x ∈ s.trxs) (htrxs : s'.trxs = (s.dropTrx x.id).trxs)
    (htm : s'.tm = s.tm) (hcl : x.closed = true) : Books s' := by
  have hmem : ∀ z, z ∈ s'.trxs ↔ z ∈ s.trxs ∧ z.id ≠ x.id := by
    intro z
    rw [htrxs]
    exact s.mem_dropTrx x.id z
  constructor
  case pos => exact htm ▸ h.pos
  case ids =>
    rw [htrxs]
    exact h.ids.sublist (filter_sublist.map _)
  case committedLt => exact htm ▸ h.committedLt
  case openOf =>
    intro t ht
    rw [htm] at ht
    rcases h.openOf t ht with ⟨z, hz, hzt, hzc⟩
    refine ⟨z, (hmem z).mpr ⟨hz, fun hid => ?_⟩, hzt, hzc⟩
    rw [eq_of_id h hz hx hid, hcl] at hzc
    cases hzc
  case trx =>
    intro z hz
    have hokz := h.trx z ((hmem z).mp hz).1
    exact ⟨hokz.pos, htm ▸ hokz.lt, htm ▸ hokz.opened, htm ▸ hokz.status, hokz.closing,
      htm ▸ hokz.bound, htm ▸ hokz.snap⟩

/-- Beginning keeps the books. -/
theorem begin (h : Books s) :
    Books { s with tm := s.tm.beginOpen.2, trxs := TrxState.fresh s.tm.nextId :: s.trxs } := by
  have hmem : ∀ t, t ∈ s.tm.beginOpen.2.openSet ↔ t = s.tm.nextId ∨ t ∈ s.tm.openSet :=
    fun t => mem_insert_iff
  constructor
  case pos => exact Nat.succ_pos _
  case ids =>
    rw [map_cons, nodup_cons]
    refine ⟨fun hm => ?_, h.ids⟩
    rcases mem_map.mp hm with ⟨z, hz, hid⟩
    exact Nat.ne_of_lt (h.trx z hz).lt hid
  case committedLt => exact fun t ht => Nat.lt_succ_of_lt (h.committedLt t ht)
  case openOf =>
    intro t ht
    rcases (hmem t).mp ht with rfl | ht
    · exact ⟨_, mem_cons_self, rfl, rfl⟩
    · rcases h.openOf t ht with ⟨z, hz, hzt, hzc⟩
      exact ⟨z, mem_cons_of_mem _ hz, hzt, hzc⟩
  case trx =>
    intro z hz
    rcases mem_cons.mp hz with rfl | hz
    · constructor
      case pos => exact h.pos
      case lt => exact Nat.lt_succ_self _
      case opened => exact ⟨fun _ => (hmem _).mpr (.inl rfl), fun _ => rfl⟩
      case status => exact ⟨fun hc => absurd (h.committedLt _ hc) (Nat.lt_irrefl _), nofun⟩
      case closing | bound | snap => exact nofun
    · have hokz := h.trx z hz
      refine { hokz with
        lt := Nat.lt_succ_of_lt hokz.lt
        bound := fun n hn => Nat.le_succ_of_le (hokz.bound n hn), opened := ?opened, snap := ?snap }
      case opened =>
        rw [hokz.opened, hmem]
        exact ⟨.inr, fun ht => ht.resolve_left (Nat.ne_of_lt hokz.lt)⟩
      case snap =>
        intro snap hs
        have hok := hokz.snap snap hs
        refine ⟨Nat.le_succ_of_le hok.1, fun t ht => ?_⟩
        rcases (hmem t).mp ht with rfl | ht
        · exact .inl hok.1
        · exact hok.2 t ht

/-- Leaving the open set. -/
theorem close (h : Books s) (hx : x ∈ s.trxs) (htrxs : s'.trxs = (s.putTrx y).trxs)
    (htm : s'.tm = s.tm.removeOpen x.id) (hid : y.id = x.id) (hclosed : y.closed = true)
    (hstage : y.stage = x.stage)
    (hst : x.stage = .aborting ∨ x.stage = .ended ∨ x.stage = .committed) (hxmax : y.xmax = x.xmax)
    (hsnap : y.snapshot = x.snapshot) : Books s' := by
  have hok := h.trx x hx
  refine put h hx htrxs hid (htm ▸ rfl) (fun t _ => by rw [htm]; exact Iff.rfl) ?_ (fun _ =>
    hclosed) ?_ (fun _ => hstage ▸ hst) (hxmax ▸ hok.bound) (fun snap hs => .inl (hsnap ▸ hs))
  · intro _
    rw [htm]
    simp only [TransactionManager.removeOpen, mem_filter, decide_eq_true_eq]
    apply and_congr_right
    intro _
    constructor
    · exact fun hne he => absurd he hne
    · intro hc he
      cases (hc he).symm.trans hclosed
  · rw [htm, hstage]
    exact hok.status

/-- A session's step keeps the books. -/
theorem sessionStep {a : SessionAction} (h : Books s) (hx : x ∈ s.trxs)
    (hstep : SessionStep s x a s') : Books s' := by
  have hok := h.trx x hx
  cases hstep with
  | loadNextId =>
    refine put h hx rfl rfl rfl (fun _ _ => Iff.rfl) (mem_openSet_iff s h hx) id hok.status
      hok.closing ?_ (fun snap hs => .inl hs)
    intro n hn
    rw [some.injEq] at hn
    exact Nat.le_of_eq hn.symm
  | readOpen n hxm =>
    refine put h hx rfl rfl rfl (fun _ _ => Iff.rfl) (mem_openSet_iff s h hx) id hok.status
      hok.closing nofun ?_
    intro snap hs
    cases hs
    exact .inr ⟨hok.bound n hxm, fun t ht => (s.tm.mem_xip_iff t).mpr ht⟩
  | failStatement _ hst | endUndo _ _ _ hst | ssiCheck hst | checkConflicts hst =>
    exact move h hx rfl rfl rfl rfl (hst.trans_ne nofun) Stage.noConfusion
      (.inr (.inr ⟨hst.trans_ne nofun, hst.trans_ne nofun⟩)) rfl rfl
  | rollback hst =>
    refine move h hx rfl rfl rfl rfl ?_ Stage.noConfusion (.inl rfl) rfl rfl
    rcases hst with ⟨hst, _⟩ | hst | hst <;> rw [hst] <;> exact nofun
  | finishUndo hst =>
    exact move h hx rfl rfl rfl rfl (hst.trans_ne nofun) Stage.noConfusion (.inr (.inl rfl)) rfl rfl
  | markCommitted =>
    have hne : x.id ≠ 0 := Nat.pos_iff_ne_zero.mp hok.pos
    refine put h hx rfl rfl rfl ?_ (mem_openSet_iff s h hx) id ?_ (fun _ => .inr (.inr rfl))
      hok.bound (fun snap hs => .inl hs)
    · intro t ht
      rw [TransactionManager.markCommitted, Clog.isCommitted_mark]
      exact ⟨fun hc => hc.resolve_right (fun he => ht he.1), .inl⟩
    · rw [TransactionManager.markCommitted, Clog.isCommitted_mark]
      exact ⟨fun _ => rfl, fun _ => .inr ⟨rfl, hne⟩⟩
  | removeOpen hst =>
    exact close h hx rfl rfl rfl rfl rfl (hst.imp_right .inl) rfl rfl
  | closeCommitted hst =>
    exact close h hx rfl rfl rfl rfl rfl (.inr (.inr hst)) rfl rfl
  | dropAborted _ hcl | dropCommitted _ hcl => exact drop h hx rfl rfl hcl
  | lockRow =>
    refine same h hx ?_ rfl rfl rfl rfl rfl rfl
    exact (putTrx_self (fun y hy hid => eq_of_id h hy hx hid)).symm
  | _ => exact same h hx rfl rfl rfl rfl rfl rfl rfl

/-- A transaction before its commit is not counted as committed. -/
theorem not_committed (h : Books s) (hx : x ∈ s.trxs) (hst : x.stage ≠ .committed) :
    s.tm.committed.isCommitted x.id = false := by
  rw [← Bool.not_eq_true, (h.trx x hx).status]
  exact hst

/-- A transaction about to commit is still open, hence uncommitted for every snapshot there is. -/
theorem committedBefore_mark (h : Books s) {z : TrxState} (hx : x ∈ s.trxs) (hz : z ∈ s.trxs)
    (hst : x.stage = .checked) (t : Nat) :
    z.committedBefore (s.tm.committed.markCommitted x.id) t =
      z.committedBefore s.tm.committed t := by
  have hopen : x.id ∈ s.tm.openSet := by
    rw [← (h.trx x hx).opened]
    cases hcl : x.closed with
    | false => rfl
    | true =>
      rcases (h.trx x hx).closing hcl with hc | hc | hc <;>
        cases hst.symm.trans hc
  unfold TrxState.committedBefore
  cases hsnap : z.snapshot with
  | none => rfl
  | some snap =>
    rw [any_some, any_some, Bool.eq_iff_iff, committedBefore_iff,
      committedBefore_iff, Clog.isCommitted_mark]
    constructor
    · rintro ⟨hlt, hxip, hc | ⟨rfl, _⟩⟩
      · exact ⟨hlt, hxip, hc⟩
      · rcases ((h.trx z hz).snap snap hsnap).2 x.id hopen with _ | hin
        · omega
        · exact absurd hin hxip
    · intro ht
      exact ⟨ht.1, ht.2.1, .inl ht.2.2⟩

theorem not_committedBefore (h : Books s) (z : TrxState) (hx : x ∈ s.trxs)
    (hst : x.stage ≠ .committed) : z.committedBefore s.tm.committed x.id = false := by
  unfold TrxState.committedBefore
  cases z.snapshot with
  | none => rfl
  | some =>
    rw [any_some, ← Bool.not_eq_true, committedBefore_iff]
    intro hc
    exact hst ((h.trx x hx).status.mp hc.2.2)

end Books

end ChibiDb.Sessions
