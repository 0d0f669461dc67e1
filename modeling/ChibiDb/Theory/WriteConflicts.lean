import ChibiDb.Theory.CommittedDeletes

/-!
# Overwritten Delete Marks

A version has room for one delete marker. At repeatable read and serializable a
writer that has the row lock overwrites whatever marker it finds, also that of
a transaction that has committed, and is turned away only when it commits
itself. Two things go wrong.

While the marker is overwritten, the delete that committed is not in force: who
takes a snapshot in between sees the deleted version. `MarkOk` rules out exactly
the writes that overwrite a committed marker.

Who has picked the version in that moment and waits for its lock finds, once the
other writer has rolled back, the marker of a transaction that its own snapshot
counts as committed. The check at commit looks for later ones only, so it passes
and two committed transactions have deleted the same version. `CommitOk` rules
out exactly these commits.

At read committed neither happens.

## Main definitions

* `NoLostUpdate`: No version has two committed deleters.
* `InForce`: What was deleted by a committed transaction is deleted for whoever
  counts that transaction as committed.
* `MarkOk`: A write that overwrites no committed marker.

## Theorems

* `no_lost_update_iff_commitOk`: The first property, along runs whose commits
  are `CommitOk`, and no further.
* `in_force_iff_markOk`: The second, along runs whose writes are `MarkOk`, and no
  further.
-/

namespace ChibiDb.Sessions

open List Option

/-- No version has been deleted by two transactions that committed. -/
def NoLostUpdate (s : Sessions) : Prop :=
  ∀ e t t', (e, t) ∈ s.kills → (e, t') ∈ s.kills → t = t'

/-- A version deleted by a transaction that committed is there, and is invisible
    to every transaction and every read-only statement whose snapshot counts
    that transaction as committed. -/
def InForce (s : Sessions) : Prop :=
  ∀ e t, (e, t) ∈ s.kills → ∃ v, s.heap.get e.1 e.2 = some v ∧
    (∀ x ∈ s.trxs, x.committedBefore s.tm.committed t = true →
      x.visible s.tm.committed v = false) ∧
    ∀ snap : Snapshot, snap.committedBefore s.tm.committed t = true →
      snap.visible s.tm.committed readOnlyTrxId v.creator v.deleter = false

/-- A write does not overwrite the marker of a committed transaction. -/
def MarkOk (s : Sessions) : SessionLabel → Prop
  | .act id (.storeDeleteMark rid) => s.isolation = .readCommitted ∨
      ∀ x ∈ s.trx id, ∀ st ∈ x.stmt, ∀ v ∈ s.heap.get st.table rid,
        s.tm.committed.isCommitted v.deleter = false
  | .act id .linkVersion => s.isolation = .readCommitted ∨
      ∀ x ∈ s.trx id, ∀ p ∈ x.pending, ∀ v ∈ s.heap.get p.fileNo p.oldRid,
        s.tm.committed.isCommitted v.deleter = false
  | _ => True

instance decidableCommitOk (s : Sessions) (l : SessionLabel) : Decidable (CommitOk s l) := by
  unfold CommitOk
  split <;> infer_instance

instance decidableMarkOk (s : Sessions) (l : SessionLabel) : Decidable (MarkOk s l) := by
  unfold MarkOk
  split <;> infer_instance

variable {s s' : Sessions} {x y : TrxState} {a : SessionAction} {l : SessionLabel} {t : Nat}
  {rid : Rid} {v : Version} {u : Undo}

theorem commitOk_iff (hb : Books s) (hx : x ∈ s.trxs) :
    CommitOk s (.act x.id .markCommitted) ↔ s.isolation = .readCommitted ∨
      ∀ u ∈ x.undo, u.marked ≠ none →
        x.committedBefore s.tm.committed u.prevDeleter = false := by
  simp [CommitOk, hb.trx_of_mem hx]

/-- A commit that is not `CommitOk` adds a second deleter. -/
theorem lost_of_not_commitOk (h : Intact s) (hx : x ∈ s.trxs) (hc : Commits s s' x y)
    (hno : ¬ CommitOk s (.act x.id .markCommitted)) : ¬ NoLostUpdate s' := by
  intro hone
  have hb := h.kills.rows.books
  rw [commitOk_iff hb hx] at hno
  push Not at hno
  rcases hno with ⟨_, u, hu, hmark, hbefore⟩
  rcases ne_none_iff_exists'.mp hmark with ⟨e, hme⟩
  have hnc : x.stage ≠ .committed := hc.from_.trans_ne nofun
  have hcm : s.tm.committed.isCommitted u.prevDeleter = true := by
    rw [ne_eq, Bool.not_eq_false] at hbefore
    unfold TrxState.committedBefore at hbefore
    rw [Option.any_eq_true] at hbefore
    rcases hbefore with ⟨snap, _, hsnap⟩
    exact ((committedBefore_iff snap _ _).mp hsnap).2.2
  have hold : (e, u.prevDeleter) ∈ s'.kills := by
    rw [hc.kills]
    exact mem_append_right _ (h.kills.prev x hx hnc u hu e hme hcm)
  have hnew : (e, x.id) ∈ s'.kills := by
    rw [hc.kills]
    exact mem_append_left _ (mem_map.mpr ⟨e, (Rows.mem_marks_iff x e).mpr ⟨u, hu, hme⟩, rfl⟩)
  exact ((h.kills.rows.trx x hx).prevs u hu).2 x hx (hone e x.id u.prevDeleter hnew hold)

theorem commitOk_of_ne (s : Sessions) (id : Nat) (ha : a ≠ .markCommitted) :
    CommitOk s (.act id a) := by
  cases a with
  | markCommitted => exact absurd rfl ha
  | _ => exact trivial

theorem noLostUpdate_step (h : Intact s) (hone : NoLostUpdate s) (hstep : s.step l = some s') :
    NoLostUpdate s' ↔ CommitOk s l := by
  cases step_cases hstep with
  | begin => exact ⟨fun _ => trivial, fun _ => hone⟩
  | act x a _ hx hs =>
    by_cases ha : a = .markCommitted
    · subst ha
      rcases commits_of_mark h.kills.rows hx hs with ⟨_, he, hc⟩
      constructor
      · intro hone'
        by_contra hno
        exact lost_of_not_commitOk h hx hc hno hone'
      intro hok e t t' ht ht'
      have hnc : x.stage ≠ .committed := hc.from_.trans_ne nofun
      have hnew := h.no_kill_of_clean hx hnc (h.clean_of_commitOk hx hc.from_ hok) e
      rcases mem_kills_of_effect he ht with hk | ⟨rfl, hmark, _⟩
      · rcases mem_kills_of_effect he ht' with hk' | ⟨_, hmark, _⟩
        · exact hone e t t' hk hk'
        · exact absurd hk (hnew hmark t)
      · rcases mem_kills_of_effect he ht' with hk' | ⟨rfl, _, _⟩
        · exact absurd hk' (hnew hmark t')
        · rfl
    · refine ⟨fun _ => commitOk_of_ne s x.id ha, fun _ => ?_⟩
      unfold NoLostUpdate
      rw [kills_of_ne hs ha]
      exact hone

theorem noLostUpdate_of_opened (h : Opened s) : NoLostUpdate s := by
  intro e t t' ht ht'
  rcases ((h.kills e t).mp ht).2 with ⟨_, hv, hd⟩
  rcases ((h.kills e t').mp ht').2 with ⟨_, hw, hd'⟩
  rw [hv, some.injEq] at hw
  rw [← hd, ← hd', hw]

/-- Along every run whose commits are all `CommitOk`, no version is deleted by
    two committed transactions. The condition is exact: the next step keeps the
    property if and only if it meets it. At read committed it always does. -/
theorem no_lost_update_iff_commitOk (s₀ : Sessions) (h₀ : Opened s₀) (ls : List SessionLabel)
    (s : Sessions) (hrun : runSteps Sessions.step s₀ ls = some s)
    (hok : Meets Sessions.step CommitOk s₀ ls) :
    NoLostUpdate s ∧ ∀ l s', s.step l = some s' → (NoLostUpdate s' ↔ CommitOk s l) := by
  have hinv : Intact s ∧ NoLostUpdate s :=
    invariant_of_meets Sessions.step CommitOk (fun s => Intact s ∧ NoLostUpdate s)
      (fun s l s' hs hl hstep => ⟨hs.1.step hl hstep,
        (noLostUpdate_step hs.1 hs.2 hstep).mpr hl⟩)
      s₀ s ls ⟨Intact.of_opened h₀, noLostUpdate_of_opened h₀⟩ hok hrun
  exact ⟨hinv.2, fun l s' hstep => noLostUpdate_step hinv.1 hinv.2 hstep⟩

/-- A database with one table that holds one row, committed by transaction 1. -/
def oneRow (iso : Isolation) : Sessions :=
  { isolation := iso, indexes := [], tm := ⟨2, 0, ⟨0, [1]⟩, []⟩, ssi := .new,
    heap := [[[], [some ⟨1, 0, 0, [.int 7]⟩]]], index := [], locks := [], trxs := [], kills := [],
    done := [], finished := [] }

theorem opened_oneRow (iso : Isolation) : Opened (oneRow iso) := by
  have hrow : Heap.All (fun v => v.creator = 1 ∧ v.deleter = 0) (oneRow iso).heap := by
    rw [Heap.all_iff_versions]
    cases iso <;> decide
  have hzero : (oneRow iso).tm.committed.isCommitted 0 = false := by
    cases iso <;> decide
  constructor
  case pos => exact Nat.zero_lt_two
  case trxs => rfl
  case openSet => rfl
  case locks => rfl
  case committedLt =>
    intro t ht
    rw [Clog.isCommitted_iff] at ht
    rcases ht.2 with hlt | hin
    · exact absurd hlt (Nat.not_lt_zero t)
    · rw [mem_singleton.mp hin]
      exact Nat.one_lt_two
  case headers =>
    intro f rid v hv
    rw [(hrow f rid v hv).1, (hrow f rid v hv).2]
    exact ⟨Nat.one_lt_two, Nat.zero_lt_two⟩
  case deleted =>
    intro f rid v hv hd
    rw [(hrow f rid v hv).2, hzero] at hd
    cases hd
  case kills =>
    intro e _
    refine ⟨nofun, ?_⟩
    rintro ⟨ht, v, hv, hd⟩
    rw [← hd, (hrow e.1 e.2 v hv).2, hzero] at ht
    cases ht

/-- BEGIN, up to the snapshot. -/
def beginTrx (id : Nat) : List SessionLabel :=
  [.begin, .act id .ssiBegin, .act id .loadNextId, .act id .readOpen]

/-- A DELETE of the one row, up to the wait for its lock. -/
def pickRow (id : Nat) : List SessionLabel :=
  [.act id (.startStatement 0), .act id (.noteRead 0), .act id (.scan 0 ⟨1, 0⟩ true)]

/-- The rest of that DELETE. -/
def deleteRow (id : Nat) : List SessionLabel :=
  [.act id .noteWrite, .act id (.lockRow ⟨1, 0⟩), .act id (.storeDeleteMark ⟨1, 0⟩),
    .act id .endStatement]

/-- A transaction commits, in its separate steps. -/
def commitTrx (id : Nat) : List SessionLabel :=
  [.act id .ssiCheck, .act id .checkConflicts, .act id .markCommitted, .act id .closeCommitted,
    .act id .ssiCommit, .act id .dropCommitted]

/-- Two transactions delete the row one after the other: the first commits, and
    the second, with a snapshot from before, is turned away. -/
def deleteTwice : List SessionLabel :=
  beginTrx 2 ++ beginTrx 3 ++ pickRow 2 ++ deleteRow 2 ++ commitTrx 2 ++ pickRow 3 ++ deleteRow 3 ++
    [.act 3 .ssiCheck, .act 3 .rollback]

theorem no_lost_update_delete_twice :
    ∃ s, runSteps Sessions.step (oneRow .repeatableRead) deleteTwice = some s ∧
      s.kills = [((0, ⟨1, 0⟩), 2)] ∧ NoLostUpdate s :=
  ⟨_, rfl, rfl, (no_lost_update_iff_commitOk (oneRow .repeatableRead)
    (opened_oneRow .repeatableRead) deleteTwice _ rfl (by decide)).1⟩

/-- Transaction 2 has its snapshot; 3 deletes the row and commits; 2 deletes it too; 4 begins, finds
    the row and waits for 2; 2 rolls back; 4 goes on and commits. -/
def lostUpdate : List SessionLabel :=
  beginTrx 2 ++ beginTrx 3 ++ pickRow 3 ++ deleteRow 3 ++ commitTrx 3 ++ pickRow 2 ++ deleteRow 2 ++
    beginTrx 4 ++ pickRow 4 ++ [.act 2 .rollback, .act 2 .undoOne, .act 2 .finishUndo] ++
    deleteRow 4 ++ commitTrx 4

theorem two_commits_delete_one_row :
    ∃ s, runSteps Sessions.step (oneRow .repeatableRead) lostUpdate = some s ∧
      ((0, ⟨1, 0⟩), 3) ∈ s.kills ∧ ((0, ⟨1, 0⟩), 4) ∈ s.kills ∧ ¬ NoLostUpdate s := by
  refine ⟨_, rfl, by decide, by decide, ?_⟩
  intro hone
  cases hone (0, ⟨1, 0⟩) 3 4 (by decide) (by decide)

/-- A snapshot taken now counts whoever has committed and left the open set. -/
theorem counted_by_snapshot (hb : Books s) (t : Nat) (ht : s.tm.committed.isCommitted t = true)
    (hopen : t ∉ s.tm.openSet) : s.tm.snapshot.committedBefore s.tm.committed t = true := by
  rw [committedBefore_iff]
  exact ⟨hb.committedLt t ht, fun hin => hopen ((s.tm.mem_xip_iff t).mp hin), ht⟩

theorem not_open_of_gone (hb : Books s) (hg : s.Gone t) : t ∉ s.tm.openSet := by
  intro hopen
  rcases hb.openOf t hopen with ⟨x, hx, hid, _⟩
  exact hg.2 x hx hid

/-- The marker of `t` hides a version from whoever counts `t`. -/
theorem invisible_of_marker {snap : Snapshot} {clog : Clog} (id creator : Nat)
    (ht : snap.committedBefore clog t = true) : snap.visible clog id creator t = false := by
  have h0 : t ≠ 0 := ne_zero_of_committed ((committedBefore_iff snap clog t).mp ht).2.2
  simp [Snapshot.visible, ht, h0]

theorem inForce_of_clean (h : Intact s) (hclean : CleanUndo s) : InForce s := by
  intro e t hk
  have hct := h.kills.committed e t hk
  rcases h.under e t hk with ⟨v, hv, rfl⟩ | ⟨x, hx, hst, u, hu, hmark, hprev⟩
  · refine ⟨v, hv, ?_, fun snap => invisible_of_marker _ _⟩
    intro x _ hbefore
    unfold TrxState.committedBefore at hbefore
    unfold TrxState.visible
    cases hs : x.snapshot with
    | none => rfl
    | some =>
      rw [hs, any_some] at hbefore
      rw [any_some]
      exact invisible_of_marker _ _ hbefore
  · have hno := hclean x hx hst u hu (by rw [hmark]; exact some_ne_none e)
    rw [hprev, hct] at hno
    cases hno

/-- Overwriting a committed marker brings the version back for a snapshot taken at once. -/
theorem mark_breaks_inForce (h : Intact s) (hx : x ∈ s.trxs) (hst : x.stage ≠ .committed) {f : Nat}
    {n : Nat} (hv : s.heap.get f rid = some v) (hlock : (.row f rid, x.id) ∈ s.locks)
    (hnot : (f, rid) ∉ x.marks) (hct : s.tm.committed.isCommitted v.deleter = true)
    (hheap : s'.heap = s.heap.setSlot f rid (some { v with deleter := x.id, nextRid := n }))
    (htm : s'.tm = s.tm) (hkills : s'.kills = s.kills) : ¬ InForce s' := by
  intro hforce
  have hr := h.kills.rows
  have hk := h.kills.stored f rid v hv hct
  have hgone := Rows.gone_of_lock hr hx hv hlock hnot
  have hclosed := not_open_of_gone hr.books hgone
  rcases hforce (f, rid) v.deleter (hkills.symm ▸ hk) with ⟨_, hw, _, hread⟩
  rw [hheap, Heap.get_setSlot_self, some.injEq] at hw
  rw [htm] at hread
  have hhid := hread s.tm.snapshot (counted_by_snapshot hr.books _ hct hclosed)
  rw [← hw] at hhid
  have hcreator : v.creator = 0 ∨
      s.tm.snapshot.committedBefore s.tm.committed v.creator = true := by
    rcases h.kills.present (f, rid) v.deleter hk with ⟨_, hv', hown⟩
    rw [hv, some.injEq] at hv'
    rw [← hv'] at hown
    rcases hown with hown | h0 | ⟨hc, hopen⟩
    · rw [hown]
      exact .inr (counted_by_snapshot hr.books _ hct hclosed)
    · exact .inl h0
    · exact .inr (counted_by_snapshot hr.books _ hc hopen)
  have hmine : s.tm.snapshot.committedBefore s.tm.committed x.id = false := by
    rw [← Bool.not_eq_true, committedBefore_iff]
    intro hc
    exact hst ((hr.books.trx x hx).status.mp hc.2.2)
  have hne : x.id ≠ 0 := Nat.pos_iff_ne_zero.mp (hr.books.trx x hx).pos
  have hseen : s.tm.snapshot.visible s.tm.committed readOnlyTrxId v.creator x.id = true := by
    simp only [Snapshot.visible, hmine, readOnlyTrxId, hne, ne_eq, not_false_eq_true, decide_true,
      decide_false, Bool.or_false, Bool.and_false, Bool.not_false, Bool.and_true]
    rcases hcreator with h0 | hc
    · rw [h0]
      rfl
    · rw [hc, Bool.or_true]
  cases hseen.symm.trans hhid

theorem markOk_delete_iff (hb : Books s) (hx : x ∈ s.trxs) {st : Statement} (hst : x.stmt = some st)
    (hv : s.heap.get st.table rid = some v) :
    MarkOk s (.act x.id (.storeDeleteMark rid)) ↔ s.isolation = .readCommitted ∨
      s.tm.committed.isCommitted v.deleter = false := by
  simp [MarkOk, hb.trx_of_mem hx, hst, hv]

theorem markOk_link_iff (hb : Books s) (hx : x ∈ s.trxs) {p : PendingUpdate}
    (hp : x.pending = some p) (hv : s.heap.get p.fileNo p.oldRid = some v) :
    MarkOk s (.act x.id .linkVersion) ↔ s.isolation = .readCommitted ∨
      s.tm.committed.isCommitted v.deleter = false := by
  simp [MarkOk, hb.trx_of_mem hx, hp, hv]

/-- Where the marks of `y` come from, or that they overwrote no committed one. -/
def MarksClean (s : Sessions) (x y : TrxState) : Prop :=
  ∀ u ∈ y.undo, u.marked ≠ none →
    (∃ o ∈ x.undo, o.marked ≠ none ∧ o.prevDeleter = u.prevDeleter) ∨
      s.tm.committed.isCommitted u.prevDeleter = false

theorem marksClean_same (s : Sessions) (h : y.undo = x.undo) :
    MarksClean s x y := fun u hu hm => .inl ⟨u, h ▸ hu, hm, rfl⟩

theorem marksClean_cons (h : y.undo = u :: x.undo)
    (hu : u.marked ≠ none → s.tm.committed.isCommitted u.prevDeleter = false) :
    MarksClean s x y := by
  intro o ho hm
  rw [h] at ho
  rcases mem_cons.mp ho with rfl | ho
  · exact .inr (hu hm)
  · exact .inl ⟨o, ho, hm, rfl⟩

theorem marksClean_tail (s : Sessions) (h : x.undo = u :: y.undo) : MarksClean s x y := by
  intro o ho hm
  rw [h]
  exact .inl ⟨o, mem_cons_of_mem _ ho, hm, rfl⟩

theorem marksClean_of_step (hb : Books s) (hx : x ∈ s.trxs) (hs : SessionStep s x a s')
    (hm : Moved s s' x y) (hok : MarkOk s (.act x.id a)) (hiso : s.isolation ≠ .readCommitted) :
    MarksClean s x y := by
  cases hs with
  | storeInsert =>
    rw [moved_unique hx hm rfl rfl]
    exact marksClean_cons rfl (fun h => absurd rfl h)
  | storeDeleteMark _ _ _ hstmt hv =>
    rw [moved_unique hx hm rfl rfl]
    rw [markOk_delete_iff hb hx hstmt hv] at hok
    exact marksClean_cons rfl (fun _ => hok.resolve_left hiso)
  | linkVersion _ _ hp hv =>
    rw [moved_unique hx hm rfl rfl]
    rw [markOk_link_iff hb hx hp hv] at hok
    exact marksClean_cons rfl (fun _ => hok.resolve_left hiso)
  | undoInsert _ _ _ _ _ _ _ hu | undoMark _ _ _ _ _ _ _ _ hu =>
    rw [moved_unique hx hm rfl rfl]
    exact marksClean_tail s hu
  | undoUpdate _ _ _ _ _ _ _ _ _ _ hu =>
    rw [moved_unique hx hm rfl rfl]
    intro o ho hmark
    rw [hu]
    rcases mem_cons.mp ho with rfl | ho
    · exact .inl ⟨_, mem_cons_self, hmark, rfl⟩
    · exact .inl ⟨o, mem_cons_of_mem _ ho, hmark, rfl⟩
  | dropAborted | dropCommitted => exact (moved_ne_dropTrx hx hm rfl).elim
  | lockRow =>
    rw [moved_self hb hx hm rfl]
    exact marksClean_same s rfl
  | _ =>
    rw [moved_unique hx hm rfl rfl]
    exact marksClean_same s rfl

theorem commitOk_of_clean (h : Intact s) (hclean : CleanUndo s) (hstep : s.step l = some s') :
    CommitOk s l := by
  cases step_cases hstep with
  | begin => exact trivial
  | act x a _ hx hs =>
    by_cases ha : a = .markCommitted
    · subst ha
      rcases commits_of_mark h.kills.rows hx hs with ⟨_, _, hc⟩
      rw [commitOk_iff h.kills.rows.books hx]
      refine .inr (fun u hu hmark => ?_)
      have hno := hclean x hx (hc.from_.trans_ne nofun) u hu hmark
      unfold TrxState.committedBefore
      cases x.snapshot with
      | none => rfl
      | some =>
        rw [any_some, ← Bool.not_eq_true, committedBefore_iff]
        intro hc
        rw [hno] at hc
        cases hc.2.2
    · exact commitOk_of_ne s x.id ha

theorem cleanUndo_step (h : Intact s) (h' : Intact s') (hclean : CleanUndo s) (hok : MarkOk s l)
    (hstep : s.step l = some s') : CleanUndo s' := by
  by_cases hrc : s'.isolation = .readCommitted
  · exact (h'.guarded hrc).undo
  have hr := h.kills.rows
  cases step_cases hstep with
  | begin =>
    exact forall_mem_cons.mpr ⟨nofun, hclean⟩
  | act x _ _ hx hs =>
    rcases effect_of_step hr hx hs with ⟨_, hm, he⟩ | hd
    · have hnew := marksClean_of_step hr.books hx hs hm hok (hm.isolation ▸ hrc)
      intro z hz hst u hu hmark
      rcases hm.cases hz with rfl | ⟨hz, _⟩
      · have hgone := ((h'.kills.rows.trx z hz).prevs u hu).2 z hz
        rw [isCommitted_of_effect he (hm.id ▸ hgone.symm)]
        rcases hnew u hu hmark with ⟨o, ho, hmo, hprev⟩ | hno
        · rw [← hprev]
          refine hclean x hx ?_ o ho hmo
          rcases fate_of_effect he with ⟨_, hiff⟩ | hc
          · exact hiff.not.mp hst
          · exact absurd hc.to_ hst
        · exact hno
      · have hgone := ((hr.trx z hz).prevs u hu).2 x hx
        rw [isCommitted_of_effect he hgone.symm]
        exact hclean z hz hst u hu hmark
    · intro z hz
      rw [hd.tm]
      exact hclean z (hd.mem hz)

/-- A write that is not `MarkOk` takes a committed delete out of force. -/
theorem markOk_of_inForce (h : Intact s) (hstep : s.step l = some s') (hforce : InForce s') :
    MarkOk s l := by
  have hr := h.kills.rows
  cases step_cases hstep with
  | begin => exact trivial
  | act x _ _ hx hs =>
    cases hs with
    | storeDeleteMark rid st v hstmt hv hst _ _ _ hrid hlock =>
      rw [markOk_delete_iff hr.books hx hstmt hv]
      have hclaim : rid ∈ st.claims := (st.mem_claims rid).mpr (.inl hrid)
      have hnot := (((hr.trx x hx).stmt st hstmt hst).writable rid hclaim).1
      cases hc : s.tm.committed.isCommitted v.deleter with
      | false => exact .inr rfl
      | true =>
        exact absurd hforce (mark_breaks_inForce h hx (hst.trans_ne nofun) hv
          hlock hnot hc rfl rfl rfl)
    | linkVersion p v hp hv hst =>
      rw [markOk_link_iff hr.books hx hp hv]
      have hpok := (hr.trx x hx).pend p hp
      cases hc : s.tm.committed.isCommitted v.deleter with
      | false => exact .inr rfl
      | true =>
        exact absurd hforce (mark_breaks_inForce h hx (hst.trans_ne nofun) hv hpok.lock
          hpok.writable.1 hc rfl rfl rfl)
    | _ => exact trivial

/-- Along every run whose writes are all `MarkOk`, a delete that committed stays in force: the
    version is invisible to every snapshot that counts the deleter as committed, and a snapshot
    taken after the deleter has completed its commit does count it. The condition is exact: the next
    step keeps the property if and only if it meets it. At read committed it always does. -/
theorem in_force_iff_markOk (s₀ : Sessions) (h₀ : Opened s₀) (ls : List SessionLabel)
    (s : Sessions) (hrun : runSteps Sessions.step s₀ ls = some s)
    (hok : Meets Sessions.step MarkOk s₀ ls) :
    InForce s ∧
    (∀ t, s.tm.committed.isCommitted t = true → t ∉ s.tm.openSet →
      s.tm.snapshot.committedBefore s.tm.committed t = true) ∧
    ∀ l s', s.step l = some s' → (InForce s' ↔ MarkOk s l) := by
  have hnext : ∀ s l s', Intact s ∧ CleanUndo s → MarkOk s l → s.step l = some s' →
      Intact s' ∧ CleanUndo s' := by
    intro s l s' hs hl hstep
    have h' := hs.1.step (commitOk_of_clean hs.1 hs.2 hstep) hstep
    exact ⟨h', cleanUndo_step hs.1 h' hs.2 hl hstep⟩
  have hstart : CleanUndo s₀ := by
    intro _ hx
    rw [h₀.trxs] at hx
    cases hx
  have hinv : Intact s ∧ CleanUndo s :=
    invariant_of_meets Sessions.step MarkOk (fun s => Intact s ∧ CleanUndo s) hnext
      s₀ s ls ⟨Intact.of_opened h₀, hstart⟩ hok hrun
  refine ⟨inForce_of_clean hinv.1 hinv.2, counted_by_snapshot hinv.1.kills.rows.books, ?_⟩
  intro l s' hstep
  constructor
  · exact markOk_of_inForce hinv.1 hstep
  · intro hl
    have h' := hnext s l s' hinv hl hstep
    exact inForce_of_clean h'.1 h'.2

/-- One transaction deletes the row and commits, and another one begins. -/
def deleteOnce : List SessionLabel :=
  beginTrx 2 ++ pickRow 2 ++ deleteRow 2 ++ commitTrx 2 ++ beginTrx 3

theorem in_force_delete_once :
    ∃ s, runSteps Sessions.step (oneRow .repeatableRead) deleteOnce = some s ∧
      s.kills = [((0, ⟨1, 0⟩), 2)] ∧ InForce s :=
  ⟨_, rfl, rfl, (in_force_iff_markOk (oneRow .repeatableRead) (opened_oneRow .repeatableRead)
    deleteOnce _ rfl (by decide)).1⟩

/-- Transaction 2 has its snapshot, 3 deletes the row and commits, 2 deletes it
    too, and 4 begins. -/
def overwrittenMark : List SessionLabel :=
  beginTrx 2 ++ beginTrx 3 ++ pickRow 3 ++ deleteRow 3 ++ commitTrx 3 ++ pickRow 2 ++ deleteRow 2 ++
    beginTrx 4

theorem deleted_row_is_seen_again :
    ∃ s x v, runSteps Sessions.step (oneRow .repeatableRead) overwrittenMark = some s ∧
      ((0, ⟨1, 0⟩), 3) ∈ s.kills ∧ s.trx 4 = some x ∧ s.heap.get 0 ⟨1, 0⟩ = some v ∧
      x.committedBefore s.tm.committed 3 = true ∧ x.visible s.tm.committed v = true ∧
      ¬ InForce s := by
  refine ⟨_, _, _, rfl, by decide, rfl, rfl, by decide, by decide, ?_⟩
  intro hforce
  rcases hforce (0, ⟨1, 0⟩) 3 (by decide) with ⟨_, hw, hall, _⟩
  have hhid := hall _ (mem_cons_self) (by decide)
  rw [← some.inj hw] at hhid
  cases hhid

end ChibiDb.Sessions
