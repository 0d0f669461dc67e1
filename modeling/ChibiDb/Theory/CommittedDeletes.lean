import ChibiDb.Theory.SessionEffects

/-!
# Deletes That Committed

A delete or update is in force once its transaction has committed. The pages
know it by the marker in the header of the version, but a writer that comes
later overwrites the marker and keeps the old one in its undo list. This file
follows every committed delete: as long as no transaction commits over one, it
is either the marker on the page or the marker a writer is to put back.

Under read committed a writer checks the marker before it writes, and what it
checks is enough: no committed delete is ever overwritten. At the other levels
a commit is checked against the deletes that are not in its snapshot.

## Main definitions

* `Kills`: What the history of committed deletes has to do with the pages.
* `Under`: A committed delete can still be found.
* `CleanUndo`: No writer has overwritten a committed delete.
* `Guarded`: What read committed makes sure of.
* `Intact`: The invariant.
* `CommitOk`: A commit that does not follow another one on the same version.

## Theorems

* `Kills.step`: Every step keeps `Kills`.
* `Intact.step`: Every step keeps `Intact`, if commits are `CommitOk`.
-/

namespace ChibiDb.Sessions

open List Option

/-- The history of committed deletes and the pages. -/
structure Kills (s : Sessions) : Prop where
  rows : Rows s
  committed : ∀ e t, (e, t) ∈ s.kills → s.tm.committed.isCommitted t = true
  present : ∀ e t, (e, t) ∈ s.kills → ∃ v, s.heap.get e.1 e.2 = some v ∧
    (v.creator = t ∨ s.Counted v.creator)
  stored : ∀ f rid v, s.heap.get f rid = some v → s.tm.committed.isCommitted v.deleter = true →
    ((f, rid), v.deleter) ∈ s.kills
  prev : ∀ x ∈ s.trxs, x.stage ≠ .committed → ∀ u ∈ x.undo, ∀ e, u.marked = some e →
    s.tm.committed.isCommitted u.prevDeleter = true → (e, u.prevDeleter) ∈ s.kills
  ended : ∀ x ∈ s.trxs, x.stage = .ended → x.undo = []

/-- The delete of a version by `t` is its marker, or is kept in the undo list of
    a transaction that can still put it back. -/
def Under (s : Sessions) (e : Nat × Rid) (t : Nat) : Prop :=
  (∃ v, s.heap.get e.1 e.2 = some v ∧ v.deleter = t) ∨
    ∃ x ∈ s.trxs, x.stage ≠ .committed ∧ ∃ u ∈ x.undo, u.marked = some e ∧ u.prevDeleter = t

/-- No undo list keeps a committed delete. -/
def CleanUndo (s : Sessions) : Prop :=
  ∀ x ∈ s.trxs, x.stage ≠ .committed → ∀ u ∈ x.undo, u.marked ≠ none →
    s.tm.committed.isCommitted u.prevDeleter = false

/-- What the check before a write and the snapshot of each statement make sure of. -/
structure Guarded (s : Sessions) : Prop where
  undo : CleanUndo s
  claims : ∀ x ∈ s.trxs, x.stage = .running → ∀ st, x.stmt = some st → ∀ r ∈ st.claims,
    ∀ t, ((st.table, r), t) ∈ s.kills → x.committedBefore s.tm.committed t = false
  pend : ∀ x ∈ s.trxs, ∀ p, x.pending = some p →
    ∀ v, s.heap.get p.fileNo p.oldRid = some v → s.tm.committed.isCommitted v.deleter = false

/-- Every committed delete can be found, and what the checks have made sure of. -/
structure Intact (s : Sessions) : Prop where
  kills : Kills s
  under : ∀ e t, (e, t) ∈ s.kills → Under s e t
  guarded : s.isolation = .readCommitted → Guarded s
  checked : s.isolation ≠ .readCommitted → ∀ x ∈ s.trxs, x.stage = .checked →
    ∀ u ∈ x.undo, u.marked ≠ none →
      x.conflictingCommitter s.tm.committed u.prevDeleter = false

/-- A commit does not keep a delete that was in its snapshot: none of the versions it marked had
    been deleted by a transaction its snapshot counts as committed. -/
def CommitOk (s : Sessions) : SessionLabel → Prop
  | .act id .markCommitted => s.isolation = .readCommitted ∨ ∀ x ∈ s.trx id, ∀ u ∈ x.undo,
      u.marked ≠ none → x.committedBefore s.tm.committed u.prevDeleter = false
  | _ => True

variable {s s' : Sessions} {x y z : TrxState} {t : Nat} {e : Nat × Rid} {a : SessionAction}
  {l : SessionLabel} {v : Version} {clog : Clog}

/-- Transaction `x` commits and becomes `y`. -/
structure Commits (s s' : Sessions) (x y : TrxState) : Prop where
  heap : s'.heap = s.heap
  clog : s'.tm.committed = s.tm.committed.markCommitted x.id
  kills : s'.kills = x.marks.map (fun e => (e, x.id)) ++ s.kills
  from_ : x.stage = .checked
  to_ : y.stage = .committed
  snapshot : y.snapshot = x.snapshot
  undo : y.undo = x.undo

/-- The commit status and the history do not change in a step of `x` unless it commits. -/
theorem fate_of_effect (he : Effect s s' x y) :
    (SameFate s s' ∧ (y.stage = .committed ↔ x.stage = .committed)) ∨ Commits s s' x y := by
  have hrunning : x.stage = .running → y.stage = .running →
      (y.stage = .committed ↔ x.stage = .committed) := by
    intro hx hy
    rw [hx, hy]
  cases he with
  | still _ hfate _ _ hcommit => exact .inl ⟨hfate, hcommit⟩
  | insert _ _ _ _ hfate hrun hrun' | version _ _ _ _ _ _ _ hfate hrun hrun'
  | mark _ _ _ _ _ hfate hrun hrun' | link _ _ _ hfate hrun hrun' =>
    exact .inl ⟨hfate, hrunning hrun hrun'⟩
  | clear _ _ _ _ _ _ hfate _ _ hstage | restore _ _ _ _ _ _ _ hfate _ _ hstage =>
    exact .inl ⟨hfate, by rw [hstage]⟩
  | commit hheap hclog hkills hst hst' hsnap hundo =>
    exact .inr ⟨hheap, hclog, hkills, hst, hst', hsnap, hundo⟩

/-- The status of an id other than that of `x` does not change in a step of `x`. -/
theorem isCommitted_of_effect (he : Effect s s' x y) (hne : t ≠ x.id) :
    s'.tm.committed.isCommitted t = s.tm.committed.isCommitted t := by
  rcases fate_of_effect he with ⟨hfate, _⟩ | hc
  · rw [hfate.1]
  rw [hc.clog, Bool.eq_iff_iff, Clog.isCommitted_mark]
  constructor
  · intro ht
    exact ht.resolve_right (fun hx => hne hx.1)
  · exact .inl

/-- Nobody's undo list keeps the id of an open transaction. -/
theorem isCommitted_prev (hr : Rows s) (hx : x ∈ s.trxs) (hz : z ∈ s.trxs) (he : Effect s s' x y)
    {u : Undo} (hu : u ∈ z.undo) :
    s'.tm.committed.isCommitted u.prevDeleter = s.tm.committed.isCommitted u.prevDeleter :=
  isCommitted_of_effect he (((hr.trx z hz).prevs u hu).2 x hx).symm

theorem not_committed_before (he : Effect s s' x y) (hst : y.stage ≠ .committed) :
    x.stage ≠ .committed := by
  rcases fate_of_effect he with ⟨_, hiff⟩ | hc
  · exact hiff.not.mp hst
  · exact absurd hc.to_ hst

theorem fate_of_running (he : Effect s s' x y) (hrun : x.stage = .running) : SameFate s s' := by
  rcases fate_of_effect he with ⟨hfate, _⟩ | hc
  · exact hfate
  · cases hrun.symm.trans hc.from_

theorem isCommitted_mono (he : Effect s s' x y) (ht : s.tm.committed.isCommitted t = true) :
    s'.tm.committed.isCommitted t = true := by
  rcases fate_of_effect he with ⟨hfate, _⟩ | hc
  · rw [hfate.1]
    exact ht
  · rw [hc.clog, Clog.isCommitted_mark]
    exact .inl ht

theorem kills_mono (he : Effect s s' x y) (k : (Nat × Rid) × Nat) (hk : k ∈ s.kills) :
    k ∈ s'.kills := by
  rcases fate_of_effect he with ⟨hfate, _⟩ | hc
  · rw [hfate.2]
    exact hk
  · rw [hc.kills]
    exact mem_append_right _ hk

/-- What is new in the history is what `x` marked before it committed. -/
theorem mem_kills_of_effect (he : Effect s s' x y) (hk : (e, t) ∈ s'.kills) :
    (e, t) ∈ s.kills ∨ (t = x.id ∧ e ∈ x.marks ∧ Commits s s' x y) := by
  rcases fate_of_effect he with ⟨hfate, _⟩ | hc
  · rw [hfate.2] at hk
    exact .inl hk
  rw [hc.kills, mem_append, List.mem_map] at hk
  rcases hk with ⟨_, hm, heq⟩ | hk
  · rw [Prod.mk.injEq] at heq
    exact .inr ⟨heq.2.symm, heq.1 ▸ hm, hc⟩
  · exact .inl hk

/-- Only one step commits a transaction. -/
theorem commits_act (hb : Books s) (hx : x ∈ s.trxs) (hs : SessionStep s x a s')
    (hc : Commits s s' x y) : a = .markCommitted := by
  have hno : s'.tm.committed ≠ s.tm.committed := by
    intro hsame
    have hnc := hb.not_committed hx (hc.from_.trans_ne nofun)
    have hyes : s'.tm.committed.isCommitted x.id = true := by
      rw [hc.clog, Clog.isCommitted_mark]
      exact .inr ⟨rfl, Nat.pos_iff_ne_zero.mp (hb.trx x hx).pos⟩
    rw [hsame, hnc] at hyes
    cases hyes
  cases hs with
  | markCommitted => rfl
  | _ => exact absurd rfl hno

theorem commits_of_mark (h : Rows s) (hx : x ∈ s.trxs) (hs : SessionStep s x .markCommitted s') :
    ∃ y, Effect s s' x y ∧ Commits s s' x y := by
  cases hs with
  | markCommitted hst =>
    have hpn := Rows.pending_none_of_stage h hx (hst.trans_ne nofun)
    exact ⟨{ x with stage := .committed }, .commit rfl rfl rfl hst rfl rfl rfl hpn hpn,
      ⟨rfl, rfl, rfl, hst, rfl, rfl, rfl⟩⟩

theorem kills_of_ne (hs : SessionStep s x a s') (ha : a ≠ .markCommitted) : s'.kills = s.kills := by
  cases hs with
  | markCommitted => exact absurd rfl ha
  | _ => rfl

/-- A marker of an open transaction is not a committed delete. -/
theorem not_committed_of_marks (hr : Rows s) (hx : x ∈ s.trxs) (hst : x.stage ≠ .committed)
    (hmark : e ∈ x.marks) (hv : s.heap.get e.1 e.2 = some v) :
    s.tm.committed.isCommitted v.deleter = false := by
  rcases (hr.trx x hx).marked e hmark with ⟨_, hw, hd, _⟩
  cases hv.symm.trans hw
  exact hd ▸ hr.books.not_committed hx hst

namespace Kills

/-- A version that was deleted for good is not one an open transaction made. -/
theorem killed_survives (h : Kills s) (hk : (e, t) ∈ s.kills) (hx : x ∈ s.trxs)
    (hv : s.heap.get e.1 e.2 = some v) : ¬ (v.creator = x.id ∧ x.stage ≠ .committed) := by
  intro hopen
  have hb := h.rows.books
  rcases h.present e t hk with ⟨_, hw, hown⟩
  rw [hv, some.injEq] at hw
  rw [← hw, hopen.1] at hown
  rcases hown with hown | hcount
  · have hnc := hb.not_committed hx hopen.2
    rw [hown, h.committed e t hk] at hnc
    cases hnc
  · exact not_counted hb hx hopen.2 hcount

theorem moved (h : Kills s) (hr : Rows s') (hx : x ∈ s.trxs) (hm : Moved s s' x y)
    (he : Effect s s' x y) : Kills s' := by
  have hb := h.rows.books
  have hmono := kills_mono he
  constructor
  case rows => exact hr
  case committed =>
    intro e t hk
    rcases mem_kills_of_effect he hk with hk | ⟨rfl, _, hc⟩
    · exact isCommitted_mono he (h.committed e t hk)
    · rw [hc.clog, Clog.isCommitted_mark]
      exact .inr ⟨rfl, Nat.pos_iff_ne_zero.mp (hb.trx x hx).pos⟩
  case present =>
    intro e t hk
    rcases mem_kills_of_effect he hk with hk | ⟨rfl, hmark, hc⟩
    · rcases h.present e t hk with ⟨v, hv, hown⟩
      rcases stored_kept he hv with ⟨w, hw, hcr, _⟩ | ⟨hcr, hst⟩
      · exact ⟨w, hw, hcr.symm ▸ hown.imp_right (hm.counted _)⟩
      · exact absurd ⟨hcr, hst⟩ (h.killed_survives hk hx hv)
    · rcases (h.rows.trx x hx).marked e hmark with ⟨v, hv, _, hfirm⟩
      exact ⟨v, by rw [hc.heap, hv], hfirm.imp_right (hm.counted _)⟩
  case stored =>
    intro f rid _ hw hcm
    rcases stored_of_effect he hw with ⟨v, hv, _, hd⟩ | ⟨_, _, h0, _⟩ |
      ⟨v, _, _, hd, hrun⟩ | ⟨v, _, _, hst, u, hu, hmark, hprev⟩
    · rw [← hd] at hcm ⊢
      by_cases hdx : v.deleter = x.id
      · rcases fate_of_effect he with ⟨hfate, _⟩ | hc
        · rw [hfate.1] at hcm
          exact hmono _ (h.stored f rid v hv hcm)
        · rw [hc.kills, mem_append, List.mem_map]
          exact .inl ⟨(f, rid), Rows.marks_of_deleter h.rows hx hv hdx, by rw [hdx]⟩
      · rw [isCommitted_of_effect he hdx] at hcm
        exact hmono _ (h.stored f rid v hv hcm)
    · rw [h0, Clog.isCommitted_iff] at hcm
      exact absurd rfl hcm.1
    · rw [hd, (fate_of_running he hrun).1, hb.not_committed hx (by rw [hrun]; nofun)] at hcm
      cases hcm
    · rw [← hprev] at hcm ⊢
      rw [isCommitted_prev h.rows hx hx he hu] at hcm
      exact hmono _ (h.prev x hx hst u hu (f, rid) hmark hcm)
  case prev =>
    intro z hz hst u hu e hmark hcm
    rcases hm.cases hz with rfl | ⟨hz, _⟩
    · rcases undo_of_effect he hu hmark with ⟨o, ho, hmo, hp⟩ | ⟨hrun, v, hv, hp, _⟩
      · rw [← hp] at hcm ⊢
        rw [isCommitted_prev h.rows hx hx he ho] at hcm
        exact hmono _ (h.prev x hx (not_committed_before he hst) o ho e hmo hcm)
      · rw [hp] at hcm ⊢
        rw [(fate_of_running he hrun).1] at hcm
        exact hmono _ (h.stored e.1 e.2 v hv hcm)
    · rw [isCommitted_prev h.rows hx hz he hu] at hcm
      exact hmono _ (h.prev z hz hst u hu e hmark hcm)
  case ended =>
    intro z hz hst
    rcases hm.cases hz with rfl | ⟨hz, _⟩
    · exact ended_of_effect he (h.ended x hx) hst
    · exact h.ended z hz hst

theorem dropped (h : Kills s) (hr : Rows s') (hd : Dropped s s' x) : Kills s' := by
  constructor
  case rows => exact hr
  case committed =>
    rw [hd.kills, hd.tm]
    exact h.committed
  case present =>
    unfold Counted
    rw [hd.kills, hd.heap, hd.tm]
    exact h.present
  case stored =>
    rw [hd.kills, hd.tm, hd.heap]
    exact h.stored
  case prev =>
    rw [hd.kills, hd.tm]
    exact fun z hz => h.prev z (hd.mem hz)
  case ended => exact fun z hz => h.ended z (hd.mem hz)

theorem begin (h : Kills s) :
    Kills { s with tm := s.tm.beginOpen.2, trxs := TrxState.fresh s.tm.nextId :: s.trxs } := by
  constructor
  case rows => exact h.rows.begin
  case committed => exact h.committed
  case present =>
    intro e t hk
    rcases h.present e t hk with ⟨v, hv, hown⟩
    exact ⟨v, hv, hown.imp_right (counted_begin h.rows.books)⟩
  case stored => exact h.stored
  case prev => exact forall_mem_cons.mpr ⟨fun _ => nofun, h.prev⟩
  case ended => exact forall_mem_cons.mpr ⟨fun _ => rfl, h.ended⟩

theorem step (h : Kills s) (hstep : s.step l = some s') : Kills s' := by
  have hr := h.rows.step hstep
  cases step_cases hstep with
  | begin => exact begin h
  | act _ _ _ hx hs =>
    rcases effect_of_step h.rows hx hs with ⟨_, hm, he⟩ | hd
    · exact moved h hr hx hm he
    · exact dropped h hr hd

theorem of_opened (h : Opened s) : Kills s := by
  have hno : ∀ x, x ∉ s.trxs := by
    simp [h.trxs]
  constructor
  case rows => exact h.rows
  case committed => exact fun e t hk => ((h.kills e t).mp hk).1
  case present =>
    intro e t hk
    rcases (h.kills e t).mp hk with ⟨ht, v, hv, rfl⟩
    exact ⟨v, hv, .inr (h.deleted e.1 e.2 v hv ht)⟩
  case stored => exact fun f rid v hv hc => (h.kills (f, rid) v.deleter).mpr ⟨hc, v, hv, rfl⟩
  case prev => exact fun x hx => absurd hx (hno x)
  case ended => exact fun x hx => absurd hx (hno x)

end Kills

/-- What a snapshot counts as committed is the same after a step. -/
theorem committedBefore_of_effect (hb : Books s) (hx : x ∈ s.trxs) (hz : z ∈ s.trxs)
    (he : Effect s s' x y) (t : Nat) :
    z.committedBefore s'.tm.committed t = z.committedBefore s.tm.committed t := by
  rcases fate_of_effect he with ⟨hfate, _⟩ | hc
  · rw [hfate.1]
  · rw [hc.clog]
    exact hb.committedBefore_mark hx hz hc.from_ t

/-- Of a version it sees, a transaction does not count the deleter as committed. -/
theorem not_committedBefore_of_visible (hvis : x.visible clog v = true) (h0 : v.deleter ≠ 0) :
    x.committedBefore clog v.deleter = false := by
  unfold TrxState.visible TrxState.committedBefore at *
  cases hs : x.snapshot with
  | none => rfl
  | some =>
    rw [hs, any_some] at hvis
    rw [any_some]
    simp only [Snapshot.visible, ne_eq, h0, not_false_eq_true, decide_true, Bool.true_and,
      Bool.and_eq_true, Bool.not_eq_true', Bool.or_eq_false_iff] at hvis
    exact hvis.2.2

theorem ne_zero_of_committed (h : clog.isCommitted t = true) : t ≠ 0 :=
  ((Clog.isCommitted_iff clog t).mp h).1

/-- A transaction that is not committed conflicts with every committed one it does not count. -/
theorem conflicting_of_committed (hb : Books s) (hx : x ∈ s.trxs) (hst : x.stage ≠ .committed)
    (ht : s.tm.committed.isCommitted t = true)
    (hbefore : x.committedBefore s.tm.committed t = false) :
    x.conflictingCommitter s.tm.committed t = true := by
  have hne : t ≠ x.id := by
    intro he
    rw [he, hb.not_committed hx hst] at ht
    cases ht
  have h0 := ne_zero_of_committed ht
  simp [TrxState.conflictingCommitter, h0, hne, hbefore, ht]

namespace Guarded

/-- The check before a write finds every committed delete of a picked version. -/
theorem unmarked (h : Kills s) (hg : Guarded s) (hx : x ∈ s.trxs) (hrun : x.stage = .running)
    {st : Statement} (hstmt : x.stmt = some st) {r : Rid} (hr : r ∈ st.claims)
    (hv : s.heap.get st.table r = some v) (hnoconf : s.rowWasConcurrentlyModified x v = false) :
    s.tm.committed.isCommitted v.deleter = false := by
  cases hc : s.tm.committed.isCommitted v.deleter with
  | false => rfl
  | true =>
    have hst : x.stage ≠ .committed := hrun.trans_ne nofun
    have hbefore := hg.claims x hx hrun st hstmt r hr v.deleter (h.stored st.table r v hv hc)
    have hconf := conflicting_of_committed h.rows.books hx hst hc hbefore
    cases hconf.symm.trans hnoconf

theorem moved (h : Kills s) (hg : Guarded s) (hr : Rows s')
    (hunder : ∀ e t, (e, t) ∈ s.kills → Under s e t) (hrc : s.isolation = .readCommitted)
    (hx : x ∈ s.trxs) (hm : Moved s s' x y) (he : Effect s s' x y) (hp : Picks s x y) :
    Guarded s' := by
  have hb := h.rows.books
  constructor
  case undo =>
    intro z hz hst u hu hmark
    rcases hm.cases hz with rfl | ⟨hz, _⟩
    · rcases ne_none_iff_exists'.mp hmark with ⟨e, hme⟩
      rcases undo_of_effect he hu hme with ⟨o, ho, hmo, hprev⟩ | ⟨hrun, v, hv, hprev, hwhy⟩
      · rw [← hprev, isCommitted_prev h.rows hx hx he ho]
        exact hg.undo x hx (not_committed_before he hst) o ho (by simp [hmo])
      rw [hprev, (fate_of_running he hrun).1]
      rcases hwhy with ⟨st, hstmt, htable, hclaim, hnoconf⟩ | ⟨p, hpend, rfl⟩
      · exact unmarked h hg hx hrun hstmt hclaim (htable ▸ hv) (hnoconf hrc)
      · exact hg.pend x hx p hpend v hv
    · rw [isCommitted_prev h.rows hx hz he hu]
      exact hg.undo z hz hst u hu hmark
  case claims =>
    intro z hz hrun st hstmt r hclaim t hk
    rcases hm.cases hz with rfl | ⟨hz, _⟩
    · rcases hp hrun st hstmt r hclaim with ⟨st0, hrun0, hstmt0, htable, hsnap, hwhy⟩
      have hfate := fate_of_running he hrun0
      rw [← htable, hfate.2] at hk
      rw [hfate.1]
      unfold TrxState.committedBefore
      rw [hsnap]
      rcases hwhy with hclaim0 | ⟨v, hv, hvis⟩
      · exact hg.claims x hx hrun0 st0 hstmt0 r hclaim0 t hk
      have hct := h.committed _ t hk
      rcases hunder _ t hk with ⟨w, hw, hd⟩ | ⟨o, ho, hst, u, hu, hmark, hprev⟩
      · rw [hv, some.injEq] at hw
        rw [← hd, ← hw]
        refine not_committedBefore_of_visible hvis ?_
        rw [hw, hd]
        exact ne_zero_of_committed hct
      · -- a committed delete is never under a mark
        have hclean := hg.undo o ho hst u hu (by simp [hmark])
        cases hclean.symm.trans (hprev ▸ hct)
    · rw [committedBefore_of_effect hb hx hz he]
      rcases mem_kills_of_effect he hk with hk | ⟨rfl, _, hc⟩
      · exact hg.claims z hz hrun st hstmt r hclaim t hk
      · refine hb.not_committedBefore z hx ?_
        exact hc.from_.trans_ne nofun
  case pend =>
    intro z hz p hpend w hw
    rcases hm.cases hz with rfl | ⟨hz0, _⟩
    · rcases pending_of_effect he hpend with ⟨hfate, ⟨hxp, hheap⟩ |
        ⟨hrun, v, st, hv, hv', hstmt, htable, hclaim, hnoconf⟩⟩
      · rw [hfate.1]
        exact hg.pend x hx p hxp w (hheap ▸ hw)
      · rw [hv', some.injEq] at hw
        rw [← hw, hfate.1]
        exact unmarked h hg hx hrun hstmt hclaim (htable ▸ hv) (hnoconf hrc)
    · -- the lock keeps everyone else from the version
      have hpok := (hr.trx z hz).pend p hpend
      have hgone := Rows.gone_of_lock hr hz hw hpok.lock hpok.writable.1
      have hwx : w.deleter ≠ x.id := hm.id ▸ (hgone.2 y (hm.self hx)).symm
      rw [isCommitted_of_effect he hwx]
      rcases stored_of_effect he hw with ⟨v, hv, _, hd⟩ | ⟨_, _, h0, _⟩ |
        ⟨v, _, _, hd, _⟩ | ⟨v, _, _, hst, u, hu, hmark, hprev⟩
      · rw [← hd]
        exact hg.pend z hz0 p hpend v hv
      · rw [h0]
        rfl
      · exact absurd hd hwx
      · rw [← hprev]
        exact hg.undo x hx hst u hu (by simp [hmark])

theorem dropped (hg : Guarded s) (hd : Dropped s s' x) : Guarded s' := by
  constructor
  case undo =>
    intro z hz
    rw [hd.tm]
    exact hg.undo z (hd.mem hz)
  case claims =>
    intro z hz
    rw [hd.tm, hd.kills]
    exact hg.claims z (hd.mem hz)
  case pend =>
    intro z hz
    rw [hd.tm, hd.heap]
    exact hg.pend z (hd.mem hz)

theorem begin (hg : Guarded s) :
    Guarded { s with tm := s.tm.beginOpen.2, trxs := TrxState.fresh s.tm.nextId :: s.trxs } := by
  constructor
  case undo => exact forall_mem_cons.mpr ⟨fun _ => nofun, hg.undo⟩
  case claims => exact forall_mem_cons.mpr ⟨fun _ => nofun, hg.claims⟩
  case pend => exact forall_mem_cons.mpr ⟨nofun, hg.pend⟩

end Guarded

namespace Intact

/-- No committed delete is found among the marks of a transaction that keeps none in its undo
    list. -/
theorem no_kill_of_clean (h : Intact s) (hx : x ∈ s.trxs) (hst : x.stage ≠ .committed)
    (hclean : ∀ u ∈ x.undo, u.marked ≠ none → s.tm.committed.isCommitted u.prevDeleter = false)
    (e : Nat × Rid) (hmark : e ∈ x.marks) (t : Nat) : (e, t) ∉ s.kills := by
  intro hk
  have hr := h.kills.rows
  have hct := h.kills.committed e t hk
  rcases h.under e t hk with ⟨_, hv, hd⟩ | ⟨z, hz, _, u, hu, hmu, hprev⟩
  · cases (not_committed_of_marks hr hx hst hmark hv).symm.trans (hd ▸ hct)
  · have hzm : e ∈ z.marks := (Rows.mem_marks_iff z e).mpr ⟨u, hu, hmu⟩
    have hid := hr.excl _ _ _ ((hr.trx z hz).held e hzm) ((hr.trx x hx).held e hmark)
    rw [Books.eq_of_id hr.books hz hx hid] at hu
    have hno := hclean u hu (by simp [hmu])
    cases hno.symm.trans (hprev ▸ hct)

/-- What the checks leave of a transaction about to commit. -/
theorem clean_of_commitOk (h : Intact s) (hx : x ∈ s.trxs) (hst : x.stage = .checked)
    (hok : CommitOk s (.act x.id .markCommitted)) :
    ∀ u ∈ x.undo, u.marked ≠ none → s.tm.committed.isCommitted u.prevDeleter = false := by
  intro u hu hmark
  have hb := h.kills.rows.books
  have hnc : x.stage ≠ .committed := hst.trans_ne nofun
  by_cases hrc : s.isolation = .readCommitted
  · exact (h.guarded hrc).undo x hx hnc u hu hmark
  have hbefore := (hok.resolve_left hrc) x (hb.trx_of_mem hx) u hu hmark
  have hconf := h.checked hrc x hx hst u hu hmark
  cases hc : s.tm.committed.isCommitted u.prevDeleter with
  | false => rfl
  | true =>
    cases (conflicting_of_committed hb hx hnc hc hbefore).symm.trans hconf

theorem under_moved (h : Intact s) (hx : x ∈ s.trxs) (hm : Moved s s' x y) (he : Effect s s' x y)
    (hnew : Commits s s' x y → ∀ e ∈ x.marks, ∀ t, (e, t) ∉ s.kills) :
    ∀ e t, (e, t) ∈ s'.kills → Under s' e t := by
  intro e t hk
  have hr := h.kills.rows
  rcases mem_kills_of_effect he hk with hk | ⟨rfl, hmark, hc⟩
  · have hct := h.kills.committed e t hk
    rcases h.under e t hk with ⟨v, hv, hd⟩ | ⟨z, hz, hst, u, hu, hmu, hprev⟩
    · rcases stored_kept he hv with
        ⟨w, hw, _, hsame | ⟨hmark, hst⟩ | ⟨hrun, u, hu, hmu, hprev⟩⟩ | ⟨hcr, hst⟩
      · exact .inl ⟨w, hw, hsame.trans hd⟩
      · cases (not_committed_of_marks hr hx hst hmark hv).symm.trans (hd ▸ hct)
      · refine .inr ⟨y, hm.self hx, ?_, u, hu, hmu, hprev.trans hd⟩
        exact hrun.trans_ne nofun
      · exact absurd ⟨hcr, hst⟩ (h.kills.killed_survives hk hx hv)
    · by_cases hzx : z.id = x.id
      · rw [Books.eq_of_id hr.books hz hx hzx] at hu hst
        have hyst : y.stage ≠ .committed := by
          rcases fate_of_effect he with ⟨_, hiff⟩ | hc
          · exact hiff.not.mpr hst
          · exact absurd hk (hnew hc e ((Rows.mem_marks_iff x e).mpr ⟨u, hu, hmu⟩) t)
        rcases undo_kept he hu hmu with ⟨o, ho, hmo, hpo, _⟩ | ⟨_, w, _, hw⟩
        · exact .inr ⟨y, hm.self hx, hyst, o, ho, hmo, hpo.trans hprev⟩
        · exact .inl ⟨_, hw, hprev⟩
      · exact .inr ⟨z, hm.other hz hzx, hst, u, hu, hmu, hprev⟩
  · rcases (hr.trx x hx).marked e hmark with ⟨v, hv, hd, _⟩
    exact .inl ⟨v, by rw [hc.heap, hv], hd⟩

theorem checked_moved (h : Intact s) (hx : x ∈ s.trxs) (hm : Moved s s' x y) (he : Effect s s' x y)
    (hiso : s.isolation ≠ .readCommitted) :
    ∀ z ∈ s'.trxs, z.stage = .checked → ∀ u ∈ z.undo, u.marked ≠ none →
      z.conflictingCommitter s'.tm.committed u.prevDeleter = false := by
  intro z hz hst u hu hmark
  have hr := h.kills.rows
  rcases hm.cases hz with rfl | ⟨hz, _⟩
  · rcases checked_of_effect he hst with ⟨hfate, hsnap, hundo, hwhy⟩
    rw [hundo] at hu
    have hx' : x.conflictingCommitter s.tm.committed u.prevDeleter = false := by
      rcases hwhy with hck | hrc | hpass
      · exact h.checked hiso x hx hck u hu hmark
      · exact absurd hrc hiso
      have hpu := hpass u hu
      rcases ne_none_iff_exists'.mp hmark with ⟨_, hme⟩
      unfold entryPasses at hpu
      simp only [hme, Bool.and_eq_true, Bool.not_eq_true'] at hpu
      exact hpu.1
    unfold TrxState.conflictingCommitter TrxState.committedBefore at hx' ⊢
    rw [hm.id, hsnap, hfate.1]
    exact hx'
  · unfold TrxState.conflictingCommitter
    rw [committedBefore_of_effect hr.books hx hz he, isCommitted_prev hr hx hz he hu]
    exact h.checked hiso z hz hst u hu hmark

theorem moved (h : Intact s) (hk : Kills s') (hx : x ∈ s.trxs) (hm : Moved s s' x y)
    (he : Effect s s' x y) (hp : Picks s x y)
    (hnew : Commits s s' x y → ∀ e ∈ x.marks, ∀ t, (e, t) ∉ s.kills) : Intact s' where
  kills := hk
  under := under_moved h hx hm he hnew
  guarded := by
    intro hrc
    rw [hm.isolation] at hrc
    exact (h.guarded hrc).moved h.kills hk.rows h.under hrc hx hm he hp
  checked := by
    intro hiso
    rw [hm.isolation] at hiso
    exact checked_moved h hx hm he hiso

theorem dropped (h : Intact s) (hk : Kills s') (hx : x ∈ s.trxs) (hd : Dropped s s' x) :
    Intact s' where
  kills := hk
  under := by
    intro e t hkill
    rw [hd.kills] at hkill
    rcases h.under e t hkill with ⟨v, hv, hdel⟩ | ⟨z, hz, hst, u, hu, hmu, hprev⟩
    · exact .inl ⟨v, by rw [hd.heap, hv], hdel⟩
    refine .inr ⟨z, ?_, hst, u, hu, hmu, hprev⟩
    rw [hd.trxs, mem_dropTrx]
    refine ⟨hz, fun hid => ?_⟩
    rw [Books.eq_of_id h.kills.rows.books hz hx hid] at hst hu
    rcases hd.hasEnded with hend | hc
    · rw [h.kills.ended x hx hend] at hu
      cases hu
    · exact hst hc
  guarded := by
    intro hrc
    rw [hd.isolation] at hrc
    exact (h.guarded hrc).dropped hd
  checked := by
    intro hiso z hz
    rw [hd.isolation] at hiso
    rw [hd.tm]
    exact h.checked hiso z (hd.mem hz)

theorem begin (h : Intact s) :
    Intact { s with tm := s.tm.beginOpen.2, trxs := TrxState.fresh s.tm.nextId :: s.trxs } where
  kills := h.kills.begin
  under := by
    intro e t hk
    rcases h.under e t hk with hstored | ⟨z, hz, hrest⟩
    · exact .inl hstored
    · exact .inr ⟨z, mem_cons_of_mem _ hz, hrest⟩
  guarded := fun hrc => (h.guarded hrc).begin
  checked := fun hiso => forall_mem_cons.mpr ⟨nofun, h.checked hiso⟩

theorem step (h : Intact s) (hok : CommitOk s l) (hstep : s.step l = some s') : Intact s' := by
  have hk := h.kills.step hstep
  cases step_cases hstep with
  | begin => exact begin h
  | act x _ _ hx hs =>
    rcases effect_of_step h.kills.rows hx hs with ⟨_, hm, he⟩ | hd
    · have hp := picks_of_step hx hs hm h.kills.rows.books
      refine moved h hk hx hm he hp ?_
      intro hc e hmark t
      refine no_kill_of_clean h hx (hc.from_.trans_ne nofun) ?_ e hmark t
      have ha := commits_act h.kills.rows.books hx hs hc
      rw [ha] at hok
      exact clean_of_commitOk h hx hc.from_ hok
    · exact dropped h hk hx hd

theorem of_opened (h : Opened s) : Intact s := by
  have hno : ∀ x, x ∉ s.trxs := by
    simp [h.trxs]
  constructor
  case kills => exact Kills.of_opened h
  case under => exact fun e t hk => .inl ((h.kills e t).mp hk).2
  case guarded =>
    intro _
    exact ⟨fun x hx => absurd hx (hno x), fun x hx => absurd hx (hno x),
      fun x hx => absurd hx (hno x)⟩
  case checked => exact fun _ x hx => absurd hx (hno x)

end Intact

end ChibiDb.Sessions
