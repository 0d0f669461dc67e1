import ChibiDb.Theory.SessionBooks

/-!
# Rows, Locks and the Transactions That Write Them

Who may touch which version, in every reachable state of the sessions. A
transaction that has marked a version holds its row lock and its id is in the
header; a version is only marked by a transaction that created it or for which
the creator had committed; what a transaction created is there until it takes
it back. The undo list is in an order that can be taken back: an entry that
created a slot comes before every mark on it.

A header names ids of transactions that are gone, apart from those that still
hold the version.

## Main definitions

* `Gone`: An id that was handed out and that no transaction has any more.
* `Counted`, `Firm`: Creators whose versions a transaction may write.
* `Apart`: Two undo entries that do not get in each other's way.
* `StmtOk`, `PendOk`, `RowOk`, `Rows`: The invariant.
* `Opened`: The states runs start from.

## Theorems

* `Opened.rows`: The invariant holds there.
* `Rows.step`: Every step keeps the invariant.
* `firm_of_visible`: A visible version is safe to write.
-/

namespace ChibiDb

open List
open Option hiding or_assoc
open TrxState (creates fresh marks visible)

/-- The version the check under way is to replace. -/
def Statement.excluded (st : Statement) : Option Rid := st.check.bind (fun c => c.exclude)

/-- A version is picked once: as a target, in the plan or under check. -/
def Statement.Apart (st : Statement) : Prop :=
  (∀ r ∈ st.targets, r ∉ st.plan.map (fun e => e.1) ∧ st.excluded ≠ some r) ∧
    ∀ r ∈ st.plan.map (fun e => e.1), st.excluded ≠ some r

theorem Statement.mem_claims (st : Statement) (r : Rid) :
    r ∈ st.claims ↔
      r ∈ st.targets ∨ r ∈ st.plan.map (fun e => e.1) ∨ st.excluded = some r := by
  unfold Statement.claims Statement.excluded
  rw [mem_append, mem_append, mem_toList, or_assoc]

/-- What is picked, read off the three places a version can be in. -/
theorem Statement.apart_congr (st : Statement) {st' : Statement}
    (htargets : st'.targets = st.targets) (hplan : st'.plan = st.plan)
    (hexcluded : st'.excluded = st.excluded) (h : st.Apart) : st'.Apart := by
  unfold Statement.Apart at h ⊢
  rw [htargets, hplan, hexcluded]
  exact h

theorem Statement.claims_congr (st : Statement) {st' : Statement}
    (htargets : st'.targets = st.targets) (hplan : st'.plan = st.plan)
    (hexcluded : st'.excluded = st.excluded) : ∀ r ∈ st'.claims, r ∈ st.claims := by
  intro r hr
  rw [Statement.mem_claims, htargets, hplan, hexcluded] at hr
  exact (st.mem_claims r).mpr hr

theorem Statement.excluded_of_check (st : Statement) {c : UniqueCheck} (h : st.check = some c) :
    st.excluded = c.exclude := by
  unfold Statement.excluded
  rw [h]
  rfl

/-- A newer undo entry and an older one: the newer one did not create a slot the
    older one wrote, and did not mark a version again. -/
def Undo.Apart (a b : Undo) : Prop :=
  (∀ e, a.created = some e → b.marked ≠ some e ∧ b.created ≠ some e) ∧
    ∀ e, a.marked = some e → b.marked ≠ some e

namespace Sessions

/-- The id was handed out, and its transaction is gone. -/
def Gone (s : Sessions) (m : Nat) : Prop := m < s.tm.nextId ∧ ∀ y ∈ s.trxs, y.id ≠ m

/-- The creator counts for everyone from now on: it has committed and left the
    open set, or is the id that stands for no transaction. -/
def Counted (s : Sessions) (c : Nat) : Prop :=
  c = 0 ∨ (s.tm.committed.isCommitted c = true ∧ c ∉ s.tm.openSet)

/-- The creator is the transaction itself or one that counts. -/
def Firm (s : Sessions) (x : TrxState) (c : Nat) : Prop := c = x.id ∨ s.Counted c

/-- A version that `x` may still write. -/
def Writable (s : Sessions) (x : TrxState) (f : Nat) (rid : Rid) : Prop :=
  (f, rid) ∉ x.marks ∧ ∃ v, s.heap.get f rid = some v ∧ s.Firm x v.creator

/-- What a running statement has picked. -/
structure StmtOk (s : Sessions) (x : TrxState) (st : Statement) : Prop where
  apart : st.Apart
  writable : ∀ r ∈ st.claims, s.Writable x st.table r

/-- An update between its two halves. -/
structure PendOk (s : Sessions) (x : TrxState) (p : PendingUpdate) : Prop where
  running : x.stage = .running
  stmt : ∃ st, x.stmt = some st ∧ st.writing = true ∧ st.table = p.fileNo ∧ p.oldRid ∉ st.claims
  lock : (.row p.fileNo p.oldRid, x.id) ∈ s.locks
  writable : s.Writable x p.fileNo p.oldRid
  fresh : ∀ u ∈ x.undo, u.marked ≠ some (p.fileNo, p.newRid) ∧
    u.created ≠ some (p.fileNo, p.newRid)
  split : p.oldRid ≠ p.newRid

/-- One transaction and the rows it wrote. -/
structure RowOk (s : Sessions) (x : TrxState) : Prop where
  held : ∀ e ∈ x.marks, (.row e.1 e.2, x.id) ∈ s.locks
  marked : ∀ e ∈ x.marks, ∃ v, s.heap.get e.1 e.2 = some v ∧ v.deleter = x.id ∧
    s.Firm x v.creator
  created : ∀ e ∈ x.creates, ∃ v, s.heap.get e.1 e.2 = some v ∧ v.creator = x.id
  order : x.undo.Pairwise Undo.Apart
  split : ∀ u ∈ x.undo, ∀ e, u.created = some e → u.marked ≠ some e
  prevs : ∀ u ∈ x.undo, s.Gone u.prevDeleter
  pend : ∀ p, x.pending = some p → s.PendOk x p
  stmt : ∀ st, x.stmt = some st → x.stage = .running → s.StmtOk x st

/-- Rows, locks and transactions agree. -/
structure Rows (s : Sessions) : Prop where
  books : Books s
  excl : ∀ k a b, (k, a) ∈ s.locks → (k, b) ∈ s.locks → a = b
  marker : ∀ f rid v, s.heap.get f rid = some v →
    s.Gone v.deleter ∨ ∃ x ∈ s.trxs, x.id = v.deleter ∧ (f, rid) ∈ x.marks
  creator : ∀ f rid v, s.heap.get f rid = some v →
    s.Gone v.creator ∨ ∃ x ∈ s.trxs, x.id = v.creator ∧ (f, rid) ∈ x.creates
  trx : ∀ x ∈ s.trxs, RowOk s x

variable {s s' : Sessions} {x : TrxState} {m : Nat} {v : Version}
variable {st' : Statement} {id : Nat}

theorem gone_zero (h : Books s) : s.Gone 0 := by
  refine ⟨h.pos, fun y hy hid => ?_⟩
  have := (h.trx y hy).pos
  omega

/-- A transaction that may still end either way does not count. -/
theorem not_counted (h : Books s) (hx : x ∈ s.trxs) (hst : x.stage ≠ .committed) :
    ¬ s.Counted x.id := by
  intro hc
  have hok := h.trx x hx
  rcases hc with hc | hc
  · have := hok.pos
    omega
  · exact hst (hok.status.mp hc.1)

/-- A new id is above all that count. -/
theorem counted_begin (h : Books s) (hm : s.Counted m) :
    Counted { s with tm := s.tm.beginOpen.2, trxs := fresh s.tm.nextId :: s.trxs } m := by
  refine hm.imp_right (fun hc => ⟨hc.1, fun ho => ?_⟩)
  rcases mem_insert_iff.mp ho with _ | ho
  · have := h.committedLt m hc.1
    omega
  · exact hc.2 ho

/-- Whatever leaves the open set, and whoever commits, the ids that count go on counting. -/
theorem counted_removeOpen (htm : s'.tm = s.tm.removeOpen id) (m : Nat)
    (hm : s.Counted m) : s'.Counted m := by
  refine hm.imp_right (fun hc => ?_)
  rw [htm]
  exact ⟨hc.1, fun ho => hc.2 (mem_filter.mp ho).1⟩

theorem counted_markCommitted (htm : s'.tm = s.tm.markCommitted id) (m : Nat)
    (hm : s.Counted m) : s'.Counted m := by
  refine hm.imp_right (fun hc => ?_)
  rw [htm]
  exact ⟨(Clog.isCommitted_mark _ _ _).mpr (.inl hc.1), hc.2⟩

theorem firm_of_visible (h : Books s) (hx : x ∈ s.trxs) (hvis : x.visible s.tm.committed v = true) :
    s.Firm x v.creator := by
  unfold visible at hvis
  rw [Option.any_eq_true] at hvis
  rcases hvis with ⟨snap, hsnap, hvis⟩
  simp only [Snapshot.visible, Bool.and_eq_true, Bool.or_eq_true, decide_eq_true_eq] at hvis
  rcases hvis.1 with (hc | hc) | hc
  · exact Or.inr (Or.inl hc)
  · exact Or.inl hc
  rw [committedBefore_iff] at hc
  refine Or.inr (Or.inr ⟨hc.2.2, fun hopen => ?_⟩)
  rcases ((h.trx x hx).snap snap hsnap).2 _ hopen with _ | hin
  · omega
  · exact hc.2.1 hin

/-- What `x` sees, it has not marked. -/
theorem deleter_ne_of_visible {clog : Clog} (hpos : 0 < x.id) (hvis : x.visible clog v = true) :
    v.deleter ≠ x.id := by
  intro hd
  unfold visible at hvis
  rw [Option.any_eq_true] at hvis
  rcases hvis with ⟨_, _, hvis⟩
  have hne : x.id ≠ 0 := Nat.pos_iff_ne_zero.mp hpos
  simp [Snapshot.visible, hd, hne] at hvis

/-- A database no transaction has touched since it was opened. -/
structure Opened (s : Sessions) : Prop where
  pos : 0 < s.tm.nextId
  trxs : s.trxs = []
  openSet : s.tm.openSet = []
  locks : s.locks = []
  committedLt : ∀ t, s.tm.committed.isCommitted t = true → t < s.tm.nextId
  headers : ∀ f rid v, s.heap.get f rid = some v →
    v.creator < s.tm.nextId ∧ v.deleter < s.tm.nextId
  /-- Who deleted a version had seen it. -/
  deleted : ∀ f rid v, s.heap.get f rid = some v →
    s.tm.committed.isCommitted v.deleter = true → s.Counted v.creator
  /-- The markers on the pages say which versions are deleted. -/
  kills : ∀ e t, (e, t) ∈ s.kills ↔
    s.tm.committed.isCommitted t = true ∧ ∃ v, s.heap.get e.1 e.2 = some v ∧ v.deleter = t

theorem Opened.gone (h : Opened s) (hm : m < s.tm.nextId) : s.Gone m := by
  refine ⟨hm, fun y hy => ?_⟩
  rw [h.trxs] at hy
  cases hy

theorem Opened.books (s : Sessions) (h : Opened s) : Books s where
  pos := h.pos
  ids := by
    rw [h.trxs]
    exact nodup_nil
  committedLt := h.committedLt
  openOf := by
    intro _ ht
    rw [h.openSet] at ht
    cases ht
  trx := by
    intro _ hx
    rw [h.trxs] at hx
    cases hx

theorem Opened.rows (s : Sessions) (h : Opened s) : Rows s where
  books := h.books
  excl := by
    intro _ _ _ ha
    rw [h.locks] at ha
    cases ha
  marker := fun f rid v hv => .inl (h.gone (h.headers f rid v hv).2)
  creator := fun f rid v hv => .inl (h.gone (h.headers f rid v hv).1)
  trx := by
    intro _ hx
    rw [h.trxs] at hx
    cases hx

namespace Rows

variable {y z : TrxState} {f g n : Nat} {rid : Rid} {st : Statement} {h : Heap} {o : Option Version}
  {row : Row} {exclude : Option Rid}

/-- A step of `x`, which is `y` after it. -/
structure Put (s s' : Sessions) (x y : TrxState) : Prop where
  books : Books s'
  mem : x ∈ s.trxs
  counted : ∀ m, s.Counted m → s'.Counted m
  trxs : s'.trxs = (s.putTrx y).trxs
  id : y.id = x.id
  next : s'.tm.nextId = s.tm.nextId

theorem gone_put (htrxs : s'.trxs = (s.putTrx y).trxs) (hid : y.id = x.id)
    (hnext : s'.tm.nextId = s.tm.nextId) (hx : x ∈ s.trxs) (hm : s.Gone m) : s'.Gone m := by
  refine ⟨hnext ▸ hm.1, fun z hz => ?_⟩
  rw [htrxs] at hz
  rcases s.mem_putTrx hz with rfl | ⟨hz, _⟩
  · rw [hid]
    exact hm.2 x hx
  · exact hm.2 z hz

theorem Put.gone (hp : Put s s' x y) : s.Gone m → s'.Gone m :=
  gone_put hp.trxs hp.id hp.next hp.mem

theorem Put.firm (hp : Put s s' x y) {c : Nat} (hc : s.Firm x c) : s'.Firm y c := by
  unfold Firm
  rw [hp.id]
  exact hc.imp_right (hp.counted c)

/-- A page is written under the row lock, or its version is the writer's own. -/
theorem firm_survives (hb : Books s) (hx : x ∈ s.trxs) (hne : z.id ≠ x.id) {c : Nat}
    (hc : s.Firm z c) : ¬ (c = x.id ∧ x.stage ≠ .committed) := by
  intro h
  rcases hc with hc | hc
  · exact hne (hc ▸ h.1)
  · exact not_counted hb hx h.2 (h.1 ▸ hc)

/-- How a step of `x` may change the pages: a version keeps its creator, its
    marker only changes under the lock of `x`, and it only goes away if it is
    a version `x` created and has not committed. -/
def Frame (s s' : Sessions) (x : TrxState) : Prop :=
  ∀ f rid v, s.heap.get f rid = some v →
    (∃ v', s'.heap.get f rid = some v' ∧ v'.creator = v.creator ∧
      (v'.deleter = v.deleter ∨ (.row f rid, x.id) ∈ s.locks)) ∨
    (v.creator = x.id ∧ x.stage ≠ .committed)

/-- A transaction relies on versions of firm creators, its locks and what is gone. -/
theorem rowOk_mono (hok : RowOk s z)
    (hold : ∀ f rid v, s.heap.get f rid = some v → s.Firm z v.creator →
      ∃ v', s'.heap.get f rid = some v' ∧ v'.creator = v.creator ∧
        (v'.deleter = v.deleter ∨ (f, rid) ∉ z.marks))
    (hset : ∀ m, s.Counted m → s'.Counted m) (hgone : ∀ m, s.Gone m → s'.Gone m)
    (hlocks : ∀ k, (k, z.id) ∈ s.locks → (k, z.id) ∈ s'.locks) : RowOk s' z := by
  have hwr : ∀ f rid, s.Writable z f rid → s'.Writable z f rid := by
    intro f rid h
    rcases h with ⟨hnot, v, hv, hfirm⟩
    rcases hold f rid v hv hfirm with ⟨v', hv', hc, _⟩
    exact ⟨hnot, v', hv', hc.symm ▸ hfirm.imp_right (hset _)⟩
  constructor
  case held => exact fun e he => hlocks _ (hok.held e he)
  case marked =>
    intro e he
    rcases hok.marked e he with ⟨v, hv, hd, hfirm⟩
    rcases hold e.1 e.2 v hv hfirm with ⟨v', hv', hc, hd'⟩
    refine ⟨v', hv', ?_, hc.symm ▸ hfirm.imp_right (hset _)⟩
    rw [hd'.resolve_right (fun h => h he), hd]
  case created =>
    intro e he
    rcases hok.created e he with ⟨v, hv, hc⟩
    rcases hold e.1 e.2 v hv (.inl hc) with ⟨v', hv', hc', _⟩
    exact ⟨v', hv', hc'.trans hc⟩
  case order => exact hok.order
  case split => exact hok.split
  case prevs => exact fun u hu => hgone _ (hok.prevs u hu)
  case pend =>
    intro p hp
    have hpok := hok.pend p hp
    exact ⟨hpok.running, hpok.stmt, hlocks _ hpok.lock, hwr _ _ hpok.writable, hpok.fresh,
      hpok.split⟩
  case stmt =>
    intro st hst hrun
    have hsok := hok.stmt st hst hrun
    exact ⟨hsok.apart, fun r hr => hwr _ _ (hsok.writable r hr)⟩

/-- The other transactions keep what they rely on. -/
theorem rowOk_other (h : Rows s) (hx : x ∈ s.trxs) (hz : z ∈ s.trxs) (hne : z.id ≠ x.id)
    (hframe : Frame s s' x) (hset : ∀ m, s.Counted m → s'.Counted m)
    (hgone : ∀ m, s.Gone m → s'.Gone m) (hlocks : ∀ e ∈ s.locks, e.2 ≠ x.id → e ∈ s'.locks) :
    RowOk s' z := by
  refine rowOk_mono (h.trx z hz) ?_ hset hgone (fun k hk => hlocks _ hk hne)
  intro f rid v hv hfirm
  rcases hframe f rid v hv with ⟨v', hv', hc, hd⟩ | hlost
  · refine ⟨v', hv', hc, hd.imp_right (fun hlock hm => ?_)⟩
    exact hne (h.excl _ _ _ ((h.trx z hz).held _ hm) hlock)
  · exact absurd hlost (firm_survives h.books hx hne hfirm)

/-- Whoever a header names is gone or has the slot on its list. -/
theorem Put.owner (h : Books s) (hp : Put s s' x y) (slots : TrxState → List (Nat × Rid))
    {e : Nat × Rid} (hkeep : e ∈ slots x → e ∈ slots y)
    (howner : s.Gone m ∨ ∃ z ∈ s.trxs, z.id = m ∧ e ∈ slots z) :
    s'.Gone m ∨ ∃ z ∈ s'.trxs, z.id = m ∧ e ∈ slots z := by
  rw [hp.trxs]
  rcases howner with hs | ⟨z, hz, hzm, hm⟩
  · exact .inl (hp.gone hs)
  by_cases hne : z.id = x.id
  · refine .inr ⟨y, s.mem_putTrx_self hp.mem hp.id, hp.id.trans (hne ▸ hzm), hkeep ?_⟩
    rw [← Books.eq_of_id h hz hp.mem hne]
    exact hm
  · exact .inr ⟨z, s.mem_putTrx_of_ne hz (hp.id.symm ▸ hne), hzm, hm⟩

theorem put (h : Rows s) (hp : Put s s' x y) (hlocks : ∀ e ∈ s.locks, e.2 ≠ x.id → e ∈ s'.locks)
    (hexcl : ∀ k a b, (k, a) ∈ s'.locks → (k, b) ∈ s'.locks → a = b) (hframe : Frame s s' x)
    (hmarker : ∀ f rid v, s'.heap.get f rid = some v → s.Gone v.deleter ∨
      (v.deleter = x.id ∧ (f, rid) ∈ y.marks) ∨
      ∃ w, s.heap.get f rid = some w ∧ w.deleter = v.deleter ∧
        ((f, rid) ∈ x.marks → (f, rid) ∈ y.marks))
    (hcreator : ∀ f rid v, s'.heap.get f rid = some v →
      (v.creator = x.id ∧ (f, rid) ∈ y.creates) ∨
      ∃ w, s.heap.get f rid = some w ∧ w.creator = v.creator ∧
        ((f, rid) ∈ x.creates → (f, rid) ∈ y.creates)) (hy : RowOk s' y) :
    Rows s' := by
  have hself : y ∈ s'.trxs := hp.trxs ▸ s.mem_putTrx_self hp.mem hp.id
  constructor
  case books => exact hp.books
  case excl => exact hexcl
  case marker =>
    intro f rid v hv
    rcases hmarker f rid v hv with hs | ⟨hd, hm⟩ | ⟨w, hw, hd, hkeep⟩
    · exact .inl (hp.gone hs)
    · exact .inr ⟨y, hself, hp.id.trans hd.symm, hm⟩
    · rw [← hd]
      exact hp.owner h.books marks hkeep (h.marker f rid w hw)
  case creator =>
    intro f rid v hv
    rcases hcreator f rid v hv with ⟨hc, hm⟩ | ⟨w, hw, hc, hkeep⟩
    · exact .inr ⟨y, hself, hp.id.trans hc.symm, hm⟩
    · rw [← hc]
      exact hp.owner h.books creates hkeep (h.creator f rid w hw)
  case trx =>
    intro _ hz
    rw [hp.trxs] at hz
    rcases s.mem_putTrx hz with rfl | ⟨hz, hne⟩
    · exact hy
    · exact rowOk_other h hp.mem hz (hp.id ▸ hne) hframe hp.counted (fun _ => hp.gone) hlocks

/-- A header that names `x` names a slot of `x`. -/
theorem marks_of_deleter (h : Rows s) (hx : x ∈ s.trxs) (hv : s.heap.get f rid = some v)
    (hd : v.deleter = x.id) : (f, rid) ∈ x.marks := by
  rcases h.marker f rid v hv with hs | ⟨_, hz, hzd, hm⟩
  · exact absurd hd.symm (hs.2 x hx)
  · rw [← Books.eq_of_id h.books hz hx (hzd.trans hd)]
    exact hm

theorem creates_of_creator (h : Rows s) (hx : x ∈ s.trxs) (hv : s.heap.get f rid = some v)
    (hc : v.creator = x.id) : (f, rid) ∈ x.creates := by
  rcases h.creator f rid v hv with hs | ⟨_, hz, hzc, hm⟩
  · exact absurd hc.symm (hs.2 x hx)
  · rw [← Books.eq_of_id h.books hz hx (hzc.trans hc)]
    exact hm

/-- The pages stay as they are, and so does what the transaction has written. -/
theorem quiet (h : Rows s) (hput : Put s s' x y) (hheap : s'.heap = s.heap)
    (hundo : y.undo = x.undo) (hpend : y.pending = x.pending)
    (hlocks : ∀ e ∈ s.locks, e.2 ≠ x.id → e ∈ s'.locks)
    (hexcl : ∀ k a b, (k, a) ∈ s'.locks → (k, b) ∈ s'.locks → a = b) (hy : RowOk s' y) :
    Rows s' := by
  have hmarks : y.marks = x.marks := congrArg (filterMap Undo.marked) hundo
  have hcreates : y.creates = x.creates := by
    unfold creates
    rw [hundo, hpend]
  refine put h hput hlocks hexcl ?_ ?_ ?_ hy
  · intro f rid v hv
    exact .inl ⟨v, by rw [hheap, hv], rfl, .inl rfl⟩
  · intro f rid v hv
    exact .inr (.inr ⟨v, hheap ▸ hv, rfl, fun hm => hmarks.symm ▸ hm⟩)
  · intro _ _ v hv
    exact .inr ⟨v, hheap ▸ hv, rfl, fun hm => hcreates.symm ▸ hm⟩

/-- It keeps its locks as well. -/
theorem keep (h : Rows s) (hput : Put s s' x y) (hheap : s'.heap = s.heap)
    (hundo : y.undo = x.undo) (hpend : y.pending = x.pending)
    (hlocks : ∀ e ∈ s.locks, e ∈ s'.locks)
    (hexcl : ∀ k a b, (k, a) ∈ s'.locks → (k, b) ∈ s'.locks → a = b) (hy : RowOk s y) :
    Rows s' := by
  refine quiet h hput hheap hundo hpend (fun e he _ => hlocks e he) hexcl ?_
  refine rowOk_mono hy (fun f rid v hv _ => ⟨v, ?_, rfl, .inl rfl⟩) hput.counted
    (fun _ => hput.gone) (fun k => hlocks _)
  rw [hheap, hv]

/-- Nothing but the statement changes, and it picks no new version. -/
theorem advance {rt wt : List Nat} (h : Rows s)
    (hput : Put s s' x { x with stmt := some st', readTables := rt, wroteTables := wt })
    (hheap : s'.heap = s.heap) (hlocks : ∀ e ∈ s.locks, e ∈ s'.locks)
    (hexcl : ∀ k a b, (k, a) ∈ s'.locks → (k, b) ∈ s'.locks → a = b) (hrun : x.stage = .running)
    (hxst : x.stmt = some st) (htable : st'.table = st.table)
    (hwr : st.writing = true → st'.writing = true) (hclaims : ∀ r ∈ st'.claims, r ∈ st.claims)
    (hapart : st.Apart → st'.Apart) : Rows s' := by
  have hok := h.trx x hput.mem
  refine keep h hput hheap rfl rfl hlocks hexcl { hok with pend := fun p hp => ?_, stmt := ?_ }
  · have hpok := hok.pend p hp
    rcases hpok.stmt with ⟨st0, hst0, hw0, ht0, hold⟩
    rw [hxst, some.injEq] at hst0
    rw [← hst0] at hw0 ht0 hold
    exact { hpok with
      stmt := ⟨st', rfl, hwr hw0, htable.trans ht0, fun hr => hold (hclaims _ hr)⟩ }
  · intro _ hst0 _
    cases hst0
    have hsok := hok.stmt st hxst hrun
    exact ⟨hapart hsok.apart, fun r hr => htable ▸ hsok.writable r (hclaims r hr)⟩

/-- A transaction that is not in the middle of an update moves to another stage. -/
theorem move {sm : Option Statement} {sg : Stage} (h : Rows s)
    (hput : Put s s' x { x with stmt := sm, stage := sg }) (hheap : s'.heap = s.heap)
    (hlocks : s'.locks = s.locks) (hnone : x.pending = none)
    (hstmt : sm = none ∨ sg ≠ .running) : Rows s' := by
  refine keep h hput hheap rfl rfl (fun e he => hlocks.symm ▸ he) (hlocks.symm ▸ h.excl)
    { h.trx x hput.mem with pend := fun p hp => ?_, stmt := fun st hst hrun => ?_ }
  · cases hnone.symm.trans hp
  · rcases hstmt with hn | hn
    · cases hn.symm.trans hst
    · exact absurd hrun hn

theorem pending_none_of_stmt (h : Rows s) (hx : x ∈ s.trxs) (hstmt : x.stmt = none) :
    x.pending = none := by
  cases hp : x.pending with
  | none => rfl
  | some p =>
    rcases ((h.trx x hx).pend p hp).stmt with ⟨_, hst, _⟩
    cases hstmt.symm.trans hst

theorem pending_none_of_stage (h : Rows s) (hx : x ∈ s.trxs) (hst : x.stage ≠ .running) :
    x.pending = none := by
  cases hp : x.pending with
  | none => rfl
  | some p => exact absurd ((h.trx x hx).pend p hp).running hst

/-- A lock is granted to one owner at a time. -/
theorem excl_lock (h : Rows s) {k : LockKey} (hfree : s.lockFree id k = true) :
    ∀ j a b, (j, a) ∈ (s.lock id k).locks → (j, b) ∈ (s.lock id k).locks → a = b := by
  intro j a b ha hb
  rw [lockFree_iff] at hfree
  simp only [lock, mem_insert_iff, Prod.mk.injEq] at ha hb
  rcases ha with ⟨rfl, rfl⟩ | ha
  · rcases hb with ⟨_, rfl⟩ | hb
    · rfl
    · exact (hfree b hb).symm
  · rcases hb with ⟨rfl, rfl⟩ | hb
    · exact hfree a ha
    · exact h.excl j a b ha hb

theorem excl_locksWithout (h : Rows s) :
    ∀ j a b, (j, a) ∈ s.locksWithout id → (j, b) ∈ s.locksWithout id → a = b := by
  intro j a b ha hb
  rw [mem_locksWithout] at ha hb
  exact h.excl j a b ha.1 hb.1

/-- A transaction that has taken everything back lets go of its locks. -/
theorem release {sm : Option Statement} {sg : Stage} (h : Rows s)
    (hput : Put s s' x { x with stmt := sm, stage := sg }) (hheap : s'.heap = s.heap)
    (hlocks : s'.locks = s.locksWithout x.id) (hundo : x.undo = []) (hpend : x.pending = none)
    (hstmt : sm = none ∨ sg ≠ .running) : Rows s' := by
  refine quiet h hput hheap rfl rfl (fun e he hne => ?_) (hlocks.symm ▸ excl_locksWithout h) ?_
  · rw [hlocks]
    exact (s.mem_locksWithout x.id e).mpr ⟨he, hne⟩
  constructor
  case order => exact hundo ▸ List.Pairwise.nil
  case pend =>
    intro p hp
    cases hpend.symm.trans hp
  case stmt =>
    intro st hst hrun
    rcases hstmt with hn | hn
    · cases hn.symm.trans hst
    · exact absurd hrun hn
  all_goals
    intro e he
    simp [marks, creates, hundo, hpend] at he

/-- Filling a free slot leaves every stored version. -/
theorem get_setSlot_of_free {r : Rid} (o : Option Version) (hfree : h.get f rid = none)
    (hv : h.get g r = some v) : (h.setSlot f rid o).get g r = some v := by
  rw [Heap.get_setSlot_ne, hv]
  intro he
  rw [Prod.mk.injEq] at he
  rw [he.1, he.2, hfree] at hv
  cases hv

theorem frame_insert (x : TrxState) {w : Version} (hheap : s'.heap = s.heap.setSlot f rid (some w))
    (hfree : s.heap.get f rid = none) : Frame s s' x := by
  intro _ _ v hv
  exact .inl ⟨v, by rw [hheap, get_setSlot_of_free _ hfree hv], rfl, .inl rfl⟩

theorem frame_mark {d : Nat}
    (hheap : s'.heap = s.heap.setSlot f rid (some { v with deleter := d, nextRid := n }))
    (hv : s.heap.get f rid = some v) (hlock : (.row f rid, x.id) ∈ s.locks) : Frame s s' x := by
  intro g r w hw
  by_cases he : (g, r) = (f, rid)
  · rw [Prod.mk.injEq] at he
    rw [he.1, he.2] at hw ⊢
    rw [hv, some.injEq] at hw
    exact .inl ⟨_, by rw [hheap, Heap.get_setSlot_self], by rw [← hw], .inr hlock⟩
  · exact .inl ⟨w, by rw [hheap, Heap.get_setSlot_ne _ _ he, hw], rfl, .inl rfl⟩

theorem frame_clear (hheap : s'.heap = s.heap.setSlot f rid none) (hv : s.heap.get f rid = some v)
    (hc : v.creator = x.id) (hst : x.stage ≠ .committed) : Frame s s' x := by
  intro g r w hw
  by_cases he : (g, r) = (f, rid)
  · rw [Prod.mk.injEq] at he
    rw [he.1, he.2, hv, some.injEq] at hw
    exact .inr ⟨hw ▸ hc, hst⟩
  · exact .inl ⟨w, by rw [hheap, Heap.get_setSlot_ne _ _ he, hw], rfl, .inl rfl⟩

/-- Under a lock that `x` holds, on a version it has not marked, the transaction the marker names is
    gone. -/
theorem gone_of_lock (h : Rows s) (hx : x ∈ s.trxs) (hv : s.heap.get f rid = some v)
    (hlock : (.row f rid, x.id) ∈ s.locks) (hnot : (f, rid) ∉ x.marks) : s.Gone v.deleter := by
  rcases h.marker f rid v hv with hs | ⟨z, hz, _, hm⟩
  · exact hs
  · have hid := h.excl _ _ _ ((h.trx z hz).held _ hm) hlock
    rw [Books.eq_of_id h.books hz hx hid] at hm
    exact absurd hm hnot

theorem mem_marks_iff (x : TrxState) (e : Nat × Rid) :
    e ∈ x.marks ↔ ∃ u ∈ x.undo, u.marked = some e :=
  mem_filterMap

theorem mem_creates_iff (x : TrxState) (e : Nat × Rid) :
    e ∈ x.creates ↔ (∃ p, x.pending = some p ∧ (p.fileNo, p.newRid) = e) ∨
      ∃ u ∈ x.undo, u.created = some e := by
  unfold creates
  rw [mem_append, mem_filterMap, List.mem_map]
  apply or_congr_left
  constructor
  · intro h
    rcases h with ⟨p, hp, he⟩
    exact ⟨p, mem_toList.mp hp, he⟩
  · intro h
    rcases h with ⟨p, hp, he⟩
    exact ⟨p, mem_toList.mpr hp, he⟩

/-- No undo entry is about a free slot. -/
theorem not_written_of_free {u : Undo} (hok : RowOk s x) (hfree : s.heap.get f rid = none)
    (hu : u ∈ x.undo) : u.marked ≠ some (f, rid) ∧ u.created ≠ some (f, rid) := by
  constructor
  · intro hm
    rcases hok.marked _ ((mem_marks_iff x _).mpr ⟨u, hu, hm⟩) with ⟨_, hv, _⟩
    cases hfree.symm.trans hv
  · intro hm
    rcases hok.created _ ((mem_creates_iff x _).mpr (.inr ⟨u, hu, hm⟩)) with ⟨_, hv, _⟩
    cases hfree.symm.trans hv

/-- A new version goes into a free slot. Everything else is still there. -/
theorem insert (h : Rows s) (hput : Put s s' x y)
    (hheap : s'.heap = s.heap.setSlot f rid (some ⟨x.id, 0, 0, row⟩)) (hlocks : s'.locks = s.locks)
    (hfree : s.heap.get f rid = none) (hmarks : y.marks = x.marks)
    (hcreates : ∀ e, e = (f, rid) ∨ e ∈ x.creates → e ∈ y.creates)
    (hy : RowOk s' x → (∃ v, s'.heap.get f rid = some v ∧ v.creator = x.id) → RowOk s' y) :
    Rows s' := by
  have hold : ∀ g r v, s.heap.get g r = some v → s'.heap.get g r = some v := by
    intro g r v hv
    rw [hheap, get_setSlot_of_free _ hfree hv]
  refine put h hput (fun e he _ => hlocks.symm ▸ he) (hlocks.symm ▸ h.excl)
    (frame_insert x hheap hfree) ?_ ?_ (hy ?_ ?_)
  · intro g r v hv
    rw [hheap] at hv
    rcases Heap.get_setSlot_cases hv with ⟨_, _, heq⟩ | ⟨_, hv⟩
    · cases heq
      exact .inl (gone_zero h.books)
    · exact .inr (.inr ⟨v, hv, rfl, fun hm => hmarks.symm ▸ hm⟩)
  · intro g r v hv
    rw [hheap] at hv
    rcases Heap.get_setSlot_cases hv with ⟨rfl, rfl, heq⟩ | ⟨_, hv⟩
    · cases heq
      exact .inl ⟨rfl, hcreates _ (.inl rfl)⟩
    · exact .inr ⟨v, hv, rfl, fun hm => hcreates _ (.inr hm)⟩
  · exact rowOk_mono (h.trx x hput.mem) (fun g r v hv _ => ⟨v, hold g r v hv, rfl, .inl rfl⟩)
      hput.counted (fun _ => hput.gone) (fun _ hk => hlocks.symm ▸ hk)
  · exact ⟨_, by rw [hheap, Heap.get_setSlot_self], rfl⟩

/-- A version is marked under its lock. -/
theorem mark {u : Undo} (h : Rows s) (hput : Put s s' x y)
    (hheap : s'.heap = s.heap.setSlot f rid (some { v with deleter := x.id, nextRid := n }))
    (hlocks : s'.locks = s.locks)
    (hv : s.heap.get f rid = some v) (hlock : (.row f rid, x.id) ∈ s.locks)
    (hw : s.Writable x f rid) (hrun : x.stage = .running) (hundo : y.undo = u :: x.undo)
    (humark : u.marked = some (f, rid)) (huprev : u.prevDeleter = v.deleter)
    (husplit : u.created ≠ some (f, rid))
    (hucreated : ∀ e, u.created = some e → ∀ o ∈ x.undo, o.marked ≠ some e ∧ o.created ≠ some e)
    (hcreates : ∀ e, e ∈ y.creates ↔ e ∈ x.creates) (hpend : y.pending = none)
    (hxst : x.stmt = some st) (hyst : y.stmt = some st') (htable : st'.table = st.table)
    (hclaims : ∀ r ∈ st'.claims, r ∈ st.claims) (hnot : ∀ r ∈ st'.claims, (st.table, r) ≠ (f, rid))
    (hapart : st.Apart → st'.Apart) : Rows s' := by
  have hx := hput.mem
  have hid := hput.id
  have hok := h.trx x hx
  have hmarks : ∀ e, e ∈ y.marks ↔ e = (f, rid) ∨ e ∈ x.marks := by
    intro e
    unfold marks
    rw [hundo, filterMap_cons, humark, mem_cons]
  refine put h hput (fun e he _ => hlocks.symm ▸ he) (hlocks.symm ▸ h.excl)
    (frame_mark hheap hv hlock) ?_ ?_ ?_
  · intro g r w hgw
    rw [hheap] at hgw
    rcases Heap.get_setSlot_cases hgw with ⟨rfl, rfl, heq⟩ | ⟨_, hgw⟩
    · cases heq
      exact .inr (.inl ⟨rfl, (hmarks _).mpr (.inl rfl)⟩)
    · exact .inr (.inr ⟨w, hgw, rfl, fun hm => (hmarks _).mpr (.inr hm)⟩)
  · intro g r w hgw
    rw [hheap] at hgw
    rcases Heap.get_setSlot_cases hgw with ⟨rfl, rfl, heq⟩ | ⟨_, hgw⟩
    · rw [some.injEq] at heq
      exact .inr ⟨v, hv, by rw [← heq], (hcreates _).mpr⟩
    · exact .inr ⟨w, hgw, rfl, (hcreates _).mpr⟩
  · constructor
    case held =>
      intro e he
      rw [hlocks, hid]
      rcases (hmarks e).mp he with rfl | he
      · exact hlock
      · exact hok.held e he
    case marked =>
      intro e he
      rw [hheap]
      by_cases hef : e = (f, rid)
      · rw [hef]
        refine ⟨_, Heap.get_setSlot_self _ _ _ _, hid.symm, hput.firm ?_⟩
        rcases hw.2 with ⟨_, hv0, hfv⟩
        rw [hv, some.injEq] at hv0
        exact hv0 ▸ hfv
      · rcases (hmarks e).mp he with he | he
        · exact absurd he hef
        · rcases hok.marked e he with ⟨w, hgw, hd, hfw⟩
          refine ⟨w, ?_, by rw [hd, hid], hput.firm hfw⟩
          rw [Heap.get_setSlot_ne _ _ hef, hgw]
    case created =>
      intro e he
      rcases hok.created e ((hcreates e).mp he) with ⟨w, hgw, hc⟩
      rw [hheap, hid]
      by_cases hef : e = (f, rid)
      · rw [hef] at hgw ⊢
        rw [hv, some.injEq] at hgw
        exact ⟨_, Heap.get_setSlot_self _ _ _ _, by rw [← hc, ← hgw]⟩
      · exact ⟨w, by rw [Heap.get_setSlot_ne _ _ hef, hgw], hc⟩
    case order =>
      rw [hundo, pairwise_cons]
      refine ⟨fun o ho => ⟨fun e he => hucreated e he o ho, ?_⟩, hok.order⟩
      intro e he hoe
      rw [humark, some.injEq] at he
      exact hw.1 ((mem_marks_iff x _).mpr ⟨o, ho, he ▸ hoe⟩)
    case split =>
      intro o ho e he hm
      rw [hundo] at ho
      rcases mem_cons.mp ho with rfl | ho
      · rw [humark, some.injEq] at hm
        exact husplit (hm ▸ he)
      · exact hok.split o ho e he hm
    case prevs =>
      intro o ho
      rw [hundo] at ho
      rcases mem_cons.mp ho with rfl | ho
      · rw [huprev]
        exact hput.gone (gone_of_lock h hx hv hlock hw.1)
      · exact hput.gone (hok.prevs o ho)
    case pend =>
      intro _ hp
      cases hpend.symm.trans hp
    case stmt =>
      intro _ hst0 _
      rw [hyst, some.injEq] at hst0
      have hsok := hok.stmt st hxst hrun
      rw [← hst0]
      refine ⟨hapart hsok.apart, fun r hr => ?_⟩
      rw [htable]
      rcases hsok.writable r (hclaims r hr) with ⟨hnm, w, hgw, hfw⟩
      have hne := hnot r hr
      refine ⟨?_, w, ?_, hput.firm hfw⟩
      · intro hm
        exact ((hmarks _).mp hm).elim hne hnm
      · rw [hheap, Heap.get_setSlot_ne _ _ hne, hgw]

/-- The latest write is taken back: one slot goes back to what it was, and what is left of the undo
    list is about other slots. -/
theorem undo (h : Rows s) (hput : Put s s' x y) (hheap : s'.heap = s.heap.setSlot f rid o)
    (hlocks : s'.locks = s.locks) (hv : s.heap.get f rid = some v)
    (hnr : x.stage ≠ .running) (hstage : y.stage = x.stage) (hpend : y.pending = x.pending)
    (hframe : Frame s s' x) (ho : ∀ w, o = some w → s.Gone w.deleter ∧ w.creator = v.creator)
    (hmarks : ∀ e, e ∈ y.marks → e ∈ x.marks ∧ e ≠ (f, rid))
    (hkeepm : ∀ e, e ∈ x.marks → e ∈ y.marks ∨ e = (f, rid))
    (hcreates : ∀ e, e ∈ y.creates → e ∈ x.creates ∧ (e = (f, rid) → o ≠ none))
    (hkeepc : ∀ e, e ∈ x.creates → e ∈ y.creates ∨ (e = (f, rid) ∧ o = none))
    (horder : y.undo.Pairwise Undo.Apart)
    (hsplit : ∀ u ∈ y.undo, ∀ e, u.created = some e → u.marked ≠ some e)
    (hprevs : ∀ u ∈ y.undo, s.Gone u.prevDeleter) : Rows s' := by
  have hx := hput.mem
  have hid := hput.id
  have hok := h.trx x hx
  refine put h hput
    (fun e he _ => hlocks.symm ▸ he) (hlocks.symm ▸ h.excl) hframe ?_ ?_ ?_
  · intro g r w hw
    rw [hheap] at hw
    rcases Heap.get_setSlot_cases hw with ⟨_, _, heq⟩ | ⟨hne, hw⟩
    · exact .inl (ho w heq).1
    · exact .inr (.inr ⟨w, hw, rfl, fun hm => (hkeepm _ hm).resolve_right hne⟩)
  · intro g r w hw
    rw [hheap] at hw
    rcases Heap.get_setSlot_cases hw with ⟨rfl, rfl, heq⟩ | ⟨hne, hw⟩
    · refine .inr ⟨v, hv, (ho w heq).2.symm, fun hm => (hkeepc _ hm).resolve_right (fun h => ?_)⟩
      cases heq.symm.trans h.2
    · exact .inr ⟨w, hw, rfl, fun hm => (hkeepc _ hm).resolve_right (fun h => hne h.1)⟩
  · constructor
    case held =>
      intro e he
      rw [hlocks, hid]
      exact hok.held e (hmarks e he).1
    case marked =>
      intro e he
      rcases hok.marked e (hmarks e he).1 with ⟨w, hgw, hd, hfw⟩
      refine ⟨w, ?_, by rw [hd, hid], hput.firm hfw⟩
      rw [hheap, Heap.get_setSlot_ne _ _ (hmarks e he).2, hgw]
    case created =>
      intro e he
      rcases hok.created e (hcreates e he).1 with ⟨w, hgw, hc⟩
      rw [hheap, hid]
      by_cases hef : e = (f, rid)
      · rw [hef] at hgw ⊢
        rw [hv, some.injEq] at hgw
        rw [Heap.get_setSlot_self]
        cases hoe : o with
        | none => exact absurd hoe ((hcreates e he).2 hef)
        | some w' => exact ⟨w', rfl, by rw [(ho w' hoe).2, hgw, hc]⟩
      · exact ⟨w, by rw [Heap.get_setSlot_ne _ _ hef, hgw], hc⟩
    case order => exact horder
    case split => exact hsplit
    case prevs => exact fun u hu => hput.gone (hprevs u hu)
    case pend =>
      intro p hp
      rw [hpend] at hp
      exact absurd (hok.pend p hp).running hnr
    case stmt =>
      intro _ _ hrun
      exact absurd (hstage ▸ hrun) hnr

theorem drop (h : Rows s) (hb : Books s') (hx : x ∈ s.trxs) (hset : ∀ m, s.Counted m → s'.Counted m)
    (htrxs : s'.trxs = (s.dropTrx x.id).trxs) (hheap : s'.heap = s.heap)
    (hnext : s'.tm.nextId = s.tm.nextId) (hlocks : ∀ e ∈ s.locks, e.2 ≠ x.id → e ∈ s'.locks)
    (hexcl : ∀ k a b, (k, a) ∈ s'.locks → (k, b) ∈ s'.locks → a = b) : Rows s' := by
  have hmem : ∀ z, z ∈ s'.trxs ↔ z ∈ s.trxs ∧ z.id ≠ x.id := by
    intro z
    rw [htrxs]
    exact s.mem_dropTrx x.id z
  have hgone : ∀ m, s.Gone m → s'.Gone m :=
    fun m hm => ⟨hnext ▸ hm.1, fun z hz => hm.2 z ((hmem z).mp hz).1⟩
  have hself : s'.Gone x.id :=
    ⟨hnext ▸ (h.books.trx x hx).lt, fun z hz => ((hmem z).mp hz).2⟩
  have hframe : Frame s s' x := by
    intro f rid v hv
    exact .inl ⟨v, by rw [hheap, hv], rfl, .inl rfl⟩
  have howner : ∀ m (P : TrxState → Prop), (s.Gone m ∨ ∃ z ∈ s.trxs, z.id = m ∧ P z) →
      s'.Gone m ∨ ∃ z ∈ s'.trxs, z.id = m ∧ P z := by
    rintro m P (hs | ⟨z, hz, rfl, hm⟩)
    · exact .inl (hgone _ hs)
    · by_cases hne : z.id = x.id
      · exact .inl (hne ▸ hself)
      · exact .inr ⟨z, (hmem z).mpr ⟨hz, hne⟩, rfl, hm⟩
  constructor
  case books => exact hb
  case excl => exact hexcl
  case marker => exact fun f rid v hv => howner _ _ (h.marker f rid v (hheap ▸ hv))
  case creator => exact fun f rid v hv => howner _ _ (h.creator f rid v (hheap ▸ hv))
  case trx =>
    intro z hz
    have hz' := (hmem z).mp hz
    exact rowOk_other h hx hz'.1 hz'.2 hframe hset hgone hlocks

theorem begin (h : Rows s) :
    Rows { s with tm := s.tm.beginOpen.2, trxs := fresh s.tm.nextId :: s.trxs } := by
  have hgone : ∀ m, s.Gone m →
      Gone { s with tm := s.tm.beginOpen.2, trxs := fresh s.tm.nextId :: s.trxs } m := by
    intro _ hm
    refine ⟨Nat.lt_succ_of_lt hm.1, fun z hz => ?_⟩
    rcases mem_cons.mp hz with rfl | hz
    · have hlt := hm.1
      have hfresh : (fresh s.tm.nextId).id = s.tm.nextId := rfl
      omega
    · exact hm.2 z hz
  constructor
  case books => exact h.books.begin
  case excl => exact h.excl
  case marker =>
    exact fun f rid v hv => (h.marker f rid v hv).imp (hgone _)
      fun ⟨z, hz, hm⟩ => ⟨z, mem_cons_of_mem _ hz, hm⟩
  case creator =>
    exact fun f rid v hv => (h.creator f rid v hv).imp (hgone _)
      fun ⟨z, hz, hm⟩ => ⟨z, mem_cons_of_mem _ hz, hm⟩
  intro z hz
  rcases mem_cons.mp hz with rfl | hz
  · constructor
    case order => exact List.Pairwise.nil
    all_goals
      intro e he
      simp [marks, creates, fresh] at he
  · exact rowOk_mono (h.trx z hz) (fun f rid v hv _ => ⟨v, hv, rfl, .inl rfl⟩)
      (fun _ => counted_begin h.books) hgone (fun _ hk => hk)

/-- Taking something back is neither running nor about to commit nor committed. -/
theorem stage_of_undoable (h : x.undoable = true) :
    x.stage ≠ .running ∧ x.stage ≠ .committed ∧ x.stage ≠ .checked := by
  unfold TrxState.undoable at h
  refine ⟨?_, ?_, ?_⟩ <;>
  · intro hst
    rw [hst] at h
    cases h

theorem creator_of_undo {u : Undo} (h : Rows s) (hx : x ∈ s.trxs) (hu : u ∈ x.undo)
    (huc : u.created = some (f, rid)) (hv : s.heap.get f rid = some v) : v.creator = x.id := by
  rcases (h.trx x hx).created _ ((mem_creates_iff x _).mpr (.inr ⟨u, hu, huc⟩)) with ⟨w, hw, hc⟩
  cases hv.symm.trans hw
  exact hc

/-- Taking back a new version. What else the write did stays on the undo list. -/
theorem clear {u : Undo} {rest : List Undo} (us : List Undo) (h : Rows s) (hput : Put s s' x y)
    (hheap : s'.heap = s.heap.setSlot f rid none) (hlocks : s'.locks = s.locks)
    (hv : s.heap.get f rid = some v) (hable : x.undoable = true) (hstage : y.stage = x.stage)
    (hpend : y.pending = x.pending) (hu : x.undo = u :: rest) (huc : u.created = some (f, rid))
    (hy : y.undo = us ++ rest) (hmark : u.marked ≠ none → us ≠ [])
    (hus : ∀ w ∈ us, w.created = none ∧ w.marked = u.marked ∧ w.prevDeleter = u.prevDeleter)
    (hone : us.length ≤ 1) : Rows s' := by
  have hok := h.trx x hput.mem
  have hst := stage_of_undoable hable
  have hpn := pending_none_of_stage h hput.mem hst.1
  have hself : u ∈ x.undo := hu ▸ mem_cons_self
  have hsub : ∀ w ∈ rest, w ∈ x.undo := fun w hw => hu ▸ mem_cons_of_mem _ hw
  have hord := hok.order
  rw [hu, pairwise_cons] at hord
  have hvc := creator_of_undo h hput.mem hself huc hv
  refine undo h hput hheap hlocks hv hst.1 hstage hpend (frame_clear hheap hv hvc hst.2.1) ?_ ?_ ?_
    ?_ ?_ ?_ ?_ ?_
  · exact nofun
  · intro e he
    rcases (mem_marks_iff _ _).mp he with ⟨w, hw, hm⟩
    rcases mem_append.mp (hy ▸ hw) with hw | hw
    · rw [(hus w hw).2.1] at hm
      exact ⟨(mem_marks_iff x e).mpr ⟨u, hself, hm⟩,
        fun he => hok.split u hself _ huc (he ▸ hm)⟩
    · exact ⟨(mem_marks_iff x e).mpr ⟨w, hsub w hw, hm⟩,
        fun he => ((hord.1 w hw).1 _ huc).1 (he ▸ hm)⟩
  · intro e he
    rcases (mem_marks_iff _ _).mp he with ⟨w, hw, hm⟩
    refine .inl ((mem_marks_iff _ _).mpr ?_)
    rw [hy]
    rcases mem_cons.mp (hu ▸ hw) with rfl | hw
    · rcases exists_mem_of_ne_nil us (hmark (by simp [hm])) with ⟨o, ho⟩
      exact ⟨o, mem_append_left _ ho, (hus o ho).2.1.trans hm⟩
    · exact ⟨w, mem_append_right _ hw, hm⟩
  · intro e he
    rcases (mem_creates_iff _ _).mp he with ⟨p, hp, _⟩ | ⟨w, hw, hc⟩
    · cases hpn.symm.trans (hpend ▸ hp)
    rcases mem_append.mp (hy ▸ hw) with hw | hw
    · cases (hus w hw).1.symm.trans hc
    · exact ⟨(mem_creates_iff x e).mpr (.inr ⟨w, hsub w hw, hc⟩),
        fun he => absurd (he ▸ hc) ((hord.1 w hw).1 _ huc).2⟩
  · intro e he
    rcases (mem_creates_iff _ _).mp he with ⟨_, hp, _⟩ | ⟨w, hw, hc⟩
    · cases hpn.symm.trans hp
    rcases mem_cons.mp (hu ▸ hw) with rfl | hw
    · rw [huc, some.injEq] at hc
      exact .inr ⟨hc.symm, rfl⟩
    · exact .inl ((mem_creates_iff _ _).mpr (.inr ⟨w, hy ▸ mem_append_right _ hw, hc⟩))
  · rw [hy, pairwise_append]
    refine ⟨?_, hord.2, fun w hw o ho => ⟨fun e he => ?_, fun e he => ?_⟩⟩
    · match us, hone with
      | [], _ => exact Pairwise.nil
      | [_], _ => exact pairwise_singleton _ _
    · cases (hus w hw).1.symm.trans he
    · exact (hord.1 o ho).2 e ((hus w hw).2.1 ▸ he)
  · intro w hw e he
    rcases mem_append.mp (hy ▸ hw) with hw | hw
    · cases (hus w hw).1.symm.trans he
    · exact hok.split w (hsub w hw) e he
  · intro w hw
    rcases mem_append.mp (hy ▸ hw) with hw | hw
    · rw [(hus w hw).2.2]
      exact hok.prevs u hself
    · exact hok.prevs w (hsub w hw)

/-- Picking a visible version. -/
theorem pick {reads : List Read} (h : Rows s)
    (hput : Put s s' x { x with
      reads := reads, stmt := some { st with targets := rid :: st.targets } })
    (hheap : s'.heap = s.heap) (hlocks : s'.locks = s.locks) (hrun : x.stage = .running)
    (hxst : x.stmt = some st) (hv : s.heap.get st.table rid = some v)
    (hvis : x.visible s.tm.committed v = true) (hwr : st.writing = false) (hchk : st.check = none)
    (hplan : st.plan = []) : Rows s' := by
  have hx := hput.mem
  have hok := h.trx x hx
  refine keep h hput hheap rfl rfl (fun e he => hlocks.symm ▸ he) (hlocks.symm ▸ h.excl)
    { hok with pend := fun p hp => ?_, stmt := ?_ }
  · rcases (hok.pend p hp).stmt with ⟨st0, hst0, hw0, _⟩
    rw [hxst, some.injEq] at hst0
    rw [← hst0, hwr] at hw0
    cases hw0
  · intro _ hst0 _
    cases hst0
    have hsok := hok.stmt st hxst hrun
    have hnew : s.Writable x st.table rid := by
      refine ⟨fun hm => ?_, v, hv, firm_of_visible h.books hx hvis⟩
      rcases hok.marked _ hm with ⟨_, hw, hd, _⟩
      rw [hv, some.injEq] at hw
      exact deleter_ne_of_visible (h.books.trx x hx).pos hvis (hw ▸ hd)
    constructor
    case apart =>
      simp [Statement.Apart, Statement.excluded, hplan, hchk]
    intro r hr
    rw [Statement.mem_claims] at hr
    rcases hr with hr | hr
    · rcases mem_cons.mp hr with rfl | hr
      · exact hnew
      · exact hsok.writable r ((st.mem_claims r).mpr (.inl hr))
    · exact hsok.writable r ((st.mem_claims r).mpr (.inr hr))

/-- Putting a version under check takes it out of the targets. -/
theorem apart_beginCheck (row : Row) (todo : List IndexMeta)
    (hex : ∀ rid ∈ exclude, rid ∈ st.targets) (h : st.Apart) :
    Statement.Apart { st with
      targets := st.targets.filter (fun r => exclude ≠ some r)
      check := some ⟨row, exclude, todo, .idle⟩ } := by
  refine ⟨fun r hr => ?_, fun r hr he => ?_⟩
  · rcases mem_filter.mp hr with ⟨hr, hne⟩
    exact ⟨(h.1 r hr).1, of_decide_eq_true hne⟩
  · exact (h.1 r (hex r he)).1 hr

theorem claims_beginCheck {todo : List IndexMeta} (hex : ∀ rid ∈ exclude, rid ∈ st.targets) :
    ∀ r ∈ Statement.claims { st with
      targets := st.targets.filter (fun r => exclude ≠ some r)
      check := some ⟨row, exclude, todo, .idle⟩ }, r ∈ st.claims := by
  intro r hr
  rw [Statement.mem_claims] at hr ⊢
  rcases hr with hr | hr | hr
  · exact .inl (mem_filter.mp hr).1
  · exact .inr (.inl hr)
  · exact .inl (hex r hr)

/-- A check that has passed puts its version in the plan. -/
theorem apart_endCheck (row : Row) (hchk : st.excluded = some rid) (h : st.Apart) :
    Statement.Apart { st with check := none, plan := (rid, row) :: st.plan } := by
  refine ⟨fun r hr => ⟨?_, ?_⟩, fun r _ => ?_⟩
  · intro hm
    rcases mem_cons.mp hm with hm | hm
    · exact (h.1 r hr).2 (hm ▸ hchk)
    · exact (h.1 r hr).1 hm
  · simp [Statement.excluded]
  · simp [Statement.excluded]

theorem claims_endCheck (hchk : st.excluded = some rid) :
    ∀ r ∈ Statement.claims { st with check := none, plan := (rid, row) :: st.plan },
      r ∈ st.claims := by
  intro _ hr
  rw [Statement.mem_claims] at hr ⊢
  rcases hr with hr | hr | hr
  · exact .inl hr
  · rcases mem_cons.mp hr with rfl | hr
    · exact .inr (.inr hchk)
    · exact .inr (.inl hr)
  · exact absurd hr (by
      simp [Statement.excluded])

theorem claims_delete :
    ∀ r ∈ Statement.claims { st with targets := st.targets.filter (fun r => r ≠ rid) },
      r ∈ st.claims := by
  intro _ hr
  rw [Statement.mem_claims] at hr ⊢
  exact hr.imp_left (fun hr => (mem_filter.mp hr).1)

theorem claims_version :
    ∀ r ∈ Statement.claims { st with plan := st.plan.filter (fun e => e.1 ≠ rid) },
      r ∈ st.claims := by
  intro _ hr
  rw [Statement.mem_claims] at hr ⊢
  rcases hr with hr | hr | hr
  · exact .inl hr
  · rcases mem_map.mp hr with ⟨e, he, her⟩
    exact .inr (.inl (mem_map.mpr ⟨e, (mem_filter.mp he).1, her⟩))
  · exact .inr (.inr hr)

theorem sessionStep {a : SessionAction} (h : Rows s) (hx : x ∈ s.trxs)
    (hstep : SessionStep s x a s') : Rows s' := by
  have hb := h.books.sessionStep hx hstep
  have hok := h.trx x hx
  have hlk : ∀ e ∈ s.locks, e ∈ s.locks := fun e he => he
  have hset : ∀ m, s.Counted m → s.Counted m := fun m hm => hm
  cases hstep with
  | ssiBegin | loadNextId | readOpen | noteRead | look | indexInsert | unindex | ssiAbort
  | ssiCommit =>
    exact keep h ⟨hb, hx, hset, rfl, rfl, rfl⟩ rfl rfl rfl hlk h.excl { hok with
      pend := fun p hp => { hok.pend p hp with }
      stmt := fun st hst hr => { hok.stmt st hst hr with } }
  | removeOpen | closeCommitted =>
    exact keep h ⟨hb, hx, counted_removeOpen rfl, rfl, rfl, rfl⟩ rfl rfl rfl hlk h.excl { hok with
      pend := fun p hp => { hok.pend p hp with }
      stmt := fun st hst hr => { hok.stmt st hst hr with } }
  | startStatement _ _ hstmt =>
    have hnone := pending_none_of_stmt h hx hstmt
    refine keep h ⟨hb, hx, hset, rfl, rfl, rfl⟩ rfl rfl rfl hlk h.excl
      { hok with pend := fun p hp => ?_, stmt := fun st hst' _ => ?_ }
    · cases hnone.symm.trans hp
    · cases hst'
      exact ⟨⟨nofun, nofun⟩, nofun⟩
  | pick _ _ _ _ hstmt hst _ hv hvis _ hwr hchk hplan =>
    exact pick h ⟨hb, hx, hset, rfl, rfl, rfl⟩ rfl rfl hst hstmt hv hvis hwr hchk hplan
  | beginCheck row exclude st hstmt hst _ _ _ _ hex =>
    have hex' : ∀ rid ∈ exclude, rid ∈ st.targets := fun r hr => (hex r hr).1
    exact advance h ⟨hb, hx, hset, rfl, rfl, rfl⟩ rfl hlk h.excl hst hstmt rfl id
      (claims_beginCheck hex') (apart_beginCheck row [] hex')
  | beginCheckNote row exclude st hstmt hst _ _ _ _ hex =>
    have hex' : ∀ rid ∈ exclude, rid ∈ st.targets := fun r hr => (hex r hr).1
    exact advance h ⟨hb, hx, hset, rfl, rfl, rfl⟩ rfl hlk h.excl hst hstmt rfl id
      (claims_beginCheck hex') (apart_beginCheck row _ hex')
  | claimKey st _ _ _ _ hstmt hchk hst _ hfree =>
    have hexc := st.excluded_of_check hchk
    exact advance h ⟨hb, hx, hset, rfl, rfl, rfl⟩ rfl (fun e he => mem_insert_of_mem he)
      (excl_lock h hfree) hst hstmt rfl id (st.claims_congr rfl rfl hexc.symm)
      (st.apart_congr rfl rfl hexc.symm)
  | search st _ _ _ _ hstmt hchk hst | examine st _ _ _ _ _ hstmt hchk hst
  | nextIndex st _ _ _ _ hstmt hchk hst | endCheckInsert st _ hstmt hchk hst =>
    have hexc := st.excluded_of_check hchk
    exact advance h ⟨hb, hx, hset, rfl, rfl, rfl⟩ rfl hlk h.excl hst hstmt rfl id
      (st.claims_congr rfl rfl hexc.symm) (st.apart_congr rfl rfl hexc.symm)
  | endCheckUpdate st row rid hstmt hchk hst =>
    have hexc : st.excluded = some rid := st.excluded_of_check hchk
    exact advance h ⟨hb, hx, hset, rfl, rfl, rfl⟩ rfl hlk h.excl hst hstmt rfl id
      (claims_endCheck hexc) (apart_endCheck row hexc)
  | noteWrite _ hstmt hst =>
    exact advance h ⟨hb, hx, hset, rfl, rfl, rfl⟩ rfl hlk h.excl hst hstmt rfl (fun _ => rfl)
      (fun r hr => hr) id
  | storeInsert rid st _ hstmt _ hst _ hp _ hfree =>
    have hcreates : ∀ u e, e ∈ ({ x with undo := u :: x.undo } : TrxState).creates ↔
        u.created = some e ∨ e ∈ x.creates := by
      intro u e
      simp only [mem_creates_iff, hp, reduceCtorEq, false_and, exists_false, false_or, mem_cons,
        exists_eq_or_imp]
    refine insert h ⟨hb, hx, hset, rfl, rfl, rfl⟩ rfl rfl hfree rfl ?_ (fun hok' hnew => ?_)
    · intro e he
      refine (hcreates _ e).mpr (he.imp_left (fun he => ?_))
      rw [he]
      rfl
    refine { hok' with
      created := ?created, order := ?order, split := ?split, prevs := ?prevs, pend := ?pend
      stmt := ?stmt }
    case created =>
      intro e he
      rcases (hcreates _ e).mp he with he | he
      · cases he
        exact hnew
      · exact hok'.created e he
    case order =>
      refine pairwise_cons.mpr ⟨fun o ho => ⟨fun e he => ?_, nofun⟩, hok.order⟩
      cases he
      exact not_written_of_free hok hfree ho
    case split => exact forall_mem_cons.mpr ⟨nofun, hok.split⟩
    case prevs =>
      intro u hu
      rcases mem_cons.mp hu with rfl | hu
      · exact gone_zero hb
      · exact hok'.prevs u hu
    case pend =>
      intro p hp'
      cases hp.symm.trans hp'
    case stmt =>
      intro _ hst' _
      cases hst'
      exact { hok'.stmt st hstmt hst with }
  | lockRow _ _ _ _ _ _ hfree =>
    have hself := putTrx_self (fun y hy hid => Books.eq_of_id h.books hy hx hid)
    exact keep h ⟨hb, hx, hset, hself.symm, rfl, rfl⟩ rfl rfl rfl (fun e he => mem_insert_of_mem he)
      (excl_lock h hfree) hok
  | storeDeleteMark rid st _ hstmt hv hst _ hp _ hrid hlock =>
    have hsok := hok.stmt st hstmt hst
    have hclaim : rid ∈ st.claims := (st.mem_claims rid).mpr (.inl hrid)
    refine mark h ⟨hb, hx, hset, rfl, rfl, rfl⟩ rfl rfl hv hlock (hsok.writable rid hclaim) hst rfl
      rfl rfl (by simp [Undo.created, ne_eq]) ?_ ?_ hp hstmt rfl rfl claims_delete ?_ ?_
    · intro e he
      simp [Undo.created] at he
    · intro e
      simp [mem_creates_iff, Undo.created]
    · intro r hr he
      rw [Prod.mk.injEq] at he
      rw [Statement.mem_claims, he.2] at hr
      rcases hr with hr | hr | hr
      · exact absurd rfl (of_decide_eq_true (mem_filter.mp hr).2)
      · exact (hsok.apart.1 rid hrid).1 hr
      · exact (hsok.apart.1 rid hrid).2 hr
    · intro ha
      exact ⟨fun r hr => ha.1 r (mem_filter.mp hr).1, ha.2⟩
  | storeVersion rid row new st _ hstmt hv hst hwr hp _ hplan hlock _ hfree =>
    have hsok := hok.stmt st hstmt hst
    have hmem : rid ∈ st.plan.map (fun e => e.1) := mem_map.mpr ⟨_, hplan, rfl⟩
    have hclaim : rid ∈ st.claims := (st.mem_claims rid).mpr (.inr (.inl hmem))
    have hsub : ∀ r, r ∈ (st.plan.filter (fun e => e.1 ≠ rid)).map (fun e => e.1) →
        r ∈ st.plan.map (fun e => e.1) ∧ r ≠ rid := by
      intro r hr
      rcases mem_map.mp hr with ⟨e, he, rfl⟩
      rcases mem_filter.mp he with ⟨he, hne⟩
      exact ⟨mem_map.mpr ⟨e, he, rfl⟩, of_decide_eq_true hne⟩
    have hcreates : ∀ e, e ∈ ({ x with pending := some ⟨st.table, rid, new, row⟩ } :
        TrxState).creates ↔ e = (st.table, new) ∨ e ∈ x.creates := by
      intro e
      simp only [mem_creates_iff, hp, reduceCtorEq, false_and, exists_false, false_or,
        some.injEq, exists_eq_left']
      rw [eq_comm]
    refine insert h ⟨hb, hx, hset, rfl, rfl, rfl⟩ rfl rfl hfree rfl (fun e => (hcreates e).mpr)
      (fun hok' hnew => ?_)
    refine { hok' with created := ?created, pend := ?pend, stmt := ?stmt }
    case created =>
      intro e he
      rcases (hcreates e).mp he with rfl | he
      · exact hnew
      · exact hok'.created e he
    case pend =>
      intro p hp'
      cases hp'
      refine ⟨hst, ⟨_, rfl, hwr, rfl, fun hr => ?_⟩, hlock,
        (hok'.stmt st hstmt hst).writable rid hclaim,
        fun _ hu => not_written_of_free hok hfree hu, fun he => ?_⟩
      · rw [Statement.mem_claims] at hr
        rcases hr with hr | hr | hr
        · exact (hsok.apart.1 rid hr).1 hmem
        · exact (hsub rid hr).2 rfl
        · exact hsok.apart.2 rid hmem hr
      · dsimp only at he
        rw [he, hfree] at hv
        cases hv
    case stmt =>
      intro _ hst' _
      cases hst'
      exact ⟨⟨fun r hr => ⟨fun hm => (hsok.apart.1 r hr).1 (hsub r hm).1, (hsok.apart.1 r hr).2⟩,
        fun r hr => hsok.apart.2 r (hsub r hr).1⟩,
        fun r hr => (hok'.stmt st hstmt hst).writable r (claims_version r hr)⟩
  | linkVersion p _ hp hv hst =>
    have hpok := hok.pend p hp
    rcases hpok.stmt with ⟨st, hstmt, _, _, hold⟩
    refine mark h ⟨hb, hx, hset, rfl, rfl, rfl⟩ rfl rfl hv hpok.lock hpok.writable hst rfl rfl rfl
      ?_ ?_ ?_ rfl hstmt hstmt rfl (fun r hr => hr) ?_ id
    · intro he
      simp only [Undo.created, some.injEq, Prod.mk.injEq, true_and] at he
      exact hpok.split he.symm
    · intro e he o ho
      cases he
      exact hpok.fresh o ho
    · intro e
      simp [mem_creates_iff, hp, Undo.created]
    · intro _ hr he
      rw [Prod.mk.injEq] at he
      exact hold (he.2 ▸ hr)
  | endStatement _ _ _ hp =>
    exact move h ⟨hb, hx, hset, rfl, rfl, rfl⟩ rfl rfl hp (.inl rfl)
  | failStatement _ _ _ hp =>
    exact move h ⟨hb, hx, hset, rfl, rfl, rfl⟩ rfl rfl hp (.inr nofun)
  | undoInsert _ _ _ _ _ _ hable hu hv =>
    exact clear [] h ⟨hb, hx, hset, rfl, rfl, rfl⟩ rfl rfl hv hable rfl rfl hu rfl rfl
      (fun hm => absurd rfl hm) nofun (Nat.zero_le 1)
  | undoMark f rid d n rest _ _ hable hu hv =>
    have hst := stage_of_undoable hable
    have hord := hok.order
    rw [hu, pairwise_cons] at hord
    have hsub : ∀ o ∈ rest, o ∈ x.undo := fun o ho => hu ▸ mem_cons_of_mem _ ho
    have hself : .deleteMark f rid d n ∈ x.undo := hu ▸ mem_cons_self
    have hmarks : x.marks = (f, rid) :: rest.filterMap Undo.marked := by
      rw [marks, hu, filterMap_cons, Undo.marked]
    have hcreates : ({ x with undo := rest } : TrxState).creates = x.creates := by
      simp only [creates, hu, filterMap_cons, Undo.created]
    refine undo h ⟨hb, hx, hset, rfl, rfl, rfl⟩ rfl rfl hv hst.1 rfl rfl
      (frame_mark rfl hv (hok.held _ (hmarks ▸ mem_cons_self))) ?_ ?_ ?_ ?_ ?_ hord.2
      (fun o ho => hok.split o (hsub o ho)) (fun o ho => hok.prevs o (hsub o ho))
    · intro w hw
      rw [some.injEq] at hw
      exact hw ▸ ⟨hok.prevs _ hself, rfl⟩
    · intro e he
      refine ⟨hmarks ▸ mem_cons_of_mem _ he, fun hef => ?_⟩
      rcases (mem_marks_iff _ _).mp he with ⟨o, ho, hm⟩
      exact (hord.1 o ho).2 (f, rid) rfl (hef ▸ hm)
    · intro e he
      rw [hmarks] at he
      exact (mem_cons.mp he).symm
    · exact fun e he => ⟨hcreates ▸ he, fun _ => nofun⟩
    · exact fun e he => .inl (hcreates.symm ▸ he)
  | undoUpdate f old _ _ d n _ _ _ hable hu hv =>
    refine clear [.deleteMark f old d n] h ⟨hb, hx, hset, rfl, rfl, rfl⟩ rfl rfl hv hable rfl rfl
      hu rfl rfl (fun _ => cons_ne_nil _ _) (fun w hw => ?_) le_rfl
    rw [mem_singleton.mp hw]
    exact ⟨rfl, rfl, rfl⟩
  | endUndo st retry _ hst hlen =>
    have hpn := pending_none_of_stage h hx (hst.trans_ne nofun)
    by_cases hc : retry = false ∧ st.undoMark = 0
    · have hu : x.undo = [] := length_eq_zero_iff.mp (by omega)
      exact release h ⟨hb, hx, hset, rfl, rfl, rfl⟩ rfl (if_pos hc) hu hpn (.inl rfl)
    · exact move h ⟨hb, hx, hset, rfl, rfl, rfl⟩ rfl (if_neg hc) hpn (.inl rfl)
  | rollback hst =>
    have hpn : x.pending = none := by
      rcases hst with ⟨_, hstmt⟩ | hst | hst
      · exact pending_none_of_stmt h hx hstmt
      · exact pending_none_of_stage h hx (hst.trans_ne nofun)
      · exact pending_none_of_stage h hx (hst.trans_ne nofun)
    exact move h ⟨hb, hx, hset, rfl, rfl, rfl⟩ rfl rfl hpn (.inr nofun)
  | finishUndo hst hu =>
    have hpn := pending_none_of_stage h hx (hst.trans_ne nofun)
    exact release h ⟨hb, hx, hset, rfl, rfl, rfl⟩ rfl rfl hu hpn (.inr nofun)
  | dropAborted => exact drop h hb hx hset rfl rfl rfl (fun e he _ => he) h.excl
  | ssiCheck _ hstmt =>
    have hpn := pending_none_of_stmt h hx hstmt
    exact move h ⟨hb, hx, hset, rfl, rfl, rfl⟩ rfl rfl hpn (.inl hstmt)
  | checkConflicts hst =>
    have hpn := pending_none_of_stage h hx (hst.trans_ne nofun)
    exact move h ⟨hb, hx, hset, rfl, rfl, rfl⟩ rfl rfl hpn (.inr nofun)
  | markCommitted hst =>
    have hpn := pending_none_of_stage h hx (hst.trans_ne nofun)
    exact move h ⟨hb, hx, counted_markCommitted rfl, rfl, rfl, rfl⟩ rfl rfl hpn
      (.inr nofun)
  | dropCommitted =>
    exact drop h hb hx hset rfl rfl rfl
      (fun e he hne => (s.mem_locksWithout x.id e).mpr ⟨he, hne⟩) (excl_locksWithout h)

theorem step {l : SessionLabel} (h : Rows s) (hstep : s.step l = some s') : Rows s' := by
  cases step_cases hstep with
  | begin => exact begin h
  | act _ _ _ hx hs => exact sessionStep h hx hs

end Rows

end Sessions

end ChibiDb
