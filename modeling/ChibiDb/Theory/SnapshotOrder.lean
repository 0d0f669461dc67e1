import ChibiDb.Core.Transaction
import ChibiDb.Data.Transition

/-!
# Snapshots and Commit Order

A snapshot is read in two pieces, the id counter first and the open set second,
and a commit is written in three, the commit counter, the status bit and the
open set. Any number of threads take these pieces in any order. The question is
whether what a snapshot treats as committed is closed under the order in which
commits completed.

It is not when, between the two reads of a snapshot, a transaction begun after
the first read completes and then one begun before it does: the second is seen
and the first is not. `Ordered` rules out exactly that moment. A commit may
complete unless a snapshot under way has read a counter above its own id and
already missed a completed transaction.

## Main definitions

* `State`, `Label`, `State.step`: The interleavings.
* `CompletedBefore`: The order of completed commits.
* `Ordered`: No completion overtakes a snapshot that missed another one.

## Theorems

* `snapshot_closed_of_ordered`: Along ordered runs every snapshot is closed
  under commit order, and an unordered completion is observable.
* `snapshot_stable`: What a snapshot treats as committed, and so what it sees,
  never changes.
-/

namespace ChibiDb.SnapshotOrder

open List Option Function

/-- Where an open transaction's commit stands. -/
inductive CommitPc where
  | running
  | bumped
  | marked
  deriving DecidableEq, Repr

/-- The manager, where each commit stands, the snapshots half read (by caller)
    and the snapshots taken. -/
structure State where
  tm : TransactionManager
  pc : Nat → CommitPc
  loading : List (Nat × Nat)
  snaps : List Snapshot
  /-- Commits completed since the start, latest first. -/
  done : List Nat
  /-- The commit status recovered at the start. -/
  recovered : Clog

/-- One atomic piece of a method of the manager. -/
inductive Label where
  | beginOpen
  | loadNextId (caller : Nat)
  | readOpen (caller : Nat)
  | bumpCommits (id : Nat)
  | markCommitted (id : Nat)
  | removeOpen (id : Nat)
  | abort (id : Nat)
  deriving DecidableEq, Repr

namespace State

/-- The state after opening a database. -/
def start (tm : TransactionManager) : State :=
  { tm := tm, pc := fun _ => .running, loading := [], snaps := [], done := [],
    recovered := tm.committed }

/-- One atomic piece, if it is enabled. -/
def step (s : State) : Label → Option State
  | .beginOpen => some { s with tm := s.tm.beginOpen.2 }
  | .loadNextId caller =>
    if s.loading.any (fun l => l.1 = caller) then none
    else some { s with loading := (caller, s.tm.nextId) :: s.loading }
  | .readOpen caller => match s.loading.find? (fun l => l.1 = caller) with
    | none => none
    | some l => some { s with
        loading := s.loading.filter (fun l => l.1 ≠ caller)
        snaps := ⟨l.2, s.tm.xip⟩ :: s.snaps }
  | .bumpCommits id =>
    if id ∈ s.tm.openSet ∧ s.pc id = .running then
      some { s with tm := s.tm.bumpCommits, pc := update s.pc id .bumped }
    else none
  | .markCommitted id =>
    if id ∈ s.tm.openSet ∧ s.pc id = .bumped then
      some { s with tm := s.tm.markCommitted id, pc := update s.pc id .marked }
    else none
  | .removeOpen id =>
    if id ∈ s.tm.openSet ∧ s.pc id = .marked then
      some { s with tm := s.tm.removeOpen id, done := id :: s.done }
    else none
  | .abort id =>
    if id ∈ s.tm.openSet ∧ s.pc id = .running then some { s with tm := s.tm.removeOpen id }
    else none

end State

/-- A recovered manager: no transaction is open, ids start at 1 and the counter
    is above every committed id. -/
structure Recovered (tm : TransactionManager) : Prop where
  noneOpen : tm.openSet = []
  nextId_pos : 0 < tm.nextId
  committed_lt : ∀ x, tm.committed.isCommitted x = true → x < tm.nextId

/-- Transaction `a` completed its commit before `b` did. -/
def CompletedBefore (s : State) (a b : Nat) : Prop :=
  s.recovered.isCommitted a = true ∨ [b, a].Sublist s.done

/-- Every snapshot taken that treats a transaction as committed also treats as
    committed whatever completed before it. -/
def SnapshotsClosed (s : State) : Prop :=
  ∀ snap ∈ s.snaps, ∀ a b, CompletedBefore s a b →
    snap.committedBefore s.tm.committed b = true → snap.committedBefore s.tm.committed a = true

/-- A commit completes only when no snapshot under way has loaded a counter
    above its id and missed a completed transaction. -/
def Ordered (s : State) : Label → Prop
  | .removeOpen id => ∀ l ∈ s.loading, id < l.2 → ∀ a ∈ s.done, a < l.2
  | _ => True

instance decidableOrdered (s : State) (l : Label) : Decidable (Ordered s l) := by
  cases l <;> unfold Ordered <;> infer_instance

/-- What holds of the bookkeeping at every instant. -/
structure State.Inv (s : State) : Prop where
  open_lt : ∀ x ∈ s.tm.openSet, x < s.tm.nextId
  open_pos : ∀ x ∈ s.tm.openSet, x ≠ 0
  nextId_pos : 0 < s.tm.nextId
  done_lt : ∀ x ∈ s.done, x < s.tm.nextId
  done_closed : ∀ x ∈ s.done, x ∉ s.tm.openSet ∧ s.tm.committed.isCommitted x = true
  marked : ∀ x ∈ s.tm.openSet, s.tm.committed.isCommitted x = true ↔ s.pc x = .marked
  /-- The ids with a status bit are recovered, completed, or about to be. -/
  committed : ∀ x, s.tm.committed.isCommitted x = true →
    s.recovered.isCommitted x = true ∨ x ∈ s.done ∨ x ∈ s.tm.openSet
  recovered : ∀ x, s.recovered.isCommitted x = true →
    s.tm.committed.isCommitted x = true ∧ x < s.tm.nextId ∧ x ∉ s.tm.openSet ∧
      (∀ l ∈ s.loading, x < l.2)
  fresh : ∀ x, s.tm.nextId ≤ x → s.pc x = .running
  /-- A counter loaded earlier is no larger than the counter now. -/
  loading_le : ∀ l ∈ s.loading, l.2 ≤ s.tm.nextId
  /-- A caller is in at most one snapshot at a time. -/
  loading_nodup : (s.loading.map Prod.fst).Nodup
  /-- An open transaction is invisible to every snapshot taken. -/
  snaps_open : ∀ snap ∈ s.snaps, snap.xmax ≤ s.tm.nextId ∧
    ∀ x ∈ s.tm.openSet, x < snap.xmax → x ∈ snap.xip

/-- What ordered completions add: no half-read snapshot has missed a completion
    that one below its bound came after, and every snapshot taken is closed. -/
structure State.Closing (s : State) : Prop where
  loading_ordered : ∀ l ∈ s.loading, ∀ a b, [b, a].Sublist s.done → b < l.2 → a < l.2
  closed : SnapshotsClosed s

theorem inv_start (tm : TransactionManager) (h : Recovered tm) : (State.start tm).Inv where
  open_lt := by simp [State.start, h.noneOpen]
  open_pos := by simp [State.start, h.noneOpen]
  nextId_pos := h.nextId_pos
  done_lt := nofun
  done_closed := nofun
  marked := by simp [State.start, h.noneOpen]
  committed := fun x hx => .inl hx
  recovered := by
    intro x hx
    refine ⟨hx, h.committed_lt x hx, ?_, nofun⟩
    simp [State.start, h.noneOpen]
  fresh := fun _ _ => rfl
  loading_le := nofun
  loading_nodup := nodup_nil
  snaps_open := nofun

theorem closing_start (tm : TransactionManager) : (State.start tm).Closing where
  loading_ordered := nofun
  closed := nofun

variable {s s' : State} {a b : Nat} {l : Nat × Nat} {snap : Snapshot}
variable {id : Nat}

theorem committed_lt (h : s.Inv) {x : Nat} (hx : s.tm.committed.isCommitted x = true) :
    x < s.tm.nextId := by
  rcases h.committed x hx with hr | hd | ho
  · exact (h.recovered x hr).2.1
  · exact h.done_lt x hd
  · exact h.open_lt x ho

/-- A new id is above every counter loaded and every bound of a snapshot, so nothing that was
    decided before can be about it. -/
theorem inv_beginOpen (h : s.Inv) : ({ s with tm := s.tm.beginOpen.2 } : State).Inv where
  open_lt := by
    intro x hx
    rcases mem_insert_iff.mp hx with rfl | hx
    · exact Nat.lt_succ_self _
    · exact Nat.lt_succ_of_lt (h.open_lt x hx)
  open_pos := by
    intro x hx
    rcases mem_insert_iff.mp hx with rfl | hx
    · exact Nat.pos_iff_ne_zero.mp h.nextId_pos
    · exact h.open_pos x hx
  nextId_pos := Nat.succ_pos _
  done_lt := fun x hx => Nat.lt_succ_of_lt (h.done_lt x hx)
  done_closed := by
    intro x hx
    refine ⟨?_, (h.done_closed x hx).2⟩
    intro hopen
    rcases mem_insert_iff.mp hopen with rfl | hopen
    · exact Nat.lt_irrefl _ (h.done_lt _ hx)
    · exact (h.done_closed x hx).1 hopen
  marked := by
    intro x hx
    rcases mem_insert_iff.mp hx with rfl | hx
    · constructor
      · intro hc
        exact absurd (committed_lt h hc) (Nat.lt_irrefl _)
      · intro hpc
        rw [h.fresh _ (Nat.le_refl _)] at hpc
        cases hpc
    · exact h.marked x hx
  committed := by
    intro x hx
    rcases h.committed x hx with hr | hd | ho
    · exact .inl hr
    · exact .inr (.inl hd)
    · exact .inr (.inr (mem_insert_of_mem ho))
  recovered := by
    intro x hx
    rcases h.recovered x hx with ⟨hc, hlt, hopen, hload⟩
    refine ⟨hc, Nat.lt_succ_of_lt hlt, ?_, hload⟩
    intro hins
    rcases mem_insert_iff.mp hins with rfl | hins
    · exact Nat.lt_irrefl _ hlt
    · exact hopen hins
  fresh := fun x hx => h.fresh x (Nat.le_of_succ_le hx)
  loading_le := fun l hl => Nat.le_succ_of_le (h.loading_le l hl)
  loading_nodup := h.loading_nodup
  snaps_open := by
    intro snap hsnap
    rcases h.snaps_open snap hsnap with ⟨hle, hopen⟩
    refine ⟨Nat.le_succ_of_le hle, ?_⟩
    intro x hx hlt
    rcases mem_insert_iff.mp hx with rfl | hx
    · exact absurd hlt (Nat.not_lt.mpr hle)
    · exact hopen x hx hlt

theorem inv_loadNextId {caller : Nat} (hcaller : ¬ s.loading.any (fun l => l.1 = caller) = true)
    (h : s.Inv) : ({ s with loading := (caller, s.tm.nextId) :: s.loading } : State).Inv :=
  { h with
    recovered := by
      intro x hx
      rcases h.recovered x hx with ⟨hc, hlt, hopen, hload⟩
      refine ⟨hc, hlt, hopen, ?_⟩
      exact forall_mem_cons.mpr ⟨hlt, hload⟩
    loading_le := forall_mem_cons.mpr ⟨Nat.le_refl _, h.loading_le⟩
    loading_nodup := by
      rw [map_cons, nodup_cons]
      refine ⟨?_, h.loading_nodup⟩
      intro hmem
      rcases mem_map.mp hmem with ⟨l, hl, heq⟩
      exact hcaller (any_eq_true.mpr ⟨l, hl, decide_eq_true heq⟩) }

/-- The snapshot just read: what it sees had completed when the open set was read, and
    `loading_ordered` puts whatever completed earlier below its bound. -/
theorem closed_readOpen (hl : l ∈ s.loading) (h : s.Inv) (hc : s.Closing)
    (hab : CompletedBefore s a b)
    (hb : (⟨l.2, s.tm.xip⟩ : Snapshot).committedBefore s.tm.committed b = true) :
    (⟨l.2, s.tm.xip⟩ : Snapshot).committedBefore s.tm.committed a = true := by
  rw [committedBefore_iff] at hb ⊢
  rcases hb with ⟨hlt, hxip, _⟩
  simp only [TransactionManager.mem_xip_iff] at hlt hxip ⊢
  rcases hab with hrec | hsub
  · rcases h.recovered a hrec with ⟨hcom, _, hopen, hload⟩
    exact ⟨hload l hl, hopen, hcom⟩
  · have ha : a ∈ s.done := hsub.subset (mem_cons_of_mem _ mem_cons_self)
    exact ⟨hc.loading_ordered l hl a b hsub hlt, (h.done_closed a ha).1, (h.done_closed a ha).2⟩

theorem inv_readOpen (caller : Nat) (hl : l ∈ s.loading) (h : s.Inv) :
    ({ s with
        loading := s.loading.filter (fun l => l.1 ≠ caller)
        snaps := ⟨l.2, s.tm.xip⟩ :: s.snaps } : State).Inv :=
  { h with
    recovered := by
      intro x hx
      rcases h.recovered x hx with ⟨hc, hlt, hopen, hload⟩
      exact ⟨hc, hlt, hopen, fun l' hl' => hload l' (mem_of_mem_filter hl')⟩
    loading_le := fun l' hl' => h.loading_le l' (mem_of_mem_filter hl')
    loading_nodup := h.loading_nodup.sublist (filter_sublist.map _)
    snaps_open := by
      intro snap hsnap
      rcases mem_cons.mp hsnap with rfl | hsnap
      · exact ⟨h.loading_le l hl, fun x hx _ => (s.tm.mem_xip_iff x).mpr hx⟩
      · exact h.snaps_open snap hsnap }

/-- An open id is below the counter. -/
theorem fresh_update (hid : id ∈ s.tm.openSet) (h : s.Inv) (c : CommitPc) (x : Nat)
    (hx : s.tm.nextId ≤ x) : update s.pc id c x = .running := by
  have := h.open_lt id hid
  rw [update_of_ne (by omega)]
  exact h.fresh x hx

theorem inv_bumpCommits (hid : id ∈ s.tm.openSet) (hpc : s.pc id = .running)
    (h : s.Inv) :
    ({ s with
        tm := s.tm.bumpCommits
        pc := update s.pc id .bumped } : State).Inv :=
  { h with
    marked := by
      intro x hx
      dsimp only
      by_cases hxid : x = id
      · rw [hxid, update_self]
        have hmark := h.marked id hid
        rw [hpc] at hmark
        exact hmark.trans (by decide)
      · rw [update_of_ne hxid]
        exact h.marked x hx
    fresh := fresh_update hid h _ }

/-- The id whose bit is set is still open, hence invisible to every snapshot taken so far: the bit
    changes no snapshot's answer. -/
theorem committedBefore_mark (x : Nat) (hid : id ∈ s.tm.openSet) (h : s.Inv)
    (hsnap : snap ∈ s.snaps) :
    snap.committedBefore (s.tm.committed.markCommitted id) x = true ↔
      snap.committedBefore s.tm.committed x = true := by
  rw [committedBefore_iff, committedBefore_iff, Clog.isCommitted_mark]
  constructor
  · intro hx
    rcases hx with ⟨hlt, hxip, hc | ⟨rfl, _⟩⟩
    · exact ⟨hlt, hxip, hc⟩
    · exact absurd ((h.snaps_open snap hsnap).2 x hid hlt) hxip
  · intro hx
    exact ⟨hx.1, hx.2.1, .inl hx.2.2⟩

theorem inv_markCommitted (hid : id ∈ s.tm.openSet) (h : s.Inv) :
    ({ s with
        tm := s.tm.markCommitted id
        pc := update s.pc id .marked } : State).Inv :=
  { h with
    done_closed := fun x hx =>
      ⟨(h.done_closed x hx).1, (Clog.isCommitted_mark _ _ _).mpr (.inl (h.done_closed x hx).2)⟩
    marked := by
      intro x hx
      dsimp only [TransactionManager.markCommitted]
      rw [Clog.isCommitted_mark]
      by_cases hxid : x = id
      · rw [hxid, update_self]
        exact ⟨fun _ => rfl, fun _ => .inr ⟨rfl, h.open_pos id hid⟩⟩
      · rw [update_of_ne hxid, ← h.marked x hx]
        exact or_iff_left (fun hc => hxid hc.1)
    committed := by
      intro x hx
      rcases (Clog.isCommitted_mark _ _ _).mp hx with hc | ⟨rfl, _⟩
      · exact h.committed x hc
      · exact .inr (.inr hid)
    recovered := by
      intro x hx
      rcases h.recovered x hx with ⟨hc, hrest⟩
      exact ⟨(Clog.isCommitted_mark _ _ _).mpr (.inl hc), hrest⟩
    fresh := fresh_update hid h _ }

/-- Two completions in order, after one more. -/
theorem sublist_done_cons {done : List Nat} (h : [b, a].Sublist (id :: done)) :
    [b, a].Sublist done ∨ (b = id ∧ a ∈ done) := by
  cases h with
  | cons _ h => exact .inl h
  | cons_cons _ h => exact .inr ⟨rfl, singleton_sublist.mp h⟩

theorem mem_openSet_removeOpen {tm : TransactionManager} {id x : Nat} :
    x ∈ (tm.removeOpen id).openSet ↔ x ∈ tm.openSet ∧ x ≠ id := by
  simp [TransactionManager.removeOpen]

/-- A transaction leaves the open set. If its bit is set, it has completed. -/
theorem inv_close {done : List Nat} (h : s.Inv) (hkeep : ∀ x ∈ s.done, x ∈ done)
    (hdone : ∀ x ∈ done, x ∈ s.done ∨ x = id ∧ id ∈ s.tm.openSet ∧ s.pc id = .marked)
    (hmarked : s.pc id = .marked → id ∈ done) :
    ({ s with tm := s.tm.removeOpen id, done := done } : State).Inv :=
  { h with
    open_lt := fun x hx => h.open_lt x (mem_openSet_removeOpen.mp hx).1
    open_pos := fun x hx => h.open_pos x (mem_openSet_removeOpen.mp hx).1
    done_lt := by
      intro x hx
      rcases hdone x hx with hx | ⟨rfl, hid, _⟩
      · exact h.done_lt x hx
      · exact h.open_lt x hid
    done_closed := by
      intro x hx
      rcases hdone x hx with hx | ⟨rfl, hid, hpc⟩
      · exact ⟨fun ho => (h.done_closed x hx).1 (mem_openSet_removeOpen.mp ho).1,
          (h.done_closed x hx).2⟩
      · exact ⟨fun ho => (mem_openSet_removeOpen.mp ho).2 rfl, (h.marked x hid).mpr hpc⟩
    marked := fun x hx => h.marked x (mem_openSet_removeOpen.mp hx).1
    committed := by
      intro x hx
      rcases h.committed x hx with hr | hd | ho
      · exact .inl hr
      · exact .inr (.inl (hkeep x hd))
      · by_cases hxid : x = id
        · exact .inr (.inl (hxid ▸ hmarked (hxid ▸ (h.marked x ho).mp hx)))
        · exact .inr (.inr (mem_openSet_removeOpen.mpr ⟨ho, hxid⟩))
    recovered := by
      intro x hx
      rcases h.recovered x hx with ⟨hc, hlt, hopen, hload⟩
      exact ⟨hc, hlt, fun ho => hopen (mem_openSet_removeOpen.mp ho).1, hload⟩
    snaps_open := by
      intro snap hsnap
      rcases h.snaps_open snap hsnap with ⟨hle, hopen⟩
      exact ⟨hle, fun x hx hlt => hopen x (mem_openSet_removeOpen.mp hx).1 hlt⟩ }

theorem closing_removeOpen (hid : id ∈ s.tm.openSet) (hord : Ordered s (.removeOpen id))
    (h : s.Inv) (hc : s.Closing) :
    ({ s with tm := s.tm.removeOpen id, done := id :: s.done } : State).Closing where
  loading_ordered := by
    intro l hl a b hab hb
    rcases sublist_done_cons hab with hab | ⟨rfl, ha⟩
    · exact hc.loading_ordered l hl a b hab hb
    · exact hord l hl hb a ha
  closed := by
    intro snap hsnap a b hab hb
    rcases hab with hrec | hab
    · exact hc.closed snap hsnap a b (.inl hrec) hb
    rcases sublist_done_cons hab with hab | ⟨rfl, _⟩
    · exact hc.closed snap hsnap a b (.inr hab) hb
    · -- The transaction completing now was open at every snapshot's read.
      rcases (committedBefore_iff snap s.tm.committed b).mp hb with ⟨hlt, hxip, _⟩
      exact absurd ((h.snaps_open snap hsnap).2 b hid hlt) hxip

/-- One step in terms of the state it leads to: every later argument is a case
    analysis over this, and none unfolds the step function. -/
inductive StateStep (s : State) : Label → State → Prop where
  | beginOpen : StateStep s .beginOpen { s with tm := s.tm.beginOpen.2 }
  | loadNextId (caller : Nat) (hcaller : ¬ s.loading.any (fun l => l.1 = caller) = true) :
      StateStep s (.loadNextId caller)
        { s with loading := (caller, s.tm.nextId) :: s.loading }
  | readOpen (caller : Nat) (l : Nat × Nat) (hl : l ∈ s.loading) :
      StateStep s (.readOpen caller) { s with
        loading := s.loading.filter (fun l => l.1 ≠ caller)
        snaps := ⟨l.2, s.tm.xip⟩ :: s.snaps }
  | bumpCommits (id : Nat) (hid : id ∈ s.tm.openSet) (hpc : s.pc id = .running) :
      StateStep s (.bumpCommits id)
        { s with tm := s.tm.bumpCommits, pc := update s.pc id .bumped }
  | markCommitted (id : Nat) (hid : id ∈ s.tm.openSet) :
      StateStep s (.markCommitted id)
        { s with tm := s.tm.markCommitted id, pc := update s.pc id .marked }
  | removeOpen (id : Nat) (hid : id ∈ s.tm.openSet) (hpc : s.pc id = .marked) :
      StateStep s (.removeOpen id) { s with tm := s.tm.removeOpen id, done := id :: s.done }
  | abort (id : Nat) (hpc : s.pc id = .running) :
      StateStep s (.abort id) { s with tm := s.tm.removeOpen id }

theorem step_cases {l : Label} (h : s.step l = some s') : StateStep s l s' := by
  cases l with
  | beginOpen =>
    cases h
    exact .beginOpen
  | loadNextId caller =>
    rcases ite_none_left_eq_some.mp h with ⟨hcaller, h⟩
    cases h
    exact .loadNextId caller hcaller
  | readOpen caller =>
    simp only [State.step] at h
    split at h
    · cases h
    · next l hl =>
      cases h
      exact .readOpen caller l (mem_of_find?_eq_some hl)
  | bumpCommits id =>
    rcases ite_some_none_eq_some.mp h with ⟨⟨hid, hpc⟩, rfl⟩
    exact .bumpCommits id hid hpc
  | markCommitted id =>
    rcases ite_some_none_eq_some.mp h with ⟨⟨hid, _⟩, rfl⟩
    exact .markCommitted id hid
  | removeOpen id =>
    rcases ite_some_none_eq_some.mp h with ⟨⟨hid, hpc⟩, rfl⟩
    exact .removeOpen id hid hpc
  | abort id =>
    rcases ite_some_none_eq_some.mp h with ⟨⟨_, hpc⟩, rfl⟩
    exact .abort id hpc

theorem inv_step (s : State) (l : Label) (s' : State) (h : s.Inv)
    (hstep : s.step l = some s') : s'.Inv := by
  cases step_cases hstep with
  | beginOpen => exact inv_beginOpen h
  | loadNextId _ hcaller => exact inv_loadNextId hcaller h
  | readOpen caller _ hl => exact inv_readOpen caller hl h
  | bumpCommits _ hid hpc => exact inv_bumpCommits hid hpc h
  | markCommitted _ hid => exact inv_markCommitted hid h
  | removeOpen id hid hpc =>
    refine inv_close h (fun _ => mem_cons_of_mem id) ?_ (fun _ => mem_cons_self)
    intro x hx
    exact (mem_cons.mp hx).symm.imp_right (fun heq => ⟨heq, hid, hpc⟩)
  | abort _ hpc =>
    refine inv_close h (fun _ hx => hx) (fun _ => .inl) (fun hm => ?_)
    cases hpc.symm.trans hm

theorem closing_step {l : Label} (h : s.Inv) (hc : s.Closing) (hord : Ordered s l)
    (hstep : s.step l = some s') : s'.Closing := by
  cases step_cases hstep with
  | loadNextId =>
    refine ⟨fun l hl a b hab hb => ?_, hc.closed⟩
    rcases mem_cons.mp hl with rfl | hl
    · -- a counter loaded now is above every completed id
      exact h.done_lt a (hab.subset (mem_cons_of_mem _ mem_cons_self))
    · exact hc.loading_ordered l hl a b hab hb
  | readOpen _ _ hl =>
    refine ⟨fun l' hl' => hc.loading_ordered l' (mem_of_mem_filter hl'),
      fun snap hsnap a b hab hb => ?_⟩
    rcases mem_cons.mp hsnap with rfl | hsnap
    · exact closed_readOpen hl h hc hab hb
    · exact hc.closed snap hsnap a b hab hb
  | markCommitted _ hid =>
    refine ⟨hc.loading_ordered, fun snap hsnap a b hab hb => ?_⟩
    have hb' := (committedBefore_mark b hid h hsnap).mp hb
    exact (committedBefore_mark a hid h hsnap).mpr (hc.closed snap hsnap a b hab hb')
  | removeOpen _ hid => exact closing_removeOpen hid hord h hc
  | _ => exact ⟨hc.loading_ordered, hc.closed⟩

/-- An unordered completion is observable: the snapshot that missed `a` now sees the transaction
    that just completed after it. -/
theorem not_closed_of_not_ordered (h : s.Inv) (hstep : s.step (.removeOpen id) = some s')
    (hord : ¬ Ordered s (.removeOpen id)) :
    ∃ caller t, s'.step (.readOpen caller) = some t ∧ ¬ SnapshotsClosed t := by
  rcases ite_some_none_eq_some.mp hstep with ⟨⟨hid, hpc⟩, rfl⟩
  simp only [Ordered] at hord
  push Not at hord
  rcases hord with ⟨l, hl, hlt, a, ha, hle⟩
  have hfind := find_key_of_mem h.loading_nodup hl
  refine ⟨l.1, _, by simp only [State.step, hfind]; rfl, ?_⟩
  intro hclosed
  have hseen : (⟨l.2, (s.tm.removeOpen id).xip⟩ : Snapshot).committedBefore
      (s.tm.removeOpen id).committed id = true := by
    rw [committedBefore_iff]
    refine ⟨hlt, ?_, (h.marked id hid).mpr hpc⟩
    intro hmem
    rw [TransactionManager.mem_xip_iff, mem_openSet_removeOpen] at hmem
    exact hmem.2 rfl
  have hafter := hclosed _ mem_cons_self a id (.inr ((singleton_sublist.mpr ha).cons_cons id)) hseen
  rw [committedBefore_iff] at hafter
  exact Nat.not_lt.mpr hle hafter.1

/-- Along every run whose completions are ordered, every snapshot taken is closed under commit
    order. The condition is exact: in any state of any run, a completion that breaks it lets a
    snapshot under way see the transaction that completes and miss one that completed before. -/
theorem snapshot_closed_of_ordered (tm : TransactionManager) (h : Recovered tm)
    (ls : List Label) (s : State)
    (hrun : runSteps State.step (State.start tm) ls = some s) :
    (Meets State.step Ordered (State.start tm) ls → SnapshotsClosed s) ∧
    (∀ id s', s.step (.removeOpen id) = some s' → ¬ Ordered s (.removeOpen id) →
      ∃ caller t, s'.step (.readOpen caller) = some t ∧ ¬ SnapshotsClosed t) := by
  have hinv : s.Inv :=
    invariant_of_steps State.step State.Inv inv_step _ s ls (inv_start tm h) hrun
  constructor
  · intro hok
    have hboth : s.Inv ∧ s.Closing :=
      invariant_of_meets State.step Ordered (fun s => s.Inv ∧ s.Closing)
        (fun s l s' hs hord hstep =>
          ⟨inv_step s l s' hs.1 hstep, closing_step hs.1 hs.2 hord hstep⟩)
        _ s ls ⟨inv_start tm h, closing_start tm⟩ hok hrun
    exact hboth.2.closed
  · intro _ _ hstep hord
    exact not_closed_of_not_ordered hinv hstep hord

/-- A manager that has handed out no id. -/
def freshManager : TransactionManager := .new 1 [] 0

theorem recovered_freshManager : Recovered freshManager where
  noneOpen := rfl
  nextId_pos := by decide
  committed_lt := by
    intro x hx
    have hno : freshManager.committed.isCommitted x = false := by
      cases x with
      | _ => rfl
    cases hno.symm.trans hx

/-- A transaction commits between two snapshots. -/
theorem snapshot_closed_of_ordered_fresh :
    ∃ s, runSteps State.step (State.start freshManager)
        [.beginOpen, .loadNextId 0, .readOpen 0, .bumpCommits 1, .markCommitted 1,
          .removeOpen 1, .loadNextId 0, .readOpen 0] = some s ∧ SnapshotsClosed s :=
  ⟨_, rfl, (snapshot_closed_of_ordered freshManager
    recovered_freshManager
    [.beginOpen, .loadNextId 0, .readOpen 0, .bumpCommits 1, .markCommitted 1,
      .removeOpen 1, .loadNextId 0, .readOpen 0] _ rfl).1 (by decide)⟩

/-- Transaction 1 begins, a reader loads the counter, transaction 2 begins and commits, transaction
    1 commits, and the reader reads the open set. Its snapshot treats 1 as committed and 2 not,
    although 2 completed first. If 2 replaced an old version of a row and 1 then replaced that of 2,
    the reader sees the old version and the newest one. -/
theorem snapshot_misses_earlier_commit :
    ∃ s snap, runSteps State.step (State.start freshManager)
        [.beginOpen, .loadNextId 0, .beginOpen, .bumpCommits 2, .markCommitted 2, .removeOpen 2,
          .bumpCommits 1, .markCommitted 1, .removeOpen 1, .readOpen 0] = some s ∧
      snap ∈ s.snaps ∧ CompletedBefore s 2 1 ∧
      snap.committedBefore s.tm.committed 1 = true ∧
      snap.committedBefore s.tm.committed 2 = false ∧
      snap.visible s.tm.committed readOnlyTrxId 0 2 = true ∧
      snap.visible s.tm.committed readOnlyTrxId 1 0 = true ∧ ¬ SnapshotsClosed s := by
  refine ⟨_, ⟨2, []⟩, rfl, mem_cons_self, .inr (List.Sublist.refl _), by decide, by decide,
    by decide, by decide, ?_⟩
  intro hclosed
  exact absurd (hclosed ⟨2, []⟩ mem_cons_self 2 1 (.inr (List.Sublist.refl _)) (by decide))
    (by decide)

/-- Only a status bit could change a snapshot's answer, and that bit belongs to an open
    transaction. -/
theorem committedBefore_step {l : Label} (h : s.Inv) (hstep : s.step l = some s')
    (hsnap : snap ∈ s.snaps) :
    snap ∈ s'.snaps ∧
      ∀ x, snap.committedBefore s'.tm.committed x = snap.committedBefore s.tm.committed x := by
  cases step_cases hstep with
  | readOpen => exact ⟨mem_cons_of_mem _ hsnap, fun _ => rfl⟩
  | markCommitted _ hid =>
    refine ⟨hsnap, fun x => ?_⟩
    rw [Bool.eq_iff_iff]
    exact committedBefore_mark x hid h hsnap
  | _ => exact ⟨hsnap, fun _ => rfl⟩

/-- A snapshot never changes its mind: from any moment after it was taken to any
    later one, it treats the same transactions as committed, and so sees the
    same versions, whatever begins, commits and aborts in between. -/
theorem snapshot_stable (tm : TransactionManager) (h : Recovered tm) (ls ms : List Label)
    (s t : State) (hrun : runSteps State.step (State.start tm) ls = some s)
    (hlater : runSteps State.step s ms = some t) (snap : Snapshot) (hsnap : snap ∈ s.snaps) :
    (∀ x, snap.committedBefore t.tm.committed x = snap.committedBefore s.tm.committed x) ∧
      ∀ id creator deleter, snap.visible t.tm.committed id creator deleter =
        snap.visible s.tm.committed id creator deleter := by
  have hinv : s.Inv :=
    invariant_of_steps State.step State.Inv inv_step _ s ls (inv_start tm h) hrun
  have hkept : t.Inv ∧ snap ∈ t.snaps ∧
      ∀ x, snap.committedBefore t.tm.committed x = snap.committedBefore s.tm.committed x := by
    refine invariant_of_steps State.step (fun u => u.Inv ∧ snap ∈ u.snaps ∧
      ∀ x, snap.committedBefore u.tm.committed x = snap.committedBefore s.tm.committed x)
      ?_ s t ms ⟨hinv, hsnap, fun _ => rfl⟩ hlater
    intro u l u' hu hstep
    have hone := committedBefore_step hu.1 hstep hu.2.1
    exact ⟨inv_step u l u' hu.1 hstep, hone.1, fun x => (hone.2 x).trans (hu.2.2 x)⟩
  -- Visibility reads the commit status through the snapshot only.
  exact ⟨hkept.2.2, fun _ _ _ => by simp only [Snapshot.visible, hkept.2.2]⟩

/-- A reader's snapshot is taken while transaction 1 is open. The row 1 then
    inserts and commits stays invisible to it. -/
theorem snapshot_stable_open_writer :
    ∃ s t, runSteps State.step (State.start freshManager)
        [.beginOpen, .loadNextId 0, .readOpen 0] = some s ∧
      runSteps State.step s [.bumpCommits 1, .markCommitted 1, .removeOpen 1] = some t ∧
      t.tm.committed.isCommitted 1 = true ∧
      (⟨2, [1]⟩ : Snapshot).visible t.tm.committed readOnlyTrxId 1 0 = false :=
  ⟨_, _, rfl, rfl, by decide, ((snapshot_stable freshManager
    recovered_freshManager
    [.beginOpen, .loadNextId 0, .readOpen 0] [.bumpCommits 1, .markCommitted 1, .removeOpen 1]
    _ _ rfl rfl ⟨2, [1]⟩ (by decide)).2 readOnlyTrxId 1 0).trans (by decide)⟩

end ChibiDb.SnapshotOrder
