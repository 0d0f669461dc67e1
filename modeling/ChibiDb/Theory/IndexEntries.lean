import ChibiDb.Theory.SessionEffects

/-!
# Who Has Which Index Entries

An index is the multiset of its entries. A transaction adds an entry for each
version it makes and removes it when it takes the version back, one entry at a
time. At every moment what it has added and not yet removed can be read off its
own state: the entries its undo list would remove and those it is removing,
less those it has still to add.

A step of a transaction changes the indexes by exactly what it changes here. So
what the others have put there is never touched, and an entry that is to be
removed is there.

## Main definitions

* `due`: The entries a transaction would have to remove to be rid of its writes.
* `held`: How often an entry of the indexes is there because of a transaction.
* `EntryOk`, `Entries`: The invariant.

## Theorems

* `held_of_step`: A step changes the indexes by what it changes in `held`.
* `Entries.step`: Every step keeps the invariant.
* `held_le`: What a transaction has added is in the indexes.
-/

namespace ChibiDb.Sessions

open List Option

/-- The entries to remove when everything is taken back. -/
def due (s : Sessions) (x : TrxState) : List IndexEntry :=
  x.unindexing ++ x.undo.flatMap s.unindexes

/-- How many copies of an entry are in the indexes because of `x`. -/
def held (s : Sessions) (x : TrxState) (e : IndexEntry) : Nat :=
  (s.due x).count e - x.indexing.count e

/-- What is still to be done in the indexes for one transaction. -/
structure EntryOk (s : Sessions) (x : TrxState) : Prop where
  indexing : x.stage ≠ .running ∨ x.stmt = none → x.indexing = []
  unindexing : x.stage = .running → x.unindexing = []
  pending : x.pending ≠ none → x.indexing = []
  /-- What is still to be added belongs to a write. -/
  due : ∀ e, x.indexing.count e ≤ (s.due x).count e

/-- The indexes and what the transactions have in them. -/
structure Entries (s : Sessions) : Prop where
  trx : ∀ x ∈ s.trxs, s.EntryOk x
  sum : ∀ e, (s.trxs.map (fun x => s.held x e)).sum ≤ s.index.count e

variable {s s' : Sessions} {x y : TrxState} {u : Undo}

theorem unindexes_congr (h : s'.indexes = s.indexes) : s'.unindexes = s.unindexes := by
  funext u
  cases u with
  | deleteMark => rfl
  | _ => simp only [unindexes, entriesOf, indexOps, h]

theorem due_congr (h : s'.indexes = s.indexes) (hun : y.unindexing = x.unindexing)
    (hundo : y.undo = x.undo) : s'.due y = s.due x := by
  unfold due
  rw [unindexes_congr h, hun, hundo]

theorem held_congr (h : s'.indexes = s.indexes) (hun : y.unindexing = x.unindexing)
    (hundo : y.undo = x.undo) (hidx : y.indexing = x.indexing) (e : IndexEntry) :
    s'.held y e = s.held x e := by
  unfold held
  rw [due_congr h hun hundo, hidx]

/-- What a step of `x`, which becomes `y`, does to its index entries. -/
structure Accounts (s s' : Sessions) (x y : TrxState) : Prop where
  ok : s'.EntryOk y
  balance : ∀ e, s'.index.count e + s.held x e = s.index.count e + s'.held y e

/-- Nothing about index entries happens. -/
theorem accounts_same (h : s.EntryOk x) (hixs : s'.indexes = s.indexes)
    (hindex : s'.index = s.index) (hun : y.unindexing = x.unindexing) (hundo : y.undo = x.undo)
    (hidx : y.indexing = x.indexing) (hpend : y.pending ≠ none → x.pending ≠ none ∨ x.indexing = [])
    (hidle : y.stage ≠ .running ∨ y.stmt = none →
      x.stage ≠ .running ∨ x.stmt = none ∨ x.indexing = [])
    (hrun : y.stage = .running → x.stage = .running ∨ x.unindexing = []) : Accounts s s' x y := by
  have hdue := due_congr hixs hun hundo
  constructor
  case ok =>
    constructor
    case indexing =>
      intro hy
      rw [hidx]
      rcases hidle hy with hx | hx | hx
      · exact h.indexing (.inl hx)
      · exact h.indexing (.inr hx)
      · exact hx
    case unindexing =>
      intro hy
      rw [hun]
      exact (hrun hy).elim h.unindexing id
    case pending =>
      intro hy
      rw [hidx]
      exact (hpend hy).elim h.pending id
    case due =>
      intro e
      rw [hidx, hdue]
      exact h.due e
  case balance =>
    intro _
    rw [hindex, held_congr hixs hun hundo hidx]

/-- The stage and whether there is a statement stay the same. -/
theorem accounts_still (h : s.EntryOk x) (hixs : s'.indexes = s.indexes)
    (hindex : s'.index = s.index) (hun : y.unindexing = x.unindexing) (hundo : y.undo = x.undo)
    (hidx : y.indexing = x.indexing) (hpend : y.pending = x.pending) (hstage : y.stage = x.stage)
    (hstmt : y.stmt = none → x.stmt = none) : Accounts s s' x y := by
  refine accounts_same h hixs hindex hun hundo hidx (fun hp => .inl (hpend ▸ hp)) ?_ ?_
  · intro hy
    rw [hstage] at hy
    exact hy.imp_right (fun hn => .inl (hstmt hn))
  · intro hy
    exact .inl (hstage ▸ hy)

/-- A version is made: its entries are due, and none of them is there yet. -/
theorem accounts_create (h : s.EntryOk x) (hixs : s'.indexes = s.indexes)
    (hindex : s'.index = s.index) (hun : y.unindexing = x.unindexing) (hundo : y.undo = u :: x.undo)
    (hxidx : x.indexing = []) (hidx : y.indexing = s.unindexes u) (hpend : y.pending = none)
    (hstage : y.stage = x.stage) (hrun : x.stage = .running) (hstmt : y.stmt ≠ none) :
    Accounts s s' x y := by
  have hdue : ∀ e, (s'.due y).count e = (s.unindexes u).count e + (s.due x).count e := by
    intro e
    unfold due
    rw [unindexes_congr hixs, hun, hundo, flatMap_cons]
    simp only [count_append]
    omega
  constructor
  case ok =>
    constructor
    case indexing =>
      rintro (hy | hy)
      · exact absurd (hstage.trans hrun) hy
      · exact absurd hy hstmt
    case unindexing =>
      intro hy
      rw [hun]
      exact h.unindexing (hstage ▸ hy)
    case pending => exact fun hy => absurd hpend hy
    case due =>
      intro e
      rw [hidx, hdue]
      exact Nat.le_add_right _ _
  case balance =>
    intro e
    have hd := hdue e
    unfold held
    rw [hindex, hidx, hxidx, count_nil]
    omega

/-- A write is taken back: its entries are now being removed. -/
theorem accounts_undo {rest : List Undo} (h : s.EntryOk x) (hixs : s'.indexes = s.indexes)
    (hindex : s'.index = s.index) (hx : x.undo = u :: rest) (hxun : x.unindexing = [])
    (hun : y.unindexing = s.unindexes u) (hundo : y.undo = u.leftover ++ rest)
    (hidx : y.indexing = x.indexing) (hstage : y.stage = x.stage) (hst : x.stage ≠ .running) :
    Accounts s s' x y := by
  have hleft : u.leftover.flatMap s.unindexes = [] := by
    cases u <;> rfl
  have hdue : s'.due y = s.due x := by
    unfold due
    rw [unindexes_congr hixs, hun, hundo, hx, hxun, flatMap_append, hleft,
      flatMap_cons, nil_append, nil_append]
  constructor
  case ok =>
    constructor
    case indexing | pending =>
      intro _
      rw [hidx]
      exact h.indexing (.inl hst)
    case unindexing =>
      intro hy
      exact absurd (hstage ▸ hy) hst
    case due =>
      intro e
      rw [hidx, hdue]
      exact h.due e
  case balance =>
    intro _
    unfold held
    rw [hindex, hidx, hdue]

/-- Every step accounts for the index entries it adds and removes. -/
theorem accounts_of_step {a : SessionAction} (hr : Rows s) (h : s.EntryOk x) (hx : x ∈ s.trxs)
    (hs : SessionStep s x a s') (hm : Moved s s' x y) : Accounts s s' x y := by
  cases hs with
  | startStatement _ _ hstmt =>
    rw [moved_unique hx hm rfl rfl]
    exact accounts_same h rfl rfl rfl rfl rfl .inl (fun _ => .inr (.inl hstmt)) .inl
  | pick | beginCheck | beginCheckNote | claimKey | search | examine | nextIndex
  | endCheckUpdate | endCheckInsert | noteWrite =>
    rw [moved_unique hx hm rfl rfl]
    exact accounts_still h rfl rfl rfl rfl rfl rfl rfl nofun
  | storeInsert _ _ _ _ _ hst _ hp hidx =>
    rw [moved_unique hx hm rfl rfl]
    exact accounts_create h rfl rfl rfl rfl hidx rfl hp rfl hst (some_ne_none _)
  | indexInsert e rest hidx =>
    rw [moved_unique hx hm rfl rfl]
    have hdue := h.due
    rw [hidx] at hdue
    constructor
    case ok =>
      constructor
      case indexing =>
        intro hy
        cases hidx.symm.trans (h.indexing hy)
      case unindexing => exact h.unindexing
      case pending =>
        intro hy
        cases hidx.symm.trans (h.pending hy)
      case due =>
        intro o
        have ho := hdue o
        rw [count_cons] at ho
        exact Nat.le_trans (Nat.le_add_right _ _) ho
    case balance =>
      intro o
      have ho := hdue o
      have hsame : (due { s.putTrx { x with indexing := rest } with index := e :: s.index }
          { x with indexing := rest }).count o = (s.due x).count o := rfl
      unfold held
      rw [hsame, hidx]
      simp only [count_cons] at ho ⊢
      omega
  | lockRow =>
    rw [moved_self hr.books hx hm rfl]
    exact accounts_still h rfl rfl rfl rfl rfl rfl rfl id
  | storeDeleteMark _ _ _ _ _ hst _ hp hidx =>
    rw [moved_unique hx hm rfl rfl]
    exact accounts_create h rfl rfl rfl rfl hidx hidx hp rfl hst (some_ne_none _)
  | storeVersion _ _ _ _ _ _ _ _ _ _ hidx =>
    rw [moved_unique hx hm rfl rfl]
    exact accounts_same h rfl rfl rfl rfl rfl (fun _ => .inr hidx) (fun _ => .inr (.inr hidx)) .inl
  | linkVersion p _ hp _ hst =>
    rw [moved_unique hx hm rfl rfl]
    rcases ((hr.trx x hx).pend p hp).stmt with ⟨_, hstmt, _⟩
    refine accounts_create h rfl rfl rfl rfl ?_ rfl rfl rfl hst ?_
    · exact h.pending (fun hn => absurd (hp.symm.trans hn) (some_ne_none _))
    · dsimp only
      rw [hstmt]
      exact some_ne_none _
  | endStatement _ _ _ _ hidx =>
    rw [moved_unique hx hm rfl rfl]
    exact accounts_same h rfl rfl rfl rfl rfl .inl (fun _ => .inr (.inr hidx)) .inl
  | failStatement _ _ _ _ hidx =>
    rw [moved_unique hx hm rfl rfl]
    exact accounts_same h rfl rfl rfl rfl rfl .inl (fun _ => .inr (.inr hidx))
      (fun hy => absurd hy nofun)
  | undoInsert _ _ _ _ _ hun hable hu | undoMark _ _ _ _ _ _ hun hable hu
  | undoUpdate _ _ _ _ _ _ _ _ hun hable hu =>
    rw [moved_unique hx hm rfl rfl]
    exact accounts_undo h rfl rfl hu hun rfl rfl rfl rfl (Rows.stage_of_undoable hable).1
  | unindex e rest hun he =>
    rw [moved_unique hx hm rfl rfl]
    have hst : x.stage ≠ .running := by
      intro hst
      cases hun.symm.trans (h.unindexing hst)
    have hidx := h.indexing (.inl hst)
    constructor
    case ok =>
      constructor
      case indexing => exact h.indexing
      case unindexing => exact fun hy => absurd hy hst
      case pending => exact h.pending
      case due =>
        intro o
        rw [hidx]
        exact Nat.zero_le _
    case balance =>
      intro o
      have hpos := count_pos_iff.mpr he
      have hdue : (s.due x).count o = (e :: rest ++ x.undo.flatMap s.unindexes).count o := by
        unfold due
        rw [hun]
      have hdue' : (due { s.putTrx { x with unindexing := rest } with index := s.index.erase e }
          { x with unindexing := rest }).count o =
          (rest ++ x.undo.flatMap s.unindexes).count o := rfl
      unfold held
      rw [hdue, hdue', hidx, cons_append, count_cons, count_erase]
      by_cases heo : e = o
      · rw [heo] at hpos ⊢
        simp only [beq_self_eq_true, if_true, count_nil]
        omega
      · simp only [beq_iff_eq, heo, if_false, count_nil]
        omega
  | endUndo _ _ _ hst _ hun =>
    rw [moved_unique hx hm rfl rfl]
    exact accounts_same h rfl rfl rfl rfl rfl .inl (fun _ => .inl (hst.trans_ne nofun))
      (fun _ => .inr hun)
  | rollback hst =>
    rw [moved_unique hx hm rfl rfl]
    refine accounts_same h rfl rfl rfl rfl rfl .inl ?_ (fun hy => absurd hy nofun)
    intro _
    rcases hst with ⟨_, hstmt⟩ | hst | hst
    · exact .inr (.inl hstmt)
    all_goals exact .inl (hst.trans_ne nofun)
  | finishUndo hst | checkConflicts hst | markCommitted hst =>
    rw [moved_unique hx hm rfl rfl]
    exact accounts_same h rfl rfl rfl rfl rfl .inl (fun _ => .inl (hst.trans_ne nofun))
      (fun hy => absurd hy nofun)
  | ssiCheck _ hstmt =>
    rw [moved_unique hx hm rfl rfl]
    exact accounts_same h rfl rfl rfl rfl rfl .inl (fun _ => .inr (.inl hstmt))
      (fun hy => absurd hy nofun)
  | dropAborted | dropCommitted => exact (moved_ne_dropTrx hx hm rfl).elim
  | _ =>
    rw [moved_unique hx hm rfl rfl]
    exact accounts_still h rfl rfl rfl rfl rfl rfl rfl id

/-- What the transactions sum up to when one of them changes. -/
theorem sum_putTrx (g : TrxState → Nat) (hb : Books s) (hx : x ∈ s.trxs) (hid : y.id = x.id) :
    ((s.putTrx y).trxs.map g).sum + g x = (s.trxs.map g).sum + g y := by
  have hput := ((perm_map_key (fun _ => y) hb.ids hx).map g).sum_nat
  have hall := ((perm_cons_filter_key hb.ids hx).map g).sum_nat
  rw [map_cons, sum_cons] at hput hall
  rw [putTrx, hid, hput, hall]
  omega

namespace Entries

theorem moved (h : Entries s) (hb : Books s) (hx : x ∈ s.trxs) (hm : Moved s s' x y)
    (ha : Accounts s s' x y) : Entries s' := by
  have hsame : ∀ z e, s'.held z e = s.held z e := by
    intro z e
    exact held_congr hm.indexes rfl rfl rfl e
  constructor
  case trx =>
    intro z hz
    rcases hm.cases hz with rfl | ⟨hz, _⟩
    · exact ha.ok
    have hok := h.trx z hz
    refine ⟨hok.indexing, hok.unindexing, hok.pending, fun e => ?_⟩
    rw [due_congr hm.indexes rfl rfl]
    exact hok.due e
  case sum =>
    intro e
    have hput := sum_putTrx (fun z => s.held z e) hb hx hm.id
    have hbal := ha.balance e
    have hsum := h.sum e
    rw [hsame y] at hbal
    simp only [hsame, hm.trxs]
    omega

theorem dropped (h : Entries s) (hd : Dropped s s' x) : Entries s' := by
  constructor
  case trx =>
    intro z hz
    have hok := h.trx z (hd.mem hz)
    refine ⟨hok.indexing, hok.unindexing, hok.pending, fun e => ?_⟩
    rw [due_congr hd.indexes rfl rfl]
    exact hok.due e
  case sum =>
    intro e
    have hsame : ∀ z, s'.held z e = s.held z e := fun z =>
      held_congr hd.indexes rfl rfl rfl e
    have hsub : (s'.trxs.map (fun z => s.held z e)).Sublist (s.trxs.map (fun z => s.held z e)) := by
      rw [hd.trxs]
      exact filter_sublist.map _
    simp only [hsame, hd.index]
    exact Nat.le_trans (List.Sublist.sum_le_sum hsub (fun _ _ => Nat.zero_le _)) (h.sum e)

/-- Every step keeps the account of the index entries. -/
theorem step {l : SessionLabel} (h : Entries s) (hr : Rows s) (hstep : s.step l = some s') :
    Entries s' := by
  cases step_cases hstep with
  | begin =>
    constructor
    case trx =>
      exact forall_mem_cons.mpr ⟨⟨fun _ => rfl, fun _ => rfl, fun _ => rfl,
        fun _ => Nat.zero_le _⟩, fun z hz => { h.trx z hz with }⟩
    case sum =>
      intro e
      rw [map_cons, sum_cons]
      have hsum := h.sum e
      have hfresh : held { s with
        tm := s.tm.beginOpen.2, trxs := TrxState.fresh s.tm.nextId :: s.trxs }
        (TrxState.fresh s.tm.nextId) e = 0 := rfl
      rw [hfresh, Nat.zero_add]
      exact hsum
  | act x _ _ hx hs =>
    rcases effect_of_step hr hx hs with ⟨_, hm, _⟩ | hd
    · exact moved h hr.books hx hm (accounts_of_step hr (h.trx x hx) hx hs hm)
    · exact dropped h hd

theorem of_opened (h : Opened s) : Entries s := by
  constructor <;>
    simp [h.trxs]

/-- What is to be removed is there. -/
theorem held_le (h : Entries s) (hx : x ∈ s.trxs) (e : IndexEntry) :
    s.held x e ≤ s.index.count e := by
  have hmem : s.held x e ∈ s.trxs.map (fun z => s.held z e) := mem_map.mpr ⟨x, hx, rfl⟩
  exact Nat.le_trans (single_le_sum (fun _ _ => Nat.zero_le _) _ hmem) (h.sum e)

end Entries

end ChibiDb.Sessions
