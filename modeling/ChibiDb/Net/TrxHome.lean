import ChibiDb.Net.Instance

/-!
# Where a Transaction Ends

A session keeps its transaction and the name of its database, not the database.
What the name stands for can change: DROP DATABASE takes the cached handle away
before anything else, and only the session that drops is asked whether it is in a
transaction. Another session then commits into what is opened under the name next,
be it a new database or the old files. The same happens to a session that has taken
the handle for its BEGIN and has not run it yet.

## Main definitions

* `AtHome`: Everything that transactions left in a database is of its own.
* `Session.Begun`: A session has a transaction, or the handle for one.
* `Spares`: No database is dropped in which a session has begun.

## Theorems

* `homes_step`: A step that spares transactions keeps them at home.
* `transaction_ends_at_home`: So does a run.
* `commit_in_another_database`: A commit in another database.
-/

namespace ChibiDb.Net

open List Option Sql

/-- The transactions of the log records, commit marks and undo actions. -/
def Database.ids (d : Database) : List TrxId :=
  d.log.map Prod.fst ++ d.committed ++ d.undone.map Prod.fst

/-- All that transactions left in the opened database `h` is of those that began there. -/
def Database.AtHome (d : Database) (h : Nat) : Prop := ∀ t ∈ d.ids, t.home = h

/-- The statement is BEGIN. -/
def isBegin : Stmt → Bool
  | .trx .begin => true
  | _ => false

variable {d : Database} {h i : Nat} {name : Name} {o : Outcome} {s s' : Instance} {st : Store}
  {stmt : Stmt} {t : TrxState} {w : Work}

namespace Database

theorem ids_rollbackTrx {i : TrxId} (hi : i ∈ (d.rollbackTrx t).ids) : i ∈ d.ids ∨ i = t.id := by
  unfold ids rollbackTrx at *
  grind

theorem ids_commitTrx (c : CommitEnd) {i : TrxId} (hi : i ∈ (d.commitTrx t c).1.ids) :
    i ∈ d.ids ∨ i = t.id := by
  have hrecords : ∀ e ∈ records t, e.1 = t.id := by
    unfold records
    grind
  cases c with
  | done =>
    unfold ids commitTrx at *
    grind
  | failed n =>
    have hback := ids_rollbackTrx hi
    unfold ids at *
    grind

/-- A statement marks only its own transaction's id. -/
theorem ids_run (r : Ran) : (d.run t r).2.1.id = t.id ∧
    ∀ i ∈ (d.run t r).1.ids, i ∈ d.ids ∨ i = t.id := by
  unfold ids run
  grind

theorem AtHome.mono {d' : Database} (hd : d.AtHome h) (ht : t.id.home = h)
    (hi : ∀ i ∈ d'.ids, i ∈ d.ids ∨ i = t.id) : d'.AtHome h :=
  fun i hmem => (hi i hmem).elim (hd i) (fun he => he ▸ ht)

/-- What a statement does in the database its transaction began in. -/
theorem atHome_executeStmtWith (stmt : Stmt) (r : Ran) {trx : Option TrxState} (hd : d.AtHome h)
    (ht : ∀ t, trx = some t → t.id.home = h) :
    (d.executeStmtWith h trx stmt r).1.AtHome h ∧
      ∀ t, (d.executeStmtWith h trx stmt r).2.1 = some t → t.id.home = h := by
  have hopen : (d.beginOpen h).2.AtHome h := hd
  unfold executeStmtWith
  split
  · exact ⟨hd, ht⟩
  · refine ⟨hopen, fun t h => ?_⟩
    cases h
    rfl
  · exact ⟨hd, nofun⟩
  · exact ⟨hd.mono (ht _ rfl) fun _ => ids_commitTrx _, nofun⟩
  · exact ⟨hd.mono (ht _ rfl) fun _ => ids_rollbackTrx, nofun⟩
  split
  · exact ⟨hd, ht⟩
  cases trx with
  | some t =>
    have hrun := ids_run (d := d) (t := t) r
    refine ⟨hd.mono (ht t rfl) hrun.2, fun u hu => ?_⟩
    cases hu
    rw [hrun.1]
    exact ht t rfl
  | none =>
    have hrun := ids_run (d := (d.beginOpen h).2) (t := ⟨(d.beginOpen h).1, []⟩) r
    have hran := hopen.mono rfl hrun.2
    simp only
    split
    · exact ⟨hran, nofun⟩
    · exact ⟨hran.mono (by rw [hrun.1]; rfl) fun _ => ids_commitTrx _, nofun⟩

/-- Only BEGIN leaves a transaction behind that was not there before. -/
theorem begins_of_executeStmtWith {r : Ran}
    (ht : (d.executeStmtWith h none stmt r).2.1 = some t) : isBegin stmt = true := by
  unfold executeStmtWith at ht
  split at ht
  · cases ht
    rfl
  · rfl
  · cases ht
  · cases ht
  · cases ht
  · split at ht
    · cases ht
    · simp only at ht
      split at ht <;> cases ht

end Database

namespace Store

/-- Every opened database has only what its own transactions did. -/
def AtHome (st : Store) : Prop := ∀ h (d : Database), st.opened[h]? = some d → d.AtHome h

/-- The name of the current database stands for the one the transaction began in. -/
def Seats (st : Store) (w : Work) : Prop :=
  ∀ t, w.trx = some t → ∃ name, w.currentDb = some name ∧ st.handles.lookup name = some t.id.home

/-- Cached handles are still there, and what is opened is at home. -/
structure Grows (st st' : Store) : Prop where
  handles : ∀ name h, st.handles.lookup name = some h → st'.handles.lookup name = some h
  atHome : st'.AtHome

theorem Seats.grows {st' : Store} (hw : st.Seats w) (h : Grows st st') : st'.Seats w := by
  intro t ht
  rcases hw t ht with ⟨name, hname, hhome⟩
  exact ⟨name, hname, h.handles name _ hhome⟩

theorem Grows.trans {st₁ st₂ : Store} (h : Grows st st₁) (h' : Grows st₁ st₂) : Grows st st₂ :=
  ⟨fun name k hk => h'.handles name k (h.handles name k hk), h'.atHome⟩

theorem createDatabase_frame : (st.createDatabase name o).1.handles = st.handles ∧
    (st.createDatabase name o).1.opened = st.opened := by
  unfold createDatabase
  grind

theorem grows_of_eq {st' : Store} (hst : st.AtHome)
    (h : st'.handles = st.handles ∧ st'.opened = st.opened) : Grows st st' := by
  refine ⟨fun _ _ hl => h.1 ▸ hl, fun k d hd => ?_⟩
  rw [h.2] at hd
  exact hst k d hd

/-- Finding the current database moves no handle. -/
theorem grows_ensureCurrentDb (current : Option Name) (o : Outcome) (hst : st.AtHome) :
    Grows st (st.ensureCurrentDb current o).1 := by
  refine grows_of_eq hst ?_
  have hmade := @createDatabase_frame defaultDb o st
  unfold ensureCurrentDb
  grind

/-- A handle stays where it is when another database is opened. -/
theorem grows_database (name : Name) (o : Outcome) (hst : st.AtHome) :
    Grows st (st.database name o).1 ∧ ∀ h, (st.database name o).2 = .ok h →
      (st.database name o).1.handles.lookup name = some h := by
  unfold database
  split
  · exact ⟨grows_of_eq hst ⟨rfl, rfl⟩, nofun⟩
  split
  · rename_i hl
    exact ⟨grows_of_eq hst ⟨rfl, rfl⟩, fun h hh => by cases hh; exact hl⟩
  · rename_i hnone
    split
    · exact ⟨grows_of_eq hst ⟨rfl, rfl⟩, nofun⟩
    split
    · exact ⟨grows_of_eq hst ⟨rfl, rfl⟩, nofun⟩
    refine ⟨⟨fun n h hl => ?_, fun h d hd => ?_⟩, fun h hh => ?_⟩
    · have hne : n ≠ name := fun he => by simp [he, hnone] at hl
      simp [lookup_cons, beq_false_of_ne hne, hl]
    · by_cases hlt : h < st.opened.length
      · rw [getElem?_append_left hlt] at hd
        exact hst h d hd
      rw [getElem?_append_right (by omega), getElem?_singleton] at hd
      split at hd
      · cases hd
        exact nofun
      · cases hd
    · cases hh
      simp

/-- One opened database changes, and all of it is still its own. -/
theorem grows_set (hst : st.AtHome) (hd : d.AtHome h) :
    Grows st { st with opened := st.opened.set h d } := by
  refine ⟨fun _ _ h => h, fun k e he => ?_⟩
  rw [getElem?_set] at he
  split at he
  · rename_i hk
    split at he <;> cases he
    exact hk ▸ hd
  · exact hst k e he

/-- A session takes a handle: its own transaction, if it has one, began there. -/
theorem grows_locate (o : Outcome) (hst : st.AtHome) (hw : st.Seats w) :
    Grows st (st.locate w o).1 ∧ (st.locate w o).2.1.trx = w.trx ∧
      (st.locate w o).1.Seats (st.locate w o).2.1 ∧ ∀ h, (st.locate w o).2.2 = .ok h →
        (∀ t, w.trx = some t → t.id.home = h) ∧
        ∃ name, (st.locate w o).2.1.currentDb = some name ∧
          (st.locate w o).1.handles.lookup name = some h := by
  have hens := grows_ensureCurrentDb w.currentDb o hst
  unfold locate
  rcases hsel : st.ensureCurrentDb w.currentDb o with ⟨st₁, e | name⟩ <;> rw [hsel] at hens
  · exact ⟨hens, rfl, hw.grows hens, nofun⟩
  -- Only a session without a transaction gets another current database.
  have hw₁ : st₁.Seats { w with currentDb := some name } := by
    intro t ht
    rcases hw t ht with ⟨n, hn, hl⟩
    rw [hn] at hsel
    cases hsel
    exact ⟨_, rfl, hl⟩
  have hdb := grows_database name o hens.atHome
  refine ⟨hens.trans hdb.1, rfl, hw₁.grows hdb.1, fun h hh => ?_⟩
  have hl := hdb.2 h hh
  refine ⟨fun t ht => ?_, name, rfl, hl⟩
  rcases hw₁.grows hdb.1 t ht with ⟨n, hn, hhome⟩
  cases hn
  exact some.inj (hhome.symm.trans hl)

/-- A statement is run in the database that its transaction began in. -/
theorem grows_executeIn (stmt : Stmt) (r : Ran) (hst : st.AtHome)
    (hw : ∀ t, w.trx = some t → t.id.home = h) :
    Grows st (st.executeIn h w stmt r).1 ∧
      (st.executeIn h w stmt r).2.1.currentDb = w.currentDb ∧
      ∀ t, (st.executeIn h w stmt r).2.1.trx = some t → t.id.home = h := by
  unfold executeIn
  split
  · exact ⟨grows_of_eq hst ⟨rfl, rfl⟩, rfl, hw⟩
  · rename_i d hd
    have hrun := Database.atHome_executeStmtWith stmt r (hst h d hd) hw
    exact ⟨grows_set hst hrun.1, rfl, hrun.2⟩

theorem grows_rollbackIn (hst : st.AtHome) (hw : ∀ t, w.trx = some t → t.id.home = h) :
    Grows st (st.rollbackIn h w) := by
  unfold rollbackIn
  split
  · exact grows_of_eq hst ⟨rfl, rfl⟩
  · rename_i t ht
    refine ⟨fun _ _ h => h, fun k d hd => ?_⟩
    rw [getElem?_modify] at hd
    rcases map_eq_some_iff.mp hd with ⟨e, he, rfl⟩
    by_cases hk : h = k
    · simp only [hk, if_true]
      exact (hst k e he).mono (hk ▸ hw t ht) fun _ => Database.ids_rollbackTrx
    · simp only [hk, if_false]
      exact hst k e he

theorem lookup_filter {n : Name} (hn : n ≠ name) (hs : List (Name × Nat)) :
    (hs.filter (fun h => h.1 ≠ name)).lookup n = hs.lookup n := by
  induction hs with
  | nil => rfl
  | cons h hs ih =>
    rcases h with ⟨m, h⟩
    by_cases hm : m = name
    · subst hm
      simpa [lookup_cons, beq_false_of_ne hn] using ih
    · simp [hm, lookup_cons, ← ih]

/-- Dropping a database removes its own handle only. -/
theorem dropDatabase_frame (name : Name) (o : Outcome) :
    (st.dropDatabase name o).1.opened = st.opened ∧ ∀ n ≠ name,
      (st.dropDatabase name o).1.handles.lookup n = st.handles.lookup n := by
  unfold dropDatabase
  split
  · exact ⟨rfl, fun _ _ => rfl⟩
  simp only
  split
  · exact ⟨rfl, fun n hn => lookup_filter hn st.handles⟩
  split
  · exact ⟨rfl, fun n hn => lookup_filter hn st.handles⟩
  split <;> exact ⟨rfl, fun n hn => lookup_filter hn st.handles⟩

end Store

/-- The session has a transaction, or the handle it is about to begin one with. -/
def Session.Begun (c : Session) : Prop :=
  c.trx ≠ none ∨ ∃ h stmt, c.holds = some (h, .statement stmt) ∧ isBegin stmt = true

/-- The name of the current database stands for the one the transaction began in, or is about to;
    and a handle that is held is of the database that the transaction began in. -/
structure Session.Seated (c : Session) (st : Store) : Prop where
  seats : st.Seats c.toWork
  holds : ∀ h task, c.holds = some (h, task) → ∀ t, c.trx = some t → t.id.home = h
  begins : ∀ h stmt, c.holds = some (h, .statement stmt) → isBegin stmt = true →
    ∃ name, c.currentDb = some name ∧ st.handles.lookup name = some h

theorem Session.Seated.grows {c : Session} {st' : Store} (h : c.Seated st)
    (hg : Store.Grows st st') : c.Seated st' := by
  refine ⟨h.seats.grows hg, h.holds, fun k stmt hk hb => ?_⟩
  rcases h.begins k stmt hk hb with ⟨name, hname, hl⟩
  exact ⟨name, hname, hg.handles name k hl⟩

theorem Session.seated_new (st : Store) (user : Option Name) :
    Session.Seated { user := user } st := ⟨nofun, nofun, nofun⟩

/-- A session without a handle. -/
theorem Session.Seated.of_seats {c : Session} (h : st.Seats c.toWork) (hc : c.holds = none) :
    c.Seated st := by
  refine ⟨h, fun k task hk => ?_, fun k stmt hk => ?_⟩ <;>
    cases hc.symm.trans hk

/-- Only a transaction that has begun there notices that a database is dropped. -/
theorem Session.Seated.drop {c : Session} (h : c.Seated st) (o : Outcome)
    (hne : c.Begun → c.currentDb ≠ some name) : c.Seated (st.dropDatabase name o).1 := by
  have hframe := (@Store.dropDatabase_frame st name o).2
  refine ⟨fun t ht => ?_, h.holds, fun k stmt hk hb => ?_⟩
  · rcases h.seats t ht with ⟨n, hn, hl⟩
    have hnn : n ≠ name := by
      rintro rfl
      exact hne (.inl (by simp [ht])) hn
    exact ⟨n, hn, (hframe n hnn).trans hl⟩
  · rcases h.begins k stmt hk hb with ⟨n, hn, hl⟩
    have hnn : n ≠ name := by
      rintro rfl
      exact hne (.inr ⟨k, stmt, hk, hb⟩) hn
    exact ⟨n, hn, (hframe n hnn).trans hl⟩

namespace Instance

/-- A database is only dropped while no session has begun a transaction in it. -/
def Spares (s : Instance) : Label → Prop
  | .execute i _ => ∀ name, (s.sessions i).checked = some (.dropDatabase name) →
      ∀ j, (s.sessions j).Begun → (s.sessions j).currentDb ≠ some name
  | _ => True

/-- An instance as it is opened. -/
structure Started (s : Instance) : Prop where
  opened : s.store.opened = []
  sessions : ∀ i, s.sessions i = {}

/-- Everything is at home, and every session has its seat. A session that has a statement still to
    be executed holds no handle. -/
structure Homes (s : Instance) : Prop where
  atHome : s.store.AtHome
  seated : ∀ i, (s.sessions i).Seated s.store
  idle : ∀ i stmt, (s.sessions i).checked = some stmt → (s.sessions i).holds = none

theorem Homes.put {c : Session} (hs : Homes s) (hc : c.Seated s.store)
    (hidle : ∀ stmt, c.checked = some stmt → c.holds = none) : Homes (s.put i c) := by
  refine ⟨hs.atHome, fun j => ?_, fun j => ?_⟩ <;>
    simp only [Instance.put, Function.update_apply] <;> split
  · exact hc
  · exact hs.seated j
  · exact hidle
  · exact hs.idle j

theorem Homes.grows (hs : Homes s) (h : Store.Grows s.store st) : Homes { s with store := st } :=
  ⟨h.atHome, fun i => (hs.seated i).grows h, hs.idle⟩

theorem withUser_keeps {P : Instance → Prop} {sql : Name → List Char}
    {next : Instance × Option Error} (hs : P s) (hnext : P next.1) :
    P (s.withUser name sql o next).1 := by
  unfold withUser
  split
  · exact hs
  · split
    · exact hs
    · exact hnext

/-- A statement keeps every transaction at home. -/
theorem homes_execute (hs : Homes s) (hi : (s.sessions i).checked = none)
    (hheld : (s.sessions i).holds = none)
    (hne : ∀ name, stmt = .dropDatabase name →
      ∀ j, (s.sessions j).Begun → (s.sessions j).currentDb ≠ some name) :
    Homes (s.execute i stmt o).1 := by
  have hkeep : ∀ {us ps}, Homes { s with users := us, privileges := ps } :=
    ⟨hs.atHome, hs.seated, hs.idle⟩
  unfold execute
  simp only
  split
  · exact hs
  rename_i hglobal
  have htrx : isGlobal stmt → (s.sessions i).trx = none := fun hg => by simpa [hg] using hglobal
  -- the current database of a session without a transaction is another one
  have huse : ∀ name, isGlobal stmt = true →
      Homes (s.put i { s.sessions i with currentDb := some name }) := by
    intro name hg
    refine hs.put (.of_seats (fun t ht => ?_) hheld) fun _ hc => ?_
    · simp [htrx hg] at ht
    · cases hi.symm.trans hc
  split
  · refine withUser_keeps hs ?_
    split
    · exact hs.put ⟨(hs.seated i).seats, (hs.seated i).holds, (hs.seated i).begins⟩ (hs.idle i)
    · exact hs
  · exact hs.grows (Store.grows_of_eq hs.atHome Store.createDatabase_frame)
  · rename_i name
    have hdrop : Homes { s with store := (s.store.dropDatabase name o).1 } := by
      refine ⟨fun h d hd => ?_, fun j => (hs.seated j).drop o (hne name rfl j), hs.idle⟩
      rw [(Store.dropDatabase_frame name o).1] at hd
      exact hs.atHome h d hd
    split <;> rename_i heq <;> rw [heq] at hdrop <;>
      exact ⟨hdrop.atHome, hdrop.seated, hdrop.idle⟩
  · exact hs
  · split
    · exact huse _ rfl
    split
    · exact hs
    split
    · exact huse _ rfl
    · exact hs
  · exact withUser_keeps hs (by split <;> first | exact hs | exact hkeep)
  · exact withUser_keeps hs (by split <;> first | exact hs | exact hkeep)
  · split
    · exact hs
    split
    · exact hs
    exact withUser_keeps hs (by split <;> first | exact hs | exact hkeep)
  · split
    · exact hs
    split
    · exact hs
    split
    · exact hs
    · exact hkeep
  · split
    · split <;> exact hs
    -- a statement for a database: the session takes a handle of it
    have hlocate := Store.grows_locate o hs.atHome (hs.seated i).seats
    rcases hloc : s.store.locate (s.sessions i).toWork o with ⟨st, w, e | h⟩ <;>
      rw [hloc] at hlocate <;> rcases hlocate with ⟨hgrows, htrx, hseats, hok⟩
    · exact (hs.grows hgrows).put (.of_seats hseats hheld)
        fun _ hc => by cases hi.symm.trans hc
    · rcases hok h rfl with ⟨hhome, hname⟩
      refine (hs.grows hgrows).put ⟨hseats, fun k task hk t ht => ?_, fun k stmt hk _ => ?_⟩
        fun _ hc => by cases hi.symm.trans hc
      · cases hk
        exact hhome t (htrx ▸ ht)
      · cases hk
        exact hname

/-- The lock is there: the statement is run where its transaction began, or begins. -/
theorem homes_finish {task : Task} (r : Ran) (hs : Homes s)
    (hheld : (s.sessions i).holds = some (h, task)) : Homes (s.finish i h r task) := by
  have hhome := (hs.seated i).holds h task hheld
  cases task with
  | close =>
    exact (hs.grows (Store.grows_rollbackIn hs.atHome hhome)).put (Session.seated_new _ none) nofun
  | statement stmt =>
    have hrun := Store.grows_executeIn stmt r hs.atHome hhome
    refine (hs.grows hrun.1).put (.of_seats (fun t ht => ?_) rfl) fun _ _ => rfl
    have hname : ∃ name, (s.sessions i).currentDb = some name ∧
        s.store.handles.lookup name = some h := by
      cases hold : (s.sessions i).trx with
      | some t₀ =>
        rcases (hs.seated i).seats t₀ hold with ⟨name, hname, hl⟩
        exact ⟨name, hname, (hhome t₀ hold) ▸ hl⟩
      | none =>
        refine (hs.seated i).begins h stmt hheld ?_
        unfold Store.executeIn at ht
        rw [hold] at ht
        split at ht
        · cases hold.symm.trans ht
        · exact Database.begins_of_executeStmtWith ht
    rcases hname with ⟨name, hname, hl⟩
    exact ⟨name, hrun.2.1.trans hname, hrun.1.handles name _ ((hrun.2.2 t ht).symm ▸ hl)⟩

/-- Closing a session keeps every transaction at home. -/
theorem homes_close (o : Outcome) (hs : Homes s) : Homes (s.close i o) := by
  unfold close
  simp only
  split
  · exact hs.put (Session.seated_new _ none) nofun
  rename_i name hname
  split
  · exact hs.put (Session.seated_new _ none) nofun
  have hdb := Store.grows_database name o hs.atHome
  rcases hopen : s.store.database name o with ⟨st, e | h⟩ <;> rw [hopen] at hdb
  · exact (hs.grows hdb.1).put (Session.seated_new _ none) nofun
  · have hseats := (hs.seated i).seats.grows hdb.1
    refine (hs.grows hdb.1).put ⟨hseats, fun k task hk t ht => ?_, nofun⟩ nofun
    cases hk
    rcases hseats t ht with ⟨n, hn, hl⟩
    cases hname.symm.trans hn
    exact some.inj (hl.symm.trans (hdb.2 h rfl))

/-- Every sparing step keeps every transaction at home. -/
theorem homes_step {l : Label} (hs : Homes s) (hok : Spares s l) (hstep : step s l = some s') :
    Homes s' := by
  cases l with
  | check i stmt o =>
    simp only [step] at hstep
    split at hstep
    · cases hstep
    rename_i hfree
    split at hstep <;> cases hstep
    · exact hs
    · have hi := hs.seated i
      refine hs.put ⟨hi.seats, hi.holds, hi.begins⟩ fun _ _ => ?_
      simpa using (not_or.mp hfree).2
  | execute i o =>
    simp only [step] at hstep
    split at hstep <;> cases hstep
    rename_i stmt hstmt
    have hheld := hs.idle i stmt hstmt
    have hi := hs.seated i
    refine homes_execute (hs.put ⟨hi.seats, hi.holds, hi.begins⟩ nofun) (by simp [put])
      (by simpa [put] using hheld) fun name hname j => ?_
    have hspare := hok name (hname ▸ hstmt) j
    simp only [put, Function.update_apply]
    split
    · next hj => exact hj ▸ hspare
    · exact hspare
  | finish i r =>
    rcases map_eq_some_iff.mp hstep with ⟨⟨h, task⟩, hheld, rfl⟩
    exact homes_finish r hs hheld
  | close i o =>
    simp only [step] at hstep
    split at hstep <;> cases hstep
    exact homes_close o hs
  | handshake i user o =>
    simp only [step] at hstep
    split at hstep <;> cases hstep
    unfold handshake
    split
    · refine withUser_keeps hs ?_
      split
      · exact hs.put (Session.seated_new _ _) nofun
      · exact hs
    · exact hs.put (Session.seated_new _ _) nofun

theorem Started.homes (hs : Started s) : Homes s := by
  refine ⟨fun h d hd => ?_, fun i => ?_, fun i stmt hc => ?_⟩
  · rw [hs.opened] at hd
    cases hd
  · rw [hs.sessions]
    exact Session.seated_new _ none
  · rw [hs.sessions] at hc
    cases hc

/-- **Transactions end at home.** While nobody drops a database in which a session has a transaction
    or is about to begin one, everything that a transaction logs, marks or undoes stays in the
    database it began in. -/
theorem transaction_ends_at_home (s s' : Instance) (ls : List Label) (hs : Started s)
    (hok : Meets step Spares s ls) (hrun : runSteps step s ls = some s') : s'.store.AtHome :=
  (invariant_of_meets step Spares Homes (fun _ _ _ => homes_step) s s' ls hs.homes hok hrun).atHome

/-- An instance with the databases `d` and `e`. -/
def twoDatabases : Instance where
  authEnabled := false
  users := []
  privileges := []
  store := { registered := [['d'], ['e']], dirs := [['d'], ['e']] }
  sessions := fun _ => {}

/-- A session checks and executes a statement for the whole instance. -/
def issue (i : Nat) (stmt : Stmt) (o : Outcome) : List Label := [.check i stmt {}, .execute i o]

/-- A session checks a statement for a database, takes the handle and runs it. -/
def runIn (i : Nat) (stmt : Stmt) (r : Ran) : List Label :=
  [.check i stmt {}, .execute i {}, .finish i r]

/-- A session begins a transaction in a database and writes. -/
def writeIn (i : Nat) (name : Name) : List Label :=
  issue i (.use name) {} ++ runIn i (.trx .begin) {} ++
    runIn i (.delete ['t'] none) { changes := [1] }

/-- Session 0 writes and commits in `d` while session 2 has a transaction open in `e`. Session 1
    drops `d`, whose files cannot be removed. Then session 0 begins again in `d`, and both
    commit. -/
def dropBetween : List Label :=
  writeIn 0 ['d'] ++ writeIn 2 ['e'] ++ runIn 0 (.trx .commit) {} ++
    issue 1 (.dropDatabase ['d']) { files := false } ++ writeIn 0 ['d'] ++
    runIn 0 (.trx .commit) {} ++ runIn 2 (.trx .commit) {}

set_option maxRecDepth 4000 in
/-- A run that drops a database between transactions meets the condition. -/
theorem transaction_ends_at_home_drop : ∃ s',
    runSteps step twoDatabases dropBetween = some s' ∧ s'.store.opened.length = 3 ∧
      s'.store.AtHome := by
  refine ⟨_, rfl, rfl, transaction_ends_at_home twoDatabases _ dropBetween ⟨rfl, fun _ => rfl⟩
    ?_ rfl⟩
  refine ⟨trivial, nofun, trivial, nofun, trivial, trivial, nofun, trivial,
    trivial, nofun, trivial, nofun, trivial, trivial, nofun, trivial,
    trivial, nofun, trivial, trivial, fun name hname j hj => ?_,
    trivial, nofun, trivial, nofun, trivial, trivial, nofun, trivial,
    trivial, nofun, trivial, trivial, nofun, trivial, trivial⟩
  -- session 0 has committed, and session 2 is in `e`
  cases hname
  rcases j with _ | _ | _ | j
  · rcases hj with hj | ⟨_, _, hj, _⟩
    · exact absurd rfl hj
    · cases hj
  · exact nofun
  · intro hdb
    cases hdb
  · exact nofun

/-- **A commit in another database.** Session 0 has written in a transaction in `d` when session 1
    drops `d`. The files cannot be removed, so the database is still there, but its handle is gone.
    The commit of session 0 opens the files once more, and its records and its mark go there. -/
theorem commit_in_another_database :
    ∃ s', runSteps step twoDatabases (writeIn 0 ['d'] ++
        issue 1 (.dropDatabase ['d']) { files := false } ++ runIn 0 (.trx .commit) {}) = some s' ∧
      ¬ s'.store.AtHome := by
  refine ⟨_, rfl, fun h => ?_⟩
  exact absurd (h 1 _ rfl ⟨0, 1⟩ (by decide)) (by decide)

end Instance

end ChibiDb.Net
