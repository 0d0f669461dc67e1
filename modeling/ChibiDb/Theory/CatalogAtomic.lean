import ChibiDb.Core.Catalog
import ChibiDb.Data.Transition

/-!
# CREATE TABLE and Its Constraints

CREATE TABLE that passes its checks adds the table and then the indexes behind
its PRIMARY KEY and UNIQUE columns. The names of those indexes are derived from
the table's and the column's, and they share one name space with the indexes of
every other table and with those CREATE INDEX makes. When one of them is in use
the statement fails with the table already in the catalog, and the columns from
that one on have no index behind them.

Two tables whose names and columns run together to the same text are enough, and
so is a column that is listed twice. `NamesFree` says that the names a statement
needs are different and not in use. It is exactly when CREATE TABLE is all or
nothing, and along runs in which it always holds every constraint has its index.

## Main definitions

* `NamesFree`: The index names a statement needs are different and unused.
* `Admitted`: A statement passes its checks.
* `Enforced`: Every constrained column has a unique index.
* `NoCollision`: The condition on a step.

## Theorems

* `createUniqueIndexes_of_free`: With free names every index is made.
* `createUniqueIndexes_error`: Without, one of them is not.
* `create_table_all_or_nothing`: The condition is exact.
-/

namespace ChibiDb

open List Option

variable {Expr : Type}

/-- The index names behind the constrained columns of a list. -/
def constraintNames (table : String) (cds : List (ColumnDef Expr)) : List String :=
  (cds.filter (fun cd => cd.constrained)).map (fun cd => uniqueIndexName table cd.name)

/-- The index names a CREATE TABLE needs are different, and no index has one. -/
def NamesFree (cat : Catalog) (table : String) (cds : List (ColumnDef Expr)) : Prop :=
  (constraintNames table cds).Nodup ∧ ∀ n ∈ constraintNames table cds, cat.indexes.get? n = none

instance (cat : Catalog) (table : String) (cds : List (ColumnDef Expr)) :
    Decidable (NamesFree cat table cds) := by
  unfold NamesFree
  infer_instance

/-- CREATE TABLE passes its checks: the defaults have values of their columns'
    types, the engine supports the layout, and the name is not in use. -/
def Admitted (ev : Evaluator Expr) (db : CatalogDb) (c : CreateTableStmt Expr) : Prop :=
  (∃ cols, columnDescs ev c.columns = .ok cols) ∧ (∃ kl, tableStorage db c = .ok kl) ∧
    db.catalog.taken c.name = false

/-- Each PRIMARY KEY or UNIQUE column of each table has a unique index. -/
def Enforced (cat : Catalog) : Prop :=
  ∀ name t, cat.tables.get? name = some t →
    ∀ col ∈ t.columns, (col.primaryKey || col.unique) = true →
    ∃ n ix, cat.indexes.get? n = some ix ∧ ix.table = name ∧ ix.column = col.name ∧ ix.unique = true

/-- A CREATE TABLE that gets past its checks finds its index names free. -/
def NoCollision (ev : Evaluator Expr) (db : CatalogDb) (l : DdlSession × Ddl Expr) : Prop :=
  match l.2 with
  | .createTable c =>
    l.1 = ⟨false, false⟩ → Admitted ev db c → NamesFree db.catalog c.name c.columns
  | _ => True

/-- The database once the table is added and before its indexes are. -/
def CatalogDb.withTable (db : CatalogDb) (name : String) (t : CatalogTable) : CatalogDb :=
  { db with
    nextTableFile := db.nextTableFile + 1
    catalog := { db.catalog with tables := db.catalog.tables.alter name (fun _ => t) } }

/-- The index behind a column. -/
def constraintIndex (table : String) (cd : ColumnDef Expr) (file : Nat) : CatalogIndex :=
  ⟨uniqueIndexName table cd.name, table, cd.name, true, file⟩

/-- The database once the index behind a column is made. -/
def CatalogDb.withIndex (db : CatalogDb) (ix : CatalogIndex) : CatalogDb :=
  { db with
    nextIndexFile := db.nextIndexFile + 1
    catalog := { db.catalog with indexes := db.catalog.indexes.alter ix.name (fun _ => ix) } }

variable {cd : ColumnDef Expr} {cat cat' : Catalog} {ix : CatalogIndex} {db : CatalogDb}
  {name table : String} {cds : List (ColumnDef Expr)} {c : CreateTableStmt Expr}
  {ev : Evaluator Expr}

/-- The rest of a list of columns finds its names free once the first index is made. -/
theorem namesFree_cons (db : CatalogDb) (table : String) (cds : List (ColumnDef Expr)) (file : Nat)
    (hcd : cd.constrained = true) :
    NamesFree db.catalog table (cd :: cds) ↔
      db.catalog.indexes.get? (uniqueIndexName table cd.name) = none ∧
        NamesFree (db.withIndex (constraintIndex table cd file)).catalog table cds := by
  have hnames : constraintNames table (cd :: cds) =
      uniqueIndexName table cd.name :: constraintNames table cds := by
    rw [constraintNames, filter_cons_of_pos hcd, map_cons, constraintNames]
  unfold NamesFree
  simp only [hnames, nodup_cons, CatalogDb.withIndex, constraintIndex, BTreeMap.get?_alter]
  constructor
  · intro h
    refine ⟨h.2 _ mem_cons_self, h.1.2, ?_⟩
    intro n hn
    have hne : n ≠ uniqueIndexName table cd.name := fun hc => h.1.1 (hc ▸ hn)
    rw [if_neg hne]
    exact h.2 n (mem_cons_of_mem _ hn)
  · intro h
    rcases h with ⟨hfree, hnodup, hrest⟩
    -- a name the rest needs is free after the first index only if it was free before
    have hne : ∀ n ∈ constraintNames table cds, n ≠ uniqueIndexName table cd.name ∧
        db.catalog.indexes.get? n = none := by
      intro n hn
      have hget := hrest n hn
      split at hget
      case isTrue => cases hget
      case isFalse hc => exact ⟨hc, hget⟩
    exact ⟨⟨fun hmem => (hne _ hmem).1 rfl, hnodup⟩,
      forall_mem_cons.mpr ⟨hfree, fun n hn => (hne n hn).2⟩⟩

/-- A column without a constraint needs no name. -/
theorem namesFree_skip (cat : Catalog) (table : String) (cds : List (ColumnDef Expr))
    (hcd : ¬ cd.constrained = true) :
    NamesFree cat table (cd :: cds) ↔ NamesFree cat table cds := by
  unfold NamesFree constraintNames
  rw [filter_cons_of_neg hcd]

/-- What creating the indexes leaves of the catalog: tables and views as they
    were, every index that was there, and no index under a foreign name. -/
structure IndexesAdded (before after : Catalog) : Prop where
  tables : after.tables = before.tables
  views : after.views = before.views
  kept : ∀ n ix, before.indexes.get? n = some ix → after.indexes.get? n = some ix
  named : (∀ n ix, before.indexes.get? n = some ix → ix.name = n) →
    ∀ n ix, after.indexes.get? n = some ix → ix.name = n

theorem IndexesAdded.refl (cat : Catalog) : IndexesAdded cat cat :=
  ⟨rfl, rfl, fun _ _ h => h, fun h => h⟩

theorem IndexesAdded.trans {a b c : Catalog} (hab : IndexesAdded a b) (hbc : IndexesAdded b c) :
    IndexesAdded a c where
  tables := hbc.tables.trans hab.tables
  views := hbc.views.trans hab.views
  kept := fun n ix h => hbc.kept n ix (hab.kept n ix h)
  named := fun h => hbc.named (hab.named h)

theorem createIndex_ok (cat : Catalog) (ix : CatalogIndex) (h : cat.indexes.get? ix.name = none) :
    cat.createIndex ix = .ok { cat with indexes := cat.indexes.alter ix.name (fun _ => ix) } := by
  rw [Catalog.createIndex, h]
  rfl

theorem createIndex_error (cat : Catalog) (ix : CatalogIndex)
    (h : ¬ cat.indexes.get? ix.name = none) :
    cat.createIndex ix = .error ("index already exists: " ++ ix.name) := by
  rw [Catalog.createIndex, if_pos (isSome_iff_ne_none.mpr h)]

theorem indexesAdded_alter (h : cat.indexes.get? ix.name = none) :
    IndexesAdded cat { cat with indexes := cat.indexes.alter ix.name (fun _ => ix) } where
  tables := rfl
  views := rfl
  kept := by
    intro n ix' hn
    rw [BTreeMap.get?_alter]
    split
    case isTrue heq =>
      rw [heq, h] at hn
      cases hn
    case isFalse => exact hn
  named := by
    intro hb n ix' hn
    rw [BTreeMap.get?_alter] at hn
    split at hn
    case isTrue heq =>
      injection hn with hn
      rw [← hn, heq]
    case isFalse => exact hb n ix' hn

theorem createUniqueIndexes_free (cds : List (ColumnDef Expr)) (hcd : cd.constrained = true)
    (hfree : db.catalog.indexes.get? (uniqueIndexName table cd.name) = none) :
    createUniqueIndexes table (cd :: cds) db = createUniqueIndexes table cds
      (db.withIndex (constraintIndex table cd db.nextIndexFile)) := by
  have hok := createIndex_ok db.catalog (constraintIndex table cd db.nextIndexFile) hfree
  rw [constraintIndex] at hok
  rw [createUniqueIndexes, if_pos hcd]
  simp only [hok]
  rfl

theorem createUniqueIndexes_taken (cds : List (ColumnDef Expr)) (hcd : cd.constrained = true)
    (htaken : ¬ db.catalog.indexes.get? (uniqueIndexName table cd.name) = none) :
    createUniqueIndexes table (cd :: cds) db =
      (.error ("index already exists: " ++ uniqueIndexName table cd.name),
        { db with nextIndexFile := db.nextIndexFile + 1 }) := by
  have herr := createIndex_error db.catalog (constraintIndex table cd db.nextIndexFile) htaken
  rw [constraintIndex] at herr
  rw [createUniqueIndexes, if_pos hcd]
  simp only [herr]

theorem createUniqueIndexes_plain (table : String) (cds : List (ColumnDef Expr)) (db : CatalogDb)
    (hcd : ¬ cd.constrained = true) :
    createUniqueIndexes table (cd :: cds) db = createUniqueIndexes table cds db := by
  rw [createUniqueIndexes, if_neg hcd]

/-- Creating indexes never touches what is there. -/
theorem createUniqueIndexes_added (table : String) (cds : List (ColumnDef Expr)) (db : CatalogDb) :
    IndexesAdded db.catalog (createUniqueIndexes table cds db).2.catalog := by
  induction cds generalizing db with
  | nil => exact IndexesAdded.refl _
  | cons cd cds ih =>
    by_cases hcd : cd.constrained = true
    · by_cases hfree : db.catalog.indexes.get? (uniqueIndexName table cd.name) = none
      · rw [createUniqueIndexes_free cds hcd hfree]
        exact IndexesAdded.trans (indexesAdded_alter hfree) (ih (db.withIndex (constraintIndex
          table cd db.nextIndexFile)))
      · rw [createUniqueIndexes_taken cds hcd hfree]
        exact IndexesAdded.refl _
    · rw [createUniqueIndexes_plain table cds db hcd]
      exact ih db

/-- With free names every index is made. -/
theorem createUniqueIndexes_of_free (db : CatalogDb) (h : NamesFree db.catalog table cds) :
    (createUniqueIndexes table cds db).1 = .ok "SUCCESS" ∧
      ∀ cd ∈ cds, cd.constrained = true → ∃ n ix,
        (createUniqueIndexes table cds db).2.catalog.indexes.get? n = some ix ∧
          ix.table = table ∧ ix.column = cd.name ∧ ix.unique = true := by
  induction cds generalizing db with
  | nil => exact ⟨rfl, nofun⟩
  | cons cd cds ih =>
    by_cases hcd : cd.constrained = true
    · rcases (namesFree_cons db table cds db.nextIndexFile hcd).mp h with ⟨hfree, hrest⟩
      rcases ih _ hrest with ⟨hok, hall⟩
      rw [createUniqueIndexes_free cds hcd hfree]
      refine ⟨hok, forall_mem_cons.mpr ⟨fun _ => ?_, hall⟩⟩
      -- made now, and kept by those that follow
      refine ⟨uniqueIndexName table cd.name, constraintIndex table cd db.nextIndexFile,
        (createUniqueIndexes_added table cds _).kept _ _ ?_, rfl, rfl, rfl⟩
      simp [CatalogDb.withIndex, BTreeMap.get?_alter, constraintIndex]
    · rcases ih db ((namesFree_skip db.catalog table cds hcd).mp h) with ⟨hok, hall⟩
      rw [createUniqueIndexes_plain table cds db hcd]
      exact ⟨hok, forall_mem_cons.mpr ⟨fun hc => absurd hc hcd, hall⟩⟩

/-- With a name in use, or two equal ones, creating the indexes fails. -/
theorem createUniqueIndexes_error (db : CatalogDb) (h : ¬ NamesFree db.catalog table cds) :
    ∃ e, (createUniqueIndexes table cds db).1 = .error e := by
  induction cds generalizing db with
  | nil => exact absurd ⟨nodup_nil, nofun⟩ h
  | cons cd cds ih =>
    by_cases hcd : cd.constrained = true
    · by_cases hfree : db.catalog.indexes.get? (uniqueIndexName table cd.name) = none
      · rw [createUniqueIndexes_free cds hcd hfree]
        apply ih
        intro hrest
        exact h ((namesFree_cons db table cds db.nextIndexFile hcd).mpr ⟨hfree, hrest⟩)
      · rw [createUniqueIndexes_taken cds hcd hfree]
        exact ⟨_, rfl⟩
    · rw [createUniqueIndexes_plain table cds db hcd]
      exact ih db (fun hf => h ((namesFree_skip db.catalog table cds hcd).mpr hf))

/-- CREATE TABLE past its checks: the table is in, and the indexes come next. -/
theorem executeCreateTable_of_admitted (h : Admitted ev db c) :
    ∃ cols kind layout, columnDescs ev c.columns = .ok cols ∧
      executeCreateTable ev db c = createUniqueIndexes c.name c.columns
        (db.withTable c.name ⟨cols, db.nextTableFile, kind, layout⟩) := by
  rcases h with ⟨⟨cols, hcols⟩, ⟨⟨kind, layout⟩, hkl⟩, hname⟩
  refine ⟨cols, kind, layout, hcols, ?_⟩
  simp [executeCreateTable, hcols, hkl, Catalog.createTable, hname, CatalogDb.withTable]

/-- CREATE TABLE that does not pass its checks changes nothing. -/
theorem executeCreateTable_of_refused (h : ¬ Admitted ev db c) :
    (∃ e, (executeCreateTable ev db c).1 = .error e) ∧
      (executeCreateTable ev db c).2.catalog = db.catalog := by
  rw [executeCreateTable]
  cases hcols : columnDescs ev c.columns with
  | error e => exact ⟨⟨e, rfl⟩, rfl⟩
  | ok cols =>
    cases hkl : tableStorage db c with
    | error e => exact ⟨⟨e, rfl⟩, rfl⟩
    | ok kl =>
      cases hname : db.catalog.taken c.name with
      | false => exact absurd ⟨⟨cols, hcols⟩, ⟨kl, hkl⟩, hname⟩ h
      | true =>
        simp [Catalog.createTable, hname]

/-- The columns of the table are those of the statement. -/
theorem columnDescs_mem (cols : List ColumnDesc) (h : columnDescs ev cds = .ok cols)
    {col : ColumnDesc} (hcol : col ∈ cols) :
    ∃ cd ∈ cds, cd.name = col.name ∧ cd.constrained = (col.primaryKey || col.unique) := by
  induction cds generalizing cols with
  | nil =>
    simp only [columnDescs, Except.ok.injEq] at h
    rw [← h] at hcol
    cases hcol
  | cons cd cds ih =>
    rw [columnDescs] at h
    cases hd : columnDesc ev cd with
    | error =>
      rw [hd] at h
      cases h
    | ok =>
      cases hds : columnDescs ev cds with
      | error =>
        rw [hd, hds] at h
        cases h
      | ok cols₀ =>
        simp only [hd, hds, Except.ok.injEq] at h
        rw [← h] at hcol
        rcases mem_cons.mp hcol with rfl | hcol
        · refine ⟨cd, mem_cons_self, ?_⟩
          rw [columnDesc] at hd
          split at hd
          · cases hd
          split at hd
          · cases hd
          · cases hd
            exact ⟨rfl, rfl⟩
        · rcases ih cols₀ hds hcol with ⟨cd', hmem, hcd'⟩
          exact ⟨cd', mem_cons_of_mem _ hmem, hcd'⟩

/-- Constraints have their indexes, and an index is kept under its own name. -/
structure CatalogInv (cat : Catalog) : Prop where
  enforced : Enforced cat
  named : ∀ n ix, cat.indexes.get? n = some ix → ix.name = n

theorem catalogInv_empty : CatalogInv Catalog.empty where
  enforced := by
    intro _ _ ht
    simp [Catalog.empty, BTreeMap.get?_empty] at ht
  named := by
    intro _ _ hn
    simp [Catalog.empty, BTreeMap.get?_empty] at hn

theorem catalogInv_createTable (h : CatalogInv db.catalog)
    (hfree : Admitted ev db c → NamesFree db.catalog c.name c.columns) :
    CatalogInv (executeCreateTable ev db c).2.catalog := by
  by_cases hadm : Admitted ev db c
  · rcases executeCreateTable_of_admitted hadm with ⟨cols, kind, layout, hcols, heq⟩
    rw [heq]
    have hadded := createUniqueIndexes_added c.name c.columns
      (db.withTable c.name ⟨cols, db.nextTableFile, kind, layout⟩)
    refine ⟨?_, hadded.named h.named⟩
    intro name t ht col hcol hcon
    rw [hadded.tables, CatalogDb.withTable, BTreeMap.get?_alter] at ht
    split at ht
    case isTrue hname =>
      -- the new table
      injection ht with ht
      rw [← ht] at hcol
      rcases columnDescs_mem cols hcols hcol with ⟨cd, hmem, hcdname, hcdcon⟩
      rcases (createUniqueIndexes_of_free
        (db.withTable c.name ⟨cols, db.nextTableFile, kind, layout⟩) (hfree hadm)).2 cd hmem
        (hcdcon.trans hcon) with ⟨n, ix, hn, htable, hcolumn, hunique⟩
      exact ⟨n, ix, hn, htable.trans hname.symm, hcolumn.trans hcdname, hunique⟩
    case isFalse =>
      rcases h.enforced name t ht col hcol hcon with ⟨n, ix, hn, hix⟩
      exact ⟨n, ix, hadded.kept n ix hn, hix⟩
  · rw [(executeCreateTable_of_refused hadm).2]
    exact h

/-- A change of the indexes that keeps the unique ones of the tables there are. -/
theorem catalogInv_of_kept {before after : Catalog} (h : CatalogInv before)
    (htables : ∀ name t, after.tables.get? name = some t → before.tables.get? name = some t)
    (hkept : ∀ n ix, before.indexes.get? n = some ix → ix.unique = true →
      (after.tables.get? ix.table).isSome = true → after.indexes.get? n = some ix)
    (hnamed : ∀ n ix, after.indexes.get? n = some ix → ix.name = n) : CatalogInv after where
  enforced := by
    intro name t ht col hcol hcon
    rcases h.enforced name t (htables name t ht) col hcol hcon with ⟨n, ix, hn, htab, hc, hu⟩
    refine ⟨n, ix, hkept n ix hn hu ?_, htab, hc, hu⟩
    rw [htab, ht]
    rfl
  named := hnamed

theorem catalogInv_createIndex (h : CatalogInv cat) (hc : cat.createIndex ix = .ok cat') :
    CatalogInv cat' := by
  by_cases hfree : cat.indexes.get? ix.name = none
  · rw [createIndex_ok cat ix hfree] at hc
    injection hc with hc
    have hadded := indexesAdded_alter hfree
    rw [hc] at hadded
    exact catalogInv_of_kept h (fun name t ht => hadded.tables ▸ ht)
      (fun n ix' hn _ _ => hadded.kept n ix' hn) (hadded.named h.named)
  · cases (createIndex_error cat ix hfree).symm.trans hc

theorem catalogInv_dropIndex (h : CatalogInv cat)
    (hname : ¬ (cat.indexes.get? name).any (fun ix => ix.unique) = true)
    (hc : cat.dropIndex name = .ok cat') : CatalogInv cat' := by
  rw [Catalog.dropIndex] at hc
  split at hc
  · cases hc
  cases hc
  refine catalogInv_of_kept h (fun _ _ ht => ht) ?_ ?_
  · intro n ix hn hu _
    rw [BTreeMap.get?_erase, if_neg, hn]
    intro heq
    rw [← heq, hn] at hname
    exact hname hu
  · intro n ix hn
    rw [BTreeMap.get?_erase] at hn
    split at hn
    · cases hn
    · exact h.named n ix hn

theorem get?_foldl_erase (names : List String) (m : BTreeMap String CatalogIndex) (n : String) :
    (names.foldl BTreeMap.erase m).get? n = if n ∈ names then none else m.get? n := by
  induction names generalizing m with
  | nil => simp only [foldl_nil, not_mem_nil, if_false]
  | cons a names ih =>
    rw [foldl_cons, ih, BTreeMap.get?_erase]
    by_cases hmem : n ∈ names
    · rw [if_pos hmem, if_pos (mem_cons_of_mem _ hmem)]
    rw [if_neg hmem]
    by_cases ha : n = a
    · rw [if_pos ha, if_pos (mem_cons.mpr (.inl ha))]
    rw [if_neg ha, if_neg]
    intro hc
    rcases mem_cons.mp hc with hc | hc
    · exact ha hc
    · exact hmem hc

/-- Only indexes of the table are dropped with it, since each is kept under its name. -/
theorem mem_indexNames (h : CatalogInv cat) (table : String) {n : String}
    (hn : cat.indexes.get? n = some ix) : n ∈ cat.indexNames table ↔ ix.table = table := by
  rw [Catalog.indexNames, List.mem_map]
  constructor
  · intro hex
    rcases hex with ⟨⟨k, ix'⟩, hmem, hname⟩
    rcases mem_filter.mp hmem with ⟨hentry, htab⟩
    have hget := (BTreeMap.mem_entries_iff cat.indexes k ix').mp hentry
    have hk : k = n := (h.named k ix' hget).symm.trans hname
    rw [hk, hn] at hget
    injection hget with hget
    rw [hget]
    exact of_decide_eq_true htab
  · intro htab
    exact ⟨(n, ix), mem_filter.mpr ⟨(BTreeMap.mem_entries_iff _ _ _).mpr hn,
      decide_eq_true htab⟩, h.named n ix hn⟩

theorem catalogInv_dropTable (h : CatalogInv cat) (hc : cat.dropTable name = .ok cat') :
    CatalogInv cat' := by
  rw [Catalog.dropTable] at hc
  split at hc
  · cases hc
  cases hc
  refine catalogInv_of_kept h ?_ ?_ ?_
  · intro n _ ht
    rw [BTreeMap.get?_erase] at ht
    split at ht
    · cases ht
    · exact ht
  · intro n ix hn _ htab
    rw [get?_foldl_erase, if_neg, hn]
    intro hmem
    rw [mem_indexNames h name hn] at hmem
    rw [BTreeMap.get?_erase, if_pos hmem] at htab
    cases htab
  · intro n ix hn
    rw [get?_foldl_erase] at hn
    split at hn
    · cases hn
    · exact h.named n ix hn

theorem catalogInv_createView {sql : String} (h : CatalogInv cat)
    (hc : cat.createView name sql = .ok cat') : CatalogInv cat' := by
  rw [Catalog.createView] at hc
  split at hc
  · cases hc
  · cases hc
    exact ⟨h.enforced, h.named⟩

theorem catalogInv_dropView (h : CatalogInv cat) (hc : cat.dropView name = .ok cat') :
    CatalogInv cat' := by
  rw [Catalog.dropView] at hc
  split at hc
  · cases hc
  · cases hc
    exact ⟨h.enforced, h.named⟩

theorem catalogInv_adopt {r : Except String Catalog} (h : CatalogInv db.catalog)
    (hr : ∀ cat, r = .ok cat → CatalogInv cat) : CatalogInv (db.adopt r).2.catalog := by
  cases r with
  | error => exact h
  | ok cat => exact hr cat rfl

theorem catalogInv_executeCreateIndex (name table column : String) (build : Except String Unit)
    (h : CatalogInv db.catalog) :
    CatalogInv (executeCreateIndex db name table column build).2.catalog := by
  unfold executeCreateIndex
  cases db.catalog.tables.get? table with
  | none => exact h
  | some =>
    simp only
    split
    · cases build with
      | error => exact h
      | ok => exact catalogInv_adopt h (fun cat hc => catalogInv_createIndex h hc)
    · exact h

theorem catalogInv_executeDropIndex (name : String) (h : CatalogInv db.catalog) :
    CatalogInv (executeDropIndex db name).2.catalog := by
  unfold executeDropIndex
  split
  · exact h
  case isFalse hu =>
    exact catalogInv_adopt h (fun cat hc => catalogInv_dropIndex h hu hc)

theorem catalogInv_executeDdl {l : DdlSession × Ddl Expr} (h : CatalogInv db.catalog)
    (hok : NoCollision ev db l) : CatalogInv (executeDdl ev db l.1 l.2).2.catalog := by
  rcases l with ⟨⟨explicit, othersOpen⟩, stmt⟩
  cases explicit with
  | true => exact h
  | false =>
  cases othersOpen with
  | true => exact h
  | false =>
  cases stmt with
  | createTable => exact catalogInv_createTable h (hok rfl)
  | createIndex name table column build =>
    exact catalogInv_executeCreateIndex name table column build h
  | dropIndex name => exact catalogInv_executeDropIndex name h
  | dropTable =>
    exact catalogInv_adopt h (fun cat hc => catalogInv_dropTable h hc)
  | createView _ _ check =>
    cases check with
    | error => exact h
    | ok =>
      exact catalogInv_adopt h (fun cat hc => catalogInv_createView h hc)
  | dropView =>
    exact catalogInv_adopt h (fun cat hc => catalogInv_dropView h hc)

/-- A table that is added and not taken back changes the catalog. -/
theorem executeCreateTable_collision (hadm : Admitted ev db c)
    (hfree : ¬ NamesFree db.catalog c.name c.columns) :
    (∃ e, (executeCreateTable ev db c).1 = .error e) ∧
      (executeCreateTable ev db c).2.catalog ≠ db.catalog := by
  rcases executeCreateTable_of_admitted hadm with ⟨cols, kind, layout, _, heq⟩
  rw [heq]
  refine ⟨createUniqueIndexes_error _ hfree, ?_⟩
  intro hsame
  have htables := (createUniqueIndexes_added c.name c.columns
    (db.withTable c.name ⟨cols, db.nextTableFile, kind, layout⟩)).tables
  rw [hsame] at htables
  have hname := hadm.2.2
  rw [Catalog.taken, Bool.or_eq_false_iff, htables, CatalogDb.withTable, BTreeMap.get?_alter,
    if_pos rfl] at hname
  cases hname.1

/-- In whatever catalog DDL has led to, CREATE TABLE is all or nothing exactly when getting past its
    checks implies that its index names are free. Along runs in which that holds of every CREATE
    TABLE, every PRIMARY KEY and UNIQUE column has a unique index. -/
theorem create_table_all_or_nothing (ev : Evaluator Expr) (engine : EngineKind)
    (layout : PageLayout) (ls : List (DdlSession × Ddl Expr)) (db : CatalogDb)
    (hrun : runSteps (ddlStep ev) (CatalogDb.new engine layout) ls = some db) :
    (∀ c, ((∃ e, (executeCreateTable ev db c).1 = .error e) →
        (executeCreateTable ev db c).2.catalog = db.catalog) ↔
      (Admitted ev db c → NamesFree db.catalog c.name c.columns)) ∧
    (Meets (ddlStep ev) (NoCollision ev) (CatalogDb.new engine layout) ls →
      Enforced db.catalog) := by
  constructor
  · intro c
    constructor
    · intro hnothing hadm
      by_contra hfree
      rcases executeCreateTable_collision hadm hfree with ⟨herr, hne⟩
      exact hne (hnothing herr)
    · intro hfree herr
      by_cases hadm : Admitted ev db c
      · rcases herr with ⟨_, he⟩
        rcases executeCreateTable_of_admitted hadm with ⟨cols, kind, layout, _, heq⟩
        rw [heq] at he
        cases (createUniqueIndexes_of_free (db.withTable c.name _) (hfree hadm)).1.symm.trans he
      · exact (executeCreateTable_of_refused hadm).2
  · intro hmeets
    have hinv : CatalogInv db.catalog := by
      refine invariant_of_meets (ddlStep ev) (NoCollision ev) (fun db => CatalogInv db.catalog) ?_
        (CatalogDb.new engine layout) db ls catalogInv_empty hmeets hrun
      intro _ _ _ hs hok hstep
      cases hstep
      exact catalogInv_executeDdl hs hok
    exact hinv.enforced

/-- Expressions that are values, dates and floats that are not used. -/
def literalEvaluator : Evaluator Value where
  evalConst := .ok
  parseDate := fun _ => .error "invalid date"
  intAsFloat := fun _ => 0
  display := fun _ => ""

/-- `CREATE TABLE name (column INT UNIQUE)`. -/
def uniqueTable (name column : String) : CreateTableStmt Value :=
  ⟨name, [⟨column, .int, false, false, true, none⟩], none, none⟩

/-- The database after some CREATE TABLE statements. -/
def afterTables (cs : List (CreateTableStmt Value)) : CatalogDb :=
  cs.foldl (fun db c => (executeCreateTable literalEvaluator db c).2) (CatalogDb.new .heap .row)

/-- Two tables whose names do not run together: each constraint has its index. -/
theorem create_table_all_or_nothing_two_tables :
    Enforced (afterTables [uniqueTable "a" "x", uniqueTable "b" "x"]).catalog :=
  (create_table_all_or_nothing literalEvaluator .heap .row
    [(⟨false, false⟩, .createTable (uniqueTable "a" "x")),
      (⟨false, false⟩, .createTable (uniqueTable "b" "x"))]
    (afterTables [uniqueTable "a" "x", uniqueTable "b" "x"]) rfl).2
    ⟨fun _ _ => by decide, fun _ _ => by decide, trivial⟩

/-- Table `a` with a unique column `b_c`, then table `a_b` with a unique column
    `c`: the second statement fails on the name of the first one's index and
    leaves its table in the catalog without an index. -/
theorem create_table_collides :
    let before := afterTables [uniqueTable "a" "b_c"]
    let after := executeCreateTable literalEvaluator before (uniqueTable "a_b" "c")
    runSteps (ddlStep literalEvaluator) (CatalogDb.new .heap .row)
        [(⟨false, false⟩, .createTable (uniqueTable "a" "b_c"))] = some before ∧
      after.1 = .error "index already exists: __unique_a_b_c" ∧
      (before.catalog.tables.get? "a_b").isSome = false ∧
      (after.2.catalog.tables.get? "a_b").isSome = true ∧ ¬ Enforced after.2.catalog := by
  refine ⟨rfl, by decide, by decide, by decide, ?_⟩
  intro henf
  rcases henf "a_b" ⟨[⟨"c", .int, false, false, true, none⟩], 1, .heap, .row⟩ (by decide)
    ⟨"c", .int, false, false, true, none⟩ mem_cons_self rfl with ⟨n, ix, hn, htable, _⟩
  have hmem := (BTreeMap.mem_entries_iff _ n ix).mpr hn
  -- the only index is that of the first table
  have hone : (n, ix) ∈ [("__unique_a_b_c", CatalogIndex.mk "__unique_a_b_c" "a" "b_c" true 0)] :=
    hmem
  rw [mem_singleton, Prod.mk.injEq] at hone
  rw [hone.2] at htable
  exact absurd htable (by decide)

end ChibiDb
