import ChibiDb.Sql.Eval

/-!
# Filtering Chunks

A filter reads its rows in chunks, column by column. For comparisons of columns and
constants, AND, OR and IS NULL it computes a mask for the whole chunk, and for other
predicates it evaluates the rows one by one. A mask forgets the difference between false
and unknown at every AND and OR, which is harmless, as neither is ever negated.

## Main definitions

* `ChunkColumn`, `Chunk`: The chunks.
* `operand`, `compareMask`, `predicateMask`: The mask of a predicate.
* `keepLoop`, `keepRows`: The rows that the filter keeps.
* `Masks`: What a mask says about the rows.

## Theorems

* `eval_operand`: An operand has the value that the row evaluator gives it.
* `predicateMask_masks`, `predicateMask_fails`: A mask and an error, by induction on the
  predicate.
* `predicateMask_rows`: A mask tells which rows pass, and an error is one of a row.
* `keepRows_iff`: The filter keeps the rows that pass one by one.
-/

namespace ChibiDb.Sql

open List

/-- One column of a chunk, with `none` for NULL. -/
inductive ChunkColumn where
  | bool (xs : List (Option Bool))
  | int (xs : List (Option Int))
  | float (xs : List (Option UInt64))
  | str (xs : List (Option String))
  | date (xs : List (Option Int))

/-- An element of a column as a value. -/
def cellValue {α : Type} (mk : α → Value) (xs : List (Option α)) (i : Nat) : Value :=
  ((xs.getD i none).map mk).getD .null

/-- Element `i` as a value. -/
def ChunkColumn.value (i : Nat) : ChunkColumn → Value
  | .bool xs => cellValue .bool xs i
  | .int xs => cellValue .int xs i
  | .float xs => cellValue .float xs i
  | .str xs => cellValue .str xs i
  | .date xs => cellValue .date xs i

/-- Whether element `i` is NULL. -/
def ChunkColumn.isNull (i : Nat) : ChunkColumn → Bool
  | .bool xs => (xs.getD i none).isNone
  | .int xs => (xs.getD i none).isNone
  | .float xs => (xs.getD i none).isNone
  | .str xs => (xs.getD i none).isNone
  | .date xs => (xs.getD i none).isNone

/-- A batch of rows, column by column. -/
structure Chunk where
  columns : List ChunkColumn
  len : Nat

/-- A column of a chunk. -/
def Chunk.column (chunk : Chunk) (index : Nat) : ChunkColumn := chunk.columns.getD index (.str [])

/-- A row of a chunk. -/
def Chunk.row (chunk : Chunk) (i : Nat) : Row := chunk.columns.map (ChunkColumn.value i)

section Mask

variable {Q : Type} (ops : EvalOps Q)

/-- The column that an expression is, if it is one. -/
def simpleColumn (schema : Schema) : ExecExpr Q → Option Nat
  | .column qual name => (schema.resolve qual name).toOption
  | _ => none

/-- Whether an operator compares. -/
def BinOp.isComparison : BinOp → Bool
  | .eq | .notEq | .lt | .le | .gt | .ge => true
  | _ => false

/-- A side of a comparison: a column, or a constant that is evaluated once. -/
inductive Operand where
  | column (c : ChunkColumn)
  | const (v : Value)

/-- The value of an operand in row `i`. -/
def Operand.value (i : Nat) : Operand → Value
  | .column c => c.value i
  | .const v => v

/-- The operand that an expression is, if it is one. -/
def operand (chunk : Chunk) (schema : Schema) (e : ExecExpr Q) : Option Operand :=
  match simpleColumn schema e with
  | some index => some (.column (chunk.column index))
  | none => (eval ops [] e).toOption.map .const

/-- A comparison, row by row. -/
def compareMask (op : BinOp) (left right : Operand) : List Nat → Except String (List Bool)
  | [] => .ok []
  | i :: rows => do
    let passed ← evalBinary ops op (left.value i) (right.value i)
    let mask ← compareMask op left right rows
    return decide (passed = .bool true) :: mask

/-- The mask of a comparison, if both sides are operands. -/
def comparisonMask (chunk : Chunk) (schema : Schema) (op : BinOp) (l r : ExecExpr Q) :
    Except String (Option (List Bool)) :=
  match operand ops chunk schema l, operand ops chunk schema r with
  | some left, some right => (compareMask ops op left right (range chunk.len)).map some
  | _, _ => .ok none

/-- Two masks joined, if there are two. -/
def joinMasks (f : Bool → Bool → Bool) (left right : Except String (Option (List Bool))) :
    Except String (Option (List Bool)) := do
  match ← left, ← right with
  | some a, some b => return some (zipWith f a b)
  | _, _ => return none

/-- The mask of a predicate, for predicates that do not need the rows. -/
def predicateMask (chunk : Chunk) (schema : Schema) :
    ExecExpr Q → Except String (Option (List Bool))
  | .binary op l r =>
    match op with
    | .and => joinMasks and (predicateMask chunk schema l) (predicateMask chunk schema r)
    | .or => joinMasks or (predicateMask chunk schema l) (predicateMask chunk schema r)
    | op =>
      if op.isComparison then comparisonMask ops chunk schema op l r else .ok none
  | .isNull e negated =>
    match simpleColumn schema e with
    | some index =>
      .ok (some ((range chunk.len).map fun i => (chunk.column index).isNull i != negated))
    | none => .ok none
  | _ => .ok none

variable (run : Q → List Scope → Except String (List String × List Row))

/-- The rows that pass, one by one. -/
def keepLoop (e : ExecExpr Q) (chunk : Chunk) (schema : Schema) (outer : List Scope) :
    List Nat → Except String (List Nat)
  | [] => .ok []
  | i :: rows => do
    let passed ← evalPredicateBound ops run e schema (chunk.row i) outer
    let keep ← keepLoop e chunk schema outer rows
    return if passed then i :: keep else keep

/-- The rows of a chunk that the filter keeps. -/
def keepRows (e : ExecExpr Q) (chunk : Chunk) (schema : Schema) (outer : List Scope) :
    Except String (List Nat) := do
  match ← predicateMask ops chunk schema e with
  | some mask => return (mask.zipIdx.filter Prod.fst).map Prod.snd
  | none => keepLoop ops run e chunk schema outer (range chunk.len)

/-! ### Operands -/

/-- An element is NULL if its value is. -/
theorem ChunkColumn.isNull_eq (c : ChunkColumn) (i : Nat) :
    c.isNull i = decide (c.value i = .null) := by
  have hcell : ∀ {α : Type} (mk : α → Value) (xs : List (Option α)), (∀ x, mk x ≠ .null) →
      (xs.getD i none).isNone = decide (cellValue mk xs i = .null) := by
    intro α mk xs hmk
    rw [cellValue]
    cases xs.getD i none with
    | none => rfl
    | some x => exact (decide_eq_false (hmk x)).symm
  cases c <;> exact hcell _ _ (by simp)

/-- A column of a row is the element of the column. -/
theorem Chunk.row_getD (chunk : Chunk) (i index : Nat) :
    (chunk.row i).getD index .null = (chunk.column index).value i := by
  rw [Chunk.row, Chunk.column, getD_eq_getElem?_getD, getD_eq_getElem?_getD, getElem?_map]
  cases chunk.columns[index]? <;> rfl

variable {ops run} {chunk : Chunk} {schema : Schema}

/-- A column that an expression is has the value of the expression. -/
theorem eval_simpleColumn {e : ExecExpr Q} {index : Nat} (h : simpleColumn schema e = some index) :
    hasSubquery e = false ∧ ∀ i outer, eval ops (.row schema (chunk.row i) :: outer) e =
      .ok ((chunk.column index).value i) := by
  cases e with
  | column qual name =>
    refine ⟨by rw [hasSubquery], fun i outer => ?_⟩
    have hresolve : schema.resolve qual name = .ok index := by
      rw [simpleColumn] at h
      cases hr : schema.resolve qual name with
      | error => rw [hr] at h; cases h
      | ok j => rw [hr] at h; rw [Option.some.inj h]
    rw [eval, resolveColumn, Scope.schema, hresolve, ← Chunk.row_getD]
    rfl
  | _ => cases h

/-- An operand has the value that the row evaluator gives it. -/
theorem eval_operand {e : ExecExpr Q} {o : Operand} (h : operand ops chunk schema e = some o) :
    hasSubquery e = false ∧ ∀ i outer, eval ops (.row schema (chunk.row i) :: outer) e =
      .ok (o.value i) := by
  rw [operand] at h
  split at h
  · next index hcol =>
    cases h
    exact eval_simpleColumn hcol
  · cases hconst : eval ops [] e with
    | error => rw [hconst] at h; cases h
    | ok v =>
      rw [hconst] at h
      cases h
      rcases eval_of_const hconst with ⟨hsub, hval⟩
      exact ⟨hsub, fun i outer => hval _⟩

/-! ### Masks -/

/-- A mask says of every row whether the predicate is true there. -/
def Masks (ops : EvalOps Q) (chunk : Chunk) (schema : Schema) (e : ExecExpr Q)
    (mask : List Bool) : Prop :=
  hasSubquery e = false ∧ ∃ t : Nat → Option Bool,
    (∀ i < chunk.len, ∀ outer,
      eval ops (.row schema (chunk.row i) :: outer) e = .ok (truth (t i))) ∧
    mask = (range chunk.len).map fun i => t i == some true

/-- A predicate has no value in a row. -/
def FailsAt (ops : EvalOps Q) (chunk : Chunk) (schema : Schema) (e : ExecExpr Q) (i : Nat) : Prop :=
  ∀ run outer v, evalBound ops run (.row schema (chunk.row i) :: outer) e ≠ .ok v

variable {e l r : ExecExpr Q} {op : BinOp} {left right : Operand} {rows : List Nat}
  {mask : List Bool} {i : Nat}

/-- A predicate without a value in one operand has none. -/
theorem FailsAt.binary_left (h : FailsAt ops chunk schema l i) :
    FailsAt ops chunk schema (.binary op l r) i := fun run outer _ hv =>
  have ⟨⟨a, ha⟩, _⟩ := operands_of_evalBound hv
  h run outer a ha

/-- The same for the other operand. -/
theorem FailsAt.binary_right (h : FailsAt ops chunk schema r i) :
    FailsAt ops chunk schema (.binary op l r) i := fun run outer _ hv =>
  have ⟨_, b, hb⟩ := operands_of_evalBound hv
  h run outer b hb

/-- A comparison has a truth value, if it has a value. -/
theorem evalBinary_truth (hop : op.isComparison) {a b v : Value}
    (h : evalBinary ops op a b = .ok v) : ∃ t, v = truth t := by
  have hcmp : evalBinary ops op a b = compare ops op a b := by
    cases op <;> first | rfl | cases hop
  exact compare_truth ops (hcmp.symm.trans h)

/-- The truth value of a result, unknown if it has none. -/
def truthOf : Except String Value → Option Bool
  | .ok (.bool b) => some b
  | _ => none

/-- Comparing row by row gives the mask of the truth values. -/
theorem compareMask_ok (hop : op.isComparison)
    (h : compareMask ops op left right rows = .ok mask) :
    let t := fun i => truthOf (evalBinary ops op (left.value i) (right.value i))
    (∀ i ∈ rows, evalBinary ops op (left.value i) (right.value i) = .ok (truth (t i))) ∧
      mask = rows.map fun i => t i == some true := by
  intro t
  induction rows generalizing mask with
  | nil => exact ⟨by simp, (Except.ok.inj h).symm⟩
  | cons i rows ih =>
    rw [compareMask] at h
    rcases ok_of_bind h with ⟨passed, hpassed, h⟩
    rcases ok_of_bind h with ⟨rest, hrest, h⟩
    rcases evalBinary_truth hop hpassed with ⟨s, rfl⟩
    have ht : t i = s := by
      simp only [t, hpassed]
      cases s <;> rfl
    rcases ih hrest with ⟨hrows, rfl⟩
    refine ⟨forall_mem_cons.mpr ⟨by rw [hpassed, ht], hrows⟩, ?_⟩
    rw [map_cons, ht, ← Except.ok.inj h]
    rcases s with _ | _ | _ <;> rfl

/-- Comparing row by row fails in a row. -/
theorem compareMask_error {err : String}
    (h : compareMask ops op left right rows = .error err) :
    ∃ i ∈ rows, evalBinary ops op (left.value i) (right.value i) = .error err := by
  induction rows with
  | nil => cases h
  | cons i rows ih =>
    rw [compareMask] at h
    cases hpassed : evalBinary ops op (left.value i) (right.value i) with
    | error err' =>
      rw [hpassed] at h
      cases h
      exact ⟨i, mem_cons_self, hpassed⟩
    | ok passed =>
      rw [bind_of_ok _ hpassed] at h
      cases hrest : compareMask ops op left right rows with
      | error err' =>
        rw [hrest] at h
        cases h
        rcases ih hrest with ⟨j, hj, herr⟩
        exact ⟨j, mem_cons_of_mem _ hj, herr⟩
      | ok rest =>
        rw [hrest] at h
        cases h

/-- A comparison that has a mask, or an error, compares operands. -/
theorem operands_of_comparisonMask {result : Except String (Option (List Bool))}
    (h : comparisonMask ops chunk schema op l r = result) (hresult : result ≠ .ok none) :
    hasSubquery (.binary op l r) = false ∧ ∃ left right,
      (∀ i outer, eval ops (.row schema (chunk.row i) :: outer) (.binary op l r) =
        evalBinary ops op (left.value i) (right.value i)) ∧
      (compareMask ops op left right (range chunk.len)).map some = result := by
  rw [comparisonMask] at h
  split at h
  · next left right hl hr =>
    rcases eval_operand hl with ⟨hsubl, hl⟩
    rcases eval_operand hr with ⟨hsubr, hr⟩
    exact ⟨by rw [hasSubquery, hsubl, hsubr]; rfl, left, right,
      fun i outer => eval_binary (hl i outer) (hr i outer), h⟩
  · exact absurd h.symm hresult

/-- The mask of a comparison. -/
theorem comparisonMask_masks (hop : op.isComparison)
    (h : comparisonMask ops chunk schema op l r = .ok (some mask)) :
    Masks ops chunk schema (.binary op l r) mask := by
  rcases operands_of_comparisonMask h (by simp) with ⟨hsub, left, right, heval, hmap⟩
  cases hmask : compareMask ops op left right (range chunk.len) with
  | error => rw [hmask] at hmap; cases hmap
  | ok m =>
    rw [hmask] at hmap
    cases hmap
    rcases compareMask_ok hop hmask with ⟨hrows, hm⟩
    exact ⟨hsub, _, fun i hi outer => (heval i outer).trans (hrows i (mem_range.mpr hi)), hm⟩

/-- An error of a comparison is one of a row. -/
theorem comparisonMask_fails {err : String}
    (h : comparisonMask ops chunk schema op l r = .error err) :
    ∃ i < chunk.len, FailsAt ops chunk schema (.binary op l r) i := by
  rcases operands_of_comparisonMask h (by simp) with ⟨hsub, left, right, heval, hmap⟩
  cases hmask : compareMask ops op left right (range chunk.len) with
  | ok => rw [hmask] at hmap; cases hmap
  | error err' =>
    rcases compareMask_error hmask with ⟨i, hi, herr⟩
    refine ⟨i, mem_range.mp hi, fun run outer v hv => ?_⟩
    rw [evalBound, hsub, if_neg Bool.false_ne_true, heval, herr] at hv
    cases hv

/-- Masks are joined as their truth values are, if the operator does not tell false and
    unknown apart in a way that matters. -/
theorem Masks.join {f : Bool → Bool → Bool} {f₃ : Option Bool → Option Bool → Option Bool}
    (hop : ∀ s t, evalBinary ops op (truth s) (truth t) = .ok (truth (f₃ s t)))
    (hf : ∀ s t, (f₃ s t == some true) = f (s == some true) (t == some true))
    {a b : List Bool} (hl : Masks ops chunk schema l a) (hr : Masks ops chunk schema r b) :
    Masks ops chunk schema (.binary op l r) (zipWith f a b) := by
  rcases hl with ⟨hsubl, s, hl, rfl⟩
  rcases hr with ⟨hsubr, t, hr, rfl⟩
  refine ⟨by rw [hasSubquery, hsubl, hsubr]; rfl, fun i => f₃ (s i) (t i), fun i hi outer => ?_, ?_⟩
  · rw [eval_binary (hl i hi outer) (hr i hi outer), hop]
  · rw [zipWith_map, zipWith_self]
    exact map_congr_left fun i _ => (hf _ _).symm

/-- A joined mask comes from two. -/
theorem joinMasks_ok {f : Bool → Bool → Bool} {a b : Except String (Option (List Bool))}
    (h : joinMasks f a b = .ok (some mask)) :
    ∃ x y, a = .ok (some x) ∧ b = .ok (some y) ∧ mask = zipWith f x y := by
  rcases a with _ | _ | x
  · cases h
  · rcases b with _ | _ | _ <;> cases h
  rcases b with _ | _ | y <;> cases h
  exact ⟨x, y, rfl, rfl, rfl⟩

/-- An error of a joined mask comes from one of the two. -/
theorem joinMasks_error {f : Bool → Bool → Bool} {a b : Except String (Option (List Bool))}
    {err : String} (h : joinMasks f a b = .error err) : a = .error err ∨ b = .error err := by
  rcases a with _ | _ | _
  · exact .inl h
  all_goals rcases b with _ | _ | _ <;> cases h
  all_goals exact .inr rfl

/-- A mask says which rows pass. The induction is on the predicate. -/
theorem predicateMask_masks : ∀ {e : ExecExpr Q} {mask : List Bool},
    predicateMask ops chunk schema e = .ok (some mask) → Masks ops chunk schema e mask
  | .binary op l r, mask, h => by
    cases op with
    | and =>
      rcases joinMasks_ok h with ⟨x, y, hl, hr, rfl⟩
      exact .join (evalBinary_both ops) both_isTrue (predicateMask_masks hl)
        (predicateMask_masks hr)
    | or =>
      rcases joinMasks_ok h with ⟨x, y, hl, hr, rfl⟩
      exact .join (evalBinary_either ops) either_isTrue (predicateMask_masks hl)
        (predicateMask_masks hr)
    | eq | notEq | lt | le | gt | ge => exact comparisonMask_masks rfl h
    | _ => cases h
  | .isNull e negated, mask, h => by
    rw [predicateMask] at h
    split at h
    · next index hcol =>
      cases h
      rcases eval_simpleColumn hcol with ⟨hsub, he⟩
      have hsome : ∀ b, b = (some b == some true) := by decide
      refine ⟨by rwa [hasSubquery], fun i => some ((chunk.column index).isNull i != negated),
        fun i _ outer => ?_, map_congr_left fun i _ => hsome _⟩
      rw [eval, bind_of_ok _ (he i outer)]
      simp only [ChunkColumn.isNull_eq]
      rfl
    · cases h
  | .value _, _, h | .column .., _, h | .aggregate .., _, h | .unary .., _, h | .like .., _, h
  | .function .., _, h | .inSubquery .., _, h | .existsSub _, _, h | .scalarSubquery _, _, h => by
    simp [predicateMask] at h

/-- An error of the mask is one of a row. The induction is on the predicate. -/
theorem predicateMask_fails : ∀ {e : ExecExpr Q} {err : String},
    predicateMask ops chunk schema e = .error err →
      ∃ i < chunk.len, FailsAt ops chunk schema e i
  | .binary op l r, err, h => by
    cases op with
    | and | or =>
      rcases joinMasks_error h with hl | hr
      · rcases predicateMask_fails hl with ⟨i, hi, hfails⟩
        exact ⟨i, hi, hfails.binary_left⟩
      · rcases predicateMask_fails hr with ⟨i, hi, hfails⟩
        exact ⟨i, hi, hfails.binary_right⟩
    | eq | notEq | lt | le | gt | ge => exact comparisonMask_fails h
    | _ => cases h
  | .isNull e negated, _, h => by
    rw [predicateMask] at h
    split at h <;> cases h
  | .value _, _, h | .column .., _, h | .aggregate .., _, h | .unary .., _, h | .like .., _, h
  | .function .., _, h | .inSubquery .., _, h | .existsSub _, _, h | .scalarSubquery _, _, h => by
    simp [predicateMask] at h

/-! ### The filter -/

/-- A predicate with a truth value in a row: the row passes if it is true. -/
theorem evalPredicateBound_truth {t : Option Bool} {row : Row} {outer : List Scope}
    (hsub : hasSubquery e = false) (h : eval ops (.row schema row :: outer) e = .ok (truth t)) :
    evalPredicateBound ops run e schema row outer = .ok (t == some true) := by
  rw [evalPredicateBound, evalBound, hsub, if_neg Bool.false_ne_true, bind_of_ok _ h]
  rcases t with _ | _ | _ <;> rfl

/-- A row in which the predicate has no value neither passes nor fails to. -/
theorem FailsAt.evalPredicateBound_ne (h : FailsAt ops chunk schema e i) (outer : List Scope)
    (b : Bool) : evalPredicateBound ops run e schema (chunk.row i) outer ≠ .ok b := by
  intro hb
  rw [evalPredicateBound] at hb
  rcases ok_of_bind hb with ⟨v, hv, -⟩
  exact h run outer v hv

/-- A mask tells of every row whether the row evaluator lets it pass, and if there is an error
    instead, there is a row in which the row evaluator fails, whatever the subqueries return. -/
theorem predicateMask_rows (ops : EvalOps Q) (e : ExecExpr Q) (chunk : Chunk) (schema : Schema) :
    (∀ mask, predicateMask ops chunk schema e = .ok (some mask) →
      mask.length = chunk.len ∧ ∀ i (hi : i < mask.length), ∀ run outer,
        evalPredicateBound ops run e schema (chunk.row i) outer = .ok mask[i]) ∧
    (∀ err, predicateMask ops chunk schema e = .error err →
      ∃ i < chunk.len, ∀ run outer, ∃ err',
        evalPredicateBound ops run e schema (chunk.row i) outer = .error err') := by
  refine ⟨fun mask hmask => ?_, fun err herr => ?_⟩
  · rcases predicateMask_masks hmask with ⟨hsub, t, ht, rfl⟩
    refine ⟨by simp, fun i hi run outer => ?_⟩
    have hlen : i < chunk.len := by simpa using hi
    rw [evalPredicateBound_truth hsub (ht i hlen outer), getElem_map, getElem_range]
  · rcases predicateMask_fails herr with ⟨i, hi, hfails⟩
    refine ⟨i, hi, fun run outer => ?_⟩
    cases hrow : evalPredicateBound ops run e schema (chunk.row i) outer with
    | error err' => exact ⟨err', rfl⟩
    | ok b => exact absurd hrow (hfails.evalPredicateBound_ne outer b)

/-- In a column that holds 1, NULL and 3, the mask of `a > 1` is that of the last row, which
    passes. The comparison with a text is an error, and one of a row. -/
theorem predicateMask_rows_numbers :
    let chunk : Chunk := ⟨[.int [some 1, none, some 3]], 3⟩
    let schema : Schema := [⟨some "t", "a"⟩]
    let above : ExecExpr Unit := .binary .gt (.column none "a") (.value (.int 1))
    let mixed : ExecExpr Unit := .binary .eq (.column none "a") (.value (.str "x"))
    predicateMask plainOps chunk schema above = .ok (some [false, false, true]) ∧
      (∀ run outer, evalPredicateBound plainOps run above schema [.int 3] outer = .ok true) ∧
      predicateMask plainOps chunk schema mixed = .error typeMismatch ∧
      ∃ i < 3, ∀ run outer, ∃ err,
        evalPredicateBound plainOps run mixed schema (chunk.row i) outer = .error err := by
  intro chunk schema above mixed
  have hmask : predicateMask plainOps chunk schema above = .ok (some [false, false, true]) := rfl
  have herr : predicateMask plainOps chunk schema mixed = .error typeMismatch := rfl
  refine ⟨hmask, fun run outer => ?_, herr, ?_⟩
  · exact ((predicateMask_rows plainOps above chunk schema).1 _ hmask).2 2 (by decide) run outer
  · exact (predicateMask_rows plainOps mixed chunk schema).2 _ herr

/-- The loop keeps the rows that pass, if all rows have an answer. -/
theorem keepLoop_of_answers {p : Nat → Bool} {outer : List Scope}
    (h : ∀ i ∈ rows, evalPredicateBound ops run e schema (chunk.row i) outer = .ok (p i)) :
    keepLoop ops run e chunk schema outer rows = .ok (rows.filter p) := by
  induction rows with
  | nil => rfl
  | cons i rows ih =>
    rcases forall_mem_cons.mp h with ⟨hi, hrows⟩
    rw [keepLoop, bind_of_ok _ hi, bind_of_ok _ (ih hrows), filter_cons]
    rfl

/-- The loop ends only if all rows have an answer. -/
theorem answers_of_keepLoop {keep : List Nat} {outer : List Scope}
    (h : keepLoop ops run e chunk schema outer rows = .ok keep) :
    ∀ i ∈ rows, ∃ b, evalPredicateBound ops run e schema (chunk.row i) outer = .ok b := by
  induction rows generalizing keep with
  | nil => simp
  | cons i rows ih =>
    rw [keepLoop] at h
    rcases ok_of_bind h with ⟨b, hb, h⟩
    rcases ok_of_bind h with ⟨rest, hrest, -⟩
    exact forall_mem_cons.mpr ⟨⟨b, hb⟩, ih hrest⟩

/-- The rows that a mask lets pass. -/
theorem indices_of_mask (p : Nat → Bool) (n : Nat) :
    ((((range n).map p).zipIdx.filter Prod.fst).map Prod.snd) = (range n).filter p := by
  have hzip : ((range n).map p).zipIdx = (range n).map fun i => (p i, i) := by
    refine ext_getElem (by simp) fun i _ _ => by simp
  rw [hzip, filter_map, map_map]
  exact map_id _

/-- The filter keeps the rows of a chunk that pass one by one. -/
theorem keepRows_iff {keep : List Nat} {outer : List Scope} :
    keepRows ops run e chunk schema outer = .ok keep ↔
      keepLoop ops run e chunk schema outer (range chunk.len) = .ok keep := by
  rw [keepRows]
  cases hmask : predicateMask ops chunk schema e with
  | error err =>
    refine ⟨fun h => (by cases h), fun h => ?_⟩
    rcases predicateMask_fails hmask with ⟨i, hi, hfails⟩
    rcases answers_of_keepLoop h i (mem_range.mpr hi) with ⟨b, hb⟩
    exact absurd hb (hfails.evalPredicateBound_ne outer b)
  | ok result =>
    cases result with
    | none => exact Iff.rfl
    | some mask =>
      rcases predicateMask_masks hmask with ⟨hsub, t, ht, rfl⟩
      rw [keepLoop_of_answers (p := fun i => t i == some true) fun i hi =>
        evalPredicateBound_truth hsub (ht i (mem_range.mp hi) outer), ← indices_of_mask]
      exact Iff.rfl

end Mask

end ChibiDb.Sql
