import ChibiDb.Sql.Like
import ChibiDb.Sql.OrderBy
import ChibiDb.Sql.Syntax

/-!
# Evaluating Expressions

An expression is evaluated in a list of scopes, the innermost first: a row or a group of
rows, and behind it those of the queries around a subquery. Every operand is evaluated
before its operator looks at any of them, so an operand that fails makes the whole
expression fail. Subqueries are run before the evaluation and stand in it as values.

## Main definitions

* `ExecExpr`: Expressions as they are evaluated.
* `Schema.resolve`, `resolveColumn`: The column that a name stands for.
* `evalBinary`, `eval`: The evaluator.
* `bindExpr`, `evalBound`, `evalPredicateBound`: The evaluator with its subqueries.
* `truth`, `both`, `either`: Three-valued logic.

## Theorems

* `evalBinary_both`, `evalBinary_either`: AND and OR are those of three-valued logic.
* `eval_of_const`: A constant has no subqueries, and its value in all scopes.
* `bindExpr_of_noSubquery`: Without subqueries there is nothing to bind.
-/

namespace ChibiDb.Sql

open List

/-- An expression as it is evaluated: literals are values, and `Q` is the type of subqueries. -/
inductive ExecExpr (Q : Type) where
  | value (v : Value)
  | column (qual : Option String) (name : String)
  | aggregate (func : AggFunc) (arg : Option (ExecExpr Q)) (distinct : Bool)
  | unary (op : UnOp) (e : ExecExpr Q)
  | binary (op : BinOp) (l r : ExecExpr Q)
  | isNull (e : ExecExpr Q) (negated : Bool)
  | like (e pattern : ExecExpr Q) (negated : Bool) (escape : Option Char)
  | function (name : String) (args : List (ExecExpr Q))
  | inSubquery (e : ExecExpr Q) (sub : Q) (negated : Bool)
  | existsSub (sub : Q)
  | scalarSubquery (sub : Q)

/-- A column of a schema: the table it belongs to, and its name. -/
structure SchemaColumn where
  owner : Option String
  name : String

/-- The columns of the rows of a query. -/
abbrev Schema := List SchemaColumn

/-- What the evaluator says of a name that stands for no column. -/
def noSuchColumn (qual : Option String) (name : String) : String :=
  match qual with
  | some q => "no such column: " ++ q ++ "." ++ name
  | none => "no such column: " ++ name

/-- The column that a name stands for: the first of its table, or the only one. -/
def Schema.resolve (schema : Schema) (qual : Option String) (name : String) :
    Except String Nat :=
  match qual with
  | some q =>
    match schema.findIdx? fun c => c.owner = some q ∧ c.name = name with
    | some i => .ok i
    | none => .error (noSuchColumn qual name)
  | none =>
    match (schema.zipIdx.filter fun c => c.1.name = name).map Prod.snd with
    | [] => .error (noSuchColumn qual name)
    | [i] => .ok i
    | _ => .error ("ambiguous column: " ++ name)

/-- What names are resolved in: a row, or the rows of a group. -/
inductive Scope where
  | row (schema : Schema) (row : Row)
  | group (schema : Schema) (rows : List Row)

/-- The schema of a scope. -/
def Scope.schema : Scope → Schema
  | .row schema _ => schema
  | .group schema _ => schema

/-- A column of a scope; a group has the value of its first row. -/
def Scope.column (i : Nat) : Scope → Value
  | .row _ r => r.getD i .null
  | .group _ rows => (rows.head?.map fun r => r.getD i .null).getD .null

/-- The value of a column, looked up outwards. `lastErr` is the error of the scope before. Only
    the text of an error tells whether the name was ambiguous. -/
def resolveColumn (qual : Option String) (name : String) (lastErr : Option String) :
    List Scope → Except String Value
  | [] => .error (lastErr.getD (noSuchColumn qual name))
  | scope :: parents =>
    match scope.schema.resolve qual name with
    | .ok i => .ok (scope.column i)
    | .error e =>
      if "ambiguous".toList <:+: e.toList then .error e
      else resolveColumn qual name (some e) parents

/-- What is left open: floats, the texts of values, the case of letters, and aggregates. -/
structure EvalOps (Q : Type) extends FloatOps where
  floatNeg : UInt64 → UInt64
  floatIsZero : UInt64 → Bool
  floatArith : BinOp → UInt64 → UInt64 → UInt64
  text : Value → String
  toUppercase : String → String
  toLowercase : String → String
  evalAggregate : AggFunc → Option (ExecExpr Q) → Bool → Schema → List Row →
    Except String Value

/-- Operations for expressions that compute with integers, truth values and dates alone. -/
abbrev plainOps : EvalOps Unit :=
  ⟨noFloats, id, fun _ => false, fun _ a _ => a, fun _ => "", id, id, fun _ _ _ _ _ => .ok .null⟩

section Evaluator

variable {Q : Type} (ops : EvalOps Q)

/-- The error of an operator on values it is not made for. -/
def typeMismatch : String := "type mismatch in expression"

/-- An integer, if it has 64 bits. -/
def checkedInt (range n : Int) : Except String Value :=
  if -2 ^ 63 ≤ range ∧ range < 2 ^ 63 then .ok (.int n) else .error "integer overflow"

/-- Arithmetic on integers. A remainder overflows where its quotient does. -/
def intArith (op : BinOp) (a b : Int) : Except String Value :=
  match op with
  | .add => checkedInt (a + b) (a + b)
  | .sub => checkedInt (a - b) (a - b)
  | .mul => checkedInt (a * b) (a * b)
  | .div => if b = 0 then .error "division by zero" else checkedInt (a.tdiv b) (a.tdiv b)
  | _ => if b = 0 then .error "division by zero" else checkedInt (a.tdiv b) (a.tmod b)

/-- Arithmetic on floats. -/
def floatArith (op : BinOp) (a b : UInt64) : Except String Value :=
  match op with
  | .div | .mod =>
    if ops.floatIsZero b then .error "division by zero" else .ok (.float (ops.floatArith op a b))
  | _ => .ok (.float (ops.floatArith op a b))

/-- Arithmetic. NULL with a number is NULL. -/
def arith (op : BinOp) (l r : Value) : Except String Value :=
  match l, r with
  | .null, .null => .ok .null
  | .null, .int _ | .null, .float _ | .int _, .null | .float _, .null => .ok .null
  | .int a, .int b => intArith op a b
  | .float a, .float b => floatArith ops op a b
  | .int a, .float b => floatArith ops op (ops.intAsFloat a) b
  | .float a, .int b => floatArith ops op a (ops.intAsFloat b)
  | _, _ => .error typeMismatch

/-- Whether a comparison holds of two values that compare like this. -/
def BinOp.holds (op : BinOp) (ord : Option Ordering) : Bool :=
  match ord, op with
  | none, .notEq => true
  | some .lt, .lt | some .lt, .le | some .lt, .notEq => true
  | some .eq, .le | some .eq, .ge | some .eq, .eq => true
  | some .gt, .gt | some .gt, .ge | some .gt, .notEq => true
  | _, _ => false

/-- Comparisons. NULL compares to nothing. -/
def compare (op : BinOp) (l r : Value) : Except String Value :=
  if l = .null ∨ r = .null then .ok .null
  else (cmpValues ops.partialCmp ops.intAsFloat parseDate l r).map fun ord => .bool (op.holds ord)

/-- A binary operator on two values. -/
def evalBinary (op : BinOp) (l r : Value) : Except String Value :=
  match op with
  | .and =>
    match l, r with
    | .bool false, _ | _, .bool false => .ok (.bool false)
    | .bool true, .bool true => .ok (.bool true)
    | .bool true, .null | .null, .bool true | .null, .null => .ok .null
    | _, _ => .error typeMismatch
  | .or =>
    match l, r with
    | .bool true, _ | _, .bool true => .ok (.bool true)
    | .bool false, .bool false => .ok (.bool false)
    | .bool false, .null | .null, .bool false | .null, .null => .ok .null
    | _, _ => .error typeMismatch
  | .add | .sub | .mul | .div | .mod => arith ops op l r
  | _ => compare ops op l r

/-- A unary operator on a value. -/
def evalUnary (op : UnOp) (v : Value) : Except String Value :=
  match op, v with
  | _, .null => .ok .null
  | .neg, .int n => checkedInt (-n) (-n)
  | .neg, .float x => .ok (.float (ops.floatNeg x))
  | .not, .bool b => .ok (.bool !b)
  | _, _ => .error typeMismatch

/-- LIKE on two values. -/
def evalLike (v p : Value) (negated : Bool) (escape : Option Char) : Except String Value :=
  match v, p with
  | .null, _ | _, .null => .ok .null
  | .str s, .str pat => (likeMatch pat s escape).map fun matched => .bool (matched != negated)
  | _, _ => .error typeMismatch

/-- A text argument of a function. -/
def strArg : Value → Except String (Option String)
  | .null => .ok none
  | .str s => .ok (some s)
  | _ => .error typeMismatch

/-- A number argument of a function. -/
def intArg : Value → Except String (Option Int)
  | .null => .ok none
  | .int n => .ok (some n)
  | _ => .error typeMismatch

/-- The error of a call with the wrong number of arguments. -/
def arityError (name : String) (got : Nat) (want : String) : String :=
  name ++ " expects " ++ want ++ " argument(s), got " ++ toString got

/-- The texts of the arguments of `concat`, one behind the other. -/
def concatTexts (out : String) : List Value → Value
  | [] => .str out
  | .null :: _ => .null
  | .str s :: vals => concatTexts (out ++ s) vals
  | v :: vals => concatTexts (out ++ ops.text v) vals

/-- The part of a text that starts at `start`, counted from one. -/
def substring (name : String) (vals : List Value) : Except String Value := do
  if vals.length ≠ 2 ∧ vals.length ≠ 3 then throw (arityError name vals.length "2 or 3")
  let some s ← strArg (vals.getD 0 .null) | return .null
  let some start ← intArg (vals.getD 1 .null) | return .null
  if start < 1 then throw "substring start must be positive"
  let skipped := s.toList.drop (start - 1).toNat
  match vals[2]? with
  | none => return .str (String.ofList skipped)
  | some v =>
    let some n ← intArg v | return .null
    if n < 0 then throw "substring length must be non-negative"
    return .str (String.ofList (skipped.take n.toNat))

/-- The functions on texts, once their arguments are evaluated. -/
def evalFunction (name : String) (vals : List Value) : Except String Value :=
  match name, vals with
  | "concat", vals => .ok (concatTexts ops "" vals)
  | "upper", [v] => (strArg v).map fun s => (s.map fun s => .str (ops.toUppercase s)).getD .null
  | "lower", [v] => (strArg v).map fun s => (s.map fun s => .str (ops.toLowercase s)).getD .null
  | "length", [v] => (strArg v).map fun s => (s.map fun s => .int s.toList.length).getD .null
  | "upper", _ | "lower", _ | "length", _ => .error (arityError name vals.length "1")
  | "substring", vals | "substr", vals => substring name vals
  | _, _ => .error ("unknown function: " ++ name)

mutual

/-- The value of an expression. -/
def eval (ctx : List Scope) : ExecExpr Q → Except String Value
  | .value v => .ok v
  | .column qual name => resolveColumn qual name none ctx
  | .aggregate func arg distinct =>
    match ctx with
    | .group schema rows :: _ => ops.evalAggregate func arg distinct schema rows
    | _ => .error "aggregate not allowed here"
  | .unary op e => do
    let v ← eval ctx e
    evalUnary ops op v
  | .binary op l r => do
    let lv ← eval ctx l
    let rv ← eval ctx r
    evalBinary ops op lv rv
  | .isNull e negated => do
    let v ← eval ctx e
    return .bool (decide (v = .null) != negated)
  | .like e pattern negated escape => do
    let v ← eval ctx e
    let p ← eval ctx pattern
    evalLike v p negated escape
  | .function name args => do
    let vals ← evalArgs ctx args
    evalFunction ops name vals
  | .inSubquery .. | .existsSub _ | .scalarSubquery _ =>
    .error "subqueries are materialized before evaluation"

/-- The values of the arguments of a function. -/
def evalArgs (ctx : List Scope) : List (ExecExpr Q) → Except String (List Value)
  | [] => .ok []
  | e :: es => do
    let v ← eval ctx e
    let vs ← evalArgs ctx es
    return v :: vs

end

mutual

/-- Whether there is a subquery to run. -/
def hasSubquery : ExecExpr Q → Bool
  | .inSubquery .. | .existsSub _ | .scalarSubquery _ => true
  | .unary _ e | .isNull e _ => hasSubquery e
  | .binary _ l r => hasSubquery l || hasSubquery r
  | .like e pattern _ _ => hasSubquery e || hasSubquery pattern
  | .function _ args => hasSubqueryArgs args
  | .aggregate _ (some e) _ => hasSubquery e
  | .value _ | .column .. | .aggregate _ none _ => false

/-- Whether an argument has a subquery. -/
def hasSubqueryArgs : List (ExecExpr Q) → Bool
  | [] => false
  | e :: es => hasSubquery e || hasSubqueryArgs es

end

/-- A disjunction of equalities with the values that a subquery returned. -/
def bindIn (inner : ExecExpr Q) (negated : Bool) (rows : List Row) : ExecExpr Q :=
  let acc := rows.foldl (fun acc row =>
    let eq := .binary .eq inner (.value (row.headD .null))
    some (acc.elim eq fun prev => .binary .or prev eq)) none
  let folded := acc.getD (.value (.bool false))
  if negated then .unary .not folded else folded

-- The columns and the rows that a subquery returns in the scopes around it.
variable (run : Q → List Scope → Except String (List String × List Row))

mutual

/-- The expression with the values of its subqueries in their place. -/
def bindExpr (outer : List Scope) : ExecExpr Q → Except String (ExecExpr Q)
  | .inSubquery e sub negated => do
    let inner ← bindExpr outer e
    let (cols, rows) ← run sub outer
    if cols.length ≠ 1 then throw "subquery in IN must return a single column"
    return bindIn inner negated rows
  | .existsSub sub => do
    let (_, rows) ← run sub outer
    return .value (.bool !rows.isEmpty)
  | .scalarSubquery sub => do
    let (cols, rows) ← run sub outer
    if cols.length ≠ 1 then throw "scalar subquery must return a single column"
    match rows with
    | [] => return .value .null
    | [row] => return .value (row.headD .null)
    | _ => throw "scalar subquery returned more than one row"
  | .unary op e => do
    let e ← bindExpr outer e
    return .unary op e
  | .binary op l r => do
    let l ← bindExpr outer l
    let r ← bindExpr outer r
    return .binary op l r
  | .isNull e negated => do
    let e ← bindExpr outer e
    return .isNull e negated
  | .like e pattern negated escape => do
    let e ← bindExpr outer e
    let pattern ← bindExpr outer pattern
    return .like e pattern negated escape
  | .function name args => do
    let args ← bindArgs outer args
    return .function name args
  | .aggregate func (some e) distinct => do
    let e ← bindExpr outer e
    return .aggregate func (some e) distinct
  | .value v => return .value v
  | .column qual name => return .column qual name
  | .aggregate func none distinct => return .aggregate func none distinct

/-- The arguments with the values of their subqueries. -/
def bindArgs (outer : List Scope) : List (ExecExpr Q) → Except String (List (ExecExpr Q))
  | [] => .ok []
  | e :: es => do
    let e ← bindExpr outer e
    let es ← bindArgs outer es
    return e :: es

end

/-- The value of an expression after its subqueries have run. -/
def evalBound (ctx : List Scope) (e : ExecExpr Q) : Except String Value :=
  if hasSubquery e then do
    let bound ← bindExpr run ctx e
    eval ops ctx bound
  else eval ops ctx e

/-- Whether a row passes a predicate. NULL does not. -/
def evalPredicateBound (e : ExecExpr Q) (schema : Schema) (row : Row) (outer : List Scope) :
    Except String Bool := do
  match ← evalBound ops run (.row schema row :: outer) e with
  | .bool b => return b
  | .null => return false
  | _ => throw "where clause must evaluate to boolean"

/-! ### Three-valued logic -/

/-- A truth value, NULL if it is unknown. -/
def truth : Option Bool → Value
  | none => .null
  | some b => .bool b

/-- Conjunction. -/
def both (a b : Option Bool) : Option Bool :=
  if a = some false ∨ b = some false then some false
  else if a = none ∨ b = none then none
  else some true

/-- Disjunction. -/
def either (a b : Option Bool) : Option Bool :=
  if a = some true ∨ b = some true then some true
  else if a = none ∨ b = none then none
  else some false

/-- A conjunction is true if both sides are. -/
theorem both_isTrue : ∀ a b, (both a b == some true) = (a == some true && b == some true) := by
  decide

/-- A disjunction is true if a side is. -/
theorem either_isTrue : ∀ a b, (either a b == some true) = (a == some true || b == some true) := by
  decide

/-- AND is conjunction. -/
theorem evalBinary_both (a b : Option Bool) :
    evalBinary ops .and (truth a) (truth b) = .ok (truth (both a b)) := by
  rcases a with _ | _ | _ <;> rcases b with _ | _ | _ <;> rfl

/-- OR is disjunction. -/
theorem evalBinary_either (a b : Option Bool) :
    evalBinary ops .or (truth a) (truth b) = .ok (truth (either a b)) := by
  rcases a with _ | _ | _ <;> rcases b with _ | _ | _ <;> rfl

/-- NOT is negation. -/
theorem evalUnary_not (a : Option Bool) :
    evalUnary ops .not (truth a) = .ok (truth (a.map not)) := by
  rcases a with _ | _ <;> rfl

/-- A comparison that does not fail is true, false or unknown. -/
theorem compare_truth {op : BinOp} {l r v : Value} (h : compare ops op l r = .ok v) :
    ∃ t, v = truth t := by
  rw [compare] at h
  split_ifs at h
  · exact ⟨none, (Except.ok.inj h).symm⟩
  · rcases hcmp : cmpValues ops.partialCmp ops.intAsFloat parseDate l r with _ | ord
    · rw [hcmp] at h
      cases h
    · rw [hcmp] at h
      exact ⟨some (op.holds ord), (Except.ok.inj h).symm⟩

/-! ### Constants -/

variable {ops run}

/-- Two steps that succeed one after the other. -/
theorem ok_of_bind {α β : Type} {x : Except String α} {k : α → Except String β} {b : β}
    (h : (x >>= k) = .ok b) : ∃ a, x = .ok a ∧ k a = .ok b := by
  cases x with
  | error e => cases h
  | ok a => exact ⟨a, rfl, h⟩

/-- The second step, once the first has succeeded. -/
theorem bind_of_ok {α β : Type} {x : Except String α} {a : α} (k : α → Except String β)
    (h : x = .ok a) : (x >>= k) = k a := by
  rw [h]
  rfl

mutual

/-- A constant has no subqueries, and its value in all scopes. -/
theorem eval_of_const {v : Value} : ∀ {e : ExecExpr Q}, eval ops [] e = .ok v →
    hasSubquery e = false ∧ ∀ ctx, eval ops ctx e = .ok v
  | .value _, h => by
    rw [eval] at h
    exact ⟨by rw [hasSubquery], fun _ => by rwa [eval]⟩
  | .column .., h | .inSubquery .., h | .existsSub _, h | .scalarSubquery _, h => by
    rw [eval] at h
    cases h
  | .aggregate .., h => by simp [eval] at h
  | .unary _ e, h | .isNull e _, h => by
    rw [eval] at h
    rcases ok_of_bind h with ⟨w, he, h⟩
    rcases eval_of_const he with ⟨hsub, he⟩
    exact ⟨by rwa [hasSubquery], fun ctx => by rwa [eval, bind_of_ok _ (he ctx)]⟩
  | .binary _ l r, h | .like l r _ _, h => by
    rw [eval] at h
    rcases ok_of_bind h with ⟨lv, hl, h⟩
    rcases ok_of_bind h with ⟨rv, hr, h⟩
    rcases eval_of_const hl with ⟨hsubl, hl⟩
    rcases eval_of_const hr with ⟨hsubr, hr⟩
    exact ⟨by rw [hasSubquery, hsubl, hsubr, Bool.or_false],
      fun ctx => by rwa [eval, bind_of_ok _ (hl ctx), bind_of_ok _ (hr ctx)]⟩
  | .function name args, h => by
    rw [eval] at h
    rcases ok_of_bind h with ⟨vals, hargs, h⟩
    rcases evalArgs_of_const hargs with ⟨hsub, hargs⟩
    exact ⟨by rwa [hasSubquery], fun ctx => by rwa [eval, bind_of_ok _ (hargs ctx)]⟩

/-- The same for the arguments of a function. -/
theorem evalArgs_of_const {vals : List Value} : ∀ {args : List (ExecExpr Q)},
    evalArgs ops [] args = .ok vals →
      hasSubqueryArgs args = false ∧ ∀ ctx, evalArgs ops ctx args = .ok vals
  | [], h => by
    rw [evalArgs] at h
    exact ⟨by rw [hasSubqueryArgs], fun _ => by rwa [evalArgs]⟩
  | e :: es, h => by
    rw [evalArgs] at h
    rcases ok_of_bind h with ⟨v, he, h⟩
    rcases ok_of_bind h with ⟨vs, hes, h⟩
    rcases eval_of_const he with ⟨hsube, he⟩
    rcases evalArgs_of_const hes with ⟨hsubes, hes⟩
    exact ⟨by rw [hasSubqueryArgs, hsube, hsubes, Bool.or_false],
      fun ctx => by rwa [evalArgs, bind_of_ok _ (he ctx), bind_of_ok _ (hes ctx)]⟩

end

mutual

/-- Without subqueries there is nothing to bind. -/
theorem bindExpr_of_noSubquery (outer : List Scope) :
    ∀ {e : ExecExpr Q}, hasSubquery e = false → bindExpr run outer e = .ok e
  | .value _, h | .column .., h | .aggregate _ none _, h => by
    rw [bindExpr]
    rfl
  | .unary _ e, h | .isNull e _, h | .aggregate _ (some e) _, h => by
    rw [hasSubquery] at h
    rw [bindExpr, bindExpr_of_noSubquery outer h]
    rfl
  | .binary _ l r, h | .like l r _ _, h => by
    rw [hasSubquery, Bool.or_eq_false_iff] at h
    rw [bindExpr, bindExpr_of_noSubquery outer h.1, bindExpr_of_noSubquery outer h.2]
    rfl
  | .function name args, h => by
    rw [hasSubquery] at h
    rw [bindExpr, bindArgs_of_noSubquery outer h]
    rfl
  | .inSubquery .., h | .existsSub _, h | .scalarSubquery _, h => by
    rw [hasSubquery] at h
    cases h

/-- Without subqueries there is nothing to bind in arguments. -/
theorem bindArgs_of_noSubquery (outer : List Scope) :
    ∀ {args : List (ExecExpr Q)}, hasSubqueryArgs args = false → bindArgs run outer args = .ok args
  | [], h => by rw [bindArgs]
  | e :: es, h => by
    rw [hasSubqueryArgs, Bool.or_eq_false_iff] at h
    rw [bindArgs, bindExpr_of_noSubquery outer h.1, bindArgs_of_noSubquery outer h.2]
    rfl

end

/-- Whether there are subqueries or not, the bound expression is evaluated. -/
theorem evalBound_eq (ctx : List Scope) (e : ExecExpr Q) :
    evalBound ops run ctx e = (do
      let bound ← bindExpr run ctx e
      eval ops ctx bound) := by
  rw [evalBound]
  split_ifs with h
  · rfl
  · rw [bindExpr_of_noSubquery ctx (Bool.eq_false_iff.mpr h)]
    rfl

variable {ctx : List Scope} {op : BinOp} {l r : ExecExpr Q} {a b : Value}

/-- Operands that have values give their operator's value. -/
theorem eval_binary (hl : eval ops ctx l = .ok a)
    (hr : eval ops ctx r = .ok b) : eval ops ctx (.binary op l r) = evalBinary ops op a b := by
  rw [eval, bind_of_ok _ hl, bind_of_ok _ hr]

/-- The same with subqueries in the operands. -/
theorem evalBound_binary (hl : evalBound ops run ctx l = .ok a)
    (hr : evalBound ops run ctx r = .ok b) :
    evalBound ops run ctx (.binary op l r) = evalBinary ops op a b := by
  rw [evalBound_eq] at hl hr ⊢
  rcases ok_of_bind hl with ⟨l', hl', hl⟩
  rcases ok_of_bind hr with ⟨r', hr', hr⟩
  rw [bindExpr, bind_of_ok _ hl', bind_of_ok _ hr']
  exact eval_binary hl hr

/-- An operator has a value only if both operands have. -/
theorem operands_of_evalBound {v : Value} (h : evalBound ops run ctx (.binary op l r) = .ok v) :
    (∃ a, evalBound ops run ctx l = .ok a) ∧ ∃ b, evalBound ops run ctx r = .ok b := by
  rw [evalBound_eq, bindExpr] at h
  rcases ok_of_bind h with ⟨bound, hbound, h⟩
  rcases ok_of_bind hbound with ⟨l', hl', hbound⟩
  rcases ok_of_bind hbound with ⟨r', hr', hbound⟩
  cases hbound
  rw [eval] at h
  rcases ok_of_bind h with ⟨a, ha, h⟩
  rcases ok_of_bind h with ⟨b, hb, -⟩
  rw [evalBound_eq, evalBound_eq, bind_of_ok _ hl', bind_of_ok _ hr']
  exact ⟨⟨a, ha⟩, b, hb⟩

end Evaluator

end ChibiDb.Sql
