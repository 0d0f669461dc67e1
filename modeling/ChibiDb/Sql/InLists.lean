import ChibiDb.Sql.Eval

/-!
# IN Lists and IN Subqueries

A list is written out by the parser as a disjunction of equalities, or as a conjunction
of inequalities for NOT IN. A subquery is bound to a disjunction of equalities with the
values it returned, which NOT IN negates. Both mean membership in the three-valued logic
of SQL, whatever the order of the elements.

## Main definitions

* `finishIn`: The parser's expansion of a list.
* `member`, `negateIf`: Membership in three-valued logic.

## Theorems

* `compare_member`: Values of one kind compare as the elements of a list of one.
* `fold_member`: A comparison more, an element more.
* `in_member`: Both expansions mean membership.
-/

namespace ChibiDb.Sql

open List

/-- The parser's expansion of a list, of which `item` is the first. -/
def finishIn {Q : Type} (lhs : ExecExpr Q) (negated : Bool) (item : ExecExpr Q)
    (items : List (ExecExpr Q)) : ExecExpr Q :=
  let fold := if negated then BinOp.and else BinOp.or
  let cmp := if negated then BinOp.notEq else BinOp.eq
  items.foldl (fun acc item => .binary fold acc (.binary cmp lhs item)) (.binary cmp lhs item)

/-- Membership: true if an element is equal, else unknown if NULL is involved. -/
def member (v : Value) (xs : List Value) : Option Bool :=
  if v ≠ .null ∧ v ∈ xs then some true
  else if v = .null ∨ .null ∈ xs then none
  else some false

/-- A truth value or its negation. -/
def negateIf (negated : Bool) (t : Option Bool) : Option Bool := if negated then t.map not else t

section

variable {Q : Type} {ops : EvalOps Q}
  {run : Q → List Scope → Except String (List String × List Row)} {ctx : List Scope}
  {v x : Value} {xs : List Value} {k : Kind}

/-- A value is in a list if it is in a part of it. -/
theorem member_append (v : Value) (xs ys : List Value) :
    member v (xs ++ ys) = either (member v xs) (member v ys) := by
  simp only [member, either, mem_append]
  split_ifs <;> simp_all

/-- The operator that joins two comparisons, on truth values that may be negated. -/
theorem evalBinary_negateIf (negated : Bool) (a b : Option Bool) :
    evalBinary ops (if negated then .and else .or) (truth (negateIf negated a))
        (truth (negateIf negated b)) = .ok (truth (negateIf negated (either a b))) := by
  cases negated with
  | false => exact evalBinary_either ops a b
  | true =>
    refine (evalBinary_both ops _ _).trans ?_
    rcases a with _ | _ | _ <;> rcases b with _ | _ | _ <;> rfl

/-- Values of one kind compare as the elements of a list of one. -/
theorem compare_member (hv : v = .null ∨ Kind.of v = some k)
    (hx : x = .null ∨ Kind.of x = some k) (negated : Bool) :
    evalBinary ops (if negated then .notEq else .eq) v x =
      .ok (truth (negateIf negated (member v [x]))) := by
  have hop : evalBinary ops (if negated then .notEq else .eq) v x =
      compare ops (if negated then .notEq else .eq) v x := by
    cases negated <;> rfl
  rw [hop, compare]
  rcases hv with rfl | hv
  · cases negated <;> simp [member, negateIf, truth]
  rcases hx with rfl | hx
  · cases negated <;> simp [member, negateIf, truth]
  have hnv : v ≠ .null := by
    rintro rfl
    cases hv
  have hnx : x ≠ .null := by
    rintro rfl
    cases hx
  rcases cmpValues_rank ops.toFloatOps hv hx with ⟨hcmp, hinj⟩
  rw [if_neg (not_or.mpr ⟨hnv, hnx⟩), hcmp]
  -- Ranks are equal exactly if the values are.
  by_cases heq : v = x
  · rw [heq, (compare_eq_eq (lt_irrefl _)).mpr rfl]
    cases negated <;> simp [member, negateIf, truth, hnx, Except.map, BinOp.holds]
  · have hne : compareOfLessAndEq (rank v) (rank x) ≠ .eq :=
      fun h => heq (hinj ((compare_eq_eq (lt_irrefl _)).mp h))
    generalize compareOfLessAndEq (rank v) (rank x) = o at hne
    cases o <;> cases negated <;>
      first
        | exact absurd rfl hne
        | simp [member, negateIf, truth, hnv, hnx.symm, heq, Except.map, BinOp.holds]

/-- An evaluator that evaluates both operands first. -/
def Eager (ops : EvalOps Q) (ev : ExecExpr Q → Except String Value) : Prop :=
  ∀ {op : BinOp} {l r : ExecExpr Q} {a b : Value}, ev l = .ok a → ev r = .ok b →
    ev (.binary op l r) = evalBinary ops op a b

variable {ev : ExecExpr Q → Except String Value} {lhs : ExecExpr Q} {negated : Bool}

/-- A comparison more, an element more: `ys` are the elements so far. -/
theorem fold_member (hev : Eager ops ev) (hlhs : ev lhs = .ok v)
    (hv : v = .null ∨ Kind.of v = some k) {acc : ExecExpr Q} {items : List (ExecExpr Q)}
    {ys : List Value} (hitems : Forall₂ (fun e x => ev e = .ok x) items xs)
    (hxs : ∀ x ∈ xs, x = .null ∨ Kind.of x = some k)
    (hacc : ev acc = .ok (truth (negateIf negated (member v ys)))) :
    ev (items.foldl (fun acc item => .binary (if negated then .and else .or) acc
        (.binary (if negated then .notEq else .eq) lhs item)) acc) =
      .ok (truth (negateIf negated (member v (ys ++ xs)))) := by
  induction hitems generalizing acc ys with
  | nil => rwa [append_nil]
  | @cons item x items xs hitem _ ih =>
    rcases forall_mem_cons.mp hxs with ⟨hx, hxs⟩
    have hcmp : ev (.binary (if negated then .notEq else .eq) lhs item) =
        .ok (truth (negateIf negated (member v [x]))) :=
      (hev hlhs hitem).trans (compare_member hv hx negated)
    rw [append_cons]
    refine ih hxs ?_
    rw [member_append]
    exact (hev hacc hcmp).trans (evalBinary_negateIf negated _ _)

/-- The expansion of a list means membership. -/
theorem finishIn_member (hev : Eager ops ev) (hlhs : ev lhs = .ok v) {item : ExecExpr Q}
    {items : List (ExecExpr Q)} (hitems : Forall₂ (fun e x => ev e = .ok x) (item :: items) xs)
    (hkind : ∀ w ∈ v :: xs, w = .null ∨ Kind.of w = some k) :
    ev (finishIn lhs negated item items) = .ok (truth (negateIf negated (member v xs))) := by
  rcases forall_mem_cons.mp hkind with ⟨hv, hxs⟩
  cases hitems with
  | @cons _ x _ xs hitem hitems =>
    rcases forall_mem_cons.mp hxs with ⟨hx, hxs⟩
    exact fold_member hev hlhs hv hitems hxs ((hev hlhs hitem).trans (compare_member hv hx negated))

/-- A subquery that returned something is bound to the expansion of a list. -/
theorem bindIn_cons (inner : ExecExpr Q) (negated : Bool) (x : Value) (xs : List Value) :
    bindIn inner negated ((x :: xs).map fun x => [x]) =
      let folded := finishIn inner false (.value x) (xs.map .value)
      if negated then .unary .not folded else folded := by
  have hsome : ∀ acc, (xs.map fun x => [x]).foldl (fun acc row =>
      some (acc.elim (ExecExpr.binary .eq inner (.value (row.headD .null))) fun prev =>
        .binary .or prev (.binary .eq inner (.value (row.headD .null))))) (some acc) =
      some ((xs.map ExecExpr.value).foldl (fun acc item =>
        .binary .or acc (.binary .eq inner item)) acc) := by
    intro acc
    induction xs generalizing acc with
    | nil => rfl
    | cons _ _ ih => exact ih _
  simp only [bindIn, map_cons, foldl_cons, hsome]
  rfl

/-- What a subquery is bound to means membership. -/
theorem bindIn_member (hlhs : eval ops ctx lhs = .ok v)
    (hkind : ∀ w ∈ v :: x :: xs, w = .null ∨ Kind.of w = some k) :
    eval ops ctx (bindIn lhs negated ((x :: xs).map fun x => [x])) =
      .ok (truth (negateIf negated (member v (x :: xs)))) := by
  have hvalues : Forall₂ (fun e x => eval ops ctx e = .ok x)
      ((x :: xs).map ExecExpr.value) (x :: xs) := by
    rw [forall₂_map_left_iff]
    exact forall₂_same.mpr fun x _ => by rw [eval]
  have hfold : eval ops ctx (finishIn lhs false (.value x) (xs.map .value)) =
      .ok (truth (member v (x :: xs))) :=
    finishIn_member (fun hl hr => eval_binary hl hr) hlhs hvalues hkind
  rw [bindIn_cons]
  cases negated with
  | false => exact hfold
  | true =>
    simp only [if_true]
    rw [eval, bind_of_ok _ hfold]
    exact evalUnary_not ops _

/-- An IN list and an IN subquery mean membership, whatever the order in which the subquery
    returns the elements. -/
theorem in_member {item : ExecExpr Q} {items : List (ExecExpr Q)} {sub : Q} {col : String}
    {rows : List Value} (hlhs : evalBound ops run ctx lhs = .ok v)
    (hitems : Forall₂ (fun e x => evalBound ops run ctx e = .ok x) (item :: items) xs)
    (hkind : ∀ w ∈ v :: xs, w = .null ∨ Kind.of w = some k)
    (hrun : run sub ctx = .ok ([col], rows.map fun x => [x])) (hrows : rows.Perm xs)
    (negated : Bool) :
    evalBound ops run ctx (finishIn lhs negated item items) =
        .ok (truth (negateIf negated (member v xs))) ∧
      evalBound ops run ctx (.inSubquery lhs sub negated) =
        .ok (truth (negateIf negated (member v xs))) := by
  refine ⟨finishIn_member (fun hl hr => evalBound_binary hl hr) hlhs hitems hkind, ?_⟩
  have hmember : member v rows = member v xs := by simp only [member, hrows.mem_iff]
  rw [evalBound_eq] at hlhs ⊢
  rcases ok_of_bind hlhs with ⟨inner, hinner, hlhs⟩
  rw [bindExpr, bind_of_ok _ hinner, bind_of_ok _ hrun, ← hmember]
  cases rows with
  | nil =>
    cases hitems
    exact absurd hrows.length_eq (by simp)
  | cons y ys =>
    exact bindIn_member hlhs fun w hw => hkind w ((hrows.cons v).mem_iff.mp hw)

/-- For a column `a` that holds `1`, `a NOT IN (2, NULL)` is unknown, and so is NOT IN a
    subquery that returns NULL and `2`. -/
theorem in_member_unknown :
    let run := fun _ _ => .ok (["b"], [[.null], [.int 2]])
    let ctx := [Scope.row [⟨some "t", "a"⟩] [.int 1]]
    evalBound plainOps run ctx (finishIn (.column none "a") true (.value (.int 2)) [.value .null]) =
        .ok .null ∧
      evalBound plainOps run ctx (.inSubquery (.column none "a") () true) = .ok .null := by
  intro run ctx
  have hkind : ∀ w ∈ [Value.int 1, .int 2, .null], w = .null ∨ Kind.of w = some .int := by
    simp [Kind.of]
  have hlhs : evalBound plainOps run ctx (.column none "a") = .ok (.int 1) := rfl
  have hitems : Forall₂ (fun e x => evalBound plainOps run ctx e = .ok x)
      [.value (.int 2), .value .null] [.int 2, .null] := .cons rfl (.cons rfl .nil)
  exact in_member hlhs hitems hkind rfl (.swap ..) true

end

end ChibiDb.Sql
