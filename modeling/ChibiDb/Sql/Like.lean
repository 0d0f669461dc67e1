import Mathlib.Tactic

/-!
# LIKE

A pattern is compiled to tokens and run over the text with a table: one row for
each character read, with an entry for each number of tokens that says whether
those tokens match what was read. Only the last row is kept.

## Main definitions

* `compileLike`, `likeMatch`: The source's matcher.
* `Like`: A way to split the text along the pattern.
* `EndsInEscape`: The pattern ends with an escape character that escapes nothing.

## Theorems

* `compileLike_spec`: What the tokens stand for.
* `rowLoop_spec`: One row of the table.
* `likeMatch_spec`: The matcher decides `Like`.
-/

namespace ChibiDb.Sql

open List

/-- A piece of a pattern: any characters, one character, or this one. -/
inductive LikeTok where
  | any
  | one
  | lit (c : Char)

/-- The pieces of a pattern. -/
def compileLike (escape : Option Char) : List Char → Except String (List LikeTok)
  | [] => .ok []
  | c :: p =>
    if some c = escape then match p with
      | [] => .error "LIKE pattern ends with the escape character"
      | d :: p => (compileLike escape p).map (fun toks => .lit d :: toks)
    else if c = '%' then (compileLike escape p).map (fun toks => .any :: toks)
    else if c = '_' then (compileLike escape p).map (fun toks => .one :: toks)
    else (compileLike escape p).map (fun toks => .lit c :: toks)

/-- The first row, behind its first entry: only percent signs match nothing. -/
def firstRow : List LikeTok → List Bool
  | .any :: toks => true :: firstRow toks
  | toks => toks.map (fun _ => false)

/-- A row for the character `c`, from the one before. `left` is the entry before. -/
def rowLoop (c : Char) (left : Bool) : List LikeTok → List Bool → List Bool
  | t :: toks, p₀ :: p₁ :: prev =>
    let entry := match t with
      | .any => left || p₁
      | .one => p₀
      | .lit d => p₀ && c == d
    entry :: rowLoop c entry toks (p₁ :: prev)
  | _, _ => []

/-- Whether a text matches a pattern: a table with a row for each character. -/
def likeMatch (pattern text : String) (escape : Option Char) : Except String Bool := do
  let toks ← compileLike escape pattern.toList
  let last := text.toList.foldl (fun prev c => false :: rowLoop c false toks prev)
    (true :: firstRow toks)
  return last.getD toks.length false

/-- The text can be split along the pattern: a percent sign takes any run of
    characters, an underscore one, and other and escaped characters themselves. -/
def Like (escape : Option Char) : List Char → List Char → Prop
  | [], text => text = []
  | c :: p, text =>
    if some c = escape then match p with
      | [] => False
      | d :: p => ∃ rest, text = d :: rest ∧ Like escape p rest
    else if c = '%' then ∃ run rest, text = run ++ rest ∧ Like escape p rest
    else if c = '_' then ∃ rest d, text = d :: rest ∧ Like escape p rest
    else ∃ rest, text = c :: rest ∧ Like escape p rest

/-- Read from the left, the pattern ends with an escape character that is not escaped itself. -/
def EndsInEscape (escape : Option Char) : List Char → Prop
  | [] => False
  | c :: p =>
    if some c = escape then match p with
      | [] => True
      | _ :: p => EndsInEscape escape p
    else EndsInEscape escape p

/-- What a token takes. -/
def LikeTok.Takes : LikeTok → List Char → Prop
  | .any, _ => True
  | .one, run => ∃ c, run = [c]
  | .lit c, run => run = [c]

/-- The text can be split along the tokens. -/
def Matches : List LikeTok → List Char → Prop
  | [], text => text = []
  | t :: toks, text => ∃ run rest, text = run ++ rest ∧ t.Takes run ∧ Matches toks rest

variable {escape : Option Char} {text : List Char} {toks done : List LikeTok} {c : Char}
  {row : List Bool}

/-- The tokens of a pattern stand for it, and it is refused only for its end. -/
def Compiles (escape : Option Char) (p : List Char) : Prop :=
  (EndsInEscape escape p →
    compileLike escape p = .error "LIKE pattern ends with the escape character") ∧
  (¬ EndsInEscape escape p → ∃ toks, compileLike escape p = .ok toks ∧
    ∀ text, Matches toks text ↔ Like escape p text)

theorem Compiles.cons {p p' : List Char} (t : LikeTok) (h : Compiles escape p)
    (hcompile : compileLike escape p' = (compileLike escape p).map (fun toks => t :: toks))
    (hends : EndsInEscape escape p' ↔ EndsInEscape escape p)
    (hlike : ∀ text, Like escape p' text ↔
      ∃ run rest, text = run ++ rest ∧ t.Takes run ∧ Like escape p rest) :
    Compiles escape p' := by
  unfold Compiles
  rw [hends, hcompile]
  refine ⟨fun he => by rw [h.1 he]; rfl, fun hne => ?_⟩
  rcases h.2 hne with ⟨toks, htoks, hspec⟩
  refine ⟨t :: toks, by rw [htoks]; rfl, fun text => ?_⟩
  simp only [Matches, hspec, hlike]

theorem compileLike_spec (escape : Option Char) (p : List Char) : Compiles escape p := by
  fun_induction compileLike escape p with
  | case1 => exact ⟨False.elim, fun _ => ⟨[], rfl, fun _ => Iff.rfl⟩⟩
  | case2 c => simp [Compiles, compileLike, EndsInEscape, *]
  | case3 c h d p ih =>
    exact ih.cons (.lit d) (by simp [compileLike, h]) (by simp [EndsInEscape, h])
      (by simp [Like, h, LikeTok.Takes])
  | case4 p h ih =>
    exact ih.cons .any (by simp [compileLike.eq_def escape ('%' :: p), h])
      (by simp [EndsInEscape.eq_def escape ('%' :: p), h])
      (by simp [Like.eq_def escape ('%' :: p), h, LikeTok.Takes])
  | case5 p h _ ih =>
    exact ih.cons .one (by simp [compileLike.eq_def escape ('_' :: p), h])
      (by simp [EndsInEscape.eq_def escape ('_' :: p), h])
      (by simp [Like.eq_def escape ('_' :: p), h, LikeTok.Takes])
  | case6 c p h hany hone ih =>
    exact ih.cons (.lit c) (by simp [compileLike.eq_def escape (c :: p), h, hany, hone])
      (by simp [EndsInEscape.eq_def escape (c :: p), h])
      (by simp [Like.eq_def escape (c :: p), h, hany, hone, LikeTok.Takes])

/-! ### The table -/

/-- The last token takes an end of the text. -/
theorem matches_snoc (t : LikeTok) :
    Matches (toks ++ [t]) text ↔
      ∃ rest run, text = rest ++ run ∧ Matches toks rest ∧ t.Takes run := by
  induction toks generalizing text with
  | nil => simp [Matches]
  | cons u toks ih =>
    simp only [cons_append, Matches, ih]
    constructor
    · rintro ⟨a, _, rfl, hu, b, run, rfl, hb, ht⟩
      exact ⟨a ++ b, run, by simp, ⟨a, b, rfl, hu, hb⟩, ht⟩
    · rintro ⟨_, run, rfl, ⟨a, b, rfl, hu, hb⟩, ht⟩
      exact ⟨a, b ++ run, by simp, hu, b, run, rfl, hb, ht⟩

/-- The entries of a row for the text read so far, from those of `done` on. -/
def RowOf (text : List Char) : List LikeTok → List LikeTok → List Bool → Prop
  | done, [], row => ∃ p, row = [p] ∧ (p = true ↔ Matches done text)
  | done, t :: toks, row => ∃ p prev, row = p :: prev ∧ (p = true ↔ Matches done text) ∧
      RowOf text (done ++ [t]) toks prev

theorem head_rowOf (h : RowOf text done toks row) :
    ∃ p prev, row = p :: prev ∧ (p = true ↔ Matches done text) := by
  cases toks with
  | nil =>
    rcases h with ⟨p, rfl, hp⟩
    exact ⟨p, [], rfl, hp⟩
  | cons =>
    rcases h with ⟨p, prev, rfl, hp, _⟩
    exact ⟨p, prev, rfl, hp⟩

theorem getD_rowOf (h : RowOf text done toks row) :
    row.getD toks.length false = true ↔ Matches (done ++ toks) text := by
  induction toks generalizing done row with
  | nil =>
    rcases h with ⟨p, rfl, hp⟩
    simpa using hp
  | cons t toks ih =>
    rcases h with ⟨p, prev, rfl, _, hprev⟩
    simpa using ih hprev

/-- Behind a token that is not a percent sign nothing matches the empty text. -/
theorem rowOf_false (h : ¬ Matches done []) (toks : List LikeTok) :
    RowOf [] done toks (false :: toks.map (fun _ => false)) := by
  induction toks generalizing done with
  | nil => exact ⟨false, rfl, by simpa using h⟩
  | cons t toks ih =>
    refine ⟨false, _, rfl, by simpa using h, ih ?_⟩
    rw [matches_snoc]
    rintro ⟨rest, run, heq, hrest, _⟩
    rw [(nil_eq_append_iff.mp heq).1] at hrest
    exact h hrest

theorem rowOf_firstRow (h : Matches done []) (toks : List LikeTok) :
    RowOf [] done toks (true :: firstRow toks) := by
  induction toks generalizing done with
  | nil => exact ⟨true, rfl, by simpa using h⟩
  | cons t toks ih =>
    cases t with
    | any =>
      refine ⟨true, _, rfl, by simpa using h, ih ?_⟩
      exact (matches_snoc .any).mpr ⟨[], [], rfl, h, trivial⟩
    | one | lit =>
      refine ⟨true, _, rfl, by simpa using h, rowOf_false ?_ toks⟩
      simp [matches_snoc, LikeTok.Takes]

theorem rowLoop_spec {left : Bool} (h : RowOf text done toks row)
    (hleft : left = true ↔ Matches done (text ++ [c])) :
    RowOf (text ++ [c]) done toks (left :: rowLoop c left toks row) := by
  induction toks generalizing done left row with
  | nil =>
    rcases h with ⟨p, rfl, _⟩
    exact ⟨left, rfl, hleft⟩
  | cons t toks ih =>
    rcases h with ⟨p, _, rfl, hp, hprev⟩
    rcases head_rowOf hprev with ⟨p₁, prev, rfl, hp₁⟩
    refine ⟨left, _, rfl, hleft, ih hprev ?_⟩
    cases t with
    | any =>
      -- the percent sign takes nothing, or the character as well
      rw [matches_snoc, Bool.or_eq_true, hleft, hp₁, matches_snoc]
      constructor
      · rintro (h | ⟨rest, run, rfl, h, _⟩)
        · exact ⟨text ++ [c], [], by simp, h, trivial⟩
        · exact ⟨rest, run ++ [c], by simp, h, trivial⟩
      · rintro ⟨rest, run, heq, h, _⟩
        rcases eq_nil_or_concat run with rfl | ⟨run, d, rfl⟩
        · rw [append_nil] at heq
          exact .inl (heq ▸ h)
        · rw [concat_eq_append, ← append_assoc] at heq
          exact .inr ⟨rest, run, (append_inj' heq rfl).1, h, trivial⟩
    | one => simp [matches_snoc, hp, LikeTok.Takes]
    | lit d => simp [matches_snoc, hp, LikeTok.Takes, and_comm]

/-- The matcher returns an error if the pattern ends with an escape character that
    escapes nothing, and otherwise whether the text can be split along it. -/
theorem likeMatch_spec (pattern text : String) (escape : Option Char) :
    (EndsInEscape escape pattern.toList → likeMatch pattern text escape =
      .error "LIKE pattern ends with the escape character") ∧
    (¬ EndsInEscape escape pattern.toList → ∃ b, likeMatch pattern text escape = .ok b ∧
      (b = true ↔ Like escape pattern.toList text.toList)) := by
  rcases compileLike_spec escape pattern.toList with ⟨herr, hok⟩
  unfold likeMatch
  refine ⟨fun h => by rw [herr h]; rfl, fun h => ?_⟩
  rcases hok h with ⟨toks, htoks, hspec⟩
  refine ⟨_, by rw [htoks]; rfl, ?_⟩
  have hrow : RowOf text.toList [] toks (text.toList.foldl
      (fun prev c => false :: rowLoop c false toks prev) (true :: firstRow toks)) := by
    generalize text.toList = cs
    induction cs using List.reverseRecOn with
    | nil => exact rowOf_firstRow (show Matches [] [] from rfl) toks
    | append_singleton cs c ih =>
      rw [foldl_append]
      exact rowLoop_spec ih (by simp [Matches])
  rw [← hspec, getD_rowOf hrow, nil_append]

end ChibiDb.Sql
