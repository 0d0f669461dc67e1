import ChibiDb.Sql.Lexer

/-!
# String Literals Through the Lexer

A string `s` is written between quotes with its quotes and backslashes doubled,
and stands between two texts of tokens. The lexer should give the tokens of the
left text, one string token of value `s` at the opening quote, and the tokens of
the right text. It never does: the first reading has already run past the next
quote when the value is read, so the value is what follows that quote.

If `s` has no quote, that quote is the closing one: the value is taken from the
right text, whose first token is then lost. If it has one, the value starts at the
second half of a doubled quote, and either stops there or swallows the closing
quote.

## Main definitions

* `literal`: The text of a string.
* `TokenText`: A text of tokens and spaces, with its tokens.

## Theorems

* `TokenText.lexFrom`: The lexer reads the tokens of such a text off the front of
  any text it stands in.
* `literal_never_read`: No string literal is lexed to its value.
-/

namespace ChibiDb

open List Option

/-- Double the quotes and the backslashes of a string. -/
def escape : List Char → List Char
  | [] => []
  | c :: cs => if c = '\'' ∨ c = '\\' then c :: c :: escape cs else c :: escape cs

/-- A text as a literal of SQL. -/
def literal (s : List Char) : List Char := '\'' :: escape s ++ ['\'']

/-- A text of tokens, adjacent or separated by spaces, that stands at byte offset
    `n`, with its tokens. -/
inductive TokenText : Nat → List Char → List Token → Prop where
  | nil (n : Nat) : TokenText n [] []
  | space {n : Nat} {rest : List Char} {ts : List Token} :
      TokenText (n + 1) rest ts → TokenText n (' ' :: rest) ts
  | token {n m : Nat} {c : Char} {w rest : List Char} {kind : TokenKind} {ts : List Token} :
      nextItem c w = .token kind rest → m + byteLen rest = n + byteLen (c :: w) →
      TokenText m rest ts → TokenText n (c :: w) (⟨kind, n⟩ :: ts)

/-! ### What one round takes -/

@[simp] theorem byteLen_cons (c : Char) (cs : List Char) :
    byteLen (c :: cs) = c.utf8Size + byteLen cs := rfl

@[simp] theorem byteLen_append (a b : List Char) : byteLen (a ++ b) = byteLen a + byteLen b := by
  unfold byteLen
  rw [map_append, sum_append]

/-- A suffix is at most as long in bytes. -/
theorem byteLen_le {a b : List Char} (h : a <:+ b) : byteLen a ≤ byteLen b := by
  obtain ⟨_, rfl⟩ := h
  rw [byteLen_append]
  omega

theorem addChar_some {c : Char} {o : Option (List Char × List Char)} {v r : List Char}
    (h : addChar c o = some (v, r)) : ∃ v', v = c :: v' ∧ o = some (v', r) := by
  cases o with
  | none => simp [addChar] at h
  | some p =>
    cases h
    exact ⟨p.1, rfl, rfl⟩

variable {cs text : List Char} {n total : Nat} {r : Except LexError (List Token)} {t : Token}
  {ts us : List Token}

/-- What is left behind a string is a proper suffix of where it was read from. -/
theorem stringBody_suffix {v r : List Char} (h : stringBody cs = some (v, r)) :
    ∃ c rest, cs = c :: rest ∧ r <:+ rest := by
  induction cs using stringBody.induct generalizing v with
  | case3 _ hq =>
    rw [stringBody] at h
    · cases h
      exact ⟨_, _, rfl, suffix_refl r⟩
    · exact hq
  | case2 _ ih | case4 _ _ ih =>
    rw [stringBody] at h
    obtain ⟨v', -, hb⟩ := addChar_some h
    obtain ⟨d, tail, rfl, ht⟩ := ih hb
    exact ⟨_, _, rfl, (ht.trans (suffix_cons d tail)).trans (suffix_cons _ _)⟩
  | case6 c rest h1 h2 h3 h4 ih =>
    rw [stringBody.eq_6 c rest h1 h2 h3 h4] at h
    obtain ⟨_, -, hb⟩ := addChar_some h
    obtain ⟨d, tail, rfl, ht⟩ := ih hb
    exact ⟨_, _, rfl, ht.trans (suffix_cons d tail)⟩
  | _ => simp [stringBody] at h

theorem identBody_suffix {v r : List Char} (h : identBody cs = some (v, r)) : r <:+ cs := by
  induction cs using identBody.induct generalizing v with
  | case1 => simp [identBody] at h
  | case2 =>
    cases h
    exact nil_suffix
  | case3 _ hc => simp [identBody, hc] at h
  | case4 _ _ _ hc ih =>
    rw [identBody, if_pos hc] at h
    obtain ⟨v', -, hb⟩ := addChar_some h
    exact (ih hb).trans (suffix_cons _ _)
  | case5 _ _ hc ih =>
    rw [identBody, if_neg hc, if_pos rfl] at h
    obtain ⟨_, -, hb⟩ := addChar_some h
    exact ((ih hb).trans (suffix_cons _ _)).trans (suffix_cons _ _)
  | case6 _ _ _ hc hd =>
    rw [identBody, if_neg hc, if_neg hd] at h
    cases h
    exact suffix_cons _ _

theorem fraction_suffix (cs : List Char) : (fraction cs).2 <:+ cs := by
  unfold fraction
  split
  · rename_i d rest
    split
    · exact ((dropWhile_suffix _).trans (suffix_cons d rest)).trans (suffix_cons _ _)
    · exact suffix_refl _
  · exact suffix_refl _

theorem exponentSign_suffix (cs : List Char) : (exponentSign cs).2 <:+ cs := by
  unfold exponentSign
  split <;> simp

theorem exponent_suffix (cs : List Char) : (exponent cs).2 <:+ cs := by
  unfold exponent
  split
  · exact suffix_refl _
  rename_i e rest
  dsimp only
  split
  · exact ((dropWhile_suffix _).trans (exponentSign_suffix rest)).trans (suffix_cons e rest)
  · exact suffix_refl _

/-- What an item leaves of the text. -/
def LexItem.left : LexItem → Option (List Char)
  | .skip rest => some rest
  | .token _ rest => some rest
  | .fail _ => none

theorem lexNumber_suffix {c : Char} {rest left : List Char} (hc : c.isDigit = true)
    (h : (lexNumber (c :: rest)).left = some left) : left <:+ rest := by
  have hsuf : (exponent (fraction ((c :: rest).dropWhile Char.isDigit)).2).2 <:+ rest := by
    rw [dropWhile_cons_of_pos hc]
    exact ((exponent_suffix _).trans (fraction_suffix _)).trans (dropWhile_suffix _)
  unfold lexNumber at h
  dsimp only at h
  split at h
  · cases h
    exact hsuf
  split at h
  · cases h
    exact hsuf
  · simp [LexItem.left] at h

/-- A round takes at least the character it stands at. -/
theorem nextItem_suffix {c : Char} {rest left : List Char}
    (h : (nextItem c rest).left = some left) : left <:+ rest := by
  unfold nextItem at h
  split_ifs at h with h1 h2 h3 h4 h5 h6 h7 h8 h9 h10
  · cases h
    exact suffix_refl _
  · exact lexNumber_suffix h2 h
  · split at h
    · simp [LexItem.left] at h
    rename_i q behind hq
    split at h
    · simp [LexItem.left] at h
    rename_i v r hs
    cases h
    obtain ⟨d, tail, rfl, ht⟩ := stringBody_suffix hs
    have hdrop : q :: d :: tail <:+ rest := hq ▸ dropWhile_suffix _
    exact ((ht.trans (suffix_cons d tail)).trans (suffix_cons q _)).trans hdrop
  · split at h
    · simp [LexItem.left] at h
    · rename_i v r hs
      cases h
      exact identBody_suffix hs
  · cases h
    exact dropWhile_suffix _
  · cases h
    exact dropWhile_suffix _
  · cases h
    exact suffix_refl _
  · split at h <;> cases h
    · exact suffix_cons _ _
    · exact suffix_cons _ _
    · exact suffix_refl _
  · split at h <;> cases h
    · exact suffix_cons _ _
    · exact suffix_refl _
  · split at h <;> cases h
    exact suffix_cons _ _
  · split at h <;> cases h
    exact suffix_refl _

/-! ### The loop without its count of rounds -/

/-- More rounds than characters change nothing. -/
theorem lexLoop_enough (total : Nat) (h : cs.length ≤ n) :
    lexLoop total n cs = lexLoop total cs.length cs := by
  induction n using Nat.strong_induction_on generalizing cs with
  | _ n ih =>
    cases cs with
    | nil => cases n <;> rfl
    | cons c rest =>
      obtain ⟨m, rfl⟩ : ∃ m, n = m + 1 := ⟨n - 1, by simp only [length_cons] at h; omega⟩
      simp only [length_cons, Nat.add_le_add_iff_right] at h
      -- Both counts cover what the round leaves, so both loops go on as one of its length.
      have hleft : ∀ left, (nextItem c rest).left = some left →
          lexLoop total m left = lexLoop total rest.length left := by
        intro left hl
        have hlen : left.length ≤ rest.length := (nextItem_suffix hl).length_le
        rw [ih m (by omega) (hlen.trans h), ih rest.length (by omega) hlen]
      rw [length_cons, lexLoop, lexLoop]
      cases hi : nextItem c rest with
      | skip left => exact hleft left (by rw [hi]; rfl)
      | token _ left => exact congrArg (addToken _) (hleft left (by rw [hi]; rfl))
      | fail => rfl

/-- The loop with enough rounds, over a text of `total` bytes. -/
def lexFrom (total : Nat) (cs : List Char) : Except LexError (List Token) :=
  lexLoop total cs.length cs

theorem lexFrom_cons (total : Nat) (c : Char) (rest : List Char) :
    lexFrom total (c :: rest) = match nextItem c rest with
      | .skip left => lexFrom total left
      | .token kind left =>
        addToken ⟨kind, total - byteLen (c :: rest)⟩ (lexFrom total left)
      | .fail error => .error (error (total - byteLen (c :: rest))) := by
  rw [lexFrom, length_cons, lexLoop]
  cases hi : nextItem c rest with
  | skip => exact lexLoop_enough total (nextItem_suffix (by rw [hi]; rfl)).length_le
  | token =>
    exact congrArg (addToken _)
      (lexLoop_enough total (nextItem_suffix (by rw [hi]; rfl)).length_le)
  | fail => rfl

theorem lexFrom_skip {c : Char} {rest left : List Char} (h : nextItem c rest = .skip left) :
    lexFrom total (c :: rest) = lexFrom total left := by
  rw [lexFrom_cons, h]

theorem lexFrom_token {c : Char} {rest left : List Char} {kind : TokenKind}
    (h : nextItem c rest = .token kind left) : lexFrom total (c :: rest) =
      addToken ⟨kind, total - byteLen (c :: rest)⟩ (lexFrom total left) := by
  rw [lexFrom_cons, h]

theorem addToken_ok (h : addToken t r = .ok ts) : ∃ us, ts = t :: us ∧ r = .ok us := by
  cases r with
  | error => simp [addToken] at h
  | ok us =>
    cases h
    exact ⟨us, rfl, rfl⟩

/-- No token stands before the text it is read from. -/
theorem lexLoop_pos (h : lexLoop total n cs = .ok ts) : ∀ t ∈ ts, total - byteLen cs ≤ t.pos := by
  induction n generalizing cs ts with
  | zero =>
    have hts : ts = [] := by cases cs <;> exact (Except.ok.inj h).symm
    simp [hts]
  | succ _ ih =>
    cases cs with
    | nil =>
      cases h
      simp
    | cons c rest =>
      have hle : ∀ left, (nextItem c rest).left = some left →
          byteLen left ≤ byteLen (c :: rest) := by
        intro left hl
        exact byteLen_le ((nextItem_suffix hl).trans (suffix_cons c rest))
      rw [lexLoop] at h
      cases hi : nextItem c rest with
      | skip left =>
        rw [hi] at h
        intro t ht
        have := ih h t ht
        have := hle left (by rw [hi]; rfl)
        omega
      | token _ left =>
        rw [hi] at h
        obtain ⟨_, rfl, hus⟩ := addToken_ok h
        intro t ht
        rcases mem_cons.mp ht with rfl | ht
        · exact Nat.le_refl _
        · have := ih hus t ht
          have := hle left (by rw [hi]; rfl)
          omega
      | fail =>
        rw [hi] at h
        cases h

/-! ### Tokens in front of a space -/

/-- A text that ends a token which stands before it. -/
def Stops (rest : List Char) : Prop := ∀ c ∈ rest.head?, c = ' '

theorem stops_cons (rest : List Char) : Stops (' ' :: rest) := by
  intro _ hc
  exact (some.inj hc).symm

theorem Stops.cases {rest : List Char} (h : Stops rest) :
    rest = [] ∨ ∃ tail, rest = ' ' :: tail := by
  cases rest with
  | nil => exact .inl rfl
  | cons c tail => exact .inr ⟨tail, by rw [h c rfl]⟩

section Append

variable {Y : List Char} (hY : Stops Y)

include hY

theorem span_append {p : Char → Bool} (hp : p ' ' = false) (cs : List Char) :
    (cs ++ Y).takeWhile p = cs.takeWhile p ∧ (cs ++ Y).dropWhile p = cs.dropWhile p ++ Y := by
  induction cs with
  | nil => rcases hY.cases with rfl | ⟨_, rfl⟩ <;> simp [hp]
  | cons c _ ih => cases hc : p c <;> simp [hc, ih]

theorem stringBody_append {v r : List Char} (h : stringBody cs = some (v, r)) :
    stringBody (cs ++ Y) = some (v, r ++ Y) := by
  induction cs using stringBody.induct generalizing v with
  | case1 | case5 => simp [stringBody] at h
  | case2 _ ih | case4 _ _ ih =>
    rw [stringBody] at h
    obtain ⟨v', rfl, hb⟩ := addChar_some h
    simp [stringBody, ih hb, addChar]
  | case3 rest hq =>
    rw [stringBody] at h
    · cases h
      rw [cons_append, stringBody]
      intro tail ht
      cases v' : r with
      | nil =>
        rw [v', nil_append] at ht
        cases hY '\'' (by rw [ht]; rfl)
      | cons _ rest =>
        rw [v', cons_append] at ht
        cases ht
        exact hq rest v'
    · exact hq
  | case6 c rest h1 h2 h3 h4 ih =>
    rw [stringBody.eq_6 c rest h1 h2 h3 h4] at h
    obtain ⟨_, rfl, hb⟩ := addChar_some h
    obtain ⟨d, tail, rfl, -⟩ := stringBody_suffix hb
    have hc : c ≠ '\\' := fun hc => h3 d tail hc rfl
    rw [cons_append, stringBody.eq_6 c _ (fun _ hq _ => h2 hq) h2
      (fun _ _ hb _ => hc hb) (fun hb _ => hc hb), ih hb]
    rfl

theorem identBody_append {v r : List Char} (h : identBody cs = some (v, r)) :
    identBody (cs ++ Y) = some (v, r ++ Y) := by
  induction cs using identBody.induct generalizing v with
  | case1 => simp [identBody] at h
  | case2 =>
    cases h
    rcases hY.cases with rfl | ⟨_, rfl⟩
    · rfl
    · simp [identBody, show ' ' ≠ backtick by decide]
  | case3 _ hc => simp [identBody, hc] at h
  | case4 _ _ _ hc ih =>
    rw [identBody, if_pos hc] at h
    obtain ⟨v', rfl, hb⟩ := addChar_some h
    rw [cons_append, cons_append, identBody, if_pos hc, ← cons_append, ih hb]
    rfl
  | case5 _ _ hc ih =>
    rw [identBody, if_neg hc, if_pos rfl] at h
    obtain ⟨_, rfl, hb⟩ := addChar_some h
    rw [cons_append, cons_append, identBody, if_neg hc, if_pos rfl, ih hb]
    rfl
  | case6 _ _ _ hc hd =>
    rw [identBody, if_neg hc, if_neg hd] at h
    cases h
    rw [cons_append, cons_append, identBody, if_neg hc, if_neg hd]

theorem fraction_append (cs : List Char) :
    fraction (cs ++ Y) = ((fraction cs).1, (fraction cs).2 ++ Y) := by
  by_cases hdot : ∃ d rest, cs = '.' :: d :: rest
  · obtain ⟨d, rest, rfl⟩ := hdot
    obtain ⟨ht, hd⟩ := span_append hY (show Char.isDigit ' ' = false by decide) rest
    simp only [cons_append, fraction, ht, hd]
    split <;> rfl
  · have hcs : fraction cs = ([], cs) := by
      unfold fraction
      split
      · rename_i d rest
        exact absurd ⟨d, rest, rfl⟩ hdot
      · rfl
    rw [hcs]
    unfold fraction
    split
    · -- Only a dot at the very end can have gained a character behind it, and that is a space.
      rename_i d rest heq
      rcases cs with _ | ⟨_, _ | ⟨_, cs⟩⟩
      · cases hY '.' (by rw [← nil_append Y, heq]; rfl)
      · have hrest : Y = d :: rest := (cons.inj heq).2
        have hd : d = ' ' := hY d (by rw [hrest]; rfl)
        subst hd
        rw [if_neg (by decide), heq]
      · cases heq
        exact absurd ⟨d, cs, rfl⟩ hdot
    · rfl

theorem exponentSign_append (cs : List Char) :
    exponentSign (cs ++ Y) = ((exponentSign cs).1, (exponentSign cs).2 ++ Y) := by
  cases cs with
  | nil => rcases hY.cases with rfl | ⟨_, rfl⟩ <;> rfl
  | cons =>
    unfold exponentSign
    split <;> split <;> simp_all

theorem exponent_append (cs : List Char) :
    exponent (cs ++ Y) = ((exponent cs).1, (exponent cs).2 ++ Y) := by
  cases cs with
  | nil => rcases hY.cases with rfl | ⟨_, rfl⟩ <;> simp [exponent]
  | cons _ rest =>
    have hdigit : ∀ ds : List Char, ((ds ++ Y).head?.any Char.isDigit) =
        ds.head?.any Char.isDigit := by
      intro ds
      cases ds with
      | nil => rcases hY.cases with rfl | ⟨_, rfl⟩ <;> rfl
      | cons => rfl
    obtain ⟨ht, hd⟩ := span_append hY (show Char.isDigit ' ' = false by decide)
      (exponentSign rest).2
    simp only [cons_append, exponent, exponentSign_append hY, hdigit, ht, hd]
    split <;> rfl

theorem lexNumber_append {rest : List Char} {kind : TokenKind}
    (h : lexNumber cs = .token kind rest) : lexNumber (cs ++ Y) = .token kind (rest ++ Y) := by
  obtain ⟨ht, hd⟩ := span_append hY (show Char.isDigit ' ' = false by decide) cs
  unfold lexNumber at h ⊢
  simp only [ht, hd, fraction_append hY, exponent_append hY] at h ⊢
  split_ifs at h ⊢ with h1 h2
  · cases h
    rfl
  · cases h
    rfl

theorem nextItem_append {c : Char} {w rest : List Char} {kind : TokenKind}
    (h : nextItem c w = .token kind rest) : nextItem c (w ++ Y) = .token kind (rest ++ Y) := by
  unfold nextItem at h ⊢
  split_ifs at h ⊢ with h1 h2 h3 h4 h5 h6 h7 h7' h8 h9 h10
  · exact lexNumber_append hY h
  · split at h
    · cases h
    rename_i q behind hq
    rw [dropWhile_append, hq]
    split at h
    · cases h
    · rename_i v r hs
      cases h
      simp [stringBody_append hY hs]
  · split at h
    · cases h
    · rename_i name left hi
      cases h
      rw [identBody_append hY hi]
  · cases h
    obtain ⟨ht, hd⟩ := span_append hY (show isIdentChar ' ' = false by decide) w
    rw [ht, hd]
  -- What a token of one or two characters looks at is its own, or the space behind it.
  · cases h
    rcases hY.cases with rfl | ⟨Z, rfl⟩ <;> cases w <;> simp_all
  · cases h
    rfl
  · rcases w with _ | ⟨e, w⟩
    · cases h
      rcases hY.cases with rfl | ⟨_, rfl⟩ <;> rfl
    split at h <;> cases h
    · rename_i heq
      cases heq
      rfl
    · rename_i heq
      cases heq
      rfl
    rename_i hne hne'
    rw [cons_append]
    split
    · rename_i heq
      cases heq
      exact absurd rfl (hne w)
    · rename_i heq
      cases heq
      exact absurd rfl (hne' w)
    · rfl
  · rcases w with _ | ⟨_, w⟩
    · cases h
      rcases hY.cases with rfl | ⟨_, rfl⟩ <;> rfl
    split at h <;> cases h
    · rename_i heq
      cases heq
      rfl
    rename_i hne
    rw [cons_append]
    split
    · rename_i heq
      cases heq
      exact absurd rfl (hne w)
    · rfl
  · split at h <;> cases h
    rfl
  · split at h
    · cases h
      rfl
    · cases h

end Append

/-- Put tokens in front of those that follow. -/
def addTokens (ts : List Token) (r : Except LexError (List Token)) :
    Except LexError (List Token) :=
  ts.foldr addToken r

theorem addTokens_ok (h : addTokens ts r = .ok (ts ++ us)) : r = .ok us := by
  induction ts with
  | nil => exact h
  | cons _ ts ih =>
    obtain ⟨_, hvs, hr⟩ := addToken_ok (r := addTokens ts r) h
    cases hvs
    exact ih hr

/-- By induction on the text: each token is read as if nothing but itself stood there. -/
theorem TokenText.lexFrom {Y : List Char} (h : TokenText n text ts) (hY : Stops Y)
    (htotal : total = n + byteLen (text ++ Y)) :
    lexFrom total (text ++ Y) = addTokens ts (lexFrom total Y) := by
  induction h with
  | nil => rfl
  | @space _ rest _ _ ih =>
    have hsp : Char.utf8Size ' ' = 1 := by decide
    rw [cons_append, byteLen_cons, hsp] at htotal
    rw [cons_append, lexFrom_skip
      (show nextItem ' ' (rest ++ Y) = .skip (rest ++ Y) by simp [nextItem])]
    exact ih (by omega)
  | @token n m c w rest _ _ hitem _ _ ih =>
    have hpos : total - byteLen (c :: (w ++ Y)) = n := by
      rw [htotal, cons_append]
      omega
    have hrest : total = m + byteLen (rest ++ Y) := by
      rw [htotal, byteLen_append, byteLen_append]
      omega
    rw [cons_append, lexFrom_token (nextItem_append hY hitem), hpos, ih hrest]
    rfl

/-! ### The value that is read -/

theorem escape_append (a b : List Char) : escape (a ++ b) = escape a ++ escape b := by
  induction a with
  | nil => rfl
  | cons _ _ ih =>
    simp only [cons_append, escape, ih]
    split <;> rfl

/-- The first reading stops at the first quote of the string, or at the closing one. -/
theorem dropWhile_escape {u rest : List Char} (hu : '\'' ∉ u) :
    (escape u ++ '\'' :: rest).dropWhile (fun d => decide (d ≠ '\'')) = '\'' :: rest := by
  induction u with
  | nil => simp [escape]
  | cons c u ih =>
    have hc : c ≠ '\'' := fun h => hu (by rw [h]; exact mem_cons_self)
    have hu' : '\'' ∉ u := fun h => hu (mem_cons_of_mem c h)
    have hstep : ∀ cs : List Char, (c :: cs).dropWhile (fun d => decide (d ≠ '\'')) =
        cs.dropWhile (fun d => decide (d ≠ '\'')) := by
      simp [hc]
    rw [escape]
    split
    · rw [cons_append, cons_append, hstep, hstep, ih hu']
    · rw [cons_append, hstep, ih hu']

/-- Read from the second half of a doubled quote, a value is empty or starts with a quote. -/
theorem stringBody_quote {rest v r : List Char} (h : stringBody ('\'' :: rest) = some (v, r)) :
    v = [] ∨ v.head? = some '\'' := by
  by_cases hq : ∃ tail, rest = '\'' :: tail
  · obtain ⟨tail, rfl⟩ := hq
    rw [stringBody] at h
    obtain ⟨_, rfl, -⟩ := addChar_some h
    exact .inr rfl
  · rw [stringBody.eq_3 rest (fun tail ht => hq ⟨tail, ht⟩)] at h
    cases h
    exact .inl rfl

/-- It stops before the string's end, or swallows the closing quote: by induction on what follows
    the quote in the string. -/
theorem stringBody_length {w X v r : List Char}
    (h : stringBody ('\'' :: (escape w ++ '\'' :: ' ' :: X)) = some (v, r)) :
    v.length ≠ w.length + 1 := by
  induction w generalizing v with
  | nil =>
    obtain ⟨v', rfl, hb⟩ := addChar_some h
    rw [stringBody.eq_6 ' ' X (by simp) (by decide) (by simp) (by simp)] at hb
    obtain ⟨_, rfl, -⟩ := addChar_some hb
    simp
  | cons c w ih =>
    by_cases hc : c = '\''
    · subst hc
      simp only [escape, true_or, if_true, cons_append] at h
      rw [stringBody] at h
      obtain ⟨_, rfl, hb⟩ := addChar_some h
      have := ih hb
      simp only [length_cons]
      omega
    · have hlone : ∀ tail, escape (c :: w) ++ '\'' :: ' ' :: X ≠ '\'' :: tail := by
        intro _ ht
        rw [escape] at ht
        split at ht <;> exact hc (cons.inj ht).1
      cases (stringBody.eq_3 _ hlone).symm.trans h
      simp

/-- A string that is read from a text of tokens takes its first token with it. -/
theorem TokenText.stringBody {v r : List Char} (h : TokenText n text ts)
    (hs : stringBody text = some (v, r)) : ∃ t ∈ ts, t.pos + byteLen r < n + byteLen text := by
  induction h generalizing v with
  | nil => simp [ChibiDb.stringBody] at hs
  | @space _ rest _ _ ih =>
    rw [stringBody.eq_6 ' ' rest (by simp) (by decide) (by simp) (by simp)] at hs
    obtain ⟨_, -, hb⟩ := addChar_some hs
    obtain ⟨t, ht, _⟩ := ih hb
    have hsp : Char.utf8Size ' ' = 1 := by decide
    refine ⟨t, ht, ?_⟩
    rw [byteLen_cons, hsp]
    omega
  | @token n _ c _ _ kind =>
    obtain ⟨_, _, heq, ht⟩ := stringBody_suffix hs
    cases heq
    have hle := byteLen_le ht
    have hc := c.utf8Size_pos
    refine ⟨⟨kind, n⟩, mem_cons_self, ?_⟩
    rw [byteLen_cons]
    show n + _ < _
    omega

/-- What the lexer makes of the literal when it gets a value from it at all. -/
theorem lexFrom_literal {s right : List Char}
    (h : lexFrom total (literal s ++ ' ' :: right) = .ok (t :: us)) :
    ∃ q behind v r, (escape s ++ '\'' :: ' ' :: right).dropWhile (fun d => decide (d ≠ '\'')) =
        q :: behind ∧ stringBody behind = some (v, r) ∧ t.kind = .str v ∧
      lexFrom total r = .ok us := by
  have htext : literal s ++ ' ' :: right = '\'' :: (escape s ++ '\'' :: ' ' :: right) := by
    simp [literal]
  rw [htext, lexFrom_cons] at h
  unfold nextItem at h
  rw [if_neg (by decide), if_neg (by decide), if_pos rfl] at h
  cases hd : (escape s ++ '\'' :: ' ' :: right).dropWhile (fun d => decide (d ≠ '\'')) with
  | nil =>
    rw [hd] at h
    cases h
  | cons q behind =>
    rw [hd] at h
    cases hs : stringBody behind with
    | none =>
      simp only [hs] at h
      cases h
    | some p =>
      simp only [hs] at h
      obtain ⟨_, hvs, hr⟩ := addToken_ok h
      cases hvs
      exact ⟨q, behind, p.1, p.2, rfl, hs, rfl, hr⟩

/-- No literal is lexed to its value. For every string, between any two texts of
    tokens, the lexer does not return the tokens of the left text, the string's
    token at the opening quote, and the tokens of the right text. -/
theorem literal_never_read (s left right : List Char) (ts us : List Token)
    (hleft : TokenText 0 left ts)
    (hright : TokenText (byteLen left + 1 + byteLen (literal s) + 1) right us) :
    lex (left ++ ' ' :: (literal s ++ ' ' :: right)) ≠
      .ok (ts ++ ⟨.str s, byteLen left + 1⟩ :: us) := by
  intro h
  have hsp : Char.utf8Size ' ' = 1 := by decide
  have htotal : byteLen (left ++ ' ' :: (literal s ++ ' ' :: right)) =
      byteLen left + 1 + byteLen (literal s) + 1 + byteLen right := by
    rw [byteLen_append, byteLen_cons, byteLen_append, byteLen_cons, hsp]
    omega
  generalize hT : byteLen (left ++ ' ' :: (literal s ++ ' ' :: right)) = total at htotal
  have hlex : lexFrom total (left ++ ' ' :: (literal s ++ ' ' :: right)) =
      .ok (ts ++ ⟨.str s, byteLen left + 1⟩ :: us) := hT ▸ h
  rw [hleft.lexFrom (stops_cons _) (by rw [hT]; omega)] at hlex
  have hY := addTokens_ok hlex
  rw [lexFrom_skip (show nextItem ' ' (literal s ++ ' ' :: right) =
    .skip (literal s ++ ' ' :: right) by simp [nextItem])] at hY
  obtain ⟨_, behind, v, _, hdrop, hs, hkind, hrest⟩ := lexFrom_literal hY
  have hv : s = v := TokenKind.str.inj hkind
  subst hv
  by_cases hq : '\'' ∈ s
  · -- The value is read from the second half of the first doubled quote.
    obtain ⟨u, w, rfl, hu⟩ := eq_append_cons_of_mem hq
    have htext : escape (u ++ '\'' :: w) ++ '\'' :: ' ' :: right =
        escape u ++ '\'' :: '\'' :: (escape w ++ '\'' :: ' ' :: right) := by
      simp [escape_append, escape]
    rw [htext, dropWhile_escape hu] at hdrop
    cases hdrop
    have hlen := stringBody_length hs
    rcases stringBody_quote hs with hnil | hhead
    · exact absurd hnil (by simp)
    cases u with
    | nil => exact hlen rfl
    | cons c =>
      have hc : c = '\'' := some.inj hhead
      exact hu (by rw [hc]; exact mem_cons_self)
  · -- The value is read from behind the closing quote.
    cases (dropWhile_escape hq).symm.trans hdrop
    rw [stringBody.eq_6 ' ' right (by simp) (by decide) (by simp) (by simp)] at hs
    obtain ⟨_, -, hb⟩ := addChar_some hs
    obtain ⟨t, ht, _⟩ := hright.stringBody hb
    have hpos := lexLoop_pos hrest t ht
    omega

theorem literal_never_read_between :
    lex ("x ".toList ++ literal ['a'] ++ " 1".toList) ≠
      .ok [⟨.ident ['x'], 0⟩, ⟨.str ['a'], 2⟩, ⟨.int 1, 6⟩] :=
  literal_never_read ['a'] ['x'] ['1'] [⟨.ident ['x'], 0⟩] [⟨.int 1, 6⟩]
    (.token (m := 1) (show nextItem 'x' [] = .token (.ident ['x']) [] by rfl) (by rfl) (.nil 1))
    (.token (m := 7) (show nextItem '1' [] = .token (.int 1) [] by rfl) (by rfl) (.nil 7))

/-- The literal of `abc` alone, with spaces around it, is an unterminated string. -/
theorem literal_abc_unterminated :
    literal ['a', 'b', 'c'] = "'abc'".toList ∧
    TokenText 0 [] [] ∧ TokenText (0 + 1 + byteLen (literal ['a', 'b', 'c']) + 1) [] [] ∧
    lex ([] ++ ' ' :: (literal ['a', 'b', 'c'] ++ ' ' :: [])) =
      .error (.unterminatedStringAt 1) :=
  ⟨rfl, .nil 0, .nil _, rfl⟩

end ChibiDb
