import Mathlib.Tactic

/-!
# The SQL Lexer

The source walks the bytes of the text with an index that is always at the start
of a character, and compares with ASCII bytes only, which occur in UTF-8 as
themselves and nowhere else. Here the text is its list of characters and the
index is what is left of it; positions are byte offsets, as in the source.

One round of the loop is `nextItem`: it skips a blank or a comment, or reads one
token, or fails. A string is read twice over: the loop first runs to the next
quote, and only then, behind that quote, reads characters and escapes up to a
quote that is not doubled.

## Main definitions

* `TokenKind`, `Token`, `LexError`: What the lexer returns. A float is kept as
  its text, which the source hands to the standard library.
* `lexNumber`, `stringBody`, `identBody`: The parts of a token.
* `nextItem`, `lexLoop`, `lex`: The lexer.
-/

namespace ChibiDb

/-- Signs and operators. -/
inductive Punct where
  | lParen | rParen | comma | semicolon | plus | minus | star | slash | percent
  | eq | notEq | lt | le | gt | ge | dot
  deriving DecidableEq, Repr

/-- What a token is. -/
inductive TokenKind where
  | int (n : Nat)
  | float (text : List Char)
  | str (s : List Char)
  | ident (name : List Char)
  | punct (p : Punct)
  deriving DecidableEq, Repr

/-- A token and where it starts. -/
structure Token where
  kind : TokenKind
  pos : Nat
  deriving DecidableEq, Repr

/-- What is wrong with a text, at the byte offset `pos` of the token. -/
inductive LexError where
  | integerOverflow (pos : Nat)
  /-- `unterminated string`. -/
  | unterminatedString (pos : Nat)
  /-- `unterminated string at byte ..`, which carries no position beside its text. -/
  | unterminatedStringAt (pos : Nat)
  | unterminatedIdentifierAt (pos : Nat)
  | unexpectedCharacter (c : Char) (pos : Nat)
  deriving DecidableEq, Repr

/-- What one round of the loop does: skip something, read a token, or fail with
    an error that still lacks its position. -/
inductive LexItem where
  | skip (rest : List Char)
  | token (kind : TokenKind) (rest : List Char)
  | fail (error : Nat → LexError)

/-- The bytes of some characters. -/
def byteLen (cs : List Char) : Nat := (cs.map Char.utf8Size).sum

/-- The fraction behind a number's digits, and what follows it. -/
def fraction : List Char → List Char × List Char
  | '.' :: d :: rest =>
    if d.isDigit then ('.' :: d :: rest.takeWhile Char.isDigit, rest.dropWhile Char.isDigit)
    else ([], '.' :: d :: rest)
  | rest => ([], rest)

/-- The sign of an exponent, and what follows it. -/
def exponentSign : List Char → List Char × List Char
  | '+' :: rest => (['+'], rest)
  | '-' :: rest => (['-'], rest)
  | rest => ([], rest)

/-- The exponent behind a number, which has at least one digit, and what follows it. -/
def exponent : List Char → List Char × List Char
  | [] => ([], [])
  | e :: rest =>
    let (sign, digits) := exponentSign rest
    if (e = 'e' ∨ e = 'E') ∧ (digits.head?.any Char.isDigit) = true then
      (e :: sign ++ digits.takeWhile Char.isDigit, digits.dropWhile Char.isDigit)
    else ([], e :: rest)

/-- A number: an integer that fits `i64`, or a float if it has a fraction or an exponent. -/
def lexNumber (cs : List Char) : LexItem :=
  let digits := cs.takeWhile Char.isDigit
  let (frac, afterFrac) := fraction (cs.dropWhile Char.isDigit)
  let (exp, rest) := exponent afterFrac
  if frac ≠ [] ∨ exp ≠ [] then .token (.float (digits ++ frac ++ exp)) rest
  else if Nat.ofDigitChars 10 digits 0 < 2 ^ 63 then
    .token (.int (Nat.ofDigitChars 10 digits 0)) rest
  else .fail .integerOverflow

/-- What a backslash makes of the character behind it. -/
def unescape : Char → Char
  | '0' => Char.ofNat 0
  | 'n' => '\n'
  | 'r' => '\r'
  | 't' => '\t'
  | 'b' => Char.ofNat 8
  | 'Z' => Char.ofNat 26
  | c => c

/-- Put a character in front of a body that was read. -/
def addChar (c : Char) : Option (List Char × List Char) → Option (List Char × List Char)
  | none => none
  | some (value, rest) => some (c :: value, rest)

/-- Read a string's characters up to its closing quote: the value, and what is
    left behind the quote. -/
def stringBody : List Char → Option (List Char × List Char)
  | [] => none
  | '\'' :: '\'' :: rest => addChar '\'' (stringBody rest)
  | '\'' :: rest => some ([], rest)
  | '\\' :: c :: rest => addChar (unescape c) (stringBody rest)
  | '\\' :: [] => none
  | c :: rest => addChar c (stringBody rest)

/-- The backtick that quotes an identifier. -/
def backtick : Char := Char.ofNat 96

/-- Read a quoted identifier up to its closing backtick. -/
def identBody : List Char → Option (List Char × List Char)
  | [] => none
  | [c] => if c = backtick then some ([], []) else none
  | c :: d :: rest =>
    if c ≠ backtick then addChar c (identBody (d :: rest))
    else if d = backtick then addChar backtick (identBody rest)
    else some ([], d :: rest)

/-- Whether a character goes on an identifier. -/
def isIdentChar (c : Char) : Bool := c.isAlphanum || c = '_'

/-- A token of one character. -/
def punctOf : Char → Option Punct
  | '(' => some .lParen
  | ')' => some .rParen
  | ',' => some .comma
  | ';' => some .semicolon
  | '+' => some .plus
  | '*' => some .star
  | '/' => some .slash
  | '%' => some .percent
  | '=' => some .eq
  | '.' => some .dot
  | _ => none

/-- One round of the loop, at the character `c` with `rest` behind it. -/
def nextItem (c : Char) (rest : List Char) : LexItem :=
  if c = ' ' ∨ c = '\t' ∨ c = '\r' ∨ c = '\n' then .skip rest
  else if c.isDigit then lexNumber (c :: rest)
  else if c = '\'' then
    -- The first reading of the string, whose result is dropped.
    match rest.dropWhile (fun d => d ≠ '\'') with
    | [] => .fail .unterminatedString
    | _ :: behind =>
      match stringBody behind with
      | none => .fail .unterminatedStringAt
      | some (s, left) => .token (.str s) left
  else if c = backtick then
    match identBody rest with
    | none => .fail .unterminatedIdentifierAt
    | some (name, left) => .token (.ident name) left
  else if c.isAlpha ∨ c = '_' then
    .token (.ident (c :: rest.takeWhile isIdentChar)) (rest.dropWhile isIdentChar)
  else if c = '-' then
    if rest.head? = some '-' then .skip (rest.dropWhile (fun d => d ≠ '\n'))
    else .token (.punct .minus) rest
  else if c = '<' then
    match rest with
    | '=' :: left => .token (.punct .le) left
    | '>' :: left => .token (.punct .notEq) left
    | _ => .token (.punct .lt) rest
  else if c = '>' then
    match rest with
    | '=' :: left => .token (.punct .ge) left
    | _ => .token (.punct .gt) rest
  else if c = '!' then
    match rest with
    | '=' :: left => .token (.punct .notEq) left
    | _ => .fail (.unexpectedCharacter '!')
  else
    match punctOf c with
    | some p => .token (.punct p) rest
    | none => .fail (.unexpectedCharacter c)

/-- Put a token in front of those that follow. -/
def addToken (t : Token) : Except LexError (List Token) → Except LexError (List Token)
  | .error e => .error e
  | .ok ts => .ok (t :: ts)

/-- The loop over a text of `total` bytes, with `cs` left of it. A round takes at
    least one character, so as many rounds as characters are enough. -/
def lexLoop (total : Nat) : Nat → List Char → Except LexError (List Token)
  | _, [] => .ok []
  | 0, _ => .ok []
  | rounds + 1, c :: rest =>
    let pos := total - byteLen (c :: rest)
    match nextItem c rest with
    | .skip left => lexLoop total rounds left
    | .token kind left => addToken ⟨kind, pos⟩ (lexLoop total rounds left)
    | .fail error => .error (error pos)

/-- The tokens of a text. -/
def lex (src : List Char) : Except LexError (List Token) := lexLoop (byteLen src) src.length src

end ChibiDb
