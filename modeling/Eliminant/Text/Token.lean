import Eliminant.Text.Letter

/-!
# Tokens: an expression as a sequence of words

A text is cut into numbers (runs of ASCII digits), names (a letter and the letters and digits that
follow), single signs, brackets and commas. Blanks separate and are dropped, and every token keeps
the place where it starts.

* `Lexeme.scan` cuts from left to right: it takes the longest number or name at the current place
  and skips the characters that the token has used up;
* `Lexeme.ofText` is the whole text, together with the place behind it.
-/

namespace Eliminant

/-! ## 1. Tokens -/

/-- A word of the written form of expressions. -/
inductive Token where
  | number (digits : String)
  | name (name : String)
  | sign (sign : Char)
  | opening
  | closing
  | comma
  deriving DecidableEq, Repr

/-- A token as it is written. -/
def Token.text : Token → String
  | number ds => ds
  | name x => x
  | sign c => c.toString
  | opening => "("
  | closing => ")"
  | comma => ","

/-- Whether a token starts an operand, which multiplies with an operand in front of it. -/
def Token.startsOperand : Token → Bool
  | number _ | name _ | opening => true
  | sign _ | closing | comma => false

/-- The characters that separate tokens. -/
def isBlank (c : Char) : Bool := c == ' ' || c == '\t' || c == '\n' || c == '\r'

/-- The characters that are tokens of their own and stand for operators. -/
def isSign (c : Char) : Bool := ['^', '+', '*', '-', '/', '_', '\''].contains c

/-- The token that a single character is. -/
def Token.ofChar? (c : Char) : Option Token :=
  if c = '(' then some opening
  else if c = ')' then some closing
  else if c = ',' then some comma
  else if isSign c then some (sign c)
  else none

/-! ## 2. Places -/

/-- A place in a text, counted from line 1 and column 1. -/
structure Position where
  line : Nat
  column : Nat
  deriving DecidableEq, Repr

/-- The place of the first character. -/
def Position.start : Position := ⟨1, 1⟩

/-- The place `n` columns to the right. -/
def Position.right (p : Position) (n : Nat) : Position := { p with column := p.column + n }

/-- The place behind a blank. -/
def Position.behindBlank (p : Position) (c : Char) : Position :=
  if c = '\n' then ⟨p.line + 1, 1⟩ else p.right 1

/-- A token and the place where it starts. -/
structure Lexeme where
  token : Token
  position : Position
  deriving DecidableEq, Repr

/-- A character that belongs to no token. -/
structure StrayCharacter where
  char : Char
  position : Position
  deriving DecidableEq, Repr

/-! ## 3. Cutting -/

namespace Lexeme

/-- The lexemes of a text and the place behind it, from the place `p` on and after `skip` characters
    that belong to an earlier token. -/
def scan : (skip : Nat) → (p : Position) → List Char →
    Except StrayCharacter (List Lexeme × Position)
  | _, p, [] => .ok ([], p)
  | k + 1, p, _ :: cs => scan k p cs
  | 0, p, c :: cs =>
    if isBlank c then scan 0 (p.behindBlank c) cs
    else if c.isDigit then
      let more := cs.takeWhile Char.isDigit
      cons ⟨.number (String.ofList (c :: more)), p⟩
        (scan more.length (p.right (more.length + 1)) cs)
    else if isLetter c then
      let more := cs.takeWhile isNameChar
      cons ⟨.name (String.ofList (c :: more)), p⟩
        (scan more.length (p.right (more.length + 1)) cs)
    else
      match Token.ofChar? c with
      | some t => cons ⟨t, p⟩ (scan 0 (p.right 1) cs)
      | none => .error ⟨c, p⟩
where
  /-- Puts a lexeme in front of the rest. -/
  cons (l : Lexeme) : Except StrayCharacter (List Lexeme × Position) →
      Except StrayCharacter (List Lexeme × Position)
    | .ok (rest, last) => .ok (l :: rest, last)
    | .error e => .error e

/-- The lexemes of a text and the place behind it. -/
def ofText (s : String) : Except StrayCharacter (List Lexeme × Position) :=
  scan 0 .start s.toList

end Lexeme

end Eliminant
