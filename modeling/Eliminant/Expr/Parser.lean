import Eliminant.Expr.Basic
import Eliminant.Text.Token

/-!
# Reading expressions

The grammar, over tokens:

    sum      ::= product (('+' | '-') product)*
    product  ::= unary ('*' unary | '/' unary | power)*
    unary    ::= '-' unary | '+' unary | power
    power    ::= postfix ['^' unary]
    postfix  ::= primary ("'" | '_' primary)*
    primary  ::= NUMBER | NAME | NAME '(' [sum (',' sum)*] ')' | '(' sum ')'

A factor without a sign in front of it starts with a number, a name or a bracket. There is one
reader per line of the grammar. Each takes tokens from the front and answers the expression and the
tokens that are left; on an error the tokens that are left tell where it happened.

The readers recurse on `fuel`, which bounds how deeply they are nested in each other. `Expr.parse`
provides more than any text can use up.
-/

namespace Eliminant

/-! ## 1. Errors -/

/-- Why a sequence of tokens is no expression. -/
inductive SyntaxError where
  | endOfInput
  | unexpected (token : Token)
  | unclosedCall (name : String)
  | unclosedBracket
  | tooDeep
  deriving DecidableEq, Repr

/-- The wording of a syntax error. -/
def SyntaxError.text : SyntaxError → String
  | endOfInput => "unexpected end of input"
  | unexpected t => "unexpected '" ++ t.text ++ "'"
  | unclosedCall f => "missing closing parenthesis for function '" ++ f ++ "'"
  | unclosedBracket => "open parenthesis is not closed"
  | tooDeep => "expression is nested too deeply"

/-- Why a text is no expression. -/
inductive ParseError where
  | stray (character : StrayCharacter)
  | empty
  | syntaxError (why : SyntaxError) (position : Position)
  deriving DecidableEq, Repr

/-- The wording of a parse error. -/
def ParseError.message : ParseError → String
  | stray s =>
    "Unexpected '" ++ s.char.toString ++ "' in input at line " ++ toString s.position.line
      ++ " and column " ++ toString s.position.column
  | empty => "Expression is empty"
  | syntaxError why p =>
    "Error at line " ++ toString p.line ++ " and position " ++ toString p.column ++ ": " ++ why.text

/-- An error and the tokens that are left where it happened. -/
abbrev ReadError := SyntaxError × List Token

namespace Expr

/-! ## 2. Building -/

/-- A sum of at least one term. A single term is no sum. -/
def ofTerms (a : Expr) (rest : List Expr) : Expr :=
  if rest.isEmpty then a else op .add (a :: rest)

/-- The opposite of an operand: a number takes the sign, and a second sign cancels the first. -/
def negated : Expr → Expr
  | num n => num (-n)
  | op .neg [a] => a
  | a => op .neg [a]

/-- The product of what has been read of a product and one more factor. -/
def timesFactor : Expr → Expr → Expr
  | op .mul factors, b => op .mul (factors ++ [b])
  | a, b => op .mul [a, b]

/-- The number that a run of digits writes. -/
def ofDigits (digits : String) : Expr :=
  num (.ofInt (digits.toList.foldl (fun (n : Nat) c => n * 10 + (c.toNat - '0'.toNat)) 0 : Nat))

/-! ## 3. The readers -/

mutual
/-- Reads a sum. -/
def readSum (fuel : Nat) (ts : List Token) : Except ReadError (Expr × List Token) :=
  match fuel with
  | 0 => .error (.tooDeep, ts)
  | fuel + 1 => do
    let (a, ts) ← readProduct fuel ts
    let (rest, ts) ← readTerms fuel ts
    return (ofTerms a rest, ts)

/-- Reads the later terms of a sum, each behind its sign. -/
def readTerms (fuel : Nat) (ts : List Token) : Except ReadError (List Expr × List Token) :=
  match fuel with
  | 0 => .error (.tooDeep, ts)
  | fuel + 1 =>
    match ts with
    | .sign '+' :: ts => do
      let (a, ts) ← readProduct fuel ts
      let (rest, ts) ← readTerms fuel ts
      return (a :: rest, ts)
    | .sign '-' :: ts => do
      let (a, ts) ← readProduct fuel ts
      let (rest, ts) ← readTerms fuel ts
      return (negated a :: rest, ts)
    | ts => .ok ([], ts)

/-- Reads a product. -/
def readProduct (fuel : Nat) (ts : List Token) : Except ReadError (Expr × List Token) :=
  match fuel with
  | 0 => .error (.tooDeep, ts)
  | fuel + 1 => do
    let (a, ts) ← readUnary fuel ts
    readFactors fuel a ts

/-- Reads the later factors and divisors of a product that starts with `a`. -/
def readFactors (fuel : Nat) (a : Expr) (ts : List Token) : Except ReadError (Expr × List Token) :=
  match fuel with
  | 0 => .error (.tooDeep, ts)
  | fuel + 1 =>
    match ts with
    | .sign '*' :: ts => do
      let (b, ts) ← readUnary fuel ts
      readFactors fuel (timesFactor a b) ts
    | .sign '/' :: ts => do
      let (b, ts) ← readUnary fuel ts
      readFactors fuel (op .div [a, b]) ts
    | t :: ts =>
      if t.startsOperand then do
        let (b, ts) ← readUnary fuel (t :: ts)
        readFactors fuel (timesFactor a b) ts
      else .ok (a, t :: ts)
    | [] => .ok (a, [])

/-- Reads an operand with the signs in front of it. -/
def readUnary (fuel : Nat) (ts : List Token) : Except ReadError (Expr × List Token) :=
  match fuel with
  | 0 => .error (.tooDeep, ts)
  | fuel + 1 =>
    match ts with
    | .sign '-' :: ts => do
      let (a, ts) ← readUnary fuel ts
      return (negated a, ts)
    | .sign '+' :: ts => readUnary fuel ts
    | ts => readPower fuel ts

/-- Reads an operand and its exponent, which may carry a sign and a power of its own. -/
def readPower (fuel : Nat) (ts : List Token) : Except ReadError (Expr × List Token) :=
  match fuel with
  | 0 => .error (.tooDeep, ts)
  | fuel + 1 => do
    let (a, ts) ← readPostfix fuel ts
    match ts with
    | .sign '^' :: ts => do
      let (e, ts) ← readUnary fuel ts
      return (op .pow [a, e], ts)
    | ts => return (a, ts)

/-- Reads an operand with its primes and subscripts. -/
def readPostfix (fuel : Nat) (ts : List Token) : Except ReadError (Expr × List Token) :=
  match fuel with
  | 0 => .error (.tooDeep, ts)
  | fuel + 1 => do
    let (a, ts) ← readPrimary fuel ts
    readMarks fuel a ts

/-- Reads the primes and subscripts behind `a`. -/
def readMarks (fuel : Nat) (a : Expr) (ts : List Token) : Except ReadError (Expr × List Token) :=
  match fuel with
  | 0 => .error (.tooDeep, ts)
  | fuel + 1 =>
    match ts with
    | .sign '\'' :: ts => readMarks fuel (op .prime [a]) ts
    | .sign '_' :: ts => do
      let (b, ts) ← readPrimary fuel ts
      readMarks fuel (op .subscript [a, b]) ts
    | ts => .ok (a, ts)

/-- Reads a number, a variable, a call or a sum in brackets. -/
def readPrimary (fuel : Nat) (ts : List Token) : Except ReadError (Expr × List Token) :=
  match fuel with
  | 0 => .error (.tooDeep, ts)
  | fuel + 1 =>
    match ts with
    | [] => .error (.endOfInput, [])
    | .number digits :: ts => .ok (ofDigits digits, ts)
    | .name f :: .opening :: .closing :: ts => .ok (call f [], ts)
    | .name f :: .opening :: ts => do
      let (args, ts) ← readArguments fuel ts
      match ts with
      | .closing :: ts => return (call f args, ts)
      | ts => .error (.unclosedCall f, ts)
    | .name x :: ts => .ok (var x, ts)
    | .opening :: ts => do
      let (a, ts) ← readSum fuel ts
      match ts with
      | .closing :: ts => return (a, ts)
      | ts => .error (.unclosedBracket, ts)
    | t :: ts => .error (.unexpected t, ts)

/-- Reads the arguments of a call, at least one. -/
def readArguments (fuel : Nat) (ts : List Token) : Except ReadError (List Expr × List Token) :=
  match fuel with
  | 0 => .error (.tooDeep, ts)
  | fuel + 1 => do
    let (a, ts) ← readSum fuel ts
    match ts with
    | .comma :: ts => do
      let (rest, ts) ← readArguments fuel ts
      return (a :: rest, ts)
    | ts => return ([a], ts)
end

/-! ## 4. Whole texts -/

/-- The expression that a sequence of tokens writes. No token may be left. -/
def ofTokens (ts : List Token) : Except ReadError Expr := do
  match ← readSum (10 * (ts.length + 1)) ts with
  | (a, []) => return a
  | (_, t :: rest) => .error (.unexpected t, t :: rest)

/-- The expression that a text writes. -/
def parse (s : String) : Except ParseError Expr :=
  match Lexeme.ofText s with
  | .error stray => .error (.stray stray)
  | .ok ([], _) => .error .empty
  | .ok (lexemes, last) =>
    match ofTokens (lexemes.map (·.token)) with
    | .ok a => .ok a
    | .error (why, rest) =>
      match lexemes.drop (lexemes.length - rest.length) with
      | [] => .error (.syntaxError why last)
      | l :: _ => .error (.syntaxError why l.position)

end Expr

end Eliminant
