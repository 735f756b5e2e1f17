import Eliminant.Expr.Constant
import Eliminant.Expr.Order

/-!
# The normal form of an expression

Normalizing folds numbers, flattens sums and products, collects like terms and like factors and puts
the operands of sums and products into ascending order. Differences, negations and quotients become
sums, products and powers. Products are not expanded.

* `Tally`: like terms with their coefficients, or like factors with their exponents;
* `sumNormal`, `productNormal`, `powerNormal`: the normal form of a node whose operands are normal;
* `normalize`: the normal form of an expression.

A power of a product is the product of the powers of its factors, and a product raises every factor
it has collected to its exponent. The two therefore call each other, but always on a smaller base:
`powerOf` counts the levels that are left, and the number of nodes of the base is enough of them.
-/

namespace Eliminant

/-! ## 1. Tallies -/

/-- Expressions in ascending order, each with a number. -/
abbrev Tally := List (Expr × Coefficient)

/-- Adds `c` to the number of `a`. -/
def Tally.add (a : Expr) (c : Coefficient) : Tally → Tally
  | [] => [(a, c)]
  | (b, d) :: rest =>
    match b.compare a with
    | .lt => (b, d) :: Tally.add a c rest
    | .eq => (b, d + c) :: rest
    | .gt => (a, c) :: (b, d) :: rest

namespace Expr

/-! ## 2. Terms and factors -/

/-- The operands of `args`, with nodes of the operator `o` replaced by their own operands. -/
def flatten (o : Operator) : List Expr → List Expr
  | [] => []
  | op p inner :: rest =>
    if p = o then inner ++ flatten o rest else op p inner :: flatten o rest
  | a :: rest => a :: flatten o rest

/-- A normal term as its numeric coefficient and the rest. -/
def splitCoefficient : Expr → Coefficient × Expr
  | num n => (n, num .one)
  | op .mul [num n, a] => (n, a)
  | op .mul (num n :: factors) => (n, op .mul factors)
  | a => (.one, a)

/-- A term from its numeric coefficient and the rest. -/
def attachCoefficient (c : Coefficient) (rest : Expr) : Expr :=
  if c.isOne then rest
  else
    match rest with
    | op .mul factors => op .mul (num c :: factors)
    | a => op .mul [num c, a]

/-- A normal factor as a base and its numeric exponent. -/
def splitExponent : Expr → Expr × Coefficient
  | op .pow [b, num e] => (b, e)
  | a => (a, .one)

/-- The sum of the numbers among `terms`. -/
def constantPart (terms : List Expr) : Coefficient :=
  terms.foldl (fun sum a => match a with | num n => sum + n | _ => sum) .zero

/-- The product of the numbers among `factors`. -/
def numericPart (factors : List Expr) : Coefficient :=
  factors.foldl (fun product a => match a with | num n => product * n | _ => product) .one

/-- The terms that are no numbers, like ones collected. -/
def likeTerms (terms : List Expr) : Tally :=
  terms.foldl (fun tally a =>
    match a with
    | num _ => tally
    | a => let (c, rest) := a.splitCoefficient; Tally.add rest c tally) []

/-- The factors that are no numbers, like ones collected. -/
def likeFactors (factors : List Expr) : Tally :=
  factors.foldl (fun tally a =>
    match a with
    | num _ => tally
    | a => let (b, e) := a.splitExponent; Tally.add b e tally) []

/-- The factors of a product in normal form: its operands, or the expression itself. -/
def factorsOf : Expr → List Expr
  | op .mul factors => factors
  | a => [a]

/-- Whether an expression is a number. -/
def isNumber : Expr → Bool
  | num _ => true
  | _ => false

/-! ## 3. Nodes with normal operands -/

/-- The normal form of a sum of normal terms. -/
def sumNormal (args : List Expr) : Expr :=
  let terms := flatten .add args
  let constant := constantPart terms
  let collected := (likeTerms terms).filterMap fun (a, c) =>
    if c.isZero then none else some (attachCoefficient c a)
  match sort (if constant.isZero then collected else collected ++ [num constant]) with
  | [] => num .zero
  | [a] => a
  | sorted => op .add sorted

/-- The normal form of a product of normal factors, given the normal forms of numeric powers. -/
def productWith (power : Expr → Coefficient → Except Failure Expr) (args : List Expr) :
    Except Failure Expr := do
  let given := flatten .mul args
  if (numericPart given).isZero then return num .zero
  let powers ← (likeFactors given).mapM fun (b, e) => power b e
  let factors := powers.flatMap factorsOf
  let coefficient := numericPart given * numericPart factors
  if coefficient.isZero then return num .zero
  match sort (factors.filter (!·.isNumber)) with
  | [] => return num coefficient
  | [a] => return if coefficient.isOne then a else op .mul [num coefficient, a]
  | sorted => return attachCoefficient coefficient (op .mul sorted)

/-- The normal form of `b ^ e` for two numbers. Exponents up to `maxFoldedExponent` are multiplied
    out. -/
def numericPower (b e : Coefficient) : Except Failure Expr :=
  if b.isOne then .ok (num .one)
  else
    match e.toWord? with
    | none => .ok (op .pow [num b, num e])
    | some n =>
      if n = -9223372036854775808 then .error .exponentMagnitude
      else if maxFoldedExponent < n.natAbs then .ok (op .pow [num b, num e])
      else if 0 < n then .ok (num (b.pow n.natAbs))
      else
        match b.inv with
        | .ok i => .ok (num (i.pow n.natAbs))
        | .error _ => .ok (op .pow [num b, num e])

/-- The normal form of a normal base to a numeric power. `depth` bounds how many levels of powers
    and products are opened; what lies deeper stays a power. -/
def powerOf : (depth : Nat) → (base : Expr) → (e : Coefficient) → Except Failure Expr
  | 0, base, e => .ok (op .pow [base, num e])
  | depth + 1, base, e =>
    if e.isZero then .ok (num .one)
    else if e.isOne then .ok base
    else
      match base with
      | num b => numericPower b e
      | op .pow [b, num f] =>
        if e.isInteger then powerOf depth b (f * e) else .ok (op .pow [base, num e])
      | op .mul factors =>
        if e.isInteger then do
          productWith (powerOf depth) (← factors.mapM (powerOf depth · e))
        else .ok (op .pow [base, num e])
      | base => .ok (op .pow [base, num e])

/-- The normal form of a normal base to a normal exponent. -/
def powerNormal (base exponent : Expr) : Except Failure Expr :=
  match exponent with
  | num e => powerOf base.size base e
  | e => .ok (if base.isOne then num .one else op .pow [base, e])

/-- The normal form of a product of normal factors. -/
def productNormal (args : List Expr) : Except Failure Expr :=
  productWith (powerOf (sizeList args)) args

/-- The number `-1`. -/
def minusOne : Expr := int (-1)

/-- The normal form of a node with normal operands, of a number that its operator takes. -/
def nodeNormal : Operator → List Expr → Except Failure Expr
  | .add, args => .ok (sumNormal args)
  | .mul, args => productNormal args
  | .sub, [a, b] => do return sumNormal [a, ← productNormal [minusOne, b]]
  | .neg, [a] => productNormal [minusOne, a]
  | .div, [a, b] => do productNormal [a, ← powerNormal b minusOne]
  | .pow, [b, e] => powerNormal b e
  | o, args => .ok (op o args)

/-! ## 4. Expressions -/

mutual
/-- The normal form of an expression. Malformed nodes keep their normalized operands. -/
def normalize : Expr → Except Failure Expr
  | num n => .ok (num n)
  | var x => .ok (var x)
  | call f args => do return call f (← normalizeList args)
  | op o args => do
    let args ← normalizeList args
    if o.accepts args.length then nodeNormal o args else return op o args

/-- The normal forms of an operand list. -/
def normalizeList : List Expr → Except Failure (List Expr)
  | [] => .ok []
  | a :: as => do
    let a ← normalize a
    let as ← normalizeList as
    return a :: as
end

end Expr

end Eliminant
