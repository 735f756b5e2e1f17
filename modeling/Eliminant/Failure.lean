import Eliminant.Expr.Operator

/-!
# Failures: why an operation has no answer

Every operation that can fail answers in `Except Failure`. Two families share the type:

* a **broken precondition** (`zeroDivisor` … `unordered`): the caller asked for something that has
  no meaning, such as a quotient by zero or an exponent that no longer fits;
* a **refusal** of the engine (`notPolynomial` … `aborted`): the request is meaningful, but it has
  no answer of the wanted kind, or not within the allowed effort.

`Failure.message?` is the wording. Some broken preconditions have none: nobody but the caller's own
author could act on it.
-/

namespace Eliminant

/-- The largest exponent a term may carry. -/
def maxExponent : Nat := 4294967295

/-- What is wrong with a list of terms that is no polynomial. -/
inductive Defect where
  | zeroCoefficient
  | equalTerms
  | wrongOrder
  deriving DecidableEq, Repr

/-- The wording of a defect. -/
def Defect.text : Defect → String
  | zeroCoefficient => "0 coefficient"
  | equalTerms => "equal monomials"
  | wrongOrder => "wrong monomial ordering"

/-- Why an expression is no polynomial; the expression itself is kept as text. -/
inductive NotPolynomial where
  | negativePower (shown : String)
  | divisionByZero (shown : String)
  deriving DecidableEq, Repr

/-- The wording of a conversion that has no polynomial. -/
def NotPolynomial.text : NotPolynomial → String
  | negativePower shown => "negative power in " ++ shown
  | divisionByZero shown => "division by zero in " ++ shown

/-- Why a result is undefined; the operands are kept as text. -/
inductive Undefined where
  | polynomialPower (exponent : String)
  | fractionalPower (exponent : String)
  | noEliminant
  | lcmNotDividing (left right : String)
  | zeroDenominator (numerator : String)
  | gcdNotDividing (numerator denominator : String)
  | inverseOfZero
  deriving DecidableEq, Repr

/-- The wording of an undefined result. -/
def Undefined.text : Undefined → String
  | polynomialPower e => "cannot raise to the polynomial power " ++ e
  | fractionalPower e => e ++ " is not a non-negative integer power"
  | noEliminant => "the elimination ideal has no generator without t"
  | lcmNotDividing f g =>
    "the product of " ++ f ++ " and " ++ g ++ " is not divisible by their lcm"
  | zeroDenominator n => "division of " ++ n ++ " by zero"
  | gcdNotDividing n d => "the gcd does not divide " ++ n ++ " / " ++ d
  | inverseOfZero => "inverse of zero"

/-- Why an operation has no answer. -/
inductive Failure where
  /-- a coefficient was divided by zero -/
  | zeroDivisor
  /-- the sum of two exponents exceeds `maxExponent` -/
  | exponentOverflow
  /-- a term was divided by a term with a larger exponent -/
  | indivisible
  /-- the leading term of the zero polynomial was asked for -/
  | noLead
  /-- a renaming does not name every variable once -/
  | renameCount
  /-- a level of a nested polynomial has no term -/
  | emptyLevel
  /-- a term has another number of exponents than there are variables -/
  | variableCount (got expected : Nat)
  /-- a list of terms is no polynomial -/
  | inconsistent (why : Defect) (shown : String)
  /-- an exponent row has the wrong length where the caller had to provide the right one -/
  | rowLength
  /-- the exponents given do not make up the given number of rows -/
  | raggedRows
  /-- there is no entry of this number -/
  | noSuchIndex
  /-- the exponents of one variable along a path of a nested polynomial exceed `maxExponent` -/
  | nestedOverflow
  /-- a numeric exponent has no absolute value in a word -/
  | exponentMagnitude
  /-- a computation met terms that are not in descending order -/
  | unordered
  /-- the expression has no polynomial representation -/
  | notPolynomial (why : NotPolynomial)
  /-- an operator has a number of operands that it does not take -/
  | malformed (op : Operator) (count : Nat)
  /-- the result is not defined -/
  | undefined (why : Undefined)
  /-- the completion did not finish within its budget -/
  | budgetExceeded (steps : Nat)
  /-- the completion was cancelled -/
  | aborted
  deriving DecidableEq, Repr

/-- The wording of a failure, if it has one. -/
def Failure.message? : Failure → Option String
  | zeroDivisor => some "Division by zero in coefficient"
  | exponentOverflow => some "overflow in adding exponents"
  | indivisible => some "Cannot divide monomials with exponents smaller than the divisor"
  | noLead => some "Zero polynomial has no leading monomial"
  | renameCount => some "The number of new variables does not match"
  | emptyLevel => some "Empty univariate polynomial"
  | variableCount got expected =>
    some ("nvars mismatched: got " ++ toString got ++ ", expected " ++ toString expected)
  | inconsistent why shown => some ("Inconsistent polynomial (" ++ why.text ++ "): " ++ shown)
  | rowLength | raggedRows | noSuchIndex | nestedOverflow | exponentMagnitude | unordered => none
  | notPolynomial why => some ("Not a polynomial: " ++ why.text)
  | malformed op count =>
    some ("Malformed expression: operator " ++ op.name ++ " cannot have " ++ toString count
      ++ " operands")
  | undefined why => some ("Undefined result: " ++ why.text)
  | budgetExceeded steps =>
    some ("The Groebner basis computation did not finish within " ++ toString steps ++ " steps")
  | aborted => some "The computation was aborted"

end Eliminant
