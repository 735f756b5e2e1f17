import Eliminant.Coefficient.Numeral

/-!
# Terms

A term is a coefficient and a row of exponents, one for each variable of its polynomial. Terms are
ordered by their rows alone, lexicographically: **the first variable is the most significant**, and
the row of zeros is the smallest of its length.

Rows of different length never meet inside a polynomial. Where they do meet, the operations look at
the common part: a product or quotient keeps what its left operand has beyond it, and a greatest
common divisor or least common multiple ends with the shorter row.
-/

namespace Eliminant

/-- A row of exponents. -/
abbrev Exponents := List Nat

namespace Exponents

/-- The lexicographic order on rows. -/
protected def compare : Exponents → Exponents → Ordering
  | [], [] => .eq
  | [], _ :: _ => .lt
  | _ :: _, [] => .gt
  | a :: as, b :: bs => if a < b then .lt else if b < a then .gt else Exponents.compare as bs

/-- Whether every exponent of `as` is at most the one of `bs`. -/
def divides (as bs : Exponents) : Bool := (as.zip bs).all fun (a, b) => a ≤ b

/-- Whether no variable occurs in both rows. -/
def coprime (as bs : Exponents) : Bool := (as.zip bs).all fun (a, b) => a == 0 || b == 0

/-- The smaller exponents. -/
def gcd (as bs : Exponents) : Exponents := List.zipWith min as bs

/-- The larger exponents. -/
def lcm (as bs : Exponents) : Exponents := List.zipWith max as bs

/-- The sums of the exponents, if all of them fit. -/
def add? : Exponents → Exponents → Except Failure Exponents
  | a :: as, b :: bs =>
    if a + b ≤ maxExponent then do return (a + b) :: (← add? as bs)
    else .error .exponentOverflow
  | as, _ => .ok as

/-- The differences of the exponents, if none is negative. -/
def sub? : Exponents → Exponents → Except Failure Exponents
  | a :: as, b :: bs => if b ≤ a then do return (a - b) :: (← sub? as bs) else .error .indivisible
  | as, _ => .ok as

/-- Whether all exponents are zero. -/
def isConstant (as : Exponents) : Bool := as.all (· == 0)

/-- The row of `n` zeros. -/
def zeros (n : Nat) : Exponents := List.replicate n 0

/-- The sum of all exponents. -/
def totalDegree (as : Exponents) : Nat := as.foldr (· + ·) 0

/-- The largest exponent. -/
def maxDegree (as : Exponents) : Nat := as.foldl max 0

end Exponents

/-- A term of a polynomial. -/
structure Term where
  coeff : Coefficient
  exps : Exponents
  deriving DecidableEq

namespace Term

/-- The term `1` in `n` variables. -/
def one (n : Nat) : Term := ⟨.one, .zeros n⟩

/-- The order on terms, which does not look at coefficients. -/
protected def compare (s t : Term) : Ordering := s.exps.compare t.exps

/-- The product of two terms. -/
def mul (s t : Term) : Except Failure Term := do
  let exps ← s.exps.add? t.exps
  return ⟨s.coeff * t.coeff, exps⟩

/-- The quotient of two terms, of which the second divides the first. -/
def div (s t : Term) : Except Failure Term := do
  let exps ← s.exps.sub? t.exps
  return ⟨← s.coeff.div t.coeff, exps⟩

/-- The greatest common divisor of two terms, with coefficient `1`. -/
def gcd (s t : Term) : Term := ⟨.one, s.exps.gcd t.exps⟩

/-- The least common multiple of two terms, with coefficient `1`. -/
def lcm (s t : Term) : Term := ⟨.one, s.exps.lcm t.exps⟩

end Term

end Eliminant
