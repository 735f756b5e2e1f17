import Eliminant.Fraction.Placeholder
import Eliminant.Gcd
import Eliminant.Polynomial.OfExpr

/-!
# Fractions of polynomials in lowest terms

A fraction is a pair of polynomials. Reducing divides both by their greatest common divisor and by
the leading coefficient of the denominator, so that the denominator becomes monic
(`Polynomial.reduceFraction`). `Fraction.of` reduces with placeholders for the kernels, and all
arithmetic ends in it.

* `Fraction.add`, `sub`, `mul`, `div`, `neg`, `inv`: the field operations;
* `Fraction.ofExprs`, `Fraction.toExpr`: fractions of expressions, and back.
-/

namespace Eliminant

namespace Polynomial

/-- Numerator and denominator in lowest terms, the denominator monic. -/
def reduceFraction (settings : Settings) (num den : Polynomial) :
    Except Failure (Polynomial × Polynomial) :=
  let (num, den) := align num den
  if den.isZero then .error (.undefined (.zeroDenominator num.text))
  else if num.isZero then .ok (zero num.vars, one num.vars)
  else do
    let g := (← gcd settings num den).scale den.leadCoeff
    if g.isConstant then return (← num.divCoeff g.leadCoeff, ← den.divCoeff g.leadCoeff)
    else
      let (qn, rn) ← num.quotients [g]
      let (qd, rd) ← den.quotients [g]
      if !rn.isZero || !rd.isZero then
        .error (.undefined (.gcdNotDividing num.text den.text))
      else return (qn.headD (zero num.vars), qd.headD (zero num.vars))

end Polynomial

/-- A fraction of two polynomials. -/
structure Fraction where
  num : Polynomial
  den : Polynomial
  deriving DecidableEq

namespace Fraction

/-- The fraction `num / den` in lowest terms. -/
def of (settings : Settings) (num den : Polynomial) : Except Failure Fraction := do
  let (m, num) ← Placeholders.replace {} num
  let (m, den) ← m.replace den
  let (num, den) ← num.reduceFraction settings den
  return ⟨← m.restore num, ← m.restore den⟩

/-- The fraction `p / 1`. -/
def ofPolynomial (p : Polynomial) : Fraction := ⟨p, .one p.vars⟩

/-- The fraction of two expressions in lowest terms. -/
def ofExprs (settings : Settings) (num den : Expr) : Except Failure Fraction := do
  let num ← Polynomial.ofExprOrKernel num
  let den ← Polynomial.ofExprOrKernel den
  of settings num den

/-- Whether a fraction is `0`. -/
def isZero (r : Fraction) : Bool := r.num.isZero

/-- Whether two fractions have equal numerators and equal denominators. -/
def equal (r s : Fraction) : Bool := r.num.equal s.num && r.den.equal s.den

/-- The opposite of a fraction. -/
protected def neg (r : Fraction) : Fraction := { r with num := -r.num }

/-- The inverse of a fraction that is not zero. Only the leading coefficient of the old numerator
    has to be divided out, for the pair is already in lowest terms. -/
def inv (r : Fraction) : Except Failure Fraction :=
  if r.isZero then .error (.undefined .inverseOfZero)
  else do return ⟨← r.den.divCoeff r.num.leadCoeff, ← r.num.divCoeff r.num.leadCoeff⟩

/-- The sum of two fractions; equal denominators need no multiplication. -/
protected def add (settings : Settings) (r s : Fraction) : Except Failure Fraction :=
  if r.den.equal s.den then of settings (r.num + s.num) r.den
  else do
    let a ← r.num.mul s.den
    let b ← s.num.mul r.den
    of settings (a + b) (← r.den.mul s.den)

/-- The difference of two fractions. -/
protected def sub (settings : Settings) (r s : Fraction) : Except Failure Fraction :=
  r.add settings s.neg

/-- The product of two fractions. -/
protected def mul (settings : Settings) (r s : Fraction) : Except Failure Fraction := do
  let num ← r.num.mul s.num
  let den ← r.den.mul s.den
  of settings num den

/-- The quotient of two fractions, the second not zero. -/
protected def div (settings : Settings) (r s : Fraction) : Except Failure Fraction := do
  r.mul settings (← s.inv)

/-- The normal form of the expression that a fraction stands for. -/
def toExpr (r : Fraction) : Except Failure Expr := do
  if r.den.isOne then r.num.toExpr
  else
    let num ← r.num.toExpr
    let den ← r.den.toExpr
    Expr.normalize (.op .div [num, den])

/-- The written form of a fraction. -/
def text (r : Fraction) : String :=
  if r.den.isOne then r.num.text else "(" ++ r.num.text ++ ")/(" ++ r.den.text ++ ")"

end Fraction

/-- Numerator and denominator of a quotient of expressions in lowest terms. -/
def Expr.reduceFraction (settings : Settings) (num den : Expr) : Except Failure (Expr × Expr) := do
  let r ← Fraction.ofExprs settings num den
  return (← r.num.toExpr, ← r.den.toExpr)

end Eliminant
