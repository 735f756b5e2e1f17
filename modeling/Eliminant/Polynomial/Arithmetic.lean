import Eliminant.Polynomial.Alignment
import Eliminant.Polynomial.Sparse

/-!
# The arithmetic of polynomials

Sums and products first align their operands. A product fails where an exponent would exceed
`maxExponent`; nothing else in here can fail on polynomials that are consistent.
-/

namespace Eliminant

namespace Polynomial

/-! ## 1. Sums -/

/-- The sum of two polynomials. -/
protected def add (p q : Polynomial) : Polynomial :=
  let (p, q) := align p q
  ⟨p.vars, p.terms.add q.terms⟩

/-- The opposite of a polynomial. -/
protected def neg (p : Polynomial) : Polynomial := { p with terms := p.terms.neg }

instance : Add Polynomial := ⟨Polynomial.add⟩
instance : Neg Polynomial := ⟨Polynomial.neg⟩
instance : Sub Polynomial := ⟨fun p q => p + -q⟩

/-! ## 2. Products with a coefficient or a term -/

/-- Multiplies every coefficient. -/
def scale (p : Polynomial) (c : Coefficient) : Polynomial := { p with terms := p.terms.scale c }

/-- Divides every coefficient by one that is not zero. -/
def divCoeff (p : Polynomial) (c : Coefficient) : Except Failure Polynomial := do
  return p.scale (← c.inv)

/-- Adds a row to every row. -/
def shift (p : Polynomial) (exps : Exponents) : Except Failure Polynomial :=
  if exps.length ≠ p.vars.length then .error .rowLength
  else do return { p with terms := ← p.terms.shift exps }

/-- Multiplies by a term. -/
def mulTerm (p : Polynomial) (t : Term) : Except Failure Polynomial :=
  (p.scale t.coeff).shift t.exps

/-- Multiplies such that the leading coefficient becomes `1`. -/
def monic (p : Polynomial) : Polynomial := { p with terms := p.terms.monic }

/-! ## 3. Products and powers -/

/-- The product of two polynomials, however many terms they have, where `visit` puts the entries of a
    table into the order in which they are visited. -/
def mulSparse (visit : RowTable → RowTable) (p q : Polynomial) : Except Failure Polynomial := do
  let (p, q) := align p q
  return ⟨p.vars, ← p.terms.mulVisiting visit q.terms⟩

/-- The product of two polynomials. A product with a single term needs no table. -/
protected def mul (p q : Polynomial) : Except Failure Polynomial := do
  let (p, q) := align p q
  let terms ←
    match p.terms, q.terms with
    | [], _ | _, [] => pure []
    | [t], us => us.mulTerm t
    | ts, [u] => ts.mulTerm u
    | ts, us => ts.mul us
  return ⟨p.vars, terms⟩

/-- `square ^ n * rest` for a positive `n`, by repeated squaring. -/
def powTimes (square rest : Polynomial) (n : Nat) : Except Failure Polynomial :=
  if n ≤ 1 then square.mul rest
  else do
    let rest ← if n % 2 = 1 then rest.mul square else pure rest
    powTimes (← square.mul square) rest (n / 2)
termination_by n

/-- The power `p ^ n`. -/
def pow (p : Polynomial) (n : Nat) : Except Failure Polynomial :=
  if n = 0 then .ok (one p.vars)
  else if p.isConstant then .ok (constant p.vars (p.leadCoeff.pow n))
  else powTimes p (one p.vars) n

/-- The power `p ^ e`, where `e` must be a constant that is a natural number. -/
def powPolynomial (p e : Polynomial) : Except Failure Polynomial :=
  if !e.isConstant then .error (.undefined (.polynomialPower e.text))
  else
    match e.constantTerm.toWord? with
    | some n =>
      if 0 ≤ n then p.pow n.toNat else .error (.undefined (.fractionalPower e.text))
    | none => .error (.undefined (.fractionalPower e.text))

end Polynomial

end Eliminant
