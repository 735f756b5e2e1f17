import Eliminant.Groebner.Basis

/-!
# Greatest common divisors by elimination

With a new variable `t`, the polynomials without `t` in the ideal of `t * f` and `(1 - t) * g` are
the common multiples of `f` and `g`. When `t` is the most significant variable, the reduced Groebner
basis of the two has exactly one element without `t`, and that is the least common multiple
(`Polynomial.lcm`). The greatest common divisor is the product divided by it (`Polynomial.gcd`).

The new variable exists only as a column in front of the rows: `withoutFirst` and `timesFirst` put
it there, and `dropFirst` takes it away again.
-/

namespace Eliminant

namespace Terms

/-- A sum over one more variable in front, which does not occur. -/
def withoutFirst (ts : Terms) : Terms := ts.map fun t => { t with exps := 0 :: t.exps }

/-- A sum times one more variable in front. -/
def timesFirst (ts : Terms) : Terms := ts.map fun t => { t with exps := 1 :: t.exps }

/-- A sum without its first variable, which must not occur. -/
def dropFirst (ts : Terms) : Terms := ts.map fun t => { t with exps := t.exps.tail }

/-- The two sums whose elimination ideal is that of the common multiples of `f` and `g`. -/
def eliminationSystem (f g : Terms) : List Terms :=
  [f.timesFirst, g.withoutFirst.sub g.timesFirst]

end Terms

namespace Polynomial

/-- The least common multiple of two polynomials, monic. -/
def lcm (settings : Settings) (f g : Polynomial) : Except Failure Polynomial :=
  let (f, g) := align f g
  if f.isZero || g.isZero then .ok (zero f.vars)
  else if f.isConstant then .ok g.monic
  else if g.isConstant then .ok f.monic
  else do
    let (basis, _) ← Completion.ofSums (f.vars.length + 1) .lowestLead settings
      (Terms.eliminationSystem f.terms g.terms)
    match basis.find? fun p => p.degree 0 == 0 with
    | some p => return ⟨f.vars, p.dropFirst⟩
    | none => .error (.undefined .noEliminant)

/-- The greatest common divisor of two polynomials, monic. -/
def gcd (settings : Settings) (f g : Polynomial) : Except Failure Polynomial :=
  let (f, g) := align f g
  if f.isZero then .ok g.monic
  else if g.isZero then .ok f.monic
  else if f.isConstant || g.isConstant then .ok (one f.vars)
  else do
    let multiple ← lcm settings f g
    let product ← f.mul g
    let (qs, r) ← product.quotients [multiple]
    if !r.isZero then .error (.undefined (.lcmNotDividing f.text g.text))
    else return (qs.headD (zero f.vars)).monic

end Polynomial

end Eliminant
