import Eliminant.Expr.Normal
import Eliminant.Polynomial.Arithmetic

/-!
# Expressions as polynomials

An expression becomes a polynomial in its names and kernels. What cannot be decomposed becomes a
kernel as a whole, in normal form: calls, subscripts, primes, quotients by anything but a number,
powers without a numeric exponent, and

* products and powers whose exponents could exceed `maxExponent`;
* powers above `maxFoldedExponent` of anything but a single variable product with coefficient `1` or
  `-1`, which would be expanded beyond measure.

A power `b ^ (n / d)` is the `n`-th power of the kernel `b ^ (1 / d)`. Negative powers and divisions
by zero are refused, and a malformed operator anywhere refuses the whole expression.
-/

namespace Eliminant

namespace Polynomial

/-- The polynomial that is an expression as one variable. An expression that normalizes to a number
    or a name is that number or name. -/
def ofKernel (a : Expr) : Except Failure Polynomial := do
  match ← a.normalize with
  | .num n => return ofConstant n
  | .var x => return ofVariable (.symbol x)
  | a => return ofVariable (.kernel a)

/-- Whether `p ^ n` is expanded. -/
def fitsPower (p : Polynomial) (n : Nat) : Bool :=
  if maxExponent < p.maxDegree * n then false
  else if n ≤ maxFoldedExponent || p.isZero then true
  else
    p.terms.length == 1 && !p.isConstant && (p.leadCoeff.isOne || (-p.leadCoeff).isOne)

mutual
/-- The polynomial of an expression without malformed operators. -/
def convert : Expr → Except Failure Polynomial
  | .num n => .ok (ofConstant n)
  | .var x => .ok (ofVariable (.symbol x))
  | .call f args => ofKernel (.call f args)
  | .op o args =>
    let whole := Expr.op o args
    match whole.constant? with
    | some c => .ok (ofConstant c)
    | none =>
      match o, args with
      | .add, args => convertTerms (ofConstant .zero) args
      | .mul, args => convertFactors whole (ofConstant .one) args
      | .sub, [a, b] => do
        let p ← convert a
        let q ← convert b
        return p - q
      | .neg, [a] => do return -(← convert a)
      | .div, [a, b] =>
        match b.constant? with
        | some d =>
          match d.inv with
          | .ok i => do return (← convert a).scale i
          | .error _ => .error (.notPolynomial (.divisionByZero whole.text))
        | none => ofKernel whole
      | .pow, [a, b] =>
        match b.constant? with
        | none => ofKernel whole
        | some e =>
          if e.isNegative then .error (.notPolynomial (.negativePower whole.text))
          else
            match e.toWords? with
            | none => ofKernel whole
            | some (n, d) =>
              if (maxExponent : Int) < n then ofKernel whole
              else if d = 1 then do
                let p ← convert a
                if p.fitsPower n.toNat then p.pow n.toNat else ofKernel whole
              else do
                let root ← ofKernel (.op .pow [a, .num (.ofWide 1 d)])
                root.pow n.toNat
      | _, _ => ofKernel whole

/-- The sum of `sum` and the polynomials of the terms. -/
def convertTerms (sum : Polynomial) : List Expr → Except Failure Polynomial
  | [] => .ok sum
  | a :: as => do
    let p ← convert a
    convertTerms (sum + p) as

/-- The product of `product` and the polynomials of the factors; `whole` becomes a kernel where the
    exponents could grow too large. -/
def convertFactors (whole : Expr) (product : Polynomial) : List Expr → Except Failure Polynomial
  | [] => .ok product
  | a :: as => do
    let p ← convert a
    if maxExponent < product.maxDegree + p.maxDegree then ofKernel whole
    else convertFactors whole (← product.mul p) as
end

/-- The polynomial of an expression. -/
def ofExpr (a : Expr) : Except Failure Polynomial :=
  match a.malformed? with
  | some (op, n) => .error (.malformed op n)
  | none => convert a

/-- The polynomial of an expression; one without a polynomial is a kernel as a whole. -/
def ofExprOrKernel (a : Expr) : Except Failure Polynomial :=
  match ofExpr a with
  | .error (.notPolynomial _) => ofKernel a
  | r => r

/-! ## Polynomials as expressions -/

/-- The expression of a term, not normalized. -/
def termExpr (vars : List Variable) (t : Term) : Expr :=
  let powers := (powers vars t.exps).map fun (v, e) =>
    if e = 1 then v.toExpr else .op .pow [v.toExpr, .int e]
  match if t.coeff.isOne then powers else .num t.coeff :: powers with
  | [] => .num .one
  | [a] => a
  | factors => .op .mul factors

/-- The normal form of the expression that a polynomial stands for. -/
def toExpr (p : Polynomial) : Except Failure Expr :=
  match p.terms.reverse.map (termExpr p.vars) with
  | [] => Expr.normalize (.num .zero)
  | [a] => a.normalize
  | terms => Expr.normalize (.op .add terms)

end Polynomial

end Eliminant
