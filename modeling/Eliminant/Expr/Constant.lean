import Eliminant.Expr.Basic

/-!
# Constant expressions

`Expr.constant?` is the exact value of an expression that holds no variable, call, subscript or
prime. There is none where the expression is malformed, divides by zero, raises zero to a negative
power or raises to a power that is no integer word. Powers above `maxFoldedExponent` are evaluated
only where the base is `0`, `1` or `-1`, so that a short expression never has an enormous value.
-/

namespace Eliminant

/-- The largest absolute value of an exponent that is multiplied out. -/
def maxFoldedExponent : Nat := 4096

namespace Coefficient

/-- The power `b ^ e` for an integer exponent, as far as it is evaluated. -/
def powConstant? (b : Coefficient) (e : Int) : Option Coefficient :=
  if b.isOne || (b.isZero && 0 < e) then some b
  else if (-b).isOne then some (if e % 2 = 0 then -b else b)
  else if maxFoldedExponent < e.natAbs then none
  else if 0 ≤ e then some (b.pow e.natAbs)
  else
    match b.inv with
    | .ok i => some (i.pow e.natAbs)
    | .error _ => none

end Coefficient

namespace Expr

mutual
/-- The exact value of a constant expression. -/
def constant? : Expr → Option Coefficient
  | num n => some n
  | var _ | call .. => none
  | op .add (a :: b :: rest) => sumConstants? (a :: b :: rest) .zero
  | op .mul (a :: b :: rest) => mulConstants? (a :: b :: rest) .one
  | op .sub [a, b] => do return (← constant? a) - (← constant? b)
  | op .neg [a] => do return -(← constant? a)
  | op .div [a, b] => do ((← constant? a).div (← constant? b)).toOption
  | op .pow [a, b] => do (← constant? a).powConstant? (← (← constant? b).toWord?)
  | op .. => none

/-- The sum of the values of `as` and of what has been summed before. -/
def sumConstants? : (as : List Expr) → Coefficient → Option Coefficient
  | [], sum => some sum
  | a :: as, sum => do sumConstants? as (sum + (← constant? a))

/-- The product of the values of `as` and of what has been multiplied before. -/
def mulConstants? : (as : List Expr) → Coefficient → Option Coefficient
  | [], product => some product
  | a :: as, product => do mulConstants? as (product * (← constant? a))
end

end Expr

end Eliminant
