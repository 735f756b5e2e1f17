/-!
# Operators of expressions

An operator node carries a list of operands of any length; the operator says how many of them it
takes. This file fixes

* the eight operators and their order, which is part of the order on expressions;
* `Operator.arity`: the number of operands, `none` for "two or more";
* `Operator.precedence`: how tightly an operator binds when it is written down.
-/

namespace Eliminant

/-- An operator of an expression node. The constructors stand in the order of `Operator.rank`. -/
inductive Operator where
  | add
  | sub
  | mul
  | div
  | neg
  | pow
  | subscript
  | prime
  deriving DecidableEq, Repr

namespace Operator

/-- The number of operands an operator takes; `none` stands for two or more. -/
def arity : Operator → Option Nat
  | add | mul => none
  | sub | div | pow | subscript => some 2
  | neg | prime => some 1

/-- Whether an operator takes `n` operands. -/
def accepts (o : Operator) (n : Nat) : Bool :=
  match o.arity with
  | some k => k == n
  | none => 2 ≤ n

/-- The binding strength of an operator: a larger number binds more tightly. -/
def precedence : Operator → Nat
  | add | sub => 7
  | mul | div => 8
  | neg => 10
  | pow => 11
  | subscript | prime => 12

/-- The place of an operator in the order on operators. -/
def rank : Operator → Nat
  | add => 0
  | sub => 1
  | mul => 2
  | div => 3
  | neg => 4
  | pow => 5
  | subscript => 6
  | prime => 7

/-- The order on operators. -/
protected def compare (a b : Operator) : Ordering := compare a.rank b.rank

/-- The name of an operator in messages and outlines. -/
def name : Operator → String
  | add => "Add"
  | sub => "Sub"
  | mul => "Mul"
  | div => "Div"
  | neg => "Neg"
  | pow => "Pow"
  | subscript => "Subscript"
  | prime => "Prime"

/-- All operators, in their order. -/
def all : List Operator := [add, sub, mul, div, neg, pow, subscript, prime]

theorem rank_injective {a b : Operator} (h : a.rank = b.rank) : a = b := by
  cases a <;> cases b <;> simp_all [rank]

end Operator

end Eliminant
