import Eliminant.Coefficient.Basic

/-!
# Expressions

An expression is a number, a variable, a function call or an operator node. Calls and operator nodes
carry any number of operands: an operator node whose operator does not take that number is
**malformed**, and it stays an expression that can be compared, printed and looked into.

* `Expr.decEq`: equality of expressions is decidable (operands are compared one by one);
* `Expr.malformed?`: the first malformed node, operators before their operands;
* `Expr.size`: the number of nodes, the measure of everything that descends into operands.
-/

namespace Eliminant

/-- A mathematical expression. Variables and functions are known by their names. -/
inductive Expr where
  | num (value : Coefficient)
  | var (name : String)
  | call (name : String) (args : List Expr)
  | op (op : Operator) (args : List Expr)

namespace Expr

instance : Inhabited Expr := ⟨num .zero⟩

/-! ## 1. Equality -/

mutual
/-- Equality of expressions, decided. -/
def decEq : (a b : Expr) → Decidable (a = b)
  | num m, num n => decidable_of_iff (m = n) (by simp)
  | var x, var y => decidable_of_iff (x = y) (by simp)
  | call f as, call g bs =>
    have := decEqList as bs
    decidable_of_iff (f = g ∧ as = bs) (by simp)
  | op o as, op p bs =>
    have := decEqList as bs
    decidable_of_iff (o = p ∧ as = bs) (by simp)
  | num _, var _ | num _, call .. | num _, op .. => isFalse (by simp)
  | var _, num _ | var _, call .. | var _, op .. => isFalse (by simp)
  | call .., num _ | call .., var _ | call .., op .. => isFalse (by simp)
  | op .., num _ | op .., var _ | op .., call .. => isFalse (by simp)

/-- Equality of operand lists, decided. -/
def decEqList : (as bs : List Expr) → Decidable (as = bs)
  | [], [] => isTrue rfl
  | a :: as, b :: bs =>
    have := decEq a b
    have := decEqList as bs
    decidable_of_iff (a = b ∧ as = bs) (by simp)
  | [], _ :: _ | _ :: _, [] => isFalse (by simp)
end

instance : DecidableEq Expr := decEq

/-! ## 2. Parts -/

/-- The number `n` as an expression. -/
def int (n : Int) : Expr := num (.ofInt n)

/-- Whether an expression is the number `0`, unevaluated. -/
def isZero : Expr → Bool
  | num n => n.isZero
  | _ => false

/-- Whether an expression is the number `1`, unevaluated. -/
def isOne : Expr → Bool
  | num n => n.isOne
  | _ => false

mutual
/-- The number of nodes of an expression. -/
def size : Expr → Nat
  | num _ | var _ => 1
  | call _ args | op _ args => sizeList args + 1

/-- The number of nodes of an operand list. -/
def sizeList : List Expr → Nat
  | [] => 0
  | a :: as => size a + sizeList as
end

mutual
/-- The first malformed operator and its number of operands. A node comes before its operands, and
    the arguments of calls count. -/
def malformed? : Expr → Option (Operator × Nat)
  | num _ | var _ => none
  | call _ args => malformedList? args
  | op o args => if o.accepts args.length then malformedList? args else some (o, args.length)

/-- The first malformed operator of an operand list. -/
def malformedList? : List Expr → Option (Operator × Nat)
  | [] => none
  | a :: as => (malformed? a).or (malformedList? as)
end

end Expr

end Eliminant
