import Eliminant.Expr.Basic
import Eliminant.Order.Sort

/-!
# The order on expressions

Numbers come first, by value; then variables, by name; then calls, by name and arguments; then
operator nodes, by operator and operands. Operand lists are compared entry by entry, and a list that
ends first comes first. Names are compared character by character.

The order ranks the variables of polynomials: **a smaller variable is more significant**.
-/

namespace Eliminant

namespace Expr

/-- The place of a kind of expression in the order. -/
def kindRank : Expr → Nat
  | num _ => 0
  | var _ => 1
  | call .. => 2
  | op .. => 3

mutual
/-- The order on expressions. -/
protected def compare : Expr → Expr → Ordering
  | num m, num n => m.compare n
  | var x, var y => compare x y
  | call f as, call g bs => (compare f g).then (compareList as bs)
  | op o as, op p bs => (o.compare p).then (compareList as bs)
  | a, b => compare a.kindRank b.kindRank

/-- The order on operand lists. -/
def compareList : List Expr → List Expr → Ordering
  | [], [] => .eq
  | [], _ :: _ => .lt
  | _ :: _, [] => .gt
  | a :: as, b :: bs => (Expr.compare a b).then (compareList as bs)
end

/-- The expressions of a list in ascending order. -/
def sort (as : List Expr) : List Expr := sortBy Expr.compare as

end Expr

end Eliminant
