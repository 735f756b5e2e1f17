import Eliminant.Expr.Basic
import Eliminant.Coefficient.Numeral

/-!
# Outlines: the tree of an expression as text

An outline names every node and lists its operands, so that it can be written for any tree, also for
one whose operators have the wrong number of operands: `Op(Pow, [Var(x), Num(Natural(1, 2))])`.
-/

namespace Eliminant

/-- The outline of a coefficient, which tells the two representations apart. -/
def Coefficient.outline : Coefficient → String
  | .small num den .. => "Natural(" ++ toString num ++ ", " ++ toString den ++ ")"
  | .large r h => "Large(" ++ (Coefficient.large r h).text ++ ")"

namespace Expr

mutual
/-- The outline of an expression. -/
def outline : Expr → String
  | num n => "Num(" ++ n.outline ++ ")"
  | var x => "Var(" ++ x ++ ")"
  | call f args => "Fun(" ++ f ++ ", [" ++ String.intercalate ", " (outlines args) ++ "])"
  | op o args => "Op(" ++ o.name ++ ", [" ++ String.intercalate ", " (outlines args) ++ "])"

/-- The outlines of an operand list. -/
def outlines : List Expr → List String
  | [] => []
  | a :: as => outline a :: outlines as
end

end Expr

end Eliminant
