import Eliminant.Expr.Outline

/-!
# The written form of an expression

Operators are written between, before or behind their operands, and an operand is put in brackets
when it binds less tightly than its place demands. Each place demands a least binding strength:

* the terms of a sum one more than a sum has, so that a sum inside a sum keeps its brackets;
* the first factor of a product that of a negation;
* the later factors, the operand of a negation and a divisor one more than a product. A negation binds as
  tightly, and so it stands there with a bare sign, as in `x*-y`;
* base and exponent of a power one more than a power;
* what carries a subscript or a prime that of a subscript, and the subscript itself the greatest.

A malformed node has no places for its operands and is written as its outline.
-/

namespace Eliminant

namespace Expr

/-- The greatest binding strength: never put in brackets. -/
def strongest : Nat := 255

/-- How tightly the written form of an expression binds. A negative number binds like a negation and
    a fraction like a quotient. -/
def strength : Expr → Nat
  | num n =>
    if n.isNegative then Operator.neg.precedence
    else if n.isInteger then strongest
    else Operator.div.precedence
  | var _ | call .. => strongest
  | op o _ => o.precedence

/-- Whether the written form of a term starts with a minus sign that can stand for the sign between
    two terms. -/
def startsWithMinus : Expr → Bool
  | num n => n.isNegative
  | op .neg [_] => true
  | op .mul (num n :: _) => n.isNegative
  | _ => false

/-- The binding strength of a place whose operand may bind like the operator `o`. -/
def loose (o : Operator) : Nat := o.precedence

/-- The binding strength of a place whose operand must bind more tightly than the operator `o`. -/
def tight (o : Operator) : Nat := o.precedence + 1

/-- A written form in a place that demands the binding strength `least`. -/
def inPlace (least : Nat) (a : Expr) (written : String) : String :=
  if a.strength < least then "(" ++ written ++ ")" else written

/-- A later term of a sum, behind its sign. -/
def laterTerm (a : Expr) (written : String) : String :=
  (if a.startsWithMinus then "" else "+") ++ inPlace (tight .add) a written

/-- A later factor of a product, behind an asterisk. -/
def laterFactor (a : Expr) (written : String) : String := "*" ++ inPlace (tight .mul) a written

mutual
/-- The written form of an expression. -/
def text : Expr → String
  | num n => n.text
  | var x => x
  | call f args => f ++ "(" ++ String.intercalate "," (texts args) ++ ")"
  | op .add (a :: b :: rest) =>
    inPlace (tight .add) a (text a)
      ++ String.join (List.zipWith laterTerm (b :: rest) (texts (b :: rest)))
  | op .sub [a, b] =>
    inPlace (loose .sub) a (text a) ++ "-" ++ inPlace (tight .sub) b (text b)
  | op .mul (a :: b :: rest) =>
    inPlace (loose .neg) a (text a)
      ++ String.join (List.zipWith laterFactor (b :: rest) (texts (b :: rest)))
  | op .div [a, b] =>
    inPlace (loose .div) a (text a) ++ "/" ++ inPlace (tight .div) b (text b)
  | op .neg [a] => "-" ++ inPlace (tight .mul) a (text a)
  | op .pow [a, b] =>
    inPlace (tight .pow) a (text a) ++ "^" ++ inPlace (tight .pow) b (text b)
  | op .subscript [a, b] =>
    inPlace (loose .subscript) a (text a) ++ "_" ++ inPlace strongest b (text b)
  | op .prime [a] => inPlace (loose .prime) a (text a) ++ "'"
  | op o args => (op o args).outline

/-- The written forms of an operand list. -/
def texts : List Expr → List String
  | [] => []
  | a :: as => text a :: texts as
end

end Expr

end Eliminant
