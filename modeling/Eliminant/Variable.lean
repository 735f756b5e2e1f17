import Eliminant.Expr.Order
import Eliminant.Expr.Printer

/-!
# Variables of polynomials

A polynomial is built over variables that need not be names: an expression such as `sin(x)` or
`x^(1/2)`, which the engine does not look into, is a variable of its own (a **kernel**), and a
**temporary** stands for nothing but its number.

Symbols and kernels are ordered as the expressions they stand for, and temporaries come last. A
kernel that is a bare variable is another variable than the symbol of that name, but the two compare
equal; the conversion of expressions never makes such a kernel.
-/

namespace Eliminant

/-- A variable of a polynomial. -/
inductive Variable where
  | symbol (name : String)
  | kernel (expr : Expr)
  | temporary (number : Nat)
  deriving DecidableEq

/-- The names that stand for constants, each with the constant it stands for. They are symbols like
    any other. -/
def reservedConstants : List (String × String) := [("e", "E"), ("i", "I"), ("pi", "PI")]

/-- The constant that a name is reserved for. -/
def reservedConstant? (name : String) : Option String :=
  (reservedConstants.find? (·.1 = name)).map (·.2)

namespace Variable

/-- The written form of a temporary. -/
def temporaryText (number : Nat) : String := "_TMP_" ++ toString number

/-- The name of a symbol. -/
def symbol? : Variable → Option String
  | symbol name => some name
  | _ => none

/-- Whether a variable is a kernel. -/
def isKernel : Variable → Bool
  | kernel _ => true
  | _ => false

/-- The expression that a variable stands for; a temporary becomes a name. -/
def toExpr : Variable → Expr
  | symbol name => .var name
  | kernel a => a
  | temporary t => .var (temporaryText t)

/-- The order on variables. -/
protected def compare : Variable → Variable → Ordering
  | temporary s, temporary t => compare s t
  | temporary _, _ => .gt
  | _, temporary _ => .lt
  | u, v => u.toExpr.compare v.toExpr

/-- The written form of a variable. A kernel that is neither a name nor a call stands in brackets. -/
def text : Variable → String
  | symbol name => name
  | kernel (.var x) => x
  | kernel (.call f args) => (Expr.call f args).text
  | kernel a => "(" ++ a.text ++ ")"
  | temporary t => temporaryText t

/-- The variables of a list in ascending order. -/
def sort (vs : List Variable) : List Variable := sortBy Variable.compare vs

/-- Whether every variable of a list is smaller than the next. -/
def isSorted : List Variable → Bool
  | u :: v :: rest => u.compare v == .lt && isSorted (v :: rest)
  | _ => true

end Variable

end Eliminant
