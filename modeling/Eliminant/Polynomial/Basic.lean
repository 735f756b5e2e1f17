import Eliminant.Polynomial.Terms
import Eliminant.Variable

/-!
# Polynomials

A polynomial is a list of variables and a sum of terms over them. The list is part of the value: it
may hold variables that do not occur, in any order, and two polynomials that differ only in it are
aligned before they are compared or combined.

* `Polynomial.Consistent` is the invariant that every operation keeps: the terms are in descending
  order, without zero coefficients, and every row has one exponent for each variable;
* `Polynomial.check` decides it and names the first defect.
-/

namespace Eliminant

/-- A polynomial with rational coefficients. -/
structure Polynomial where
  vars : List Variable
  terms : Terms
  deriving DecidableEq

namespace Polynomial

/-- **The invariant of polynomials.** -/
def Consistent (p : Polynomial) : Prop := p.terms.Descending p.vars.length

/-! ## 1. Making polynomials -/

/-- The zero polynomial over `vars`. -/
def zero (vars : List Variable) : Polynomial := ⟨vars, []⟩

/-- A constant over `vars`. -/
def constant (vars : List Variable) (c : Coefficient) : Polynomial :=
  ⟨vars, if c.isZero then [] else [⟨c, .zeros vars.length⟩]⟩

/-- The polynomial `1` over `vars`. -/
def one (vars : List Variable) : Polynomial := constant vars .one

/-- A constant without variables. -/
def ofConstant (c : Coefficient) : Polynomial := constant [] c

/-- The polynomial that is a variable. -/
def ofVariable (v : Variable) : Polynomial := ⟨[v], [⟨.one, [1]⟩]⟩

/-- A single term over `vars`. -/
def monomial (vars : List Variable) (c : Coefficient) (exps : Exponents) :
    Except Failure Polynomial :=
  if exps.length ≠ vars.length then .error .rowLength
  else .ok ⟨vars, if c.isZero then [] else [⟨c, exps⟩]⟩

/-- The variable number `i` of `vars`, as a polynomial over `vars`. -/
def nthVariable (vars : List Variable) (i : Nat) : Except Failure Polynomial :=
  if i < vars.length then .ok ⟨vars, [⟨.one, (Exponents.zeros vars.length).set i 1⟩]⟩
  else .error .noSuchIndex

/-- Adds a term. A coefficient `0` adds nothing, whatever its row. -/
def append (p : Polynomial) (c : Coefficient) (exps : Exponents) : Except Failure Polynomial :=
  if c.isZero then .ok p
  else if exps.length ≠ p.vars.length then .error (.variableCount exps.length p.vars.length)
  else .ok { p with terms := p.terms.insert ⟨c, exps⟩ }

/-! ## 2. Tests and parts -/

/-- Whether a polynomial is `0`. -/
def isZero (p : Polynomial) : Bool := p.terms.isEmpty

/-- Whether a polynomial is `1`. -/
def isOne (p : Polynomial) : Bool :=
  match p.terms with
  | [t] => t.coeff.isOne && t.exps.isConstant
  | _ => false

/-- Whether a polynomial has no variable. -/
def isConstant (p : Polynomial) : Bool := p.terms.isConstant

/-- The constant term. -/
def constantTerm (p : Polynomial) : Coefficient :=
  match p.terms.getLast? with
  | some t => if t.exps.isConstant then t.coeff else .zero
  | none => .zero

/-- The leading coefficient, `0` for the zero polynomial. -/
def leadCoeff (p : Polynomial) : Coefficient := p.terms.leadCoeff

/-- The leading term; that of the zero polynomial has the coefficient `0`. -/
def leadTerm (p : Polynomial) : Term :=
  match p.terms with
  | [] => ⟨.zero, .zeros p.vars.length⟩
  | t :: _ => t

/-- The row of the leading term of a polynomial that is not zero. -/
def leadExponents (p : Polynomial) : Except Failure Exponents :=
  match p.terms with
  | [] => .error .noLead
  | t :: _ => .ok t.exps

/-- The term number `i`, counted from the smallest. -/
def term (p : Polynomial) (i : Nat) : Except Failure Term :=
  match p.terms.reverse[i]? with
  | some t => .ok t
  | none => .error .noSuchIndex

/-- The degree in the variable number `i`. -/
def degree (p : Polynomial) (i : Nat) : Nat := p.terms.degree i

/-- The largest exponent of any variable in any term. -/
def maxDegree (p : Polynomial) : Nat := p.terms.maxDegree

/-- The number of the first occurrence of a variable in the list of variables. -/
def variableIndex? (p : Polynomial) (v : Variable) : Option Nat := p.vars.findIdx? (· = v)

/-- The variables of a row that occur in it, with their exponents. -/
def powers (vars : List Variable) (exps : Exponents) : List (Variable × Nat) :=
  (vars.zip exps).filter fun (_, e) => 0 < e

/-- Drops the variables that do not occur. -/
def prune (p : Polynomial) : Polynomial :=
  let kept := (List.range p.vars.length).filter fun i => 0 < p.degree i
  ⟨kept.filterMap fun i => p.vars[i]?,
    p.terms.map fun t => { t with exps := kept.map fun i => t.exps.getD i 0 }⟩

/-! ## 3. The written form -/

/-- The product of the powers of a row, behind an asterisk each but the first. -/
def powersText (behindFactor : Bool) : List (Variable × Nat) → String
  | [] => ""
  | (v, e) :: rest =>
    (if behindFactor then "*" else "") ++ v.text ++ (if e = 1 then "" else "^" ++ toString e)
      ++ powersText true rest

/-- A term without its sign. The coefficient `1` is written only where nothing else is. -/
def termText (vars : List Variable) (t : Term) : String :=
  let c := if t.coeff.isNegative then -t.coeff else t.coeff
  let written := !c.isOne || t.exps.isConstant
  (if written then c.text else "") ++ powersText written (powers vars t.exps)

/-- A later term, behind its sign. -/
def laterTermText (vars : List Variable) (t : Term) : String :=
  (if t.coeff.isNegative then "-" else "+") ++ termText vars t

/-- The written form of a polynomial, the leading term first. -/
def text (p : Polynomial) : String :=
  match p.terms with
  | [] => "0"
  | t :: ts =>
    (if t.coeff.isNegative then "-" else "") ++ termText p.vars t
      ++ String.join (ts.map (laterTermText p.vars))

/-! ## 4. The check -/

/-- The first defect in the order of ascending terms. -/
def orderDefect? : List Exponents → Option Defect
  | a :: b :: rest =>
    match b.compare a with
    | .eq => some .equalTerms
    | .lt => some .wrongOrder
    | .gt => orderDefect? (b :: rest)
  | _ => none

/-- Answers if the terms are consistent, else names the first defect. -/
def check (p : Polynomial) : Except Failure Unit :=
  if p.terms.any fun t => t.exps.length ≠ p.vars.length then .error .raggedRows
  else if p.terms.any (·.coeff.isZero) then .error (.inconsistent .zeroCoefficient p.text)
  else
    match orderDefect? (p.terms.reverse.map (·.exps)) with
    | some d => .error (.inconsistent d p.text)
    | none => .ok ()

/-- Cuts a list into rows of length `n`, as many as there are coefficients. -/
def rows (n : Nat) : List Coefficient → List Nat → Terms
  | [], _ => []
  | c :: cs, exps => ⟨c, exps.take n⟩ :: rows n cs (exps.drop n)

/-- The polynomial whose coefficients are listed from the smallest term, and whose rows are listed
    one after the other, if it is consistent. -/
def ofRows (vars : List Variable) (coeffs : List Coefficient) (exps : List Nat) :
    Except Failure Polynomial :=
  if exps.length ≠ coeffs.length * vars.length then .error .raggedRows
  else do
    let p : Polynomial := ⟨vars, (rows vars.length coeffs exps).reverse⟩
    p.check
    return p

end Polynomial

end Eliminant
