import Eliminant.Polynomial.Arithmetic
import Eliminant.Polynomial.Descent

/-!
# Division by several polynomials

The leading term of what is left of the dividend is eliminated with the first divisor whose leading
row divides it; a leading term that no divisor eliminates moves to the remainder. Zero divisors are
passed over.

* `Division` is the state of a division and `Division.step` one such step;
* `Terms.divide` divides sums over one list of variables;
* `Polynomial.divide` aligns first, and `Polynomial.quotients` collects the quotients.

At every step `dividend = Σ quotient * divisor + remainder + rest`, and the leading row of the rest
gets smaller, so that the division ends.
-/

namespace Eliminant

/-- An elimination: the number of the divisor and the term it was multiplied by. -/
abbrev Elimination := Nat × Term

/-- The state of a division. Eliminations and remainder are listed with the latest first. -/
structure Division where
  eliminations : List Elimination
  remainder : Terms
  rest : Terms

namespace Division

/-- The first divisor from number `i` on whose leading row divides a row: its number, its leading
    term and itself. -/
def firstDivisor (row : Exponents) (i : Nat) : List Terms → Option (Nat × Term × Terms)
  | [] => none
  | [] :: divisors => firstDivisor row (i + 1) divisors
  | (lead :: more) :: divisors =>
    if lead.exps.divides row then some (i, lead, lead :: more)
    else firstDivisor row (i + 1) divisors

/-- One step of a division; `none` at the end. -/
def step (divisors : List Terms) (s : Division) : Except Failure (Option Division) :=
  match s.rest with
  | [] => .ok none
  | t :: rest =>
    match firstDivisor t.exps 0 divisors with
    | none => .ok (some { s with remainder := t :: s.remainder, rest := rest })
    | some (i, lead, divisor) => do
      let q ← t.div lead
      let product ← divisor.mulTerm q
      return some { s with
        eliminations := (i, q) :: s.eliminations
        rest := Terms.sub (t :: rest) product }

/-- Divides to the end. -/
def run (divisors : List Terms) (s : Division) : Except Failure Division :=
  match step divisors s with
  | .error e => .error e
  | .ok none => .ok s
  | .ok (some next) =>
    if next.rest.LeadBelow s.rest then run divisors next else .error .unordered
termination_by Terms.leadBelow_wf.wrap s.rest

end Division

namespace Terms

/-- Divides a sum: the eliminations in their order, and the remainder. -/
def divide (ts : Terms) (divisors : List Terms) : Except Failure (List Elimination × Terms) := do
  let s ← Division.run divisors ⟨[], [], ts⟩
  return (s.eliminations.reverse, s.remainder.reverse)

/-- The remainder of a division. -/
def remainder (ts : Terms) (divisors : List Terms) : Except Failure Terms := do
  return (← ts.divide divisors).2

end Terms

namespace Polynomial

/-- Divides a polynomial by several: the eliminations in their order, and the remainder. -/
def divide (f : Polynomial) (divisors : List Polynomial) :
    Except Failure (List Elimination × Polynomial) :=
  match alignAll (f :: divisors) with
  | [] => .ok ([], f)
  | f :: divisors => do
    let (eliminations, r) ← f.terms.divide (divisors.map (·.terms))
    return (eliminations, ⟨f.vars, r⟩)

/-- The sum of the terms with which the divisor number `i` was multiplied. -/
def quotient (vars : List Variable) (eliminations : List Elimination) (i : Nat) : Polynomial :=
  ⟨vars, eliminations.foldr (fun (j, q) ts => if j = i then ts.insert q else ts) []⟩

/-- Divides a polynomial by several: the quotient of each, and the remainder. -/
def quotients (f : Polynomial) (divisors : List Polynomial) :
    Except Failure (List Polynomial × Polynomial) := do
  let (eliminations, r) ← f.divide divisors
  return ((List.range divisors.length).map (quotient r.vars eliminations), r)

end Polynomial

end Eliminant
