import Eliminant.Polynomial.Basic

/-!
# Nested polynomials

A nested polynomial is a coefficient, or a polynomial in one variable whose coefficients are nested
polynomials in turn.

* `Polynomial.toNested` nests a polynomial with its first variable outermost and leaves out
  variables that do not occur. What it yields is regular: the exponents of a level ascend, no
  coefficient is zero, no level is a single term with exponent zero, and the variables keep their
  order inwards;
* `Nested.toPolynomial` multiplies any nested polynomial out, also one that is not regular:
  variables may repeat along a path, and terms may repeat and cancel;
* `Nested.leadingPowers` descends along the last terms to the leading term.
-/

namespace Eliminant

/-- A polynomial in one variable at a time. -/
inductive Nested where
  | constant (c : Coefficient)
  | level (v : Variable) (terms : List (Nat × Nested))

namespace Nested

instance : Inhabited Nested := ⟨constant .zero⟩

/-! ## 1. From polynomials -/

/-- Groups adjacent rows by their first exponent, which is taken off. -/
def groupRows : List Term → List (Nat × List Term)
  | [] => []
  | t :: ts =>
    let e := t.exps.headD 0
    let rest : Term := ⟨t.coeff, t.exps.tail⟩
    match groupRows ts with
    | (f, group) :: groups =>
      if e = f then (e, rest :: group) :: groups else (e, [rest]) :: (f, group) :: groups
    | [] => [(e, [rest])]

/-- Nests ascending terms over the given variables. -/
def ofTerms : List Variable → List Term → Nested
  | _, [] => constant .zero
  | [], t :: _ => constant t.coeff
  | v :: vs, ts =>
    match groupRows ts with
    | [(0, group)] => ofTerms vs group
    | groups => level v (groups.map fun (e, group) => (e, ofTerms vs group))

/-! ## 2. To polynomials -/

mutual
/-- The variables in the order in which they are met, each once, behind those met before. -/
def collect (met : List Variable) : Nested → List Variable
  | constant _ => met
  | level v terms => collectTerms (if v ∈ met then met else met ++ [v]) terms

/-- The variables of the coefficients of a level, behind those met before. -/
def collectTerms (met : List Variable) : List (Nat × Nested) → List Variable
  | [] => met
  | (_, c) :: rest => collectTerms (collect met c) rest
end

mutual
/-- Adds the terms of a nested polynomial, times the row `exps`, to `sum`. -/
def addTo (vars : List Variable) (exps : Exponents) (sum : Terms) : Nested → Except Failure Terms
  | constant c => .ok (if c.isZero then sum else sum.insert ⟨c, exps⟩)
  | level v terms => addTermsTo vars (vars.findIdx (· = v)) exps sum terms

/-- Adds the terms of a level in the variable number `i`. -/
def addTermsTo (vars : List Variable) (i : Nat) (exps : Exponents) (sum : Terms) :
    List (Nat × Nested) → Except Failure Terms
  | [] => .ok sum
  | (e, c) :: rest =>
    let f := exps.getD i 0 + e
    if maxExponent < f then .error .nestedOverflow
    else do
      let sum ← addTo vars (exps.set i f) sum c
      addTermsTo vars i exps sum rest
end

/-- Multiplies a nested polynomial out, over the sorted list of its variables. -/
def toPolynomial (r : Nested) : Except Failure Polynomial := do
  let vars := Variable.sort (r.collect [])
  return ⟨vars, ← r.addTo vars (.zeros vars.length) []⟩

/-! ## 3. Parts -/

/-- Whether a nested polynomial is the coefficient `0`. -/
def isZero : Nested → Bool
  | constant c => c.isZero
  | level .. => false

mutual
/-- The variables and exponents met on the way along the last terms, and the coefficient at its end.
    Exponents `0` are left out. -/
def leadingPowers : Nested → Except Failure (List (Variable × Nat) × Coefficient)
  | constant c => .ok ([], c)
  | level v terms => do
    let (e, powers, c) ← leadingOfTerms terms
    return (if 0 < e then (v, e) :: powers else powers, c)

/-- The exponent of the last term of a level, and what leads its coefficient. -/
def leadingOfTerms : List (Nat × Nested) →
    Except Failure (Nat × List (Variable × Nat) × Coefficient)
  | [] => .error .emptyLevel
  | [(e, c)] => do return (e, ← leadingPowers c)
  | _ :: next :: rest => leadingOfTerms (next :: rest)
end

mutual
/-- The number of coefficients that are not `0`. -/
def termCount : Nested → Nat
  | constant c => if c.isZero then 0 else 1
  | level _ terms => termCountList terms

/-- The number of coefficients of a level that are not `0`. -/
def termCountList : List (Nat × Nested) → Nat
  | [] => 0
  | (_, c) :: rest => termCount c + termCountList rest
end

/-! ## 4. The written form -/

/-- The factor in front of the power of a variable, with its asterisk. The coefficients `1` and `-1`
    are not written out, and a sum stands in brackets. -/
def factorText (c : Nested) (written : String) : String :=
  match c with
  | constant n =>
    if n.isOne then "" else if (-n).isOne then "-" else written ++ "*"
  | level .. => if 1 < c.termCount then "(" ++ written ++ ")*" else written ++ "*"

/-- The power of a variable as it is written behind its factor. -/
def powerText (v : Variable) (e : Nat) : String :=
  if e = 0 then "" else v.text ++ (if e = 1 then "" else "^" ++ toString e)

/-- Puts a plus sign between two terms, unless the factor of the second brings its own sign. -/
def plusBefore (factor : String) : String := if factor.toList.head? = some '-' then "" else "+"

/-- A later term of a level, from its written factor and power. -/
def laterTermText : String × String → String
  | (factor, power) => plusBefore factor ++ factor ++ power

/-- A level from the written factors and powers of its terms. -/
def joinText : List (String × String) → String
  | [] => ""
  | (factor, power) :: rest => factor ++ power ++ String.join (rest.map laterTermText)

mutual
/-- The written form of a nested polynomial, the last terms first. -/
def text : Nested → String
  | constant c => c.text
  | level v terms => joinText (termTexts v terms).reverse

/-- The written factors and powers of the terms of a level in `v`. -/
def termTexts (v : Variable) : List (Nat × Nested) → List (String × String)
  | [] => []
  | (e, c) :: rest =>
    (if e = 0 then text c else factorText c (text c), powerText v e) :: termTexts v rest
end

end Nested

/-- Nests a polynomial, its first variable outermost. -/
def Polynomial.toNested (p : Polynomial) : Nested := Nested.ofTerms p.vars p.terms.reverse

end Eliminant
