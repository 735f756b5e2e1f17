import Eliminant.Proofs.Expr.Meaning
import Eliminant.Proofs.Polynomial.OfExpr

/-!
# Polynomials mean what expressions mean

A polynomial is evaluated term by term, at the values of its variables
(`Interpretation.evalPolynomial`): a symbol has the value of its name, and a kernel that of its
expression. This is the value of the polynomial that its terms denote
(`Interpretation.evalPolynomial_eq`).

**`Polynomial.evalPolynomial_of_ofExpr`**: an expression that has a value and is converted to a
polynomial gives every variable of it a value, and the polynomial has the value of the expression.
-/

namespace Eliminant

variable {K : Type} [Field K] [LinearOrder K] [IsStrictOrderedRing K] {a : Expr} {p : Polynomial}
  {x : K}

namespace Interpretation

variable (I : Interpretation K)

/-- The value of a term: its coefficient times the powers of its variables. -/
def evalTerm (vars : List Variable) (t : Term) : K :=
  t.coeff.toRat * ((vars.zip t.exps).map fun p => I.valueOf p.1 ^ p.2).prod

/-- **The value of a polynomial**: the sum of the values of its terms. -/
def evalPolynomial (p : Polynomial) : K := (p.terms.map (I.evalTerm p.vars)).sum

theorem evalTerms_eq {vars : List Variable} {ts : Terms}
    (len : ∀ t ∈ ts, t.exps.length = vars.length) :
    (ts.map (I.evalTerm vars)).sum =
      I.evalMv (MvPolynomial.rename vars.get (Terms.toMv vars.length ts)) := by
  induction ts with
  | nil => rw [Terms.toMv_nil, map_zero, map_zero, List.map_nil, List.sum_nil]
  | cons t ts ih =>
    obtain ⟨first, later⟩ := List.forall_mem_cons.mp len
    rw [List.map_cons, List.sum_cons, Terms.toMv_cons, map_add, map_add, ih later,
      Polynomial.evalMv_monomial first]
    rfl

/-- Evaluating term by term is evaluating the polynomial that the terms denote. -/
theorem evalPolynomial_eq (hp : p.Consistent) : I.evalPolynomial p = I.evalMv p.toMv :=
  I.evalTerms_eq hp.1

end Interpretation

namespace Polynomial

/-- **An expression that is converted to a polynomial** gives all variables of the polynomial values,
    and at these the polynomial has the value of the expression, whatever names, calls, subscripts,
    primes and powers mean. -/
theorem evalPolynomial_of_ofExpr (I : Interpretation K) (value : I.eval a = some x)
    (run : ofExpr a = .ok p) :
    p.Ordinary ∧ (∀ v ∈ p.vars, I.eval v.toExpr = some (I.valueOf v)) ∧ I.evalPolynomial p = x := by
  have converted : convert a = .ok p := by
    unfold ofExpr at run
    split at run
    · cases run
    · exact run
  have stands := (convert_stands (I := I) a (List.Subset.refl a.names)).of_ok converted
  obtain ⟨defines, denotes⟩ := stands.denotes x value
  refine ⟨stands.ordinary, defines, ?_⟩
  rw [I.evalPolynomial_eq stands.ordinary.sound.consistent, denotes]

/-- `x ^ (3/2) + f(x) / 2` is a polynomial in `f(x)` and `x ^ (1/2)`, and both are `10` where `x` and `f(x)`
    are `4`. -/
theorem evalPolynomial_of_ofExpr_at :
    let half : Coefficient := .small 1 2 (by decide) (by decide) (by decide) (by decide)
    let threeHalves : Coefficient := .small 3 2 (by decide) (by decide) (by decide) (by decide)
    let f := Expr.call "f" [.var "x"]
    let a := Expr.op .add [.op .pow [.var "x", .num threeHalves], .op .div [f, .int 2]]
    let p : Polynomial := ⟨[.kernel f, .kernel (.op .pow [.var "x", .num half])],
      [⟨half, [1, 0]⟩, ⟨.one, [0, 3]⟩]⟩
    let I := Interpretation.ofRealPowers (fun _ => some 4) (fun _ xs => some xs.sum)
      (fun _ _ => none) fun _ => none
    I.eval a = some 10 ∧ ofExpr a = .ok p ∧ I.evalPolynomial p = 10 := by
  intro half threeHalves f a p I
  have run : ofExpr a = .ok p := by cbv
  have base : I.eval (.var "x") = some 4 := rfl
  have power : I.eval (.op .pow [.var "x", .num threeHalves]) = some 8 := by
    have exponent : (threeHalves.toRat : ℝ) = 3 / 2 := by
      rw [Coefficient.toRat_small, Rat.divInt_eq_div]
      norm_num
    refine Interpretation.eval_pow_num_iff.mpr ⟨4, base, (Powers.reals_pow four_pos _).trans ?_⟩
    have root : (4 : ℝ) ^ (1 / 2 : ℝ) = 2 := by
      rw [← Real.sqrt_eq_rpow, show (4 : ℝ) = 2 ^ 2 by norm_num, Real.sqrt_sq two_pos.le]
    rw [exponent, show (3 / 2 : ℝ) = 1 / 2 * (3 : ℕ) by norm_num, Real.rpow_mul_natCast four_pos.le,
      root]
    norm_num
  have quotient : I.eval (.op .div [f, .int 2]) = some 2 := by
    have call : I.eval f = some 4 :=
      Interpretation.eval_call_eq_some_iff.mpr ⟨[4], .cons base .nil, by simp [I,
        Interpretation.ofRealPowers]⟩
    have two : I.eval (.int 2) = some 2 := congrArg some (by norm_num)
    refine Interpretation.eval_two_iff.mpr ⟨4, 2, call, two, (if_neg two_ne_zero).trans ?_⟩
    norm_num
  have value : I.eval a = some 10 := Interpretation.eval_add_iff.mpr
    ⟨le_rfl, 8, 2, power, Interpretation.sumsTo_singleton.mpr quotient, by norm_num⟩
  exact ⟨value, run, (evalPolynomial_of_ofExpr I value run).2.2⟩

end Polynomial

end Eliminant
