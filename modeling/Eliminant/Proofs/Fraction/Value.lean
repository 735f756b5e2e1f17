import Eliminant.Proofs.Fraction.Reduced
import Eliminant.Proofs.Polynomial.OfExpr

/-!
# Reducing a quotient of expressions keeps its value

Numerator and denominator are converted, reduced with placeholders for their kernels and turned back
into expressions. Every stage keeps values, and so the reduced quotient has the value of the quotient
(**`Expr.reduceFraction_isReduction`**), whatever names, calls, subscripts and primes mean.
-/

namespace Eliminant

open Eliminant.Polynomial (StandsFor Stands ofExprOrKernel ofExprOrKernel_stands)

variable {K : Type} [Field K] [LinearOrder K] [IsStrictOrderedRing K] {I : Interpretation K}
  {known : List String} {num den : Expr} {out : Expr × Expr} {p q : Polynomial} {r : Fraction}

namespace Expr

/-- Wherever the quotient of two expressions has a value, so has the quotient of two others, and it is
    the same. -/
def SameQuotient (I : Interpretation K) (num den : Expr) (out : Expr × Expr) : Prop :=
  ∀ x y, I.eval num = some x → I.eval den = some y → y ≠ 0 →
    ∃ x' y', I.eval out.1 = some x' ∧ I.eval out.2 = some y' ∧ y' ≠ 0 ∧ x' * y = x * y'

/-- **A quotient of expressions that stands for another quotient**: it has its value in every
    interpretation, and no names but those of the other. So the name of a temporary occurs in it only
    if it occurs in the other. -/
structure IsReduction (num den : Expr) (out : Expr × Expr) : Prop where
  value : ∀ {K : Type} [Field K] [LinearOrder K] [IsStrictOrderedRing K] (I : Interpretation K),
    SameQuotient I num den out
  names : out.1.names ++ out.2.names ⊆ num.names ++ den.names

end Expr

namespace Fraction

open Eliminant.Expr (SameQuotient)

/-- The numerator and the denominator of a fraction, as expressions. -/
def toExprs (r : Fraction) : Except Failure (Expr × Expr) := do
  return (← r.num.toExpr, ← r.den.toExpr)

/-- **A fraction in lowest terms has the value of the quotient.** -/
theorem toExprs_answers {order : List Variable} (hp : StandsFor I known num p)
    (hq : StandsFor I known den q) (reduced : Reduced order r)
    (vars : r.den.vars = (p.align q).1.vars)
    (cross : r.num.toMv * q.toMv = p.toMv * r.den.toMv) :
    Answers Failure.IsMagnitude
      (fun out => SameQuotient I num den out ∧ out.1.Over known ∧ out.2.Over known) r.toExprs := by
  have values (s : Polynomial) (ordinary : s.Ordinary) (same : s.vars = (p.align q).1.vars) :
      Stands I known (fun x => (∃ y z, I.eval num = some y ∧ I.eval den = some z) ∧
        I.evalMv s.toMv = x) s := by
    refine hp.join hq ordinary same ?_
    rintro x ⟨⟨y, z, hy, hz⟩, hx⟩
    exact ⟨y, z, hy, hz, fun _ _ => hx⟩
  refine (Polynomial.toExpr_answers (values r.num reduced.num (reduced.vars_eq.trans vars))).bind
    fun n hn => ?_
  refine (Polynomial.toExpr_answers (values r.den reduced.den vars)).bind fun d hd => ?_
  refine ⟨fun x y hx hy ne => ?_, hn.2, hd.2⟩
  have left := (hp.denotes x hx).value
  have right := (hq.denotes y hy).value
  refine ⟨I.evalMv r.num.toMv, I.evalMv r.den.toMv, hn.1 _ ⟨⟨x, y, hx, hy⟩, rfl⟩,
    hd.1 _ ⟨⟨x, y, hx, hy⟩, rfl⟩, ?_, ?_⟩
  · -- the denominator divides the one that has been reduced
    have divides : r.den.toMv ∣ q.toMv :=
      reduced.coprime.symm.dvd_of_dvd_mul_left (cross ▸ dvd_mul_left _ _)
    obtain ⟨f, hf⟩ := divides
    rw [hf, map_mul] at right
    exact left_ne_zero_of_mul (right ▸ ne)
  · rw [← left, ← right, ← map_mul, cross, map_mul]

end Fraction

namespace Expr

/-- A quotient whose denominator is not the polynomial `0`. -/
theorem sameQuotient_answers (settings : Settings) (hn : num.malformed? = none)
    (hd : den.malformed? = none) (namesn : num.Over known) (namesd : den.Over known)
    (nonzero : ∀ p q, ofExprOrKernel num = .ok p → ofExprOrKernel den = .ok q → q.isZero = false) :
    Answers (fun e => e.IsLimit ∨ e.IsMagnitude)
      (fun out => SameQuotient I num den out ∧ out.1.Over known ∧ out.2.Over known)
      (reduceFraction settings num den) := by
  have failure (e : Failure) (h : e.IsMagnitude ∨ e.IsOverflow) : e.IsLimit ∨ e.IsMagnitude :=
    h.symm.imp_left Failure.IsOverflow.isLimit
  have convertn := ((ofExprOrKernel_stands (I := I) hn namesn).mono failure fun _ => id).with_run
  have convertd := ((ofExprOrKernel_stands (I := I) hd namesd).mono failure fun _ => id).with_run
  have reduce : Answers (fun e => e.IsLimit ∨ e.IsMagnitude) (fun r => ∃ p q order,
      StandsFor I known num p ∧ StandsFor I known den q ∧ Fraction.Reduced order r ∧
        r.den.vars = (p.align q).1.vars ∧ r.num.toMv * q.toMv = p.toMv * r.den.toMv)
      (Fraction.ofExprs settings num den) := by
    refine convertn.bind fun p hp => convertd.bind fun q hq => ?_
    refine (Fraction.of_answers settings hp.2.ordinary hq.2.ordinary
      (nonzero p q hp.1 hq.1)).mono (fun _ => Or.inl) fun r hr => ?_
    exact ⟨p, q, _, hp.2, hq.2, hr⟩
  refine reduce.bind fun r hr => ?_
  obtain ⟨p, q, order, hp, hq, reduced, vars, cross⟩ := hr
  exact (Fraction.toExprs_answers hp hq reduced vars cross).mono (fun _ => Or.inr) fun _ => id

/-- The denominator `0` is refused. -/
theorem reduceFraction_of_zero (settings : Settings) (hn : num.malformed? = none)
    (hd : den.malformed? = none) (runn : ofExprOrKernel num = .ok p)
    (rund : ofExprOrKernel den = .ok q) (zero : q.isZero = true) :
    ∃ u, reduceFraction settings num den = .error (.undefined u) := by
  have hp := (ofExprOrKernel_stands (I := .bare) hn (List.Subset.refl _)).of_ok runn
  have hq := (ofExprOrKernel_stands (I := .bare) hd (List.Subset.refl _)).of_ok rund
  obtain ⟨u, error⟩ := Fraction.of_zero settings hp.ordinary hq.ordinary zero
  refine ⟨u, ?_⟩
  unfold reduceFraction Fraction.ofExprs
  rw [runn, rund]
  show (Fraction.of settings p q >>= _) = _
  rw [error]
  rfl

/-- **Reducing a quotient of expressions**: what is answered has the value of the quotient, in every
    interpretation, and no new names. Well-formed expressions are never refused as malformed or as no
    polynomials: the answer is undefined exactly if the denominator is the polynomial `0`, and else
    there is none only where a limit is met or a power is too large for its word. -/
theorem reduceFraction_isReduction (settings : Settings) (hn : num.malformed? = none)
    (hd : den.malformed? = none) :
    Answers (fun e => (∃ u, e = .undefined u) ∨ e.IsLimit ∨ e.IsMagnitude) (IsReduction num den)
        (reduceFraction settings num den) ∧
      ((∃ u, reduceFraction settings num den = .error (.undefined u)) ↔
        (∃ p, ofExprOrKernel num = .ok p) ∧ ∃ q, ofExprOrKernel den = .ok q ∧ q.isZero = true) := by
  by_cases zero : (∃ p, ofExprOrKernel num = .ok p) ∧ ∃ q, ofExprOrKernel den = .ok q ∧ q.isZero = true
  · obtain ⟨⟨p, runn⟩, q, rund, hq⟩ := zero
    obtain ⟨u, error⟩ := reduceFraction_of_zero settings hn hd runn rund hq
    rw [error]
    exact ⟨Or.inl ⟨u, rfl⟩, iff_of_true ⟨u, rfl⟩ ⟨⟨p, runn⟩, q, rund, hq⟩⟩
  have nonzero (p q : Polynomial) (runn : ofExprOrKernel num = .ok p)
      (rund : ofExprOrKernel den = .ok q) : q.isZero = false :=
    Bool.eq_false_iff.mpr fun hq => zero ⟨⟨p, runn⟩, q, rund, hq⟩
  have sound {K : Type} [Field K] [LinearOrder K] [IsStrictOrderedRing K] (I : Interpretation K) :=
    sameQuotient_answers (I := I) settings hn hd (List.subset_append_left _ _)
      (List.subset_append_right _ _) nonzero
  cases run : reduceFraction settings num den with
  | ok out =>
    obtain ⟨-, left, right⟩ := (sound .bare).of_ok run
    exact ⟨⟨fun I => ((sound I).of_ok run).1, List.append_subset.mpr ⟨left, right⟩⟩,
      iff_of_false nofun zero⟩
  | error e =>
    have limit := (sound .bare).of_error run
    refine ⟨Or.inr limit, iff_of_false ?_ zero⟩
    rintro ⟨u, same⟩
    cases same
    rcases limit with (h | ⟨n, h⟩ | h) | h <;> cases h

/-- `(f(x) ^ 2 - 1) / (f(x) * (f(x) + 1))` is reduced to `(f(x) - 1) / f(x)`, also where `f(x)` is `3`; and
    nothing is divided by `x - x`. -/
theorem reduceFraction_isReduction_at :
    let f := call "f" [var "x"]
    let num := op .sub [op .pow [f, int 2], int 1]
    let den := op .mul [f, op .add [f, int 1]]
    let zero := op .sub [var "x", var "x"]
    let out := (op .add [int (-1), f], f)
    let I := Interpretation.ofIntegerPowers (fun _ => some 3) (fun _ xs => some xs.sum)
      (fun _ _ => none) fun _ => none
    num.malformed? = none ∧ den.malformed? = none ∧ zero.malformed? = none ∧
      reduceFraction {} num den = .ok out ∧ IsReduction num den out ∧
      I.eval num = some 8 ∧ I.eval den = some 12 ∧
      (∃ x y, I.eval out.1 = some x ∧ I.eval out.2 = some y ∧ y ≠ 0 ∧ x * 12 = 8 * y) ∧
      (∃ u, reduceFraction {} num zero = .error (.undefined u)) := by
  intro f num den zero out I
  have hn : num.malformed? = none := by decide
  have hd : den.malformed? = none := by decide
  have hz : zero.malformed? = none := by decide
  have run : reduceFraction {} num den = .ok out := by cbv
  have reduction : IsReduction num den out := (reduceFraction_isReduction {} hn hd).1.of_ok run
  have value : I.eval f = some 3 := by cbv
  have one : I.eval (int 1) = some 1 := by cbv
  have square : I.eval (op .pow [f, int 2]) = some 9 := by
    refine Interpretation.eval_pow_num_iff.mpr ⟨3, value, (I.powers.exponent_nat 3 2).trans ?_⟩
    norm_num
  have left : I.eval num = some 8 := by
    refine Interpretation.eval_two_iff.mpr ⟨9, 1, square, one, congrArg some ?_⟩
    norm_num
  have right : I.eval den = some 12 := by
    have sum : I.eval (op .add [f, int 1]) = some 4 := by
      refine Interpretation.eval_add_iff.mpr ⟨le_rfl, 3, 1, value, ?_, by norm_num⟩
      exact Interpretation.sumsTo_singleton.mpr one
    refine Interpretation.eval_mul_iff.mpr ⟨le_rfl, 3, 4, value, ?_, by norm_num⟩
    exact Interpretation.multipliesTo_singleton.mpr sum
  have undefined : ∃ u, reduceFraction {} num zero = .error (.undefined u) :=
    (reduceFraction_isReduction {} hn hz).2.mpr ⟨⟨_, by cbv⟩, _, by cbv, by cbv⟩
  exact ⟨hn, hd, hz, run, reduction, left, right,
    reduction.value I 8 12 left right (by norm_num), undefined⟩

end Expr

end Eliminant
