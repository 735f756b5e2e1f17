import Eliminant.Proofs.Expr.Names
import Eliminant.Proofs.Polynomial.Arithmetic
import Eliminant.Proofs.Polynomial.Ordinary

/-!
# The value of a polynomial

The variables of a polynomial stand for expressions, and so an interpretation gives a polynomial a
value: that of the polynomial at the values of its variables (`Interpretation.Denotes`).

A polynomial *stands for* a value (`Polynomial.Stands`) if it is ordinary, has no names but given ones,
and has that value under the interpretation whenever there is one. The arithmetic of polynomials is
that of the values they stand for.
-/

namespace Eliminant

open MvPolynomial (C X)
open MonomialOrder (lex)

variable {K : Type} [Field K] [LinearOrder K] [IsStrictOrderedRing K] (I : Interpretation K)

namespace Interpretation

/-- The value of a variable, `0` if it has none. -/
def valueOf (v : Variable) : K := (I.eval v.toExpr).getD 0

/-- The value of a polynomial in all variables. -/
noncomputable def evalMv : MvPolynomial Variable ℚ →+* K :=
  MvPolynomial.eval₂Hom (Rat.castHom K) I.valueOf

@[simp] theorem evalMv_C (q : ℚ) : I.evalMv (C q) = q := MvPolynomial.eval₂Hom_C _ _ q

@[simp] theorem evalMv_X (v : Variable) : I.evalMv (X v) = I.valueOf v := MvPolynomial.eval₂Hom_X' _ _ v

/-- The variables of a list have values. -/
def Defines (vars : List Variable) : Prop := ∀ v ∈ vars, I.eval v.toExpr = some (I.valueOf v)

/-- **A polynomial whose variables have values has the value `x`.** -/
structure Denotes (p : Polynomial) (x : K) : Prop where
  defines : I.Defines p.vars
  value : I.evalMv p.toMv = x

variable {I}

theorem eval_eq_valueOf {v : Variable} {x : K} (h : I.eval v.toExpr = some x) :
    I.eval v.toExpr = some (I.valueOf v) := by
  unfold valueOf
  rw [h]
  rfl

end Interpretation

namespace Polynomial

variable {p q r : Polynomial} {known : List String} {V W U : K → Prop} {x : K}

/-- **A polynomial over the given names that has every value of `V`.** There is one such value at most,
    and there is none where the expression that `p` is made from has no value. -/
structure Stands (known : List String) (V : K → Prop) (p : Polynomial) : Prop where
  ordinary : p.Ordinary
  names : ∀ v ∈ p.vars, v.toExpr.Over known
  denotes : ∀ x, V x → I.Denotes p x

theorem toMv_ofVariable (v : Variable) : (ofVariable v).toMv = X v := by
  have first : Exponents.toFinsupp 1 [1] = Finsupp.single 0 1 := by
    refine Finsupp.ext fun i => ?_
    rw [Fin.fin_one_eq_zero i, Finsupp.single_eq_same]
    rfl
  show MvPolynomial.rename [v].get (Terms.toMv 1 [⟨.one, [1]⟩]) = X v
  rw [Terms.toMv_singleton, first, Coefficient.toRat_one]
  exact MvPolynomial.rename_X _ _

theorem toMv_of_isConstant (h : p.Sound) (constant : p.isConstant = true) :
    p.toMv = C p.leadCoeff.toRat := by
  have zero := h.reads.isConstant_iff.mp constant
  rw [← h.reads.rename_eq, lex.eq_C_of_degree_eq_zero zero, h.reads.leadCoeff_eq,
    MvPolynomial.rename_C]

variable {I}

namespace Stands

theorem imp (h : Stands I known V p) (sub : ∀ x, W x → V x) : Stands I known W p :=
  ⟨h.ordinary, h.names, fun x hx => h.denotes x (sub x hx)⟩

/-- The same list of variables. -/
theorem with_terms (h : Stands I known V p) (ordinary : q.Ordinary) (vars : q.vars = p.vars)
    (value : ∀ x, W x → ∃ y, V y ∧ I.evalMv q.toMv = x) : Stands I known W q := by
  refine ⟨ordinary, vars ▸ h.names, fun x hx => ?_⟩
  obtain ⟨y, hy, value⟩ := value x hx
  exact ⟨vars ▸ (h.denotes y hy).defines, value⟩

theorem constant (h : Stands I known V p) (c : Coefficient) :
    Stands I known (fun x => (∃ y, V y) ∧ x = c.toRat) (constant p.vars c) := by
  refine h.with_terms (h.ordinary.constant c) rfl ?_
  rintro x ⟨⟨y, hy⟩, rfl⟩
  refine ⟨y, hy, ?_⟩
  rw [← (h.ordinary.sound.reads.constant c).rename_eq, MvPolynomial.rename_C, I.evalMv_C]

theorem ofConstant (c : Coefficient) : Stands I known (fun x => x = c.toRat) (ofConstant c) := by
  have empty : Stands I known (fun x => x = 0) ⟨[], []⟩ := by
    refine ⟨⟨⟨.nil, List.nodup_nil, by simp⟩, List.Pairwise.nil, by simp⟩, by simp, ?_⟩
    rintro x rfl
    exact ⟨by simp [Interpretation.Defines], by simp [toMv]⟩
  exact (empty.constant c).imp fun x hx => ⟨⟨0, rfl⟩, hx⟩

theorem ofVariable {v : Variable} (proper : v.Proper) (ordinary : v.Ordinary)
    (names : v.toExpr.Over known) :
    Stands I known (fun x => I.eval v.toExpr = some x) (ofVariable v) := by
  refine ⟨ordinary_ofVariable proper ordinary, by simpa [Polynomial.ofVariable] using names, ?_⟩
  intro x hx
  have known := Interpretation.eval_eq_valueOf hx
  refine ⟨by simpa [Polynomial.ofVariable, Interpretation.Defines] using known, ?_⟩
  rw [toMv_ofVariable, I.evalMv_X]
  exact Option.some.inj (known.symm.trans hx)

theorem neg (h : Stands I known V p) : Stands I known (fun x => V (-x)) (-p) := by
  refine h.with_terms h.ordinary.neg rfl fun x hx => ⟨-x, hx, ?_⟩
  rw [toMv_neg, map_neg, (h.denotes _ hx).value, neg_neg]

theorem scale (h : Stands I known V p) (c : Coefficient) :
    Stands I known (fun x => ∃ y, V y ∧ x = c.toRat * y) (p.scale c) := by
  refine h.with_terms (h.ordinary.scale c) rfl ?_
  rintro x ⟨y, hy, rfl⟩
  refine ⟨y, hy, ?_⟩
  rw [toMv_scale, map_mul, I.evalMv_C, (h.denotes y hy).value]

/-- Over the variables of two polynomials. -/
theorem join (hp : Stands I known V p) (hq : Stands I known W q) (ordinary : r.Ordinary)
    (vars : r.vars = (align p q).1.vars) (value : ∀ x, U x → ∃ y z, V y ∧ W z ∧
      (I.evalMv p.toMv = y → I.evalMv q.toMv = z → I.evalMv r.toMv = x)) :
    Stands I known U r := by
  have mem (v : Variable) (hv : v ∈ r.vars) : v ∈ p.vars ∨ v ∈ q.vars :=
    ((align_spec hp.ordinary.sound hq.ordinary.sound).mem v).mp (vars ▸ hv)
  refine ⟨ordinary, fun v hv => (mem v hv).elim (hp.names v) (hq.names v), fun x hx => ?_⟩
  obtain ⟨y, z, hy, hz, value⟩ := value x hx
  have left := hp.denotes y hy
  have right := hq.denotes z hz
  exact ⟨fun v hv => (mem v hv).elim (left.defines v) (right.defines v),
    value left.value right.value⟩

theorem add (hp : Stands I known V p) (hq : Stands I known W q) :
    Stands I known (fun x => ∃ y z, V y ∧ W z ∧ x = y + z) (p + q) := by
  refine hp.join hq (hp.ordinary.add hq.ordinary) rfl ?_
  rintro x ⟨y, z, hy, hz, rfl⟩
  refine ⟨y, z, hy, hz, fun left right => ?_⟩
  rw [toMv_add hp.ordinary.sound hq.ordinary.sound, map_add, left, right]

theorem sub (hp : Stands I known V p) (hq : Stands I known W q) :
    Stands I known (fun x => ∃ y z, V y ∧ W z ∧ x = y - z) (p - q) := by
  refine (hp.add hq.neg).imp ?_
  rintro x ⟨y, z, hy, hz, rfl⟩
  exact ⟨y, -z, hy, (neg_neg z).symm ▸ hz, sub_eq_add_neg y z⟩

/-- **Products**, as far as the exponents fit. -/
theorem mul (hp : Stands I known V p) (hq : Stands I known W q) :
    Answers Failure.IsOverflow (Stands I known fun x => ∃ y z, V y ∧ W z ∧ x = y * z)
      (p.mul q) := by
  refine ((hp.ordinary.mul hq.ordinary).and
    (mul_answers hp.ordinary.sound hq.ordinary.sound)).mono (fun e he => he.1) ?_
  rintro r ⟨⟨ordinary, vars⟩, -, -, value⟩
  refine hp.join hq ordinary vars ?_
  rintro x ⟨y, z, hy, hz, rfl⟩
  refine ⟨y, z, hy, hz, fun left right => ?_⟩
  rw [value, map_mul, left, right]

/-- **Powers.** -/
theorem pow (h : Stands I known V p) (n : Nat) :
    Answers Failure.IsOverflow (Stands I known fun x => ∃ y, V y ∧ x = y ^ n) (p.pow n) := by
  refine pow_answers (P := fun n => Stands I known fun x => ∃ y, V y ∧ x = y ^ n) ?_ ?_ ?_ ?_
  · intro i j p q _ hp hq
    refine (hp.mul hq).imp fun r hr => hr.imp ?_
    rintro x ⟨y, hy, rfl⟩
    exact ⟨_, _, ⟨y, hy, rfl⟩, ⟨y, hy, rfl⟩, pow_add y i j⟩
  · refine (h.constant .one).imp ?_
    rintro x ⟨y, hy, rfl⟩
    exact ⟨⟨y, hy⟩, by rw [pow_zero, Coefficient.toRat_one, Rat.cast_one]⟩
  · intro constant
    refine (h.constant _).imp ?_
    rintro x ⟨y, hy, rfl⟩
    refine ⟨⟨y, hy⟩, ?_⟩
    rw [Coefficient.toRat_pow, Rat.cast_pow, ← (h.denotes y hy).value,
      toMv_of_isConstant h.ordinary.sound constant, I.evalMv_C]
  · exact h.imp fun x ⟨y, hy, e⟩ => by rwa [e, pow_one]

end Stands

end Polynomial

end Eliminant
