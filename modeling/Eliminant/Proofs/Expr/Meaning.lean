import Eliminant.Proofs.Expr.Normal
import Mathlib.Analysis.SpecialFunctions.Pow.Real

/-!
# Normal forms mean what expressions mean

A function that gives every positive base all rational powers, with `b ^ (p + q) = b ^ p * b ^ q` and the
integer powers of the field, is a power function (`Powers.ofFunction`): its powers are squares, so they
are positive, and opposite exponents invert. The powers of the real numbers are one
(`Interpretation.ofRealPowers`).

**`Expr.eval_of_normalize`**: under any power function, total or not, the normal form of an expression has
the value of the expression.
-/

namespace Eliminant

/-! ## 1. Powers of every positive base -/

section Function

variable {K : Type} [Field K] [LinearOrder K] [IsStrictOrderedRing K] {f : K → ℚ → K} {b e x : K}
  {p q : ℚ}

open Classical in
/-- The power `b ^ e`: those of the field for integers, and `f` for other rational exponents of positive
    bases. -/
noncomputable def powerBy (f : K → ℚ → K) (b e : K) : Option K :=
  if h : ∃ n : ℤ, e = n then if b ≠ 0 ∨ 0 ≤ h.choose then some (b ^ h.choose) else none
  else if h : 0 < b ∧ ∃ q : ℚ, e = q then some (f b h.2.choose)
  else none

theorem powerBy_int (f : K → ℚ → K) (b : K) (n : ℤ) :
    powerBy f b n = if b ≠ 0 ∨ 0 ≤ n then some (b ^ n) else none := by
  have h : ∃ m : ℤ, (n : K) = m := ⟨n, rfl⟩
  have same : h.choose = n := Int.cast_injective h.choose_spec.symm
  unfold powerBy
  rw [dif_pos h, same]

/-- Powers of positive bases are those of `f`. -/
theorem powerBy_rational (int : ∀ (b : K) (n : ℤ), 0 < b → f b n = b ^ n) (hb : 0 < b) (q : ℚ) :
    powerBy f b q = some (f b q) := by
  by_cases whole : ∃ n : ℤ, (q : K) = n
  · obtain ⟨n, hn⟩ := whole
    have same : q = n := by exact_mod_cast hn
    rw [hn, powerBy_int, if_pos (Or.inl hb.ne'), same, int b n hb]
  · have h : 0 < b ∧ ∃ r : ℚ, (q : K) = r := ⟨hb, q, rfl⟩
    have same : h.2.choose = q := Rat.cast_injective h.2.choose_spec.symm
    unfold powerBy
    rw [dif_neg whole, dif_pos h, same]

omit [IsStrictOrderedRing K] in
/-- A power that is not an integer power is one of `f`. -/
theorem powerBy_fraction (h : powerBy f b e = some x) (fraction : ∀ n : ℤ, e ≠ n) :
    0 < b ∧ ∃ q : ℚ, e = q ∧ x = f b q := by
  unfold powerBy at h
  rw [dif_neg (not_exists.mpr fraction)] at h
  split at h
  · rename_i defined
    exact ⟨defined.1, _, defined.2.choose_spec, (Option.some.inj h).symm⟩
  · cases h

/-- **A power is the square of a power**, and the power of the opposite exponent is its inverse. -/
theorem power_pos_and_inv (add : ∀ (b : K) (p q : ℚ), 0 < b → f b (p + q) = f b p * f b q)
    (int : ∀ (b : K) (n : ℤ), 0 < b → f b n = b ^ n) (hb : 0 < b) (q : ℚ) :
    0 < f b q ∧ f b (-q) = (f b q)⁻¹ := by
  have zero : f b 0 = 1 := by simpa using int b 0 hb
  have product : f b q * f b (-q) = 1 := by rw [← add b _ _ hb, add_neg_cancel, zero]
  have square : f b q = f b (q / 2) * f b (q / 2) := by rw [← add b _ _ hb, add_halves]
  have ne : f b q ≠ 0 := left_ne_zero_of_mul_eq_one product
  refine ⟨lt_of_le_of_ne ?_ ne.symm, eq_inv_of_mul_eq_one_right product⟩
  rw [square]
  exact mul_self_nonneg _

/-- **A function with the law of exponents that extends the integer powers is a power function.** -/
noncomputable def Powers.ofFunction (f : K → ℚ → K)
    (add : ∀ (b : K) (p q : ℚ), 0 < b → f b (p + q) = f b p * f b q)
    (int : ∀ (b : K) (n : ℤ), 0 < b → f b n = b ^ n) : Powers K where
  pow := powerBy f
  int := powerBy_int f
  rational {b e x} h := by
    by_cases whole : ∃ n : ℤ, e = n
    · obtain ⟨n, rfl⟩ := whole
      exact ⟨n, (Rat.cast_intCast n).symm⟩
    · obtain ⟨-, q, same, -⟩ := powerBy_fraction h (not_exists.mp whole)
      exact ⟨q, same⟩
  positive h fraction := by
    obtain ⟨hb, q, -, rfl⟩ := powerBy_fraction h fraction
    exact ⟨hb, (power_pos_and_inv add int hb q).1⟩
  add {b x y p q} hb hx hy := by
    rw [powerBy_rational int hb] at hx hy ⊢
    rw [add b p q hb, Option.some.inj hx, Option.some.inj hy]
  inv {b x p} hb hx := by
    rw [powerBy_rational int hb] at hx ⊢
    rw [(power_pos_and_inv add int hb p).2, Option.some.inj hx]

theorem Powers.ofFunction_pow {add : ∀ (b : K) (p q : ℚ), 0 < b → f b (p + q) = f b p * f b q}
    {int : ∀ (b : K) (n : ℤ), 0 < b → f b n = b ^ n} (hb : 0 < b) (q : ℚ) :
    (ofFunction f add int).pow b q = some (f b q) := powerBy_rational int hb q

end Function

/-- The powers of the real numbers. -/
noncomputable def Powers.reals : Powers ℝ :=
  .ofFunction (fun b q => b ^ (q : ℝ)) (fun b p q hb => by rw [Rat.cast_add, Real.rpow_add hb])
    fun b n _ => by rw [Rat.cast_intCast, Real.rpow_intCast]

theorem Powers.reals_pow {b : ℝ} (hb : 0 < b) (q : ℚ) : reals.pow b (q : ℝ) = some (b ^ (q : ℝ)) :=
  ofFunction_pow hb q

/-- **Interpretations in the real numbers**, with the powers that real numbers have. -/
noncomputable def Interpretation.ofRealPowers (var : String → Option ℝ)
    (call : String → List ℝ → Option ℝ) (subscript : ℝ → ℝ → Option ℝ) (prime : ℝ → Option ℝ) :
    Interpretation ℝ :=
  ⟨var, call, subscript, prime, .reals⟩

/-! ## 2. Normal forms -/

namespace Expr

variable {K : Type} [Field K] [LinearOrder K] [IsStrictOrderedRing K] {a b : Expr} {x : K}

/-- **The normal form of an expression has the value of the expression**, whatever its names, calls,
    subscripts, primes and powers mean. -/
theorem eval_of_normalize (I : Interpretation K) (value : I.eval a = some x)
    (run : a.normalize = .ok b) : I.eval b = some x :=
  (normalize_keeps a).of_ok run x value

/-- `2 ^ (1/2) * x * 2 ^ (1/2)` becomes `2 * x`, and both are `6` where `x` is `3`. -/
theorem eval_of_normalize_at :
    let half : Coefficient := .small 1 2 (by decide) (by decide) (by decide) (by decide)
    let root := op .pow [int 2, num half]
    let a := op .mul [root, var "x", root]
    let b := op .mul [int 2, var "x"]
    let I := Interpretation.ofRealPowers (fun _ => some 3) (fun _ _ => none) (fun _ _ => none)
      fun _ => none
    I.eval a = some 6 ∧ a.normalize = .ok b ∧ I.eval b = some 6 := by
  intro half root a b I
  have run : a.normalize = .ok b := by cbv
  have power : I.eval root = some (2 ^ (1 / 2 : ℝ)) := by
    have two : I.eval (int 2) = some 2 := congrArg some (by norm_num)
    have exponent : (half.toRat : ℝ) = 1 / 2 := by
      rw [Coefficient.toRat_small, Rat.divInt_eq_div]
      norm_num
    refine Interpretation.eval_pow_num_iff.mpr ⟨2, two, (Powers.reals_pow two_pos _).trans ?_⟩
    rw [exponent]
  have value : I.eval a = some 6 := by
    refine Interpretation.eval_mul_iff.mpr ⟨by decide, _, _, power, ⟨3, _, rfl,
      Interpretation.multipliesTo_singleton.mpr power, rfl⟩, ?_⟩
    have square : (2 : ℝ) ^ (1 / 2 : ℝ) * 2 ^ (1 / 2 : ℝ) = 2 := by
      rw [← Real.rpow_add two_pos]
      norm_num
    linear_combination (-3) * square
  exact ⟨value, run, eval_of_normalize I value run⟩

end Expr

end Eliminant
