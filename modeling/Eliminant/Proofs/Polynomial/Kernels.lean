import Eliminant.Proofs.Polynomial.Fits
import Eliminant.Proofs.Polynomial.ToExpr

/-!
# Converting factors

A factor is converted to the power of a variable (**`Polynomial.convert_factor`**): a name to itself, a root to
a power of the kernel that is the root with the numerator `1`, and what is not looked into to a kernel as a
whole.
-/

namespace Eliminant

open AddMonoidAlgebra (single)

namespace Polynomial

open Eliminant.Expr (Base Factor inSum)
open MvPolynomial (C X)

variable {p : Polynomial} {a b f : Expr} {v : Variable} {n : ℕ} {q e : ℚ}

/-! ## 1. Powers of variables -/

/-- **The power of a variable that a factor is converted to**: the variable is written with the base of the
    factor. -/
structure PowerOf (f : Expr) (v : Variable) (n : ℕ) (p : Polynomial) : Prop where
  ordinary : p.Ordinary
  vars : p.vars = [v]
  value : p.toMv = X v ^ n
  written : v.toExpr.Factor
  base : v.toExpr.splitExponent.1 = f.splitExponent.1
  exponent : v.toExpr.splitExponent.2.toRat * n = f.splitExponent.2.toRat

theorem PowerOf.kept (h : PowerOf f v n p) (hf : Factor f) : v.Kept n := by
  refine .inl ⟨h.written, ?_⟩
  rw [h.base, h.exponent]
  exact hf.base

theorem PowerOf.asSum_eq (h : PowerOf f v n p) (hf : Factor f) : asSum p.toMv = f.inSum := by
  rw [h.value, map_pow, asSum_X, h.written.inSum_eq, hf.inSum_eq, AddMonoidAlgebra.single_pow, one_pow,
    Finsupp.smul_single, nsmul_eq_mul, mul_comm, h.base, h.exponent]

theorem powerOf_ofVariable (hv : v.toExpr.Factor) (ordinary : (ofVariable v).Ordinary) :
    PowerOf v.toExpr v 1 (ofVariable v) :=
  ⟨ordinary, rfl, by rw [toMv_ofVariable, pow_one], hv, rfl, by rw [Nat.cast_one, mul_one]⟩

/-- A power of a variable that is written as a factor. -/
theorem pow_powerOf (hb : Base b q) (written : v.toExpr = b.factor q) (ordinary : (ofVariable v).Ordinary)
    (fits : n ≤ maxExponent) (base : f.splitExponent.1 = b) (value : q * n = f.splitExponent.2.toRat) :
    Answers (fun _ => False) (PowerOf f v n) ((ofVariable v).pow n) := by
  have split : v.toExpr.splitExponent = (b, .ofRat q) := written ▸ hb.splitExponent_factor
  refine (ordinary.pow_of_fits (toMv_ofVariable v) fits).imp fun r hr =>
    ⟨hr.1, hr.2.2, hr.2.1, written ▸ hb.factor, ?_, ?_⟩
  · rw [split, base]
  · rw [split, Coefficient.toRat_ofRat, value]

/-! ## 2. Kernels -/

/-- An expression in normal form is a variable of its own. -/
theorem exists_ofKernel (normal : a.normalize = .ok a) (number : a.isNumber = false) :
    ∃ v, ofKernel a = .ok (ofVariable v) ∧ v.toExpr = a ∧ (ofVariable v).Ordinary := by
  unfold ofKernel
  rw [normal]
  cases a with
  | num n => cases number
  | var x => exact ⟨.symbol x, rfl, rfl, ordinary_ofVariable trivial trivial⟩
  | call g args => exact ⟨.kernel (.call g args), rfl, rfl, ordinary_ofVariable trivial trivial⟩
  | op o args => exact ⟨.kernel (.op o args), rfl, rfl, ordinary_ofVariable trivial trivial⟩

theorem ofKernel_factor (h : Factor f) :
    Answers (fun _ => False) (fun p => ∃ v n, PowerOf f v n p) (ofKernel f) := by
  obtain ⟨v, run, rfl, ordinary⟩ := exists_ofKernel h.normalize_eq h.isNumber_eq
  rw [run]
  exact ⟨v, 1, powerOf_ofVariable h ordinary⟩

/-- The conversion does not look into a base. -/
theorem convert_base (kind : b.isBase = true) (name : ∀ x, b ≠ .var x) : convert b = ofKernel b := by
  cases b with
  | num n => cases kind
  | var x => exact absurd rfl (name x)
  | call g args => rw [convert]
  | op o args =>
    unfold convert
    dsimp only
    rw [Expr.constant?_of_isBase kind]
    dsimp only
    split
    · cases kind
    · cases kind
    · cases kind
    · cases kind
    · cases kind
    · rw [Option.isNone_iff_eq_none.mp kind]
    · rfl

/-- A base is converted to one variable. -/
theorem exists_convert (h : Base b 1) :
    ∃ v, convert b = .ok (ofVariable v) ∧ v.toExpr = b ∧ (ofVariable v).Ordinary := by
  by_cases name : ∃ x, b = .var x
  · obtain ⟨x, rfl⟩ := name
    exact ⟨.symbol x, by rw [convert], rfl, ordinary_ofVariable trivial trivial⟩
  · rw [convert_base h.kept.isBase (not_exists.mp name)]
    exact exists_ofKernel h.normal h.isFactor.isNumber_eq

/-! ## 3. Factors -/

/-- The root whose power a factor is. -/
theorem base_root {n d : ℤ} (h : Base b (n / d)) (pos : 0 < d) (fraction : d ≠ 1)
    (coprime : Int.gcd n d = 1) : Base b (1 / d) := by
  refine ⟨by positivity, ?_, h.wellFormed, h.normal⟩
  cases h.kept with
  | base kind => exact .base kind
  | root other _ =>
    refine .root other ?_
    rw [one_div, Rat.inv_intCast_den, if_neg pos.ne']
    omega
  | large _ m value =>
    have some : (d : ℚ) ≠ 0 := by exact_mod_cast pos.ne'
    have multiple : n = m * d := by exact_mod_cast (div_eq_iff some).mp value
    rw [multiple, Int.gcd_mul_left_left] at coprime
    omega

/-- **A factor is converted to a power of a variable.** -/
theorem convert_factor (h : Factor f) :
    Answers (fun _ => False) (fun p => ∃ v n, PowerOf f v n p) (convert f) := by
  refine h.cases_on (P := fun f => Answers (fun _ => False) (fun p => ∃ v n, PowerOf f v n p) (convert f))
    (fun b _ hb => ?_) fun b e hb other => ?_
  · obtain ⟨v, run, rfl, ordinary⟩ := exists_convert hb
    rw [run]
    exact ⟨v, 1, powerOf_ofVariable hb.isFactor ordinary⟩
  have whole : Factor (.op .pow [b, .num e]) := Expr.factor_of_ne_one other ▸ hb.factor
  have kernel := ofKernel_factor whole
  have sign : e.isNegative = false := by
    rw [← Bool.not_eq_true, Coefficient.isNegative_iff]
    exact not_lt.mpr (Rat.num_nonneg.mpr hb.pos.le)
  unfold convert
  dsimp only
  rw [whole.constant?_eq, Expr.constant?]
  dsimp only
  rw [sign, if_neg Bool.false_ne_true]
  split
  · exact kernel
  rename_i n d words
  obtain ⟨value, word, positive, coprime⟩ := Coefficient.toRat_of_toWords? words
  lift n to ℕ using Coefficient.nonneg_of_toWords? words sign
  split
  · exact kernel
  rename_i fits
  have small : n ≤ maxExponent := by exact_mod_cast not_lt.mp fits
  rw [value] at hb
  split
  · rename_i integer
    subst integer
    rw [Int.cast_one, div_one, Int.cast_natCast] at hb value
    show Answers _ _ (convert b >>= fun p => if p.fitsPower n then p.pow n else ofKernel _)
    cases hb.kept with
    | base kind =>
      obtain ⟨v, run, written, ordinary⟩ := exists_convert ⟨one_pos, .base kind, hb.wellFormed, hb.normal⟩
      rw [run]
      show Answers _ _ (if (ofVariable v).fitsPower n then _ else _)
      split
      · refine (pow_powerOf ⟨one_pos, .base kind, hb.wellFormed, hb.normal⟩
          (written.trans Expr.factor_one.symm) ordinary small rfl ?_).imp fun p hp => ⟨v, n, hp⟩
        rw [one_mul]
        exact value.symm
      · exact kernel
    | root other fraction => exact absurd (Rat.den_natCast n) fraction
    | large other m same size operand constant unfit =>
      cases Nat.cast_injective same
      obtain large | ⟨p, run, unfit⟩ := unfit
      · exact absurd large (not_lt.mpr small)
      · rw [run]
        show Answers _ _ (if p.fitsPower n then _ else _)
        rw [unfit, if_neg Bool.false_ne_true]
        exact kernel
  · rename_i fraction
    have base := base_root hb positive fraction coprime
    have root : (Coefficient.ofWide 1 d).toRat = 1 / d := Coefficient.toRat_root word positive
    have large : (Coefficient.ofWide 1 d).toRat ≠ 1 := by
      rw [root, one_div, ne_eq, inv_eq_one, Int.cast_eq_one]
      exact fraction
    rw [← Expr.factor_of_ne_one large, root]
    obtain ⟨v, run, written, ordinary⟩ := exists_ofKernel base.factor.normalize_eq base.factor.isNumber_eq
    rw [run]
    refine (pow_powerOf base written ordinary small rfl ?_).imp fun p hp => ⟨v, n, hp⟩
    show _ = e.toRat
    rw [value, one_div_mul_eq_div, Int.cast_natCast]

/-- A natural number that is an exponent fits into a word. -/
theorem toWords?_of_fits (fits : n ≤ maxExponent) : (Coefficient.ofRat n).toWords? = some ((n : ℤ), 1) := by
  have word : InWord (n : ℚ).num ∧ InWord (n : ℚ).den := by
    have small : n ≤ 4294967295 := fits
    rw [Rat.num_natCast, Rat.den_natCast]
    unfold InWord
    omega
  rw [Coefficient.ofRat_of_fit word]
  rfl

/-- The power of a name is expanded, whatever its exponent. -/
theorem fitsPower_ofVariable (v : Variable) (fits : n ≤ maxExponent) : (ofVariable v).fitsPower n = true := by
  have degree : (ofVariable v).maxDegree = 1 := rfl
  unfold fitsPower
  rw [degree, one_mul, if_neg (not_lt.mpr fits)]
  split
  · rfl
  · rfl

/-- **The power of a name** is converted to a power of that name. -/
theorem convert_name (x : String) (pos : 0 < n) (fits : n ≤ maxExponent) :
    Answers (fun _ => False) (PowerOf ((Expr.var x).factor n) (.symbol x) n)
      (convert ((Expr.var x).factor n)) := by
  have first := Expr.base_var x one_pos
  have base : Base (.var x) (n : ℚ) := first.power (by exact_mod_cast pos)
  have ordinary : (ofVariable (.symbol x)).Ordinary := ordinary_ofVariable trivial trivial
  by_cases one : n = 1
  · subst one
    rw [Nat.cast_one, Expr.factor_one, convert]
    exact powerOf_ofVariable (v := .symbol x) first.isFactor ordinary
  have other : (Coefficient.ofRat n).toRat ≠ 1 := by
    rw [Coefficient.toRat_ofRat]
    exact_mod_cast one
  have power := Expr.factor_of_ne_one (b := .var x) other
  rw [Coefficient.toRat_ofRat] at power
  have constant := base.constant?_factor
  have sign : (Coefficient.ofRat n).isNegative = false := by
    rw [← Bool.not_eq_true, Coefficient.isNegative_iff, Coefficient.toRat_ofRat]
    exact not_lt.mpr (Rat.num_nonneg.mpr (Nat.cast_nonneg n))
  rw [power] at constant ⊢
  unfold convert
  dsimp only
  rw [constant, Expr.constant?]
  dsimp only
  rw [sign, toWords?_of_fits fits, if_neg Bool.false_ne_true]
  dsimp only
  rw [if_neg (by exact_mod_cast not_lt.mpr fits), if_pos rfl, convert]
  show Answers _ _ (if (ofVariable _).fitsPower n = true then (ofVariable _).pow n else _)
  rw [fitsPower_ofVariable _ fits, if_pos rfl]
  refine pow_powerOf (q := 1) first Expr.factor_one.symm ordinary fits rfl ?_
  rw [one_mul]
  exact (Coefficient.toRat_ofRat _).symm

end Polynomial

end Eliminant
