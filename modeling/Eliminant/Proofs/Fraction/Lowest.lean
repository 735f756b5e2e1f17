import Eliminant.Fraction.Basic
import Eliminant.Proofs.Gcd
import Eliminant.Proofs.Polynomial.Equality

/-!
# Fractions in lowest terms

Dividing numerator and denominator by their greatest common divisor times the leading coefficient of
the denominator leaves a fraction in lowest terms with a monic denominator
(`Polynomial.lowest_of_mul_eq`). Over sorted lists there is only one such fraction:

* `Polynomial.Reads.reduceFraction_answers`: reducing over one list of variables;
* `Polynomial.IsLowest.unique`: two equal fractions in lowest terms, with monic denominators over
  sorted lists, have equal numerators and denominators;
* **`Polynomial.reduceFraction_spec`**: reducing any two polynomials over sorted lists.
-/

namespace Eliminant

open MvPolynomial (C)
open MonomialOrder (lex)

namespace Polynomial

variable {vars : List Variable} {p q num den : Polynomial}
  {f g : MvPolynomial (Fin vars.length) ℚ}

/-! ## 1. One list of variables -/

/-- **What is left of two polynomials after a multiple of their greatest common divisor.** -/
theorem lowest_of_mul_eq {n : Nat} {f g d e x y : MvPolynomial (Fin n) ℚ} (hd : IsGcd f g d)
    (he : Associated d e) (ng : g ≠ 0) (hx : x * e = f) (hy : y * e = g)
    (lead : lex.leadingCoeff e = lex.leadingCoeff g) :
    x * g = f * y ∧ lex.leadingCoeff y = 1 ∧ IsRelPrime x y := by
  have ne : e ≠ 0 := right_ne_zero_of_mul (hy ▸ ng)
  refine ⟨?_, ?_, ?_⟩
  · rw [← hx, ← hy]
    ring
  · have product := congrArg lex.leadingCoeff hy
    rw [MonomialOrder.leadingCoeff_mul, ← lead] at product
    exact (mul_eq_right₀ (MonomialOrder.leadingCoeff_ne_zero_iff.mpr ne)).mp product
  · refine IsGcd.isRelPrime (d := e) ?_ ne
    rw [hx, hy]
    exact hd.of_associated he

/-- Dividing by a constant. -/
theorem Reads.divCoeff_of_isConstant {e : Polynomial} {k : MvPolynomial (Fin vars.length) ℚ}
    (hp : Reads vars p f) (he : Reads vars e k) (nk : k ≠ 0) (const : e.isConstant = true) :
    ∃ q x, p.divCoeff e.leadCoeff = .ok q ∧ Reads vars q x ∧ x * k = f := by
  have lead : e.leadCoeff.toRat ≠ 0 := by
    rw [he.leadCoeff_eq]
    exact MonomialOrder.leadingCoeff_ne_zero_iff.mpr nk
  have value : k = C e.leadCoeff.toRat := by
    rw [he.leadCoeff_eq]
    exact MonomialOrder.eq_C_of_degree_eq_zero (he.isConstant_iff.mp const)
  obtain ⟨q, run, hq⟩ := hp.divCoeff ((Coefficient.isZero_eq_false_iff _).mpr lead)
  refine ⟨q, _, run, hq, ?_⟩
  rw [value, mul_right_comm, ← MvPolynomial.C_mul, inv_mul_cancel₀ lead, MvPolynomial.C_1, one_mul]

/-- A monic polynomial times the leading coefficient of another. -/
theorem Reads.scale_leadCoeff {d : Polynomial} {h : MvPolynomial (Fin vars.length) ℚ}
    (hd : Reads vars d h) (monic : lex.leadingCoeff h = 1) (hq : Reads vars q g) :
    Reads vars (d.scale q.leadCoeff) (C (lex.leadingCoeff g) * h) ∧
      lex.leadingCoeff (C (lex.leadingCoeff g) * h) = lex.leadingCoeff g := by
  refine ⟨hq.leadCoeff_eq ▸ hd.scale q.leadCoeff, ?_⟩
  rw [MonomialOrder.leadingCoeff_mul, monic, mul_one]
  exact MonomialOrder.leadingCoeff_C _

/-- **Reducing a fraction over one list of variables.** -/
theorem Reads.reduceFraction_answers (settings : Settings) (hp : Reads vars p f)
    (hq : Reads vars q g) (ng : g ≠ 0) :
    Answers Failure.IsLimit (fun out => ∃ x y, Reads vars out.1 x ∧ Reads vars out.2 y ∧
      x * g = f * y ∧ lex.leadingCoeff y = 1 ∧ IsRelPrime x y)
      (reduceFraction settings p q) := by
  have lead : lex.leadingCoeff g ≠ 0 := MonomialOrder.leadingCoeff_ne_zero_iff.mpr ng
  unfold reduceFraction
  rw [align_of_vars_eq (hp.vars_eq.trans hq.vars_eq.symm)]
  dsimp only
  split
  · rename_i zero
    exact absurd (hq.isZero_iff.mp zero) ng
  split
  · rename_i zero
    rw [hp.vars_eq]
    refine ⟨0, 1, hp.zero, hp.one, ?_, ?_, fun c _ h => isUnit_of_dvd_one h⟩
    · rw [hp.isZero_iff.mp zero, zero_mul, zero_mul]
    · exact lex.monic_one
  refine (hp.gcd_answers settings hq).bind fun d hd => ?_
  have monic : lex.leadingCoeff (d.reading vars) = 1 := by
    rw [← hd.reads.leadCoeff_eq, hd.monic (Or.inr ng), Coefficient.toRat_one]
  obtain ⟨scaled, same⟩ := hd.reads.scale_leadCoeff monic hq
  have assoc := associated_C_mul lead (d.reading vars)
  have ne : C (lex.leadingCoeff g) * d.reading vars ≠ 0 := by
    rw [← MonomialOrder.leadingCoeff_ne_zero_iff (m := lex), same]
    exact lead
  split
  · rename_i const
    obtain ⟨n, x, hn, readn, hx⟩ := hp.divCoeff_of_isConstant scaled ne const
    obtain ⟨m, y, hm, readm, hy⟩ := hq.divCoeff_of_isConstant scaled ne const
    rw [hn, hm]
    exact ⟨x, y, readn, readm, lowest_of_mul_eq hd.isGcd assoc ng hx hy same⟩
  · have left := assoc.symm.dvd.trans hd.isGcd.1
    have right := assoc.symm.dvd.trans hd.isGcd.2.1
    refine Answers.bind (hp.exact_answers scaled ne left).isLimit fun outn hn => ?_
    refine Answers.bind (hq.exact_answers scaled ne right).isLimit fun outd hd' => ?_
    obtain ⟨n, x, onen, exactn, readn, hx⟩ := hn
    obtain ⟨m, y, onem, exactm, readm, hy⟩ := hd'
    rw [exactn, exactm, onen, onem]
    exact ⟨x, y, readn, readm, lowest_of_mul_eq hd.isGcd assoc ng hx hy same⟩

/-! ## 2. The only fraction in lowest terms -/

/-- `out` is the fraction `num / den` in lowest terms. -/
structure IsLowest (num den : Polynomial) (out : Polynomial × Polynomial) : Prop where
  num_sound : out.1.Sound
  den_sound : out.2.Sound
  num_vars : out.1.vars = (align num den).1.vars
  den_vars : out.2.vars = (align num den).1.vars
  /-- it is the same fraction -/
  value : out.1.toMv * den.toMv = num.toMv * out.2.toMv
  den_ne_zero : out.2.toMv ≠ 0
  monic : out.2.leadCoeff = .one
  /-- numerator and denominator have no common factor but the constants -/
  coprime : IsRelPrime out.1.toMv out.2.toMv

variable {num' den' : Polynomial} {out out' : Polynomial × Polynomial}

theorem reduceFraction_align (settings : Settings) (hn : num.Sound) (hd : den.Sound) :
    reduceFraction settings num den =
      reduceFraction settings (align num den).1 (align num den).2 := by
  unfold reduceFraction
  rw [(align_spec hn hd).align_eq]

/-- **Reducing a fraction** whose denominator is not zero. -/
theorem lowest_answers (settings : Settings) (hn : num.Sound) (hd : den.Sound) (nd : den.toMv ≠ 0) :
    Answers Failure.IsLimit (IsLowest num den) (reduceFraction settings num den) := by
  have a := align_spec hn hd
  have left := a.reads_left
  have right := a.reads_right
  have inj : Function.Injective (align num den).1.vars.get := a.left.get_injective
  have ng : den.reading (align num den).1.vars ≠ 0 := by
    intro zero
    rw [← a.toMv_right, ← right.rename_eq, zero, map_zero] at nd
    exact nd rfl
  rw [reduceFraction_align settings hn hd]
  refine (left.reduceFraction_answers settings right ng).imp fun out hout => ?_
  obtain ⟨x, y, hx, hy, value, monic, coprime⟩ := hout
  have ny : y ≠ 0 := by
    rw [← MonomialOrder.leadingCoeff_ne_zero_iff (m := lex), monic]
    exact one_ne_zero
  refine ⟨hx.sound, hy.sound, hx.vars_eq, hy.vars_eq, ?_, ?_, ?_, ?_⟩
  · rw [← hx.rename_eq, ← hy.rename_eq, ← a.toMv_left, ← a.toMv_right, ← left.rename_eq,
      ← right.rename_eq, ← map_mul, ← map_mul, value]
  · rw [← hy.rename_eq]
    exact (MvPolynomial.rename_eq_zero_iff_of_injective y inj).not.mpr ny
  · refine Coefficient.toRat_injective ?_
    rw [hy.leadCoeff_eq, monic, Coefficient.toRat_one]
  · rw [← hx.rename_eq, ← hy.rename_eq]
    exact (isRelPrime_rename_iff inj ny).mpr coprime

/-- Over sorted lists, what is reduced is over a sorted list. -/
theorem isLowest_answers (settings : Settings) (hn : num.Sound) (hd : den.Sound)
    (sn : Variable.Sorted num.vars) (sd : Variable.Sorted den.vars) (nd : den.toMv ≠ 0) :
    Answers Failure.IsLimit (fun out => IsLowest num den out ∧ Variable.Sorted out.2.vars)
      (reduceFraction settings num den) := by
  have sorted := ((align_spec hn hd).of_sorted sn sd).1
  exact (lowest_answers settings hn hd nd).imp fun out h => ⟨h, h.den_vars ▸ sorted⟩

/-- **There is only one fraction in lowest terms with a monic denominator.** -/
theorem IsLowest.unique (h : IsLowest num den out) (h' : IsLowest num' den' out')
    (s : Variable.Sorted out.2.vars) (s' : Variable.Sorted out'.2.vars) (nd : den.toMv ≠ 0)
    (nd' : den'.toMv ≠ 0) (same : num.toMv * den'.toMv = num'.toMv * den.toMv) :
    out'.1.toMv = out.1.toMv ∧ out'.2.toMv = out.2.toMv := by
  have cross : out'.1.toMv * out.2.toMv = out.1.toMv * out'.2.toMv := by
    refine mul_right_cancel₀ (mul_ne_zero nd nd') ?_
    linear_combination out.2.toMv * den.toMv * h'.value - out'.2.toMv * den'.toMv * h.value
      - out.2.toMv * out'.2.toMv * same
  have assoc : Associated out'.2.toMv out.2.toMv :=
    associated_of_mul_eq cross h'.coprime h.coprime
  have dens := C_leadCoeff_mul h'.den_sound h.den_sound s' s assoc
  rw [h.monic, h'.monic, Coefficient.toRat_one, MvPolynomial.C_1, one_mul, one_mul] at dens
  rw [dens] at cross
  exact ⟨mul_right_cancel₀ h'.den_ne_zero cross, dens.symm⟩

/-- The denominator `0` is refused. -/
theorem reduceFraction_of_zero (settings : Settings) (hn : num.Sound) (hd : den.Sound)
    (zero : den.isZero = true) : ∃ u, reduceFraction settings num den = .error (.undefined u) := by
  have a := align_spec hn hd
  have zero' : (align num den).2.isZero = true := by
    rw [← a.right.toMv_eq_zero_iff, a.toMv_right]
    exact hd.toMv_eq_zero_iff.mpr zero
  refine ⟨.zeroDenominator (align num den).1.text, ?_⟩
  unfold reduceFraction
  exact if_pos zero'

/-- A fraction in lowest terms is reduced to itself. -/
theorem IsLowest.reduceFraction_answers (settings : Settings) (h : IsLowest num den out)
    (s : Variable.Sorted out.2.vars) (nd : den.toMv ≠ 0) :
    Answers Failure.IsLimit (· = out) (reduceFraction settings out.1 out.2) := by
  have vars : out.1.vars = out.2.vars := h.num_vars.trans h.den_vars.symm
  have sorted : Variable.Sorted out.1.vars := by rwa [vars]
  refine (isLowest_answers settings h.num_sound h.den_sound sorted s h.den_ne_zero).imp
    fun out' again => ?_
  obtain ⟨h', s'⟩ := again
  obtain ⟨nums, dens⟩ := h.unique h' s s' nd h.den_ne_zero h.value.symm
  have shared : (align out.1 out.2).1.vars = out.1.vars := by
    rw [align_of_vars_eq vars]
  have first := h'.num_sound.eq_of_toMv_eq h.num_sound (h'.num_vars.trans shared) nums
  have second := h'.den_sound.eq_of_toMv_eq h.den_sound
    (h'.den_vars.trans (shared.trans vars)) dens
  exact Prod.ext first second

/-- **Reducing a fraction over sorted lists**: it fails on the denominator `0`; else only a limit
    that is met can keep it from the fraction in lowest terms. That is the same for all fractions
    that are equal, and it is reduced to itself. -/
theorem reduceFraction_spec (settings : Settings) (hn : num.Sound) (hd : den.Sound)
    (sn : Variable.Sorted num.vars) (sd : Variable.Sorted den.vars) :
    ((∃ u, reduceFraction settings num den = .error (.undefined u)) ↔ den.isZero = true) ∧
      (den.isZero = false → Answers Failure.IsLimit
        (fun out => IsLowest num den out ∧
          (∀ settings', Answers Failure.IsLimit (· = out)
            (reduceFraction settings' out.1 out.2)) ∧
          ∀ settings' num' den' out', num'.Sound → den'.Sound → Variable.Sorted num'.vars →
            Variable.Sorted den'.vars → den'.isZero = false →
            num.toMv * den'.toMv = num'.toMv * den.toMv →
            reduceFraction settings' num' den' = .ok out' →
              out'.1.equal out.1 = true ∧ out'.2.equal out.2 = true)
        (reduceFraction settings num den)) := by
  have nonzero {q : Polynomial} (hq : q.Sound) : q.isZero = false ↔ q.toMv ≠ 0 := by
    rw [← Bool.not_eq_true, ← hq.toMv_eq_zero_iff]
  refine ⟨⟨?_, reduceFraction_of_zero settings hn hd⟩, fun nz => ?_⟩
  · rintro ⟨u, run⟩
    by_contra nz
    have nd := (nonzero hd).mp (Bool.not_eq_true _ ▸ nz)
    have limit := (isLowest_answers settings hn hd sn sd nd).of_error run
    rcases limit with e | ⟨steps, e⟩ | e <;> cases e
  · have nd := (nonzero hd).mp nz
    refine (isLowest_answers settings hn hd sn sd nd).imp fun out hout => ?_
    obtain ⟨h, s⟩ := hout
    refine ⟨h, fun settings' => h.reduceFraction_answers settings' s nd, ?_⟩
    intro settings' num' den' out' hn' hd' sn' sd' nz' same run
    have nd' := (nonzero hd').mp nz'
    obtain ⟨h', s'⟩ := (isLowest_answers settings' hn' hd' sn' sd' nd').of_ok run
    obtain ⟨nums, dens⟩ := h.unique h' s s' nd nd' same
    exact ⟨(equal_iff h'.num_sound h.num_sound).mpr nums,
      (equal_iff h'.den_sound h.den_sound).mpr dens⟩

/-- `(2 * x ^ 2 - 2 * x) / (x ^ 2 - x)` is `2`. -/
theorem reduceFraction_spec_at :
    let x := Variable.symbol "x"
    let y := Variable.symbol "y"
    let two := Coefficient.one + .one
    let num : Polynomial := ⟨[x], [⟨two, [2]⟩, ⟨-two, [1]⟩]⟩
    let den : Polynomial := ⟨[x, y], [⟨.one, [2, 0]⟩, ⟨-.one, [1, 0]⟩]⟩
    let out : Polynomial × Polynomial := (constant [x, y] two, one [x, y])
    num.Sound ∧ den.Sound ∧ Variable.Sorted num.vars ∧ Variable.Sorted den.vars ∧
      den.isZero = false ∧ reduceFraction {} num den = .ok out ∧ IsLowest num den out := by
  intro x y two num den out
  have hn : num.Sound := by decide
  have hd : den.Sound := by decide
  have sn : Variable.Sorted num.vars := Variable.isSorted_iff.mp (by decide)
  have sd : Variable.Sorted den.vars := Variable.isSorted_iff.mp (by decide)
  have run : reduceFraction {} num den = .ok out := by cbv
  have nz : den.isZero = false := by decide
  refine ⟨hn, hd, sn, sd, nz, run, ?_⟩
  exact (((reduceFraction_spec {} hn hd sn sd).2 nz).of_ok run).1

end Polynomial

end Eliminant
