import Mathlib.Algebra.GCDMonoid.Basic
import Mathlib.RingTheory.MvPolynomial.Groebner
import Mathlib.RingTheory.Polynomial.UniqueFactorization
import Mathlib.RingTheory.UniqueFactorizationDomain.GCDMonoid
import Mathlib.Tactic.LinearCombination

/-!
# Divisors and leading monomials

The leading monomial of a divisor divides that of a multiple (`degree_le_of_dvd`), the units are the
polynomials with the leading monomial `1` (`isUnit_iff_degree_eq_zero`), and two polynomials that
divide each other differ by their leading coefficients (`C_leadingCoeff_mul`).

`IsLcm` and `IsGcd` say what least common multiples and greatest common divisors are; the product
divided by the one is the other (**`isGcd_of_mul_eq`**), and what is left of two polynomials divided
by their greatest common divisor has no common factor (**`IsGcd.isRelPrime`**).
-/

namespace Eliminant

open MvPolynomial
open MonomialOrder (degree_mul)

variable {σ K : Type} [Field K] {m : MonomialOrder σ} {f g h d l p q : MvPolynomial σ K}

/-! ## 1. Leading monomials of divisors -/

/-- The leading monomial of a divisor divides that of a multiple. -/
theorem degree_le_of_dvd (h : p ∣ q) (nq : q ≠ 0) : m.degree p ≤ m.degree q := by
  obtain ⟨k, rfl⟩ := h
  rw [degree_mul (left_ne_zero_of_mul nq) (right_ne_zero_of_mul nq)]
  exact le_self_add

/-- **The units are the constants that are not zero.** -/
theorem isUnit_iff_degree_eq_zero (np : p ≠ 0) : IsUnit p ↔ m.degree p = 0 := by
  constructor
  · intro unit
    have le : m.degree p ≤ m.degree 1 := degree_le_of_dvd unit.dvd one_ne_zero
    rwa [MonomialOrder.degree_one, nonpos_iff_eq_zero] at le
  · intro deg
    rw [MonomialOrder.eq_C_of_degree_eq_zero deg]
    exact (IsUnit.mk0 _ (MonomialOrder.leadingCoeff_ne_zero_iff.mpr np)).map C

/-- A multiple with the same leading monomial is a multiple by a constant. -/
theorem dvd_of_degree_eq (h : p ∣ q) (nq : q ≠ 0) (same : m.degree p = m.degree q) : q ∣ p := by
  obtain ⟨k, rfl⟩ := h
  have nk := right_ne_zero_of_mul nq
  rw [degree_mul (left_ne_zero_of_mul nq) nk] at same
  have unit : IsUnit k := (isUnit_iff_degree_eq_zero nk).mpr (left_eq_add.mp same)
  exact (unit.mul_right_dvd).mpr dvd_rfl

/-- A polynomial and its multiple by a constant divide each other. -/
theorem associated_C_mul {c : K} (hc : c ≠ 0) (p : MvPolynomial σ K) : Associated p (C c * p) :=
  (associated_unit_mul_left p _ ((IsUnit.mk0 c hc).map C)).symm

/-- **Polynomials that divide each other differ by their leading coefficients.** -/
theorem C_leadingCoeff_mul (h : Associated p q) :
    C (m.leadingCoeff p) * q = C (m.leadingCoeff q) * p := by
  obtain ⟨u, rfl⟩ := h
  have deg : m.degree (u : MvPolynomial σ K) = 0 :=
    (isUnit_iff_degree_eq_zero u.ne_zero).mp u.isUnit
  have const : (u : MvPolynomial σ K) = C (m.leadingCoeff (u : MvPolynomial σ K)) :=
    MonomialOrder.eq_C_of_degree_eq_zero deg
  rw [MonomialOrder.leadingCoeff_mul, C_mul, ← const]
  ring

/-! ## 2. Multiples and divisors of two polynomials -/

/-- `l` is a least common multiple of `f` and `g`. -/
def IsLcm (f g l : MvPolynomial σ K) : Prop :=
  f ∣ l ∧ g ∣ l ∧ ∀ h, f ∣ h → g ∣ h → l ∣ h

/-- `d` is a greatest common divisor of `f` and `g`. -/
def IsGcd (f g d : MvPolynomial σ K) : Prop :=
  d ∣ f ∧ d ∣ g ∧ ∀ h, h ∣ f → h ∣ g → h ∣ d

theorem IsLcm.symm (h : IsLcm f g l) : IsLcm g f l :=
  ⟨h.2.1, h.1, fun k hg hf => h.2.2 k hf hg⟩

theorem IsGcd.symm (h : IsGcd f g d) : IsGcd g f d :=
  ⟨h.2.1, h.1, fun k hg hf => h.2.2 k hf hg⟩

theorem IsGcd.of_associated (h : IsGcd f g d) (hd : Associated d p) : IsGcd f g p :=
  ⟨hd.symm.dvd.trans h.1, hd.symm.dvd.trans h.2.1, fun k hf hg => (h.2.2 k hf hg).trans hd.dvd⟩

/-- Every multiple of a polynomial is a multiple of a unit. -/
theorem isLcm_of_isUnit (hf : IsUnit f) (hl : Associated g l) : IsLcm f g l :=
  ⟨hf.dvd, hl.dvd, fun _ _ hg => hl.symm.dvd.trans hg⟩

theorem isLcm_zero (g : MvPolynomial σ K) : IsLcm 0 g 0 :=
  ⟨dvd_rfl, dvd_zero g, fun _ h0 _ => h0⟩

theorem isGcd_zero (hd : Associated g d) : IsGcd 0 g d :=
  ⟨dvd_zero d, hd.symm.dvd, fun _ _ hg => hg.trans hd.dvd⟩

theorem isGcd_of_isUnit (hf : IsUnit f) : IsGcd f g 1 :=
  ⟨one_dvd f, one_dvd g, fun _ hf' _ => hf'.trans hf.dvd⟩

/-- **The product divided by a least common multiple is a greatest common divisor.** -/
theorem isGcd_of_mul_eq (hf : f ≠ 0) (hg : g ≠ 0) (hl : IsLcm f g l) (h : d * l = f * g) :
    IsGcd f g d := by
  obtain ⟨⟨a, ha⟩, ⟨b, hb⟩, least⟩ := hl
  refine ⟨⟨b, ?_⟩, ⟨a, ?_⟩, ?_⟩
  · refine mul_right_cancel₀ hg ?_
    rw [← h, hb]
    ring
  · refine mul_left_cancel₀ hf ?_
    rw [← h, ha]
    ring
  · rintro c ⟨f', rfl⟩ ⟨g', rfl⟩
    obtain ⟨k, hk⟩ := least (c * f' * g') (dvd_mul_right _ _) ⟨f', by ring⟩
    have nl : l ≠ 0 := right_ne_zero_of_mul (h ▸ mul_ne_zero hf hg)
    refine ⟨k, mul_right_cancel₀ nl ?_⟩
    linear_combination h + c * hk

/-- **The product of greatest common divisor and least common multiple.** -/
theorem associated_mul (hd : IsGcd f g d) (hl : IsLcm f g l) : Associated (d * l) (f * g) := by
  let _ : GCDMonoid (MvPolynomial σ K) := UniqueFactorizationMonoid.toGCDMonoid _
  have one : Associated d (gcd f g) :=
    associated_of_dvd_dvd (dvd_gcd hd.1 hd.2.1) (hd.2.2 _ (gcd_dvd_left f g) (gcd_dvd_right f g))
  have two : Associated l (lcm f g) :=
    associated_of_dvd_dvd (hl.2.2 _ (dvd_lcm_left f g) (dvd_lcm_right f g)) (lcm_dvd hl.1 hl.2.1)
  exact (one.mul_mul two).trans (gcd_mul_lcm f g)

/-- **What is left of two polynomials has no common factor.** -/
theorem IsGcd.isRelPrime (h : IsGcd (p * d) (q * d) d) (nd : d ≠ 0) : IsRelPrime p q := by
  intro c hp hq
  have := h.2.2 (c * d) (mul_dvd_mul_right hp d) (mul_dvd_mul_right hq d)
  exact isUnit_of_dvd_one ((mul_dvd_mul_iff_right nd).mp (by rwa [one_mul]))

/-- **Fractions in lowest terms that are equal have denominators that divide each other.** -/
theorem associated_of_mul_eq (h : f * q = p * g) (hfg : IsRelPrime f g) (hpq : IsRelPrime p q) :
    Associated g q := by
  refine associated_of_dvd_dvd ?_ ?_
  · exact hfg.symm.dvd_of_dvd_mul_left (h ▸ dvd_mul_left g p)
  · exact hpq.symm.dvd_of_dvd_mul_left (h ▸ dvd_mul_left q f)

end Eliminant
