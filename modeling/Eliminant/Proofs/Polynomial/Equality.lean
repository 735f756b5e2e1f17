import Eliminant.Proofs.Ideal.Renaming
import Eliminant.Proofs.Polynomial.Reading

/-!
# Equality of polynomials

Two polynomials are equal, whatever their lists of variables, when they stand for the same polynomial
in all variables (**`Polynomial.equal_iff`**). Over sorted lists the leading coefficient does not
depend on the list either: polynomials that divide each other differ by their leading coefficients
(`Polynomial.C_leadCoeff_mul`).
-/

namespace Eliminant

open MvPolynomial (C)
open MonomialOrder (lex)

/-- A descending sum has as many terms as monomials. -/
theorem Terms.Descending.card_support {n : Nat} {ts : Terms} (h : Descending n ts) :
    (toMv n ts).support.card = ts.length := by
  classical
  have support : (toMv n ts).support = (ts.map fun t => t.exps.toFinsupp n).toFinset := by
    ext e
    rw [h.mem_support_iff, List.mem_toFinset, List.mem_map]
  have nodup : (ts.map fun t => t.exps.toFinsupp n).Nodup := by
    refine List.pairwise_map.mpr (h.2.2.imp_of_mem fun {t u} ht hu lt same => ?_)
    rw [Exponents.toFinsupp_injective (h.length ht) (h.length hu) same] at lt
    exact Exponents.not_compare_self _ lt
  rw [support, List.toFinset_card_of_nodup nodup, List.length_map]

namespace Polynomial

variable {vars : List Variable} {p q : Polynomial} {f g : MvPolynomial (Fin vars.length) ℚ}

theorem Sound.get_injective (h : p.Sound) : Function.Injective p.vars.get :=
  List.nodup_iff_injective_get.mp h.nodup

/-! ## 1. Equal polynomials -/

theorem Sound.toMv_eq_zero_iff (h : p.Sound) : p.toMv = 0 ↔ p.isZero = true :=
  (MvPolynomial.rename_eq_zero_iff_of_injective _ h.get_injective).trans
    h.consistent.isEmpty_iff.symm

/-- There are as many terms as monomials. -/
theorem Sound.card_support (h : p.Sound) : p.toMv.support.card = p.terms.length := by
  classical
  rw [toMv, MvPolynomial.support_rename_of_injective h.get_injective,
    Finset.card_image_of_injective _ (Finsupp.mapDomain_injective h.get_injective),
    Terms.Descending.card_support h.consistent]

/-- Over one list, polynomials whose sums are equal are equal, whatever the variables are called. -/
theorem Consistent.eq_of_terms (hp : p.Consistent) (hq : q.Consistent) (vars : p.vars = q.vars)
    (h : Terms.toMv p.vars.length p.terms = Terms.toMv p.vars.length q.terms) : p = q := by
  obtain ⟨us, ts⟩ := p
  obtain ⟨vs, ss⟩ := q
  cases vars
  have terms : ts = ss := Terms.toMv_injective hp hq h
  rw [terms]

/-- Over one list of distinct variables, equal polynomials have equal terms. -/
theorem Consistent.eq_of_toMv_eq (hp : p.Consistent) (hq : q.Consistent) (nodup : p.vars.Nodup)
    (vars : p.vars = q.vars) (h : p.toMv = q.toMv) : p = q := by
  obtain ⟨us, ts⟩ := p
  obtain ⟨vs, ss⟩ := q
  cases vars
  exact hp.eq_of_terms hq rfl (MvPolynomial.rename_injective _ (List.nodup_iff_injective_get.mp nodup) h)

theorem Sound.eq_of_toMv_eq (hp : p.Sound) (hq : q.Sound) (vars : p.vars = q.vars)
    (h : p.toMv = q.toMv) : p = q :=
  hp.consistent.eq_of_toMv_eq hq.consistent hp.nodup vars h

theorem Sound.terms_eq_iff (hp : p.Sound) (hq : q.Sound) (vars : p.vars = q.vars) :
    (p.terms == q.terms) = true ↔ p.toMv = q.toMv := by
  rw [beq_iff_eq]
  refine ⟨fun terms => ?_, fun h => congrArg _ (hp.eq_of_toMv_eq hq vars h)⟩
  obtain ⟨us, ts⟩ := p
  obtain ⟨vs, ss⟩ := q
  cases vars
  cases terms
  rfl

/-- **Equality decides whether two polynomials are the same.** -/
theorem equal_iff (hp : p.Sound) (hq : q.Sound) : p.equal q = true ↔ p.toMv = q.toMv := by
  unfold equal
  split
  · rename_i vars
    exact hp.terms_eq_iff hq vars
  split
  · rename_i ne
    refine iff_of_false Bool.false_ne_true fun same => ne ?_
    rw [← hp.card_support, same, hq.card_support]
  · have a := align_spec hp hq
    rw [← a.toMv_left, ← a.toMv_right]
    exact a.left.terms_eq_iff a.right a.vars_eq.symm

theorem Sound.leadCoeff_ne_zero (h : p.Sound) (ne : p.toMv ≠ 0) : p.leadCoeff.toRat ≠ 0 := by
  rw [h.reads.leadCoeff_eq, MonomialOrder.leadingCoeff_ne_zero_iff]
  intro zero
  rw [← rename_reading (List.Subset.refl p.vars), zero, map_zero] at ne
  exact ne rfl

/-! ## 2. Polynomials that divide each other -/

/-- **Over sorted lists, polynomials that divide each other differ by their leading coefficients.** -/
theorem C_leadCoeff_mul (hp : p.Sound) (hq : q.Sound) (sp : Variable.Sorted p.vars)
    (sq : Variable.Sorted q.vars) (h : Associated p.toMv q.toMv) :
    C p.leadCoeff.toRat * q.toMv = C q.leadCoeff.toRat * p.toMv := by
  have a := align_spec hp hq
  obtain ⟨-, left, right⟩ := a.of_sorted sp sq
  have hl := a.reads_left
  have hr := a.reads_right
  have inj : Function.Injective (align p q).1.vars.get := a.left.get_injective
  rw [← a.toMv_left, ← a.toMv_right, ← hl.rename_eq, ← hr.rename_eq] at h ⊢
  have := C_leadingCoeff_mul (m := lex) (associated_of_rename inj h)
  rw [← hl.leadCoeff_eq, ← hr.leadCoeff_eq, left, right] at this
  rw [← MvPolynomial.rename_C, ← map_mul, this, map_mul, MvPolynomial.rename_C]

end Polynomial

end Eliminant
