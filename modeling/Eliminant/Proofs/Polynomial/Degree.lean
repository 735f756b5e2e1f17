import Eliminant.Proofs.Polynomial.Fits
import Mathlib.Algebra.MvPolynomial.NoZeroDivisors

/-!
# Degrees

The degree of a polynomial in one of its variables is read off its rows (`Polynomial.degreeIn`), and its
largest exponent is the largest of these degrees. Degrees of factors add up, since there are no divisors of
zero, so that

* `exceed_iff_degreeOf`: two terms have exponents that are too large in sum exactly where the degrees in some
  variable are;
* `Terms.Descending.maxDegree_mul_le_iff`: multiples of the largest exponent are those of all degrees;
* `Polynomial.maxDegree_add_le_iff`: the largest exponents of two polynomials are added as the degrees are, in
  whatever variables.
-/

namespace Eliminant

open MvPolynomial (degreeOf)

variable {σ : Type} {f g : MvPolynomial σ ℚ} {B m n : ℕ} {ts us : Terms}

/-! ## 1. Degrees of polynomials in all variables -/

/-- A polynomial that is not zero has a monomial with the degree in a variable. -/
theorem exists_mem_support_degreeOf (hf : f ≠ 0) (i : σ) : ∃ d ∈ f.support, d i = degreeOf i f := by
  obtain ⟨d, hd, same⟩ := Finset.exists_mem_eq_sup f.support (MvPolynomial.support_nonempty.mpr hf) fun d => d i
  exact ⟨d, hd, by rw [MvPolynomial.degreeOf_eq_sup, same]⟩

/-- **Exponents are too large in sum exactly where degrees are.** -/
theorem exceed_iff_degreeOf (hf : f ≠ 0) (hg : g ≠ 0) :
    (∃ d ∈ f.support, ∃ e ∈ g.support, ∃ i, B < d i + e i) ↔ ∃ i, B < degreeOf i f + degreeOf i g := by
  constructor
  · intro exceeds
    obtain ⟨d, hd, e, he, i, large⟩ := exceeds
    refine ⟨i, large.trans_le (Nat.add_le_add ?_ ?_)⟩
    · exact MvPolynomial.le_degreeOf_of_mem_support i hd
    · exact MvPolynomial.le_degreeOf_of_mem_support i he
  · intro exceeds
    obtain ⟨i, large⟩ := exceeds
    obtain ⟨d, hd, left⟩ := exists_mem_support_degreeOf hf i
    obtain ⟨e, he, right⟩ := exists_mem_support_degreeOf hg i
    exact ⟨d, hd, e, he, i, by rwa [left, right]⟩

/-- Degrees of factors that are not zero add up. -/
theorem degreeOf_list_prod (i : σ) : ∀ {fs : List (MvPolynomial σ ℚ)}, (∀ f ∈ fs, f ≠ 0) →
    degreeOf i fs.prod = (fs.map (degreeOf i)).sum
  | [], _ => by simp
  | f :: fs, nonzero => by
    obtain ⟨first, later⟩ := List.forall_mem_cons.mp nonzero
    rw [List.prod_cons, List.map_cons, List.sum_cons, ← degreeOf_list_prod i later]
    exact MvPolynomial.degreeOf_mul_eq first (List.prod_ne_zero fun zero => later 0 zero rfl)

/-! ## 2. Degrees of sums -/

namespace Terms.Descending

/-- The terms of two sums have exponents that do not fit together where the degrees do not. -/
theorem exceed_iff (ht : Descending n ts) (hu : Descending n us) (someT : ts ≠ []) (someU : us ≠ []) :
    Exceed n ts us ↔ ∃ i, maxExponent < degreeOf i (toMv n ts) + degreeOf i (toMv n us) := by
  rw [← exceed_iff_degreeOf (ht.toMv_ne_zero someT) (hu.toMv_ne_zero someU)]
  unfold Exceed
  simp only [ht.mem_support_iff, hu.mem_support_iff, exists_exists_and_eq_and]
  rfl

/-- **The largest exponent is the largest degree.** -/
theorem maxDegree_le_iff (h : Descending n ts) : maxDegree ts ≤ B ↔ ∀ i, degreeOf i (toMv n ts) ≤ B := by
  have row (t : Term) (ht : t ∈ ts) : t.exps.maxDegree ≤ B ↔ ∀ i, t.exps.toFinsupp n i ≤ B := by
    obtain rfl := h.length ht
    rw [Polynomial.maxDegree_le_iff, List.forall_mem_iff_get]
    exact forall_congr' fun i => by simp
  unfold maxDegree
  simp only [foldl_max_le_iff, Nat.zero_le, true_and, MvPolynomial.degreeOf_le_iff, h.mem_support_iff,
    forall_exists_index, and_imp, forall_apply_eq_imp_iff₂]
  exact ⟨fun all i t ht => (row t ht).mp (all t ht) i, fun all t ht => (row t ht).mpr fun i => all i t ht⟩

theorem maxDegree_mul_le_iff (h : Descending n ts) :
    maxDegree ts * m ≤ B ↔ ∀ i, degreeOf i (toMv n ts) * m ≤ B := by
  rcases Nat.eq_zero_or_pos m with rfl | pos
  · simp
  · simp only [← Nat.le_div_iff_mul_le pos]
    exact h.maxDegree_le_iff

/-- The largest exponent in a column is the degree in its variable. -/
theorem degree_eq (h : Descending n ts) (i : Fin n) : degree i ts = degreeOf i (toMv n ts) := by
  refine eq_of_forall_ge_iff fun B => ?_
  simp only [degree_le_iff, MvPolynomial.degreeOf_le_iff, h.mem_support_iff, forall_exists_index, and_imp,
    forall_apply_eq_imp_iff₂, Exponents.toFinsupp_apply]

end Terms.Descending

/-! ## 3. Degrees of polynomials -/

namespace Polynomial

variable {p q : Polynomial} {v : Variable}

/-- The degree in a variable, `0` if it is not listed. -/
def degreeIn (p : Polynomial) (v : Variable) : Nat :=
  match p.variableIndex? v with
  | some i => p.degree i
  | none => 0

/-- **The degree in a variable**, listed or not. -/
theorem Sound.degreeIn_eq (h : p.Sound) (v : Variable) : p.degreeIn v = degreeOf v p.toMv := by
  unfold degreeIn variableIndex?
  cases listed : p.vars.findIdx? (· = v) with
  | none =>
    have missing : v ∉ p.vars := fun mem => by simpa using List.findIdx?_eq_none_iff.mp listed v mem
    refine (Nat.le_zero.mp (MvPolynomial.degreeOf_le_iff.mpr fun m hm => ?_)).symm
    exact Nat.le_zero.mpr (by_contra fun some => missing (h.mem_vars hm some))
  | some i =>
    obtain ⟨hi, here, -⟩ := List.findIdx?_eq_some_iff_getElem.mp listed
    obtain rfl : p.vars.get ⟨i, hi⟩ = v := by simpa using here
    have terms : p.terms.Descending p.vars.length := h.consistent
    rw [toMv, MvPolynomial.degreeOf_rename_of_injective h.get_injective]
    exact terms.degree_eq ⟨i, hi⟩

theorem Sound.maxDegree_le_iff_degreeOf (h : p.Sound) : p.maxDegree ≤ B ↔ ∀ v, degreeOf v p.toMv ≤ B := by
  simp only [h.maxDegree_le_iff, MvPolynomial.degreeOf_le_iff]
  exact ⟨fun all v m hm => all m hm v, fun all m hm v => all v m hm⟩

theorem Sound.degreeIn_le (h : p.Sound) (v : Variable) : p.degreeIn v ≤ p.maxDegree := by
  rw [h.degreeIn_eq]
  exact h.maxDegree_le_iff_degreeOf.mp le_rfl v

/-- The largest exponents of two polynomials, which may be those of different variables. -/
theorem maxDegree_add_le_iff (hp : p.Sound) (hq : q.Sound) :
    p.maxDegree + q.maxDegree ≤ B ↔ ∀ v w, degreeOf v p.toMv + degreeOf w q.toMv ≤ B := by
  constructor
  · intro fits v w
    have left := hp.maxDegree_le_iff_degreeOf.mp le_rfl v
    have right := hq.maxDegree_le_iff_degreeOf.mp le_rfl w
    omega
  · intro fits
    have left (w : Variable) : p.maxDegree ≤ B - degreeOf w q.toMv :=
      hp.maxDegree_le_iff_degreeOf.mpr fun v => Nat.le_sub_of_add_le (fits v w)
    have right : q.maxDegree ≤ B - p.maxDegree := by
      refine hq.maxDegree_le_iff_degreeOf.mpr fun w => ?_
      have := fits w w
      have := left w
      omega
    have := left (.symbol "")
    omega

end Polynomial

end Eliminant
