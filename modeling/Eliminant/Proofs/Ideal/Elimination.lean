import Eliminant.Proofs.Ideal.Basis
import Eliminant.Proofs.Ideal.Divisor

/-!
# Least common multiples by elimination

With one more variable `t` in front, the polynomials without `t` in the ideal of `t * f` and
`(1 - t) * g` are the common multiples of `f` and `g` (`lift_mem_iff`): setting `t` to `1` and to `0`
takes the ideal to the multiples of `f` and of `g`. Since `t` is the most significant variable, a
reduced Groebner basis of the ideal has an element without `t` (`exists_first_eq_zero`), and every
such element is a least common multiple (**`isLcm_of_mem`**).
-/

namespace Eliminant

open MvPolynomial
open MonomialOrder (lex)

variable {K : Type} [Field K] {n : Nat} {f g h : MvPolynomial (Fin n) K}
  {basis : List (MvPolynomial (Fin (n + 1)) K)}

/-! ## 1. One more variable -/

/-- A polynomial, with one more variable in front that does not occur. -/
noncomputable def lift (f : MvPolynomial (Fin n) K) : MvPolynomial (Fin (n + 1)) K :=
  rename Fin.succ f

theorem lift_eq_zero_iff : lift f = 0 ↔ f = 0 :=
  rename_eq_zero_iff_of_injective f (Fin.succ_injective n)

theorem lift_mul : lift (f * g) = lift f * lift g := map_mul _ _ _

theorem lift_dvd (h : f ∣ g) : lift f ∣ lift g := by
  obtain ⟨k, rfl⟩ := h
  exact ⟨lift k, lift_mul⟩

/-- The value of the new variable. -/
noncomputable def setFirst (c : K) : MvPolynomial (Fin (n + 1)) K →ₐ[K] MvPolynomial (Fin n) K :=
  aeval (Fin.cons (C c) X)

@[simp] theorem setFirst_X (c : K) : setFirst c (X 0 : MvPolynomial (Fin (n + 1)) K) = C c := by
  rw [setFirst, aeval_X, Fin.cons_zero]

@[simp] theorem setFirst_lift (c : K) (f : MvPolynomial (Fin n) K) : setFirst c (lift f) = f := by
  rw [setFirst, lift, aeval_rename]
  exact aeval_X_left_apply f

/-- The new variable does not occur in the leading monomial of a lifted polynomial. -/
theorem degree_lift_zero (f : MvPolynomial (Fin n) K) : lex.degree (lift f) 0 = 0 := by
  classical
  by_cases hz : f = 0
  · rw [lift_eq_zero_iff.mpr hz, MonomialOrder.degree_zero]
    rfl
  · have mem := MonomialOrder.degree_mem_support (m := lex) (lift_eq_zero_iff.not.mpr hz)
    rw [lift, support_rename_of_injective (Fin.succ_injective n)] at mem
    obtain ⟨e, -, he⟩ := Finset.mem_image.mp mem
    rw [lift, ← he]
    exact Finsupp.mapDomain_of_notMem_range _ _ fun ⟨i, hi⟩ => Fin.succ_ne_zero i hi

/-! ## 2. The elimination ideal -/

/-- The ideal whose members without the new variable are the common multiples. -/
noncomputable def eliminationIdeal (f g : MvPolynomial (Fin n) K) :
    Ideal (MvPolynomial (Fin (n + 1)) K) :=
  Ideal.span {X 0 * lift f, (1 - X 0) * lift g}

/-- **The members without the new variable are the common multiples.** -/
theorem lift_mem_iff : lift h ∈ eliminationIdeal f g ↔ f ∣ h ∧ g ∣ h := by
  constructor
  · intro mem
    have image (c : K) : h ∈ Ideal.span {C c * f, (1 - C c) * g} := by
      have := Ideal.mem_map_of_mem (setFirst c) mem
      rwa [eliminationIdeal, Ideal.map_span, Set.image_pair, map_mul, map_mul, map_sub, map_one,
        setFirst_X, setFirst_lift, setFirst_lift, setFirst_lift] at this
    have one := image 1
    have zero := image 0
    rw [C_1, one_mul, sub_self, zero_mul, Ideal.span_pair_zero, Ideal.mem_span_singleton] at one
    rw [C_0, zero_mul, sub_zero, one_mul, Ideal.span_insert_zero, Ideal.mem_span_singleton] at zero
    exact ⟨one, zero⟩
  · rintro ⟨⟨a, ha⟩, ⟨b, hb⟩⟩
    have split : lift h = lift a * (X 0 * lift f) + lift b * ((1 - X 0) * lift g) := by
      have left : lift h = lift f * lift a := ha ▸ lift_mul
      have right : lift h = lift g * lift b := hb ▸ lift_mul
      linear_combination X 0 * left + (1 - X 0) * right
    rw [split]
    exact add_mem (Ideal.mul_mem_left _ _ (Ideal.subset_span (by simp)))
      (Ideal.mul_mem_left _ _ (Ideal.subset_span (by simp)))

/-! ## 3. The element without the new variable -/

/-- A polynomial whose leading monomial lacks the first variable lacks it altogether. -/
theorem first_eq_zero_of_mem_support {b : MvPolynomial (Fin (n + 1)) K}
    (hb : lex.degree b 0 = 0) {e : Fin (n + 1) →₀ ℕ} (he : e ∈ b.support) : e 0 = 0 := by
  by_contra pos
  refine not_lt_of_ge (MonomialOrder.le_degree (m := lex) he) ?_
  refine Finsupp.Lex.lt_iff.mpr ⟨0, fun j hj => absurd hj (Fin.not_lt_zero j), ?_⟩
  show lex.degree b 0 < e 0
  omega

/-- A reduced Groebner basis has an element whose leading monomial lacks the new variable. -/
theorem exists_first_eq_zero (hB : IsReducedBasis lex (eliminationIdeal f g) basis) (hf : f ≠ 0)
    (hg : g ≠ 0) : ∃ b ∈ basis, lex.degree b 0 = 0 := by
  have mem : lift (f * g) ∈ eliminationIdeal f g :=
    lift_mem_iff.mpr ⟨dvd_mul_right f g, dvd_mul_left g f⟩
  obtain ⟨b, hb, -, le⟩ := hB.covers _ mem (lift_eq_zero_iff.not.mpr (mul_ne_zero hf hg))
  refine ⟨b, hb, ?_⟩
  have := le 0
  rw [degree_lift_zero] at this
  omega

/-- **An element of the reduced Groebner basis without the new variable is a least common
    multiple.** -/
theorem isLcm_of_mem (hB : IsReducedBasis lex (eliminationIdeal f g) basis) (hf : f ≠ 0)
    (hg : g ≠ 0) {p : MvPolynomial (Fin n) K} (hp : lift p ∈ basis) : IsLcm f g p := by
  have inIdeal {b : MvPolynomial (Fin (n + 1)) K} (hb : b ∈ basis) : b ∈ eliminationIdeal f g := by
    rw [← hB.span_eq]
    exact Ideal.subset_span hb
  obtain ⟨fp, gp⟩ := lift_mem_iff.mp (inIdeal hp)
  -- a least common multiple, of which `p` is a multiple
  let _ : GCDMonoid (MvPolynomial (Fin n) K) := UniqueFactorizationMonoid.toGCDMonoid _
  have np : lift p ≠ 0 := (hB.monic _ hp).ne_zero
  have lp : lcm f g ∣ p := lcm_dvd fp gp
  have nl : lift (lcm f g) ≠ 0 := lift_eq_zero_iff.not.mpr (lcm_ne_zero_iff.mpr ⟨hf, hg⟩)
  have mem : lift (lcm f g) ∈ eliminationIdeal f g :=
    lift_mem_iff.mpr ⟨dvd_lcm_left f g, dvd_lcm_right f g⟩
  obtain ⟨b, hb, nb, le⟩ := hB.covers _ mem nl
  have le_p := degree_le_of_dvd (m := lex) (lift_dvd lp) np
  -- in a reduced basis only `p` itself can lead below it
  have same : b = lift p := by
    by_contra ne
    exact hB.reduced _ hp b hb ne _ (MonomialOrder.degree_mem_support np) (le.trans le_p)
  subst same
  have back : lift p ∣ lift (lcm f g) :=
    dvd_of_degree_eq (lift_dvd lp) np (le_antisymm le_p le)
  have pl : p ∣ lcm f g := by
    have := map_dvd (setFirst 0) back
    rwa [setFirst_lift, setFirst_lift] at this
  exact ⟨fp, gp, fun h hfh hgh => pl.trans (lcm_dvd hfh hgh)⟩

end Eliminant
