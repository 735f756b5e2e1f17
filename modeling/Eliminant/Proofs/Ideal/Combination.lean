import Mathlib.RingTheory.MvPolynomial.Groebner
import Mathlib.RingTheory.MvPolynomial.IrreducibleQuadratic
import Mathlib.Tactic.LinearCombination

/-!
# Combinations with bounded summands, and Buchberger's criterion

A member of the ideal of a set `B` is a sum of multiples `x ^ e * b` of members of `B`. How large
the leading monomials of the summands are is what decides whether the sum leads to anything new:
`combinations m B D` are the sums whose summands have leading monomials in `D`.

* `mem_combinations_of_degree_lt`: where every S-polynomial of `B` is a combination below the least
  common multiple of its leading monomials, summands of the largest monomial that cancel can be
  replaced by smaller ones;
* **`exists_degree_le_of_mem_span`**, Buchberger's criterion: then every non-zero member of the ideal
  has a leading monomial divisible by that of a member of `B`;
* `sPolynomial_mem_of_coprime`, the product criterion: S-polynomials of members whose leading
  monomials share no variable are such combinations.
-/

namespace Eliminant

open MvPolynomial MonomialOrder

variable {σ K : Type} [Field K] {m : MonomialOrder σ} {A B : Set (MvPolynomial σ K)}
  {D D' : Set m.syn} {f g : MvPolynomial σ K}

/-! ## 1. Combinations -/

/-- The multiples of members of `B` by monomials, with leading monomials in `D`. -/
def multiples (m : MonomialOrder σ) (B : Set (MvPolynomial σ K)) (D : Set m.syn) :
    Set (MvPolynomial σ K) :=
  {f | ∃ e, ∃ b ∈ B, b ≠ 0 ∧ m.toSyn (e + m.degree b) ∈ D ∧ f = monomial e 1 * b}

/-- The combinations of members of `B` whose summands have leading monomials in `D`. -/
noncomputable def combinations (m : MonomialOrder σ) (B : Set (MvPolynomial σ K)) (D : Set m.syn) :
    Submodule K (MvPolynomial σ K) :=
  Submodule.span K (multiples m B D)

theorem combinations_mono (hB : A ⊆ B) (hD : D ⊆ D') :
    combinations m A D ≤ combinations m B D' := by
  refine Submodule.span_mono ?_
  rintro _ ⟨e, b, hb, ne, hd, rfl⟩
  exact ⟨e, b, hB hb, ne, hD hd, rfl⟩

theorem mem_span_of_mem_combinations (h : f ∈ combinations m B D) : f ∈ Ideal.span B := by
  induction h using Submodule.span_induction with
  | mem f hf =>
    obtain ⟨e, b, hb, -, -, rfl⟩ := hf
    exact Ideal.mul_mem_left _ _ (Ideal.subset_span hb)
  | zero => exact zero_mem _
  | add f g _ _ hf hg => exact add_mem hf hg
  | smul c f _ hf =>
    rw [smul_eq_C_mul]
    exact Ideal.mul_mem_left _ _ hf

/-- A multiple by a polynomial is a combination when its summands are. -/
theorem mul_mem_combinations {p b : MvPolynomial σ K} (hb : b ∈ B) (ne : b ≠ 0)
    (h : ∀ e ∈ p.support, m.toSyn (e + m.degree b) ∈ D) : p * b ∈ combinations m B D := by
  rw [p.as_sum, Finset.sum_mul]
  refine Submodule.sum_mem _ fun e he => ?_
  have : monomial e (coeff e p) * b = coeff e p • (monomial e 1 * b) := by
    rw [smul_eq_C_mul, ← mul_assoc, C_mul_monomial, mul_one]
  rw [this]
  exact Submodule.smul_mem _ _ (Submodule.subset_span ⟨e, b, hb, ne, h e he, rfl⟩)

/-- A monomial shifts the summands of a combination. -/
theorem monomial_mul_mem_combinations {e : σ →₀ ℕ} (c : K) (h : f ∈ combinations m B D)
    (hD : ∀ d ∈ D, m.toSyn e + d ∈ D') : monomial e c * f ∈ combinations m B D' := by
  induction h using Submodule.span_induction with
  | mem f hf =>
    obtain ⟨e', b, hb, ne, hd, rfl⟩ := hf
    rw [← mul_assoc, monomial_mul, mul_one]
    refine mul_mem_combinations hb ne fun e'' he'' => ?_
    have : e'' = e + e' := by
      have := support_monomial_subset he''
      rwa [Finset.mem_singleton] at this
    rw [this, add_assoc, map_add]
    exact hD _ hd
  | zero =>
    rw [mul_zero]
    exact zero_mem _
  | add f g _ _ hf hg =>
    rw [mul_add]
    exact add_mem hf hg
  | smul k f _ hf =>
    rw [mul_smul_comm]
    exact Submodule.smul_mem _ _ hf

/-- No monomial of a combination exceeds all leading monomials of its summands. -/
theorem exists_le_of_mem_support (h : f ∈ combinations m B D) :
    ∀ e ∈ f.support, ∃ d ∈ D, m.toSyn e ≤ d := by
  induction h using Submodule.span_induction with
  | mem f hf =>
    obtain ⟨e', b, -, -, hd, rfl⟩ := hf
    intro e he
    refine ⟨_, hd, (MonomialOrder.le_degree he).trans (degree_mul_le.trans ?_)⟩
    rw [map_add, map_add]
    exact add_le_add_left (degree_monomial_le _) _
  | zero =>
    intro e he
    simp at he
  | add f g _ _ hf hg =>
    intro e he
    classical
    rcases Finset.mem_union.mp (support_add he) with he | he
    · exact hf e he
    · exact hg e he
  | smul k f _ hf => exact fun e he => hf e (support_smul he)

/-- Where a combination has a monomial that no summand exceeds, the leading monomial of a member
    divides it. -/
theorem exists_degree_le_of_coeff_ne_zero {e : σ →₀ ℕ}
    (h : f ∈ combinations m B (Set.Iic (m.toSyn e))) (he : coeff e f ≠ 0) :
    ∃ b ∈ B, b ≠ 0 ∧ m.degree b ≤ e := by
  induction h using Submodule.span_induction with
  | mem f hf =>
    obtain ⟨e', b, hb, ne, hd, rfl⟩ := hf
    refine ⟨b, hb, ne, ?_⟩
    have le : m.toSyn e ≤ m.toSyn (e' + m.degree b) := by
      refine (MonomialOrder.le_degree (mem_support_iff.mpr he)).trans (degree_mul_le.trans ?_)
      rw [map_add, map_add]
      exact add_le_add_left (degree_monomial_le _) _
    have : e = e' + m.degree b := m.toSyn.injective (le_antisymm le hd)
    rw [this]
    exact le_add_self
  | zero => exact absurd (coeff_zero e) he
  | add f g _ _ hf hg =>
    rw [coeff_add] at he
    by_cases hz : coeff e f = 0
    · rw [hz, zero_add] at he
      exact hg he
    · exact hf hz
  | smul k f _ hf =>
    rw [coeff_smul] at he
    exact hf (right_ne_zero_of_mul he)

theorem degree_lt_of_mem_combinations {d : m.syn} (h : f ∈ combinations m B (Set.Iio d))
    (pos : 0 < d) : m.toSyn (m.degree f) < d := by
  by_cases hz : f = 0
  · rwa [hz, degree_zero, map_zero]
  · obtain ⟨d', lt, le⟩ := exists_le_of_mem_support h _ (degree_mem_support hz)
    exact lt_of_le_of_lt le lt

/-- What differs by a combination that goes no higher goes no higher itself. -/
theorem degree_le_of_sub_mem (h : f - g ∈ combinations m B (Set.Iic (m.toSyn (m.degree f)))) :
    m.toSyn (m.degree g) ≤ m.toSyn (m.degree f) := by
  rw [← sub_sub_cancel f g]
  refine degree_sub_le.trans (max_le le_rfl (degree_le_iff.mpr fun e he => ?_))
  obtain ⟨d, hd, le⟩ := exists_le_of_mem_support h e he
  exact le.trans hd

/-- A combination below a bound is `0`, or a combination up to a smaller one. -/
theorem eq_zero_or_exists_lt {d : m.syn} (h : f ∈ combinations m B (Set.Iio d)) :
    f = 0 ∨ ∃ d' < d, f ∈ combinations m B (Set.Iic d') := by
  induction h using Submodule.span_induction with
  | mem f hf =>
    obtain ⟨e, b, hb, ne, hd, rfl⟩ := hf
    exact Or.inr ⟨_, hd, Submodule.subset_span ⟨e, b, hb, ne, le_rfl, rfl⟩⟩
  | zero => exact Or.inl rfl
  | add f g _ _ hf hg =>
    rcases hf with rfl | ⟨d₁, lt₁, hf⟩
    · rwa [zero_add]
    · rcases hg with rfl | ⟨d₂, lt₂, hg⟩
      · rw [add_zero]
        exact Or.inr ⟨d₁, lt₁, hf⟩
      · refine Or.inr ⟨max d₁ d₂, max_lt lt₁ lt₂, add_mem ?_ ?_⟩
        · exact combinations_mono le_rfl (Set.Iic_subset_Iic.mpr (le_max_left _ _)) hf
        · exact combinations_mono le_rfl (Set.Iic_subset_Iic.mpr (le_max_right _ _)) hg
  | smul k f _ hf =>
    rcases hf with rfl | ⟨d', lt, hf⟩
    · exact Or.inl (smul_zero k)
    · exact Or.inr ⟨d', lt, Submodule.smul_mem _ _ hf⟩

/-- Every member of the ideal is a combination up to some bound. -/
theorem exists_mem_combinations (h : f ∈ Ideal.span B) :
    ∃ d, f ∈ combinations m B (Set.Iic d) := by
  induction h using Submodule.span_induction with
  | mem b hb =>
    by_cases ne : b = 0
    · exact ⟨0, ne ▸ zero_mem _⟩
    · refine ⟨m.toSyn (0 + m.degree b), Submodule.subset_span ⟨0, b, hb, ne, le_rfl, ?_⟩⟩
      exact (one_mul b).symm
  | zero => exact ⟨0, zero_mem _⟩
  | add f g _ _ hf hg =>
    obtain ⟨d₁, hf⟩ := hf
    obtain ⟨d₂, hg⟩ := hg
    refine ⟨max d₁ d₂, add_mem ?_ ?_⟩
    · exact combinations_mono le_rfl (Set.Iic_subset_Iic.mpr (le_max_left _ _)) hf
    · exact combinations_mono le_rfl (Set.Iic_subset_Iic.mpr (le_max_right _ _)) hg
  | smul p f _ hf =>
    obtain ⟨d, hf⟩ := hf
    refine ⟨m.toSyn (m.degree p) + d, ?_⟩
    have sum : p • f = ∑ e ∈ p.support, monomial e (coeff e p) * f := by
      rw [smul_eq_mul, ← Finset.sum_mul, ← p.as_sum]
    rw [sum]
    refine Submodule.sum_mem _ fun e he => ?_
    refine monomial_mul_mem_combinations _ hf fun d' hd' => ?_
    exact add_le_add (MonomialOrder.le_degree he) hd'

/-! ## 2. Buchberger's criterion -/

/-- Every S-polynomial of `B` is a combination below the least common multiple of its leading
    monomials. -/
def SPolynomialsBelow (m : MonomialOrder σ) (B : Set (MvPolynomial σ K)) : Prop :=
  ∀ f ∈ B, ∀ g ∈ B, f ≠ 0 → g ≠ 0 →
    m.sPolynomial f g ∈ combinations m B (Set.Iio (m.toSyn (m.degree f ⊔ m.degree g)))

/-- The S-polynomial of two multiples with one leading monomial is a combination below it. -/
theorem SPolynomialsBelow.multiples (h : SPolynomialsBelow m B) {d : m.syn} (c₁ c₂ : K)
    {e₁ e₂ : σ →₀ ℕ} (hf : f ∈ B) (hg : g ∈ B) (nf : f ≠ 0)
    (ng : g ≠ 0) (df : m.toSyn (e₁ + m.degree f) = d) (dg : m.toSyn (e₂ + m.degree g) = d) :
    m.sPolynomial (monomial e₁ c₁ * f) (monomial e₂ c₂ * g) ∈ combinations m B (Set.Iio d) := by
  rw [sPolynomial_monomial_mul]
  refine monomial_mul_mem_combinations _ (h f hf g hg nf ng) fun d' hd' => ?_
  have same : e₁ + m.degree f = e₂ + m.degree g := m.toSyn.injective (df.trans dg.symm)
  have le : m.degree f ⊔ m.degree g ≤ e₁ + m.degree f :=
    sup_le le_add_self (same ▸ le_add_self)
  show _ < d
  rw [← same, sup_idem, ← df, ← tsub_add_cancel_of_le le, add_tsub_cancel_right,
    map_add m.toSyn _ (m.degree f ⊔ m.degree g)]
  exact add_lt_add_right hd' _

theorem degree_monomial_mul {e : σ →₀ ℕ} {c : K} (hc : c ≠ 0) (hf : f ≠ 0) :
    m.degree (monomial e c * f) = e + m.degree f := by
  classical
  rw [degree_mul (monomial_eq_zero.not.mpr hc) hf, degree_monomial, if_neg hc]

/-- **Summands of the largest monomial that cancel can be replaced by smaller ones.** -/
theorem mem_combinations_of_degree_lt (h : SPolynomialsBelow m B) {d : m.syn}
    (hf : f ∈ combinations m B (Set.Iic d)) (lt : m.toSyn (m.degree f) < d) :
    f ∈ combinations m B (Set.Iio d) := by
  classical
  obtain ⟨c, sub, rfl⟩ := Submodule.mem_span_set.mp hf
  -- the summands with the largest monomial, and the others
  set top := c.support.filter fun x => m.toSyn (m.degree x) = d with htop
  set low := c.support.filter fun x => ¬ m.toSyn (m.degree x) = d with hlow
  have split : (c.sum fun x k => k • x) = ∑ x ∈ top, c x • x + ∑ x ∈ low, c x • x :=
    (Finset.sum_filter_add_sum_filter_not _ _ _).symm
  have small : ∑ x ∈ low, c x • x ∈ combinations m B (Set.Iio d) := by
    refine Submodule.sum_mem _ fun x hx => Submodule.smul_mem _ _ ?_
    obtain ⟨hx, ne⟩ := Finset.mem_filter.mp hx
    obtain ⟨e, b, hb, nb, hd, rfl⟩ := sub hx
    rw [degree_monomial_mul one_ne_zero nb] at ne
    exact Submodule.subset_span ⟨e, b, hb, nb, lt_of_le_of_ne hd ne, rfl⟩
  have shape : ∀ x ∈ top, ∃ e, ∃ b ∈ B, b ≠ 0 ∧ m.toSyn (e + m.degree b) = d ∧
      c x • x = monomial e (c x) * b := by
    intro x hx
    obtain ⟨hx, eq⟩ := Finset.mem_filter.mp hx
    obtain ⟨e, b, hb, nb, -, rfl⟩ := sub hx
    rw [degree_monomial_mul one_ne_zero nb] at eq
    refine ⟨e, b, hb, nb, eq, ?_⟩
    rw [smul_eq_C_mul, ← mul_assoc, C_mul_monomial, mul_one]
  have drop : m.toSyn (m.degree (∑ x ∈ top, c x • x)) < d := by
    rw [eq_sub_of_add_eq split.symm]
    exact lt_of_le_of_lt degree_sub_le
      (max_lt lt (degree_lt_of_mem_combinations small (lt_of_le_of_lt (MonomialOrder.zero_le _ _) lt)))
  refine split ▸ add_mem ?_ small
  have even : ∀ x ∈ top, m.toSyn (m.degree (c x • x)) = d ∨ c x • x = 0 := by
    intro x hx
    obtain ⟨e, b, hb, nb, hd, eq⟩ := shape x hx
    have ne : c x ≠ 0 := Finsupp.mem_support_iff.mp (Finset.mem_filter.mp hx).1
    rw [eq, degree_monomial_mul ne nb]
    exact Or.inl hd
  obtain ⟨k, hk⟩ := m.sPolynomial_decomposition' (fun x => c x • x) even drop
  rw [hk]
  refine Submodule.sum_mem _ fun x hx => Submodule.sum_mem _ fun y hy => Submodule.smul_mem _ _ ?_
  obtain ⟨e₁, b₁, hb₁, nb₁, d₁, eq₁⟩ := shape x hx
  obtain ⟨e₂, b₂, hb₂, nb₂, d₂, eq₂⟩ := shape y hy
  rw [eq₁, eq₂]
  exact h.multiples _ _ hb₁ hb₂ nb₁ nb₂ d₁ d₂

/-- **Buchberger's criterion**: every non-zero member of the ideal has a leading monomial that is
    divisible by that of a member of `B`. -/
theorem exists_degree_le_of_mem_span (h : SPolynomialsBelow m B) (hf : f ∈ Ideal.span B)
    (ne : f ≠ 0) : ∃ b ∈ B, b ≠ 0 ∧ m.degree b ≤ m.degree f := by
  obtain ⟨d, hd⟩ := exists_mem_combinations (m := m) hf
  -- by induction on the bound of the summands
  induction d using WellFoundedLT.induction with
  | ind d ih =>
    have le : m.toSyn (m.degree f) ≤ d := by
      obtain ⟨d', hd', le⟩ := exists_le_of_mem_support hd _ (degree_mem_support ne)
      exact le.trans hd'
    rcases le.eq_or_lt with eq | lt
    · rw [← eq] at hd
      exact exists_degree_le_of_coeff_ne_zero hd (coeff_degree_ne_zero_iff.mpr ne)
    · rcases eq_zero_or_exists_lt (mem_combinations_of_degree_lt h hd lt) with hz | ⟨d', lt', hd'⟩
      · exact absurd hz ne
      · exact ih d' lt' hd'

/-! ## 3. The product criterion -/

theorem lt_degree_of_mem_support_sub_leadingTerm {e : σ →₀ ℕ}
    (he : e ∈ (f - m.leadingTerm f).support) : m.toSyn e < m.toSyn (m.degree f) := by
  classical
  refine lt_of_le_of_ne ((MonomialOrder.le_degree he).trans (degree_sub_leadingTerm_le f)) ?_
  intro eq
  rw [m.toSyn.injective eq, mem_support_iff, coeff_sub, leadingTerm, coeff_monomial, if_pos rfl] at he
  exact he (sub_self _)

/-- **The product criterion**: members whose leading monomials share no variable have an
    S-polynomial that is a combination below the least common multiple. -/
theorem sPolynomial_mem_of_coprime (hf : f ∈ B) (hg : g ∈ B) (nf : f ≠ 0) (ng : g ≠ 0)
    (h : ∀ i, m.degree f i = 0 ∨ m.degree g i = 0) :
    m.sPolynomial f g ∈ combinations m B (Set.Iio (m.toSyn (m.degree f ⊔ m.degree g))) := by
  have subf : m.degree f - m.degree g = m.degree f := by
    ext i
    rw [Finsupp.tsub_apply]
    rcases h i with h | h <;> simp [h]
  have subg : m.degree g - m.degree f = m.degree g := by
    ext i
    rw [Finsupp.tsub_apply]
    rcases h i with h | h <;> simp [h]
  have sup : m.degree f ⊔ m.degree g = m.degree f + m.degree g := by
    ext i
    rw [Finsupp.sup_apply, Finsupp.add_apply]
    rcases h i with h | h <;> simp [h]
  have swap : m.sPolynomial f g = (f - m.leadingTerm f) * g - (g - m.leadingTerm g) * f := by
    rw [sPolynomial, subf, subg, leadingTerm, leadingTerm]
    ring
  rw [swap, sup, map_add]
  refine sub_mem (mul_mem_combinations hg ng fun e he => ?_)
    (mul_mem_combinations hf nf fun e he => ?_)
  · rw [map_add]
    exact add_lt_add_left (lt_degree_of_mem_support_sub_leadingTerm he) _
  · rw [map_add, add_comm (m.toSyn (m.degree f))]
    exact add_lt_add_left (lt_degree_of_mem_support_sub_leadingTerm he) _

end Eliminant
