import Eliminant.Proofs.Ideal.Combination

/-!
# Groebner bases and reduced Groebner bases

A set `B` **covers** an ideal when every non-zero member of the ideal has a leading monomial that is
divisible by the leading monomial of a non-zero member of `B` (`Covers`). A list of polynomials is
the reduced Groebner basis of an ideal when it generates it, covers it, is monic, is reduced -- no
monomial of an element is divisible by the leading monomial of another -- and is listed from the
greatest leading monomial (`IsReducedBasis`).

`Covers.replace` is what auto-reduction rests on: a member may be replaced by its remainder on
division by the others.
-/

namespace Eliminant

open MvPolynomial MonomialOrder

variable {σ K : Type} [Field K] {m : MonomialOrder σ} {A B : Set (MvPolynomial σ K)}
  {I : Ideal (MvPolynomial σ K)} {p r : MvPolynomial σ K}

/-- Every non-zero member of `I` has a leading monomial that is divisible by that of a non-zero
    member of `B`. -/
def Covers (m : MonomialOrder σ) (I : Ideal (MvPolynomial σ K)) (B : Set (MvPolynomial σ K)) :
    Prop :=
  ∀ f ∈ I, f ≠ 0 → ∃ b ∈ B, b ≠ 0 ∧ m.degree b ≤ m.degree f

/-- **The reduced Groebner basis of an ideal**, listed from the greatest leading monomial. -/
structure IsReducedBasis (m : MonomialOrder σ) (I : Ideal (MvPolynomial σ K))
    (basis : List (MvPolynomial σ K)) : Prop where
  /-- it generates the ideal -/
  span_eq : Ideal.span {b | b ∈ basis} = I
  /-- the leading monomial of every non-zero member of the ideal is divisible by one of its -/
  covers : Covers m I {b | b ∈ basis}
  /-- every element has the leading coefficient `1` -/
  monic : ∀ b ∈ basis, m.Monic b
  /-- no monomial of an element is divisible by the leading monomial of another -/
  reduced : ∀ b ∈ basis, ∀ c ∈ basis, c ≠ b → ∀ e ∈ b.support, ¬ m.degree c ≤ e
  /-- the leading monomials descend -/
  descending : basis.Pairwise fun b c => m.toSyn (m.degree c) < m.toSyn (m.degree b)

theorem covers_span (h : SPolynomialsBelow m B) : Covers m (Ideal.span B) B :=
  fun _ hf ne => exists_degree_le_of_mem_span h hf ne

/-- **The remainder of a division has the leading monomial of the dividend, unless that of a divisor
    divides it.** -/
theorem degree_eq_or_exists_degree_le (ne : p ≠ 0)
    (h : p - r ∈ combinations m A (Set.Iic (m.toSyn (m.degree p)))) :
    (r ≠ 0 ∧ m.degree r = m.degree p) ∨ ∃ b ∈ A, b ≠ 0 ∧ m.degree b ≤ m.degree p := by
  by_cases hc : coeff (m.degree p) (p - r) = 0
  · have lead : coeff (m.degree p) r = m.leadingCoeff p := by
      rw [coeff_sub, sub_eq_zero] at hc
      exact hc.symm
    have mem : m.degree p ∈ r.support := by
      rw [mem_support_iff, lead]
      exact leadingCoeff_ne_zero_iff.mpr ne
    refine Or.inl ⟨?_, m.toSyn.injective
      (le_antisymm (degree_le_of_sub_mem h) (MonomialOrder.le_degree mem))⟩
    rintro rfl
    simp at mem
  · exact Or.inr (exists_degree_le_of_coeff_ne_zero h hc)

/-- **A member may be replaced by its remainder on division by the others.** -/
theorem Covers.replace (h : Covers m I (insert p A))
    (rep : p - r ∈ combinations m A (Set.Iic (m.toSyn (m.degree p)))) :
    Covers m I (insert r A) := by
  intro f hf nf
  obtain ⟨b, hb, nb, le⟩ := h f hf nf
  rcases Set.mem_insert_iff.mp hb with rfl | hb
  · rcases degree_eq_or_exists_degree_le nb rep with ⟨nr, eq⟩ | ⟨c, hc, nc, le'⟩
    · exact ⟨r, Set.mem_insert r A, nr, eq ▸ le⟩
    · exact ⟨c, Set.mem_insert_of_mem r hc, nc, le'.trans le⟩
  · exact ⟨b, Set.mem_insert_of_mem r hb, nb, le⟩

/-- **The reduced Groebner basis of the unit ideal is `1`.** -/
theorem IsReducedBasis.eq_one {basis : List (MvPolynomial σ K)} (h : IsReducedBasis m ⊤ basis) :
    basis = [1] := by
  have one : (1 : MvPolynomial σ K) ∈ basis := by
    obtain ⟨b, hb, -, le⟩ := h.covers 1 trivial one_ne_zero
    rw [degree_one] at le
    have deg : m.degree b = 0 := le_antisymm le zero_le
    have := eq_C_of_degree_eq_zero deg
    rw [h.monic b hb, C_1] at this
    exact this ▸ hb
  have all : ∀ c ∈ basis, c = 1 := by
    intro c hc
    by_contra ne
    have nz : c ≠ 0 := (h.monic c hc).ne_zero
    refine h.reduced c hc 1 one (Ne.symm ne) _ (degree_mem_support (m := m) nz) ?_
    rw [degree_one]
    exact zero_le
  match basis, one, all, h.descending with
  | [b], _, all, _ => rw [all b List.mem_cons_self]
  | b :: c :: rest, _, all, descending =>
    have lt := (List.pairwise_cons.mp descending).1 c List.mem_cons_self
    rw [all b List.mem_cons_self, all c (by simp)] at lt
    exact absurd lt (lt_irrefl _)

/-! ### There is only one -/

section Unique

variable {basis basis' : List (MvPolynomial σ K)} {b b' : MvPolynomial σ K}

theorem IsReducedBasis.mem_ideal (h : IsReducedBasis m I basis) (hb : b ∈ basis) : b ∈ I :=
  h.span_eq ▸ Ideal.subset_span hb

/-- An element whose leading monomial divides a monomial of another is that one. -/
theorem IsReducedBasis.eq_of_degree_le (h : IsReducedBasis m I basis) (hb : b ∈ basis)
    {c : MvPolynomial σ K} (hc : c ∈ basis) {e : σ →₀ ℕ} (he : e ∈ b.support)
    (le : m.degree c ≤ e) : c = b := by
  by_contra ne
  exact h.reduced b hb c hc ne e he le

/-- Two reduced Groebner bases have the same leading monomials. -/
theorem IsReducedBasis.exists_degree_eq (h : IsReducedBasis m I basis)
    (h' : IsReducedBasis m I basis') (hb : b ∈ basis) : ∃ b' ∈ basis', m.degree b' = m.degree b := by
  have nb : b ≠ 0 := (h.monic b hb).ne_zero
  obtain ⟨b', hb', nb', le⟩ := h'.covers b (h.mem_ideal hb) nb
  obtain ⟨c, hc, -, le'⟩ := h.covers b' (h'.mem_ideal hb') nb'
  have same : c = b := h.eq_of_degree_le hb hc (degree_mem_support (m := m) nb) (le'.trans le)
  exact ⟨b', hb', le_antisymm le (same ▸ le')⟩

/-- **Elements with one leading monomial are equal**: the leading monomial of their difference would be
    a monomial of one of the two, and lower than their own. -/
theorem IsReducedBasis.eq_of_degree_eq (h : IsReducedBasis m I basis)
    (h' : IsReducedBasis m I basis') (hb : b ∈ basis) (hb' : b' ∈ basis')
    (same : m.degree b' = m.degree b) : b' = b := by
  classical
  by_contra ne
  have nf : b - b' ≠ 0 := sub_ne_zero.mpr (Ne.symm ne)
  have lead := degree_mem_support (m := m) nf
  have cancel : m.degree (b - b') ≠ m.degree b := by
    intro eq
    have one : coeff (m.degree b) b = 1 := h.monic b hb
    have one' : coeff (m.degree b) b' = 1 := same ▸ h'.monic b' hb'
    rw [mem_support_iff, eq, coeff_sub, one, one', sub_self] at lead
    exact lead rfl
  have low : m.toSyn (m.degree (b - b')) ≤ m.toSyn (m.degree b) := by
    refine (degree_sub_le (m := m)).trans (sup_le le_rfl ?_)
    rw [same]
  obtain ⟨c, hc, -, le⟩ := h.covers _ (sub_mem (h.mem_ideal hb) (h'.mem_ideal hb')) nf
  have above : ¬ m.degree b ≤ m.degree (b - b') := fun le =>
    cancel (m.toSyn.injective (le_antisymm low (m.toSyn_monotone le)))
  rcases Finset.mem_union.mp (support_sub σ b b' lead) with he | he
  · exact above (h.eq_of_degree_le hb hc he le ▸ le)
  · obtain ⟨c', hc', eq⟩ := h.exists_degree_eq h' hc
    have other : c' = b' := h'.eq_of_degree_le hb' hc' he (eq.trans_le le)
    refine above (le_trans (le_of_eq ?_) le)
    rw [← same, ← other, eq]

/-- **There is only one reduced Groebner basis of an ideal.** -/
theorem IsReducedBasis.unique (h : IsReducedBasis m I basis) (h' : IsReducedBasis m I basis') :
    basis = basis' := by
  have sub {l l' : List (MvPolynomial σ K)} (h : IsReducedBasis m I l)
      (h' : IsReducedBasis m I l') (b : MvPolynomial σ K) (hb : b ∈ l) : b ∈ l' := by
    obtain ⟨b', hb', same⟩ := h.exists_degree_eq h' hb
    rwa [h.eq_of_degree_eq h' hb hb' same] at hb'
  have nodup {l : List (MvPolynomial σ K)} (h : IsReducedBasis m I l) : l.Nodup :=
    h.descending.imp fun lt same => lt.ne (congrArg _ (congrArg _ same.symm))
  have perm : basis.Perm basis' :=
    (List.perm_ext_iff_of_nodup (nodup h) (nodup h')).mpr fun b => ⟨sub h h' b, sub h' h b⟩
  exact perm.eq_of_pairwise (fun _ _ _ _ lt gt => absurd lt gt.asymm) h.descending h'.descending

end Unique

/-- Replacing a member by its remainder keeps the ideal. -/
theorem span_insert_of_sub_mem (h : p - r ∈ Ideal.span A) :
    Ideal.span (insert p A) = Ideal.span (insert r A) := by
  refine le_antisymm (Ideal.span_le.mpr ?_) (Ideal.span_le.mpr ?_)
  · intro f hf
    rcases Set.mem_insert_iff.mp hf with rfl | hf
    · have hr : r ∈ Ideal.span (insert r A) := Ideal.subset_span (Set.mem_insert r A)
      have := add_mem (Ideal.span_mono (Set.subset_insert r A) h) hr
      rwa [sub_add_cancel] at this
    · exact Ideal.subset_span (Set.mem_insert_of_mem r hf)
  · intro f hf
    rcases Set.mem_insert_iff.mp hf with rfl | hf
    · have hp : p ∈ Ideal.span (insert p A) := Ideal.subset_span (Set.mem_insert p A)
      have := sub_mem hp (Ideal.span_mono (Set.subset_insert p A) h)
      rwa [sub_sub_cancel] at this
    · exact Ideal.subset_span (Set.mem_insert_of_mem p hf)

end Eliminant
