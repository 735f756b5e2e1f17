import Mathlib.Algebra.MvPolynomial.Funext
import Mathlib.Algebra.MvPolynomial.Rename
import Mathlib.RingTheory.MvPolynomial.MonomialOrder
import Mathlib.Data.Finsupp.MonomialOrder

/-!
# Ideals with more variables

Polynomials in some variables are polynomials in more of them, which are put in between without a change
of the order (`i : Fin m ↪o Fin n`). The leading monomial stays the same (`degree_rename`), and so do
the leading monomials of an ideal: the others become numbers, which takes the members of the larger ideal
back to the smaller one (`setOthers`), so **every non-zero member of the larger ideal has a monomial that
is divisible by the leading monomial of one of the smaller** (`exists_degree_le_of_mem_map`).
-/

namespace Eliminant

open MvPolynomial
open MonomialOrder (lex)

variable {K : Type} [Field K] {m n : Nat} {i : Fin m ↪o Fin n} {a b : Fin m →₀ ℕ}
  {f : MvPolynomial (Fin m) K} {g : MvPolynomial (Fin n) K} {I : Ideal (MvPolynomial (Fin m) K)}

/-! ## 1. Leading monomials -/

/-- Monomials keep their order. -/
theorem toLex_mapDomain_lt {i : Fin m → Fin n} (mono : StrictMono i) (h : toLex a < toLex b) :
    toLex (a.mapDomain i) < toLex (b.mapDomain i) := by
  rw [Finsupp.Lex.lt_iff] at h ⊢
  obtain ⟨k, before, less⟩ := h
  have apply (c : Fin m →₀ ℕ) (k : Fin m) : c.mapDomain i (i k) = c k :=
    Finsupp.mapDomain_apply mono.injective c k
  refine ⟨i k, fun j hj => ?_, ?_⟩
  · by_cases hr : j ∈ Set.range i
    · obtain ⟨l, rfl⟩ := hr
      have := before l (mono.lt_iff_lt.mp hj)
      simpa only [ofLex_toLex, apply] using this
    · simp only [ofLex_toLex]
      rw [Finsupp.mapDomain_of_notMem_range _ _ hr, Finsupp.mapDomain_of_notMem_range _ _ hr]
  · simpa only [ofLex_toLex, apply] using less

/-- **The leading monomial stays the same.** -/
theorem degree_rename (i : Fin m ↪o Fin n) (f : MvPolynomial (Fin m) K) :
    lex.degree (rename i f) = (lex.degree f).mapDomain i := by
  classical
  by_cases zero : f = 0
  · rw [zero, map_zero, MonomialOrder.degree_zero, MonomialOrder.degree_zero, Finsupp.mapDomain_zero]
  · refine lex.toSyn.injective (le_antisymm (MonomialOrder.degree_le_iff.mpr fun d hd => ?_) ?_)
    · rw [support_rename_of_injective i.injective] at hd
      obtain ⟨c, hc, rfl⟩ := Finset.mem_image.mp hd
      rcases (MonomialOrder.le_degree (m := lex) hc).eq_or_lt with same | less
      · rw [lex.toSyn.injective same]
      · exact (toLex_mapDomain_lt i.strictMono less).le
    · refine MonomialOrder.le_degree (mem_support_iff.mpr ?_)
      rw [coeff_rename_mapDomain i i.injective]
      exact MonomialOrder.coeff_degree_ne_zero_iff.mpr zero

/-! ## 2. Other variables as numbers -/

open Classical in
/-- The variables that are not renamed to, as numbers. -/
noncomputable def setOthers (i : Fin m ↪o Fin n) (x : Fin n → K) :
    MvPolynomial (Fin n) K →ₐ[K] MvPolynomial (Fin m) K :=
  aeval fun j => if h : j ∈ Set.range i then X h.choose else C (x j)

variable {x : Fin n → K}

theorem setOthers_X (k : Fin m) : setOthers i x (X (i k)) = X k := by
  have here : i k ∈ Set.range i := ⟨k, rfl⟩
  rw [setOthers, aeval_X, dif_pos here, i.injective here.choose_spec]

theorem setOthers_X_of_notMem {j : Fin n} (hj : j ∉ Set.range i) : setOthers i x (X j) = C (x j) := by
  rw [setOthers, aeval_X, dif_neg hj]

@[simp] theorem setOthers_rename (f : MvPolynomial (Fin m) K) : setOthers i x (rename i f) = f := by
  have same : (setOthers i x).comp (rename i) = AlgHom.id K (MvPolynomial (Fin m) K) := by
    refine algHom_ext fun k => ?_
    rw [AlgHom.comp_apply, rename_X, setOthers_X]
    rfl
  exact AlgHom.congr_fun same f

theorem eval_setOthers (g : MvPolynomial (Fin n) K) :
    eval (x ∘ i) (setOthers i x g) = eval x g := by
  have same : ((aeval (x ∘ i)).comp (setOthers i x) : MvPolynomial (Fin n) K →ₐ[K] K) = aeval x := by
    refine algHom_ext fun j => ?_
    rw [AlgHom.comp_apply, aeval_X]
    by_cases hj : j ∈ Set.range i
    · obtain ⟨k, rfl⟩ := hj
      rw [setOthers_X, aeval_X]
      rfl
    · rw [setOthers_X_of_notMem hj, aeval_C]
      rfl
  exact AlgHom.congr_fun same g

/-- A monomial becomes the part of it that is renamed to. -/
theorem setOthers_monomial (d : Fin n →₀ ℕ) (c : K) :
    ∃ c', setOthers i x (monomial d c) = monomial (d.comapDomain i i.injective.injOn) c' := by
  induction d using Finsupp.induction_linear generalizing c with
  | zero =>
    refine ⟨c, ?_⟩
    rw [Finsupp.comapDomain_zero, ← C_apply, ← C_apply]
    exact (setOthers i x).commutes c
  | add d₁ d₂ h₁ h₂ =>
    obtain ⟨c₁, h₁⟩ := h₁ c
    obtain ⟨c₂, h₂⟩ := h₂ 1
    have split : monomial (d₁ + d₂) c = monomial d₁ c * monomial d₂ 1 := by
      rw [monomial_mul, mul_one]
    refine ⟨c₁ * c₂, ?_⟩
    rw [split, map_mul, h₁, h₂, monomial_mul, Finsupp.comapDomain_add_of_injective i.injective]
  | single j k =>
    rw [← C_mul_X_pow_eq_monomial, map_mul, map_pow]
    have const : setOthers i x (C c) = C c := (setOthers i x).commutes c
    rw [const]
    by_cases hj : j ∈ Set.range i
    · obtain ⟨l, rfl⟩ := hj
      refine ⟨c, ?_⟩
      rw [setOthers_X, C_mul_X_pow_eq_monomial, Finsupp.comapDomain_single]
    · refine ⟨c * x j ^ k, ?_⟩
      have none : (Finsupp.single j k).comapDomain i i.injective.injOn = 0 := by
        ext l
        rw [Finsupp.comapDomain_apply, Finsupp.single_eq_of_ne]
        · rfl
        · exact fun same => hj ⟨l, same⟩
      rw [setOthers_X_of_notMem hj, none, ← C_pow, ← C_mul, C_apply]

theorem exists_of_mem_support_setOthers (h : a ∈ (setOthers i x g).support) :
    ∃ d ∈ g.support, a.mapDomain i ≤ d := by
  classical
  rw [g.as_sum, map_sum] at h
  obtain ⟨d, hd, here⟩ := Finset.mem_biUnion.mp (support_sum h)
  obtain ⟨c, same⟩ := setOthers_monomial (i := i) (x := x) d (coeff d g)
  rw [same] at here
  have part := Finset.mem_singleton.mp (support_monomial_subset here)
  refine ⟨d, hd, fun j => ?_⟩
  by_cases hr : j ∈ Set.range i
  · obtain ⟨l, rfl⟩ := hr
    rw [Finsupp.mapDomain_apply i.injective, part, Finsupp.comapDomain_apply]
  · rw [Finsupp.mapDomain_of_notMem_range _ _ hr]
    exact Nat.zero_le _

/-! ## 3. Ideals -/

/-- What the members of the larger ideal become. -/
theorem setOthers_mem (h : g ∈ I.map (rename i)) : setOthers i x g ∈ I := by
  have le : I.map (rename i) ≤ I.comap (setOthers i x) :=
    Ideal.map_le_iff_le_comap.mpr fun f hf => by
      rw [Ideal.mem_comap, Ideal.mem_comap, setOthers_rename]
      exact hf
  exact le h

/-- **The larger ideal has no other members with the old variables only.** -/
theorem rename_mem_iff : rename i f ∈ I.map (rename i) ↔ f ∈ I := by
  constructor
  · intro h
    have := setOthers_mem (x := 0) h
    rwa [setOthers_rename] at this
  · exact Ideal.mem_map_of_mem (rename i)

/-- **Every non-zero member of the larger ideal has a monomial that is divisible by the leading monomial
    of one of the smaller.** -/
theorem exists_degree_le_of_mem_map [Infinite K] (h : g ∈ I.map (rename i)) (ne : g ≠ 0) :
    ∃ f ∈ I, f ≠ 0 ∧ ∃ d ∈ g.support, (lex.degree f).mapDomain i ≤ d := by
  obtain ⟨x, value⟩ : ∃ x, eval x g ≠ 0 := by
    by_contra none
    refine ne (MvPolynomial.funext fun x => ?_)
    rw [map_zero]
    exact not_not.mp fun value => none ⟨x, value⟩
  have some : setOthers i x g ≠ 0 := fun zero => value <| by
    rw [← eval_setOthers (i := i), zero, map_zero]
  exact ⟨_, setOthers_mem h, some,
    exists_of_mem_support_setOthers (MonomialOrder.degree_mem_support some)⟩

end Eliminant
