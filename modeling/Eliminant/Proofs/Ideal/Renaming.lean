import Eliminant.Proofs.Ideal.Divisor
import Mathlib.Algebra.Polynomial.AlgebraMap
import Mathlib.Algebra.Polynomial.Degree.Domain

/-!
# Divisors under renaming

A polynomial over some variables has the same divisors over more of them. Every other variable is
multiplied by one more variable (`tagged`): in that variable a renamed polynomial has the degree `0`,
so its divisors have too, and so they lack the others (**`rename_killCompl_of_dvd`**). So renaming
neither makes nor loses common factors (`isRelPrime_rename_iff`).
-/

namespace Eliminant

open MvPolynomial

variable {σ τ K : Type} [Field K] {i : σ → τ} {f g : MvPolynomial σ K} {c : MvPolynomial τ K}

open Classical in
/-- Every variable that is not renamed to, times one more variable. -/
noncomputable def tagged (i : σ → τ) : MvPolynomial τ K →ₐ[K] Polynomial (MvPolynomial τ K) :=
  aeval fun v =>
    if v ∈ Set.range i then Polynomial.C (X v) else Polynomial.X * Polynomial.C (X v)

theorem tagged_rename (f : MvPolynomial σ K) :
    tagged i (rename i f) = Polynomial.C (rename i f) := by
  have same : (tagged i).comp (rename i) = Polynomial.CAlgHom.comp (rename (R := K) i) := by
    refine algHom_ext fun v => ?_
    simp [tagged]
  exact AlgHom.congr_fun same f

theorem eval_one_tagged (c : MvPolynomial τ K) : Polynomial.eval 1 (tagged i c) = c := by
  have same : ((Polynomial.aeval (1 : MvPolynomial τ K)).restrictScalars K).comp (tagged i) =
      AlgHom.id K (MvPolynomial τ K) := by
    refine algHom_ext fun v => ?_
    by_cases h : v ∈ Set.range i <;> simp [tagged, h]
  exact AlgHom.congr_fun same c

theorem eval_zero_tagged (hi : Function.Injective i) (c : MvPolynomial τ K) :
    Polynomial.eval 0 (tagged i c) = rename i (killCompl hi c) := by
  have same : ((Polynomial.aeval (0 : MvPolynomial τ K)).restrictScalars K).comp (tagged i) =
      (rename i).comp (killCompl hi) := by
    refine algHom_ext fun v => ?_
    by_cases h : v ∈ Set.range i
    · obtain ⟨w, rfl⟩ := h
      have back : killCompl hi (X (i w)) = (X w : MvPolynomial σ K) := by
        rw [← rename_X, killCompl_rename_app]
      simp [tagged, back]
    · simp [tagged, h, killCompl]
  exact AlgHom.congr_fun same c

/-- **A divisor of a renamed polynomial has no other variables.** -/
theorem rename_killCompl_of_dvd (hi : Function.Injective i) (hf : f ≠ 0) (h : c ∣ rename i f) :
    rename i (killCompl hi c) = c := by
  obtain ⟨k, hk⟩ := h
  have product : tagged i c * tagged i k = Polynomial.C (rename i f) := by
    rw [← map_mul, ← hk, tagged_rename]
  have ne : tagged i c * tagged i k ≠ 0 := by
    rw [product]
    exact Polynomial.C_ne_zero.mpr ((rename_eq_zero_iff_of_injective f hi).not.mpr hf)
  have deg := congrArg Polynomial.natDegree product
  rw [Polynomial.natDegree_mul (left_ne_zero_of_mul ne) (right_ne_zero_of_mul ne),
    Polynomial.natDegree_C] at deg
  obtain ⟨c₀, const⟩ : ∃ c₀, tagged i c = Polynomial.C c₀ :=
    ⟨_, Polynomial.eq_C_of_natDegree_eq_zero (Nat.eq_zero_of_add_eq_zero_right deg)⟩
  have one : Polynomial.eval 1 (tagged i c) = c := eval_one_tagged c
  have zero := eval_zero_tagged hi c
  rw [const, Polynomial.eval_C] at one zero
  rw [← zero, one]

theorem isRelPrime_rename_iff (hi : Function.Injective i) (hg : g ≠ 0) :
    IsRelPrime (rename i f) (rename i g) ↔ IsRelPrime f g := by
  constructor
  · intro h c hf hg
    have := (h (map_dvd (rename i) hf) (map_dvd (rename i) hg)).map (killCompl hi)
    rwa [killCompl_rename_app] at this
  · intro h c hcf hcg
    have back := rename_killCompl_of_dvd hi hg hcg
    have unit : IsUnit (killCompl hi c) := by
      have left := map_dvd (killCompl hi) hcf
      have right := map_dvd (killCompl hi) hcg
      rw [killCompl_rename_app] at left right
      exact h left right
    rw [← back]
    exact unit.map (rename i)

theorem associated_of_rename (hi : Function.Injective i) (h : Associated (rename i f) (rename i g)) :
    Associated f g := by
  have := h.map (killCompl hi)
  rwa [killCompl_rename_app, killCompl_rename_app] at this

end Eliminant
