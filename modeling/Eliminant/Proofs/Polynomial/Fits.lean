import Eliminant.Proofs.Polynomial.Equality
import Eliminant.Proofs.Polynomial.Value

/-!
# Products and powers that fit

A product has an answer if no exponents of one variable exceed the largest one together (`Overflows`). Whoever
knows the largest exponents of both factors knows that they do not (`not_overflows`), and a power of a variable
fits as soon as its exponent does (**`Ordinary.pow_of_fits`**): repeated squaring takes no larger powers. So does
any power whose largest exponent, multiplied out beforehand, fits (**`Ordinary.pow_of_maxDegree`**).
-/

namespace Eliminant

namespace Polynomial

open MvPolynomial (C X)

variable {p q r : Polynomial} {v : Variable} {n B : ℕ} {vars : List Variable} {exps : Exponents}

/-! ## 1. The largest exponent -/

theorem maxDegree_le_iff : exps.maxDegree ≤ B ↔ ∀ e ∈ exps, e ≤ B :=
  (Terms.foldl_max_le_iff (f := id)).trans (and_iff_right (Nat.zero_le B))

/-- The largest exponent of a row. -/
theorem maxDegree_row_le_iff (nodup : vars.Nodup) (len : exps.length = vars.length) :
    exps.maxDegree ≤ B ↔ ∀ v, monomialOf vars exps v ≤ B := by
  rw [maxDegree_le_iff]
  constructor
  · intro h v
    by_cases mem : v ∈ vars
    · obtain ⟨i, rfl⟩ := List.get_of_mem mem
      have short : i.val < exps.length := by rw [len]; exact i.2
      rw [monomialOf_get nodup]
      simpa [short] using h _ (List.getElem_mem short)
    · rw [monomialOf_of_notMem mem]
      exact Nat.zero_le B
  · intro h e he
    obtain ⟨i, hi, rfl⟩ := List.getElem_of_mem he
    have bound := h (vars.get ⟨i, len ▸ hi⟩)
    rw [monomialOf_get nodup] at bound
    simpa [hi] using bound

/-- **The largest exponent of a polynomial** is that of its monomials. -/
theorem Sound.maxDegree_le_iff (h : p.Sound) :
    p.maxDegree ≤ B ↔ ∀ m ∈ p.toMv.support, ∀ v, m v ≤ B := by
  have consistent : p.terms.Descending p.vars.length := h.consistent
  have rows : p.maxDegree ≤ B ↔ ∀ t ∈ p.terms, t.exps.maxDegree ≤ B :=
    Terms.foldl_max_le_iff.trans (and_iff_right (Nat.zero_le B))
  simp only [rows, h.mem_support_iff, forall_exists_index, and_imp, forall_apply_eq_imp_iff₂]
  exact forall₂_congr fun t ht => maxDegree_row_le_iff h.nodup (consistent.length ht)

/-- Factors whose exponents are small enough in sum. -/
theorem not_overflows (hp : p.Sound) (hq : q.Sound) (fits : p.maxDegree + q.maxDegree ≤ maxExponent) :
    ¬ Overflows p q := by
  rw [overflows_iff hp hq]
  rintro ⟨d, hd, e, he, v, large⟩
  have left := hp.maxDegree_le_iff.mp le_rfl d hd v
  have right := hq.maxDegree_le_iff.mp le_rfl e he v
  omega

/-! ## 2. Products and powers -/

/-- A product that fits has an answer. -/
theorem Ordinary.mul_of_fits (hp : p.Ordinary) (hq : q.Ordinary) (fits : ¬ Overflows p q) :
    Answers (fun _ => False) (fun r => r.Ordinary ∧ r.toMv = p.toMv * q.toMv ∧
      r.vars = (Polynomial.align p q).1.vars) (p.mul q) :=
  ((hp.mul hq).and (mul_answers hp.sound hq.sound)).mono (fun _ he => fits he.2.2)
    fun _ hr => ⟨hr.1.1, hr.2.2.2, hr.1.2⟩

theorem ordinary_ofConstant (c : Coefficient) : (ofConstant c).Ordinary := by
  have empty : (⟨[], []⟩ : Polynomial).Ordinary :=
    ⟨⟨.nil, List.nodup_nil, by simp⟩, List.Pairwise.nil, by simp⟩
  exact empty.constant c

theorem toMv_constant (hp : p.Sound) (c : Coefficient) : (constant p.vars c).toMv = C c.toRat := by
  rw [← (hp.reads.constant c).rename_eq, MvPolynomial.rename_C]

theorem toMv_ofConstant (c : Coefficient) : (ofConstant c).toMv = C c.toRat :=
  toMv_constant (p := ofConstant .zero) (ordinary_ofConstant _).sound c

theorem maxDegree_constant (hp : p.Ordinary) (c : Coefficient) : (constant p.vars c).maxDegree = 0 := by
  refine Nat.le_zero.mp ((hp.constant c).sound.maxDegree_le_iff.mpr fun m hm v => ?_)
  rw [toMv_constant hp.sound] at hm
  rw [Finset.mem_singleton.mp (MvPolynomial.support_monomial_subset hm)]
  exact Nat.le_refl 0

theorem maxDegree_ofConstant (c : Coefficient) : (ofConstant c).maxDegree = 0 :=
  maxDegree_constant (p := ofConstant .zero) (ordinary_ofConstant _) c

theorem support_X_pow (v : Variable) (n : ℕ) :
    (X v ^ n : MvPolynomial Variable ℚ).support = {Finsupp.single v n} := by
  rw [MvPolynomial.X_pow_eq_monomial, MvPolynomial.support_monomial, if_neg one_ne_zero]

/-- **A power of a variable that fits** has an answer. -/
theorem Ordinary.pow_of_fits (hp : p.Ordinary) (value : p.toMv = X v) (fits : n ≤ maxExponent) :
    Answers (fun _ => False) (fun r => r.Ordinary ∧ r.toMv = X v ^ n ∧ r.vars = p.vars) (p.pow n) := by
  refine pow_answers (P := fun n r => r.Ordinary ∧ r.toMv = X v ^ n ∧ r.vars = p.vars) ?_ ?_ ?_
    ⟨hp, by rw [value, pow_one], rfl⟩
  · rintro i j q r bound ⟨hq, left, varsq⟩ ⟨hr, right, varsr⟩
    have small : ¬ Overflows q r := by
      rw [overflows_iff hq.sound hr.sound, left, right, support_X_pow, support_X_pow]
      rintro ⟨d, hd, e, he, u, large⟩
      rw [Finset.mem_singleton.mp hd, Finset.mem_singleton.mp he, ← Finsupp.add_apply,
        ← Finsupp.single_add, Finsupp.single_apply] at large
      split at large <;> omega
    refine (hq.mul_of_fits hr small).imp fun m hm => ⟨hm.1, ?_, ?_⟩
    · rw [hm.2.1, left, right, pow_add]
    · rw [hm.2.2, align_of_vars_eq (varsq.trans varsr.symm), varsq]
  · refine ⟨hp.constant _, (toMv_constant hp.sound .one).trans ?_, rfl⟩
    rw [Coefficient.toRat_one, map_one, pow_zero]
  · intro constant
    have same := toMv_of_isConstant hp.sound constant
    rw [value] at same
    exact absurd (congrArg MvPolynomial.totalDegree same) (by simp)

/-- The largest exponents of factors add up. -/
theorem maxDegree_le_add (hp : p.Ordinary) (hq : q.Ordinary) (hr : r.Ordinary)
    (product : r.toMv = p.toMv * q.toMv) : r.maxDegree ≤ p.maxDegree + q.maxDegree := by
  classical
  refine hr.sound.maxDegree_le_iff.mpr fun m hm v => ?_
  rw [product] at hm
  obtain ⟨d, hd, e, he, rfl⟩ := Finset.mem_add.mp (MvPolynomial.support_mul _ _ hm)
  have left := hp.sound.maxDegree_le_iff.mp le_rfl d hd v
  have right := hq.sound.maxDegree_le_iff.mp le_rfl e he v
  rw [Finsupp.add_apply]
  omega

/-- **A power whose largest exponent fits** has an answer: what repeated squaring multiplies is a power to a
    smaller exponent each time. -/
theorem Ordinary.pow_of_maxDegree (hp : p.Ordinary) (fits : p.maxDegree * n ≤ maxExponent) :
    Answers (fun _ => False) Ordinary (p.pow n) := by
  have powers : Answers (fun _ => False) (fun r => r.Ordinary ∧ r.maxDegree ≤ p.maxDegree * n) (p.pow n) := by
    refine pow_answers (P := fun i r => r.Ordinary ∧ r.maxDegree ≤ p.maxDegree * i) ?_ ?_ ?_
      ⟨hp, by rw [Nat.mul_one]⟩
    · rintro i j q r bound ⟨hq, left⟩ ⟨hr, right⟩
      have total : q.maxDegree + r.maxDegree ≤ p.maxDegree * (i + j) := by
        rw [Nat.mul_add]
        omega
      have small := total.trans ((Nat.mul_le_mul_left _ bound).trans fits)
      refine (hq.mul_of_fits hr (not_overflows hq.sound hr.sound small)).imp fun m hm => ⟨hm.1, ?_⟩
      exact (maxDegree_le_add hq hr hm.1 hm.2.1).trans total
    · exact ⟨hp.constant _, (maxDegree_constant hp _).trans_le (Nat.zero_le _)⟩
    · exact fun _ => ⟨hp.constant _, (maxDegree_constant hp _).trans_le (Nat.zero_le _)⟩
  exact powers.imp fun r hr => hr.1

/-- A variable of a monomial is listed. -/
theorem Sound.mem_vars (h : p.Sound) {m : Variable →₀ ℕ} (hm : m ∈ p.toMv.support) (some : m v ≠ 0) :
    v ∈ p.vars := by
  obtain ⟨t, -, rfl⟩ := h.mem_support_iff.mp hm
  by_contra missing
  exact some (monomialOf_of_notMem missing _)

end Polynomial

end Eliminant
