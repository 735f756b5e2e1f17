import Eliminant.Proofs.Polynomial.Alignment
import Eliminant.Polynomial.Arithmetic
import Eliminant.Proofs.Terms.Product

/-!
# Polynomials over a list of variables, and their arithmetic

A polynomial is read over a list that has its variables (`Polynomial.reading`). `Reads vars p f` says
that `p` is a sound polynomial over exactly `vars`, read as `f`; every operation is the operation of
that name on what its operands are read as:

* `mul_answers`: a product fails only where an exponent does not fit;
* `Reads.scale`, `Reads.monic`, `Reads.divCoeff`: multiples by a constant;
* `pow_answers`: what holds of products, counted by their factors, holds of powers;
* `Aligned.reads_left`, `Aligned.reads_right`: what aligned operands are read as.
-/

namespace Eliminant

open MvPolynomial (X C C_0 C_1)
open MonomialOrder (lex)

namespace Polynomial

variable {vars : List Variable} {p q : Polynomial} {f g : MvPolynomial (Fin vars.length) ℚ}

/-! ## 1. Polynomials over a list of variables -/

/-- The place of a variable in a list, as a polynomial; `0` if it is missing. -/
noncomputable def place (vars : List Variable) (v : Variable) : MvPolynomial (Fin vars.length) ℚ :=
  if h : v ∈ vars then X ⟨vars.idxOf v, List.idxOf_lt_length_iff.mpr h⟩ else 0

/-- A polynomial, as a polynomial in the variables of a list that has its own. -/
noncomputable def reading (vars : List Variable) (p : Polynomial) : MvPolynomial (Fin vars.length) ℚ :=
  MvPolynomial.aeval (place vars) p.toMv

theorem place_get (nodup : vars.Nodup) (i : Fin vars.length) : place vars (vars.get i) = X i := by
  unfold place
  rw [dif_pos (List.get_mem vars i)]
  congr 1
  exact Fin.ext (by simpa using nodup.idxOf_getElem i i.2)

/-- A polynomial over its own variables is the sum of its terms. -/
theorem reading_vars (nodup : p.vars.Nodup) :
    p.reading p.vars = Terms.toMv p.vars.length p.terms := by
  unfold reading toMv
  rw [MvPolynomial.aeval_rename, show place p.vars ∘ p.vars.get = X from funext (place_get nodup),
    MvPolynomial.aeval_X_left_apply]

/-- **Reading a polynomial over a list that has its variables loses nothing.** -/
theorem rename_reading (sub : p.vars ⊆ vars) : MvPolynomial.rename vars.get (p.reading vars) = p.toMv := by
  have back (i : Fin p.vars.length) :
      MvPolynomial.rename vars.get (place vars (p.vars.get i)) = X (p.vars.get i) := by
    unfold place
    rw [dif_pos (sub (List.get_mem p.vars i)), MvPolynomial.rename_X]
    congr 1
    exact List.getElem_idxOf _
  unfold reading toMv
  rw [MvPolynomial.aeval_rename, MvPolynomial.comp_aeval_apply]
  refine (congrArg (fun g => MvPolynomial.aeval g _) (funext back)).trans ?_
  exact (MvPolynomial.aeval_rename _ X _).symm.trans (MvPolynomial.aeval_X_left_apply _)

theorem Over.reading_eq (h : Over vars p q) : p.reading vars = Terms.toMv vars.length q.terms := by
  obtain ⟨sound, rfl, same⟩ := h
  rw [← reading_vars sound.nodup, reading, reading, same]

theorem Over.descending (h : Over vars p q) : q.terms.Descending vars.length := by
  obtain ⟨sound, rfl, -⟩ := h
  exact sound.consistent

theorem descending_of_forall₂ {ps qs : List Polynomial} (h : List.Forall₂ (Over vars) ps qs) :
    ∀ ts ∈ qs.map (·.terms), ts.Descending vars.length := by
  refine List.forall_mem_map.mpr fun q hq => ?_
  obtain ⟨p, -, moved⟩ := exists_of_mem_forall₂ h hq
  exact moved.descending

/-! ## 2. What a polynomial is read as -/

/-- `p` is a sound polynomial over `vars` that is read as `f`. -/
structure Reads (vars : List Variable) (p : Polynomial) (f : MvPolynomial (Fin vars.length) ℚ) :
    Prop where
  sound : p.Sound
  vars_eq : p.vars = vars
  reading_eq : p.reading vars = f

theorem Sound.reads (h : p.Sound) : Reads p.vars p (p.reading p.vars) := ⟨h, rfl, rfl⟩

namespace Reads

theorem descending (h : Reads vars p f) : p.terms.Descending vars.length := by
  obtain ⟨sound, rfl, -⟩ := h
  exact sound.consistent

theorem toMv_terms (h : Reads vars p f) : Terms.toMv vars.length p.terms = f := by
  obtain ⟨sound, rfl, rfl⟩ := h
  exact (reading_vars sound.nodup).symm

theorem rename_eq (h : Reads vars p f) :
    MvPolynomial.rename vars.get f = p.toMv := by
  obtain ⟨sound, rfl, rfl⟩ := h
  exact rename_reading (List.Subset.refl _)

theorem isZero_iff (h : Reads vars p f) : p.isZero = true ↔ f = 0 := by
  rw [← h.toMv_terms]
  exact h.descending.isEmpty_iff

theorem isConstant_iff (h : Reads vars p f) : p.isConstant = true ↔ lex.degree f = 0 := by
  rw [← h.toMv_terms]
  exact h.descending.isConstant_iff

theorem leadCoeff_eq (h : Reads vars p f) : p.leadCoeff.toRat = lex.leadingCoeff f := by
  rw [← h.toMv_terms]
  exact h.descending.leadingCoeff_toMv.symm

/-- A polynomial over the same list with other terms. -/
theorem with_terms (h : Reads vars p f) (same : q.vars = vars)
    (desc : q.terms.Descending vars.length) (hg : Terms.toMv vars.length q.terms = g) :
    Reads vars q g := by
  subst same
  have vars_eq := h.vars_eq
  have sound : q.Sound := ⟨desc, vars_eq ▸ h.sound.nodup, vars_eq ▸ h.sound.proper⟩
  exact ⟨sound, rfl, (reading_vars sound.nodup).trans hg⟩

theorem zero (h : Reads vars p f) : Reads vars (zero vars) 0 := h.with_terms rfl .nil rfl

theorem constant (h : Reads vars p f) (c : Coefficient) :
    Reads vars (constant vars c) (C c.toRat) := by
  cases hc : c.isZero with
  | true =>
    have terms : (Polynomial.constant vars c).terms = [] := if_pos hc
    refine h.with_terms rfl (terms ▸ .nil) ?_
    rw [terms, (Coefficient.isZero_iff_toRat c).mp hc, C_0, Terms.toMv_nil]
  | false =>
    have terms : (Polynomial.constant vars c).terms = [⟨c, .zeros vars.length⟩] :=
      if_neg (Bool.eq_false_iff.mp hc)
    refine h.with_terms rfl ?_ ?_
    · rw [terms]
      exact Terms.Descending.cons_iff.mpr ⟨Exponents.length_zeros, hc, by simp, .nil⟩
    · rw [terms, Terms.toMv_singleton, Exponents.toFinsupp_zeros]
      rfl

theorem one (h : Reads vars p f) : Reads vars (one vars) 1 := by
  have := h.constant .one
  rwa [Coefficient.toRat_one, C_1] at this

theorem scale (h : Reads vars p f) (c : Coefficient) : Reads vars (p.scale c) (C c.toRat * f) := by
  refine h.with_terms h.vars_eq (h.descending.scale c) ?_
  rw [← h.toMv_terms]
  exact Terms.toMv_scale c p.terms

theorem monic (h : Reads vars p f) : Reads vars p.monic (C (lex.leadingCoeff f)⁻¹ * f) := by
  refine h.with_terms h.vars_eq h.descending.monic ?_
  rw [← h.leadCoeff_eq, ← h.toMv_terms]
  exact Terms.toMv_monic h.descending

/-- Dividing by a coefficient that is not zero. -/
theorem divCoeff (h : Reads vars p f) {c : Coefficient} (hc : c.isZero = false) :
    ∃ q, p.divCoeff c = .ok q ∧ Reads vars q (C c.toRat⁻¹ * f) := by
  obtain ⟨i, hi, inv⟩ := Coefficient.exists_inv hc
  refine ⟨p.scale i, ?_, inv ▸ h.scale i⟩
  unfold Polynomial.divCoeff
  rw [hi]
  rfl

end Reads

theorem Aligned.reads_left {r : Polynomial × Polynomial} (h : Aligned p q r) :
    Reads r.1.vars r.1 (p.reading r.1.vars) :=
  ⟨h.left, rfl, by rw [reading, reading, h.toMv_left]⟩

theorem Aligned.reads_right {r : Polynomial × Polynomial} (h : Aligned p q r) :
    Reads r.1.vars r.2 (q.reading r.1.vars) :=
  ⟨h.right, h.vars_eq, by rw [reading, reading, h.toMv_right]⟩

theorem toMv_neg (p : Polynomial) : (-p).toMv = -p.toMv := by
  show MvPolynomial.rename p.vars.get (Terms.toMv _ (Terms.neg p.terms)) = _
  rw [Terms.toMv_neg, map_neg]
  rfl

theorem toMv_scale (c : Coefficient) (p : Polynomial) : (p.scale c).toMv = C c.toRat * p.toMv := by
  show MvPolynomial.rename p.vars.get (Terms.toMv _ (Terms.scale c p.terms)) = _
  rw [Terms.toMv_scale, map_mul, MvPolynomial.rename_C]
  rfl

/-! ## 3. Products -/

/-- **A single term is treated apart, but not differently**, over whatever columns. -/
theorem mul_eq_of_descending {n : Nat} (left : (align p q).1.terms.Descending n)
    (right : (align p q).2.terms.Descending n) : p.mul q = p.mulSparse id q := by
  unfold Polynomial.mul mulSparse
  generalize align p q = aligned at left right ⊢
  obtain ⟨⟨us, ts⟩, ⟨vs, ss⟩⟩ := aligned
  dsimp only at left right ⊢
  rw [Terms.mulVisiting_id]
  split
  · rfl
  · rw [Terms.mul_nil_right left]
    rfl
  · rw [Terms.mul_singleton_left left right]
  · rw [Terms.mul_singleton_right left right]
  · rfl

/-- Over one list of variables the terms alone are multiplied. -/
theorem mul_of_vars_eq {n : Nat} (same : p.vars = q.vars) (left : p.terms.Descending n)
    (right : q.terms.Descending n) : p.mul q = do return ⟨p.vars, ← p.terms.mul q.terms⟩ := by
  have aligned : align p q = (p, q) := align_of_vars_eq same
  rw [mul_eq_of_descending (n := n) (by rwa [aligned]) (by rwa [aligned]), mulSparse, aligned]
  rfl

/-- **The product of polynomials over one list.** -/
theorem Reads.mul_answers (hp : Reads vars p f) (hq : Reads vars q g) :
    Answers Failure.IsOverflow (fun r => Reads vars r (f * g)) (p.mul q) := by
  have dp := hp.descending
  have dq := hq.descending
  rw [mul_of_vars_eq (hp.vars_eq.trans hq.vars_eq.symm) dp dq]
  have product := (Terms.isProduct_mul dp dq).mono (fun e he => he.1) fun ts h => h.2
  refine product.bind fun ts h => ?_
  exact hp.with_terms hp.vars_eq h.1 (by rw [← hp.toMv_terms, ← hq.toMv_terms]; exact h.2)

/-- A product is one of the aligned factors. -/
theorem mul_align (hp : p.Sound) (hq : q.Sound) :
    p.mul q = (align p q).1.mul (align p q).2 := by
  unfold Polynomial.mul
  rw [(align_spec hp hq).align_eq]

/-! ## 4. Powers -/

section Powers

variable {F : Failure → Prop} {P : Nat → Polynomial → Prop} {i j n bound : Nat}
  {square rest : Polynomial}

/-- Repeated squaring multiplies as often as the exponent says, and nothing that takes more factors. -/
theorem powTimes_answers
    (mul : ∀ {i j : Nat} {p q : Polynomial}, i + j ≤ bound → P i p → P j q →
      Answers F (P (i + j)) (p.mul q))
    (hn : 0 < n) (fits : i * n + j ≤ bound) (hs : P i square) (hr : P j rest) :
    Answers F (P (i * n + j)) (powTimes square rest n) := by
  induction n using Nat.strongRecOn generalizing i j square rest with
  | _ n ih =>
    unfold powTimes
    split
    · rename_i small
      have one : n = 1 := by omega
      rw [one, Nat.mul_one] at fits ⊢
      exact mul fits hs hr
    · rename_i large
      have half : n / 2 < n := Nat.div_lt_self (by omega) (by omega)
      have twice : i * 2 ≤ i * n := Nat.mul_le_mul_left i (by omega)
      have next {j : Nat} {rest : Polynomial} (fits : (i + i) * (n / 2) + j ≤ bound) (hr : P j rest) :
          Answers F (P ((i + i) * (n / 2) + j)) (do powTimes (← square.mul square) rest (n / 2)) :=
        (mul (by omega) hs hs).bind fun _ hs' => ih _ half (by omega) fits hs' hr
      have halves := Nat.div_add_mod n 2
      dsimp only
      split
      · rename_i odd
        have total : (i + i) * (n / 2) + (j + i) = i * n + j := by
          rw [odd] at halves
          calc (i + i) * (n / 2) + (j + i) = i * (2 * (n / 2) + 1) + j := by ring
            _ = i * n + j := by rw [halves]
        exact total ▸ (mul (by omega) hr hs).bind fun _ => next (total ▸ fits)
      · have total : (i + i) * (n / 2) + j = i * n + j := by
          rw [show n % 2 = 0 by omega, Nat.add_zero] at halves
          calc (i + i) * (n / 2) + j = i * (2 * (n / 2)) + j := by ring
            _ = i * n + j := by rw [halves]
        exact total ▸ next (total ▸ fits) hr

/-- **What products add up, powers multiply**, and no product takes more factors than the power. -/
theorem pow_answers
    (mul : ∀ {i j : Nat} {p q : Polynomial}, i + j ≤ n → P i p → P j q →
      Answers F (P (i + j)) (p.mul q))
    (zero : P 0 (Polynomial.one p.vars))
    (const : p.isConstant = true → P n (Polynomial.constant p.vars (p.leadCoeff.pow n)))
    (hp : P 1 p) : Answers F (P n) (p.pow n) := by
  unfold pow
  split
  · rename_i none
    rw [none]
    exact zero
  split
  · rename_i constant
    exact const constant
  · rename_i some _
    have := powTimes_answers mul (Nat.pos_of_ne_zero some) (by omega) hp zero
    rwa [Nat.one_mul, Nat.add_zero] at this

end Powers

end Polynomial

end Eliminant
