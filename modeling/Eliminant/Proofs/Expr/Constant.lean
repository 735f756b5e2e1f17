import Eliminant.Expr.Constant
import Eliminant.Proofs.Expr.Normal
import Mathlib.Algebra.Ring.Parity

/-!
# Constant expressions have their exact values

An expression that is evaluated to a constant has that constant as its value, in every interpretation
(`Expr.eval_of_constant?`): it divides by nothing that is zero, and its powers are powers of the field.
-/

namespace Eliminant

variable {K : Type} [Field K] [LinearOrder K] [IsStrictOrderedRing K] {I : Interpretation K}

namespace Coefficient

variable {b c : Coefficient}

/-- A coefficient that has an inverse is not zero. -/
theorem ne_zero_of_inv (h : b.inv = .ok c) : b.toRat ≠ 0 := by
  intro zero
  obtain ⟨e, error⟩ := (inv_eq_error_iff b).mpr ((isZero_iff b).mp ((isZero_iff_toRat b).mpr zero))
  cases h.symm.trans error

theorem toRat_of_div {d : Coefficient} (h : b.div c = .ok d) :
    c.toRat ≠ 0 ∧ d.toRat = b.toRat / c.toRat := by
  unfold div at h
  cases inv : c.inv with
  | error e =>
    rw [inv] at h
    cases h
  | ok i =>
    rw [inv] at h
    cases h
    exact ⟨ne_zero_of_inv inv, by rw [toRat_mul, toRat_inv inv, div_eq_mul_inv]⟩

/-- **A power that is evaluated** exists, and it is exact. -/
theorem toRat_of_powConstant? {e : Int} (h : b.powConstant? e = some c) :
    (b.toRat ≠ 0 ∨ 0 ≤ e) ∧ c.toRat = b.toRat ^ e := by
  unfold powConstant? at h
  split at h
  · rename_i fixed
    cases h
    rw [Bool.or_eq_true, Bool.and_eq_true, isOne_iff, isZero_iff, decide_eq_true_eq] at fixed
    rcases fixed with rfl | ⟨rfl, pos⟩
    · exact ⟨Or.inl one_ne_zero, (one_zpow e).symm⟩
    · exact ⟨Or.inr pos.le, (zero_zpow e pos.ne').symm⟩
  split at h
  · rename_i minus
    have value : b.toRat = -1 := by
      have := congrArg toRat ((isOne_iff _).mp minus)
      rw [toRat_neg, toRat_one] at this
      linarith
    refine ⟨Or.inl (by rw [value]; norm_num), ?_⟩
    split at h
    · rename_i even
      cases h
      rw [toRat_neg, value, (Int.even_iff.mpr even).neg_one_zpow, neg_neg]
    · rename_i odd
      cases h
      rw [value, (Int.not_even_iff_odd.mp (fun even => odd (Int.even_iff.mp even))).neg_one_zpow]
  split at h
  · cases h
  split at h
  · rename_i natural
    cases h
    obtain ⟨n, rfl⟩ := Int.eq_ofNat_of_zero_le natural
    exact ⟨Or.inr natural, by rw [toRat_pow, zpow_natCast]; rfl⟩
  · rename_i negative
    split at h
    · rename_i i inv
      cases h
      obtain ⟨n, rfl⟩ := Int.exists_eq_neg_ofNat (not_le.mp negative).le
      refine ⟨Or.inl (ne_zero_of_inv inv), ?_⟩
      rw [toRat_pow, toRat_inv inv, inv_pow, zpow_neg, zpow_natCast, Int.natAbs_neg]
      rfl
    · cases h

end Coefficient

namespace Expr

mutual
/-- **The value of a constant expression.** -/
theorem eval_of_constant? : ∀ (a : Expr) {c : Coefficient}, a.constant? = some c →
    I.eval a = some (c.toRat : K)
  | a, c, h => by
    unfold constant? at h
    split at h
    · cases h
      rfl
    · cases h
    · cases h
    · rename_i a b rest
      obtain ⟨x, hx, same⟩ := sumsTo_of_sumConstants? (a :: b :: rest) h
      rw [same, Coefficient.toRat_zero, Rat.cast_zero, zero_add]
      exact Interpretation.eval_add_iff.mpr ⟨by simp, hx⟩
    · rename_i a b rest
      obtain ⟨x, hx, same⟩ := multipliesTo_of_mulConstants? (a :: b :: rest) h
      rw [same, Coefficient.toRat_one, Rat.cast_one, one_mul]
      exact Interpretation.eval_mul_iff.mpr ⟨by simp, hx⟩
    · rename_i a b
      obtain ⟨m, hm, h⟩ := Option.bind_eq_some_iff.mp h
      obtain ⟨n, hn, h⟩ := Option.bind_eq_some_iff.mp h
      cases h
      refine Interpretation.eval_two_iff.mpr ⟨_, _, eval_of_constant? a hm, eval_of_constant? b hn, ?_⟩
      rw [Coefficient.toRat_sub, Rat.cast_sub]
      rfl
    · rename_i a
      obtain ⟨m, hm, h⟩ := Option.bind_eq_some_iff.mp h
      cases h
      refine Interpretation.eval_one_iff.mpr ⟨_, eval_of_constant? a hm, ?_⟩
      rw [Coefficient.toRat_neg, Rat.cast_neg]
      rfl
    · rename_i a b
      obtain ⟨m, hm, h⟩ := Option.bind_eq_some_iff.mp h
      obtain ⟨n, hn, h⟩ := Option.bind_eq_some_iff.mp h
      refine Interpretation.eval_two_iff.mpr ⟨_, _, eval_of_constant? a hm, eval_of_constant? b hn, ?_⟩
      cases quotient : m.div n with
      | error e =>
        rw [quotient] at h
        cases h
      | ok d =>
        rw [quotient] at h
        cases h
        obtain ⟨nonzero, value⟩ := Coefficient.toRat_of_div quotient
        rw [value, Rat.cast_div]
        exact if_neg (Rat.cast_ne_zero.mpr nonzero)
    · rename_i a b
      obtain ⟨m, hm, h⟩ := Option.bind_eq_some_iff.mp h
      obtain ⟨n, hn, h⟩ := Option.bind_eq_some_iff.mp h
      obtain ⟨e, he, h⟩ := Option.bind_eq_some_iff.mp h
      obtain ⟨defined, value⟩ := Coefficient.toRat_of_powConstant? h
      refine Interpretation.eval_pow_iff.mpr ⟨_, _, eval_of_constant? a hm, eval_of_constant? b hn, ?_⟩
      rw [Coefficient.toRat_of_toWord? he, value, Rat.cast_zpow]
      exact I.powers.int_eq_some (defined.imp_left Rat.cast_ne_zero.mpr)
    · cases h

theorem sumsTo_of_sumConstants? : ∀ (as : List Expr) {s c : Coefficient},
    sumConstants? as s = some c → ∃ x, I.SumsTo as x ∧ (c.toRat : K) = s.toRat + x
  | [], s, c, h => by
    cases h
    exact ⟨0, rfl, (add_zero _).symm⟩
  | a :: as, s, c, h => by
    unfold sumConstants? at h
    obtain ⟨n, hn, h⟩ := Option.bind_eq_some_iff.mp h
    obtain ⟨x, hx, same⟩ := sumsTo_of_sumConstants? as h
    refine ⟨n.toRat + x, ⟨_, x, eval_of_constant? a hn, hx, rfl⟩, ?_⟩
    rw [same, Coefficient.toRat_add, Rat.cast_add, add_assoc]

theorem multipliesTo_of_mulConstants? : ∀ (as : List Expr) {s c : Coefficient},
    mulConstants? as s = some c → ∃ x, I.MultipliesTo as x ∧ (c.toRat : K) = s.toRat * x
  | [], s, c, h => by
    cases h
    exact ⟨1, rfl, (mul_one _).symm⟩
  | a :: as, s, c, h => by
    unfold mulConstants? at h
    obtain ⟨n, hn, h⟩ := Option.bind_eq_some_iff.mp h
    obtain ⟨x, hx, same⟩ := multipliesTo_of_mulConstants? as h
    refine ⟨n.toRat * x, ⟨_, x, eval_of_constant? a hn, hx, rfl⟩, ?_⟩
    rw [same, Coefficient.toRat_mul, Rat.cast_mul, mul_assoc]
end

/-! ## Expressions that are not constant -/

variable {a : Expr} {as : List Expr}

theorem sumConstants?_eq_none (h : a ∈ as) (none : a.constant? = none) (s : Coefficient) :
    sumConstants? as s = .none := by
  induction as generalizing s with
  | nil => cases h
  | cons b as ih =>
    rw [sumConstants?]
    rcases List.mem_cons.mp h with rfl | h
    · rw [none]
      rfl
    · cases b.constant? with
      | none => rfl
      | some c => exact ih h _

theorem mulConstants?_eq_none (h : a ∈ as) (none : a.constant? = none) (s : Coefficient) :
    mulConstants? as s = .none := by
  induction as generalizing s with
  | nil => cases h
  | cons b as ih =>
    rw [mulConstants?]
    rcases List.mem_cons.mp h with rfl | h
    · rw [none]
      rfl
    · cases b.constant? with
      | none => rfl
      | some c => exact ih h _

/-- A sum is constant only if all its operands are. -/
theorem constant?_add_eq_none (h : a ∈ as) (none : a.constant? = none) :
    (op .add as).constant? = .none := by
  rcases as with _ | ⟨b, _ | ⟨c, as⟩⟩
  · rw [constant?] <;> nofun
  · rw [constant?] <;> nofun
  · rw [constant?, sumConstants?_eq_none h none]

/-- A product is constant only if all its operands are. -/
theorem constant?_mul_eq_none (h : a ∈ as) (none : a.constant? = none) :
    (op .mul as).constant? = .none := by
  rcases as with _ | ⟨b, _ | ⟨c, as⟩⟩
  · rw [constant?] <;> nofun
  · rw [constant?] <;> nofun
  · rw [constant?, mulConstants?_eq_none h none]

end Expr

end Eliminant
