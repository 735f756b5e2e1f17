import Eliminant.Coefficient.Basic

/-!
# Coefficients compute exactly

The operations on pairs of words go through 128-bit arithmetic, and their results change the
representation as they grow and shrink. None of that shows in the value: `toRat` turns every
operation on coefficients into the one on rational numbers.

* `wide_mul`, `wide_add_mul`: products of two words, and sums of two such products, fit in 128 bits;
* `toRat_ofWide`: reducing to lowest terms keeps the value;
* **`toRat_add`, `toRat_neg`, `toRat_mul`, `toRat_inv`, `toRat_pow`**: the operations are exact;
* **`inv_eq_error_iff`**: zero is the only coefficient without an inverse.
-/

namespace Eliminant

/-! ## 1. What fits -/

theorem InWord.mul_bounds {a b : Int} (ha : InWord a) (hb : InWord b) :
    -85070591730234615865843651857942052864 ≤ a * b ∧
      a * b ≤ 85070591730234615865843651857942052864 := by
  have abs : (a * b).natAbs ≤ 9223372036854775808 * 9223372036854775808 := by
    rw [Int.natAbs_mul]
    exact Nat.mul_le_mul (by have := ha; unfold InWord at this; omega)
      (by have := hb; unfold InWord at this; omega)
  omega

/-- A product with a positive word stays below the product of two least words. -/
theorem InWord.mul_pos_bounds {a d : Int} (ha : InWord a) (hd : InWord d) (pos : 0 < d) :
    -85070591730234615856620279821087277056 ≤ a * d ∧
      a * d ≤ 85070591730234615856620279821087277056 := by
  have abs : (a * d).natAbs ≤ 9223372036854775808 * 9223372036854775807 := by
    rw [Int.natAbs_mul]
    exact Nat.mul_le_mul (by have := ha; unfold InWord at this; omega)
      (by have := hd; unfold InWord at this; omega)
  omega

theorem wide_mul {a b : Int} (ha : InWord a) (hb : InWord b) : wide (a * b) = a * b := by
  have := ha.mul_bounds hb
  exact wide_eq (by omega) (by omega)

theorem wide_add_mul {a b c d : Int} (ha : InWord a) (hb : InWord b) (hbp : 0 < b)
    (hc : InWord c) (hd : InWord d) (hdp : 0 < d) : wide (a * b + c * d) = a * b + c * d := by
  have h₁ := ha.mul_pos_bounds hb hbp
  have h₂ := hc.mul_pos_bounds hd hdp
  exact wide_eq (by omega) (by omega)

theorem wide_neg {n : Int} (lo : -170141183460469231731687303715884105727 ≤ n)
    (hi : n ≤ 170141183460469231731687303715884105727) : wide (-n) = -n :=
  wide_eq (by omega) (by omega)

namespace Coefficient

/-! ## 2. Lowest terms -/

theorem toRat_small {num den : Int} {hn : InWord num} {hd : InWord den} {pos : 0 < den}
    {red : Int.gcd num den = 1} : (small num den hn hd pos red).toRat = Rat.divInt num den := by
  show Rat.mk' num den.toNat _ _ = _
  rw [Rat.mk_eq_divInt]
  congr 1
  omega

theorem divInt_div_gcd (n : Int) {d : Int} (h : d ≠ 0) :
    Rat.divInt (n / (Int.gcd n d : Int)) (d / (Int.gcd n d : Int)) = Rat.divInt n d := by
  have pos : 0 < Int.gcd n d := Int.gcd_pos_of_ne_zero_right n h
  have hg : (Int.gcd n d : Int) ≠ 0 := by omega
  rw [← Rat.divInt_mul_left hg, Int.mul_ediv_cancel' (Int.gcd_dvd_left _ _),
    Int.mul_ediv_cancel' (Int.gcd_dvd_right _ _)]

theorem toRat_lowest (n : Int) {d : Int} (h : d ≠ 0) : (lowest n d).toRat = Rat.divInt n d := by
  unfold lowest
  dsimp only
  split
  · rw [toRat_small, divInt_div_gcd n h]
  · rw [toRat_ofRat, divInt_div_gcd n h]

/-- **Reducing to lowest terms keeps the value.** -/
theorem toRat_ofWide {num den : Int} (h : den ≠ 0)
    (hn : -170141183460469231731687303715884105727 ≤ num ∧
      num ≤ 170141183460469231731687303715884105727)
    (hd : -170141183460469231731687303715884105727 ≤ den ∧
      den ≤ 170141183460469231731687303715884105727) :
    (ofWide num den).toRat = Rat.divInt num den := by
  unfold ofWide
  split
  · rw [wide_neg hn.1 hn.2, wide_neg hd.1 hd.2, toRat_lowest _ (by omega), Rat.neg_divInt_neg]
  · exact toRat_lowest num h

/-! ## 3. The operations -/

@[simp] theorem toRat_zero : zero.toRat = 0 := rfl

@[simp] theorem toRat_one : one.toRat = 1 := rfl

@[simp] theorem toRat_ofInt (n : Int) : (ofInt n).toRat = n := toRat_ofRat _

/-- **Sums are exact.** -/
@[simp] theorem toRat_add (a b : Coefficient) : (a + b).toRat = a.toRat + b.toRat := by
  show (Coefficient.add a b).toRat = _
  cases a with
  | large r hr => exact toRat_ofRat _
  | small n₁ d₁ hn₁ hd₁ p₁ r₁ =>
    cases b with
    | large r hr => exact toRat_ofRat _
    | small n₂ d₂ hn₂ hd₂ p₂ r₂ =>
      have hden : d₁ * d₂ ≠ 0 := by
        have := Int.mul_pos p₁ p₂
        omega
      have b₁ := hn₁.mul_pos_bounds hd₂ p₂
      have b₂ := hn₂.mul_pos_bounds hd₁ p₁
      have b₃ := hd₁.mul_bounds hd₂
      show (ofWide (wide (wide (n₁ * d₂) + wide (n₂ * d₁))) (wide (d₁ * d₂))).toRat = _
      rw [wide_mul hn₁ hd₂, wide_mul hn₂ hd₁, wide_mul hd₁ hd₂,
        wide_add_mul hn₁ hd₂ p₂ hn₂ hd₁ p₁,
        toRat_ofWide hden ⟨by omega, by omega⟩ ⟨by omega, by omega⟩, toRat_small, toRat_small,
        Rat.divInt_add_divInt _ _ (by omega) (by omega)]

/-- **Products are exact.** -/
@[simp] theorem toRat_mul (a b : Coefficient) : (a * b).toRat = a.toRat * b.toRat := by
  show (Coefficient.mul a b).toRat = _
  cases a with
  | large r hr => exact toRat_ofRat _
  | small n₁ d₁ hn₁ hd₁ p₁ r₁ =>
    cases b with
    | large r hr => exact toRat_ofRat _
    | small n₂ d₂ hn₂ hd₂ p₂ r₂ =>
      have hden : d₁ * d₂ ≠ 0 := by
        have := Int.mul_pos p₁ p₂
        omega
      have b₁ := hn₁.mul_bounds hn₂
      have b₂ := hd₁.mul_bounds hd₂
      show (ofWide (wide (n₁ * n₂)) (wide (d₁ * d₂))).toRat = _
      rw [wide_mul hn₁ hn₂, wide_mul hd₁ hd₂,
        toRat_ofWide hden ⟨by omega, by omega⟩ ⟨by omega, by omega⟩, toRat_small, toRat_small,
        Rat.divInt_mul_divInt]

/-- **Opposites are exact.** -/
@[simp] theorem toRat_neg (a : Coefficient) : (-a).toRat = -a.toRat := by
  show (Coefficient.neg a).toRat = _
  cases a with
  | large r hr => exact toRat_ofRat _
  | small n d hn hd p r =>
    have h₁ := hn
    have h₂ := hd
    unfold InWord at h₁ h₂
    show (ofWide (wide (-n)) d).toRat = _
    rw [wide_neg (by omega) (by omega),
      toRat_ofWide (by omega) ⟨by omega, by omega⟩ ⟨by omega, by omega⟩, toRat_small,
      Rat.neg_divInt]

@[simp] theorem toRat_sub (a b : Coefficient) : (a - b).toRat = a.toRat - b.toRat := by
  show (a + -b).toRat = _
  rw [toRat_add, toRat_neg, Rat.sub_eq_add_neg]

theorem isZero_iff (a : Coefficient) : a.isZero = true ↔ a = zero := by
  constructor
  · intro h
    cases a with
    | large r hr => cases h
    | small n d hn hd p r =>
      have hn0 : n = 0 := by simpa [isZero] using h
      subst hn0
      have hd1 : d = 1 := by
        rw [Int.gcd_zero_left] at r
        omega
      subst hd1
      rfl
  · rintro rfl
    rfl

theorem isNegative_iff (n : Coefficient) : n.isNegative = true ↔ n.toRat.num < 0 := by
  cases n <;> exact decide_eq_true_iff

theorem isInteger_iff (n : Coefficient) : n.isInteger = true ↔ n.toRat.den = 1 := by
  cases n with
  | small p q _ _ pos _ =>
    show (q == 1) = true ↔ q.toNat = 1
    rw [beq_iff_eq]
    omega
  | large _ _ => exact beq_iff_eq

/-- **Zero is the only coefficient that has no inverse.** -/
theorem inv_eq_error_iff (a : Coefficient) : (∃ e, a.inv = .error e) ↔ a = zero := by
  rw [← isZero_iff]
  cases a with
  | large r hr => simp [inv, isZero]
  | small n d hn hd p r =>
    by_cases h : n = 0 <;> simp [inv, ofWords, isZero, h]

/-- **Inverses are exact.** -/
theorem toRat_inv {a b : Coefficient} (h : a.inv = .ok b) : b.toRat = a.toRat⁻¹ := by
  cases a with
  | large r hr =>
    cases h
    exact toRat_ofRat _
  | small n d hn hd p r =>
    have h₁ := hn
    have h₂ := hd
    unfold InWord at h₁ h₂
    by_cases hz : n = 0
    · simp [inv, ofWords, hz] at h
    · have hb : ofWide d n = b := by simpa [inv, ofWords, hz] using h
      rw [← hb, toRat_ofWide hz ⟨by omega, by omega⟩ ⟨by omega, by omega⟩, toRat_small,
        Rat.inv_divInt]

/-- **Powers are exact.** -/
@[simp] theorem toRat_pow (a : Coefficient) (e : Nat) : (a.pow e).toRat = a.toRat ^ e := by
  induction e using Nat.strongRecOn generalizing a with
  | _ e ih =>
    unfold pow
    split
    · rename_i h
      rw [h, Rat.pow_zero]
      rfl
    · split
      · rename_i h
        rw [h, Rat.pow_succ, Rat.pow_zero, Rat.one_mul]
      · have half := ih (e / 2) (by omega) (a * a)
        have square : ∀ n : Nat, (a.toRat * a.toRat) ^ n = a.toRat ^ (2 * n) := by
          intro n
          induction n with
          | zero => rw [Nat.mul_zero, Rat.pow_zero, Rat.pow_zero]
          | succ n ihn =>
            rw [Rat.pow_succ, ihn, Nat.mul_succ, Rat.pow_succ, Rat.pow_succ, Rat.mul_assoc]
        rw [toRat_mul, square] at half
        split
        · rw [toRat_mul, half, Rat.mul_comm, ← Rat.pow_succ]
          congr 1
          omega
        · rw [half]
          congr 1
          omega

end Coefficient

end Eliminant
