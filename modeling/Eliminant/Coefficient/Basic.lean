import Eliminant.Failure

/-!
# Coefficients: exact rational numbers in two representations

Most coefficients of a computation are small, so a rational number whose numerator and denominator
fit in a signed 64-bit word is kept as that pair of words, and only the others as a big rational.
This file fixes

* `Coefficient`: the two representations, with everything that makes them unique kept in the type
  (lowest terms, a positive denominator, and a big rational only where the words do not suffice);
* `wide`: the 128-bit arithmetic in which pairs of words are added and multiplied before the result
  is reduced again (`ofWide`);
* `toRat`: the number a coefficient stands for -- the one view against which everything is read;
* the field operations, powers by repeated squaring and the order.

`toRat_injective` is the main fact: **equal numbers are equal coefficients**, so equality and the
tests `isZero`, `isOne` never have to compare values.
-/

namespace Eliminant

/-! ## 1. Words and wide numbers -/

/-- The integers of a signed 64-bit word. -/
def InWord (n : Int) : Prop := -9223372036854775808 ≤ n ∧ n ≤ 9223372036854775807

instance (n : Int) : Decidable (InWord n) := inferInstanceAs (Decidable (_ ∧ _))

/-- The signed 128-bit number that agrees with `n` modulo `2 ^ 128`. -/
def wide (n : Int) : Int := n.bmod 340282366920938463463374607431768211456

/-- **Wide arithmetic is exact on every number that fits.** -/
theorem wide_eq {n : Int} (lo : -170141183460469231731687303715884105728 ≤ n)
    (hi : n < 170141183460469231731687303715884105728) : wide n = n :=
  Int.bmod_eq_of_le (by simpa using lo) (by simpa using hi)

/-! ## 2. The two representations -/

/-- An exact rational number. -/
inductive Coefficient where
  /-- the fraction `num / den` of two words in lowest terms -/
  | small (num den : Int) (num_word : InWord num) (den_word : InWord den) (den_pos : 0 < den)
      (reduced : Int.gcd num den = 1)
  /-- a rational number that is no fraction of two words -/
  | large (value : Rat) (unfit : ¬ (InWord value.num ∧ InWord value.den))
  deriving DecidableEq

namespace Coefficient

/-- The rational number a coefficient stands for. -/
def toRat : Coefficient → Rat
  | small num den _ _ pos reduced =>
    { num := num
      den := den.toNat
      den_nz := by omega
      reduced := by
        have : den.natAbs = den.toNat := by omega
        rw [← this]
        exact reduced }
  | large value _ => value

/-- The coefficient that stands for a rational number. -/
def ofRat (r : Rat) : Coefficient :=
  if h : InWord r.num ∧ InWord r.den then
    small r.num r.den h.1 h.2 (by have := r.den_pos; omega) r.reduced
  else large r h

@[simp] theorem toRat_ofRat (r : Rat) : (ofRat r).toRat = r := by
  unfold ofRat
  split
  · rfl
  · rfl

theorem ofRat_of_fit {r : Rat} (h : InWord r.num ∧ InWord r.den) :
    ofRat r = small r.num r.den h.1 h.2 (by have := r.den_pos; omega) r.reduced := dif_pos h

theorem ofRat_of_unfit {r : Rat} (h : ¬ (InWord r.num ∧ InWord r.den)) : ofRat r = large r h :=
  dif_neg h

@[simp] theorem ofRat_toRat (c : Coefficient) : ofRat c.toRat = c := by
  cases c with
  | small num den hn hd pos red =>
    have hden : ((den.toNat : Nat) : Int) = den := by omega
    refine (ofRat_of_fit ⟨hn, ?_⟩).trans ?_
    · rw [← hden] at hd
      exact hd
    · simp only [toRat, hden]
  | large r h => exact ofRat_of_unfit h

/-- **Equal numbers are equal coefficients.** -/
theorem toRat_injective {a b : Coefficient} (h : a.toRat = b.toRat) : a = b := by
  rw [← ofRat_toRat a, ← ofRat_toRat b, h]

/-- The fraction `num / den` in lowest terms. Only a result that is no pair of words is large. -/
def lowest (num den : Int) : Coefficient :=
  let g : Int := Int.gcd num den
  if h : 0 < den ∧ InWord (num / g) ∧ InWord (den / g) then
    small (num / g) (den / g) h.2.1 h.2.2
      (Int.ediv_pos_of_pos_of_dvd h.1 (Int.natCast_nonneg _) (Int.gcd_dvd_right _ _))
      (Int.gcd_ediv_gcd_ediv_gcd (Int.gcd_pos_of_ne_zero_right _ (by omega)))
  else ofRat (Rat.divInt (num / g) (den / g))

/-- The fraction `num / den` of two wide numbers, `den` not zero. The numerator takes the sign. -/
def ofWide (num den : Int) : Coefficient :=
  if den < 0 then lowest (wide (-num)) (wide (-den)) else lowest num den

/-- The fraction `num / den` of two words. -/
def ofWords (num den : Int) : Except Failure Coefficient :=
  if den = 0 then .error .zeroDivisor else .ok (ofWide num den)

/-- The integer `n`. -/
def ofInt (n : Int) : Coefficient := ofRat n

/-- The coefficient `0`. -/
def zero : Coefficient :=
  small 0 1 (by decide) (by decide) (by decide) (by decide)

/-- The coefficient `1`. -/
def one : Coefficient :=
  small 1 1 (by decide) (by decide) (by decide) (by decide)

instance : Inhabited Coefficient := ⟨zero⟩

/-! ## 3. Tests and parts -/

/-- Whether a coefficient is `0`. -/
def isZero : Coefficient → Bool
  | small num .. => num == 0
  | large .. => false

/-- Whether a coefficient is `1`. -/
def isOne : Coefficient → Bool
  | small num den .. => num == 1 && den == 1
  | large .. => false

/-- Whether a coefficient is below `0`. -/
def isNegative : Coefficient → Bool
  | small num .. => num < 0
  | large r _ => r.num < 0

/-- Whether a coefficient is an integer. -/
def isInteger : Coefficient → Bool
  | small _ den .. => den == 1
  | large r _ => r.den == 1

/-- Whether a coefficient is no fraction of two words. -/
def isLarge : Coefficient → Bool
  | small .. => false
  | large .. => true

/-- The value as a word, if it is an integer that fits. -/
def toWord? : Coefficient → Option Int
  | small num den .. => if den == 1 then some num else none
  | large .. => none

/-- Numerator and denominator as words, if both fit. -/
def toWords? : Coefficient → Option (Int × Int)
  | small num den .. => some (num, den)
  | large .. => none

/-! ## 4. The field operations -/

/-- The sum of two coefficients. -/
protected def add : Coefficient → Coefficient → Coefficient
  | small n₁ d₁ .., small n₂ d₂ .. =>
    ofWide (wide (wide (n₁ * d₂) + wide (n₂ * d₁))) (wide (d₁ * d₂))
  | a, b => ofRat (a.toRat + b.toRat)

/-- The product of two coefficients. -/
protected def mul : Coefficient → Coefficient → Coefficient
  | small n₁ d₁ .., small n₂ d₂ .. => ofWide (wide (n₁ * n₂)) (wide (d₁ * d₂))
  | a, b => ofRat (a.toRat * b.toRat)

/-- The opposite of a coefficient. -/
protected def neg : Coefficient → Coefficient
  | small n d .. => ofWide (wide (-n)) d
  | large r _ => ofRat (-r)

instance : Add Coefficient := ⟨Coefficient.add⟩
instance : Mul Coefficient := ⟨Coefficient.mul⟩
instance : Neg Coefficient := ⟨Coefficient.neg⟩
instance : Sub Coefficient := ⟨fun a b => a + -b⟩

/-- The inverse of a coefficient that is not zero. -/
def inv : Coefficient → Except Failure Coefficient
  | small n d .. => ofWords d n
  | large r _ => .ok (ofRat r⁻¹)

/-- The quotient of two coefficients, the second not zero. -/
def div (a b : Coefficient) : Except Failure Coefficient := do
  let i ← b.inv
  return a * i

/-- The power `c ^ e`, by repeated squaring. -/
def pow (c : Coefficient) (e : Nat) : Coefficient :=
  if e = 0 then one
  else if e = 1 then c
  else
    let half := pow (c * c) (e / 2)
    if e % 2 = 1 then c * half else half
termination_by e

/-! ## 5. The order -/

/-- The order of the rational numbers, on coefficients. -/
protected def compare : Coefficient → Coefficient → Ordering
  | small n₁ d₁ .., small n₂ d₂ .. => compare (wide (n₁ * d₂)) (wide (n₂ * d₁))
  | a, b => if a.toRat < b.toRat then .lt else if b.toRat < a.toRat then .gt else .eq

end Coefficient

end Eliminant
