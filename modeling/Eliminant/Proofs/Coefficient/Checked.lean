import Eliminant.Coefficient.Exact
import Mathlib.Algebra.Field.Rat

/-!
# Coefficients never overflow

The arithmetic on pairs of words goes through 128-bit numbers, which wrap round silently. Here the same
computations are made once more, step by step as the machine makes them, with a stop at every number that
needs more than 128 bits (`fit?`): products, sums, opposites, the greatest common divisor by remainders
(`remainderGcd`), and the quotients by it. None of them ever stops:

* **`Coefficient.ofWide?_eq`**: lowest terms, of all wide numbers but the least one;
* **`Coefficient.add?_eq`**, `sub?_eq`, `mul?_eq`, `neg?_eq`, `ofWords?_eq`, `inv?_eq`, `div?_eq`,
  `compare?_eq`: each operation on coefficients answers what it answers unchecked;
* **`Coefficient.pow?_eq`**: so do powers, whose squares are taken in a loop with an accumulator.
-/

namespace Eliminant

/-! ## 1. Numbers that fit -/

/-- The integers of a signed 128-bit number. -/
def InWide (n : Int) : Prop :=
  -170141183460469231731687303715884105728 ≤ n ∧ n ≤ 170141183460469231731687303715884105727

instance (n : Int) : Decidable (InWide n) := inferInstanceAs (Decidable (_ ∧ _))

/-- A number, if it fits in 128 bits. -/
def fit? (n : Int) : Option Int := if InWide n then some n else none

variable {a b d n num den : Int}

theorem fit?_eq (h : InWide n) : fit? n = some n := if_pos h

theorem inWide_of_natAbs (h : n.natAbs ≤ 170141183460469231731687303715884105727) : InWide n := by
  constructor <;> omega

theorem InWord.natAbs_le (h : InWord n) : n.natAbs ≤ 170141183460469231731687303715884105727 := by
  unfold InWord at h
  omega

theorem InWord.natAbs_mul_le (ha : InWord a) (hb : InWord b) :
    (a * b).natAbs ≤ 170141183460469231731687303715884105727 := by
  have := ha.mul_bounds hb
  omega

theorem fit?_mul (ha : InWord a) (hb : InWord b) : fit? (a * b) = some (a * b) :=
  fit?_eq (inWide_of_natAbs (ha.natAbs_mul_le hb))

/-- The greatest common divisor, by remainders that take the sign of what is divided. -/
def remainderGcd (a b : Int) : Nat := if a = 0 then b.natAbs else remainderGcd (b.tmod a) a
termination_by a.natAbs
decreasing_by
  rw [Int.natAbs_tmod]
  exact Nat.mod_lt _ (Int.natAbs_pos.mpr ‹_›)

theorem remainderGcd_eq (a b : Int) : remainderGcd a b = Int.gcd a b := by
  fun_induction remainderGcd a b with
  | case1 b => exact (Int.gcd_zero_left b).symm
  | case2 a b nz ih =>
    rw [ih, Int.gcd, Int.gcd, Int.natAbs_tmod]
    exact (Nat.gcd_rec _ _).symm

namespace Coefficient

/-! ## 2. Lowest terms -/

/-- `lowest`, with every wide number checked. -/
def lowest? (num den : Int) : Option Coefficient := do
  let g ← fit? (remainderGcd num den)
  if 1 < g then return ofRat (Rat.divInt (← fit? (num.tdiv g)) (← fit? (den.tdiv g)))
  else return ofRat (Rat.divInt num den)

/-- `ofWide`, with every wide number checked. -/
def ofWide? (num den : Int) : Option Coefficient :=
  if den < 0 then do lowest? (← fit? (-num)) (← fit? (-den)) else lowest? num den

theorem lowest?_eq (pos : 0 < den) (hn : num.natAbs ≤ 170141183460469231731687303715884105727)
    (hd : den.natAbs ≤ 170141183460469231731687303715884105727) :
    lowest? num den = some (ofRat (Rat.divInt num den)) := by
  have le : Int.gcd num den ≤ den.natAbs := Nat.gcd_le_right _ (by omega)
  have quotient {k : Int} (hk : k.natAbs ≤ 170141183460469231731687303715884105727) :
      fit? (k.tdiv (Int.gcd num den)) = some (k.tdiv (Int.gcd num den)) := by
    refine fit?_eq (inWide_of_natAbs ?_)
    rw [Int.natAbs_tdiv]
    exact (Nat.div_le_self _ _).trans hk
  unfold lowest?
  rw [remainderGcd_eq, fit?_eq (inWide_of_natAbs (by simpa using le.trans hd))]
  show (if 1 < (Int.gcd num den : Int) then _ else _) = _
  split
  · rw [quotient hn, quotient hd, ← divInt_div_gcd num pos.ne',
      ← Int.tdiv_eq_ediv_of_dvd (Int.gcd_dvd_left num den),
      ← Int.tdiv_eq_ediv_of_dvd (Int.gcd_dvd_right num den)]
    rfl
  · rfl

/-- **Reducing to lowest terms never overflows**, and gives the one representation of the fraction. -/
theorem ofWide?_eq (nz : den ≠ 0) (hn : num.natAbs ≤ 170141183460469231731687303715884105727)
    (hd : den.natAbs ≤ 170141183460469231731687303715884105727) :
    ofWide? num den = some (ofRat (Rat.divInt num den)) := by
  unfold ofWide?
  split
  · rw [fit?_eq (inWide_of_natAbs (by rwa [Int.natAbs_neg])),
      fit?_eq (inWide_of_natAbs (by rwa [Int.natAbs_neg]))]
    show lowest? (-num) (-den) = _
    rw [lowest?_eq (by omega) (by rwa [Int.natAbs_neg]) (by rwa [Int.natAbs_neg]), Rat.neg_divInt_neg]
  · exact lowest?_eq (by omega) hn hd

/-! ## 3. The operations -/

/-- `ofWords`, with every wide number checked. -/
def ofWords? (num den : Int) : Option (Except Failure Coefficient) :=
  if den = 0 then some (.error .zeroDivisor) else (ofWide? num den).map .ok

/-- The sum, with every wide number checked. -/
def add? : Coefficient → Coefficient → Option Coefficient
  | small n₁ d₁ .., small n₂ d₂ .. => do
    let num ← fit? ((← fit? (n₁ * d₂)) + (← fit? (n₂ * d₁)))
    ofWide? num (← fit? (d₁ * d₂))
  | a, b => some (ofRat (a.toRat + b.toRat))

/-- The product, with every wide number checked. -/
def mul? : Coefficient → Coefficient → Option Coefficient
  | small n₁ d₁ .., small n₂ d₂ .. => do ofWide? (← fit? (n₁ * n₂)) (← fit? (d₁ * d₂))
  | a, b => some (ofRat (a.toRat * b.toRat))

/-- The opposite, with every wide number checked. -/
def neg? : Coefficient → Option Coefficient
  | small n d .. => do ofWide? (← fit? (-n)) d
  | large r _ => some (ofRat (-r))

/-- The difference, with every wide number checked. -/
def sub? (a b : Coefficient) : Option Coefficient := do a.add? (← b.neg?)

/-- The inverse, with every wide number checked. -/
def inv? : Coefficient → Option (Except Failure Coefficient)
  | small n d .. => ofWords? d n
  | large r _ => some (.ok (ofRat r⁻¹))

/-- The quotient, with every wide number checked. -/
def div? (a b : Coefficient) : Option (Except Failure Coefficient) := do
  match ← b.inv? with
  | .ok i => (a.mul? i).map .ok
  | .error e => some (.error e)

/-- The product, if it is asked for. -/
def mulIf? (asked : Bool) (a b : Coefficient) : Option Coefficient := if asked then a.mul? b else some a

/-- Repeated squaring: `result` has the factors that are already known, and `base` is the next square.
    No square is taken behind the last factor. -/
def powLoop? (base result : Coefficient) (e : Nat) : Option Coefficient :=
  if e = 0 then some result
  else do
    let next ← mulIf? (e % 2 = 1) result base
    let square ← mulIf? (0 < e / 2) base base
    powLoop? square next (e / 2)
termination_by e

/-- The power, with every wide number checked. -/
def pow? (c : Coefficient) (e : Nat) : Option Coefficient := powLoop? c one e

/-- The order, with every wide number checked. -/
def compare? : Coefficient → Coefficient → Option Ordering
  | small n₁ d₁ .., small n₂ d₂ .. => do return compare (← fit? (n₁ * d₂)) (← fit? (n₂ * d₁))
  | a, b => some (if a.toRat < b.toRat then .lt else if b.toRat < a.toRat then .gt else .eq)

/-! ## 4. None of them stops -/

theorem eq_ofRat {c : Coefficient} {r : Rat} (h : c.toRat = r) : c = ofRat r := by
  rw [← h, ofRat_toRat]

/-- The fraction of two words. -/
theorem toRat_ofWide_of_words (hn : InWord num) (hd : InWord den) (nz : den ≠ 0) :
    (ofWide num den).toRat = Rat.divInt num den := by
  have bn := hn.natAbs_le
  have bd := hd.natAbs_le
  exact toRat_ofWide nz ⟨by omega, by omega⟩ ⟨by omega, by omega⟩

theorem ofWords?_eq (hn : InWord num) (hd : InWord den) : ofWords? num den = some (ofWords num den) := by
  unfold ofWords? ofWords
  split
  · rfl
  · rename_i nz
    rw [ofWide?_eq nz hn.natAbs_le hd.natAbs_le, ← eq_ofRat (toRat_ofWide_of_words hn hd nz)]
    rfl

theorem add?_eq (a b : Coefficient) : a.add? b = some (a + b) := by
  rw [eq_ofRat (toRat_add a b)]
  cases a with
  | large r hr => rfl
  | small n₁ d₁ hn₁ hd₁ p₁ r₁ =>
    cases b with
    | large r hr => rfl
    | small n₂ d₂ hn₂ hd₂ p₂ r₂ =>
      have b₁ := hn₁.mul_pos_bounds hd₂ p₂
      have b₂ := hn₂.mul_pos_bounds hd₁ p₁
      have sum : (n₁ * d₂ + n₂ * d₁).natAbs ≤ 170141183460469231731687303715884105727 := by omega
      rw [add?, fit?_mul hn₁ hd₂, fit?_mul hn₂ hd₁, fit?_mul hd₁ hd₂, toRat_small, toRat_small,
        Rat.divInt_add_divInt _ _ p₁.ne' p₂.ne']
      show (do ofWide? (← fit? (n₁ * d₂ + n₂ * d₁)) (d₁ * d₂)) = _
      rw [fit?_eq (inWide_of_natAbs sum)]
      exact ofWide?_eq (Int.mul_pos p₁ p₂).ne' sum (hd₁.natAbs_mul_le hd₂)

theorem mul?_eq (a b : Coefficient) : a.mul? b = some (a * b) := by
  rw [eq_ofRat (toRat_mul a b)]
  cases a with
  | large r hr => rfl
  | small n₁ d₁ hn₁ hd₁ p₁ r₁ =>
    cases b with
    | large r hr => rfl
    | small n₂ d₂ hn₂ hd₂ p₂ r₂ =>
      rw [mul?, fit?_mul hn₁ hn₂, fit?_mul hd₁ hd₂, toRat_small, toRat_small, Rat.divInt_mul_divInt]
      exact ofWide?_eq (Int.mul_pos p₁ p₂).ne' (hn₁.natAbs_mul_le hn₂)
        (hd₁.natAbs_mul_le hd₂)

theorem neg?_eq (a : Coefficient) : a.neg? = some (-a) := by
  rw [eq_ofRat (toRat_neg a)]
  cases a with
  | large r hr => rfl
  | small n d hn hd p r =>
    have bound : (-n).natAbs ≤ 170141183460469231731687303715884105727 :=
      (Int.natAbs_neg n).trans_le hn.natAbs_le
    rw [neg?, fit?_eq (inWide_of_natAbs bound), toRat_small, Rat.neg_divInt]
    exact ofWide?_eq p.ne' bound hd.natAbs_le

theorem sub?_eq (a b : Coefficient) : a.sub? b = some (a - b) := by
  rw [sub?, neg?_eq]
  exact add?_eq a (-b)

theorem inv?_eq (a : Coefficient) : a.inv? = some a.inv := by
  cases a with
  | large r hr => rfl
  | small n d hn hd p r => exact ofWords?_eq hd hn

theorem div?_eq (a b : Coefficient) : a.div? b = some (a.div b) := by
  rw [div?, inv?_eq]
  unfold div
  cases b.inv with
  | error e => rfl
  | ok i => exact congrArg (Option.map Except.ok) (mul?_eq a i)

theorem compare?_eq (a b : Coefficient) : a.compare? b = some (a.compare b) := by
  cases a with
  | large r hr => rfl
  | small n₁ d₁ hn₁ hd₁ p₁ r₁ =>
    cases b with
    | large r hr => rfl
    | small n₂ d₂ hn₂ hd₂ p₂ r₂ =>
      rw [compare?, fit?_mul hn₁ hd₂, fit?_mul hn₂ hd₁, Coefficient.compare, wide_mul hn₁ hd₂,
        wide_mul hn₂ hd₁]
      rfl

/-- The factor of the lowest binary digit of the exponent. -/
theorem exists_factor (base result : Coefficient) (e : Nat) :
    ∃ next, mulIf? (e % 2 = 1) result base = some next ∧
      next.toRat = result.toRat * base.toRat ^ (e % 2) := by
  rcases Nat.mod_two_eq_zero_or_one e with even | odd
  · exact ⟨result, by simp [mulIf?, even], by rw [even, pow_zero, mul_one]⟩
  · exact ⟨result * base, by simp [mulIf?, odd, mul?_eq], by rw [odd, pow_one, toRat_mul]⟩

/-- The square for the other digits, if there are any. -/
theorem exists_square (base : Coefficient) (k : Nat) :
    ∃ square, mulIf? (0 < k) base base = some square ∧
      square.toRat ^ k = base.toRat ^ (2 * k) := by
  rcases Nat.eq_zero_or_pos k with rfl | more
  · exact ⟨base, rfl, rfl⟩
  · exact ⟨base * base, by simp [mulIf?, more, mul?_eq], by rw [toRat_mul, pow_mul, sq]⟩

/-- What the loop has gathered, times the power that is left, is the power. -/
theorem powLoop?_eq (base result : Coefficient) (e : Nat) :
    powLoop? base result e = some (ofRat (result.toRat * base.toRat ^ e)) := by
  induction e using Nat.strongRecOn generalizing base result with
  | _ e ih =>
    rw [powLoop?]
    split
    · rename_i none
      rw [none, pow_zero, mul_one, ofRat_toRat]
    · rename_i some
      obtain ⟨next, times, factor⟩ := exists_factor base result e
      obtain ⟨square, squared, power⟩ := exists_square base (e / 2)
      rw [times, squared]
      show powLoop? square next (e / 2) = _
      rw [ih (e / 2) (by omega), factor, power, mul_assoc, ← pow_add, Nat.mod_add_div]

/-- **Powers by repeated squaring never overflow.** -/
theorem pow?_eq (c : Coefficient) (e : Nat) : c.pow? e = some (c.pow e) := by
  rw [pow?, powLoop?_eq, toRat_one, one_mul, ← eq_ofRat (toRat_pow c e)]

end Coefficient

end Eliminant
