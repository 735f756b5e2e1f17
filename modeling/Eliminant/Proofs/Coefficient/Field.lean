import Eliminant.Coefficient.Numeral
import Eliminant.Proofs.Coefficient.Checked
import Eliminant.Proofs.Order
import Eliminant.Proofs.Terms.Basic
import Mathlib.Data.Nat.Digits.Defs

/-!
# Coefficients are the field of rational numbers

Every rational number has one coefficient (`ofRat`), and the operations compute it: exactly, without
overflow on the way, and with an error for the inverse of zero only.

* `Coefficient.ofNumeral_digits`, `Coefficient.ofNumeral_minus`: decimal digits are read as the number that
  they write;
* **`Coefficient.coefficients_exact`**: all of it in one statement.
-/

namespace Eliminant

namespace Coefficient

variable {a b c : Coefficient} {n d : Int} {digits : List Char}

/-! ## 1. Decimal digits -/

/-- The number that decimal digits write. -/
def decimal (digits : List Char) : Nat :=
  Nat.ofDigits 10 (digits.map fun c => c.toNat - '0'.toNat).reverse

theorem decimal_append_singleton (digits : List Char) (c : Char) :
    decimal (digits ++ [c]) = decimal digits * 10 + (c.toNat - '0'.toNat) := by
  simp only [decimal, List.map_append, List.map_cons, List.map_nil, List.reverse_append,
    List.reverse_singleton, List.singleton_append, Nat.ofDigits_cons]
  omega

/-- Digits are read one by one, behind whatever sign there was. -/
theorem foldlM_digits (sign : Option Bool) (all : ∀ c ∈ digits, c.isDigit = true) :
    digits.foldlM NumeralState.step ⟨sign, none⟩ =
      .ok ⟨sign, if digits = [] then none else some (decimal digits)⟩ := by
  induction digits using List.reverseRecOn with
  | nil => rfl
  | append_singleton digits c ih =>
    rw [List.forall_mem_append, List.forall_mem_singleton] at all
    rw [List.foldlM_append, ih all.1, if_neg (List.append_ne_nil_of_right_ne_nil digits (List.cons_ne_nil c [])),
      decimal_append_singleton]
    show List.foldlM NumeralState.step _ [c] = _
    rw [List.foldlM_cons, NumeralState.step, if_pos all.2]
    cases digits <;> rfl

/-- **Decimal digits are read as the number that they write**, -/
theorem ofNumeral_digits (some : digits ≠ []) (all : ∀ c ∈ digits, c.isDigit = true) :
    ofNumeral (String.ofList digits) = .ok (ofRat (decimal digits)) := by
  rw [ofNumeral, integerOfNumeral, String.toList_ofList, foldlM_digits none all, if_neg some]
  rfl

/-- and as its opposite behind a minus sign. -/
theorem ofNumeral_minus (some : digits ≠ []) (all : ∀ c ∈ digits, c.isDigit = true) :
    ofNumeral (String.ofList ('-' :: digits)) = .ok (ofRat (-decimal digits)) := by
  have sign : NumeralState.step ⟨none, none⟩ '-' = .ok ⟨Option.some true, none⟩ := by decide
  rw [ofNumeral, integerOfNumeral, String.toList_ofList, List.foldlM_cons, sign]
  have value : ((-(decimal digits : Int) : Int) : ℚ) = -decimal digits := by push_cast; rfl
  show ((digits.foldlM NumeralState.step ⟨Option.some true, none⟩ >>= _) >>= _) = _
  rw [foldlM_digits (Option.some true) all, if_neg some, ← value]
  rfl

/-! ## 2. The field -/

/-- An operation overflows nowhere, and answers the coefficient of a number. -/
structure Yields (checked : Option Coefficient) (answer : Coefficient) (r : ℚ) : Prop where
  checked_eq : checked = some answer
  answer_eq : answer = ofRat r

/-- An operation overflows nowhere, and answers the coefficient of a number, or that there is none. -/
structure YieldsUnless (zero : Prop) (checked : Option (Except Failure Coefficient))
    (answer : Except Failure Coefficient) (r : ℚ) : Prop where
  checked_eq : checked = some answer
  error_of : zero → answer = .error .zeroDivisor
  ok_of : ¬zero → answer = .ok (ofRat r)

/-- **The arithmetic of two coefficients is that of the numbers they stand for.** -/
structure ExactArithmetic (a b : Coefficient) : Prop where
  add : Yields (a.add? b) (a + b) (a.toRat + b.toRat)
  sub : Yields (a.sub? b) (a - b) (a.toRat - b.toRat)
  mul : Yields (a.mul? b) (a * b) (a.toRat * b.toRat)
  neg : Yields a.neg? (-a) (-a.toRat)
  pow : ∀ e : Nat, Yields (a.pow? e) (a.pow e) (a.toRat ^ e)
  inv : YieldsUnless (a.toRat = 0) a.inv? a.inv a.toRat⁻¹
  div : YieldsUnless (b.toRat = 0) (a.div? b) (a.div b) (a.toRat / b.toRat)

/-- **So are their order and the tests**, in whichever form they are kept. -/
structure ExactTests (a b : Coefficient) : Prop where
  checked_eq : a.compare? b = some (a.compare b)
  lt_iff : a.compare b = .lt ↔ a.toRat < b.toRat
  eq_iff : a.compare b = .eq ↔ a.toRat = b.toRat
  gt_iff : a.compare b = .gt ↔ b.toRat < a.toRat
  same_iff : a = b ↔ a.toRat = b.toRat
  isZero_iff : a.isZero = true ↔ a.toRat = 0
  isOne_iff : a.isOne = true ↔ a.toRat = 1
  toWord_iff : ∀ n, a.toWord? = some n ↔ InWord n ∧ a.toRat = n
  toWords_iff : ∀ n d, a.toWords? = some (n, d) ↔
    InWord n ∧ InWord d ∧ a.toRat.num = n ∧ (a.toRat.den : Int) = d

theorem eq_zero (h : c.toRat = 0) : c = zero := toRat_injective h

theorem exactArithmetic (a b : Coefficient) : ExactArithmetic a b where
  add := ⟨add?_eq a b, eq_ofRat (toRat_add a b)⟩
  sub := ⟨sub?_eq a b, eq_ofRat (toRat_sub a b)⟩
  mul := ⟨mul?_eq a b, eq_ofRat (toRat_mul a b)⟩
  neg := ⟨neg?_eq a, eq_ofRat (toRat_neg a)⟩
  pow e := ⟨pow?_eq a e, eq_ofRat (toRat_pow a e)⟩
  inv := ⟨inv?_eq a, fun zero => by rw [eq_zero zero]; rfl, fun nz => by
    obtain ⟨i, run, value⟩ := exists_inv ((isZero_eq_false_iff a).mpr nz)
    rw [run, eq_ofRat value]⟩
  div := ⟨div?_eq a b, fun zero => by rw [eq_zero zero]; rfl, fun nz => by
    obtain ⟨q, run, value⟩ := exists_div a ((isZero_eq_false_iff b).mpr nz)
    rw [run, eq_ofRat value]⟩

theorem exactTests (a b : Coefficient) : ExactTests a b where
  checked_eq := compare?_eq a b
  lt_iff := compare_lt_iff
  eq_iff := by
    refine ⟨fun h => congrArg toRat (eq_of_compare h), fun same => ?_⟩
    rw [compare_eq, same, if_neg (lt_irrefl _), if_neg (lt_irrefl _)]
  gt_iff := by
    rw [← compare_lt_iff, compare_swap a b]
    cases a.compare b <;> simp
  same_iff := ⟨congrArg toRat, toRat_injective⟩
  isZero_iff := isZero_iff_toRat a
  isOne_iff := isOne_iff_toRat
  toWord_iff _ := toWord?_iff
  toWords_iff _ _ := toWords?_iff

/-- The fraction of two words. -/
theorem yields_ofWords (hn : InWord n) (hd : InWord d) :
    YieldsUnless (d = 0) (ofWords? n d) (ofWords n d) (n / d) := by
  refine ⟨ofWords?_eq hn hd, fun zero => if_pos zero, fun nz => ?_⟩
  rw [ofWords, if_neg nz, eq_ofRat (toRat_ofWide_of_words hn hd nz), Rat.divInt_eq_div]

/-- **Coefficients are the field of rational numbers, each number in one form.** For all of them, sums,
    differences, products, opposites, powers, inverses and quotients overflow nowhere and are the
    coefficients of the results, with an error exactly where zero is inverted; they are compared as
    numbers, and are equal as numbers only if they are the same. So are fractions of two words, and the
    integers that decimal digits write, with a minus sign or without. -/
theorem coefficients_exact (a b : Coefficient) (hn : InWord n) (hd : InWord d) (some : digits ≠ [])
    (all : ∀ c ∈ digits, c.isDigit = true) :
    ExactArithmetic a b ∧ ExactTests a b ∧ YieldsUnless (d = 0) (ofWords? n d) (ofWords n d) (n / d) ∧
      ofNumeral (String.ofList digits) = .ok (ofRat (decimal digits)) ∧
      ofNumeral (String.ofList ('-' :: digits)) = .ok (ofRat (-decimal digits)) :=
  ⟨exactArithmetic a b, exactTests a b, yields_ofWords hn hd, ofNumeral_digits some all,
    ofNumeral_minus some all⟩

/-- The least word, which has no opposite among the words, by itself and in digits. -/
theorem coefficients_exact_at :
    let least := ofInt (-9223372036854775808)
    let digits := ['9', '2', '2', '3', '3', '7', '2', '0', '3', '6', '8', '5', '4', '7', '7', '5', '8', '0', '8']
    InWord (-9223372036854775808) ∧ digits ≠ [] ∧ (∀ c ∈ digits, c.isDigit = true) ∧
      least.isLarge = false ∧ (-least).isLarge = true ∧ least + -least = zero ∧
      (∃ i, least.inv = .ok i ∧ i.isLarge = true ∧ least * i = one) ∧
      ofWords? (-9223372036854775808) (-9223372036854775808) = Option.some (.ok one) ∧
      ofNumeral (String.ofList ('-' :: digits)) = .ok least := by
  intro least digits
  have word : InWord (-9223372036854775808) := by decide
  have some : digits ≠ [] := List.cons_ne_nil _ _
  have all : ∀ c ∈ digits, c.isDigit = true := List.all_eq_true.mp rfl
  obtain ⟨arithmetic, -, words, -, minus⟩ := coefficients_exact least least word word some all
  have value : least.toRat = -9223372036854775808 := toRat_ofInt _
  have nz : least.toRat ≠ 0 := by
    rw [value]
    decide
  have written : decimal digits = 9223372036854775808 := by decide +kernel
  refine ⟨word, some, all, by decide, ?_, ?_, ⟨_, arithmetic.inv.ok_of nz, ?_, ?_⟩, ?_, ?_⟩
  · rw [arithmetic.neg.answer_eq, value]
    decide
  · refine toRat_injective ?_
    rw [toRat_add, toRat_neg, add_neg_cancel, toRat_zero]
  · rw [value]
    decide +kernel
  · refine toRat_injective ?_
    rw [toRat_mul, toRat_ofRat, mul_inv_cancel₀ nz, toRat_one]
  · rw [words.checked_eq, words.ok_of (by decide), div_self (by decide)]
    rfl
  · rw [minus, written]
    decide

end Coefficient

end Eliminant
