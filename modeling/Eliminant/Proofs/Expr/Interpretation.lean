import Eliminant.Coefficient.Exact
import Eliminant.Expr.Basic
import Eliminant.Proofs.Folds
import Mathlib.Algebra.Order.Field.Basic
import Mathlib.Algebra.Order.Field.Power
import Mathlib.Data.Rat.Cast.CharZero
import Mathlib.Data.Rat.Cast.Order
import Mathlib.RingTheory.Coprime.Lemmas
import Mathlib.Tactic.FieldSimp

/-!
# The value of an expression

An `Interpretation` says what names, calls, subscripts and primes mean in an ordered field, and
`Interpretation.eval` is the value that an expression has under it, if it has one: a node has none where
an operand has none, where its operator does not take that many operands, where zero divides and where
the power does not exist.

Integer powers are those of the field, with `0 ^ 0 = 1`. Other rational powers may exist, of positive
bases only, and they obey the laws of a power function (`Interpretation.Powers`). From these follow

* `exponent_add`, `exponent_neg`, `exponent_mul_int`: the laws for all bases and powers that exist;
* `base_one`: every power of `1` is `1`;
* `exists_root`: a power `n / d` in lowest terms is the `n`-th power of the power `1 / d`.

`Interpretation.ofIntegerPowers` is the interpretation in the rational numbers that has integer powers
only.
-/

namespace Eliminant

/-! ## 1. Powers -/

/-- **A power function**: integer powers are those of the field, and further powers, which may or may
    not exist, are rational, have positive bases and obey the laws of powers. -/
structure Powers (K : Type) [Field K] [LinearOrder K] [IsStrictOrderedRing K] where
  pow : K → K → Option K
  int : ∀ (b : K) (n : ℤ), pow b n = if b ≠ 0 ∨ 0 ≤ n then some (b ^ n) else none
  rational : ∀ {b e x : K}, pow b e = some x → ∃ q : ℚ, e = q
  positive : ∀ {b e x : K}, pow b e = some x → (∀ n : ℤ, e ≠ n) → 0 < b ∧ 0 < x
  add : ∀ {b x y : K} {p q : ℚ}, 0 < b → pow b p = some x → pow b q = some y →
    pow b (p + q : ℚ) = some (x * y)
  inv : ∀ {b x : K} {p : ℚ}, 0 < b → pow b p = some x → pow b (-p : ℚ) = some x⁻¹

namespace Powers

variable {K : Type} [Field K] [LinearOrder K] [IsStrictOrderedRing K] (P : Powers K)
  {b x y z : K} {p q : ℚ} {n : ℤ}

theorem int_eq_some (h : b ≠ 0 ∨ 0 ≤ n) : P.pow b (n : ℚ) = some (b ^ n) := by
  rw [Rat.cast_intCast, P.int, if_pos h]

/-- A power of a base that is not positive is an integer power of the field. -/
theorem exists_int (h : P.pow b q = some x) (hb : ¬ 0 < b) :
    ∃ n : ℤ, q = n ∧ (b ≠ 0 ∨ 0 ≤ n) ∧ x = b ^ n := by
  by_cases some : ∃ n : ℤ, (q : K) = n
  · obtain ⟨n, hn⟩ := some
    have same : q = n := by exact_mod_cast hn
    rw [hn, P.int] at h
    split at h
    · rename_i defined
      exact ⟨n, same, defined, (Option.some.inj h).symm⟩
    · cases h
  · exact absurd (P.positive h fun n hn => some ⟨n, hn⟩).1 hb

theorem exponent_zero (b : K) : P.pow b (0 : ℚ) = some 1 := by
  have := P.int_eq_some (b := b) (n := 0) (Or.inr le_rfl)
  rwa [Int.cast_zero, zpow_zero] at this

theorem exponent_one (b : K) : P.pow b (1 : ℚ) = some b := by
  have := P.int_eq_some (b := b) (n := 1) (Or.inr zero_le_one)
  rwa [Int.cast_one, zpow_one] at this

theorem exponent_nat (b : K) (n : ℕ) : P.pow b (n : ℚ) = some (b ^ n) := by
  have := P.int_eq_some (b := b) (n := n) (Or.inr (Int.natCast_nonneg n))
  rwa [Int.cast_natCast, zpow_natCast] at this

/-- **Exponents add up.** -/
theorem exponent_add (hx : P.pow b p = some x) (hy : P.pow b q = some y) :
    P.pow b (p + q : ℚ) = some (x * y) := by
  by_cases hb : 0 < b
  · exact P.add hb hx hy
  obtain ⟨m, rfl, hm, rfl⟩ := P.exists_int hx hb
  obtain ⟨n, rfl, hn, rfl⟩ := P.exists_int hy hb
  rw [← Int.cast_add]
  by_cases zero : b = 0
  · subst zero
    obtain ⟨i, rfl⟩ := Int.eq_ofNat_of_zero_le (hm.resolve_left fun h => h rfl)
    obtain ⟨j, rfl⟩ := Int.eq_ofNat_of_zero_le (hn.resolve_left fun h => h rfl)
    rw [P.int_eq_some (Or.inr (by omega)), ← Nat.cast_add, zpow_natCast, zpow_natCast, zpow_natCast,
      pow_add]
  · rw [P.int_eq_some (Or.inl zero), zpow_add₀ zero]

/-- **The opposite exponent inverts.** -/
theorem exponent_neg (hx : P.pow b p = some x) (ne : x ≠ 0) : P.pow b (-p : ℚ) = some x⁻¹ := by
  by_cases hb : 0 < b
  · exact P.inv hb hx
  obtain ⟨m, rfl, hm, rfl⟩ := P.exists_int hx hb
  by_cases zero : b = 0
  · subst zero
    have none : m = 0 := by
      by_contra some
      exact ne (zero_zpow m some)
    rw [none, zpow_zero, inv_one, Int.cast_zero, neg_zero]
    exact P.exponent_zero 0
  · rw [← Int.cast_neg, P.int_eq_some (Or.inl zero), zpow_neg]

theorem exponent_mul_nat (hx : P.pow b p = some x) (n : ℕ) :
    P.pow b (p * n : ℚ) = some (x ^ n) := by
  induction n with
  | zero =>
    rw [Nat.cast_zero, mul_zero, pow_zero]
    exact P.exponent_zero b
  | succ n ih =>
    rw [Nat.cast_succ, mul_add, mul_one, pow_succ]
    exact P.exponent_add ih hx

/-- **An integer power of a power multiplies the exponents.** -/
theorem exponent_mul_int (hx : P.pow b p = some x) (hz : P.pow x (n : ℚ) = some z) :
    P.pow b (p * n : ℚ) = some z := by
  rw [Rat.cast_intCast, P.int] at hz
  split at hz
  · rename_i defined
    rw [← Option.some.inj hz]
    obtain ⟨k, rfl | rfl⟩ := n.eq_nat_or_neg
    · rw [zpow_natCast, Int.cast_natCast]
      exact P.exponent_mul_nat hx k
    · by_cases zero : k = 0
      · rw [zero]
        simpa using P.exponent_zero b
      have ne : x ≠ 0 := defined.resolve_right (by omega)
      have := P.exponent_mul_nat (P.exponent_neg hx ne) k
      rwa [inv_pow, neg_mul, ← mul_neg, ← Int.cast_natCast, ← Int.cast_neg, ← zpow_natCast,
        ← zpow_neg] at this
  · cases hz

/-- An integer power of a product. -/
theorem base_mul_int {c : K} (h : P.pow (b * c) (n : ℚ) = some z) :
    ∃ x y, P.pow b (n : ℚ) = some x ∧ P.pow c (n : ℚ) = some y ∧ z = x * y := by
  rw [Rat.cast_intCast, P.int] at h
  split at h
  · rename_i defined
    refine ⟨b ^ n, c ^ n, P.int_eq_some (defined.imp_left left_ne_zero_of_mul),
      P.int_eq_some (defined.imp_left right_ne_zero_of_mul), ?_⟩
    rw [← mul_zpow]
    exact (Option.some.inj h).symm
  · cases h

/-- **Every power of `1` is `1`.** -/
theorem base_one {e : K} (h : P.pow 1 e = some x) : x = 1 := by
  obtain ⟨q, rfl⟩ := P.rational h
  by_cases some : ∃ n : ℤ, (q : K) = n
  · obtain ⟨n, hn⟩ := some
    rw [hn, P.int, if_pos (Or.inl one_ne_zero), one_zpow] at h
    exact (Option.some.inj h).symm
  · have pos := (P.positive h fun n hn => some ⟨n, hn⟩).2
    have power := P.exponent_mul_nat h q.den
    rw [Rat.mul_den_eq_num, P.int_eq_some (Or.inl one_ne_zero), one_zpow] at power
    exact (pow_eq_one_iff_of_nonneg pos.le q.den_nz).mp (Option.some.inj power).symm

/-- **A power in lowest terms is a power of a root.** -/
theorem exists_root {n d : ℕ} (coprime : n.Coprime d) (hd : 1 < d)
    (h : P.pow b (n / d : ℚ) = some y) : ∃ r, P.pow b (1 / d : ℚ) = some r ∧ r ^ n = y := by
  have nonzero : (d : ℚ) ≠ 0 := Nat.cast_ne_zero.mpr (by omega)
  have fraction : ∀ m : ℤ, ((n / d : ℚ) : K) ≠ m := by
    intro m same
    have same : (n / d : ℚ) = m := by exact_mod_cast same
    rw [div_eq_iff nonzero] at same
    have whole : (n : ℤ) = m * d := by exact_mod_cast same
    have divides : d ∣ n := Int.natCast_dvd_natCast.mp ⟨m, by rw [whole, mul_comm]⟩
    exact hd.ne' (coprime.symm.eq_one_of_dvd divides)
  obtain ⟨hb, hy⟩ := P.positive h fraction
  obtain ⟨u, v, bezout⟩ := Nat.isCoprime_iff_coprime.mpr coprime
  have first := P.exponent_mul_int h (P.int_eq_some (n := u) (Or.inl hy.ne'))
  have root := P.exponent_add first (P.int_eq_some (n := v) (Or.inl hb.ne'))
  have exponent : (n / d : ℚ) * u + v = 1 / d := by
    have bezout : (u * n + v * d : ℚ) = 1 := by exact_mod_cast bezout
    rw [eq_div_iff nonzero, ← bezout]
    field_simp
  rw [exponent] at root
  refine ⟨_, root, ?_⟩
  have power := P.exponent_mul_nat root n
  rw [one_div, inv_mul_eq_div, h] at power
  exact (Option.some.inj power).symm

end Powers

/-- The integer powers of a rational number, and no others. -/
def integerPow (b e : ℚ) : Option ℚ :=
  if e.den = 1 ∧ (b ≠ 0 ∨ 0 ≤ e) then some (b ^ e.num) else none

theorem integerPow_eq_some {b e x : ℚ} :
    integerPow b e = some x ↔ ∃ n : ℤ, e = n ∧ (b ≠ 0 ∨ 0 ≤ n) ∧ x = b ^ n := by
  unfold integerPow
  constructor
  · intro h
    split at h
    · rename_i defined
      have whole : (e.num : ℚ) = e := Rat.coe_int_num_of_den_eq_one defined.1
      refine ⟨e.num, whole.symm, defined.2.imp_right Rat.num_nonneg.mpr, (Option.some.inj h).symm⟩
    · cases h
  · rintro ⟨n, rfl, defined, rfl⟩
    rw [if_pos ⟨Rat.den_intCast n, defined.imp_right Int.cast_nonneg⟩, Rat.num_intCast]

/-- **Integer powers of rational numbers are a power function.** -/
def Powers.integers : Powers ℚ where
  pow := integerPow
  int b n := by
    split
    · rename_i defined
      exact integerPow_eq_some.mpr ⟨n, rfl, defined, rfl⟩
    · rename_i undefined
      refine Option.eq_none_iff_forall_not_mem.mpr fun x hx => undefined ?_
      obtain ⟨m, same, defined, -⟩ := integerPow_eq_some.mp hx
      rwa [Int.cast_injective same]
  rational {_ e _} _ := ⟨e, rfl⟩
  positive h fraction := by
    obtain ⟨n, same, -⟩ := integerPow_eq_some.mp h
    exact absurd same (fraction n)
  add {b x y p q} hb hx hy := by
    obtain ⟨m, hm, -, rfl⟩ := integerPow_eq_some.mp hx
    obtain ⟨n, hn, -, rfl⟩ := integerPow_eq_some.mp hy
    rw [Rat.cast_id] at hm hn ⊢
    refine integerPow_eq_some.mpr ⟨m + n, ?_, Or.inl hb.ne', (zpow_add₀ hb.ne' m n).symm⟩
    rw [hm, hn, Int.cast_add]
  inv {b x p} hb hx := by
    obtain ⟨m, hm, -, rfl⟩ := integerPow_eq_some.mp hx
    rw [Rat.cast_id] at hm ⊢
    refine integerPow_eq_some.mpr ⟨-m, ?_, Or.inl hb.ne', (zpow_neg b m).symm⟩
    rw [hm, Int.cast_neg]

/-! ## 2. Interpretations and values -/

/-- **What names, calls, subscripts, primes and powers mean** in an ordered field; what has no meaning
    has the value `none`. -/
structure Interpretation (K : Type) [Field K] [LinearOrder K] [IsStrictOrderedRing K] where
  var : String → Option K
  call : String → List K → Option K
  subscript : K → K → Option K
  prime : K → Option K
  powers : Powers K

namespace Interpretation

variable {K : Type} [Field K] [LinearOrder K] [IsStrictOrderedRing K] (I : Interpretation K)

/-- The value of a node whose operands have the given values. -/
def node : Operator → List K → Option K
  | .add, x :: y :: zs => some (x :: y :: zs).sum
  | .mul, x :: y :: zs => some (x :: y :: zs).prod
  | .sub, [x, y] => some (x - y)
  | .neg, [x] => some (-x)
  | .div, [x, y] => if y = 0 then none else some (x / y)
  | .pow, [x, y] => I.powers.pow x y
  | .subscript, [x, y] => I.subscript x y
  | .prime, [x] => I.prime x
  | _, _ => none

mutual
/-- **The value of an expression**, if it has one. -/
def eval : Expr → Option K
  | .num n => some (n.toRat : K)
  | .var x => I.var x
  | .call f args => (evalList args).bind (I.call f)
  | .op o args => (evalList args).bind (I.node o)

/-- The values of an operand list, if all operands have one. -/
def evalList : List Expr → Option (List K)
  | [] => some []
  | a :: as => (eval a).bind fun x => (evalList as).map (x :: ·)
end

variable {I} {a b : Expr} {f : String} {o : Operator} {args as bs : List Expr} {x y z : K}
  {xs : List K}

theorem evalList_eq_some_iff :
    I.evalList as = some xs ↔ List.Forall₂ (fun a x => I.eval a = some x) as xs := by
  induction as generalizing xs with
  | nil => simp [evalList, eq_comm]
  | cons a as ih =>
    rw [evalList, List.forall₂_cons_left_iff]
    simp only [Option.bind_eq_some_iff, Option.map_eq_some_iff, ih]
    exact ⟨fun ⟨x, hx, ys, hys, e⟩ => ⟨x, ys, hx, hys, e.symm⟩,
      fun ⟨x, ys, hx, hys, e⟩ => ⟨x, hx, ys, hys, e.symm⟩⟩

theorem eval_op_eq_some_iff : I.eval (.op o args) = some x ↔
    ∃ xs, List.Forall₂ (fun a x => I.eval a = some x) args xs ∧ I.node o xs = some x := by
  rw [eval, Option.bind_eq_some_iff]
  simp only [evalList_eq_some_iff]

theorem eval_call_eq_some_iff : I.eval (.call f args) = some x ↔
    ∃ xs, List.Forall₂ (fun a x => I.eval a = some x) args xs ∧ I.call f xs = some x := by
  rw [eval, Option.bind_eq_some_iff]
  simp only [evalList_eq_some_iff]

/-! ## 3. The nodes -/

/-- The values of a list add up. -/
def SumsTo (I : Interpretation K) (as : List Expr) (x : K) : Prop :=
  Folds (fun a x => I.eval a = some x) (· + ·) 0 as x

/-- The values of a list multiply. -/
def MultipliesTo (I : Interpretation K) (as : List Expr) (x : K) : Prop :=
  Folds (fun a x => I.eval a = some x) (· * ·) 1 as x

theorem sumsTo_singleton : I.SumsTo [a] x ↔ I.eval a = some x := Folds.singleton_iff

theorem multipliesTo_singleton : I.MultipliesTo [a] x ↔ I.eval a = some x := Folds.singleton_iff

/-- A node with two operands or more, whose values are folded. -/
theorem eval_many_iff {fold : K → K → K} {unit : K} (none : I.node o [] = none)
    (one : ∀ x, I.node o [x] = Option.none)
    (many : ∀ x y zs, I.node o (x :: y :: zs) = some ((x :: y :: zs).foldr fold unit)) :
    I.eval (.op o args) = some x ↔
      2 ≤ args.length ∧ Folds (fun a x => I.eval a = some x) fold unit args x := by
  rw [eval_op_eq_some_iff, folds_iff_forall₂]
  constructor
  · rintro ⟨xs, hxs, hx⟩
    rw [hxs.length_eq]
    match xs, hx with
    | [], hx => cases none.symm.trans hx
    | [y], hx => cases (one y).symm.trans hx
    | y :: z :: zs, hx =>
      exact ⟨by simp, _, hxs, Option.some.inj (hx.symm.trans (many y z zs))⟩
  · rintro ⟨len, xs, hxs, rfl⟩
    rw [hxs.length_eq] at len
    match xs, len, hxs with
    | y :: z :: zs, _, hxs => exact ⟨_, hxs, many y z zs⟩

theorem eval_add_iff : I.eval (.op .add args) = some x ↔ 2 ≤ args.length ∧ I.SumsTo args x :=
  eval_many_iff rfl (fun _ => rfl) fun _ _ _ => rfl

theorem eval_mul_iff :
    I.eval (.op .mul args) = some x ↔ 2 ≤ args.length ∧ I.MultipliesTo args x :=
  eval_many_iff rfl (fun _ => rfl) fun _ _ _ => rfl

/-- A node with two operands. -/
theorem eval_two_iff : I.eval (.op o [a, b]) = some z ↔
    ∃ x y, I.eval a = some x ∧ I.eval b = some y ∧ I.node o [x, y] = some z := by
  rw [eval_op_eq_some_iff]
  constructor
  · rintro ⟨xs, hxs, h⟩
    obtain ⟨x, _, hx, hrest, rfl⟩ := List.forall₂_cons_left_iff.mp hxs
    obtain ⟨y, _, hy, hnil, rfl⟩ := List.forall₂_cons_left_iff.mp hrest
    cases List.forall₂_nil_left_iff.mp hnil
    exact ⟨x, y, hx, hy, h⟩
  · rintro ⟨x, y, hx, hy, h⟩
    exact ⟨[x, y], .cons hx (.cons hy .nil), h⟩

/-- A node with one operand. -/
theorem eval_one_iff : I.eval (.op o [a]) = some z ↔
    ∃ x, I.eval a = some x ∧ I.node o [x] = some z := by
  rw [eval_op_eq_some_iff]
  constructor
  · rintro ⟨xs, hxs, h⟩
    obtain ⟨x, _, hx, hnil, rfl⟩ := List.forall₂_cons_left_iff.mp hxs
    cases List.forall₂_nil_left_iff.mp hnil
    exact ⟨x, hx, h⟩
  · rintro ⟨x, hx, h⟩
    exact ⟨[x], .cons hx .nil, h⟩

theorem eval_pow_iff : I.eval (.op .pow [a, b]) = some z ↔
    ∃ x y, I.eval a = some x ∧ I.eval b = some y ∧ I.powers.pow x y = some z := eval_two_iff

/-- A power with a numeric exponent. -/
theorem eval_pow_num_iff {e : Coefficient} : I.eval (.op .pow [a, .num e]) = some z ↔
    ∃ x, I.eval a = some x ∧ I.powers.pow x (e.toRat : K) = some z := by
  rw [eval_pow_iff]
  exact ⟨fun ⟨x, y, hx, hy, h⟩ => ⟨x, hx, Option.some.inj hy ▸ h⟩, fun ⟨x, hx, h⟩ => ⟨x, _, hx, rfl, h⟩⟩

end Interpretation

/-- **The interpretations in the rational numbers with integer powers only.** -/
def Interpretation.ofIntegerPowers (var : String → Option ℚ) (call : String → List ℚ → Option ℚ)
    (subscript : ℚ → ℚ → Option ℚ) (prime : ℚ → Option ℚ) : Interpretation ℚ :=
  ⟨var, call, subscript, prime, Powers.integers⟩

/-- The interpretation in which names, calls, subscripts and primes have no values. -/
def Interpretation.bare : Interpretation ℚ :=
  .ofIntegerPowers (fun _ => none) (fun _ _ => none) (fun _ _ => none) fun _ => none

end Eliminant
