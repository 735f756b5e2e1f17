import Eliminant.Proofs.Expr.Constant
import Eliminant.Proofs.Expr.Factor
import Eliminant.Proofs.Expr.Parts

/-!
# Constants are evaluated and folded to the same numbers

There are two ways to the number that a closed expression stands for: it is evaluated
(`Expr.constant?`), or it is normalized, which folds numbers on the way. They take different shortcuts for
the powers of `0`, `1` and `-1`, and both leave large powers alone.

* `Expr.constant?_op`: a node is evaluated from the numbers of its operands (`Expr.nodeConstant?`);
* `Expr.nodeNormal_numbers`: on numbers, the normal form of a node is that number, large powers of `0` and
  `-1` apart;
* **`Expr.constants_agree`**: so the two agree, and they agree with the value; and every closed expression
  that divides by nothing that is zero, with small exponents only, is evaluated.
-/

namespace Eliminant

/-! ## 1. Powers of numbers -/

namespace Coefficient

variable {b c e : Coefficient} {n : ℤ}

/-- A large power is evaluated of `0`, `1` and `-1` only. -/
theorem base_of_powConstant? (h : b.powConstant? n = some c) :
    b.toRat = 1 ∨ (b.toRat = 0 ∨ b.toRat = -1) ∨ n.natAbs ≤ maxFoldedExponent := by
  unfold powConstant? at h
  split at h
  · rename_i fixed
    rw [Bool.or_eq_true, Bool.and_eq_true, isOne_iff_toRat, isZero_iff_toRat] at fixed
    exact fixed.imp_right fun zero => .inl (.inl zero.1)
  split at h
  · rename_i minus
    rw [isOne_iff_toRat, toRat_neg] at minus
    exact .inr (.inl (.inr (by linarith)))
  split at h
  · cases h
  · rename_i small
    exact .inr (.inr (not_lt.mp small))

/-- **A small power is evaluated**, if it exists. -/
theorem exists_powConstant? (defined : b.toRat ≠ 0 ∨ 0 ≤ n) (small : n.natAbs ≤ maxFoldedExponent) :
    ∃ c, b.powConstant? n = some c := by
  unfold powConstant?
  split
  · exact ⟨_, rfl⟩
  split
  · exact ⟨_, rfl⟩
  rw [if_neg (not_lt.mpr small)]
  split
  · exact ⟨_, rfl⟩
  · rename_i negative
    have nonzero : b.isZero = false := (isZero_eq_false_iff b).mpr (defined.resolve_right negative)
    obtain ⟨i, inverse, -⟩ := exists_inv nonzero
    rw [inverse]
    exact ⟨_, rfl⟩

end Coefficient

namespace Expr

variable {a : Expr} {as : List Expr} {o : Operator} {b c e : Coefficient} {cs : List Coefficient} {n : ℤ}

/-- A power of numbers whose exponent is not `0` is multiplied out if it is small, or one of `1`. -/
theorem numericPower_number (word : e.toWord? = some n) (some : n ≠ 0) (defined : b.toRat ≠ 0 ∨ 0 ≤ n)
    (small : b.toRat = 1 ∨ n.natAbs ≤ maxFoldedExponent) :
    ∃ d, numericPower b e = .ok (num d) ∧ d.toRat = b.toRat ^ n := by
  unfold numericPower
  split
  · rename_i one
    rw [Coefficient.isOne_iff_toRat] at one
    exact ⟨_, rfl, by rw [Coefficient.toRat_one, one, one_zpow]⟩
  · rename_i other
    rw [Coefficient.isOne_iff_toRat] at other
    have small : n.natAbs ≤ maxFoldedExponent := small.resolve_left other
    have inside : n ≠ -9223372036854775808 := by
      rintro rfl
      exact absurd small (by decide)
    rw [word]
    dsimp only
    rw [if_neg inside, if_neg (not_lt.mpr small)]
    split
    · rename_i positive
      refine ⟨_, rfl, ?_⟩
      rw [Coefficient.toRat_pow, ← zpow_natCast, Int.natAbs_of_nonneg positive.le]
    · rename_i negative
      have nonzero : b.isZero = false :=
        (Coefficient.isZero_eq_false_iff b).mpr (defined.resolve_right (by omega))
      obtain ⟨i, inverse, value⟩ := Coefficient.exists_inv nonzero
      rw [inverse]
      refine ⟨_, rfl, ?_⟩
      rw [Coefficient.toRat_pow, value, inv_pow, ← zpow_natCast, ← zpow_neg]
      congr 1
      omega

/-- **The power of a number**, as far as it is evaluated, is its normal form. -/
theorem powerNormal_numbers (word : e.toWord? = some n) (h : b.powConstant? n = some c)
    (small : b.toRat = 0 ∨ b.toRat = -1 → n.natAbs ≤ maxFoldedExponent) :
    powerNormal (num b) (num e) = .ok (num c) := by
  obtain ⟨defined, value⟩ := Coefficient.toRat_of_powConstant? h
  have exponent := Coefficient.toRat_of_toWord? word
  suffices found : ∃ d, powerNormal (num b) (num e) = .ok (num d) ∧ d.toRat = b.toRat ^ n by
    obtain ⟨d, run, same⟩ := found
    rw [run, Coefficient.toRat_injective (same.trans value.symm)]
  show ∃ d, powerOf 1 (num b) e = .ok (num d) ∧ _
  rw [powerOf]
  split
  · rename_i zero
    rw [Coefficient.isZero_iff_toRat, exponent, Int.cast_eq_zero] at zero
    exact ⟨_, rfl, by rw [zero, zpow_zero, Coefficient.toRat_one]⟩
  split
  · rename_i one
    rw [Coefficient.isOne_iff_toRat, exponent, Int.cast_eq_one] at one
    exact ⟨_, rfl, by rw [one, zpow_one]⟩
  · rename_i zero _
    rw [Coefficient.isZero_iff_toRat, exponent, Int.cast_eq_zero] at zero
    refine numericPower_number word zero defined ?_
    exact (Coefficient.base_of_powConstant? h).imp_right fun rest => rest.elim small id

/-! ## 2. Sums and products of numbers -/

theorem flatten_numbers (o : Operator) : ∀ cs : List Coefficient, flatten o (cs.map num) = cs.map num
  | [] => rfl
  | c :: cs => congrArg (num c :: ·) (flatten_numbers o cs)

theorem likeTerms_numbers (cs : List Coefficient) : likeTerms (cs.map num) = [] := by
  unfold likeTerms
  rw [List.foldl_map, List.foldl_fixed]

theorem likeFactors_numbers (cs : List Coefficient) : likeFactors (cs.map num) = [] := by
  unfold likeFactors
  rw [List.foldl_map, List.foldl_fixed]

/-- **Numbers are added up.** -/
theorem sumNormal_numbers (cs : List Coefficient) :
    sumNormal (cs.map num) = num (cs.foldl (· + ·) .zero) := by
  have total : constantPart (cs.map num) = cs.foldl (· + ·) .zero := List.foldl_map
  unfold sumNormal
  dsimp only
  rw [flatten_numbers, likeTerms_numbers, total]
  generalize cs.foldl (· + ·) .zero = s
  dsimp only [List.filterMap_nil, List.nil_append]
  split_ifs with zero
  · rw [(Coefficient.isZero_iff s).mp zero]
    rfl
  · rfl

/-- **Numbers are multiplied.** -/
theorem productNormal_numbers (cs : List Coefficient) :
    productNormal (cs.map num) = .ok (num (cs.foldl (· * ·) .one)) := by
  have total : numericPart (cs.map num) = cs.foldl (· * ·) .one := List.foldl_map
  unfold productNormal productWith
  dsimp only
  rw [flatten_numbers, likeFactors_numbers, total]
  generalize cs.foldl (· * ·) .one = s
  have unit : s * numericPart [] = s := Coefficient.toRat_injective (by
    rw [Coefficient.toRat_mul, show numericPart [] = .one from rfl, Coefficient.toRat_one, mul_one])
  cases zero : s.isZero with
  | true =>
    rw [(Coefficient.isZero_iff s).mp zero]
    rfl
  | false =>
    show (if (s * numericPart []).isZero then _ else pure (num (s * numericPart []))) = _
    rw [unit, if_neg (by rw [zero]; decide)]
    rfl

/-! ## 3. Nodes -/

/-- The number of a node whose operands are numbers. -/
def nodeConstant? : Operator → List Coefficient → Option Coefficient
  | .add, b :: c :: cs => some ((b :: c :: cs).foldl (· + ·) .zero)
  | .mul, b :: c :: cs => some ((b :: c :: cs).foldl (· * ·) .one)
  | .sub, [b, c] => some (b - c)
  | .neg, [b] => some (-b)
  | .div, [b, c] => (b.div c).toOption
  | .pow, [b, e] => do b.powConstant? (← e.toWord?)
  | _, _ => none

/-- Operands that are evaluated to numbers. -/
abbrev Constants : List Expr → List Coefficient → Prop := List.Forall₂ fun a c => a.constant? = some c

/-- Operands are evaluated one after the other, and their numbers are folded on the way. -/
theorem foldConstants_iff {f : Coefficient → Coefficient → Coefficient}
    {g : List Expr → Coefficient → Option Coefficient} (nil : ∀ s, g [] s = some s)
    (cons : ∀ a as s, g (a :: as) s = a.constant?.bind fun d => g as (f s d)) :
    ∀ {as : List Expr} {s c : Coefficient}, g as s = some c ↔ ∃ cs, Constants as cs ∧ cs.foldl f s = c
  | [], s, c => by simp [nil]
  | a :: as, s, c => by
    rw [cons, Option.bind_eq_some_iff]
    simp only [foldConstants_iff nil cons, List.forall₂_cons_left_iff]
    constructor
    · rintro ⟨d, first, cs, later, total⟩
      exact ⟨d :: cs, ⟨d, cs, first, later, rfl⟩, total⟩
    · rintro ⟨_, ⟨d, cs, first, later, rfl⟩, total⟩
      exact ⟨d, first, cs, later, total⟩

theorem sumConstants?_iff {s : Coefficient} :
    sumConstants? as s = some c ↔ ∃ cs, Constants as cs ∧ cs.foldl (· + ·) s = c :=
  foldConstants_iff (fun _ => by rw [sumConstants?]) fun _ _ _ => by rw [sumConstants?, Option.bind_eq_bind]

theorem mulConstants?_iff {s : Coefficient} :
    mulConstants? as s = some c ↔ ∃ cs, Constants as cs ∧ cs.foldl (· * ·) s = c :=
  foldConstants_iff (fun _ => by rw [mulConstants?]) fun _ _ _ => by rw [mulConstants?, Option.bind_eq_bind]

/-- Two operands and their numbers. -/
theorem exists_of_constants_pair (h : Constants as [b, c]) :
    ∃ a d, as = [a, d] ∧ a.constant? = some b ∧ d.constant? = some c := by
  obtain ⟨a, _, first, later, rfl⟩ := List.forall₂_cons_right_iff.mp h
  obtain ⟨d, _, second, none, rfl⟩ := List.forall₂_cons_right_iff.mp later
  cases List.forall₂_nil_right_iff.mp none
  exact ⟨a, d, rfl, first, second⟩

/-- Two operands that are evaluated one after the other. -/
theorem exists_of_bind_pair {d : Expr} {f : Coefficient → Coefficient → Option Coefficient}
    (h : (do f (← a.constant?) (← d.constant?)) = some c) :
    ∃ m n, Constants [a, d] [m, n] ∧ f m n = some c := by
  obtain ⟨m, first, h⟩ := Option.bind_eq_some_iff.mp h
  obtain ⟨n, second, h⟩ := Option.bind_eq_some_iff.mp h
  exact ⟨m, n, .cons first (.cons second .nil), h⟩

/-- **A node is evaluated from the numbers of its operands.** -/
theorem constant?_op :
    (op o as).constant? = some c ↔ ∃ cs, Constants as cs ∧ nodeConstant? o cs = some c := by
  constructor
  · intro h
    unfold constant? at h
    split at h
    · cases ‹op o as = _›
    · cases ‹op o as = _›
    · cases ‹op o as = _›
    · rename_i a b rest same
      cases same
      obtain ⟨cs, values, rfl⟩ := sumConstants?_iff.mp h
      refine ⟨cs, values, ?_⟩
      cases values with
      | cons _ later => cases later with
        | cons _ _ => rfl
    · rename_i a b rest same
      cases same
      obtain ⟨cs, values, rfl⟩ := mulConstants?_iff.mp h
      refine ⟨cs, values, ?_⟩
      cases values with
      | cons _ later => cases later with
        | cons _ _ => rfl
    · rename_i a b same
      cases same
      obtain ⟨m, n, values, h⟩ := exists_of_bind_pair h
      exact ⟨[m, n], values, h⟩
    · rename_i a same
      cases same
      obtain ⟨m, hm, h⟩ := Option.bind_eq_some_iff.mp h
      exact ⟨[m], .cons hm .nil, h⟩
    · rename_i a b same
      cases same
      obtain ⟨m, n, values, h⟩ := exists_of_bind_pair h
      exact ⟨[m, n], values, h⟩
    · rename_i a b same
      cases same
      obtain ⟨m, n, values, h⟩ := exists_of_bind_pair h
      exact ⟨[m, n], values, h⟩
    · cases h
  · rintro ⟨cs, values, h⟩
    unfold nodeConstant? at h
    split at h
    · obtain ⟨a, _, ha, later, rfl⟩ := List.forall₂_cons_right_iff.mp values
      obtain ⟨b, rest, hb, later, rfl⟩ := List.forall₂_cons_right_iff.mp later
      rw [constant?, sumConstants?_iff]
      exact ⟨_, values, Option.some.inj h⟩
    · obtain ⟨a, _, ha, later, rfl⟩ := List.forall₂_cons_right_iff.mp values
      obtain ⟨b, rest, hb, later, rfl⟩ := List.forall₂_cons_right_iff.mp later
      rw [constant?, mulConstants?_iff]
      exact ⟨_, values, Option.some.inj h⟩
    · obtain ⟨a, b, rfl, ha, hb⟩ := exists_of_constants_pair values
      rw [constant?, ha, hb]
      exact h
    · obtain ⟨a, _, ha, later, rfl⟩ := List.forall₂_cons_right_iff.mp values
      cases later
      rw [constant?, ha]
      exact h
    · obtain ⟨a, b, rfl, ha, hb⟩ := exists_of_constants_pair values
      rw [constant?, ha, hb]
      exact h
    · obtain ⟨a, b, rfl, ha, hb⟩ := exists_of_constants_pair values
      rw [constant?, ha, hb]
      exact h
    · cases h

mutual
/-- **Induction over what is evaluated**: numbers, and nodes whose operands are evaluated. -/
theorem constant?_induction {P : Expr → Coefficient → Prop} (number : ∀ c, P (num c) c)
    (node : ∀ {o as cs c}, List.Forall₂ (fun a c => a.constant? = some c ∧ P a c) as cs →
      nodeConstant? o cs = some c → P (op o as) c) : ∀ a c, a.constant? = some c → P a c
  | num _, _, h => by
    cases h
    exact number _
  | var _, _, h => by simp [constant?] at h
  | call .., _, h => by simp [constant?] at h
  | op _ as, _, h => by
    obtain ⟨cs, values, total⟩ := constant?_op.mp h
    exact node (constants_induction number node as cs values) total

theorem constants_induction {P : Expr → Coefficient → Prop} (number : ∀ c, P (num c) c)
    (node : ∀ {o as cs c}, List.Forall₂ (fun a c => a.constant? = some c ∧ P a c) as cs →
      nodeConstant? o cs = some c → P (op o as) c) : ∀ as cs, Constants as cs →
      List.Forall₂ (fun a c => a.constant? = some c ∧ P a c) as cs
  | [], _, .nil => .nil
  | a :: as, c :: cs, .cons first later =>
    .cons ⟨first, constant?_induction number node a c first⟩ (constants_induction number node as cs later)
end

/-- A node that has a number has as many operands as its operator takes, and it is arithmetic. -/
theorem accepts_of_nodeConstant? (h : nodeConstant? o cs = some c) :
    o.accepts cs.length = true ∧ o ≠ .subscript ∧ o ≠ .prime := by
  unfold nodeConstant? at h
  split at h
  · exact ⟨by simp [Operator.accepts, Operator.arity], nofun, nofun⟩
  · exact ⟨by simp [Operator.accepts, Operator.arity], nofun, nofun⟩
  · exact ⟨rfl, nofun, nofun⟩
  · exact ⟨rfl, nofun, nofun⟩
  · exact ⟨rfl, nofun, nofun⟩
  · exact ⟨rfl, nofun, nofun⟩
  · cases h

theorem productNormal_minusOne (b : Coefficient) : productNormal [minusOne, num b] = .ok (num (-b)) := by
  refine (productNormal_numbers [.ofInt (-1), b]).trans (congrArg (Except.ok ∘ num) ?_)
  refine Coefficient.toRat_injective ?_
  simp only [List.foldl_cons, List.foldl_nil, Coefficient.toRat_mul, Coefficient.toRat_neg,
    Coefficient.toRat_one, Coefficient.toRat_ofInt]
  ring

/-- **The normal form of a node on numbers** is its number, unless it is a large power of `0` or `-1`. -/
theorem nodeNormal_numbers (h : nodeConstant? o cs = some c)
    (small : ∀ b e, o = .pow → cs = [b, e] → b.toRat = 0 ∨ b.toRat = -1 →
      |e.toRat| ≤ maxFoldedExponent) :
    nodeNormal o (cs.map num) = .ok (num c) := by
  unfold nodeConstant? at h
  split at h
  · cases h
    exact congrArg Except.ok (sumNormal_numbers _)
  · cases h
    exact productNormal_numbers _
  · rename_i b d
    cases h
    show (do return sumNormal [num b, ← productNormal [minusOne, num d]]) = _
    rw [productNormal_minusOne]
    refine congrArg Except.ok ((sumNormal_numbers [b, -d]).trans (congrArg num ?_))
    refine Coefficient.toRat_injective ?_
    simp only [List.foldl_cons, List.foldl_nil, Coefficient.toRat_add, Coefficient.toRat_neg,
      Coefficient.toRat_sub, Coefficient.toRat_zero]
    ring
  · cases h
    exact productNormal_minusOne _
  · rename_i b d
    cases quotient : b.div d with
    | error e =>
      rw [quotient] at h
      cases h
    | ok q =>
      rw [quotient] at h
      cases h
      obtain ⟨nonzero, value⟩ := Coefficient.toRat_of_div quotient
      have word : (Coefficient.ofInt (-1)).toWord? = some (-1) :=
        Coefficient.toWord?_iff.mpr ⟨by decide, Coefficient.toRat_ofInt _⟩
      obtain ⟨i, power⟩ := Coefficient.exists_powConstant? (n := -1) (Or.inl nonzero) (by decide)
      have inverse := (Coefficient.toRat_of_powConstant? power).2
      show (do productNormal [num b, ← powerNormal (num d) minusOne]) = _
      rw [minusOne, int, powerNormal_numbers word power fun _ => by decide]
      refine (productNormal_numbers [b, i]).trans (congrArg (Except.ok ∘ num) ?_)
      refine Coefficient.toRat_injective ?_
      simp only [List.foldl_cons, List.foldl_nil, Coefficient.toRat_mul, Coefficient.toRat_one, value,
        inverse, zpow_neg_one]
      ring
  · rename_i b e
    obtain ⟨n, word, power⟩ := Option.bind_eq_some_iff.mp h
    refine powerNormal_numbers word power fun base => ?_
    have bound := small b e rfl rfl base
    rw [Coefficient.toRat_of_toWord? word, ← Int.cast_abs, Int.abs_eq_natAbs] at bound
    exact_mod_cast bound
  · cases h

/-! ## 4. Closed expressions -/

theorem isPart_num {p : Expr} : IsPart p (num c) ↔ p = num c :=
  ⟨fun h => by cases h; rfl, fun h => h ▸ .self⟩

theorem isPart_op {p : Expr} : IsPart p (op o as) ↔ p = op o as ∨ ∃ a ∈ as, IsPart p a := by
  constructor
  · intro h
    cases h with
    | self => exact .inl rfl
    | operand mem part => exact .inr ⟨_, mem, part⟩
  · rintro (rfl | ⟨a, mem, part⟩)
    · exact .self
    · exact .operand mem part

/-- **An arithmetic expression** is made of numbers, sums, differences, products, quotients, negations and
    powers. -/
def Arithmetic (a : Expr) : Prop :=
  ∀ p, IsPart p a → (∃ c, p = num c) ∨ ∃ o as, p = op o as ∧ o ≠ .subscript ∧ o ≠ .prime

/-- **A large power of `0` or `-1`**: one is evaluated, but it is not multiplied out. -/
def HasLargePower (a : Expr) : Prop :=
  ∃ b e x n, IsPart (op .pow [b, e]) a ∧ Interpretation.bare.eval b = some x ∧ (x = 0 ∨ x = -1) ∧
    Interpretation.bare.eval e = some n ∧ maxFoldedExponent < |n|

/-- **An expression that can be calculated**: no part divides by zero, and all exponents are small integers
    that are not negative where the base is zero. -/
structure Calculable (a : Expr) : Prop where
  wellFormed : a.malformed? = none
  arithmetic : a.Arithmetic
  divisor : ∀ b d, IsPart (op .div [b, d]) a → Interpretation.bare.eval d ≠ some 0
  exponent : ∀ b e, IsPart (op .pow [b, e]) a →
    ∃ n : ℤ, Interpretation.bare.eval e = some (n : ℚ) ∧ |n| ≤ maxFoldedExponent ∧
      (Interpretation.bare.eval b = some 0 → 0 ≤ n)

/-- The operands of an expression that can be calculated can be calculated. -/
theorem Calculable.operand (h : Calculable (op o as)) (mem : a ∈ as) : Calculable a where
  wellFormed := (malformed?_op.mp h.wellFormed).2 a mem
  arithmetic p part := h.arithmetic p (.operand mem part)
  divisor b d part := h.divisor b d (.operand mem part)
  exponent b e part := h.exponent b e (.operand mem part)

/-- What can be calculated has no large power. -/
theorem Calculable.not_hasLargePower (h : a.Calculable) : ¬ a.HasLargePower := by
  rintro ⟨b, e, x, y, part, -, -, value, large⟩
  obtain ⟨n, same, small, -⟩ := h.exponent b e part
  cases same.symm.trans value
  exact absurd small (not_le.mpr (by exact_mod_cast large))

/-- An expression that is evaluated has its number for a value. -/
theorem bare_of_constant? (h : a.constant? = some c) : Interpretation.bare.eval a = some c.toRat := by
  rw [eval_of_constant? a h, Rat.cast_id]

/-- What is evaluated is arithmetic. -/
theorem arithmetic_of_constant? (h : a.constant? = some c) : a.Arithmetic := by
  refine constant?_induction (P := fun a _ => a.Arithmetic) (fun d p part => ?_) ?_ a c h
  · cases part
    exact .inl ⟨d, rfl⟩
  · intro o as cs c values number p part
    cases part with
    | self => exact .inr ⟨o, as, rfl, (accepts_of_nodeConstant? number).2⟩
    | operand mem part =>
      obtain ⟨-, -, -, arithmetic⟩ := exists_of_mem_forall₂_left values mem
      exact arithmetic p part

/-- What is evaluated is well formed. -/
theorem malformed?_of_constant? (h : a.constant? = some c) : a.malformed? = none := by
  refine constant?_induction (P := fun a _ => a.malformed? = none) (fun _ => rfl) ?_ a c h
  intro o as cs c values number
  rw [malformed?_op, values.length_eq]
  refine ⟨(accepts_of_nodeConstant? number).1, fun a mem => ?_⟩
  obtain ⟨-, -, -, wellFormed⟩ := exists_of_mem_forall₂_left values mem
  exact wellFormed

theorem normalizeList_numbers (h : List.Forall₂ (fun a c => a.normalize = .ok (num c)) as cs) :
    normalizeList as = .ok (cs.map num) := by
  induction h with
  | nil => rfl
  | cons first _ ih =>
    rw [normalizeList, first, ih]
    rfl

/-- **What is evaluated is folded to the same number.** -/
theorem normalize_of_constant? (h : a.constant? = some c) :
    ¬ a.HasLargePower → a.normalize = .ok (num c) := by
  refine constant?_induction (P := fun a c => ¬ a.HasLargePower → a.normalize = .ok (num c))
    (fun c _ => by rw [normalize]) ?_ a c h
  intro o as cs c values number small
  have below : ∀ a ∈ as, ¬ a.HasLargePower := fun a mem ⟨b, e, x, n, part, large⟩ =>
    small ⟨b, e, x, n, .operand mem part, large⟩
  have operands : normalizeList as = .ok (cs.map num) := normalizeList_numbers
    ((List.forall₂_and_left as cs |>.mpr ⟨below, values⟩).imp fun _ _ h => h.2.2 h.1)
  rw [normalize_op operands (by rw [List.length_map]; exact (accepts_of_nodeConstant? number).1)]
  refine nodeNormal_numbers number ?_
  rintro b e rfl rfl base
  obtain ⟨d, f, rfl, first, second⟩ := exists_of_constants_pair (values.imp fun _ _ => And.left)
  exact not_lt.mp fun large =>
    small ⟨d, f, _, _, .self, bare_of_constant? first, base, bare_of_constant? second, large⟩

theorem exists_two_of_accepts (h : decide (2 ≤ cs.length) = true) : ∃ b c ds, cs = b :: c :: ds := by
  match cs, of_decide_eq_true h with
  | b :: c :: ds, _ => exact ⟨b, c, ds, rfl⟩

/-- The number of a node that can be calculated. -/
theorem exists_nodeConstant? (h : Calculable (op o as)) (values : Constants as cs) :
    ∃ c, nodeConstant? o cs = some c := by
  have many := (malformed?_op.mp h.wellFormed).1
  rw [values.length_eq] at many
  obtain ⟨d, same⟩ | ⟨p, bs, same, subscript, prime⟩ := h.arithmetic _ .self
  · cases same
  cases same
  cases o with
  | add =>
    obtain ⟨b, c, cs, rfl⟩ := exists_two_of_accepts many
    exact ⟨_, rfl⟩
  | mul =>
    obtain ⟨b, c, cs, rfl⟩ := exists_two_of_accepts many
    exact ⟨_, rfl⟩
  | sub =>
    obtain ⟨b, c, rfl⟩ := List.length_eq_two.mp (eq_of_beq many).symm
    exact ⟨_, rfl⟩
  | neg =>
    obtain ⟨b, rfl⟩ := List.length_eq_one_iff.mp (eq_of_beq many).symm
    exact ⟨_, rfl⟩
  | subscript => exact absurd rfl subscript
  | prime => exact absurd rfl prime
  | div =>
    obtain ⟨n, d, rfl⟩ := List.length_eq_two.mp (eq_of_beq many).symm
    obtain ⟨a, b, rfl, -, second⟩ := exists_of_constants_pair values
    have nonzero : d.toRat ≠ 0 := fun zero =>
      h.divisor a b .self (by rw [bare_of_constant? second, zero])
    obtain ⟨q, run, -⟩ := Coefficient.exists_div n ((Coefficient.isZero_eq_false_iff d).mpr nonzero)
    exact ⟨q, by rw [nodeConstant?, run]; rfl⟩
  | pow =>
    obtain ⟨x, y, rfl⟩ := List.length_eq_two.mp (eq_of_beq many).symm
    obtain ⟨a, b, rfl, first, second⟩ := exists_of_constants_pair values
    obtain ⟨n, value, small, natural⟩ := h.exponent a b .self
    have value : y.toRat = n := Option.some.inj ((bare_of_constant? second).symm.trans value)
    have small : n.natAbs ≤ maxFoldedExponent := by
      rw [Int.abs_eq_natAbs] at small
      exact_mod_cast small
    have inside : InWord n := by
      have : n.natAbs ≤ 4096 := small
      unfold InWord
      omega
    have defined : x.toRat ≠ 0 ∨ 0 ≤ n := or_iff_not_imp_left.mpr fun zero =>
      natural (by rw [bare_of_constant? first, not_not.mp zero])
    obtain ⟨c, power⟩ := Coefficient.exists_powConstant? defined small
    refine ⟨c, ?_⟩
    rw [nodeConstant?, Coefficient.toWord?_iff.mpr ⟨inside, value⟩]
    exact power

mutual
/-- **What can be calculated is evaluated.** -/
theorem Calculable.exists_constant? : ∀ (a : Expr), a.Calculable → ∃ c, a.constant? = some c
  | num c, _ => ⟨c, rfl⟩
  | var x, h => by
    obtain ⟨d, same⟩ | ⟨p, bs, same, -⟩ := h.arithmetic _ .self <;> cases same
  | call f as, h => by
    obtain ⟨d, same⟩ | ⟨p, bs, same, -⟩ := h.arithmetic _ .self <;> cases same
  | op o as, h => by
    obtain ⟨cs, values⟩ := Calculable.exists_constants as fun a mem => h.operand mem
    obtain ⟨c, number⟩ := exists_nodeConstant? h values
    exact ⟨c, constant?_op.mpr ⟨cs, values, number⟩⟩

theorem Calculable.exists_constants : ∀ (as : List Expr), (∀ a ∈ as, a.Calculable) →
    ∃ cs, Constants as cs
  | [], _ => ⟨[], .nil⟩
  | a :: as, h => by
    obtain ⟨c, first⟩ := Calculable.exists_constant? a (h a List.mem_cons_self)
    obtain ⟨cs, later⟩ := Calculable.exists_constants as fun b mem => h b (List.mem_cons_of_mem a mem)
    exact ⟨c :: cs, .cons first later⟩
end

/-- **Evaluation and normalization agree**: an expression that is evaluated has that number as its value in
    every interpretation, it is arithmetic and well formed, and that number is its normal form, large powers
    of `0` and `-1` apart. Every expression that can be calculated is evaluated. -/
theorem constants_agree (a : Expr) :
    (∀ c, a.constant? = some c →
      (∀ {K : Type} [Field K] [LinearOrder K] [IsStrictOrderedRing K] (I : Interpretation K),
        I.eval a = some (c.toRat : K)) ∧
      a.Arithmetic ∧ a.malformed? = none ∧ (¬ a.HasLargePower → a.normalize = .ok (num c))) ∧
    (a.Calculable → ∃ c, a.constant? = some c) :=
  ⟨fun _ h => ⟨fun _ => eval_of_constant? a h, arithmetic_of_constant? h, malformed?_of_constant? h,
    normalize_of_constant? h⟩, Calculable.exists_constant? a⟩

/-- The quotient `6 / (-1) ^ 3` is evaluated to `-6`, and it is folded to `-6`. -/
theorem constants_agree_at :
    Calculable (op .div [int 6, op .pow [int (-1), int 3]]) ∧
    constant? (op .div [int 6, op .pow [int (-1), int 3]]) = some (.ofInt (-6)) ∧
    normalize (op .div [int 6, op .pow [int (-1), int 3]]) = .ok (int (-6)) := by
  have value : constant? (op .div [int 6, op .pow [int (-1), int 3]]) = some (.ofInt (-6)) := by decide
  have divisor := bare_of_constant? (a := op .pow [int (-1), int 3]) (c := .ofInt (-1)) (by decide)
  have exponent := bare_of_constant? (a := int 3) rfl
  have sound : Calculable (op .div [int 6, op .pow [int (-1), int 3]]) := by
    refine ⟨rfl, arithmetic_of_constant? value, ?_, ?_⟩
    · intro b d part
      obtain ⟨rfl, rfl⟩ : b = int 6 ∧ d = op .pow [int (-1), int 3] := by
        simpa [int, isPart_op, isPart_num] using part
      rw [divisor]
      simp
    · intro b e part
      obtain ⟨rfl, rfl⟩ : b = int (-1) ∧ e = int 3 := by
        simpa [int, isPart_op, isPart_num] using part
      exact ⟨3, by rw [exponent]; simp, by decide, fun _ => by decide⟩
  obtain ⟨c, run⟩ := (constants_agree _).2 sound
  cases value.symm.trans run
  exact ⟨sound, value, ((constants_agree _).1 _ value).2.2.2 sound.not_hasLargePower⟩

end Expr

end Eliminant
