import Eliminant.Coefficient.Numeral
import Eliminant.Expr.Parser
import Eliminant.Proofs.Expr.Interpretation

/-!
# What has been read has the value of what was written

Reading does not restore every expression as it was: a sum in front of a later term becomes one sum with
it, a difference a sum with an opposite, two signs cancel. `Means b a` says that `b`, which has been read,
is well formed and has the value of `a` in every interpretation. Everything that the readers put together
keeps to it: nodes (`Means.node`, `Means.call`), signs (`Means.negated`), products (`Means.timesFactor`) and
sums (`Means.ofTerms`).
-/

namespace Eliminant

variable {K : Type} [Field K] [LinearOrder K] [IsStrictOrderedRing K] (I : Interpretation K)
  {a b c d : Expr} {as bs : List Expr} {o : Operator} {f : String} {n : Coefficient}

/-! ## 1. Values as functions of values -/

namespace Interpretation

theorem evalList_concat (as : List Expr) (c : Expr) : I.evalList (as ++ [c]) =
    (I.evalList as).bind fun xs => (I.eval c).map fun x => xs ++ [x] := by
  induction as with
  | nil =>
    rw [List.nil_append, evalList, evalList]
    cases I.eval c <;> rfl
  | cons a as ih =>
    rw [List.cons_append, evalList, evalList, ih]
    cases I.eval a <;> cases I.evalList as <;> cases I.eval c <;> rfl

theorem length_of_evalList {xs : List K} (h : I.evalList as = some xs) : xs.length = as.length :=
  (evalList_eq_some_iff.mp h).length_eq.symm

/-- The value of a node with two operands or more, whose values are put together by `fold`. -/
theorem eval_many {fold : List K → K}
    (node : ∀ x y zs, I.node o (x :: y :: zs) = some (fold (x :: y :: zs))) (many : 2 ≤ as.length) :
    I.eval (.op o as) = (I.evalList as).map fold := by
  rw [eval]
  cases values : I.evalList as with
  | none => rfl
  | some xs =>
    rw [← I.length_of_evalList values] at many
    cases xs with
    | nil => cases many
    | cons x xs =>
      cases xs with
      | nil => simp at many
      | cons y ys => exact node x y ys

theorem eval_mul (many : 2 ≤ as.length) : I.eval (.op .mul as) = (I.evalList as).map List.prod :=
  I.eval_many (fun _ _ _ => rfl) many

theorem eval_add (many : 2 ≤ as.length) : I.eval (.op .add as) = (I.evalList as).map List.sum :=
  I.eval_many (fun _ _ _ => rfl) many

theorem eval_neg (a : Expr) : I.eval (.op .neg [a]) = (I.eval a).map (-·) := by
  rw [eval, evalList, evalList]
  cases I.eval a <;> rfl

theorem eval_two (o : Operator) (a b : Expr) : I.eval (.op o [a, b]) =
    (I.eval a).bind fun x => (I.eval b).bind fun y => I.node o [x, y] := by
  rw [eval, evalList, evalList, evalList]
  cases I.eval a <;> cases I.eval b <;> rfl

/-- A product in front of one more factor is one product with it. -/
theorem eval_mul_concat (many : 2 ≤ as.length) (c : Expr) :
    I.eval (.op .mul (as ++ [c])) = I.eval (.op .mul [.op .mul as, c]) := by
  rw [I.eval_mul (by rw [List.length_append]; omega), eval_two, I.eval_mul many, evalList_concat]
  cases I.evalList as <;> cases I.eval c <;> simp [node]

/-- The value of the sum that reading makes of terms. -/
theorem eval_ofTerms (a : Expr) (as : List Expr) :
    I.eval (Expr.ofTerms a as) = (I.evalList (a :: as)).map List.sum := by
  unfold Expr.ofTerms
  cases as with
  | nil =>
    rw [List.isEmpty_nil, if_pos rfl, evalList, evalList]
    cases I.eval a <;> simp
  | cons b as => exact I.eval_add (by simp)

end Interpretation

namespace Expr

/-! ## 2. Well-formed expressions -/

theorem malformedList?_eq_none_iff : malformedList? as = none ↔ ∀ a ∈ as, a.malformed? = none := by
  induction as with
  | nil => simp [malformedList?]
  | cons a as ih => rw [malformedList?, Option.or_eq_none_iff, ih, List.forall_mem_cons]

theorem malformed?_call : (call f as).malformed? = none ↔ ∀ a ∈ as, a.malformed? = none := by
  rw [malformed?, malformedList?_eq_none_iff]

theorem malformed?_op : (op o as).malformed? = none ↔
    o.accepts as.length = true ∧ ∀ a ∈ as, a.malformed? = none := by
  rw [malformed?]
  split
  · rename_i accepts
    rw [malformedList?_eq_none_iff, and_iff_right accepts]
  · rename_i refuses
    exact iff_of_false nofun fun h => refuses h.1

theorem malformed?_ofTerms :
    (ofTerms a as).malformed? = none ↔ ∀ b ∈ a :: as, b.malformed? = none := by
  unfold ofTerms
  cases as with
  | nil => simp
  | cons b as => simp [malformed?_op, Operator.accepts, Operator.arity]

/-! ## 3. Reading -/

/-- Two expressions have the same value, whatever names, calls, subscripts and primes mean. -/
structure SameValue (a b : Expr) : Prop where
  value : ∀ {K : Type} [Field K] [LinearOrder K] [IsStrictOrderedRing K] (I : Interpretation K),
    I.eval a = I.eval b

/-- **`b` is well formed and has the value of `a`.** -/
structure Means (b a : Expr) : Prop where
  wellFormed : b.malformed? = none
  same : SameValue b a

namespace Means

theorem value (h : b.Means a) : I.eval b = I.eval a := h.same.value I

theorem refl (h : a.malformed? = none) : a.Means a := ⟨h, ⟨fun _ => rfl⟩⟩

theorem trans (h : b.Means a) (same : SameValue a c) : b.Means c :=
  ⟨h.wellFormed, ⟨fun I => (h.value I).trans (same.value I)⟩⟩

theorem evalList_eq (h : List.Forall₂ Means bs as) : I.evalList bs = I.evalList as := by
  induction h with
  | nil => rfl
  | cons first _ ih => rw [Interpretation.evalList, Interpretation.evalList, first.value, ih]

theorem wellFormed_of_forall₂ (h : List.Forall₂ Means bs as) : ∀ b ∈ bs, b.malformed? = none := by
  induction h with
  | nil => nofun
  | cons first _ ih => exact List.forall_mem_cons.mpr ⟨first.wellFormed, ih⟩

theorem node (accepts : o.accepts as.length = true) (h : List.Forall₂ Means bs as) :
    (op o bs).Means (op o as) := by
  refine ⟨malformed?_op.mpr ⟨h.length_eq ▸ accepts, wellFormed_of_forall₂ h⟩, ⟨fun I => ?_⟩⟩
  rw [Interpretation.eval, Interpretation.eval, evalList_eq I h]

theorem call (f : String) (h : List.Forall₂ Means bs as) : (call f bs).Means (call f as) := by
  refine ⟨malformed?_call.mpr (wellFormed_of_forall₂ h), ⟨fun I => ?_⟩⟩
  rw [Interpretation.eval, Interpretation.eval, evalList_eq I h]

/-- **A sign in front of an operand.** -/
theorem negated (h : b.Means a) : (negated b).Means (op .neg [a]) := by
  have node : (op .neg [b]).Means (op .neg [a]) := .node rfl (.cons h .nil)
  unfold Expr.negated
  split
  · refine ⟨rfl, ⟨fun I => ?_⟩⟩
    rw [← node.value, Interpretation.eval_neg]
    exact congrArg some (by simp)
  · rename_i c
    have inner := (malformed?_op.mp h.wellFormed).2 c (by simp)
    refine ⟨inner, ⟨fun I => ?_⟩⟩
    rw [← node.value, Interpretation.eval_neg, Interpretation.eval_neg]
    cases I.eval c <;> simp
  · exact node

/-- **A product and one more factor.** -/
theorem timesFactor (h : b.Means a) (h' : d.Means c) :
    (timesFactor b d).Means (op .mul [a, c]) := by
  have node : (op .mul [b, d]).Means (op .mul [a, c]) := .node rfl (.cons h (.cons h' .nil))
  unfold Expr.timesFactor
  split
  · rename_i factors
    obtain ⟨accepts, inner⟩ := malformed?_op.mp h.wellFormed
    have many : 2 ≤ factors.length := of_decide_eq_true accepts
    refine ⟨malformed?_op.mpr ⟨decide_eq_true ?_, ?_⟩, ⟨fun I => ?_⟩⟩
    · rw [List.length_append]
      omega
    · exact List.forall_mem_append.mpr ⟨inner, by simpa using h'.wellFormed⟩
    · rw [← node.value, I.eval_mul_concat many]
  · exact node

/-- **A sum of at least two terms.** -/
theorem ofTerms (h : b.Means a) (many : as ≠ []) (h' : List.Forall₂ Means bs as) :
    (ofTerms b bs).Means (op .add (a :: as)) := by
  have all : List.Forall₂ Means (b :: bs) (a :: as) := .cons h h'
  refine ⟨malformed?_ofTerms.mpr (wellFormed_of_forall₂ all), ⟨fun I => ?_⟩⟩
  have length : 2 ≤ (a :: as).length := by
    have := List.length_pos_iff.mpr many
    rw [List.length_cons]
    omega
  rw [Interpretation.eval_ofTerms, evalList_eq I all, I.eval_add length]

/-- **A sum, and another term with a minus sign.** -/
theorem ofTerms_sub (h : (Expr.ofTerms b bs).Means a) (h' : d.Means c) :
    (Expr.ofTerms b (bs ++ [Expr.negated d])).Means (op .sub [a, c]) := by
  have opposite := h'.negated
  refine ⟨malformed?_ofTerms.mpr ?_, ⟨fun I => ?_⟩⟩
  · rw [← List.cons_append]
    exact List.forall_mem_append.mpr
      ⟨malformed?_ofTerms.mp h.wellFormed, by simpa using opposite.wellFormed⟩
  · rw [I.eval_ofTerms, ← List.cons_append, I.evalList_concat, I.eval_two, ← h.value, I.eval_ofTerms,
      opposite.value, I.eval_neg]
    generalize I.evalList (b :: bs) = values
    cases values <;> cases I.eval c <;> simp [Interpretation.node, sub_eq_add_neg]

end Means

/-! ## 4. Numbers -/

theorem ofDigits_toString (n : ℕ) : ofDigits (toString n) = int n := by
  have digits : (toString n).toList = Nat.toDigits 10 n := Nat.toList_repr
  have value := Nat.ofDigitChars_eq_foldl.symm.trans (Nat.ofDigitChars_ten_toDigits (n := n))
  simp only [mul_comm] at value
  unfold ofDigits
  rw [digits]
  exact congrArg (fun m : ℕ => int m) value

/-- An integer is its value. -/
theorem int_eq {m : ℤ} (h : n.toRat = m) : int m = num n :=
  congrArg num (Coefficient.toRat_injective ((Coefficient.toRat_ofInt m).trans h.symm))

/-! ## 5. Signs and quotients -/

namespace SameValue

theorem op_right (o : Operator) (c : Expr) (h : SameValue a b) :
    SameValue (op o [c, a]) (op o [c, b]) := by
  refine ⟨fun I => ?_⟩
  rw [I.eval_two, I.eval_two, h.value I]

/-- A number is the quotient of its numerator and its denominator. -/
theorem fraction (n : Coefficient) :
    SameValue (op .div [int n.toRat.num, int n.toRat.den]) (num n) := by
  refine ⟨fun {K} _ _ _ I => ?_⟩
  have divisor : (n.toRat.den : K) ≠ 0 := Nat.cast_ne_zero.mpr n.toRat.den_nz
  rw [I.eval_two]
  show I.node .div [((Coefficient.ofInt n.toRat.num).toRat : K),
    ((Coefficient.ofInt n.toRat.den).toRat : K)] = _
  rw [Coefficient.toRat_ofInt, Coefficient.toRat_ofInt, Int.cast_natCast, Rat.cast_intCast,
    Rat.cast_natCast]
  refine (if_neg divisor).trans (congrArg some ?_)
  exact (Rat.cast_def n.toRat).symm

theorem neg_num (n : Coefficient) : SameValue (op .neg [num (-n)]) (num n) := by
  refine ⟨fun I => ?_⟩
  rw [I.eval_neg]
  refine congrArg some (Eq.trans (congrArg (-·) ?_) (neg_neg _))
  rw [Coefficient.toRat_neg, Rat.cast_neg]

theorem neg_int (k : ℤ) : SameValue (op .neg [int k]) (int (-k)) := by
  have sign : int k = num (-.ofInt (-k)) := int_eq (by
    rw [Coefficient.toRat_neg, Coefficient.toRat_ofInt, Int.cast_neg, neg_neg])
  exact sign ▸ neg_num _

theorem neg_quotient (h : SameValue (op .div [a, d]) b) :
    SameValue (op .div [op .neg [a], d]) (op .neg [b]) := by
  refine ⟨fun I => ?_⟩
  rw [I.eval_neg, ← h.value I, I.eval_two, I.eval_two, I.eval_neg]
  cases I.eval a with
  | none => rfl
  | some x =>
    cases I.eval d with
    | none => rfl
    | some y =>
      simp only [Option.map_some, Option.bind_some, Interpretation.node]
      split <;> simp [neg_div]

theorem mul_quotient (a b d : Expr) :
    SameValue (op .div [op .mul [a, b], d]) (op .mul [a, op .div [b, d]]) := by
  refine ⟨fun I => ?_⟩
  rw [I.eval_two, I.eval_two, I.eval_two, I.eval_two]
  cases I.eval a with
  | none => rfl
  | some x =>
    cases I.eval b with
    | none => rfl
    | some y =>
      cases I.eval d with
      | none => rfl
      | some z =>
        simp only [Option.bind_some, Interpretation.node, List.prod_cons, List.prod_nil, mul_one]
        split <;> simp [mul_div_assoc]

/-- The sign of the first factor is that of the product. -/
theorem neg_product (h : SameValue (op .neg [a]) b) (as : List Expr) :
    SameValue (op .neg [op .mul (a :: as)]) (op .mul (b :: as)) := by
  refine ⟨fun I => ?_⟩
  rw [I.eval_neg, Interpretation.eval, Interpretation.eval, Interpretation.evalList,
    Interpretation.evalList, ← h.value I, I.eval_neg]
  cases I.eval a with
  | none => rfl
  | some x =>
    cases I.evalList as with
    | none => rfl
    | some xs =>
      cases xs with
      | nil => rfl
      | cons y ys => simp [Interpretation.node]

end SameValue

end Expr

end Eliminant
