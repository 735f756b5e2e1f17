import Eliminant.Proofs.Expr.Checked
import Eliminant.Proofs.Expr.Parts
import Eliminant.Proofs.Polynomial.Fits
import Eliminant.Proofs.Polynomial.OfExpr

/-!
# What becomes of every expression that is converted

A conversion multiplies only polynomials whose largest exponents fit in sum, and raises only those whose largest
exponent fits when it is multiplied by the power; so no product that it computes overflows, those of repeated
squaring included (`Polynomial.convert_answers`). The conversion is made once more with operands that are taken
by their number, with checked divisions and with checked absolute values (`Polynomial.ofExprChecked`): on
well-formed expressions no such step fails, but for the absolute value of the least word.

* **`Polynomial.ofExpr_outcome`**: which expressions are malformed, and what all others become.
-/

namespace Eliminant

/-- An expression is no polynomial, or an exponent has no absolute value. -/
def Failure.IsRefusal (e : Failure) : Prop := (∃ why, e = .notPolynomial why) ∨ e = .exponentMagnitude

theorem Failure.IsMagnitude.isRefusal {e : Failure} (h : e.IsMagnitude) : e.IsRefusal := Or.inr h

namespace Polynomial

open Eliminant.Expr (IsPart constantChecked constantChecked_eq textChecked textChecked_eq)

variable {a : Expr} {as : List Expr} {p q : Polynomial} {n : Nat}

/-! ## 1. Nothing overflows -/

theorem maxDegree_ofVariable {v : Variable} (proper : v.Proper) (ordinary : v.Ordinary) :
    (ofVariable v).maxDegree ≤ 1 := by
  refine (ordinary_ofVariable proper ordinary).sound.maxDegree_le_iff.mpr fun m hm u => ?_
  rw [toMv_ofVariable, ← pow_one (MvPolynomial.X v), support_X_pow] at hm
  rw [Finset.mem_singleton.mp hm, Finsupp.single_apply]
  split <;> omega

/-- A kernel is a constant or a single variable. -/
theorem ofKernel_answers (a : Expr) :
    Answers Failure.IsMagnitude (fun p => p.Ordinary ∧ p.maxDegree ≤ 1) (ofKernel a) := by
  unfold ofKernel
  refine (Expr.normalize_keeps (I := .bare) a).bind fun b _ => ?_
  cases b with
  | num n => exact ⟨ordinary_ofConstant n, (maxDegree_ofConstant n).trans_le (Nat.zero_le 1)⟩
  | var x => exact ⟨ordinary_ofVariable trivial trivial, maxDegree_ofVariable trivial trivial⟩
  | call f args => exact ⟨ordinary_ofVariable trivial trivial, maxDegree_ofVariable trivial trivial⟩
  | op o args => exact ⟨ordinary_ofVariable trivial trivial, maxDegree_ofVariable trivial trivial⟩

theorem ofKernel_converted (a : Expr) : Answers Failure.IsRefusal Ordinary (ofKernel a) :=
  (ofKernel_answers a).mono (fun _ => Failure.IsMagnitude.isRefusal) fun _ h => h.1

/-- What fits as a power is expanded without an overflow. -/
theorem Ordinary.pow_of_fitsPower (hp : p.Ordinary) (fits : p.fitsPower n = true) :
    Answers (fun _ => False) Ordinary (p.pow n) := by
  refine hp.pow_of_maxDegree ?_
  unfold fitsPower at fits
  split at fits
  · cases fits
  · rename_i small
    exact Nat.le_of_not_lt small

/-- The power of a root. -/
theorem root_fits {n : Int} (root : p.maxDegree ≤ 1) (small : ¬ (maxExponent : Int) < n) :
    p.maxDegree * n.toNat ≤ maxExponent :=
  calc p.maxDegree * n.toNat ≤ 1 * n.toNat := Nat.mul_le_mul_right _ root
    _ ≤ maxExponent := by omega

mutual
/-- **Every expression is converted to an ordinary polynomial**, unless it is refused. -/
theorem convert_answers : ∀ a : Expr, Answers Failure.IsRefusal Ordinary (convert a)
  | .num n => by
    unfold convert
    exact ordinary_ofConstant n
  | .var x => by
    unfold convert
    exact ordinary_ofVariable (v := .symbol x) trivial trivial
  | .call f args => by
    unfold convert
    exact ofKernel_converted _
  | .op o args => by
    unfold convert
    dsimp only
    split
    · exact ordinary_ofConstant _
    split
    · exact convertTerms_answers args (ordinary_ofConstant .zero)
    · exact convertFactors_answers args (ordinary_ofConstant .one)
    · rename_i a b _
      exact (convert_answers a).bind fun p hp => (convert_answers b).bind fun q hq => hp.sub hq
    · rename_i a _
      exact (convert_answers a).bind fun p hp => hp.neg
    · rename_i a b _
      split
      · split
        · exact (convert_answers a).bind fun p hp => hp.scale _
        · exact Or.inl ⟨_, rfl⟩
      · exact ofKernel_converted _
    · rename_i a b _
      split
      · exact ofKernel_converted _
      split
      · exact Or.inl ⟨_, rfl⟩
      split
      · exact ofKernel_converted _
      rename_i n d words
      split
      · exact ofKernel_converted _
      rename_i small
      split
      · refine (convert_answers a).bind fun p hp => ?_
        split
        · rename_i fits
          exact (hp.pow_of_fitsPower fits).mono (fun _ => False.elim) fun _ => id
        · exact ofKernel_converted _
      · refine ((ofKernel_answers _).mono (fun _ => Failure.IsMagnitude.isRefusal) fun _ => id).bind ?_
        intro root h
        exact (h.1.pow_of_maxDegree (root_fits h.2 small)).mono (fun _ => False.elim) fun _ => id
    · exact ofKernel_converted _

theorem convertTerms_answers : ∀ (as : List Expr) {sum : Polynomial}, sum.Ordinary →
    Answers Failure.IsRefusal Ordinary (convertTerms sum as)
  | [], sum, h => by
    unfold convertTerms
    exact h
  | a :: as, sum, h => by
    unfold convertTerms
    exact (convert_answers a).bind fun p hp => convertTerms_answers as (h.add hp)

theorem convertFactors_answers {whole : Expr} : ∀ (as : List Expr) {product : Polynomial},
    product.Ordinary → Answers Failure.IsRefusal Ordinary (convertFactors whole product as)
  | [], product, h => by
    unfold convertFactors
    exact h
  | a :: as, product, h => by
    unfold convertFactors
    refine (convert_answers a).bind fun p hp => ?_
    split
    · exact ofKernel_converted _
    · rename_i small
      have fits := not_overflows h.sound hp.sound (Nat.le_of_not_lt small)
      refine ((h.mul_of_fits hp fits).mono (fun _ => False.elim) fun _ => id).bind fun q hq => ?_
      exact convertFactors_answers as hq.1
end

/-! ## 2. The same conversion, step by step -/

section Checked

variable (f : Failure)

/-- `ofKernel`, with checked divisions and absolute values. -/
def ofKernelChecked (a : Expr) : Except Failure Polynomial := do
  match ← a.normalizeWith (Expr.numericPowerChecked f) with
  | .num n => return ofConstant n
  | .var x => return ofVariable (.symbol x)
  | a => return ofVariable (.kernel a)

mutual
/-- `convert`, with operands taken by their number, and with checked divisions and absolute values. -/
def convertChecked : Expr → Except Failure Polynomial
  | .num n => .ok (ofConstant n)
  | .var x => .ok (ofVariable (.symbol x))
  | .call g args => ofKernelChecked f (.call g args)
  | .op o args => do
    let whole := Expr.op o args
    match ← (constantChecked whole).run with
    | some c => return ofConstant c
    | none =>
      match o, args with
      | .add, args => convertTermsChecked (ofConstant .zero) args
      | .mul, args => convertFactorsChecked whole (ofConstant .one) args
      | .sub, a :: b :: _ => do return (← convertChecked a) - (← convertChecked b)
      | .neg, a :: _ => do return -(← convertChecked a)
      | .div, a :: b :: _ => do
        match ← (constantChecked b).run with
        | some d =>
          if d.isZero then throw (.notPolynomial (.divisionByZero (← textChecked whole)))
          else
            let p ← convertChecked a
            return p.scale (← d.inv)
        | none => ofKernelChecked f whole
      | .pow, a :: b :: _ => do
        match ← (constantChecked b).run with
        | none => ofKernelChecked f whole
        | some e =>
          if e.isNegative then throw (.notPolynomial (.negativePower (← textChecked whole)))
          else
            match e.toWords? with
            | none => ofKernelChecked f whole
            | some (n, d) =>
              if (maxExponent : Int) < n then ofKernelChecked f whole
              else if d = 1 then do
                let p ← convertChecked a
                if p.fitsPower n.toNat then p.pow n.toNat else ofKernelChecked f whole
              else do
                let root ← ofKernelChecked f (.op .pow [a, .num (← Coefficient.ofWords 1 d)])
                root.pow n.toNat
      | .subscript, _ | .prime, _ => ofKernelChecked f whole
      | _, _ => throw .noSuchIndex

/-- `convertTerms`, checked. -/
def convertTermsChecked (sum : Polynomial) : List Expr → Except Failure Polynomial
  | [] => .ok sum
  | a :: as => do
    let p ← convertChecked a
    convertTermsChecked (sum + p) as

/-- `convertFactors`, checked. -/
def convertFactorsChecked (whole : Expr) (product : Polynomial) : List Expr → Except Failure Polynomial
  | [] => .ok product
  | a :: as => do
    let p ← convertChecked a
    if maxExponent < product.maxDegree + p.maxDegree then ofKernelChecked f whole
    else convertFactorsChecked whole (← product.mul p) as
end

/-- `ofExpr`, with operands taken by their number, and with checked divisions and absolute values. -/
def ofExprChecked (a : Expr) : Except Failure Polynomial :=
  match a.malformed? with
  | some (op, n) => .error (.malformed op n)
  | none => convertChecked f a

variable {f}

theorem ofKernelChecked_eq (a : Expr) : ofKernelChecked f a = (ofKernel a).mapError f.atMagnitude := by
  unfold ofKernelChecked ofKernel
  rw [Expr.normalizeWith_eq (Expr.numericPowerChecked_eq f), mapError_bind]
  refine bind_congr fun b => ?_
  cases b <;> rfl

/-- A quotient by a number is taken only where the number is not zero. -/
theorem scaleChecked_eq (d : Coefficient) (x : Except Failure Polynomial) (shown : String) :
    (if d.isZero then throw (.notPolynomial (.divisionByZero shown))
      else do
        let p ← x.mapError f.atMagnitude
        return p.scale (← d.inv)) =
      Except.mapError f.atMagnitude (match d.inv with
        | .ok i => do return (← x).scale i
        | .error _ => .error (.notPolynomial (.divisionByZero shown))) := by
  split
  · rename_i zero
    obtain ⟨e, fails⟩ := (Coefficient.inv_eq_error_iff d).mpr ((Coefficient.isZero_iff d).mp zero)
    rw [fails]
    exact congrArg Except.error (f.atMagnitude_of_ne (by simp)).symm
  · rename_i nonzero
    obtain ⟨i, inv, -⟩ := Coefficient.exists_inv (Bool.not_eq_true _ ▸ nonzero)
    rw [inv]
    exact (mapError_bind_pure x _).symm

mutual
theorem convertChecked_eq : ∀ a : Expr, a.malformed? = none →
    convertChecked f a = (convert a).mapError f.atMagnitude
  | .num n, _ => by rw [convertChecked, convert]; rfl
  | .var x, _ => by rw [convertChecked, convert]; rfl
  | .call g args, _ => by
    rw [convertChecked, convert]
    exact ofKernelChecked_eq _
  | .op o args, wellFormed => by
    obtain ⟨accepts, operands⟩ := Expr.malformed?_op.mp wellFormed
    unfold convertChecked convert
    dsimp only
    rw [constantChecked_eq]
    cases constant : (Expr.op o args).constant? with
    | some c => rfl
    | none =>
      rw [ok_bind]
      dsimp only
      simp only [Operator.accepts] at accepts
      split
      · exact convertTermsChecked_eq args _ operands
      · exact convertFactorsChecked_eq args (ordinary_ofConstant .one) operands
      · rename_i a b rest
        obtain rfl : rest = [] := by simpa [Operator.arity] using accepts
        rw [convertChecked_eq a (operands a (by simp)), convertChecked_eq b (operands b (by simp)),
          mapError_bind]
        exact bind_congr fun p => (mapError_bind_pure _ _).symm
      · rename_i a rest
        obtain rfl : rest = [] := by simpa [Operator.arity] using accepts
        rw [convertChecked_eq a (operands a (by simp))]
        exact (mapError_bind_pure _ _).symm
      · rename_i a b rest
        obtain rfl : rest = [] := by simpa [Operator.arity] using accepts
        dsimp only
        rw [constantChecked_eq, textChecked_eq, ok_bind, convertChecked_eq a (operands a (by simp))]
        cases b.constant? with
        | none => exact ofKernelChecked_eq _
        | some d => exact scaleChecked_eq d _ _
      · rename_i a b rest
        obtain rfl : rest = [] := by simpa [Operator.arity] using accepts
        dsimp only
        rw [constantChecked_eq, textChecked_eq, ok_bind, convertChecked_eq a (operands a (by simp))]
        cases b.constant? with
        | none => exact ofKernelChecked_eq _
        | some e =>
          dsimp only
          split
          · exact congrArg Except.error (f.atMagnitude_of_ne (by simp)).symm
          cases words : e.toWords? with
          | none => exact ofKernelChecked_eq _
          | some nd =>
            obtain ⟨n, d⟩ := nd
            obtain ⟨-, -, pos, -⟩ := Coefficient.toRat_of_toWords? words
            dsimp only
            split
            · exact ofKernelChecked_eq _
            rename_i small
            split
            · refine (mapError_bind_of_answers (convert_answers a) fun p hp => ?_).symm
              split
              · rename_i fits
                exact mapError_of_answers (hp.pow_of_fitsPower fits)
              · exact (ofKernelChecked_eq _).symm
            · rw [Coefficient.ofWords, if_neg pos.ne', ok_bind, ofKernelChecked_eq]
              refine (mapError_bind_of_answers (ofKernel_answers _) fun root h => ?_).symm
              exact mapError_of_answers (h.1.pow_of_maxDegree (root_fits h.2 small))
      · exact ofKernelChecked_eq _
      · exact ofKernelChecked_eq _
      · exfalso
        obtain _ | ⟨a, _ | ⟨b, rest⟩⟩ := args
        all_goals cases o <;> simp_all [Operator.arity]

theorem convertTermsChecked_eq : ∀ (as : List Expr) (sum : Polynomial), (∀ a ∈ as, a.malformed? = none) →
    convertTermsChecked f sum as = (convertTerms sum as).mapError f.atMagnitude
  | [], sum, _ => by rw [convertTermsChecked, convertTerms]; rfl
  | a :: as, sum, wellFormed => by
    obtain ⟨first, later⟩ := List.forall_mem_cons.mp wellFormed
    rw [convertTermsChecked, convertTerms, mapError_bind, convertChecked_eq a first]
    exact bind_congr fun p => convertTermsChecked_eq as (sum + p) later

theorem convertFactorsChecked_eq {whole : Expr} : ∀ (as : List Expr) {product : Polynomial},
    product.Ordinary → (∀ a ∈ as, a.malformed? = none) →
      convertFactorsChecked f whole product as = (convertFactors whole product as).mapError f.atMagnitude
  | [], product, _, _ => by rw [convertFactorsChecked, convertFactors]; rfl
  | a :: as, product, h, wellFormed => by
    obtain ⟨first, later⟩ := List.forall_mem_cons.mp wellFormed
    rw [convertFactorsChecked, convertFactors, convertChecked_eq a first]
    refine (mapError_bind_of_answers (convert_answers a) fun p hp => ?_).symm
    split
    · exact (ofKernelChecked_eq whole).symm
    · rename_i small
      have product := h.mul_of_fits hp (not_overflows h.sound hp.sound (Nat.le_of_not_lt small))
      rw [mapError_bind_of_answers product fun q hq => (convertFactorsChecked_eq as hq.1 later).symm,
        mapError_of_answers product]
end

end Checked

/-! ## 3. Every expression -/

theorem ofExpr_answers (wellFormed : a.malformed? = none) : Answers Failure.IsRefusal Ordinary (ofExpr a) := by
  unfold ofExpr
  rw [wellFormed]
  exact convert_answers a

/-- **Which expressions are malformed.** -/
theorem ofExpr_malformed_iff : (∃ o n, ofExpr a = .error (.malformed o n)) ↔
    ∃ o as, IsPart (.op o as) a ∧ o.accepts as.length = false := by
  constructor
  · intro h
    obtain ⟨o, n, h⟩ := h
    cases malformed : a.malformed? with
    | none =>
      obtain ⟨why, other⟩ | other := (ofExpr_answers malformed).of_error h
      · cases other
      · cases other
    | some r =>
      obtain ⟨as, part, -, refuses⟩ := Expr.malformed?_eq_some a malformed
      exact ⟨_, as, part, refuses⟩
  · intro h
    obtain ⟨o, as, part, refuses⟩ := h
    unfold ofExpr
    cases malformed : a.malformed? with
    | none => cases (Expr.malformed?_eq_none_iff.mp malformed o as part).symm.trans refuses
    | some r => exact ⟨r.1, r.2, rfl⟩

theorem ofExprChecked_eq (f : Failure) (a : Expr) :
    ofExprChecked f a = (ofExpr a).mapError f.atMagnitude := by
  unfold ofExprChecked ofExpr
  cases wellFormed : a.malformed? with
  | none => exact convertChecked_eq a wellFormed
  | some r => exact congrArg Except.error (f.atMagnitude_of_ne (by simp)).symm

/-- A variable of an ordinary polynomial is a name or a kernel that is neither a number nor a name. -/
theorem Ordinary.name_or_kernel (h : p.Ordinary) {v : Variable} (hv : v ∈ p.vars) :
    (∃ x, v = .symbol x) ∨ ∃ b, v = .kernel b ∧ (∀ n, b ≠ .num n) ∧ ∀ x, b ≠ .var x := by
  have ordinary := h.ordinary v hv
  cases v with
  | symbol x => exact .inl ⟨x, rfl⟩
  | temporary n => exact ordinary.elim
  | kernel b =>
    refine .inr ⟨b, rfl, fun n number => ?_, fun x name => ?_⟩
    · exact (number ▸ ordinary :)
    · exact (name ▸ ordinary :)

/-- **What becomes of every expression.** It is malformed if and only if one of its nodes, those in arguments
    included, has operands that its operator does not take. Otherwise it becomes a consistent polynomial over
    names and kernels in strictly ascending order, none of which is a number or a name in disguise; or it is no
    polynomial; or an exponent has no absolute value. The conversion that checks every operand, every division
    and every absolute value answers the same: whatever failure `f` the absolute value of the least word is
    given, it is the only one that a check adds. -/
theorem ofExpr_outcome (a : Expr) :
    ((∃ o n, ofExpr a = .error (.malformed o n)) ↔
      ∃ o as, IsPart (.op o as) a ∧ o.accepts as.length = false) ∧
      ((∀ o as, IsPart (.op o as) a → o.accepts as.length = true) →
        Answers (fun e => (∃ why, e = .notPolynomial why) ∨ e = .exponentMagnitude)
          (fun p => p.Consistent ∧ Variable.Sorted p.vars ∧ ∀ v ∈ p.vars, (∃ x, v = .symbol x) ∨
            ∃ b, v = .kernel b ∧ (∀ n, b ≠ .num n) ∧ ∀ x, b ≠ .var x) (ofExpr a)) ∧
      ∀ f, ofExprChecked f a = (ofExpr a).mapError f.atMagnitude := by
  refine ⟨ofExpr_malformed_iff, fun accepts => ?_, fun f => ofExprChecked_eq f a⟩
  refine (ofExpr_answers (Expr.malformed?_eq_none_iff.mpr accepts)).imp fun p hp => ?_
  exact ⟨hp.sound.consistent, hp.sorted, fun v => hp.name_or_kernel⟩

/-- The exponents of `x ^ 4294967295 * x` do not fit, and it becomes a kernel. `f(-)` is malformed in its
    argument. The exponent of `f(2 ^ (-9223372036854775808))` is the least word. -/
theorem ofExpr_outcome_at :
    let x := Expr.var "x"
    let power := Expr.op .mul [.op .pow [x, .int 4294967295], x]
    let bad := Expr.call "f" [.op .neg []]
    let least := Expr.call "f" [.op .pow [.int 2, .int (-9223372036854775808)]]
    (∀ o as, IsPart (.op o as) power → o.accepts as.length = true) ∧
      ofExpr power = .ok (ofVariable (.kernel (.op .pow [x, .int 4294967296]))) ∧
      (ofVariable (.kernel (.op .pow [x, .int 4294967296]))).Consistent ∧
      (∃ o n, ofExpr bad = .error (.malformed o n)) ∧
      ofExpr least = .error .exponentMagnitude ∧
      ∀ f, ofExprChecked f least = .error f := by
  intro x power bad least
  have wellFormed : power.malformed? = none := by rfl
  have accepts := Expr.malformed?_eq_none_iff.mp wellFormed
  have kernel : ofExpr power = .ok (ofVariable (.kernel (.op .pow [x, .int 4294967296]))) := by cbv
  have magnitude : ofExpr least = .error .exponentMagnitude := by cbv
  refine ⟨accepts, kernel, (((ofExpr_outcome power).2.1 accepts).of_ok kernel).1, ?_, magnitude, fun f => ?_⟩
  · exact (ofExpr_outcome bad).1.mpr ⟨.neg, [], .argument List.mem_cons_self .self, rfl⟩
  · rw [(ofExpr_outcome least).2.2 f, magnitude]
    exact congrArg Except.error f.atMagnitude_magnitude

end Polynomial

end Eliminant
