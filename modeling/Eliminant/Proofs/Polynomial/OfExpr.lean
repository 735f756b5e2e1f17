import Eliminant.Polynomial.OfExpr
import Eliminant.Proofs.Expr.Constant
import Eliminant.Proofs.Polynomial.Value

/-!
# Converting expressions keeps values

The polynomial that an expression is converted to stands for the value of the expression
(`Polynomial.convert_stands`, one case for each operator), and so does the expression that a polynomial
is turned back into (`Polynomial.toExpr_answers`).

* `ofKernel_stands`: a kernel is the normal form of an expression;
* **`ofExprOrKernel_stands`**: an expression without malformed operators always becomes a polynomial,
  unless a power is too large for its word.
-/

namespace Eliminant

/-- What can keep an expression from being converted. -/
def Failure.IsConversion (e : Failure) : Prop :=
  (∃ why, e = .notPolynomial why) ∨ e.IsMagnitude ∨ e.IsOverflow

theorem Failure.IsMagnitude.isConversion {e : Failure} (h : e.IsMagnitude) : e.IsConversion :=
  Or.inr (Or.inl h)

theorem Failure.IsOverflow.isConversion {e : Failure} (h : e.IsOverflow) : e.IsConversion :=
  Or.inr (Or.inr h)

namespace Coefficient

variable {c : Coefficient} {n d : Int}

/-- Numerator and denominator, in lowest terms. -/
theorem toRat_of_toWords? (h : c.toWords? = some (n, d)) :
    c.toRat = n / d ∧ InWord d ∧ 0 < d ∧ Int.gcd n d = 1 := by
  cases c with
  | large r hr => cases h
  | small num den hn hd pos red =>
    cases h
    exact ⟨by rw [toRat_small, Rat.divInt_eq_div], hd, pos, red⟩

theorem nonneg_of_toWords? (h : c.toWords? = some (n, d)) (sign : c.isNegative = false) : 0 ≤ n := by
  cases c with
  | large r hr => cases h
  | small num den hn hd pos red =>
    cases h
    simpa [isNegative] using sign

/-- The exponent of a root. -/
theorem toRat_root (hd : InWord d) (pos : 0 < d) : (ofWide 1 d).toRat = 1 / d := by
  have bounds := hd
  unfold InWord at bounds
  rw [toRat_ofWide pos.ne' (by decide) ⟨by omega, by omega⟩, Rat.divInt_eq_div, Int.cast_one]

end Coefficient

namespace Polynomial

variable {K : Type} [Field K] [LinearOrder K] [IsStrictOrderedRing K] {I : Interpretation K}
  {known : List String} {V : K → Prop} {a b : Expr} {as args : List Expr} {p q : Polynomial}

/-! ## 1. Kernels -/

/-- A polynomial that stands for the value of an expression. -/
abbrev StandsFor (I : Interpretation K) (known : List String) (a : Expr) (p : Polynomial) : Prop :=
  Stands I known (fun x => I.eval a = some x) p

/-- **A kernel has the value of the expression** that is made one. -/
theorem ofKernel_stands (names : a.Over known) :
    Answers Failure.IsMagnitude (StandsFor I known a) (ofKernel a) := by
  unfold ofKernel
  refine (Expr.normalize_answers I names).bind fun b hb => ?_
  obtain ⟨keep, names⟩ := hb
  split
  · exact (Stands.ofConstant _).imp fun x hx => (Option.some.inj (keep x hx)).symm
  · exact (Stands.ofVariable (v := .symbol _) trivial trivial names).imp keep
  · rename_i num name
    cases b with
    | num n => exact absurd rfl (num n)
    | var x => exact absurd rfl (name x)
    | call f args =>
      exact (Stands.ofVariable (v := .kernel (.call f args)) trivial trivial names).imp keep
    | op o args =>
      exact (Stands.ofVariable (v := .kernel (.op o args)) trivial trivial names).imp keep

theorem ofKernel_converts (names : a.Over known) :
    Answers Failure.IsConversion (StandsFor I known a) (ofKernel a) :=
  (ofKernel_stands names).mono (fun _ => Failure.IsMagnitude.isConversion) fun _ => id

/-! ## 2. Expressions to polynomials -/

theorem Stands.pow_converts (h : Stands I known V p) (n : Nat) :
    Answers Failure.IsConversion (Stands I known fun x => ∃ y, V y ∧ x = y ^ n) (p.pow n) :=
  (h.pow n).mono (fun _ => Failure.IsOverflow.isConversion) fun _ => id

mutual
/-- **The polynomial of an expression has its value.** -/
theorem convert_stands : ∀ a : Expr, a.Over known →
    Answers Failure.IsConversion (StandsFor I known a) (convert a)
  | .num n, _ => by
    unfold convert
    exact (Stands.ofConstant n).imp fun x hx => (Option.some.inj hx).symm
  | .var x, names => by
    unfold convert
    exact Stands.ofVariable (v := .symbol x) trivial trivial names
  | .call f args, names => by
    unfold convert
    exact ofKernel_converts names
  | .op o args, names => by
    have parts := Expr.over_op.mp names
    unfold convert
    dsimp only
    split
    · rename_i c constant
      refine (Stands.ofConstant c).imp fun x hx => ?_
      exact Option.some.inj (hx.symm.trans (Expr.eval_of_constant? _ constant))
    split
    · refine (convertTerms_stands args (Stands.ofConstant .zero) parts).imp fun p hp => hp.imp ?_
      intro x hx
      exact ⟨0, x, by simp, (Interpretation.eval_add_iff.mp hx).2, (zero_add x).symm⟩
    · refine convertFactors_stands names args (Stands.ofConstant .one) parts fun x hx => ?_
      exact ⟨1, x, by simp, (Interpretation.eval_mul_iff.mp hx).2, (one_mul x).symm⟩
    · rename_i a b _
      refine (convert_stands a (parts a (by simp))).bind fun p hp => ?_
      refine (convert_stands b (parts b (by simp))).bind fun q hq => (hp.sub hq).imp ?_
      intro x hx
      obtain ⟨y, z, hy, hz, h⟩ := Interpretation.eval_two_iff.mp hx
      exact ⟨y, z, hy, hz, (Option.some.inj h).symm⟩
    · rename_i a _
      refine (convert_stands a (parts a (by simp))).bind fun p hp => hp.neg.imp ?_
      intro x hx
      obtain ⟨y, hy, h⟩ := Interpretation.eval_one_iff.mp hx
      cases h
      rwa [neg_neg]
    · rename_i a b _
      split
      · rename_i d constant
        split
        · rename_i i inv
          refine (convert_stands a (parts a (by simp))).bind fun p hp => (hp.scale i).imp ?_
          intro x hx
          obtain ⟨y, z, hy, hz, h⟩ := Interpretation.eval_two_iff.mp hx
          cases (Expr.eval_of_constant? b constant).symm.trans hz
          change (if _ then none else some _) = some x at h
          rw [if_neg (Rat.cast_ne_zero.mpr (Coefficient.ne_zero_of_inv inv))] at h
          refine ⟨y, hy, ?_⟩
          rw [Coefficient.toRat_inv inv, Rat.cast_inv, inv_mul_eq_div]
          exact (Option.some.inj h).symm
        · exact Or.inl ⟨_, rfl⟩
      · exact ofKernel_converts names
    · rename_i a b _
      split
      · exact ofKernel_converts names
      rename_i e constant
      split
      · exact Or.inl ⟨_, rfl⟩
      rename_i sign
      split
      · exact ofKernel_converts names
      rename_i n d words
      obtain ⟨value, word, pos, coprime⟩ := Coefficient.toRat_of_toWords? words
      have natural := Coefficient.nonneg_of_toWords? words (Bool.not_eq_true _ ▸ sign)
      have power (x : K) (hx : I.eval (.op .pow [a, b]) = some x) :
          ∃ y, I.eval a = some y ∧ I.powers.pow y ((n / d : ℚ) : K) = some x := by
        obtain ⟨y, z, hy, hz, h⟩ := Interpretation.eval_pow_iff.mp hx
        cases (Expr.eval_of_constant? b constant).symm.trans hz
        exact ⟨y, hy, value ▸ h⟩
      lift n to ℕ using natural
      split
      · exact ofKernel_converts names
      split
      · rename_i whole
        refine (convert_stands a (parts a (by simp))).bind fun p hp => ?_
        split
        · refine (hp.pow_converts _).imp fun r hr => hr.imp fun x hx => ?_
          obtain ⟨y, hy, h⟩ := power x hx
          rw [whole, Int.cast_one, div_one, Int.cast_natCast, I.powers.exponent_nat] at h
          exact ⟨y, hy, (Option.some.inj h).symm⟩
        · exact ofKernel_converts names
      · rename_i fraction
        have root : (Expr.op .pow [a, .num (.ofWide 1 d)]).Over known :=
          Expr.over_op.mpr (by simpa using parts a (by simp))
        refine (ofKernel_converts (I := I) root).bind fun p hp => ?_
        refine (hp.pow_converts _).imp fun r hr => hr.imp fun x hx => ?_
        obtain ⟨y, hy, h⟩ := power x hx
        lift d to ℕ using pos.le
        obtain ⟨r, hr, rfl⟩ := I.powers.exists_root (Nat.isCoprime_iff_coprime.mp
          (Int.isCoprime_iff_gcd_eq_one.mpr coprime)) (by omega) h
        refine ⟨r, Interpretation.eval_pow_num_iff.mpr ⟨y, hy, ?_⟩, rfl⟩
        rw [Coefficient.toRat_root word pos]
        exact hr
    · exact ofKernel_converts names

theorem convertTerms_stands : ∀ (as : List Expr) {sum : Polynomial} {V : K → Prop},
    Stands I known V sum → (∀ a ∈ as, a.Over known) → Answers Failure.IsConversion
      (Stands I known fun x => ∃ s y, V s ∧ I.SumsTo as y ∧ x = s + y) (convertTerms sum as)
  | [], sum, V, h, _ => by
    unfold convertTerms
    refine h.imp ?_
    rintro x ⟨s, y, hs, rfl, rfl⟩
    rwa [add_zero]
  | a :: as, sum, V, h, names => by
    obtain ⟨first, later⟩ := List.forall_mem_cons.mp names
    unfold convertTerms
    refine (convert_stands a first).bind fun p hp => ?_
    refine (convertTerms_stands as (h.add hp) later).imp fun r hr => hr.imp ?_
    rintro x ⟨s, _, hs, ⟨y, z, hy, hz, rfl⟩, rfl⟩
    exact ⟨s + y, z, ⟨s, y, hs, hy, rfl⟩, hz, (add_assoc s y z).symm⟩

theorem convertFactors_stands {whole : Expr} (names : whole.Over known) : ∀ (as : List Expr)
    {product : Polynomial} {V : K → Prop}, Stands I known V product → (∀ a ∈ as, a.Over known) →
      (∀ x, I.eval whole = some x → ∃ s y, V s ∧ I.MultipliesTo as y ∧ x = s * y) →
        Answers Failure.IsConversion (StandsFor I known whole) (convertFactors whole product as)
  | [], product, V, h, _, split => by
    unfold convertFactors
    refine h.imp fun x hx => ?_
    obtain ⟨s, y, hs, rfl, rfl⟩ := split x hx
    rwa [mul_one]
  | a :: as, product, V, h, parts, values => by
    obtain ⟨first, later⟩ := List.forall_mem_cons.mp parts
    unfold convertFactors
    refine (convert_stands a first).bind fun p hp => ?_
    split
    · exact ofKernel_converts names
    refine Answers.bind ((h.mul hp).mono (fun _ => Failure.IsOverflow.isConversion) fun _ => id)
      fun q hq => convertFactors_stands names as hq later fun x hx => ?_
    obtain ⟨s, _, hs, ⟨y, z, hy, hz, rfl⟩, rfl⟩ := values x hx
    exact ⟨s * y, z, ⟨s, y, hs, hy, rfl⟩, hz, (mul_assoc s y z).symm⟩
end

/-- **Every expression without malformed operators becomes a polynomial** that stands for it, unless a
    power is too large for its word. -/
theorem ofExprOrKernel_stands (wellFormed : a.malformed? = none) (names : a.Over known) :
    Answers (fun e => e.IsMagnitude ∨ e.IsOverflow) (StandsFor I known a) (ofExprOrKernel a) := by
  have conversion := convert_stands (I := I) a names
  unfold ofExprOrKernel ofExpr
  rw [wellFormed]
  dsimp only
  split
  · exact (ofKernel_stands names).mono (fun _ => Or.inl) fun _ => id
  · rename_i possible
    cases run : convert a with
    | ok p => exact conversion.of_ok run
    | error e =>
      refine (conversion.of_error run).resolve_left ?_
      rintro ⟨why, rfl⟩
      exact possible why run

/-- Every expression that is converted becomes an ordinary polynomial. -/
theorem ofExprOrKernel_gives (a : Expr) :
    Answers (fun _ => True) Ordinary (ofExprOrKernel a) := by
  have whole : a.Over a.names := List.Subset.refl _
  unfold ofExprOrKernel ofExpr
  split
  · exact (ofKernel_stands (I := .bare) whole).any.imp fun _ h => h.ordinary
  split
  · trivial
  · exact (convert_stands (I := .bare) a whole).any.imp fun _ h => h.ordinary

/-! ## 3. Polynomials to expressions -/

/-- Whatever is put in the place of the variables, a term is the product of the powers of its row. -/
theorem eval₂Hom_row {S : Type} [CommSemiring S] (f : ℚ →+* S) (g : Variable → S) {vars : List Variable}
    {exps : Exponents} (len : exps.length = vars.length) (c : ℚ) :
    MvPolynomial.eval₂Hom f g (MvPolynomial.rename vars.get (.monomial (exps.toFinsupp vars.length) c)) =
      f c * ((vars.zip exps).map fun p => g p.1 ^ p.2).prod := by
  have row : (vars.zip exps).map (fun p => g p.1 ^ p.2) =
      List.ofFn fun i : Fin vars.length => g (vars.get i) ^ exps.getD i 0 := by
    refine List.ext_getElem (by simp [len]) fun i hi hi' => ?_
    have short : i < exps.length := by simp at hi; omega
    simp [short]
  rw [MvPolynomial.eval₂Hom_rename, MvPolynomial.eval₂Hom_monomial, row, List.prod_ofFn,
    Finsupp.prod_fintype _ _ fun i => pow_zero _]
  rfl

/-- The value of a term. -/
theorem evalMv_monomial {vars : List Variable} {exps : Exponents} (len : exps.length = vars.length)
    (c : ℚ) : I.evalMv (MvPolynomial.rename vars.get (.monomial (exps.toFinsupp vars.length) c)) =
      c * ((vars.zip exps).map fun p => I.valueOf p.1 ^ p.2).prod := eval₂Hom_row _ _ len c

theorem eval_power {y : K} (h : I.eval a = some y) (e : Nat) :
    I.eval (if e = 1 then a else .op .pow [a, .int e]) = some (y ^ e) := by
  split
  · rename_i one
    rwa [one, pow_one]
  · refine Interpretation.eval_pow_num_iff.mpr ⟨y, h, ?_⟩
    rw [Coefficient.toRat_ofInt, Int.cast_natCast, I.powers.exponent_nat]

/-- The powers of a row multiply to the value of the row; those that are left out are `1`. -/
theorem multipliesTo_row {row : List (Variable × Nat)} (h : I.Defines (row.map (·.1))) :
    I.MultipliesTo ((row.filter fun (_, e) => 0 < e).map fun (v, e) =>
      if e = 1 then v.toExpr else .op .pow [v.toExpr, .int e])
      (row.map fun p => I.valueOf p.1 ^ p.2).prod := by
  induction row with
  | nil => rfl
  | cons p row ih =>
    obtain ⟨v, e⟩ := p
    obtain ⟨first, later⟩ := List.forall_mem_cons.mp h
    rw [List.map_cons, List.prod_cons]
    by_cases occurs : 0 < e
    · rw [List.filter_cons_of_pos (by simpa using occurs)]
      exact ⟨_, _, eval_power first e, ih later, rfl⟩
    · rw [List.filter_cons_of_neg (by simpa using occurs), Nat.eq_zero_of_not_pos occurs, pow_zero,
        one_mul]
      exact ih later

/-- **The expression of a term** has the value of the term. -/
theorem eval_termExpr {vars : List Variable} {t : Term} (len : t.exps.length = vars.length)
    (h : I.Defines vars) : I.eval (termExpr vars t) = some (I.evalMv
      (MvPolynomial.rename vars.get (.monomial (t.exps.toFinsupp vars.length) t.coeff.toRat))) := by
  have row : I.Defines ((vars.zip t.exps).map (·.1)) := by
    rwa [List.map_fst_zip (by omega)]
  have powers := multipliesTo_row row
  rw [evalMv_monomial len]
  generalize ((vars.zip t.exps).map fun p => I.valueOf p.1 ^ p.2).prod = y at powers ⊢
  unfold termExpr Polynomial.powers
  dsimp only
  generalize List.map _ _ = factors at powers ⊢
  have all : I.MultipliesTo (if t.coeff.isOne then factors else .num t.coeff :: factors)
      (t.coeff.toRat * y) := by
    split
    · rename_i one
      rwa [Coefficient.cast_of_isOne one, one_mul]
    · exact ⟨_, y, rfl, powers, rfl⟩
  exact Expr.eval_operands Expr.eval_one
    (fun as x len h => Interpretation.eval_mul_iff.mpr ⟨len, h⟩) all

theorem sumsTo_terms {vars : List Variable} {ts : Terms}
    (len : ∀ t ∈ ts, t.exps.length = vars.length) (h : I.Defines vars) :
    I.SumsTo (ts.map (termExpr vars))
      (I.evalMv (MvPolynomial.rename vars.get (Terms.toMv vars.length ts))) := by
  induction ts with
  | nil =>
    rw [Terms.toMv_nil, map_zero, map_zero]
    rfl
  | cons t ts ih =>
    obtain ⟨first, later⟩ := List.forall_mem_cons.mp len
    rw [Terms.toMv_cons, map_add, map_add]
    exact ⟨_, _, eval_termExpr first h, ih later, rfl⟩

theorem termExpr_over {vars : List Variable} {t : Term} (h : ∀ v ∈ vars, v.toExpr.Over known) :
    (termExpr vars t).Over known := by
  have powers : ∀ a ∈ (powers vars t.exps).map fun (v, e) =>
      if e = 1 then v.toExpr else .op .pow [v.toExpr, .int e], a.Over known := by
    refine List.forall_mem_map.mpr ?_
    rintro ⟨v, e⟩ hp
    have names := h v (List.of_mem_zip (List.mem_filter.mp hp).1).1
    dsimp only
    split
    · exact names
    · exact Expr.over_op.mpr (by simpa using ⟨names, Expr.over_num _⟩)
  unfold termExpr
  dsimp only
  generalize List.map _ _ = factors at powers ⊢
  refine Expr.operands_over ?_
  split
  · exact powers
  · exact List.forall_mem_cons.mpr ⟨Expr.over_num _, powers⟩

/-- **The expression of a polynomial** has the value that the polynomial stands for. -/
theorem toExpr_answers (h : Stands I known V p) : Answers Failure.IsMagnitude
    (fun a => (∀ x, V x → I.eval a = some x) ∧ a.Over known) p.toExpr := by
  have sums (x : K) (hx : V x) : I.SumsTo (p.terms.reverse.map (termExpr p.vars)) x := by
    have d := h.denotes x hx
    have sum := sumsTo_terms h.ordinary.sound.consistent.1 d.defines
    rw [← toMv_of_vars_eq rfl, d.value] at sum
    exact Folds.perm sum ((List.reverse_perm p.terms).map _).symm
  have names : ∀ a ∈ p.terms.reverse.map (termExpr p.vars), a.Over known :=
    List.forall_mem_map.mpr fun t _ => termExpr_over h.names
  have normal {a : Expr} (value : ∀ x, V x → I.eval a = some x) (names : a.Over known) :
      Answers Failure.IsMagnitude (fun a => (∀ x, V x → I.eval a = some x) ∧ a.Over known)
        a.normalize :=
    (Expr.normalize_answers I names).imp fun b hb => ⟨fun x hx => hb.1 x (value x hx), hb.2⟩
  unfold toExpr
  split
  · rename_i none
    rw [none] at sums
    refine normal (fun x hx => ?_) (Expr.over_num _)
    rw [show x = 0 from sums x hx]
    exact Expr.eval_zero
  · rename_i one
    rw [one] at sums names
    exact normal (fun x hx => Interpretation.sumsTo_singleton.mp (sums x hx))
      (names _ List.mem_cons_self)
  · rename_i none one
    refine normal (fun x hx => ?_) (Expr.over_op.mpr names)
    exact Interpretation.eval_add_iff.mpr ⟨Expr.two_le_length none one, sums x hx⟩

end Polynomial

end Eliminant
