import Eliminant.Proofs.Polynomial.Conversion
import Eliminant.Proofs.Polynomial.Degree

/-!
# Which products are expanded

Before a factor is multiplied to those before it, the largest exponents of both are added, and where the sum does
not fit the product becomes a kernel as a whole. The two largest exponents may be those of different variables,
so a product whose exponents fit is not always expanded. The exact condition is `Polynomial.Expands`; in it

* `Running.fits_iff`: degrees stand for the largest exponents, since those of factors add up;
* `convertFactors_eq`: the conversion multiplies the factors one after the other, or gives the whole up;
* `expands_iff_of_degrees`: where the exponents of every variable fit, only those of different variables count;
* **`Polynomial.ofExpr_product`**: what becomes of a product whose factors are converted.
-/

namespace Eliminant

open MvPolynomial (C degreeOf)

namespace Polynomial

variable {p q r : Polynomial} {ps past : List Polynomial} {as : List Expr} {a : Expr} {v w : Variable}
  {c s : Coefficient}

/-! ## 1. Degrees of products -/

/-- The degree in `v` of the product of `ps`: the sum of the degrees, unless one of them is zero. -/
def productDegree (ps : List Polynomial) (v : Variable) : Nat :=
  if ps.any isZero then 0 else (ps.map (·.degreeIn v)).sum

theorem productDegree_le_sum (ps : List Polynomial) (v : Variable) :
    productDegree ps v ≤ (ps.map (·.degreeIn v)).sum := by
  unfold productDegree
  split
  · exact Nat.zero_le _
  · exact le_rfl

/-- The degree in a variable, read off the factors. -/
theorem productDegree_eq (sound : ∀ p ∈ ps, p.Sound) (v : Variable) :
    productDegree ps v = degreeOf v (ps.map toMv).prod := by
  unfold productDegree
  split
  · rename_i zero
    obtain ⟨p, hp, hz⟩ := List.any_eq_true.mp zero
    have vanishes : (0 : MvPolynomial Variable ℚ) ∈ ps.map toMv :=
      List.mem_map.mpr ⟨p, hp, (sound p hp).toMv_eq_zero_iff.mpr hz⟩
    rw [List.prod_eq_zero vanishes, MvPolynomial.degreeOf_zero]
  · rename_i some
    have nonzero : ∀ f ∈ ps.map toMv, f ≠ 0 := List.forall_mem_map.mpr fun p hp zero =>
      some (List.any_eq_true.mpr ⟨p, hp, (sound p hp).toMv_eq_zero_iff.mp zero⟩)
    rw [degreeOf_list_prod v nonzero, List.map_map]
    exact congrArg List.sum (List.map_congr_left fun p hp => (sound p hp).degreeIn_eq v)

theorem productDegree_concat_le (ps : List Polynomial) (p : Polynomial) (v : Variable) :
    productDegree (ps ++ [p]) v ≤ productDegree ps v + p.degreeIn v := by
  unfold productDegree
  rw [List.any_append, List.map_append, List.sum_append, List.map_singleton, List.sum_singleton]
  cases ps.any isZero with
  | true => exact Nat.zero_le _
  | false =>
    rw [Bool.false_or]
    split
    · exact Nat.zero_le _
    · exact le_rfl

/-! ## 2. The condition under which factors are multiplied -/

/-- Multiplied to `past` one after the other, no factor of `ps` has an exponent that is too large when it is
    added to one of the product before it, of whatever variables these exponents are. -/
def Expands (past ps : List Polynomial) : Prop :=
  ∀ before p later, ps = before ++ p :: later →
    ∀ v w, productDegree (past ++ before) v + p.degreeIn w ≤ maxExponent

theorem expands_nil (past : List Polynomial) : Expands past [] := fun before p later split =>
  absurd split (by simp)

theorem expands_cons : Expands past (p :: ps) ↔
    (∀ v w, productDegree past v + p.degreeIn w ≤ maxExponent) ∧ Expands (past ++ [p]) ps := by
  constructor
  · intro all
    refine ⟨?_, fun before q later split => ?_⟩
    · have first := all [] p ps rfl
      rwa [List.append_nil] at first
    · rw [List.append_assoc]
      exact all (p :: before) q later (congrArg (p :: ·) split)
  · intro h before q later split
    obtain ⟨first, rest⟩ := h
    cases before with
    | nil =>
      obtain ⟨rfl, -⟩ := List.cons.inj split
      rwa [List.append_nil]
    | cons p' before =>
      obtain ⟨rfl, same⟩ := List.cons.inj split
      have := rest before q later same
      rwa [List.append_assoc] at this

/-- Where factors are expanded, the exponents of every variable fit. -/
theorem Expands.productDegree_le (h : Expands [] ps) (v : Variable) : productDegree ps v ≤ maxExponent := by
  rcases List.eq_nil_or_concat' ps with rfl | ⟨before, p, rfl⟩
  · exact Nat.zero_le _
  · exact (productDegree_concat_le before p v).trans (h before p [] rfl v v)

/-- Factors whose largest exponents fit in sum are expanded. -/
theorem expands_of_maxDegree (sound : ∀ p ∈ ps, p.Sound) (fits : (ps.map maxDegree).sum ≤ maxExponent) :
    Expands [] ps := by
  intro before p later split v w
  subst split
  have earlier : (before.map (·.degreeIn v)).sum ≤ (before.map maxDegree).sum :=
    List.sum_le_sum fun q hq => (sound q (List.mem_append_left _ hq)).degreeIn_le v
  have here := (sound p (List.mem_append_right _ List.mem_cons_self)).degreeIn_le w
  have degree := productDegree_le_sum before v
  rw [List.map_append, List.map_cons, List.sum_append, List.sum_cons] at fits
  show productDegree before v + p.degreeIn w ≤ maxExponent
  omega

/-- **Where the exponents of every variable fit**, only exponents of different variables keep factors from being
    expanded. -/
theorem expands_iff_of_degrees (fits : ∀ v, (ps.map (·.degreeIn v)).sum ≤ maxExponent) :
    Expands [] ps ↔ ∀ before p later, ps = before ++ p :: later →
      ∀ v w, v ≠ w → productDegree before v + p.degreeIn w ≤ maxExponent := by
  refine ⟨fun h before p later split v w _ => h before p later split v w, ?_⟩
  intro mixed before p later split v w
  subst split
  by_cases same : v = w
  · subst same
    have total := fits v
    rw [List.map_append, List.map_cons, List.sum_append, List.sum_cons] at total
    have := productDegree_le_sum before v
    show productDegree before v + p.degreeIn v ≤ maxExponent
    omega
  · exact mixed before p later rfl v w same

/-! ## 3. Multiplying one factor after the other -/

/-- The product of factors, from the first to the last. -/
def product : List Polynomial → Except Failure Polynomial
  | [] => .ok (ofConstant .one)
  | p :: ps => ps.foldlM Polynomial.mul p

/-- `r` is the product of `past`. -/
structure Running (past : List Polynomial) (r : Polynomial) : Prop where
  ordinary : r.Ordinary
  value : r.toMv = (past.map toMv).prod
  factors : ∀ p ∈ past, p.Ordinary

namespace Running

theorem one : Running [] (ofConstant .one) := by
  refine ⟨ordinary_ofConstant .one, ?_, by simp⟩
  rw [toMv_ofConstant, Coefficient.toRat_one, map_one, List.map_nil, List.prod_nil]

theorem single (hp : p.Ordinary) : Running [p] p := ⟨hp, by simp, by simpa using hp⟩

/-- The test for the largest exponents, in terms of degrees. -/
theorem fits_iff (h : Running past r) (hp : p.Ordinary) : r.maxDegree + p.maxDegree ≤ maxExponent ↔
    ∀ v w, productDegree past v + p.degreeIn w ≤ maxExponent := by
  rw [maxDegree_add_le_iff h.ordinary.sound hp.sound]
  refine forall₂_congr fun v w => ?_
  rw [h.value, productDegree_eq (fun q hq => (h.factors q hq).sound) v, hp.sound.degreeIn_eq w]

/-- One more factor. -/
theorem mul (h : Running past r) (hp : p.Ordinary) (fits : r.maxDegree + p.maxDegree ≤ maxExponent) :
    Answers (fun _ => False) (Running (past ++ [p])) (r.mul p) := by
  refine (h.ordinary.mul_of_fits hp (not_overflows h.ordinary.sound hp.sound fits)).imp fun m hm => ?_
  refine ⟨hm.1, ?_, List.forall_mem_append.mpr ⟨h.factors, by simpa using hp⟩⟩
  rw [hm.2.1, h.value, List.map_append, List.prod_append, List.map_singleton, List.prod_singleton]

/-- **Factors that are expanded have a product.** -/
theorem foldlM (h : Running past r) (ordinary : ∀ p ∈ ps, p.Ordinary) (expands : Expands past ps) :
    Answers (fun _ => False) (Running (past ++ ps)) (ps.foldlM Polynomial.mul r) := by
  induction ps generalizing past r with
  | nil =>
    rw [List.append_nil]
    exact h
  | cons p ps ih =>
    obtain ⟨hp, hps⟩ := List.forall_mem_cons.mp ordinary
    obtain ⟨first, rest⟩ := expands_cons.mp expands
    rw [List.foldlM_cons, List.append_cons]
    exact (h.mul hp ((h.fits_iff hp).mpr first)).bind fun m hm => ih hm hps rest

end Running

theorem product_answers (ordinary : ∀ p ∈ ps, p.Ordinary) (expands : Expands [] ps) :
    Answers (fun _ => False) (Running ps) (product ps) := by
  cases ps with
  | nil => exact .one
  | cons p ps =>
    obtain ⟨hp, hps⟩ := List.forall_mem_cons.mp ordinary
    exact (Running.single hp).foldlM hps (expands_cons.mp expands).2

/-- **The conversion of factors** multiplies one after the other, or gives the whole up. -/
theorem convertFactors_eq (whole : Expr) (h : Running past r)
    (factors : List.Forall₂ (fun a p => convert a = .ok p) as ps) :
    (Expands past ps → convertFactors whole r as = ps.foldlM Polynomial.mul r) ∧
      (¬ Expands past ps → convertFactors whole r as = ofKernel whole) := by
  induction factors generalizing past r with
  | nil =>
    unfold convertFactors
    exact ⟨fun _ => rfl, fun h => absurd (expands_nil past) h⟩
  | @cons a p as ps run _ ih =>
    have hp : p.Ordinary := (convert_answers a).of_ok run
    unfold convertFactors
    rw [run, ok_bind, List.foldlM_cons, expands_cons, ← h.fits_iff hp]
    split
    · rename_i large
      exact ⟨fun fits => absurd fits.1 (Nat.not_le.mpr large), fun _ => rfl⟩
    · rename_i small
      have fits := Nat.le_of_not_lt small
      have step := h.mul hp fits
      cases times : r.mul p with
      | error e => exact (step.of_error times).elim
      | ok m =>
        rw [ok_bind, ok_bind, and_iff_right fits]
        exact ih (step.of_ok times)

/-! ## 4. Products of constants -/

theorem convert_of_constant? (h : a.constant? = some c) : convert a = .ok (ofConstant c) := by
  cases a with
  | num n =>
    obtain rfl : n = c := by simpa [Expr.constant?] using h
    rw [convert]
  | var x => simp [Expr.constant?] at h
  | call f args => simp [Expr.constant?] at h
  | op o args =>
    unfold convert
    dsimp only
    rw [h]

theorem constant?_mul (accepts : Operator.mul.accepts as.length = true) :
    (Expr.op .mul as).constant? = Expr.mulConstants? as .one := by
  obtain _ | ⟨a, _ | ⟨b, rest⟩⟩ := as
  · cases accepts
  · cases accepts
  · rw [Expr.constant?]

/-- The factors of a product that is a constant are constants, and so is what they are multiplied to. -/
theorem mulConstants?_factors (factors : List.Forall₂ (fun a p => convert a = .ok p) as ps)
    (h : Expr.mulConstants? as s = some c) :
    (∀ p ∈ ps, p.maxDegree = 0) ∧ C c.toRat = C s.toRat * (ps.map toMv).prod := by
  induction factors generalizing s with
  | nil =>
    rw [Expr.mulConstants?] at h
    obtain rfl := Option.some.inj h
    simp
  | @cons a p as ps run _ ih =>
    rw [Expr.mulConstants?] at h
    obtain ⟨k, constant, h⟩ := Option.bind_eq_some_iff.mp h
    obtain rfl : p = ofConstant k := Except.ok.inj (run.symm.trans (convert_of_constant? constant))
    obtain ⟨all, value⟩ := ih h
    refine ⟨List.forall_mem_cons.mpr ⟨maxDegree_ofConstant k, all⟩, ?_⟩
    rw [value, Coefficient.toRat_mul, map_mul, List.map_cons, List.prod_cons, toMv_ofConstant, mul_assoc]

/-! ## 5. Products -/

theorem ofExpr_eq_ok_iff : ofExpr a = .ok p ↔ a.malformed? = none ∧ convert a = .ok p := by
  unfold ofExpr
  cases a.malformed? with
  | none => simp
  | some r => simp

theorem ordinary_factors (factors : List.Forall₂ (fun a p => convert a = .ok p) as ps) :
    ∀ p ∈ ps, p.Ordinary := by
  intro p hp
  obtain ⟨a, -, run⟩ := exists_of_mem_forall₂ factors hp
  exact (convert_answers a).of_ok run

/-- A product is converted as a constant or factor by factor. -/
theorem convert_mul (accepts : Operator.mul.accepts as.length = true)
    (factors : List.Forall₂ (fun a p => convert a = .ok p) as ps) :
    (Expands [] ps → ∃ r, convert (.op .mul as) = .ok r ∧ Running ps r) ∧
      (¬ Expands [] ps → convert (.op .mul as) = ofKernel (.op .mul as)) := by
  have ordinary := ordinary_factors factors
  have constant := constant?_mul accepts
  cases value : (Expr.op .mul as).constant? with
  | some c =>
    obtain ⟨constants, product⟩ := mulConstants?_factors factors (constant ▸ value)
    have none : (ps.map maxDegree).sum = 0 := List.sum_eq_zero (List.forall_mem_map.mpr constants)
    rw [Coefficient.toRat_one, map_one, one_mul] at product
    refine ⟨fun _ => ⟨_, convert_of_constant? value, ordinary_ofConstant c, ?_, ordinary⟩, fun h => ?_⟩
    · rw [toMv_ofConstant, product]
    · refine absurd (expands_of_maxDegree (fun p hp => (ordinary p hp).sound) ?_) h
      exact none.trans_le (Nat.zero_le _)
  | none =>
    have run : convert (.op .mul as) = convertFactors (.op .mul as) (ofConstant .one) as := by
      rw [convert, value]
    obtain ⟨multiplied, given⟩ := convertFactors_eq (.op .mul as) .one factors
    refine ⟨fun expands => ?_, fun h => run.trans (given h)⟩
    have answers := Running.one.foldlM ordinary expands
    cases times : ps.foldlM Polynomial.mul (ofConstant .one) with
    | error e => exact (answers.of_error times).elim
    | ok r => exact ⟨r, run.trans ((multiplied expands).trans times), answers.of_ok times⟩

/-- **Products.** A product whose factors are converted becomes their product if no exponent of a factor is too
    large when it is added to one of the product of the factors before it, be they exponents of different
    variables; else it becomes a kernel as a whole. Small factors always become their product, and a product in
    which the exponents of some variable do not fit is always a kernel; but where those of every variable fit, it
    is a kernel too if two exponents of different variables are too large in sum. -/
theorem ofExpr_product (accepts : Operator.mul.accepts as.length = true)
    (factors : List.Forall₂ (fun a p => ofExpr a = .ok p) as ps) :
    (Expands [] ps → ∃ r m, ofExpr (.op .mul as) = .ok r ∧ product ps = .ok m ∧ r.equal m = true ∧
        r.toMv = (ps.map toMv).prod) ∧
      (¬ Expands [] ps → ofExpr (.op .mul as) = ofKernel (.op .mul as)) ∧
      ((ps.map maxDegree).sum ≤ maxExponent → Expands [] ps) ∧
      (∀ v, maxExponent < productDegree ps v → ¬ Expands [] ps) ∧
      ((∀ v, (ps.map (·.degreeIn v)).sum ≤ maxExponent) →
        (Expands [] ps ↔ ∀ before p later, ps = before ++ p :: later →
          ∀ v w, v ≠ w → productDegree before v + p.degreeIn w ≤ maxExponent)) := by
  have converted : List.Forall₂ (fun a p => convert a = .ok p) as ps :=
    factors.imp fun a p run => (ofExpr_eq_ok_iff.mp run).2
  have wellFormed : (Expr.op .mul as).malformed? = none :=
    Expr.malformed?_op.mpr ⟨accepts, fun a ha => by
      obtain ⟨p, -, run⟩ := exists_of_mem_forall₂_left factors ha
      exact (ofExpr_eq_ok_iff.mp run).1⟩
  have whole : ofExpr (.op .mul as) = convert (.op .mul as) := by
    unfold ofExpr
    rw [wellFormed]
  obtain ⟨expanded, kept⟩ := convert_mul accepts converted
  rw [whole]
  have sound : ∀ p ∈ ps, p.Sound := fun p hp => (ordinary_factors converted p hp).sound
  refine ⟨fun expands => ?_, kept, expands_of_maxDegree sound, fun v large expands => ?_, expands_iff_of_degrees⟩
  · obtain ⟨r, run, hr⟩ := expanded expands
    have answers := product_answers hr.factors expands
    cases times : product ps with
    | error e => exact (answers.of_error times).elim
    | ok m =>
      have hm := answers.of_ok times
      refine ⟨r, m, run, rfl, (equal_iff hr.ordinary.sound hm.ordinary.sound).mpr ?_, hr.value⟩
      rw [hr.value, hm.value]
  · exact absurd (expands.productDegree_le v) (Nat.not_le.mpr large)

/-- The exponents of `x ^ 4294967295 * y` fit, but those of `x` and of `y` are too large in sum, and the product
    becomes a kernel; with an exponent less it is multiplied. -/
theorem ofExpr_product_at :
    let x := Expr.var "x"
    let y := Expr.var "y"
    let power (n : Nat) := Expr.op .pow [x, .int n]
    let p (n : Nat) : Polynomial := ⟨[.symbol "x"], [⟨.one, [n]⟩]⟩
    let q : Polynomial := ofVariable (.symbol "y")
    let kernel := ofVariable (.kernel (.op .mul [y, power 4294967295]))
    let m (n : Nat) : Polynomial := ⟨[.symbol "x", .symbol "y"], [⟨.one, [n, 1]⟩]⟩
    (Operator.mul.accepts 2 = true ∧
      List.Forall₂ (fun a p => ofExpr a = .ok p) [power 4294967295, y] [p 4294967295, q] ∧
      List.Forall₂ (fun a p => ofExpr a = .ok p) [power 4294967294, y] [p 4294967294, q]) ∧
    ((∀ v, ([p 4294967295, q].map (·.degreeIn v)).sum ≤ maxExponent) ∧
      product [p 4294967295, q] = .ok (m 4294967295) ∧ ¬ Expands [] [p 4294967295, q] ∧
      ofExpr (.op .mul [power 4294967295, y]) = .ok kernel ∧ kernel.equal (m 4294967295) = false) ∧
    ∃ r, ofExpr (.op .mul [power 4294967294, y]) = .ok r ∧ r.equal (m 4294967294) = true := by
  intro x y power p q kernel m
  have accepts : Operator.mul.accepts 2 = true := rfl
  have large : List.Forall₂ (fun a p => ofExpr a = .ok p) [power 4294967295, y] [p 4294967295, q] :=
    .cons (by cbv) (.cons (by cbv) .nil)
  have small : List.Forall₂ (fun a p => ofExpr a = .ok p) [power 4294967294, y] [p 4294967294, q] :=
    .cons (by cbv) (.cons (by cbv) .nil)
  have exceeds : ¬ Expands [] [p 4294967295, q] := fun expands =>
    absurd (expands [p 4294967295] q [] rfl (.symbol "x") (.symbol "y")) (by decide)
  have answer : ofKernel (.op .mul [power 4294967295, y]) = .ok kernel := by cbv
  obtain ⟨-, kept, -⟩ := ofExpr_product (by rfl) large
  obtain ⟨multiplied, -, bounded, -⟩ := ofExpr_product (by rfl) small
  obtain ⟨r, r', run, times, same, -⟩ := multiplied (bounded (by decide))
  obtain rfl : m 4294967294 = r' := Except.ok.inj ((show product [p 4294967294, q] = _ by cbv).symm.trans times)
  refine ⟨⟨accepts, large, small⟩, ⟨fun v => ?_, by cbv, exceeds, (kept exceeds).trans answer, by cbv⟩,
    r, run, same⟩
  by_cases here : v = .symbol "x"
  · subst here
    decide
  · have none : (p 4294967295).degreeIn v = 0 := by simp [degreeIn, variableIndex?, p, Ne.symm here]
    have single : q.degreeIn v ≤ 1 := (show q.Sound by decide).degreeIn_le v
    show (p 4294967295).degreeIn v + (q.degreeIn v + 0) ≤ 4294967295
    omega

end Polynomial

end Eliminant
