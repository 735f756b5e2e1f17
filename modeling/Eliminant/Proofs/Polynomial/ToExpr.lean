import Eliminant.Proofs.Expr.NormalSum
import Eliminant.Proofs.Polynomial.OfExpr
import Mathlib.Algebra.MonoidAlgebra.Lift

/-!
# The normal form of a polynomial

A polynomial becomes an expression by putting for every variable the product that it stands for. That is a
homomorphism from polynomials to formal sums of products (`Polynomial.asSum`), and the expression of a
polynomial is the normal form of that sum (**`Polynomial.toExpr_eq`**): how the polynomial lists its variables
and its terms is forgotten.

This holds of polynomials whose variables are written as factors, or stand alone in their terms for a whole
product (`Polynomial.Kept`).
-/

namespace Eliminant

open AddMonoidAlgebra (single)

/-- **A power that is written as a product in normal form**: that of a factor, or a whole product. -/
def Variable.Kept (v : Variable) (e : Nat) : Prop :=
  v.toExpr.Factor ∧ v.toExpr.splitExponent.1.Base (v.toExpr.splitExponent.2.toRat * e) ∨
    e = 1 ∧ v.toExpr.IsProduct

namespace Expr

variable {a f : Expr} {fs : List Expr} {E : Expr →₀ ℚ} {c : ℚ}

/-- A product, as a formal sum. -/
noncomputable def inSum (a : Expr) : AddMonoidAlgebra ℚ (Expr →₀ ℚ) := single (partsOf a).1 (partsOf a).2

theorem inSum_term (hE : Monomial E) (c : ℚ) : inSum (term E c) = single E c := by
  rw [inSum, partsOf_term hE]

theorem Factor.inSum_eq (h : Factor f) :
    inSum f = .single (.single f.splitExponent.1 f.splitExponent.2.toRat) 1 := by
  rw [inSum, h.partsOf_eq]

/-- Factors multiply to what they contain. -/
theorem prod_inSum (hf : ∀ f ∈ fs, Factor f) : (fs.map inSum).prod = single (contentOf fs) 1 := by
  induction fs with
  | nil => rfl
  | cons f fs ih =>
    obtain ⟨first, later⟩ := List.forall_mem_cons.mp hf
    rw [List.map_cons, List.prod_cons, ih later, first.inSum_eq, AddMonoidAlgebra.single_mul_single,
      one_mul, contentOf_cons]

end Expr

namespace Polynomial

open Eliminant.Expr (Monomial HaveProducts inSum totalOf sumOf)

variable {p q : Polynomial} {f g : MvPolynomial Variable ℚ} {v : Variable} {e : Nat} {t : Term} {ts : Terms}
  {vars : List Variable}

/-! ## 1. Polynomials as sums of products -/

/-- A polynomial with the products for which its variables stand. -/
noncomputable def asSum : MvPolynomial Variable ℚ →ₐ[ℚ] AddMonoidAlgebra ℚ (Expr →₀ ℚ) :=
  MvPolynomial.aeval fun v => inSum v.toExpr

@[simp] theorem asSum_X (v : Variable) :
    asSum (.X v) = inSum v.toExpr := MvPolynomial.aeval_X _ v

@[simp] theorem asSum_C (c : ℚ) : asSum (.C c) = single 0 c := MvPolynomial.aeval_C _ c

/-- What the factors of a monomial multiply to. -/
noncomputable def content (m : Variable →₀ ℕ) : Expr →₀ ℚ := m.sum fun v n => n • v.toExpr.partsOf.1

/-- The coefficients of the factors of a monomial, multiplied. -/
noncomputable def weight (m : Variable →₀ ℕ) : ℚ := m.prod fun v n => v.toExpr.partsOf.2 ^ n

/-- **A monomial is a product.** -/
theorem asSum_monomial (m : Variable →₀ ℕ) (c : ℚ) :
    asSum (.monomial m c) = single (content m) (c * weight m) := by
  have products (s : Finset Variable) : ∏ v ∈ s, inSum v.toExpr ^ m v =
      single (∑ v ∈ s, m v • v.toExpr.partsOf.1) (∏ v ∈ s, v.toExpr.partsOf.2 ^ m v) := by
    classical
    induction s using Finset.induction_on with
    | empty => exact AddMonoidAlgebra.one_def
    | insert v s fresh ih =>
      rw [Finset.prod_insert fresh, Finset.sum_insert fresh, Finset.prod_insert fresh, ih, inSum,
        AddMonoidAlgebra.single_pow, AddMonoidAlgebra.single_mul_single]
  refine (MvPolynomial.aeval_monomial _ m c).trans ?_
  rw [Finsupp.prod, products, AddMonoidAlgebra.coe_algebraMap, Function.comp_apply,
    AddMonoidAlgebra.single_mul_single, zero_add]
  rfl

/-- What a monomial multiplies to, known from the sum that it is. -/
theorem content_eq {m : Variable →₀ ℕ} {c d : ℚ} {E : Expr →₀ ℚ} (nonzero : d ≠ 0)
    (h : asSum (.monomial m c) = single E d) : content m = E := by
  have same := congrArg AddMonoidAlgebra.coeff ((asSum_monomial m c).symm.trans h)
  rw [AddMonoidAlgebra.coeff_single, AddMonoidAlgebra.coeff_single, Finsupp.single_eq_single_iff] at same
  exact same.elim (·.1) fun zero => absurd zero.2 nonzero

/-- **A polynomial that is written as a sum in normal form**: its powers are products, and so are its
    monomials. -/
structure Kept (f : MvPolynomial Variable ℚ) : Prop where
  powers : ∀ m ∈ f.support, ∀ v, m v ≠ 0 → v.Kept (m v)
  monomials : ∀ m ∈ f.support, Monomial (content m)

theorem Kept.add (hf : Kept f) (hg : Kept g) : Kept (f + g) := by
  classical
  have mem {m : Variable →₀ ℕ} (hm : m ∈ (f + g).support) : m ∈ f.support ∨ m ∈ g.support :=
    Finset.mem_union.mp (MvPolynomial.support_add hm)
  exact ⟨fun m hm => (mem hm).elim (hf.powers m) (hg.powers m),
    fun m hm => (mem hm).elim (hf.monomials m) (hg.monomials m)⟩

/-- The exponents of a monomial of bases. -/
theorem content_apply {m : Variable →₀ ℕ} (h : ∀ v, m v ≠ 0 → v.toExpr.Base 1) (b : Expr) :
    content m b = ∑ v ∈ m.support, if v.toExpr = b then (m v : ℚ) else 0 := by
  rw [content, Finsupp.sum_apply, Finsupp.sum]
  refine Finset.sum_congr rfl fun v hv => ?_
  rw [(h v (Finsupp.mem_support_iff.mp hv)).partsOf_eq, Finsupp.smul_single, nsmul_eq_mul, mul_one,
    Finsupp.single_apply]

/-- A base of a monomial of bases is one of its variables. -/
theorem exists_base {m : Variable →₀ ℕ} (h : ∀ v, m v ≠ 0 → v.toExpr.Base 1) {b : Expr}
    (some : content m b ≠ 0) : ∃ v, m v ≠ 0 ∧ v.toExpr = b := by
  rw [content_apply h] at some
  obtain ⟨v, hv, part⟩ := Finset.exists_ne_zero_of_sum_ne_zero some
  exact ⟨v, Finsupp.mem_support_iff.mp hv, (ite_ne_right_iff.mp part).1⟩

/-- A monomial of bases is a product in normal form. -/
theorem monomial_content {m : Variable →₀ ℕ} (h : ∀ v, m v ≠ 0 → v.toExpr.Base 1) : Monomial (content m) := by
  intro b some
  obtain ⟨v, hv, rfl⟩ := exists_base h some
  refine (h v hv).power (lt_of_le_of_ne ?_ some.symm)
  rw [content_apply h]
  refine Finset.sum_nonneg fun u _ => ?_
  split
  · exact Nat.cast_nonneg _
  · exact le_rfl

/-- **A polynomial in bases** is written as a sum in normal form. -/
theorem kept_of_bases (h : ∀ m ∈ f.support, ∀ v, m v ≠ 0 → v.toExpr.Base 1) : Kept f := by
  refine ⟨fun m hm v some => .inl ⟨(h m hm v some).isFactor, ?_⟩, fun m hm => monomial_content (h m hm)⟩
  rw [Expr.splitExponent_of_isBase (h m hm v some).kept.isBase, Coefficient.toRat_one, one_mul]
  exact (h m hm v some).power (by exact_mod_cast Nat.pos_of_ne_zero some)

/-! ## 2. The expression of a term -/

/-- The written form of a power. -/
theorem exists_power (h : v.Kept e) : ∃ E c,
    ((if e = 1 then v.toExpr else .op .pow [v.toExpr, .int e]).normalize = .ok (Expr.term E c) ∧
      Monomial E ∧ c ≠ 0) ∧ inSum v.toExpr ^ e = single E c := by
  by_cases one : e = 1
  · have product : v.toExpr.IsProduct := h.elim (·.1.isProduct) (·.2)
    refine ⟨_, _, ⟨?_, product.monomial, product.nonzero⟩, by rw [one, pow_one, inSum]⟩
    rw [if_pos one, product.eq, product.normalize_eq]
  · obtain ⟨factor, base⟩ := h.resolve_right fun alone => one alone.1
    have value : (Coefficient.ofInt e).toRat = e := by simp
    have integer : (Coefficient.ofInt e).isInteger = true := (Coefficient.isInteger_iff _).mpr (by simp)
    have operands : Expr.normalizeList [v.toExpr, .int e] = .ok [v.toExpr, .int e] := by
      simp only [Expr.normalizeList, Expr.normalize, Expr.int, factor.normalize_eq, bind, Except.bind, pure,
        Except.pure]
    have node : (Expr.op .pow [v.toExpr, .int e]).normalize = _ :=
      (Expr.normalize_op operands rfl).trans (factor.powerNormal_eq integer (value ▸ base))
    refine ⟨.single v.toExpr.splitExponent.1 (v.toExpr.splitExponent.2.toRat * e), 1,
      ⟨?_, .single base, one_ne_zero⟩, ?_⟩
    · rw [if_neg one, node, value, Expr.term_single _ base.pos.ne']
    · rw [factor.inSum_eq, AddMonoidAlgebra.single_pow, one_pow, Finsupp.smul_single, nsmul_eq_mul,
        mul_comm]

/-- The powers of a row that are written. -/
def writtenPowers (row : List (Variable × Nat)) : List Expr :=
  (row.filter fun (_, e) => 0 < e).map fun (v, e) => if e = 1 then v.toExpr else .op .pow [v.toExpr, .int e]

/-- The operands of the expression of a term. -/
def writtenFactors (vars : List Variable) (t : Term) : List Expr :=
  if t.coeff.isOne then writtenPowers (vars.zip t.exps) else .num t.coeff :: writtenPowers (vars.zip t.exps)

theorem termExpr_eq (vars : List Variable) (t : Term) :
    termExpr vars t = .ofOperands (writtenFactors vars t) := by
  unfold termExpr writtenFactors writtenPowers powers
  dsimp only
  generalize (if t.coeff.isOne then _ else _) = factors
  rcases factors with _ | ⟨a, _ | ⟨b, as⟩⟩ <;> rfl

/-- The written form of a row of powers. -/
theorem exists_row {row : List (Variable × Nat)} (h : ∀ p ∈ row, p.2 ≠ 0 → p.1.Kept p.2) : ∃ ms,
    HaveProducts (writtenPowers row) ms ∧
    (row.map fun p => inSum p.1.toExpr ^ p.2).prod =
      single (ms.map (·.1)).sum (ms.map (·.2)).prod := by
  induction row with
  | nil => exact ⟨[], .nil, AddMonoidAlgebra.one_def⟩
  | cons p row ih =>
    obtain ⟨v, e⟩ := p
    obtain ⟨first, later⟩ := List.forall_mem_cons.mp h
    obtain ⟨ms, operands, value⟩ := ih later
    unfold writtenPowers
    rw [List.map_cons, List.prod_cons, value]
    by_cases occurs : 0 < e
    · obtain ⟨E, c, power, same⟩ := exists_power (first occurs.ne')
      rw [List.filter_cons_of_pos (by simpa using occurs), same, AddMonoidAlgebra.single_mul_single]
      exact ⟨(E, c) :: ms, .cons power operands, by simp⟩
    · rw [List.filter_cons_of_neg (by simpa using occurs), Nat.eq_zero_of_not_pos occurs, pow_zero, one_mul]
      exact ⟨ms, operands, rfl⟩

/-- **A row that is written as a product in normal form.** -/
structure KeptRow (vars : List Variable) (exps : Exponents) : Prop where
  powers : ∀ p ∈ vars.zip exps, p.2 ≠ 0 → p.1.Kept p.2
  monomial : Monomial (content (monomialOf vars exps))

/-- **The expression of a term** has a product in normal form. -/
theorem exists_termExpr (len : t.exps.length = vars.length) (nonzero : t.coeff.toRat ≠ 0)
    (h : KeptRow vars t.exps) : ∃ E c,
    ((termExpr vars t).normalize = .ok (Expr.term E c) ∧ Monomial E ∧ c ≠ 0) ∧
    asSum (MvPolynomial.rename vars.get (.monomial (t.exps.toFinsupp vars.length) t.coeff.toRat)) =
      single E c := by
  obtain ⟨ms, powers, value⟩ := exists_row h.powers
  have row : asSum (MvPolynomial.rename vars.get (.monomial (t.exps.toFinsupp vars.length) t.coeff.toRat)) =
      algebraMap ℚ _ t.coeff.toRat * _ := eval₂Hom_row _ _ len t.coeff.toRat
  rw [value, AddMonoidAlgebra.coe_algebraMap, Function.comp_apply, AddMonoidAlgebra.single_mul_single,
    zero_add] at row
  obtain ⟨ns, operands, sum, prod⟩ : ∃ ns, HaveProducts (writtenFactors vars t) ns ∧
      (ns.map (·.1)).sum = (ms.map (·.1)).sum ∧ (ns.map (·.2)).prod = t.coeff.toRat * (ms.map (·.2)).prod := by
    unfold writtenFactors
    split
    · rename_i one
      exact ⟨ms, powers, rfl, by rw [Coefficient.isOne_iff_toRat.mp one, one_mul]⟩
    · refine ⟨(0, t.coeff.toRat) :: ms, .cons ⟨?_, .zero, nonzero⟩ powers, by simp, by simp⟩
      rw [Expr.normalize, Expr.term_zero, Coefficient.ofRat_toRat]
  have coefficient := Expr.prod_ne_zero operands.monomials
  have total : Monomial (ns.map (·.1)).sum := by
    have monomial := row
    rw [MvPolynomial.rename_monomial] at monomial
    rw [sum, ← content_eq (prod ▸ coefficient) monomial]
    exact h.monomial
  refine ⟨_, _, ⟨?_, total, coefficient⟩, ?_⟩
  · rw [termExpr_eq]
    exact operands.normalize_ofOperands total
  · rw [row, sum, prod]
    rfl

/-! ## 3. The expression of a polynomial -/

/-- **The expressions of terms** add up to what the terms do. -/
theorem exists_terms (len : ∀ t ∈ ts, t.exps.length = vars.length) (nonzero : ∀ t ∈ ts, t.coeff.toRat ≠ 0)
    (h : ∀ t ∈ ts, KeptRow vars t.exps) : ∃ ms,
    HaveProducts (ts.map (termExpr vars)) ms ∧
    (asSum (MvPolynomial.rename vars.get (Terms.toMv vars.length ts))).coeff = totalOf ms := by
  induction ts with
  | nil => exact ⟨[], .nil, by rw [Terms.toMv_nil, map_zero, map_zero]; rfl⟩
  | cons t ts ih =>
    obtain ⟨len, lens⟩ := List.forall_mem_cons.mp len
    obtain ⟨nonzero, nonzeros⟩ := List.forall_mem_cons.mp nonzero
    obtain ⟨first, later⟩ := List.forall_mem_cons.mp h
    obtain ⟨E, c, term, value⟩ := exists_termExpr len nonzero first
    obtain ⟨ms, operands, sum⟩ := ih lens nonzeros later
    refine ⟨(E, c) :: ms, .cons term operands, ?_⟩
    rw [Terms.toMv_cons, map_add, map_add, AddMonoidAlgebra.coeff_add, sum, value,
      AddMonoidAlgebra.coeff_single, Expr.totalOf_cons]

/-- A power of a row is one of its monomial. -/
theorem monomialOf_of_mem_zip (nodup : vars.Nodup) {exps : Exponents} {p : Variable × Nat}
    (h : p ∈ vars.zip exps) : monomialOf vars exps p.1 = p.2 := by
  obtain ⟨i, hi, rfl⟩ := List.mem_iff_getElem.mp h
  obtain ⟨left, right⟩ : i < vars.length ∧ i < exps.length := by simpa using hi
  rw [List.getElem_zip]
  refine (monomialOf_get nodup exps ⟨i, left⟩).trans ?_
  simp [right]

theorem toExpr_eq_normalize (p : Polynomial) :
    p.toExpr = (Expr.ofSummands (p.terms.reverse.map (termExpr p.vars))).normalize := by
  unfold toExpr
  rcases p.terms.reverse.map (termExpr p.vars) with _ | ⟨a, _ | ⟨b, as⟩⟩ <;> rfl

/-- **The expression of a polynomial** is the normal form of the sum of products that it is. -/
theorem toExpr_eq (sound : p.Sound) (h : Kept p.toMv) :
    p.toExpr = .ok (sumOf (asSum p.toMv).coeff) ∧ ∀ E ∈ (asSum p.toMv).coeff.support, Monomial E := by
  have consistent : p.terms.Descending p.vars.length := sound.consistent
  have rows : ∀ t ∈ p.terms, KeptRow p.vars t.exps := by
    intro t ht
    have mem := sound.mem_support_iff.mpr ⟨t, ht, rfl⟩
    refine ⟨fun u hu some => ?_, h.monomials _ mem⟩
    have same := monomialOf_of_mem_zip sound.nodup hu
    have kept := h.powers _ mem u.1 (same ▸ some)
    rwa [same] at kept
  obtain ⟨ms, operands, sum⟩ := exists_terms
    (fun t ht => consistent.length (List.mem_reverse.mp ht))
    (fun t ht => consistent.coeff_ne_zero (List.mem_reverse.mp ht))
    fun t ht => rows t (List.mem_reverse.mp ht)
  rw [Terms.toMv_reverse, ← toMv_of_vars_eq rfl] at sum
  rw [toExpr_eq_normalize, operands.normalize_ofSummands, sum]
  refine ⟨rfl, fun E hE => ?_⟩
  obtain ⟨m, hm, rfl⟩ := Expr.exists_of_mem_support hE
  exact (operands.monomials m hm).1

end Polynomial

end Eliminant
