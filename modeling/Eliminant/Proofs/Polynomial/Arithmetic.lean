import Eliminant.Proofs.Polynomial.Merge

/-!
# The arithmetic of polynomials is that of a ring

Polynomials over whatever lists of distinct variables are added, subtracted and multiplied as the
polynomials in all variables that they stand for:

* `toMv_add`, `toMv_sub`, `toMv_neg`: sums and differences never fail, also where the tables of two
  polynomials are merged (`mergeTables_eq`);
* `mul_answers`: a product fails exactly where two terms have exponents of one variable that do not fit
  together (`Overflows`), which does not depend on how the factors are listed;
* `mul_eq_mulSparse`, `mulTerm_eq_mulSparse`: a factor with a single term is treated apart, but not
  differently, and the order in which products are looked up in their table does not matter.

**`Polynomial.arithmetic_spec`** puts them together and adds the laws of a ring, which hold up to the
lists of variables.
-/

namespace Eliminant

open MvPolynomial (coeff)

namespace Polynomial

variable {vars : List Variable} {p q r : Polynomial} {visit : RowTable → RowTable}

/-! ## 1. Sums -/

theorem toMv_of_vars_eq (h : p.vars = vars) :
    p.toMv = MvPolynomial.rename vars.get (Terms.toMv vars.length p.terms) := by
  subst h
  rfl

theorem Sound.with_terms (h : p.Sound) (vars : q.vars = p.vars)
    (desc : q.terms.Descending p.vars.length) : q.Sound := by
  rw [← vars] at desc
  exact ⟨desc, vars ▸ h.nodup, vars ▸ h.proper⟩

/-- The terms of an aligned polynomial are in order over the common list. -/
theorem Aligned.descending_right {r : Polynomial × Polynomial} (h : Aligned p q r) :
    r.2.terms.Descending r.1.vars.length := h.vars_eq ▸ h.right.consistent

theorem Sound.add (hp : p.Sound) (hq : q.Sound) : (p + q).Sound := by
  have a := align_spec hp hq
  exact a.left.with_terms rfl (Terms.Descending.add a.left.consistent a.descending_right)

theorem toMv_add (hp : p.Sound) (hq : q.Sound) : (p + q).toMv = p.toMv + q.toMv := by
  have a := align_spec hp hq
  show MvPolynomial.rename (align p q).1.vars.get
    (Terms.toMv (align p q).1.vars.length ((align p q).1.terms.add (align p q).2.terms)) = _
  rw [Terms.toMv_add, map_add, ← toMv_of_vars_eq rfl, ← toMv_of_vars_eq a.vars_eq, a.toMv_left,
    a.toMv_right]

theorem Sound.neg (hp : p.Sound) : (-p).Sound := hp.with_terms rfl hp.consistent.neg

theorem Sound.sub (hp : p.Sound) (hq : q.Sound) : (p - q).Sound := hp.add hq.neg

theorem toMv_sub (hp : p.Sound) (hq : q.Sound) : (p - q).toMv = p.toMv - q.toMv := by
  rw [sub_eq_add_neg, ← toMv_neg]
  exact toMv_add hp hq.neg

/-! ## 2. Monomials, and exponents that do not fit together -/

/-- The monomial in all variables that a row over `vars` stands for. -/
noncomputable def monomialOf (vars : List Variable) (exps : Exponents) : Variable →₀ ℕ :=
  (exps.toFinsupp vars.length).mapDomain vars.get

theorem monomialOf_get (nodup : vars.Nodup) (exps : Exponents) (i : Fin vars.length) :
    monomialOf vars exps (vars.get i) = exps.getD i 0 :=
  Finsupp.mapDomain_apply (List.nodup_iff_injective_get.mp nodup) _ i

theorem monomialOf_of_notMem {v : Variable} (h : v ∉ vars) (exps : Exponents) : monomialOf vars exps v = 0 := by
  refine Finsupp.mapDomain_of_notMem_range _ _ fun range => h ?_
  obtain ⟨i, rfl⟩ := range
  exact List.get_mem vars i

/-- **The monomials of a polynomial are those of its rows.** -/
theorem Sound.mem_support_iff (h : p.Sound) {e : Variable →₀ ℕ} :
    e ∈ p.toMv.support ↔ ∃ t ∈ p.terms, monomialOf p.vars t.exps = e := by
  classical
  have consistent : p.terms.Descending p.vars.length := h.consistent
  rw [toMv, MvPolynomial.support_rename_of_injective h.get_injective, Finset.mem_image]
  simp only [consistent.mem_support_iff, exists_exists_and_eq_and]
  rfl

/-- **The coefficients of a polynomial are those of its terms.** -/
theorem Sound.coeff_toMv (h : p.Sound) {t : Term} (ht : t ∈ p.terms) :
    coeff (monomialOf p.vars t.exps) p.toMv = t.coeff.toRat := by
  have consistent : p.terms.Descending p.vars.length := h.consistent
  rw [toMv, monomialOf, MvPolynomial.coeff_rename_mapDomain _ h.get_injective, consistent.coeff_toMv ht]

/-- **Some term of `p` and some term of `q` have exponents of one variable that do not fit together.** -/
def Overflows (p q : Polynomial) : Prop :=
  ∃ t ∈ p.terms, ∃ u ∈ q.terms, ∃ v,
    maxExponent < monomialOf p.vars t.exps v + monomialOf q.vars u.exps v

/-- Whether exponents fit together does not depend on the lists of variables. -/
theorem overflows_iff (hp : p.Sound) (hq : q.Sound) :
    Overflows p q ↔ ∃ d ∈ p.toMv.support, ∃ e ∈ q.toMv.support, ∃ v, maxExponent < d v + e v := by
  simp only [Overflows, hp.mem_support_iff, hq.mem_support_iff, exists_exists_and_eq_and]

theorem exceed_iff (nodup : vars.Nodup) {as bs : Exponents} :
    Exponents.Exceed vars.length as bs ↔
      ∃ v, maxExponent < monomialOf vars as v + monomialOf vars bs v := by
  constructor
  · intro h
    obtain ⟨i, hi⟩ := h
    refine ⟨vars.get i, ?_⟩
    rwa [monomialOf_get nodup, monomialOf_get nodup]
  · intro h
    obtain ⟨v, hv⟩ := h
    by_cases mem : v ∈ vars
    · obtain ⟨i, rfl⟩ := List.get_of_mem mem
      rw [monomialOf_get nodup, monomialOf_get nodup] at hv
      exact ⟨i, hv⟩
    · rw [monomialOf_of_notMem mem, monomialOf_of_notMem mem] at hv
      exact absurd hv (Nat.not_lt_zero _)

/-! ## 3. Products -/

/-- **A factor with a single term is treated apart, but not differently**, and no order in which a table is
    visited shows. -/
theorem mul_eq_mulSparse (perm : ∀ table, (visit table).Perm table) (hp : p.Sound) (hq : q.Sound) :
    p.mul q = p.mulSparse visit q := by
  have a := align_spec hp hq
  have same := Terms.mulVisiting_eq_mul perm a.left.consistent a.descending_right
  rw [mul_eq_of_descending a.left.consistent a.descending_right]
  exact congrArg (fun terms => do return (⟨(align p q).1.vars, ← terms⟩ : Polynomial)) same.symm

/-- **Multiplying by a term is the product with it**, whichever of the two comes first. -/
theorem mulTerm_eq_mulSparse (perm : ∀ table, (visit table).Perm table) (hp : p.Sound) {t : Term}
    (ht : Sound ⟨p.vars, [t]⟩) : p.mulTerm t = p.mulSparse visit ⟨p.vars, [t]⟩ ∧
      p.mulTerm t = mulSparse visit ⟨p.vars, [t]⟩ p := by
  have left : p.terms.Descending p.vars.length := hp.consistent
  have right : Terms.Descending p.vars.length [t] := ht.consistent
  have term : p.mulTerm t = do return ⟨p.vars, ← p.terms.mulTerm t⟩ :=
    if_neg (not_not.mpr (right.length List.mem_cons_self))
  have behind : p.mul ⟨p.vars, [t]⟩ = p.mulTerm t := by
    rw [term, ← Terms.mul_singleton_right left right]
    exact mul_of_vars_eq rfl left right
  have before : Polynomial.mul ⟨p.vars, [t]⟩ p = p.mulTerm t := by
    rw [term, ← Terms.mul_singleton_left right left]
    exact mul_of_vars_eq rfl right left
  rw [← mul_eq_mulSparse perm hp ht, ← mul_eq_mulSparse perm ht hp]
  exact ⟨behind.symm, before.symm⟩

/-- **A product fails exactly where exponents do not fit together.** -/
theorem mul_answers (hp : p.Sound) (hq : q.Sound) :
    Answers (fun e => e = .exponentOverflow ∧ Overflows p q)
      (fun r => ¬ Overflows p q ∧ r.Sound ∧ r.toMv = p.toMv * q.toMv) (p.mul q) := by
  have a := align_spec hp hq
  have left : (align p q).1.terms.Descending (align p q).1.vars.length := a.left.consistent
  have exceed : Overflows p q ↔ ∃ t ∈ (align p q).1.terms, ∃ u ∈ (align p q).2.terms,
      Exponents.Exceed (align p q).1.vars.length t.exps u.exps := by
    rw [overflows_iff hp hq, ← a.toMv_left, ← a.toMv_right, ← overflows_iff a.left a.right]
    simp only [Overflows, a.vars_eq, exceed_iff a.left.nodup]
  rw [mul_eq_of_descending left a.descending_right, exceed]
  refine (Terms.isProduct_mul left a.descending_right).bind fun ts h => ?_
  obtain ⟨fits, desc, same⟩ := h
  refine ⟨fits, a.left.with_terms rfl desc, ?_⟩
  · show MvPolynomial.rename (align p q).1.vars.get (Terms.toMv (align p q).1.vars.length ts) = _
    rw [same, map_mul, ← toMv_of_vars_eq rfl, ← toMv_of_vars_eq a.vars_eq, a.toMv_left, a.toMv_right]

/-- A product that is answered. -/
theorem Sound.of_mul (hp : p.Sound) (hq : q.Sound) (run : p.mul q = .ok r) :
    r.Sound ∧ r.toMv = p.toMv * q.toMv := ((mul_answers hp hq).of_ok run).2

/-! ## 4. The laws -/

/-- **The operations on three polynomials are those of a ring.** -/
structure IsArithmetic (p q r : Polynomial) : Prop where
  add : (p + q).Sound ∧ (p + q).toMv = p.toMv + q.toMv
  /-- merging tables in place looks up nothing that is not there, and it is how sums are had -/
  mergeTables_eq : p.mergeTables q = .ok (p + q).table
  sub : (p - q).Sound ∧ (p - q).toMv = p.toMv - q.toMv
  neg : (-p).Sound ∧ (-p).toMv = -p.toMv
  /-- a product fails exactly where exponents do not fit together -/
  mul : Answers (fun e => e = .exponentOverflow ∧ Overflows p q)
    (fun m => ¬ Overflows p q ∧ m.Sound ∧ m.toMv = p.toMv * q.toMv) (p.mul q)
  /-- no number of terms is special, and neither is any order in which a table is visited -/
  mul_eq_mulSparse : ∀ visit : RowTable → RowTable, (∀ table, (visit table).Perm table) →
    p.mul q = p.mulSparse visit q
  /-- multiplying by a term is the product with it, from either side -/
  mulTerm_eq_mulSparse : ∀ visit : RowTable → RowTable, (∀ table, (visit table).Perm table) →
    ∀ t : Term, Sound ⟨p.vars, [t]⟩ →
      p.mulTerm t = p.mulSparse visit ⟨p.vars, [t]⟩ ∧ p.mulTerm t = mulSparse visit ⟨p.vars, [t]⟩ p
  add_comm : (p + q).equal (q + p)
  add_assoc : (p + q + r).equal (p + (q + r))
  mul_comm : ∀ m m', p.mul q = .ok m → q.mul p = .ok m' → m.equal m'
  mul_assoc : ∀ pq m qr m', p.mul q = .ok pq → pq.mul r = .ok m → q.mul r = .ok qr →
    p.mul qr = .ok m' → m.equal m'
  mul_add : ∀ m pq pr, p.mul (q + r) = .ok m → p.mul q = .ok pq → p.mul r = .ok pr →
    m.equal (pq + pr)
  add_mul : ∀ m pr qr, (p + q).mul r = .ok m → p.mul r = .ok pr → q.mul r = .ok qr →
    m.equal (pr + qr)

/-- **The arithmetic of polynomials over any lists of distinct variables.** -/
theorem arithmetic_spec (hp : p.Sound) (hq : q.Sound) (hr : r.Sound) : IsArithmetic p q r where
  add := ⟨hp.add hq, toMv_add hp hq⟩
  mergeTables_eq := mergeTables_eq hp hq
  sub := ⟨hp.sub hq, toMv_sub hp hq⟩
  neg := ⟨hp.neg, toMv_neg p⟩
  mul := mul_answers hp hq
  mul_eq_mulSparse _ perm := mul_eq_mulSparse perm hp hq
  mulTerm_eq_mulSparse _ perm _ ht := mulTerm_eq_mulSparse perm hp ht
  add_comm := by
    rw [equal_iff (hp.add hq) (hq.add hp), toMv_add hp hq, toMv_add hq hp, add_comm]
  add_assoc := by
    rw [equal_iff ((hp.add hq).add hr) (hp.add (hq.add hr)), toMv_add (hp.add hq) hr,
      toMv_add hp hq, toMv_add hp (hq.add hr), toMv_add hq hr, add_assoc]
  mul_comm := by
    intro m m' run run'
    obtain ⟨hm, value⟩ := hp.of_mul hq run
    obtain ⟨hm', value'⟩ := hq.of_mul hp run'
    rw [equal_iff hm hm', value, value', mul_comm]
  mul_assoc := by
    intro pq m qr m' runpq run runqr run'
    obtain ⟨hpq, valuepq⟩ := hp.of_mul hq runpq
    obtain ⟨hm, value⟩ := hpq.of_mul hr run
    obtain ⟨hqr, valueqr⟩ := hq.of_mul hr runqr
    obtain ⟨hm', value'⟩ := hp.of_mul hqr run'
    rw [equal_iff hm hm', value, valuepq, value', valueqr, mul_assoc]
  mul_add := by
    intro m pq pr run runpq runpr
    obtain ⟨hm, value⟩ := hp.of_mul (hq.add hr) run
    obtain ⟨hpq, valuepq⟩ := hp.of_mul hq runpq
    obtain ⟨hpr, valuepr⟩ := hp.of_mul hr runpr
    rw [equal_iff hm (hpq.add hpr), value, toMv_add hq hr, toMv_add hpq hpr, valuepq, valuepr,
      mul_add]
  add_mul := by
    intro m pr qr run runpr runqr
    obtain ⟨hm, value⟩ := (hp.add hq).of_mul hr run
    obtain ⟨hpr, valuepr⟩ := hp.of_mul hr runpr
    obtain ⟨hqr, valueqr⟩ := hq.of_mul hr runqr
    rw [equal_iff hm (hpr.add hqr), value, toMv_add hp hq, toMv_add hpr hqr, valuepr, valueqr,
      add_mul]

/-- `x + y` and `y - x`, listed in opposite orders, have a sum in which `x` cancels and a product in which
    `x * y` does, also where its table is visited from the end; `x ^ maxExponent` has a product with
    neither. -/
theorem arithmetic_spec_at :
    let x := Variable.symbol "x"
    let y := Variable.symbol "y"
    let u : Term := ⟨.ofInt 2, [1, 3]⟩
    let p : Polynomial := ⟨[x, y], [⟨.one, [1, 0]⟩, ⟨.one, [0, 1]⟩]⟩
    let q : Polynomial := ⟨[y, x], [⟨.one, [1, 0]⟩, ⟨-.one, [0, 1]⟩]⟩
    let r : Polynomial := ⟨[x], [⟨.one, [maxExponent]⟩]⟩
    let m : Polynomial := ⟨[x, y], [⟨-.one, [2, 0]⟩, ⟨.one, [0, 2]⟩]⟩
    p.Sound ∧ q.Sound ∧ r.Sound ∧ IsArithmetic p q r ∧ IsArithmetic p r q ∧
      p + q = ⟨[x, y], [⟨.ofInt 2, [0, 1]⟩]⟩ ∧ p.mergeTables q = .ok ⟨[.ofInt 2], [0, 1]⟩ ∧
      p.mul q = .ok m ∧ m.toMv = p.toMv * q.toMv ∧
      p.mulSparse List.reverse q = .ok m ∧ p.mulTerm u = p.mulSparse List.reverse ⟨[x, y], [u]⟩ ∧
      p.mul r = .error .exponentOverflow ∧ Overflows p r := by
  intro x y u p q r m
  have hp : p.Sound := by decide
  have hq : q.Sound := by decide
  have hr : r.Sound := by decide
  have pqr : IsArithmetic p q r := arithmetic_spec hp hq hr
  have prq : IsArithmetic p r q := arithmetic_spec hp hr hq
  have run : p.mul q = .ok m := by cbv
  have overflow : p.mul r = .error .exponentOverflow := by cbv
  have sparse : p.mulSparse List.reverse q = .ok m :=
    (pqr.mul_eq_mulSparse _ List.reverse_perm).symm.trans run
  exact ⟨hp, hq, hr, pqr, prq, by cbv, pqr.mergeTables_eq.trans (by cbv), run, (pqr.mul.of_ok run).2.2, sparse,
    (pqr.mulTerm_eq_mulSparse _ List.reverse_perm u (by decide)).1, overflow,
    (prq.mul.of_error overflow).2⟩

end Polynomial

end Eliminant
