import Eliminant.Proofs.Polynomial.Kernels

/-!
# Converting normal forms back

An expression that is the normal form of a polynomial is converted to a polynomial again. That one need not
have the variables of the first: a product whose exponents do not fit becomes a variable as a whole. But it is
the same sum of products (`Polynomial.ofExpr_sumOf`), so that its expression is the one from which it was
converted (**`Polynomial.ofExpr_stable`**).
-/

namespace Eliminant

open AddMonoidAlgebra (single)

namespace Polynomial

open Eliminant.Expr (Factor IsProduct Monomial inSum sumOf)
open MvPolynomial (C X)

variable {p q : Polynomial} {s s' : AddMonoidAlgebra ℚ (Expr →₀ ℚ)} {a f : Expr} {fs : List Expr}
  {v : Variable} {n : ℕ} {E : Expr →₀ ℚ} {c : ℚ} {P : Variable → ℕ → Prop}

/-! ## 1. Polynomials that are a given sum -/

/-- **`p` is the sum `s`**, and it is written in normal form. -/
structure Shows (s : AddMonoidAlgebra ℚ (Expr →₀ ℚ)) (p : Polynomial) : Prop where
  ordinary : p.Ordinary
  kept : Kept p.toMv
  sum : asSum p.toMv = s

theorem Shows.add (hp : Shows s p) (hq : Shows s' q) : Shows (s + s') (p + q) := by
  have value := toMv_add hp.ordinary.sound hq.ordinary.sound
  exact ⟨hp.ordinary.add hq.ordinary, value ▸ hp.kept.add hq.kept, by
    rw [value, map_add, hp.sum, hq.sum]⟩

theorem shows_zero : Shows 0 (ofConstant .zero) := by
  have value : (ofConstant .zero).toMv = 0 := by
    rw [toMv_ofConstant, Coefficient.toRat_zero, map_zero]
  refine ⟨ordinary_ofConstant _, ⟨fun m hm => ?_, fun m hm => ?_⟩, by rw [value, map_zero]⟩
  · simp [value] at hm
  · simp [value] at hm

/-! ## 2. Products -/

/-- **What has been multiplied so far**: powers with `P` of variables with other bases than the factors that
    come later. -/
structure Gathers (P : Variable → ℕ → Prop) (later : List Expr) (s : AddMonoidAlgebra ℚ (Expr →₀ ℚ))
    (p : Polynomial) : Prop where
  ordinary : p.Ordinary
  monomial : ∃ m d, p.toMv = .monomial m d ∧ (∀ v, m v ≠ 0 → P v (m v)) ∧
    ∀ v, m v ≠ 0 → ∀ f ∈ later, v.toExpr.splitExponent.1 ≠ f.splitExponent.1
  vars : ∀ v ∈ p.vars, ∃ n, P v n
  sum : asSum p.toMv = s

/-- A product that is written as a single term. -/
theorem Gathers.shows (h : Gathers Variable.Kept fs (.single E c) p) (hE : Monomial E) (nonzero : c ≠ 0) :
    Shows (.single E c) p := by
  obtain ⟨m, d, value, kept, -⟩ := h.monomial
  have only {k : Variable →₀ ℕ} (hk : k ∈ p.toMv.support) : k = m := by
    rw [value] at hk
    exact Finset.mem_singleton.mp (MvPolynomial.support_monomial_subset hk)
  refine ⟨h.ordinary, ⟨fun k hk => only hk ▸ kept, fun k hk => ?_⟩, h.sum⟩
  rw [only hk, content_eq nonzero (value ▸ h.sum)]
  exact hE

theorem gathers_constant (hp : p.Ordinary) (value : p.toMv = C c) (vars : p.vars = []) :
    Gathers P fs (single 0 c) p := by
  refine ⟨hp, ⟨0, c, value, fun v some => absurd rfl some, fun v some => absurd rfl some⟩, ?_, ?_⟩
  · simp [vars]
  · rw [value, asSum_C]

/-- A single power. -/
theorem PowerOf.gathers (power : PowerOf f v n p) (hf : Factor f) (hP : P v n) :
    Gathers P [] f.inSum p := by
  refine ⟨power.ordinary, ⟨.single v n, 1, ?_, fun u some => ?_, fun _ _ => List.forall_mem_nil _⟩, ?_,
    power.asSum_eq hf⟩
  · rw [power.value, MvPolynomial.X_pow_eq_monomial]
  · obtain ⟨rfl, -⟩ := Finsupp.single_apply_ne_zero.mp some
    rwa [Finsupp.single_eq_same]
  · rw [power.vars]
    exact List.forall_mem_singleton.mpr ⟨n, hP⟩

/-- One more factor. -/
theorem Gathers.mul (h : Gathers P (f :: fs) s p) (hf : Factor f) (power : PowerOf f v n q) (hP : P v n)
    (apart : ∀ g ∈ fs, f.splitExponent.1 ≠ g.splitExponent.1) (fits : ¬ Overflows p q) :
    Answers (fun _ => False) (Gathers P fs (s * f.inSum)) (p.mul q) := by
  obtain ⟨m, d, value, powers, others⟩ := h.monomial
  have fresh : m v = 0 := by
    by_contra some
    exact others v some f List.mem_cons_self power.base
  have exponent (u : Variable) : u = v ∧ (m + .single v n) u = n ∨ (m + .single v n) u = m u := by
    by_cases same : u = v
    · subst same
      exact .inl ⟨rfl, by rw [Finsupp.add_apply, fresh, Finsupp.single_eq_same, zero_add]⟩
    · exact .inr (by rw [Finsupp.add_apply, Finsupp.single_eq_of_ne same, add_zero])
  refine (h.ordinary.mul_of_fits power.ordinary fits).imp fun r hr =>
    ⟨hr.1, ⟨m + .single v n, d, ?_, ?_, ?_⟩, ?_, ?_⟩
  · rw [hr.2.1, value, power.value, MvPolynomial.X_pow_eq_monomial, MvPolynomial.monomial_mul, mul_one]
  · intro u some
    obtain ⟨rfl, same⟩ | same := exponent u
    · rwa [same]
    · rw [same] at some ⊢
      exact powers u some
  · intro u some g hg
    obtain ⟨rfl, -⟩ | same := exponent u
    · rw [power.base]
      exact apart g hg
    · rw [same] at some
      exact others u some g (List.mem_cons_of_mem _ hg)
  · intro u hu
    rw [hr.2.2, (align_spec h.ordinary.sound power.ordinary.sound).mem, power.vars, List.mem_singleton] at hu
    obtain old | rfl := hu
    · exact h.vars u old
    · exact ⟨n, hP⟩
  · rw [hr.2.1, map_mul, h.sum, power.asSum_eq hf]

section Products

variable {R : Polynomial → Prop} {whole : Expr} {t : AddMonoidAlgebra ℚ (Expr →₀ ℚ)}
  (large : ∀ {f fs s product v n p}, Gathers P (f :: fs) s product → PowerOf f v n p → P v n →
    maxExponent < product.maxDegree + p.maxDegree → Answers (fun _ => False) R (ofKernel whole))
  (done : ∀ {p}, Gathers P [] t p → R p)

include large done

/-- **Factors are multiplied**, or the product becomes a variable as a whole. -/
theorem convertFactors_gathers : ∀ (fs : List Expr) {product : Polynomial}
    {s : AddMonoidAlgebra ℚ (Expr →₀ ℚ)}, Gathers P fs s product → (∀ f ∈ fs, Factor f) →
      (∀ f ∈ fs, Answers (fun _ => False) (fun p => ∃ v n, PowerOf f v n p ∧ P v n) (convert f)) →
      fs.Pairwise (fun f g => f.splitExponent.1 ≠ g.splitExponent.1) → s * (fs.map inSum).prod = t →
      Answers (fun _ => False) R (convertFactors whole product fs)
  | [], product, s, h, _, _, _, total => by
    rw [List.map_nil, List.prod_nil, mul_one] at total
    unfold convertFactors
    exact done (total ▸ h)
  | f :: fs, product, s, h, factors, powers, pairs, total => by
    obtain ⟨factor, factors⟩ := List.forall_mem_cons.mp factors
    obtain ⟨power, powers⟩ := List.forall_mem_cons.mp powers
    obtain ⟨apart, pairs⟩ := List.pairwise_cons.mp pairs
    rw [List.map_cons, List.prod_cons, ← mul_assoc] at total
    unfold convertFactors
    refine power.bind fun p hp => ?_
    obtain ⟨v, n, power, hP⟩ := hp
    split
    · rename_i size
      exact large h power hP size
    · rename_i small
      have fits := not_overflows h.ordinary.sound power.ordinary.sound (not_lt.mp small)
      exact (h.mul factor power hP apart fits).bind fun q hq =>
        convertFactors_gathers fs hq factors powers pairs total

end Products

/-- **The coefficient of a product** is multiplied first, which always fits. -/
theorem convertFactors_withCoefficient (whole : Expr) (c : ℚ) (fs : List Expr) : ∃ p : Polynomial,
    p.Ordinary ∧ p.toMv = C c ∧ p.vars = [] ∧
      convertFactors whole (ofConstant .one) (Expr.withCoefficient c fs) = convertFactors whole p fs := by
  unfold Expr.withCoefficient
  split
  · rename_i one
    refine ⟨_, ordinary_ofConstant _, ?_, rfl, rfl⟩
    rw [toMv_ofConstant, Coefficient.toRat_one, one]
  · have first := ordinary_ofConstant .one
    have second := ordinary_ofConstant (.ofRat c)
    have small : (ofConstant .one).maxDegree + (ofConstant (.ofRat c)).maxDegree ≤ maxExponent := by
      rw [maxDegree_ofConstant, maxDegree_ofConstant]
      exact Nat.zero_le _
    have product := first.mul_of_fits second (not_overflows first.sound second.sound small)
    cases run : (ofConstant .one).mul (ofConstant (.ofRat c)) with
    | error e => exact (product.of_error run).elim
    | ok p =>
      obtain ⟨ordinary, value, vars⟩ := product.of_ok run
      refine ⟨p, ordinary, ?_, vars, ?_⟩
      · rw [value, toMv_ofConstant, toMv_ofConstant, Coefficient.toRat_one, Coefficient.toRat_ofRat, map_one,
          one_mul]
      · rw [convertFactors, convert]
        show (if _ then ofKernel whole else (ofConstant .one).mul (ofConstant (.ofRat c)) >>= _) = _
        rw [if_neg (not_lt.mpr small), run]
        rfl

/-- A product in normal form is constant only if it is a number. -/
theorem constant?_term (hE : Monomial E) (some : E ≠ 0) (c : ℚ) :
    (Expr.term E c).constant? = none := by
  obtain ⟨zero, -⟩ | ⟨-, ⟨-, -, factor⟩ | ⟨whole, -⟩⟩ := Expr.term_cases hE c
  · exact absurd zero some
  · exact factor.constant?_eq
  · obtain ⟨f, hf⟩ := List.exists_mem_of_ne_nil _ (mt Expr.factors_eq_nil_iff.mp some)
    rw [whole]
    refine Expr.constant?_mul_eq_none (a := f) ?_ (hE.factor_of_mem f hf).constant?_eq
    unfold Expr.withCoefficient
    split
    · exact hf
    · exact List.mem_cons_of_mem _ hf

/-- How a product in normal form is converted. -/
theorem convert_term_cases (hE : Monomial E) (c : ℚ) :
    (E = 0 ∧ convert (Expr.term E c) = .ok (ofConstant (.ofRat c))) ∨
    E ≠ 0 ∧ (c = 1 ∧ Expr.factors E = [Expr.term E c] ∧ (Expr.term E c).Factor ∨
      convert (Expr.term E c) = convertFactors (Expr.term E c) (ofConstant .one)
        (Expr.withCoefficient c (Expr.factors E))) := by
  obtain ⟨zero, whole⟩ | ⟨some, single | ⟨whole, -⟩⟩ := Expr.term_cases hE c
  · exact .inl ⟨zero, by rw [whole, convert]⟩
  · exact .inr ⟨some, .inl single⟩
  · refine .inr ⟨some, .inr ?_⟩
    have constant := constant?_term hE some c
    rw [whole] at constant ⊢
    unfold convert
    dsimp only
    rw [constant]

/-- The factors of a monomial have different bases. -/
theorem pairwise_factors (hE : Monomial E) :
    (Expr.factors E).Pairwise fun f g => f.splitExponent.1 ≠ g.splitExponent.1 := by
  refine ((Expr.factors_perm E).pairwise_iff fun {_ _} h => h.symm).mpr (List.pairwise_map.mpr ?_)
  refine E.support.nodup_toList.imp_of_mem fun {b b'} hb hb' other => ?_
  have base {b : Expr} (h : b ∈ E.support.toList) : (b.factor (E b)).splitExponent.1 = b := by
    rw [(hE b (Finsupp.mem_support_iff.mp (Finset.mem_toList.mp h))).splitExponent_factor]
  rwa [base hb, base hb']

/-- **A product in normal form is converted factor by factor**: to a polynomial with `R`, if its factors are
    converted to powers with `P` and a product that does not fit has `R` as a whole. -/
theorem convert_term {R : Polynomial → Prop} (hE : Monomial E)
    (powers : ∀ f ∈ Expr.factors E,
      Answers (fun _ => False) (fun p => ∃ v n, PowerOf f v n p ∧ P v n) (convert f))
    (large : E ≠ 0 → ∀ {f fs s product v n p}, Gathers P (f :: fs) s product → PowerOf f v n p → P v n →
      maxExponent < product.maxDegree + p.maxDegree → Answers (fun _ => False) R (ofKernel (Expr.term E c)))
    (done : ∀ {p}, Gathers P [] (single E c) p → R p) :
    Answers (fun _ => False) R (convert (Expr.term E c)) := by
  have shown := Expr.inSum_term hE c
  obtain ⟨rfl, run⟩ | ⟨some, ⟨-, only, factor⟩ | run⟩ := convert_term_cases hE c
  · rw [run]
    refine done (gathers_constant (ordinary_ofConstant _) ?_ rfl)
    rw [toMv_ofConstant, Coefficient.toRat_ofRat]
  · refine (powers _ (only ▸ List.mem_singleton_self _)).imp fun p hp => ?_
    obtain ⟨v, n, power, hP⟩ := hp
    exact done (shown ▸ power.gathers factor hP)
  · obtain ⟨p, ordinary, value, vars, first⟩ :=
      convertFactors_withCoefficient (Expr.term E c) c (Expr.factors E)
    have product : single 0 c * ((Expr.factors E).map inSum).prod = single E c := by
      rw [Expr.prod_inSum hE.factor_of_mem, hE.contentOf_factors, AddMonoidAlgebra.single_mul_single, zero_add,
        mul_one]
    rw [run, first]
    exact convertFactors_gathers (large some) done _ (gathers_constant ordinary value vars) hE.factor_of_mem
      powers (pairwise_factors hE) product

/-- A variable that stands for a whole product. -/
theorem ofKernel_product (h : IsProduct a) (number : a.isNumber = false) :
    Answers (fun _ => False) (Shows a.inSum) (ofKernel a) := by
  obtain ⟨v, run, rfl, ordinary⟩ := exists_ofKernel h.normalize_eq number
  have whole : Gathers Variable.Kept [] v.toExpr.inSum (ofVariable v) := by
    refine ⟨ordinary, ⟨.single v 1, 1, toMv_ofVariable v, fun u some => ?_, fun _ _ => List.forall_mem_nil _⟩,
      List.forall_mem_singleton.mpr ⟨1, .inr ⟨rfl, h⟩⟩, by rw [toMv_ofVariable, asSum_X]⟩
    obtain ⟨rfl, -⟩ := Finsupp.single_apply_ne_zero.mp some
    exact .inr ⟨Finsupp.single_eq_same, h⟩
  rw [run]
  exact whole.shows h.monomial h.nonzero

/-- **A product in normal form is converted** to what it is. -/
theorem convert_term_shows (hE : Monomial E) (nonzero : c ≠ 0) :
    Answers (fun _ => False) (Shows (single E c)) (convert (Expr.term E c)) := by
  refine convert_term (P := Variable.Kept) hE (fun f hf => ?_) (fun some => ?_)
    fun h => h.shows hE nonzero
  · have factor := hE.factor_of_mem f hf
    refine (convert_factor factor).imp fun p hp => ?_
    obtain ⟨v, n, power⟩ := hp
    exact ⟨v, n, power, power.kept factor⟩
  · intros
    rw [← Expr.inSum_term hE c]
    exact ofKernel_product (Expr.isProduct_term hE nonzero) (Expr.isNumber_term hE some c)

section Sums

variable {S : AddMonoidAlgebra ℚ (Expr →₀ ℚ) → Polynomial → Prop}
  (add : ∀ {s s' p q}, S s p → S s' q → S (s + s') (p + q))

include add

/-- **Terms are added.** -/
theorem convertTerms_shows : ∀ (as : List Expr) {sum : Polynomial} {s : AddMonoidAlgebra ℚ (Expr →₀ ℚ)},
    S s sum → (∀ a ∈ as, Answers (fun _ => False) (S a.inSum) (convert a)) →
      Answers (fun _ => False) (S (s + (as.map inSum).sum)) (convertTerms sum as)
  | [], sum, s, h, _ => by
    unfold convertTerms
    rwa [List.map_nil, List.sum_nil, add_zero]
  | a :: as, sum, s, h, each => by
    obtain ⟨first, later⟩ := List.forall_mem_cons.mp each
    unfold convertTerms
    rw [List.map_cons, List.sum_cons, ← add_assoc]
    exact first.bind fun p hp => convertTerms_shows as (add h hp) later

end Sums

section NormalForms

variable {g : (Expr →₀ ℚ) →₀ ℚ}

/-- The products of a sum in normal form add up to it. -/
theorem sum_inSum (hg : ∀ E ∈ g.support, Monomial E) :
    ((Expr.sort (g.support.toList.map fun E => Expr.term E (g E))).map inSum).sum = .ofCoeff g := by
  have each : ∀ E ∈ g.support.toList, inSum (Expr.term E (g E)) = single E (g E) := fun E hE =>
    Expr.inSum_term (hg E (Finset.mem_toList.mp hE)) _
  rw [((Expr.sort_perm _).map inSum).sum_eq, List.map_map]
  refine (congrArg List.sum (List.map_congr_left each)).trans ((Finset.sum_map_toList _ _).trans ?_)
  exact AddMonoidAlgebra.sum_coeff_single (.ofCoeff g)

/-- A sum of several products has one that is no number. -/
theorem exists_ne_zero (many : 2 ≤ g.support.card) : ∃ E ∈ g.support, E ≠ 0 := by
  by_contra none
  have zeros : g.support ⊆ {0} := fun E hE => by
    rw [Finset.mem_singleton]
    by_contra some
    exact none ⟨E, hE, some⟩
  have few := Finset.card_le_card zeros
  rw [Finset.card_singleton] at few
  omega

/-- **A sum in normal form is converted** to the sum of what its products are converted to. -/
theorem convert_sumOf {S : AddMonoidAlgebra ℚ (Expr →₀ ℚ) → Polynomial → Prop}
    (add : ∀ {s s' p q}, S s p → S s' q → S (s + s') (p + q)) (zero : S 0 (ofConstant .zero))
    (hg : ∀ E ∈ g.support, Monomial E)
    (each : ∀ E ∈ g.support, Answers (fun _ => False) (S (single E (g E))) (convert (Expr.term E (g E)))) :
    Answers (fun _ => False) (S (.ofCoeff g)) (convert (sumOf g)) := by
  have total := sum_inSum hg
  have perm := Expr.sort_perm (g.support.toList.map fun E => Expr.term E (g E))
  have terms : ∀ a ∈ Expr.sort (g.support.toList.map fun E => Expr.term E (g E)),
      Answers (fun _ => False) (S a.inSum) (convert a) := by
    intro a ha
    obtain ⟨E, hE, rfl⟩ := List.mem_map.mp (perm.mem_iff.mp ha)
    have mem := Finset.mem_toList.mp hE
    rw [Expr.inSum_term (hg E mem)]
    exact each E mem
  have members : ∀ E ∈ g.support, Expr.term E (g E) ∈ _ := fun E hE =>
    perm.mem_iff.mpr (List.mem_map_of_mem (Finset.mem_toList.mpr hE))
  have count := perm.length_eq
  rw [List.length_map, Finset.length_toList] at count
  unfold sumOf
  generalize Expr.sort _ = as at total terms members count
  rcases as with _ | ⟨a, _ | ⟨b, as⟩⟩
  · rw [List.map_nil, List.sum_nil] at total
    rw [convert, ← total]
    exact zero
  · rw [List.map_singleton, List.sum_singleton] at total
    rw [← total]
    exact terms a List.mem_cons_self
  · obtain ⟨E, hE, some⟩ := exists_ne_zero (g := g) (by simp at count; omega)
    have constant := Expr.constant?_add_eq_none (members E hE) (constant?_term (hg E hE) some (g E))
    have run := convertTerms_shows add _ zero terms
    rw [total, zero_add] at run
    unfold convert
    dsimp only
    rw [constant]
    exact run

theorem wellFormed_sumOf (hg : ∀ E ∈ g.support, Monomial E) : (sumOf g).malformed? = none := by
  have each : ∀ a ∈ Expr.sort (g.support.toList.map fun E => Expr.term E (g E)), a.malformed? = none := by
    intro a ha
    obtain ⟨E, hE, rfl⟩ := List.mem_map.mp ((Expr.sort_perm _).mem_iff.mp ha)
    exact Expr.wellFormed_term (hg E (Finset.mem_toList.mp hE)) _
  unfold sumOf
  generalize Expr.sort _ = as at each
  rcases as with _ | ⟨a, _ | ⟨b, as⟩⟩
  · rfl
  · exact each a List.mem_cons_self
  · exact Expr.malformed?_op.mpr ⟨by simp [Operator.accepts, Operator.arity], each⟩

/-- So it is if no operator in it has the wrong number of operands. -/
theorem ofExpr_sumOf {S : AddMonoidAlgebra ℚ (Expr →₀ ℚ) → Polynomial → Prop}
    (add : ∀ {s s' p q}, S s p → S s' q → S (s + s') (p + q)) (zero : S 0 (ofConstant .zero))
    (hg : ∀ E ∈ g.support, Monomial E)
    (each : ∀ E ∈ g.support, Answers (fun _ => False) (S (single E (g E))) (convert (Expr.term E (g E)))) :
    ∃ q, ofExpr (sumOf g) = .ok q ∧ S (.ofCoeff g) q := by
  have conversion := convert_sumOf add zero hg each
  unfold ofExpr
  rw [wellFormed_sumOf hg]
  cases run : convert (sumOf g) with
  | ok q => exact ⟨q, rfl, conversion.of_ok run⟩
  | error e => exact (conversion.of_error run).elim

/-- **The round trip of an expression is stable after one pass**, where its polynomial is written as a sum in
    normal form: the expression of the polynomial is converted, and the polynomial that it is converted to has
    the same expression. -/
theorem ofExpr_stable (h : ofExpr a = .ok p) (kept : Kept p.toMv) :
    ∃ e q, p.toExpr = .ok e ∧ ofExpr e = .ok q ∧ q.toExpr = .ok e := by
  have ordinary : p.Ordinary := (ofExprOrKernel_gives a).of_ok (by rw [ofExprOrKernel, h])
  obtain ⟨run, monomials⟩ := toExpr_eq ordinary.sound kept
  obtain ⟨q, back, shows⟩ := ofExpr_sumOf Shows.add shows_zero monomials fun E hE =>
    convert_term_shows (monomials E hE) (Finsupp.mem_support_iff.mp hE)
  refine ⟨_, q, run, back, ?_⟩
  rw [(toExpr_eq shows.ordinary.sound shows.kept).1, shows.sum]

/-- A product with a sum, which is expanded, in a name and a kernel. -/
theorem ofExpr_stable_at :
    let y := Variable.symbol "y"
    let s := Variable.kernel (.call "sin" [.var "x"])
    let a := Expr.op .mul [.call "sin" [.var "x"], .op .add [.var "y", .num .one]]
    let p : Polynomial := ⟨[y, s], [⟨.one, [1, 1]⟩, ⟨.one, [0, 1]⟩]⟩
    ofExpr a = .ok p ∧ Kept p.toMv ∧ ∃ e q, p.toExpr = .ok e ∧ ofExpr e = .ok q ∧ q.toExpr = .ok e := by
  intro y s a p
  have run : ofExpr a = .ok p := by cbv
  have ordinary : p.Ordinary := (ofExprOrKernel_gives a).of_ok (by rw [ofExprOrKernel, run])
  have kept : Kept p.toMv := by
    refine kept_of_bases fun m hm v some => ?_
    have listed : v = y ∨ v = s := by simpa [p] using ordinary.sound.mem_vars hm some
    obtain rfl | rfl := listed
    · exact Expr.base_var "y" one_pos
    · exact ⟨one_pos, .base rfl, by cbv, by cbv⟩
  exact ⟨run, kept, ofExpr_stable run kept⟩

end NormalForms

end Polynomial

end Eliminant
