import Eliminant.Proofs.Polynomial.Restored
import Mathlib.Data.List.Sort

/-!
# Polynomials in names, written and read back

A polynomial in names becomes an expression in normal form, and converting the expression gives the same
polynomial, over the names that occur (**`Polynomial.toExpr_roundTrip`**).

The two halves meet at the sum of products that the polynomial is (`asSum`). In names it tells the polynomial
(`asSum_injective`). Reading it back, nothing becomes a kernel: a name is converted to itself, and as long as no
two exponents of a term exceed the largest exponent together (`FitTogether`) every product is multiplied out
(`convert_content`).
-/

namespace Eliminant

open AddMonoidAlgebra (single)

/-- The sum of the two largest exponents of a row. -/
def Exponents.twoLargest (exps : Exponents) : Nat := ((exps.insertionSort (· ≥ ·)).take 2).sum

/-- A variable that is a name. -/
def Variable.IsName (v : Variable) : Prop := ∃ x, v = .symbol x

theorem Variable.IsName.base {v : Variable} (h : v.IsName) : v.toExpr.Base 1 := by
  obtain ⟨x, rfl⟩ := h
  exact Expr.base_var x one_pos

namespace Polynomial

open Eliminant.Expr (Base Factor Monomial factors inSum sumOf)
open MvPolynomial (C X)

variable {p q : Polynomial} {f g : MvPolynomial Variable ℚ} {m k : Variable →₀ ℕ} {v : Variable}
  {vars : List Variable} {exps : Exponents} {s s' : AddMonoidAlgebra ℚ (Expr →₀ ℚ)}

/-! ## 1. Exponents that fit together -/

/-- **No two exponents exceed the largest exponent together.** -/
def FitTogether (m : Variable →₀ ℕ) : Prop := ∀ u v, u ≠ v → m u + m v ≤ maxExponent

theorem FitTogether.le (h : FitTogether m) (v : Variable) : m v ≤ maxExponent := by
  obtain ⟨u, other⟩ : ∃ u, u ≠ v := by
    by_cases same : v = .symbol ""
    · exact ⟨.temporary 0, by simp [same]⟩
    · exact ⟨_, Ne.symm same⟩
  exact (Nat.le_add_left _ _).trans (h u v other)

/-- The two first numbers of a descending list are the largest two. -/
theorem pairwise_of_descending {as : List ℕ} (sorted : as.Pairwise (· ≥ ·)) :
    as.Pairwise (fun a b => a + b ≤ (as.take 2).sum) ∧ ∀ a ∈ as, a ≤ (as.take 2).sum := by
  rcases as with _ | ⟨a, _ | ⟨b, as⟩⟩
  · simp
  · simp
  · obtain ⟨first, sorted⟩ := List.pairwise_cons.mp sorted
    have second : ∀ c ∈ b :: as, c ≤ b := List.forall_mem_cons.mpr ⟨le_rfl, (List.pairwise_cons.mp sorted).1⟩
    have sum : ((a :: b :: as).take 2).sum = a + b := by simp
    rw [sum]
    refine ⟨List.pairwise_cons.mpr ⟨fun c hc => Nat.add_le_add_left (second c hc) a, ?_⟩, ?_⟩
    · exact List.pairwise_of_forall_mem_list fun c hc d hd => Nat.add_le_add (first c hc) (second d hd)
    · exact List.forall_mem_cons.mpr ⟨Nat.le_add_right a b, fun c hc => (first c hc).trans (Nat.le_add_right a b)⟩

/-- No two exponents of a row are larger in sum than the two largest. -/
theorem pairwise_twoLargest (exps : Exponents) :
    exps.Pairwise (fun a b => a + b ≤ exps.twoLargest) ∧ ∀ e ∈ exps, e ≤ exps.twoLargest := by
  have perm : (exps.insertionSort (· ≥ ·)).Perm exps := List.perm_insertionSort _ exps
  obtain ⟨pairs, each⟩ := pairwise_of_descending (List.pairwise_insertionSort (· ≥ ·) exps)
  refine ⟨?_, fun e he => each e (perm.mem_iff.mpr he)⟩
  exact (perm.pairwise_iff fun {a b} (h : a + b ≤ _) => (Nat.add_comm b a).trans_le h).mp pairs

theorem fitTogether_of_twoLargest (nodup : vars.Nodup) (len : exps.length = vars.length)
    (h : exps.twoLargest ≤ maxExponent) : FitTogether (monomialOf vars exps) := by
  obtain ⟨pairs, each⟩ := pairwise_twoLargest exps
  have single : ∀ v, monomialOf vars exps v ≤ maxExponent :=
    (maxDegree_row_le_iff nodup len).mp (maxDegree_le_iff.mpr fun e he => (each e he).trans h)
  have row (i : Fin vars.length) : ∃ hi : i.val < exps.length, monomialOf vars exps (vars.get i) = exps[i.val] := by
    have hi : i.val < exps.length := by rw [len]; exact i.2
    exact ⟨hi, by rw [monomialOf_get nodup]; simp [hi]⟩
  intro u v other
  by_cases missing : u ∉ vars ∨ v ∉ vars
  · obtain missing | missing := missing
    · rw [monomialOf_of_notMem missing, zero_add]
      exact single v
    · rw [monomialOf_of_notMem missing]
      exact single u
  · obtain ⟨memu, memv⟩ := not_or.mp missing
    obtain ⟨i, rfl⟩ := List.get_of_mem (not_not.mp memu)
    obtain ⟨j, rfl⟩ := List.get_of_mem (not_not.mp memv)
    obtain ⟨hi, valuei⟩ := row i
    obtain ⟨hj, valuej⟩ := row j
    rw [valuei, valuej]
    refine le_trans ?_ h
    obtain lt | lt := Nat.lt_or_gt_of_ne fun same : i.val = j.val => other (congrArg _ (Fin.ext same))
    · exact List.pairwise_iff_getElem.mp pairs _ _ hi hj lt
    · exact (Nat.add_comm _ _).trans_le (List.pairwise_iff_getElem.mp pairs _ _ hj hi lt)

/-! ## 2. Sums of products of names -/

/-- Every variable of the polynomial is a name. -/
def InNames (f : MvPolynomial Variable ℚ) : Prop := ∀ m ∈ f.support, ∀ v, m v ≠ 0 → v.IsName

theorem InNames.kept (h : InNames f) : Kept f := kept_of_bases fun m hm v some => (h m hm v some).base

/-- A monomial in names tells its exponents. -/
theorem content_var (h : ∀ v, m v ≠ 0 → v.IsName) (x : String) : content m (.var x) = m (.symbol x) := by
  rw [content_apply (fun v some => (h v some).base), Finset.sum_eq_single (.symbol x)]
  · exact if_pos rfl
  · intro v hv other
    obtain ⟨y, rfl⟩ := h v (Finsupp.mem_support_iff.mp hv)
    exact if_neg fun same => other (congrArg Variable.symbol (Expr.var.inj same))
  · intro missing
    rw [Finsupp.notMem_support_iff.mp missing, Nat.cast_zero, ite_self]

theorem content_injOn : Set.InjOn content {m | ∀ v, m v ≠ 0 → v.IsName} := by
  intro m hm k hk same
  ext v
  by_cases name : v.IsName
  · obtain ⟨x, rfl⟩ := name
    have exponents := (content_var hm x).symm.trans (same ▸ content_var hk x)
    exact_mod_cast exponents
  · have zero {m : Variable →₀ ℕ} (hm : ∀ v, m v ≠ 0 → v.IsName) : m v = 0 := by
      by_contra some
      exact name (hm v some)
    rw [zero hm, zero hk]

theorem weight_eq_one (h : ∀ v, m v ≠ 0 → v.IsName) : weight m = 1 :=
  Finset.prod_eq_one fun v hv => by
    dsimp only
    rw [(h v (Finsupp.mem_support_iff.mp hv)).base.partsOf_eq, one_pow]

namespace InNames

theorem coeff_asSum (h : InNames f) :
    (asSum f).coeff = ∑ m ∈ f.support, Finsupp.single (content m) (f.coeff m) := by
  conv_lhs => rw [f.as_sum, map_sum, AddMonoidAlgebra.coeff_sum]
  refine Finset.sum_congr rfl fun m hm => ?_
  rw [asSum_monomial, weight_eq_one (h m hm), mul_one, AddMonoidAlgebra.coeff_single]

/-- The products of the sum are the monomials of the polynomial. -/
theorem exists_content (h : InNames f) {E : Expr →₀ ℚ} (hE : E ∈ (asSum f).coeff.support) :
    ∃ m ∈ f.support, content m = E := by
  classical
  rw [h.coeff_asSum] at hE
  obtain ⟨m, hm, some⟩ := Finset.mem_biUnion.mp (Finsupp.support_finsetSum hE)
  exact ⟨m, hm, (Finset.mem_singleton.mp (Finsupp.support_single_subset some)).symm⟩

/-- **A polynomial in names is told by its sum.** -/
theorem coeff_eq (h : InNames f) (hm : ∀ v, m v ≠ 0 → v.IsName) :
    f.coeff m = (asSum f).coeff (content m) := by
  classical
  rw [h.coeff_asSum, Finsupp.finsetSum_apply, Finset.sum_eq_single m]
  · rw [Finsupp.single_eq_same]
  · intro k hk other
    exact Finsupp.single_eq_of_ne fun same => other (content_injOn (h k hk) hm same.symm)
  · intro missing
    rw [MvPolynomial.notMem_support_iff.mp missing, Finsupp.single_zero, Finsupp.coe_zero, Pi.zero_apply]

/-- **Polynomials in names that are the same sum are equal.** -/
theorem eq_of_asSum_eq (hf : InNames f) (hg : InNames g) (same : asSum f = asSum g) : f = g := by
  ext m
  by_cases names : ∀ v, m v ≠ 0 → v.IsName
  · rw [hf.coeff_eq names, hg.coeff_eq names, same]
  · rw [MvPolynomial.notMem_support_iff.mp fun hm => names (hf m hm),
      MvPolynomial.notMem_support_iff.mp fun hm => names (hg m hm)]

end InNames

/-! ## 3. Reading back -/

/-- **`p` is the sum `s`**, over variables with `V`. -/
structure Lists (V : Variable → Prop) (s : AddMonoidAlgebra ℚ (Expr →₀ ℚ)) (p : Polynomial) : Prop where
  ordinary : p.Ordinary
  sum : asSum p.toMv = s
  vars : ∀ v ∈ p.vars, V v

variable {V : Variable → Prop}

theorem Lists.add (hp : Lists V s p) (hq : Lists V s' q) : Lists V (s + s') (p + q) := by
  refine ⟨hp.ordinary.add hq.ordinary, ?_, fun v hv => ?_⟩
  · rw [toMv_add hp.ordinary.sound hq.ordinary.sound, map_add, hp.sum, hq.sum]
  · exact (((align_spec hp.ordinary.sound hq.ordinary.sound).mem v).mp hv).elim (hp.vars v) (hq.vars v)

theorem lists_zero : Lists V 0 (ofConstant .zero) := by
  refine ⟨ordinary_ofConstant _, ?_, List.forall_mem_nil _⟩
  rw [toMv_ofConstant, Coefficient.toRat_zero, map_zero, map_zero]

/-- A factor that is multiplied next fits. -/
theorem Gathers.fits {e : Expr} {es : List Expr} {n : ℕ} (fits : FitTogether m)
    (h : Gathers (fun v n => n = m v ∧ n ≠ 0) (e :: es) s p) (power : PowerOf e v n q) (exponent : n = m v) :
    p.maxDegree + q.maxDegree ≤ maxExponent := by
  obtain ⟨k, d, value, powers, others⟩ := h.monomial
  have bound := fits.le v
  have left : p.maxDegree ≤ maxExponent - n := by
    refine h.ordinary.sound.maxDegree_le_iff.mpr fun j hj u => ?_
    rw [value] at hj
    rw [Finset.mem_singleton.mp (MvPolynomial.support_monomial_subset hj)]
    by_cases zero : k u = 0
    · omega
    · have other : u ≠ v := fun same => others u zero e List.mem_cons_self (same ▸ power.base)
      have pair := fits u v other
      have same := (powers u zero).1
      omega
  have right : q.maxDegree ≤ n := by
    refine power.ordinary.sound.maxDegree_le_iff.mpr fun j hj u => ?_
    rw [power.value, support_X_pow] at hj
    rw [Finset.mem_singleton.mp hj, Finsupp.single_apply]
    split <;> omega
  omega

/-- **A product of names whose exponents fit together is multiplied out.** -/
theorem convert_content (names : ∀ v, m v ≠ 0 → v.IsName) (fits : FitTogether m) (hV : ∀ v, m v ≠ 0 → V v)
    (c : ℚ) : Answers (fun _ => False) (Lists V (single (content m) c)) (convert (Expr.term (content m) c)) := by
  have monomial := monomial_content fun v some => (names v some).base
  refine convert_term (P := fun v n => n = m v ∧ n ≠ 0) monomial (fun e he => ?_) (fun _ => ?_) fun h => ?_
  · obtain ⟨b, hb, rfl⟩ := List.mem_map.mp ((Expr.factors_perm _).mem_iff.mp he)
    have some := Finsupp.mem_support_iff.mp (Finset.mem_toList.mp hb)
    obtain ⟨v, hv, rfl⟩ := exists_base (fun v some => (names v some).base) some
    obtain ⟨x, rfl⟩ := names v hv
    have exponent : content m (Variable.symbol x).toExpr = m (.symbol x) := content_var names x
    rw [exponent]
    exact (convert_name x (Nat.pos_of_ne_zero hv) (fits.le _)).imp fun p power => ⟨_, _, power, rfl, hv⟩
  · intro e es s product v n p gathers power exponent large
    exact absurd (gathers.fits fits power exponent.1) (not_le.mpr large)
  · refine ⟨h.ordinary, h.sum, fun v hv => ?_⟩
    obtain ⟨n, rfl, some⟩ := h.vars v hv
    exact hV v some

/-! ## 4. The round trip -/

/-- A variable that occurs in a polynomial, in some term. -/
def Occurs (p : Polynomial) (v : Variable) : Prop :=
  ∃ t ∈ p.terms, ∃ n, (v, n) ∈ powers p.vars t.exps

/-- The variables of a row that occur in it are those of its monomial. -/
theorem exists_mem_powers_iff (nodup : vars.Nodup) (len : exps.length = vars.length) :
    (∃ n, (v, n) ∈ powers vars exps) ↔ monomialOf vars exps v ≠ 0 := by
  constructor
  · rintro ⟨n, mem⟩
    obtain ⟨mem, pos⟩ := List.mem_filter.mp mem
    rw [monomialOf_of_mem_zip nodup mem]
    exact (of_decide_eq_true pos).ne'
  · intro some
    have listed : v ∈ vars := by
      by_contra missing
      exact some (monomialOf_of_notMem missing exps)
    have first : (vars.zip exps).map Prod.fst = vars := List.map_fst_zip len.ge
    rw [← first, List.mem_map] at listed
    obtain ⟨⟨u, n⟩, hn, rfl⟩ := listed
    have value : monomialOf vars exps u = n := monomialOf_of_mem_zip nodup hn
    rw [value] at some
    exact ⟨n, List.mem_filter.mpr ⟨hn, decide_eq_true (Nat.pos_of_ne_zero some)⟩⟩

/-- The variables that occur are those of the monomials. -/
theorem Sound.occurs_iff (h : p.Sound) : p.Occurs v ↔ ∃ m ∈ p.toMv.support, m v ≠ 0 := by
  have consistent : p.terms.Descending p.vars.length := h.consistent
  simp only [h.mem_support_iff, exists_exists_and_eq_and]
  exact exists_congr fun t => and_congr_right fun ht => exists_mem_powers_iff h.nodup (consistent.length ht)

/-- **A polynomial in names is read back from its expression**, over the names that occur. -/
theorem toExpr_roundTrip (consistent : p.Consistent) (sorted : Variable.Sorted p.vars)
    (names : ∀ v ∈ p.vars, v.IsName) (fits : ∀ t ∈ p.terms, t.exps.twoLargest ≤ maxExponent) :
    ∃ e q, p.toExpr = .ok e ∧ ofExpr e = .ok q ∧ q.equal p = true ∧
      Variable.Sorted q.vars ∧ ∀ v, v ∈ q.vars ↔ p.Occurs v := by
  have sound : p.Sound := by
    refine ⟨consistent, sorted.nodup, fun v hv => ?_⟩
    obtain ⟨x, rfl⟩ := names v hv
    trivial
  have inNames : InNames p.toMv := fun m hm v some => names v (sound.mem_vars hm some)
  obtain ⟨run, monomials⟩ := toExpr_eq sound inNames.kept
  obtain ⟨q, back, lists⟩ := ofExpr_sumOf (S := Lists p.Occurs) Lists.add lists_zero monomials fun E hE => by
    obtain ⟨m, hm, rfl⟩ := inNames.exists_content hE
    have occurs : ∀ v, m v ≠ 0 → p.Occurs v := fun v some => sound.occurs_iff.mpr ⟨m, hm, some⟩
    obtain ⟨t, ht, rfl⟩ := sound.mem_support_iff.mp hm
    have len : t.exps.length = p.vars.length := (show p.terms.Descending p.vars.length from consistent).length ht
    exact convert_content (inNames _ hm) (fitTogether_of_twoLargest sorted.nodup len (fits t ht)) occurs _
  have occurring : ∀ v, p.Occurs v → v.IsName := fun v occurs => by
    obtain ⟨m, hm, some⟩ := sound.occurs_iff.mp occurs
    exact inNames m hm v some
  have value : q.toMv = p.toMv := by
    refine InNames.eq_of_asSum_eq (fun m hm v some => ?_) inNames lists.sum
    exact occurring v (lists.vars v (lists.ordinary.sound.mem_vars hm some))
  refine ⟨_, q, run, back, (equal_iff lists.ordinary.sound sound).mpr value, lists.ordinary.sorted, fun v =>
    ⟨lists.vars v, fun occurs => ?_⟩⟩
  obtain ⟨m, hm, some⟩ := sound.occurs_iff.mp occurs
  exact lists.ordinary.sound.mem_vars (value ▸ hm) some

/-- Exponents that fit together only just, and a name that does not occur. -/
theorem toExpr_roundTrip_at :
    let x := Variable.symbol "x"
    let y := Variable.symbol "y"
    let z := Variable.symbol "z"
    let p : Polynomial := ⟨[x, y, z], [⟨.one, [4294967290, 5, 0]⟩, ⟨-.one, [0, 1, 0]⟩]⟩
    p.Consistent ∧ Variable.Sorted p.vars ∧ (∀ v ∈ p.vars, v.IsName) ∧
      (∀ t ∈ p.terms, t.exps.twoLargest ≤ maxExponent) ∧
      ∃ e q, p.toExpr = .ok e ∧ ofExpr e = .ok q ∧ q.equal p = true ∧ x ∈ q.vars ∧ y ∈ q.vars ∧ z ∉ q.vars := by
  intro x y z p
  have consistent : p.Consistent := by decide
  have sorted : Variable.Sorted p.vars := Variable.isSorted_iff.mp (by decide)
  have names : ∀ v ∈ p.vars, v.IsName := by simp [p, x, y, z, Variable.IsName]
  have fits : ∀ t ∈ p.terms, t.exps.twoLargest ≤ maxExponent := by decide
  obtain ⟨e, q, run, back, equal, -, occur⟩ := toExpr_roundTrip consistent sorted names fits
  refine ⟨consistent, sorted, names, fits, e, q, run, back, equal, (occur x).mpr ?_, (occur y).mpr ?_,
    mt (occur z).mp ?_⟩
  · exact ⟨_, List.mem_cons_self, 4294967290, by decide⟩
  · exact ⟨_, List.mem_cons_self, 5, by decide⟩
  · rintro ⟨t, ht, n, hn⟩
    have powers : ∀ t ∈ p.terms, ∀ v ∈ powers p.vars t.exps, v.1 ≠ z := by decide
    exact powers t ht _ hn rfl

end Polynomial

end Eliminant
