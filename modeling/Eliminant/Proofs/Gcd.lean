import Eliminant.Gcd
import Eliminant.Proofs.Completion
import Eliminant.Proofs.Ideal.Elimination
import Eliminant.Proofs.Polynomial.Quotients
import Mathlib

/-!
# Greatest common divisors and least common multiples

A column of exponents in front of the rows is one more variable (`Terms.toMv_front`), so that the
completed system is the reduced Groebner basis of the elimination ideal and its element without the
new variable is the least common multiple (`Terms.eliminant_answers`). From that

* `Polynomial.Reads.lcm_answers`, `Polynomial.Reads.gcd_answers`: over one list of variables;
* **`Polynomial.lcm_gcd_spec`**: over any two lists. Only a limit that is met can keep the two from
  their results: there always is an element without the new variable, and the least common multiple
  always divides the product.
-/

namespace Eliminant

open MvPolynomial (X C)
open MonomialOrder (lex)

variable {n : Nat} {ts us f g : Terms}

/-! ## 1. One more variable in front -/

theorem Exponents.toFinsupp_cons (k : Nat) (as : Exponents) :
    toFinsupp (n + 1) (k :: as) =
      Finsupp.single 0 k + (as.toFinsupp n).mapDomain Fin.succ := by
  ext i
  refine Fin.cases ?_ (fun j => ?_) i
  · rw [toFinsupp_cons_zero, Finsupp.add_apply, Finsupp.single_eq_same,
      Finsupp.mapDomain_of_notMem_range _ _ fun ⟨j, hj⟩ => Fin.succ_ne_zero j hj, add_zero]
  · rw [toFinsupp_cons_succ, Finsupp.add_apply, Finsupp.single_eq_of_ne (Fin.succ_ne_zero j),
      Finsupp.mapDomain_apply (Fin.succ_injective n), zero_add]

namespace Terms

/-- A sum with the exponent `k` in front of every row. -/
def front (k : Nat) (ts : Terms) : Terms := ts.map fun t => { t with exps := k :: t.exps }

/-- **The exponent in front is that of the new variable.** -/
theorem toMv_front (k : Nat) (ts : Terms) :
    toMv (n + 1) (front k ts) = X 0 ^ k * lift (toMv n ts) := by
  induction ts with
  | nil => simp [front, lift]
  | cons t ts ih =>
    have head : MvPolynomial.monomial (Exponents.toFinsupp (n + 1) (k :: t.exps)) t.coeff.toRat =
        X 0 ^ k * lift (MvPolynomial.monomial (t.exps.toFinsupp n) t.coeff.toRat) := by
      rw [Exponents.toFinsupp_cons, lift, MvPolynomial.rename_monomial,
        MvPolynomial.X_pow_eq_monomial, MvPolynomial.monomial_mul, one_mul]
    show toMv (n + 1) (⟨t.coeff, k :: t.exps⟩ :: front k ts) = _
    rw [toMv_cons, toMv_cons, ih, head, lift, lift, lift, map_add, mul_add]

theorem descending_front (k : Nat) : Descending (n + 1) (front k ts) ↔ Descending n ts := by
  unfold Descending front
  simp only [List.forall_mem_map, List.pairwise_map, List.length_cons, add_left_inj,
    Exponents.compare, lt_irrefl, if_false]

theorem leadCoeff_front (k : Nat) (ts : Terms) : leadCoeff (front k ts) = leadCoeff ts := by
  cases ts <;> rfl

/-- A sum without its first variable, put behind a column of zeros again. -/
theorem front_dropFirst (h : Descending (n + 1) ts) (deg : degree 0 ts = 0) :
    front 0 ts.dropFirst = ts := by
  unfold front dropFirst
  rw [List.map_map]
  refine (List.map_congr_left fun t ht => ?_).trans (List.map_id ts)
  have len := h.length ht
  have zero := degree_le_iff.mp (le_of_eq deg) t ht
  obtain ⟨c, as⟩ := t
  cases as with
  | nil => cases len
  | cons a as =>
    cases Nat.le_zero.mp zero
    rfl

theorem descending_dropFirst (h : Descending (n + 1) ts) (deg : degree 0 ts = 0) :
    Descending n ts.dropFirst := by
  refine (descending_front 0).mp ?_
  rwa [front_dropFirst h deg]

/-- The first variable does not occur when it does not occur in the leading monomial. -/
theorem degree_zero_of_lead (h : Descending (n + 1) ts) (lead : lex.degree (toMv (n + 1) ts) 0 = 0) :
    degree 0 ts = 0 := by
  refine Nat.le_zero.mp (degree_le_iff.mpr fun t ht => le_of_eq ?_)
  exact first_eq_zero_of_mem_support lead (h.mem_support_iff.mpr ⟨t, ht, rfl⟩)

/-! ## 2. The eliminant -/

theorem descending_eliminationSystem (hf : Descending n f) (hg : Descending n g) :
    ∀ p ∈ eliminationSystem f g, Descending (n + 1) p := by
  have front {ts : Terms} (h : Descending n ts) (k : Nat) : Descending (n + 1) (front k ts) :=
    (descending_front k).mpr h
  simp only [eliminationSystem, List.forall_mem_cons]
  exact ⟨front hf 1, (front hg 0).sub (front hg 1), by simp⟩

theorem span_eliminationSystem (f g : Terms) :
    Ideal.span (system (n + 1) (eliminationSystem f g)) =
      eliminationIdeal (toMv n f) (toMv n g) := by
  have left : toMv (n + 1) f.timesFirst = X 0 * lift (toMv n f) := by
    rw [← pow_one (X 0)]
    exact toMv_front 1 f
  have right : toMv (n + 1) (g.withoutFirst.sub g.timesFirst) = (1 - X 0) * lift (toMv n g) := by
    have zero : toMv (n + 1) g.withoutFirst = _ := toMv_front 0 g
    have one : toMv (n + 1) g.timesFirst = _ := toMv_front 1 g
    rw [toMv_sub, zero, one, pow_zero, pow_one, sub_mul]
  refine congrArg Ideal.span (Set.ext fun p => ?_)
  rw [Set.mem_insert_iff, Set.mem_singleton_iff, ← left, ← right]
  exact List.mem_pair

/-- **The completed system has an element without the new variable, and that is the least common
    multiple.** -/
theorem eliminant_answers (settings : Settings) (hf : Descending n f) (hg : Descending n g)
    (nf : f ≠ []) (ng : g ≠ []) :
    Answers Failure.IsLimit
      (fun out => ∃ p, out.1.find? (fun p => p.degree 0 == 0) = some p ∧
        Descending n p.dropFirst ∧ leadCoeff p.dropFirst = .one ∧
        IsLcm (toMv n f) (toMv n g) (toMv n p.dropFirst))
      (Completion.ofSums (n + 1) .lowestLead settings (eliminationSystem f g)) := by
  refine (Completion.ofSums_answers (descending_eliminationSystem hf hg)).imp fun out h => ?_
  have zf := hf.toMv_ne_zero nf
  have zg := hg.toMv_ne_zero ng
  have ne : Ideal.span (system (n + 1) (eliminationSystem f g)) ≠ ⊥ := by
    rw [span_eliminationSystem]
    intro bot
    have mem : lift (toMv n f * toMv n g) ∈ eliminationIdeal (toMv n f) (toMv n g) :=
      lift_mem_iff.mpr ⟨dvd_mul_right _ _, dvd_mul_left _ _⟩
    rw [bot, Ideal.mem_bot, lift_eq_zero_iff] at mem
    exact mul_ne_zero zf zg mem
  have reduced := h.shape.resolve_left fun zero => ne zero.2
  have isBasis := h.isReducedBasis ne
  rw [span_eliminationSystem] at isBasis
  cases found : out.1.find? fun p => p.degree 0 == 0 with
  | none =>
    obtain ⟨b, hb, lead⟩ := exists_first_eq_zero isBasis zf zg
    obtain ⟨p, hp, rfl⟩ := List.mem_map.mp hb
    have deg := degree_zero_of_lead (reduced.descending p hp) lead
    have not := List.find?_eq_none.mp found p hp
    rw [deg] at not
    exact absurd rfl not
  | some p =>
    have hp := List.mem_of_find?_eq_some found
    have deg : degree 0 p = 0 := by simpa using List.find?_some found
    have same := front_dropFirst (reduced.descending p hp) deg
    refine ⟨p, rfl, descending_dropFirst (reduced.descending p hp) deg, ?_,
      isLcm_of_mem isBasis zf zg ?_⟩
    · rw [← leadCoeff_front 0, same]
      exact reduced.monic p hp
    · have lifted := toMv_front (n := n) 0 p.dropFirst
      rw [same, pow_zero, one_mul] at lifted
      rw [← lifted]
      exact List.mem_map_of_mem hp

end Terms

/-! ## 3. Polynomials over one list of variables -/

namespace Polynomial

variable {vars : List Variable} {p q : Polynomial} {f g : MvPolynomial (Fin vars.length) ℚ}

/-- `l` is the least common multiple of two polynomials over `vars`. -/
structure IsLeastMultiple (vars : List Variable) (f g : MvPolynomial (Fin vars.length) ℚ)
    (l : Polynomial) : Prop where
  sound : l.Sound
  vars_eq : l.vars = vars
  isLcm : IsLcm f g (l.reading vars)
  monic : f ≠ 0 → g ≠ 0 → l.leadCoeff = .one
  of_zero : f = 0 ∨ g = 0 → l = zero vars

/-- `d` is the greatest common divisor of two polynomials over `vars`. -/
structure IsGreatestDivisor (vars : List Variable) (f g : MvPolynomial (Fin vars.length) ℚ)
    (d : Polynomial) : Prop where
  sound : d.Sound
  vars_eq : d.vars = vars
  isGcd : IsGcd f g (d.reading vars)
  monic : f ≠ 0 ∨ g ≠ 0 → d.leadCoeff = .one
  of_left_zero : f = 0 → d.reading vars = C (lex.leadingCoeff g)⁻¹ * g
  of_right_zero : g = 0 → d.reading vars = C (lex.leadingCoeff f)⁻¹ * f

theorem IsLeastMultiple.reads {l : Polynomial} (h : IsLeastMultiple vars f g l) :
    Reads vars l (l.reading vars) := ⟨h.sound, h.vars_eq, rfl⟩

theorem IsGreatestDivisor.reads {d : Polynomial} (h : IsGreatestDivisor vars f g d) :
    Reads vars d (d.reading vars) := ⟨h.sound, h.vars_eq, rfl⟩

namespace Reads

theorem terms_ne_nil (h : Reads vars p f) (ne : f ≠ 0) : p.terms ≠ [] :=
  fun none => ne (h.isZero_iff.mp (List.isEmpty_iff.mpr none))

theorem leadCoeff_monic (h : Reads vars p f) (ne : f ≠ 0) : p.monic.leadCoeff = .one :=
  Terms.leadCoeff_monic h.descending (h.terms_ne_nil ne)

theorem monic_associated (h : Reads vars p f) : Associated f (p.monic.reading vars) := by
  rw [h.monic.reading_eq]
  by_cases ne : f = 0
  · rw [ne, mul_zero]
  · exact associated_C_mul (inv_ne_zero (MonomialOrder.leadingCoeff_ne_zero_iff.mpr ne)) f

/-- **Least common multiples over one list of variables.** -/
theorem lcm_answers (settings : Settings) (hp : Reads vars p f) (hq : Reads vars q g) :
    Answers Failure.IsLimit (IsLeastMultiple vars f g) (lcm settings p q) := by
  have same : align p q = (p, q) :=
    align_of_vars_eq (hp.vars_eq.trans hq.vars_eq.symm)
  unfold lcm
  rw [same]
  dsimp only
  split
  · rename_i zero
    rw [Bool.or_eq_true, hp.isZero_iff, hq.isZero_iff] at zero
    rw [hp.vars_eq]
    refine ⟨hp.zero.sound, rfl, ?_, fun nf ng => absurd zero (by tauto), fun _ => rfl⟩
    rw [hp.zero.reading_eq]
    rcases zero with rfl | rfl
    · exact isLcm_zero g
    · exact (isLcm_zero f).symm
  rename_i zero
  rw [Bool.or_eq_true, hp.isZero_iff, hq.isZero_iff, not_or] at zero
  obtain ⟨nf, ng⟩ := zero
  have some : ¬(f = 0 ∨ g = 0) := by tauto
  split
  · rename_i const
    have unit := (isUnit_iff_degree_eq_zero nf).mpr (hp.isConstant_iff.mp const)
    exact ⟨hq.monic.sound, hq.monic.vars_eq, isLcm_of_isUnit unit hq.monic_associated,
      fun _ ng => hq.leadCoeff_monic ng, fun zero => absurd zero some⟩
  split
  · rename_i const
    have unit := (isUnit_iff_degree_eq_zero ng).mpr (hq.isConstant_iff.mp const)
    exact ⟨hp.monic.sound, hp.monic.vars_eq, (isLcm_of_isUnit unit hp.monic_associated).symm,
      fun nf _ => hp.leadCoeff_monic nf, fun zero => absurd zero some⟩
  · rw [hp.vars_eq]
    refine (Terms.eliminant_answers settings hp.descending hq.descending (hp.terms_ne_nil nf)
      (hq.terms_ne_nil ng)).bind fun out h => ?_
    obtain ⟨l, found, desc, lead, isLcm⟩ := h
    rw [found]
    have hl : Reads vars ⟨vars, l.dropFirst⟩ _ := hp.with_terms rfl desc rfl
    refine ⟨hl.sound, rfl, ?_, fun _ _ => lead, fun zero => absurd zero some⟩
    rwa [hl.reading_eq, ← hp.toMv_terms, ← hq.toMv_terms]

/-- **Greatest common divisors over one list of variables.** -/
theorem gcd_answers (settings : Settings) (hp : Reads vars p f) (hq : Reads vars q g) :
    Answers Failure.IsLimit (IsGreatestDivisor vars f g) (gcd settings p q) := by
  have same : align p q = (p, q) :=
    align_of_vars_eq (hp.vars_eq.trans hq.vars_eq.symm)
  unfold gcd
  rw [same]
  dsimp only
  split
  · rename_i zero
    have zero : f = 0 := hp.isZero_iff.mp zero
    subst zero
    refine ⟨hq.monic.sound, hq.monic.vars_eq, isGcd_zero hq.monic_associated, fun some => ?_,
      fun _ => hq.monic.reading_eq, fun zero => ?_⟩
    · exact hq.leadCoeff_monic (some.resolve_left fun ne => ne rfl)
    · rw [hq.monic.reading_eq, zero, mul_zero]
  rename_i nf
  rw [hp.isZero_iff] at nf
  split
  · rename_i zero
    have zero : g = 0 := hq.isZero_iff.mp zero
    subst zero
    exact ⟨hp.monic.sound, hp.monic.vars_eq, (isGcd_zero hp.monic_associated).symm,
      fun _ => hp.leadCoeff_monic nf, fun zero => absurd zero nf, fun _ => hp.monic.reading_eq⟩
  rename_i ng
  rw [hq.isZero_iff] at ng
  split
  · rename_i const
    rw [hp.vars_eq]
    refine ⟨hp.one.sound, rfl, ?_, fun _ => rfl, fun zero => absurd zero nf,
      fun zero => absurd zero ng⟩
    rw [hp.one.reading_eq]
    rw [Bool.or_eq_true, hp.isConstant_iff, hq.isConstant_iff, ← isUnit_iff_degree_eq_zero nf,
      ← isUnit_iff_degree_eq_zero ng] at const
    rcases const with unit | unit
    · exact isGcd_of_isUnit unit
    · exact (isGcd_of_isUnit unit).symm
  refine (hp.lcm_answers settings hq).bind fun l hl => ?_
  refine Answers.bind (hp.mul_answers hq).isLimit fun m hm => ?_
  have nm : f * g ≠ 0 := mul_ne_zero nf ng
  have divides : l.reading vars ∣ f * g := hl.isLcm.2.2 _ (dvd_mul_right f g) (dvd_mul_left g f)
  refine Answers.bind (hm.exact_answers hl.reads (ne_zero_of_dvd_ne_zero nm divides) divides).isLimit
    fun out hout => ?_
  obtain ⟨k, h, one, exact, hk, product⟩ := hout
  rw [exact, one]
  have nh : h ≠ 0 := left_ne_zero_of_mul (product ▸ nm)
  refine ⟨hk.monic.sound, hk.monic.vars_eq, ?_, fun _ => hk.leadCoeff_monic nh,
    fun zero => absurd zero nf, fun zero => absurd zero ng⟩
  exact (isGcd_of_mul_eq nf ng hl.isLcm product).of_associated hk.monic_associated

end Reads

/-! ## 4. Polynomials over any two lists -/

/-- **Least common multiples and greatest common divisors**: only a limit that is met can keep the
    two from their results, and the product of the two is the product of the polynomials, but for its
    leading coefficient. -/
theorem lcm_gcd_spec (settings : Settings) (hp : p.Sound) (hq : q.Sound) :
    let vars := (align p q).1.vars
    let f := p.reading vars
    let g := q.reading vars
    (∀ v, v ∈ vars ↔ v ∈ p.vars ∨ v ∈ q.vars) ∧
      Answers Failure.IsOverflow (fun m => Reads vars m (f * g)) (p.mul q) ∧
      Answers Failure.IsLimit (IsLeastMultiple vars f g) (lcm settings p q) ∧
      Answers Failure.IsLimit (fun d => IsGreatestDivisor vars f g d ∧
        ∀ l, lcm settings p q = .ok l → f ≠ 0 → g ≠ 0 →
          d.reading vars * l.reading vars * C (lex.leadingCoeff (f * g)) = f * g)
        (gcd settings p q) := by
  intro vars f g
  have a := align_spec hp hq
  have left : Reads vars (align p q).1 f := a.reads_left
  have right : Reads vars (align p q).2 g := a.reads_right
  have lcm_eq : lcm settings p q = lcm settings (align p q).1 (align p q).2 := by
    unfold lcm
    rw [a.align_eq]
  have gcd_eq : gcd settings p q = gcd settings (align p q).1 (align p q).2 := by
    unfold gcd
    rw [a.align_eq]
  rw [mul_align hp hq, lcm_eq, gcd_eq]
  have multiple := left.lcm_answers settings right
  refine ⟨a.mem, left.mul_answers right, multiple, ?_⟩
  refine (left.gcd_answers settings right).imp fun d hd => ⟨hd, fun l run nf ng => ?_⟩
  have hl := multiple.of_ok run
  have lead : lex.leadingCoeff (d.reading vars * l.reading vars) = 1 := by
    rw [MonomialOrder.leadingCoeff_mul, ← hd.reads.leadCoeff_eq, ← hl.reads.leadCoeff_eq,
      hd.monic (Or.inl nf), hl.monic nf ng, Coefficient.toRat_one, one_mul]
  have := C_leadingCoeff_mul (m := lex) (associated_mul hd.isGcd hl.isLcm)
  rw [lead, MvPolynomial.C_1, one_mul] at this
  exact (mul_comm _ _).trans this.symm

/-- `2 * x ^ 2 - 2 * x` over `x` and `x ^ 2 - x` over `y, x` are multiples of each other. -/
theorem lcm_gcd_spec_at :
    let x := Variable.symbol "x"
    let y := Variable.symbol "y"
    let two := Coefficient.one + .one
    let p : Polynomial := ⟨[x], [⟨two, [2]⟩, ⟨-two, [1]⟩]⟩
    let q : Polynomial := ⟨[y, x], [⟨.one, [0, 2]⟩, ⟨-.one, [0, 1]⟩]⟩
    let r : Polynomial := ⟨[x, y], [⟨.one, [2, 0]⟩, ⟨-.one, [1, 0]⟩]⟩
    p.Sound ∧ q.Sound ∧ lcm {} p q = .ok r ∧ gcd {} p q = .ok r ∧
      IsLeastMultiple [x, y] (p.reading [x, y]) (q.reading [x, y]) r ∧
      IsGreatestDivisor [x, y] (p.reading [x, y]) (q.reading [x, y]) r := by
  intro x y two p q r
  have hp : p.Sound := by decide
  have hq : q.Sound := by decide
  have multiple : lcm {} p q = .ok r := by cbv
  have divisor : gcd {} p q = .ok r := by cbv
  have vars : (align p q).1.vars = [x, y] := by decide
  obtain ⟨-, -, hl, hd⟩ := lcm_gcd_spec {} hp hq
  rw [vars] at hl hd
  exact ⟨hp, hq, multiple, divisor, hl.of_ok multiple, (hd.of_ok divisor).1⟩

end Polynomial

end Eliminant
