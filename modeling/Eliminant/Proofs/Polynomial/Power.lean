import Eliminant.Proofs.Polynomial.Degree
import Eliminant.Proofs.Polynomial.WellFormed

/-!
# Powers

A power is computed by repeated squaring. Every square and every product on the way is a power to a smaller
exponent (`Polynomial.IsPower`), and since degrees of factors add up, the largest exponent of such a power is
known before it is computed: no square is too large as long as the result is not.

* `Polynomial.On.mul_exactly`: products over one list, and where they fail;
* `Polynomial.IsPower.mul`: a product of powers;
* **`Polynomial.pow_spec`**: a power fails exactly where its largest exponent does not fit, and else it is the
  product of as many factors.
-/

namespace Eliminant

open MvPolynomial (degreeOf)

namespace Polynomial

variable {vars : List Variable} {p q r s : Polynomial} {i j n : Nat}

/-! ## 1. Products over one list of variables -/

/-- **A product over one list of variables**, whatever they are called, fails exactly where degrees do not fit
    together. -/
theorem On.mul_exactly (hp : On vars p) (hq : On vars q) (someP : p.terms ≠ []) (someQ : q.terms ≠ []) :
    Answers
      (fun e => e = .exponentOverflow ∧ ∃ i, maxExponent <
        degreeOf i (Terms.toMv vars.length p.terms) + degreeOf i (Terms.toMv vars.length q.terms))
      (fun r => (¬ ∃ i, maxExponent <
        degreeOf i (Terms.toMv vars.length p.terms) + degreeOf i (Terms.toMv vars.length q.terms)) ∧
        On vars r ∧
          Terms.toMv vars.length r.terms = Terms.toMv vars.length p.terms * Terms.toMv vars.length q.terms)
      (p.mul q) := by
  rw [hp.mul_eq hq, ← hp.descending.exceed_iff hq.descending someP someQ]
  exact (Terms.isProduct_mul hp.descending hq.descending).bind fun ts h =>
    ⟨h.1, hp.with_terms h.2.1, h.2.2⟩

/-! ## 2. Powers among each other -/

/-- `r` is the `n`-th power of `p`: consistent over the same variables, with the power as its value. -/
structure IsPower (p : Polynomial) (n : Nat) (r : Polynomial) : Prop where
  on : On p.vars r
  value : Terms.toMv p.vars.length r.terms = Terms.toMv p.vars.length p.terms ^ n

namespace IsPower

theorem consistent (hr : IsPower p n r) : r.Consistent := by
  have desc := hr.on.descending
  rwa [← hr.on.vars_eq] at desc

theorem unique (hr : IsPower p n r) (hs : IsPower p n s) : r = s := by
  refine hr.consistent.eq_of_terms hs.consistent (hr.on.vars_eq.trans hs.on.vars_eq.symm) ?_
  rw [hr.on.vars_eq]
  exact hr.value.trans hs.value.symm

theorem zero (p : Polynomial) : IsPower p 0 (Polynomial.one p.vars) := by
  refine ⟨On.constant p.vars .one, ?_⟩
  show Terms.toMv p.vars.length [⟨.one, .zeros p.vars.length⟩] = _
  rw [Terms.toMv_singleton, Exponents.toFinsupp_zeros, Coefficient.toRat_one, pow_zero]
  rfl

theorem one (hp : p.Consistent) : IsPower p 1 p := ⟨⟨rfl, hp⟩, (pow_one _).symm⟩

theorem terms_ne_nil (hp : p.Consistent) (some : p.terms ≠ []) (hr : IsPower p n r) : r.terms ≠ [] := by
  have nonzero : Terms.toMv p.vars.length p.terms ≠ 0 := Terms.Descending.toMv_ne_zero hp some
  intro none
  have value := hr.value
  rw [none, Terms.toMv_nil] at value
  exact pow_ne_zero n nonzero value.symm

/-- **A product of powers** fails exactly where the largest exponent, counted by the factors, does not fit. -/
theorem mul (hp : p.Consistent) (some : p.terms ≠ []) (hq : IsPower p i q) (hr : IsPower p j r) :
    Answers (fun e => e = .exponentOverflow ∧ maxExponent < p.maxDegree * (i + j))
      (fun s => p.maxDegree * (i + j) ≤ maxExponent ∧ IsPower p (i + j) s) (q.mul r) := by
  have desc : p.terms.Descending p.vars.length := hp
  have nonzero := desc.toMv_ne_zero some
  have large : (∃ k, maxExponent < degreeOf k (Terms.toMv p.vars.length q.terms) +
      degreeOf k (Terms.toMv p.vars.length r.terms)) ↔ maxExponent < p.maxDegree * (i + j) := by
    rw [← not_iff_not, Nat.not_lt, not_exists]
    refine Iff.trans (forall_congr' fun k => ?_) desc.maxDegree_mul_le_iff.symm
    rw [hq.value, hr.value, MvPolynomial.degreeOf_pow_eq k _ i nonzero,
      MvPolynomial.degreeOf_pow_eq k _ j nonzero, Nat.not_lt, ← Nat.add_mul, Nat.mul_comm]
  refine (hq.on.mul_exactly hr.on (hq.terms_ne_nil hp some) (hr.terms_ne_nil hp some)).mono ?_ ?_
  · exact fun e h => ⟨h.1, large.mp h.2⟩
  · intro s product
    obtain ⟨fits, on, value⟩ := product
    refine ⟨Nat.not_lt.mp fun h => fits (large.mpr h), on, ?_⟩
    rw [value, hq.value, hr.value, pow_add]

end IsPower

/-! ## 3. Repeated squaring -/

/-- The product of `n` factors `p`, one by one. -/
def selfProduct (p : Polynomial) : Nat → Except Failure Polynomial
  | 0 => .ok (one p.vars)
  | 1 => .ok p
  | n + 2 => do (← selfProduct p (n + 1)).mul p

/-- A product of equal factors, one by one, fails only where its largest exponent does not fit. -/
theorem selfProduct_answers (hp : p.Consistent) (some : p.terms ≠ []) : ∀ n,
    Answers (fun e => e = .exponentOverflow ∧ maxExponent < p.maxDegree * n) (IsPower p n) (p.selfProduct n)
  | 0 => .zero p
  | 1 => .one hp
  | n + 2 => by
    have fewer : p.maxDegree * (n + 1) ≤ p.maxDegree * (n + 2) := Nat.mul_le_mul_left _ (Nat.le_succ _)
    unfold selfProduct
    refine ((selfProduct_answers hp some (n + 1)).mono (fun e h => ?_) fun _ => id).bind fun q hq => ?_
    · exact ⟨h.1, h.2.trans_le fewer⟩
    · exact (hq.mul hp some (.one hp)).imp fun _ h => h.2

/-- **Repeated squaring fails exactly where the largest exponent of the power does not fit.** -/
theorem powTimes_isPower (hp : p.Consistent) (some : p.terms ≠ []) (pos : 0 < n) :
    Answers (fun e => e = .exponentOverflow ∧ maxExponent < p.maxDegree * n)
      (fun r => p.maxDegree * n ≤ maxExponent ∧ IsPower p n r) (powTimes p (one p.vars) n) := by
  rcases Nat.lt_or_ge 1 n with more | one
  · -- two factors or more have been multiplied somewhere, and what a product answers fits
    have run := powTimes_answers (P := fun i r => (1 < i → p.maxDegree * i ≤ maxExponent) ∧ IsPower p i r)
      (F := fun e => e = .exponentOverflow ∧ maxExponent < p.maxDegree * n) (i := 1) (j := 0) (n := n)
      (fun {i j q r} bound hq hr => (hq.2.mul hp some hr.2).mono
        (fun e h => ⟨h.1, h.2.trans_le (Nat.mul_le_mul_left _ bound)⟩) fun _ h => ⟨fun _ => h.1, h.2⟩)
      pos (by omega) ⟨fun h => absurd h (lt_irrefl 1), .one hp⟩ ⟨fun h => absurd h (by omega), .zero p⟩
    rw [Nat.one_mul, Nat.add_zero] at run
    exact run.imp fun r h => ⟨h.1 more, h.2⟩
  · obtain rfl : n = 1 := by omega
    unfold powTimes
    rw [if_pos le_rfl]
    exact IsPower.mul hp some (.one hp) (.zero p)

theorem terms_ne_nil_of_isConstant (h : p.isConstant = false) : p.terms ≠ [] := by
  intro none
  unfold isConstant at h
  rw [none] at h
  cases h

theorem pow_eq_powTimes (h : p.isConstant = false) (pos : 0 < n) : p.pow n = powTimes p (one p.vars) n := by
  rw [pow, if_neg pos.ne', h]
  rfl

theorem pow_of_isConstant (h : p.isConstant = true) (n : Nat) :
    p.pow n = .ok (constant p.vars (p.leadCoeff.pow n)) := by
  rcases Nat.eq_zero_or_pos n with rfl | pos
  · rw [Coefficient.pow, if_pos rfl]
    rfl
  · rw [pow, if_neg pos.ne', if_pos h]

/-- **Powers.** The power to zero is one, and a constant is raised as a coefficient. Any other polynomial is
    raised by repeated squaring, which fails exactly where its largest exponent, multiplied by the power, does
    not fit; otherwise the power is what multiplying one factor after the other makes. -/
theorem pow_spec (hp : p.Consistent) (n : Nat) :
    p.pow 0 = .ok (one p.vars) ∧
      (p.isConstant = true → p.pow n = .ok (constant p.vars (p.leadCoeff.pow n)) ∧
        (p.leadCoeff.pow n).toRat = p.leadCoeff.toRat ^ n) ∧
      (p.isConstant = false → 0 < n →
        ((∃ e, p.pow n = .error e ∧ e.message? = some "overflow in adding exponents") ↔
          maxExponent < p.maxDegree * n) ∧
        (p.maxDegree * n ≤ maxExponent → ∃ r, p.pow n = .ok r ∧ p.selfProduct n = .ok r ∧ IsPower p n r)) := by
  refine ⟨if_pos rfl, fun constant => ⟨pow_of_isConstant constant n, Coefficient.toRat_pow _ n⟩,
    fun more pos => ?_⟩
  have some := terms_ne_nil_of_isConstant more
  have power := powTimes_isPower hp some pos
  have product := selfProduct_answers hp some n
  rw [← pow_eq_powTimes more pos] at power
  refine ⟨⟨?_, fun large => ?_⟩, fun fits => ?_⟩
  · intro fails
    obtain ⟨e, run, -⟩ := fails
    exact (power.of_error run).2
  · cases run : p.pow n with
    | ok r => exact absurd (power.of_ok run).1 (Nat.not_le.mpr large)
    | error e =>
      obtain ⟨rfl, -⟩ := power.of_error run
      exact ⟨_, rfl, rfl⟩
  · cases run : p.pow n with
    | error e => exact absurd fits (Nat.not_le.mpr (power.of_error run).2)
    | ok r =>
      have made := (power.of_ok run).2
      cases run' : p.selfProduct n with
      | error e => exact absurd fits (Nat.not_le.mpr (product.of_error run').2)
      | ok s =>
        obtain rfl := made.unique (product.of_ok run')
        exact ⟨r, rfl, rfl, made⟩

/-- The cube of `x+y`; `x^2147483648+3*y` to the first and to the second power; the square of a constant. -/
theorem pow_spec_at :
    let vars := [Variable.symbol "x", .symbol "y"]
    let p : Polynomial := ⟨vars, [⟨.one, [1, 0]⟩, ⟨.one, [0, 1]⟩]⟩
    let q : Polynomial := ⟨vars, [⟨.one, [2147483648, 0]⟩, ⟨.ofInt 3, [0, 1]⟩]⟩
    let c : Polynomial := constant vars (.ofInt 5)
    (p.Consistent ∧ p.isConstant = false ∧ p.maxDegree * 3 ≤ maxExponent ∧
      ∃ r, p.pow 3 = .ok r ∧ p.selfProduct 3 = .ok r ∧ IsPower p 3 r) ∧
    (q.Consistent ∧ q.isConstant = false ∧ q.maxDegree * 1 ≤ maxExponent ∧ maxExponent < q.maxDegree * 2 ∧
      (∃ r, q.pow 1 = .ok r ∧ q.selfProduct 1 = .ok r ∧ IsPower q 1 r) ∧
      ∃ e, q.pow 2 = .error e ∧ e.message? = some "overflow in adding exponents") ∧
    (c.Consistent ∧ c.isConstant = true ∧ c.pow 2 = .ok (constant vars (.ofInt 25))) := by
  intro vars p q c
  have consistent : p.Consistent ∧ q.Consistent ∧ c.Consistent := by decide
  have tests : p.isConstant = false ∧ q.isConstant = false ∧ c.isConstant = true := by decide
  have fits : p.maxDegree * 3 ≤ maxExponent ∧ q.maxDegree * 1 ≤ maxExponent := by decide
  have exceeds : maxExponent < q.maxDegree * 2 := by decide
  have cube := ((pow_spec consistent.1 3).2.2 tests.1 (by decide)).2 fits.1
  have first := ((pow_spec consistent.2.1 1).2.2 tests.2.1 (by decide)).2 fits.2
  have second := ((pow_spec consistent.2.1 2).2.2 tests.2.1 (by decide)).1.mpr exceeds
  have constant := ((pow_spec consistent.2.2 2).2.1 tests.2.2).1
  have unit : c.leadCoeff.pow 2 = .ofInt 25 := by cbv
  rw [unit] at constant
  exact ⟨⟨consistent.1, tests.1, fits.1, cube⟩, ⟨consistent.2.1, tests.2.1, fits.2, exceeds, first, second⟩,
    consistent.2.2, tests.2.2, constant⟩

end Polynomial

end Eliminant
