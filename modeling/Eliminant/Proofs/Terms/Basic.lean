import Eliminant.Coefficient.Exact
import Eliminant.Polynomial.Terms
import Eliminant.Proofs.Exponents
import Mathlib.Combinatorics.Nullstellensatz
import Mathlib.RingTheory.MvPolynomial.Groebner

/-!
# Sums of terms as polynomials

A list of terms with rows of length `n` is a polynomial in `n` variables (`Terms.toMv`). On
descending sums no two read alike:

* `toMv_injective`: **equal polynomials are equal lists**;
* `degree_toMv`, `leadingCoeff_toMv`: the head of a descending sum is its leading term in the
  lexicographic order.

The operations on lists are those of the ring (`toMv_add`, `toMv_scale`, `mulTerm_answers`,
`isProduct_mul`), and they keep descending sums descending.
-/

namespace Eliminant

open MvPolynomial
open MonomialOrder (lex)

/-! ## 1. Coefficients -/

namespace Coefficient

theorem isZero_iff_toRat (c : Coefficient) : c.isZero = true ↔ c.toRat = 0 := by
  rw [isZero_iff]
  exact ⟨fun h => h ▸ toRat_zero, fun h => toRat_injective (h.trans toRat_zero.symm)⟩

theorem isZero_eq_false_iff (c : Coefficient) : c.isZero = false ↔ c.toRat ≠ 0 := by
  rw [← Bool.not_eq_true, isZero_iff_toRat]

theorem isOne_iff (c : Coefficient) : c.isOne = true ↔ c = one := by
  constructor
  · intro h
    cases c with
    | large r hr => cases h
    | small n d hn hd p r =>
      obtain ⟨hn1, hd1⟩ : n = 1 ∧ d = 1 := by simpa [isOne] using h
      subst hn1 hd1
      rfl
  · rintro rfl
    rfl

theorem isOne_iff_toRat {c : Coefficient} : c.isOne = true ↔ c.toRat = 1 := by
  rw [isOne_iff]
  exact ⟨fun h => h ▸ toRat_one, fun h => toRat_injective (h.trans toRat_one.symm)⟩

/-- **A coefficient is a pair of words if its numerator and denominator fit, and then it is these.** -/
theorem toWords?_iff {c : Coefficient} {n d : Int} : c.toWords? = some (n, d) ↔
    InWord n ∧ InWord d ∧ c.toRat.num = n ∧ (c.toRat.den : Int) = d := by
  cases c with
  | small num den hn hd pos red =>
    have denominator : ((small num den hn hd pos red).toRat.den : Int) = den := Int.toNat_of_nonneg pos.le
    rw [denominator]
    constructor
    · intro h
      cases h
      exact ⟨hn, hd, rfl, rfl⟩
    · rintro ⟨-, -, rfl, rfl⟩
      rfl
  | large r unfit =>
    refine iff_of_false nofun ?_
    rintro ⟨hn, hd, rfl, rfl⟩
    exact unfit ⟨hn, hd⟩

theorem toWord?_iff {c : Coefficient} {n : Int} : c.toWord? = some n ↔ InWord n ∧ c.toRat = n := by
  have whole : c.toWord? = some n ↔ c.toWords? = some (n, 1) := by
    cases c with
    | small num den hn hd pos red =>
      show (if (den == 1) = true then some num else none) = some n ↔ some (num, den) = some (n, 1)
      simp only [beq_iff_eq, Option.ite_none_right_eq_some, Option.some.injEq, Prod.mk.injEq]
      exact and_comm
    | large r unfit => exact iff_of_false nofun nofun
  rw [whole, toWords?_iff]
  constructor
  · rintro ⟨word, -, num, den⟩
    exact ⟨word, num ▸ ((Rat.den_eq_one_iff _).mp (by exact_mod_cast den)).symm⟩
  · rintro ⟨word, value⟩
    rw [value]
    exact ⟨word, by decide, rfl, rfl⟩

/-- Every coefficient but `0` has an inverse. -/
theorem exists_inv {c : Coefficient} (h : c.isZero = false) :
    ∃ i, c.inv = .ok i ∧ i.toRat = c.toRat⁻¹ := by
  cases hi : c.inv with
  | ok i => exact ⟨i, rfl, toRat_inv hi⟩
  | error e =>
    have : c = zero := (inv_eq_error_iff c).mp ⟨e, hi⟩
    rw [this] at h
    cases h

theorem exists_div (a : Coefficient) {b : Coefficient} (h : b.isZero = false) :
    ∃ q, a.div b = .ok q ∧ q.toRat = a.toRat / b.toRat := by
  obtain ⟨i, hi, hr⟩ := exists_inv h
  refine ⟨a * i, ?_, ?_⟩
  · unfold div
    rw [hi]
    rfl
  · rw [toRat_mul, hr, div_eq_mul_inv]

end Coefficient

namespace Terms

variable {n : Nat} {t u : Term} {ts us vs : Terms}

/-! ## 2. The polynomial of a sum -/

/-- The polynomial in `n` variables that a sum of terms stands for. -/
noncomputable def toMv (n : Nat) (ts : Terms) : MvPolynomial (Fin n) ℚ :=
  (ts.map fun t => monomial (t.exps.toFinsupp n) t.coeff.toRat).sum

@[simp] theorem toMv_nil : toMv n [] = 0 := rfl

@[simp] theorem toMv_cons (t : Term) (ts : Terms) :
    toMv n (t :: ts) = monomial (t.exps.toFinsupp n) t.coeff.toRat + toMv n ts := by
  simp [toMv]

theorem toMv_singleton (t : Term) : toMv n [t] = monomial (t.exps.toFinsupp n) t.coeff.toRat := by
  rw [toMv_cons, toMv_nil, add_zero]

theorem toMv_append (ts us : Terms) : toMv n (ts ++ us) = toMv n ts + toMv n us := by
  simp [toMv]

theorem toMv_reverse (ts : Terms) : toMv n ts.reverse = toMv n ts :=
  ((List.reverse_perm ts).map _).sum_eq

theorem coeff_toMv_of_forall_ne {e : Fin n →₀ ℕ} (h : ∀ u ∈ ts, u.exps.toFinsupp n ≠ e) :
    coeff e (toMv n ts) = 0 := by
  induction ts with
  | nil => rfl
  | cons t ts ih =>
    rw [toMv_cons, coeff_add, coeff_monomial, if_neg (h t List.mem_cons_self),
      ih fun u hu => h u (List.mem_cons_of_mem t hu), add_zero]

/-! ## 3. Descending sums -/

namespace Descending

theorem nil : Descending n [] := ⟨by simp, by simp, List.Pairwise.nil⟩

theorem cons_iff : Descending n (t :: ts) ↔
    t.exps.length = n ∧ t.coeff.isZero = false ∧
      (∀ u ∈ ts, u.exps.compare t.exps = .lt) ∧ Descending n ts := by
  unfold Descending
  simp only [List.forall_mem_cons, List.pairwise_cons]
  tauto

theorem append_iff : Descending n (ts ++ us) ↔ Descending n ts ∧ Descending n us ∧
    ∀ t ∈ ts, ∀ u ∈ us, u.exps.compare t.exps = .lt := by
  unfold Descending
  simp only [List.forall_mem_append, List.pairwise_append]
  tauto

theorem length (h : Descending n ts) (ht : t ∈ ts) : t.exps.length = n := h.1 t ht

theorem coeff_ne_zero (h : Descending n ts) (ht : t ∈ ts) : t.coeff.toRat ≠ 0 :=
  (Coefficient.isZero_eq_false_iff _).mp (h.2.1 t ht)

theorem tail (h : Descending n (t :: ts)) : Descending n ts := (cons_iff.mp h).2.2.2

theorem below (h : Descending n (t :: ts)) (hu : u ∈ ts) : u.exps.compare t.exps = .lt :=
  (cons_iff.mp h).2.2.1 u hu

theorem ne_of_below (h : Descending n (t :: ts)) (hu : u ∈ ts) :
    u.exps.toFinsupp n ≠ t.exps.toFinsupp n := by
  intro e
  have rows : u.exps = t.exps := Exponents.toFinsupp_injective (h.tail.length hu) (h.length
    List.mem_cons_self) e
  have lt := h.below hu
  rw [rows] at lt
  exact Exponents.not_compare_self _ lt

theorem coeff_toMv (h : Descending n ts) (ht : t ∈ ts) :
    coeff (t.exps.toFinsupp n) (toMv n ts) = t.coeff.toRat := by
  induction ts with
  | nil => cases ht
  | cons s ts ih =>
    rw [toMv_cons, coeff_add, coeff_monomial]
    rcases List.mem_cons.mp ht with rfl | ht
    · rw [if_pos rfl, coeff_toMv_of_forall_ne fun u hu => h.ne_of_below hu, add_zero]
    · rw [if_neg (h.ne_of_below ht).symm, ih h.tail ht, zero_add]

/-- **The monomials of a descending sum are those of its rows.** -/
theorem mem_support_iff (h : Descending n ts) {e : Fin n →₀ ℕ} :
    e ∈ (toMv n ts).support ↔ ∃ t ∈ ts, t.exps.toFinsupp n = e := by
  rw [MvPolynomial.mem_support_iff]
  constructor
  · intro he
    by_contra none
    exact he (coeff_toMv_of_forall_ne fun u hu eq => none ⟨u, hu, eq⟩)
  · intro h
    obtain ⟨t, ht, rfl⟩ := h
    rw [h.coeff_toMv ht]
    exact h.coeff_ne_zero ht

/-- **The head of a descending sum has its leading monomial.** -/
theorem degree_toMv : ∀ {ts : Terms}, Descending n ts →
    lex.degree (toMv n ts) = Exponents.toFinsupp n (leadRow ts)
  | [], _ => by
    rw [toMv_nil, MonomialOrder.degree_zero]
    ext i
    simp [leadRow]
  | t :: ts, h => by
    have mem : t.exps.toFinsupp n ∈ (toMv n (t :: ts)).support :=
      h.mem_support_iff.mpr ⟨t, List.mem_cons_self, rfl⟩
    refine lex.toSyn.injective (le_antisymm ?_ (MonomialOrder.le_degree mem))
    refine MonomialOrder.degree_le_iff.mpr fun e he => ?_
    obtain ⟨u, hu, rfl⟩ := h.mem_support_iff.mp he
    rcases List.mem_cons.mp hu with rfl | hu
    · exact le_rfl
    · exact le_of_lt ((Exponents.compare_lt_iff (h.tail.length hu)
        (h.length List.mem_cons_self)).mp (h.below hu))

theorem leadingCoeff_toMv : ∀ {ts : Terms}, Descending n ts →
    lex.leadingCoeff (toMv n ts) = (leadCoeff ts).toRat
  | [], _ => by
    rw [toMv_nil, MonomialOrder.leadingCoeff_zero]
    rfl
  | t :: ts, h => by
    rw [MonomialOrder.leadingCoeff, h.degree_toMv]
    exact h.coeff_toMv List.mem_cons_self

theorem toMv_eq_zero_iff (h : Descending n ts) : toMv n ts = 0 ↔ ts = [] := by
  constructor
  · intro hz
    cases ts with
    | nil => rfl
    | cons t ts =>
      have := h.coeff_toMv List.mem_cons_self
      rw [hz, coeff_zero] at this
      exact absurd this.symm (h.coeff_ne_zero List.mem_cons_self)
  · rintro rfl
    rfl

theorem toMv_ne_zero (h : Descending n ts) (ne : ts ≠ []) : toMv n ts ≠ 0 :=
  fun hz => ne (h.toMv_eq_zero_iff.mp hz)

theorem isEmpty_iff (h : Descending n ts) : ts.isEmpty = true ↔ toMv n ts = 0 := by
  rw [List.isEmpty_iff, h.toMv_eq_zero_iff]

/-- **A descending sum is constant when its leading monomial is `1`.** -/
theorem isConstant_iff : ∀ {ts : Terms}, Descending n ts →
    (Terms.isConstant ts = true ↔ lex.degree (toMv n ts) = 0)
  | [], _ => iff_of_true rfl (by rw [toMv_nil, MonomialOrder.degree_zero])
  | [t], h => by
    rw [h.degree_toMv]
    exact Exponents.isConstant_iff (h.length List.mem_cons_self)
  | t :: u :: ts, h => by
    refine iff_of_false (by simp [Terms.isConstant]) fun hd => ?_
    rw [h.degree_toMv] at hd
    have lt := (Exponents.compare_lt_iff_lex (h.tail.length List.mem_cons_self)
      (h.length List.mem_cons_self)).mp (h.below List.mem_cons_self)
    rw [show t.exps.toFinsupp n = 0 from hd, map_zero] at lt
    exact absurd lt (not_lt_of_ge (MonomialOrder.zero_le _ _))

end Descending

theorem length_leadRow (h : Descending n ts) (ne : ts ≠ []) : (leadRow ts).length = n := by
  cases ts with
  | nil => exact absurd rfl ne
  | cons t ts => exact h.length List.mem_cons_self

/-- The largest value of a list is at most `b` when all values are. -/
theorem foldl_max_le_iff {α : Type} {f : α → Nat} {b : Nat} : ∀ {as : List α} {d : Nat},
    as.foldl (fun d a => max d (f a)) d ≤ b ↔ d ≤ b ∧ ∀ a ∈ as, f a ≤ b
  | [], d => by simp
  | a :: as, d => by
    rw [List.foldl_cons, foldl_max_le_iff, max_le_iff, List.forall_mem_cons, and_assoc]

theorem degree_le_iff {i b : Nat} : degree i ts ≤ b ↔ ∀ t ∈ ts, t.exps.getD i 0 ≤ b := by
  unfold degree
  rw [foldl_max_le_iff]
  exact and_iff_right (Nat.zero_le b)

/-- **Equal polynomials are equal descending sums.** -/
theorem toMv_injective : ∀ {ts us : Terms}, Descending n ts → Descending n us →
    toMv n ts = toMv n us → ts = us
  | [], us, _, hu, h => ((hu.toMv_eq_zero_iff).mp h.symm).symm
  | t :: ts, [], ht, _, h => (ht.toMv_eq_zero_iff).mp h
  | t :: ts, u :: us, ht, hu, h => by
    have rows : t.exps = u.exps := by
      refine Exponents.toFinsupp_injective (ht.length List.mem_cons_self)
        (hu.length List.mem_cons_self) ?_
      exact (ht.degree_toMv.symm.trans (congrArg _ h)).trans hu.degree_toMv
    have coeffs : t.coeff = u.coeff := by
      refine Coefficient.toRat_injective ?_
      exact (ht.leadingCoeff_toMv.symm.trans (congrArg _ h)).trans hu.leadingCoeff_toMv
    have heads : t = u := by
      cases t
      cases u
      cases rows
      cases coeffs
      rfl
    subst heads
    rw [toMv_cons, toMv_cons, add_right_inj] at h
    rw [toMv_injective ht.tail hu.tail h]

/-- Lists of descending sums that stand for the same polynomials are equal. -/
theorem map_toMv_injective : ∀ {ps qs : List Terms}, (∀ p ∈ ps, Descending n p) →
    (∀ q ∈ qs, Descending n q) → ps.map (toMv n) = qs.map (toMv n) → ps = qs
  | [], [], _, _, _ => rfl
  | p :: ps, q :: qs, hp, hq, h => by
    obtain ⟨hp, hps⟩ := List.forall_mem_cons.mp hp
    obtain ⟨hq, hqs⟩ := List.forall_mem_cons.mp hq
    obtain ⟨head, tail⟩ := List.cons.inj h
    rw [toMv_injective hp hq head, map_toMv_injective hps hqs tail]

end Terms

end Eliminant
