import Eliminant.Proofs.Nested.Bijection
import Eliminant.Proofs.Nested.Leading
import Eliminant.Proofs.Polynomial.Lines
import Eliminant.Proofs.Polynomial.RoundTrip

/-!
# The written form of a polynomial is read back

A polynomial is written term by term, the leading one first: a sign, the absolute value of the coefficient unless
it is `1`, and the powers of its names. With its sign, each of them is a term (`Polynomial.termText_signedText`),
and the whole is a line that becomes the polynomial (**`Polynomial.sumText_text`**), if no two exponents of a row
exceed the largest exponent together (`Exponents.Fit`).
-/

namespace Eliminant

open MvPolynomial (C X degreeOf)

/-- **No two exponents of a row exceed the largest exponent together**, and none does alone. -/
structure Exponents.Fit (exps : Exponents) : Prop where
  pairs : exps.Pairwise fun a b => a + b ≤ maxExponent
  each : ∀ e ∈ exps, e ≤ maxExponent

theorem Exponents.Fit.tail {e : ℕ} {row : Exponents} (h : Exponents.Fit (e :: row)) : Exponents.Fit row :=
  ⟨(List.pairwise_cons.mp h.pairs).2, (List.forall_mem_cons.mp h.each).2⟩

theorem Exponents.Fit.head {e : ℕ} {row : Exponents} (h : Exponents.Fit (e :: row)) :
    ∀ k ∈ row, e + k ≤ maxExponent :=
  (List.pairwise_cons.mp h.pairs).1

namespace Polynomial

variable {vars : List Variable} {u v : Variable} {e : ℕ} {row exps : Exponents} {s : String} {c : Coefficient}
  {f : MvPolynomial Variable ℚ} {p : Polynomial} {t : Term}

/-! ## 1. Rows -/

theorem fit_of_twoLargest (h : exps.twoLargest ≤ maxExponent) : exps.Fit := by
  obtain ⟨pairs, each⟩ := pairwise_twoLargest exps
  exact ⟨pairs.imp fun le => le.trans h, fun e mem => (each e mem).trans h⟩

theorem mem_powers {q : Variable × ℕ} (h : q ∈ powers vars exps) : q.1 ∈ vars ∧ q.2 ∈ exps ∧ 0 < q.2 := by
  obtain ⟨mem, pos⟩ := List.mem_filter.mp h
  exact ⟨(List.of_mem_zip mem).1, (List.of_mem_zip mem).2, of_decide_eq_true pos⟩

/-- The powers of a row that fits are those of different variables, and no two exponents are too large in sum. -/
theorem pairwise_powers (nodup : vars.Nodup) (fit : exps.Fit) :
    (powers vars exps).Pairwise fun p q => p.1 ≠ q.1 ∧ p.2 + q.2 ≤ maxExponent := by
  induction vars generalizing exps with
  | nil => exact .nil
  | cons v vars ih =>
    cases exps with
    | nil => exact .nil
    | cons e row =>
      obtain ⟨new, nodup⟩ := List.nodup_cons.mp nodup
      have later := ih nodup fit.tail
      rw [powers_cons]
      split
      · refine List.pairwise_cons.mpr ⟨fun q mem => ?_, later⟩
        obtain ⟨name, exponent, -⟩ := mem_powers mem
        exact ⟨fun same => new ((show v = q.1 from same) ▸ name), fit.head _ exponent⟩
      · exact later

/-- **A single term** is the product of its coefficient and its powers. -/
theorem toMv_mk_term (c : Coefficient) (len : exps.length = vars.length) :
    (mk vars [⟨c, exps⟩]).toMv = C c.toRat * ((powers vars exps).map fun q => X q.1 ^ q.2).prod := by
  induction vars generalizing exps with
  | nil =>
    cases List.eq_nil_of_length_eq_zero len
    exact (toMv_mk_zeros [] c).trans (mul_one _).symm
  | cons v vars ih =>
    cases exps with
    | nil => cases len
    | cons e row =>
      have front : (mk (v :: vars) [⟨c, e :: row⟩]).toMv = X v ^ e * (mk vars [⟨c, row⟩]).toMv :=
        toMv_mk_front v vars e [⟨c, row⟩]
      rw [front, ih (Nat.succ.inj len), powers_cons]
      split
      · rw [List.map_cons, List.prod_cons]
        ring
      · rename_i zero
        rw [Nat.eq_zero_of_not_pos zero, pow_zero, one_mul]

/-- A row without powers is constant. -/
theorem isConstant_of_powers (len : exps.length = vars.length) (none : powers vars exps = []) :
    exps.isConstant = true := by
  induction vars generalizing exps with
  | nil =>
    cases List.eq_nil_of_length_eq_zero len
    rfl
  | cons v vars ih =>
    cases exps with
    | nil => cases len
    | cons e row =>
      rw [powers_cons] at none
      split at none
      · cases none
      · rename_i zero
        refine (Bool.and_eq_true _ _).mpr ⟨?_, ih (Nat.succ.inj len) none⟩
        simp [Nat.eq_zero_of_not_pos zero]

/-! ## 2. Terms -/

theorem powersText_false (v : Variable) (e : ℕ) (ps : List (Variable × ℕ)) :
    powersText false ((v, e) :: ps) = powerText v e ++ powersText true ps := by
  simp only [powersText, powerText, String.append_assoc, Bool.false_eq_true, if_false, String.empty_append]

/-- The names of `ps` do not occur in `f`, whose exponents leave room for theirs. -/
def LeavesRoom (f : MvPolynomial Variable ℚ) (ps : List (Variable × ℕ)) : Prop :=
  ∀ q ∈ ps, degreeOf q.1 f = 0 ∧ ∀ v, degreeOf v f + q.2 ≤ maxExponent

theorem leavesRoom_C {ps : List (Variable × ℕ)} (q : ℚ) (small : ∀ q ∈ ps, q.2 ≤ maxExponent) :
    LeavesRoom (C q) ps := by
  intro p mem
  simp only [MvPolynomial.degreeOf_C, zero_add, true_and]
  exact fun _ => small p mem

/-- One more power leaves room for those of other names. -/
theorem LeavesRoom.times {ps : List (Variable × ℕ)} (room : LeavesRoom f ps) (new : degreeOf v f = 0)
    (first : ∀ q ∈ ps, v ≠ q.1 ∧ e + q.2 ≤ maxExponent) : LeavesRoom (f * X v ^ e) ps := by
  have degree (u : Variable) : degreeOf u (f * X v ^ e) ≤ degreeOf u f + if v = u then e else 0 :=
    (MvPolynomial.degreeOf_mul_le u _ _).trans (Nat.add_le_add_left (degreeOf_X_pow_le v u e) _)
  intro q mem
  obtain ⟨other, pair⟩ := first q mem
  obtain ⟨absent, small⟩ := room q mem
  refine ⟨?_, fun u => ?_⟩
  · have bound := degree q.1
    rw [if_neg other, absent] at bound
    exact Nat.le_zero.mp bound
  · have bound := degree u
    have alone := small u
    split at bound
    · rename_i same
      subst same
      rw [new] at bound
      omega
    · omega

/-- **Powers of different names** behind a term. -/
theorem TermText.powers {ps : List (Variable × ℕ)} (h : TermText s f) (readable : ∀ q ∈ ps, q.1.Readable ∧ 0 < q.2)
    (apart : ps.Pairwise fun p q => p.1 ≠ q.1 ∧ p.2 + q.2 ≤ maxExponent) (room : LeavesRoom f ps) :
    TermText (s ++ powersText true ps) (f * (ps.map fun q => X q.1 ^ q.2).prod) := by
  induction ps generalizing s f with
  | nil =>
    rw [List.map_nil, List.prod_nil, mul_one]
    exact (String.append_empty (s := s)).symm ▸ h
  | cons q ps ih =>
    obtain ⟨v, e⟩ := q
    obtain ⟨here, readable⟩ := List.forall_mem_cons.mp readable
    obtain ⟨first, apart⟩ := List.pairwise_cons.mp apart
    obtain ⟨fit, room⟩ := List.forall_mem_cons.mp room
    have all := ih (h.times here.1 here.2 fit.2) readable apart (LeavesRoom.times room fit.1 first)
    have text : s ++ powersText true ((v, e) :: ps) = s ++ "*" ++ powerText v e ++ powersText true ps := by
      simp only [powersText, powerText, String.append_assoc, if_true]
    rw [text, List.map_cons, List.prod_cons, ← mul_assoc]
    exact all

/-- A term behind its sign, if that is a minus. -/
def signedText (vars : List Variable) (t : Term) : String :=
  (if t.coeff.isNegative then "-" else "") ++ termText vars t

/-- The coefficient `1` or `-1` is a sign. -/
theorem toRat_of_sign (one : (if c.isNegative then -c else c).isOne = true) :
    c.toRat = if c.isNegative then -1 else 1 := by
  split at one
  · rename_i negative
    rw [Coefficient.isOne_iff_toRat, Coefficient.toRat_neg] at one
    rw [if_pos negative]
    linarith
  · rename_i positive
    rw [Coefficient.isOne_iff_toRat] at one
    rw [if_neg positive, one]

/-- **Every term is written as one**, with its sign. -/
theorem termText_signedText (nodup : vars.Nodup) (readable : ∀ v ∈ vars, v.Readable)
    (len : t.exps.length = vars.length) (fit : t.exps.Fit) :
    TermText (signedText vars t) (mk vars [t]).toMv := by
  have named : ∀ q ∈ Polynomial.powers vars t.exps, q.1.Readable ∧ 0 < q.2 := fun q mem =>
    ⟨readable _ (mem_powers mem).1, (mem_powers mem).2.2⟩
  have small : ∀ q ∈ Polynomial.powers vars t.exps, q.2 ≤ maxExponent := fun q mem =>
    fit.each _ (mem_powers mem).2.1
  have apart := pairwise_powers nodup fit
  have room := leavesRoom_C t.coeff.toRat small
  rw [toMv_mk_term t.coeff len]
  unfold signedText termText
  dsimp only
  by_cases written : (!(if t.coeff.isNegative then -t.coeff else t.coeff).isOne || t.exps.isConstant) = true
  · have number : (if t.coeff.isNegative then "-" else "") ++
        (if t.coeff.isNegative then -t.coeff else t.coeff).text = t.coeff.text := by
      split
      · rename_i negative
        exact (Coefficient.text_of_isNegative negative).symm
      · exact String.empty_append
    rw [written, if_pos rfl, ← String.append_assoc, number]
    exact (termText_number t.coeff).powers named apart room
  · rw [Bool.not_eq_true] at written
    rw [written, if_neg Bool.false_ne_true, String.empty_append]
    rw [Bool.or_eq_false_iff, Bool.not_eq_false'] at written
    obtain ⟨one, powers⟩ := written
    -- without a number, the first power stands behind the sign
    cases none : Polynomial.powers vars t.exps with
    | nil => cases (isConstant_of_powers len none).symm.trans powers
    | cons q ps =>
      obtain ⟨v, e⟩ := q
      rw [none] at named small apart room
      obtain ⟨here, named⟩ := List.forall_mem_cons.mp named
      obtain ⟨first, apart⟩ := List.pairwise_cons.mp apart
      obtain ⟨fit, room⟩ := List.forall_mem_cons.mp room
      have start : TermText ((if t.coeff.isNegative then "-" else "") ++ powerText v e)
          (C t.coeff.toRat * X v ^ e) := by
        obtain ⟨plus, minus⟩ := termText_power here.1 here.2 (small _ List.mem_cons_self)
        rw [toRat_of_sign one]
        split
        · rwa [map_neg, map_one, neg_one_mul]
        · rwa [map_one, one_mul, String.empty_append]
      rw [powersText_false, ← String.append_assoc, List.map_cons, List.prod_cons, ← mul_assoc]
      exact start.powers named apart (LeavesRoom.times room fit.1 first)

/-! ## 3. Polynomials -/

/-- A term without its sign starts with none. -/
theorem unsigned_termText (readable : ∀ v ∈ vars, v.Readable) (len : t.exps.length = vars.length) :
    Unsigned (termText vars t) := by
  have nonneg : (if t.coeff.isNegative then -t.coeff else t.coeff).isNegative = false := by
    split
    · rename_i negative
      exact Coefficient.isNegative_neg negative
    · rename_i positive
      exact Bool.not_eq_true _ ▸ positive
  unfold termText
  dsimp only
  by_cases written : (!(if t.coeff.isNegative then -t.coeff else t.coeff).isOne || t.exps.isConstant) = true
  · rw [if_pos written]
    exact (unsigned_number nonneg).append _
  · rw [if_neg written, String.empty_append]
    rw [Bool.or_eq_true, not_or] at written
    cases none : Polynomial.powers vars t.exps with
    | nil => exact absurd (isConstant_of_powers len none) written.2
    | cons q ps =>
      have mem : q ∈ Polynomial.powers vars t.exps := none ▸ List.mem_cons_self
      rw [Bool.eq_false_iff.mpr written.1, Bool.eq_false_iff.mpr written.2, Bool.or_false, powersText_false]
      exact (unsigned_power (readable _ (mem_powers mem).1)).append _

/-- A later term is a line behind the others. -/
theorem laterTermText_eq (unsigned : Unsigned (termText vars t)) :
    laterTermText vars t = Nested.plusBefore (signedText vars t) ++ signedText vars t := by
  unfold laterTermText signedText
  split
  · rw [plusBefore_minus, String.empty_append]
  · rw [String.empty_append, unsigned.plusBefore]

/-- **The written form of a polynomial in names** is a line that becomes the polynomial. -/
theorem sumText_text (consistent : p.Consistent) (nodup : p.vars.Nodup) (readable : ∀ v ∈ p.vars, v.Readable)
    (fit : ∀ t ∈ p.terms, t.exps.Fit) : SumText p.text p.toMv := by
  obtain ⟨vars, ts⟩ := p
  have consistent : ts.Descending vars.length := consistent
  cases ts with
  | nil =>
    rw [toMv_mk_nil]
    have zero := (termText_number .zero).sum
    rwa [Coefficient.toRat_zero, map_zero] at zero
  | cons t ts =>
    have each : ∀ t' ∈ t :: ts, TermText (signedText vars t') (mk vars [t']).toMv := fun t' mem =>
      termText_signedText nodup readable (consistent.length mem) (fit t' mem)
    have later (us : Terms) (sub : ∀ u ∈ us, u ∈ t :: ts) :
        Folds SumText (· + ·) 0 (us.map (signedText vars)) (mk vars us).toMv := by
      induction us with
      | nil => exact toMv_mk_nil vars
      | cons u us ih =>
        obtain ⟨here, sub⟩ := List.forall_mem_cons.mp sub
        exact ⟨_, _, (each u here).sum, ih sub, toMv_mk_append vars [u] us⟩
    have all := (each t List.mem_cons_self).sum.join (later ts fun u => List.mem_cons_of_mem t)
    rw [← toMv_mk_append, List.map_map] at all
    have texts : ts.map (laterTermText vars) =
        ts.map ((fun r => Nested.plusBefore r ++ r) ∘ signedText vars) :=
      List.map_congr_left fun u mem => laterTermText_eq
        (unsigned_termText readable (consistent.length (List.mem_cons_of_mem t mem)))
    show SumText (signedText vars t ++ String.join (ts.map (laterTermText vars))) _
    rw [texts]
    exact all

end Polynomial

end Eliminant
