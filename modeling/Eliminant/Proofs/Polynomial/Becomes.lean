import Eliminant.Proofs.Polynomial.Kernels
import Eliminant.Proofs.Polynomial.Product

/-!
# Sums and products of names become what they say

An expression becomes a polynomial if it is converted to it (`Polynomial.Becomes`). Numbers, fractions and powers
of names become what they stand for, and so do

* `Becomes.negated`: opposites, with the sign taken into a number and two signs left out;
* `Becomes.ofTerms`: sums, and sums of one term;
* **`Multiplies.times`**: products with one more factor, as long as the largest exponents of both fit in sum. The
  factors of a product stand in one node, and so a product is known by what its factors become
  (`Polynomial.Multiplies`).
-/

namespace Eliminant

open MvPolynomial (C X degreeOf)

namespace Polynomial

open Eliminant.Expr (num op negated ofTerms timesFactor factorsOf sumConstants?)

variable {a b : Expr} {as : List Expr} {c d s : Coefficient} {f g : MvPolynomial Variable ℚ} {p : Polynomial}
  {ps : List Polynomial} {n : ℕ}

/-! ## 1. Numbers, powers of names and opposites -/

/-- **The expression `a` becomes the polynomial `f`.** -/
structure Becomes (a : Expr) (f : MvPolynomial Variable ℚ) : Prop where
  wellFormed : a.malformed? = none
  exists_convert : ∃ p, convert a = .ok p ∧ p.toMv = f

namespace Becomes

theorem of_constant? (wellFormed : a.malformed? = none) (h : a.constant? = some c) : Becomes a (C c.toRat) :=
  ⟨wellFormed, _, convert_of_constant? h, toMv_ofConstant c⟩

/-- What is evaluated becomes its number. -/
theorem eq_of_constant? (h : Becomes a f) (constant : a.constant? = some c) : f = C c.toRat := by
  obtain ⟨p, run, rfl⟩ := h.exists_convert
  rw [convert_of_constant? constant] at run
  cases run
  exact toMv_ofConstant c

theorem number (c : Coefficient) : Becomes (num c) (C c.toRat) := of_constant? rfl rfl

theorem fraction (c : Coefficient) (nonzero : d.toRat ≠ 0) :
    Becomes (op .div [num c, num d]) (C (c.toRat / d.toRat)) := by
  obtain ⟨q, run, value⟩ := Coefficient.exists_div c ((Coefficient.isZero_eq_false_iff d).mpr nonzero)
  rw [← value]
  refine of_constant? rfl ?_
  show (c.div d).toOption = some q
  rw [run]
  rfl

theorem power (x : String) (pos : 0 < n) (fits : n ≤ maxExponent) :
    Becomes ((Expr.var x).factor n) (X (.symbol x) ^ n) := by
  have base := (Expr.base_var x one_pos).power (q := n) (by exact_mod_cast pos)
  have answers := convert_name x pos fits
  cases run : convert ((Expr.var x).factor n) with
  | error e => exact (answers.of_error run).elim
  | ok p => exact ⟨base.factor.wellFormed, p, run, (answers.of_ok run).value⟩

/-- A negation becomes the opposite of what is negated. -/
theorem neg_iff : Becomes (op .neg [a]) f ↔ Becomes a (-f) := by
  have whole : (op .neg [a]).malformed? = none ↔ a.malformed? = none := by
    rw [Expr.malformed?_op]
    exact ⟨fun h => h.2 a List.mem_cons_self, fun h => ⟨rfl, List.forall_mem_singleton.mpr h⟩⟩
  suffices runs : (∃ p, convert (op .neg [a]) = .ok p ∧ p.toMv = f) ↔
      ∃ p, convert a = .ok p ∧ p.toMv = -f from
    ⟨fun h => ⟨whole.mp h.wellFormed, runs.mp h.exists_convert⟩,
      fun h => ⟨whole.mpr h.wellFormed, runs.mpr h.exists_convert⟩⟩
  cases constant : a.constant? with
  | some c =>
    have opposite : (op .neg [a]).constant? = some (-c) := by
      rw [Expr.constant?, constant]
      rfl
    rw [convert_of_constant? constant, convert_of_constant? opposite]
    simp only [Except.ok.injEq, exists_eq_left', toMv_ofConstant, Coefficient.toRat_neg, map_neg,
      neg_eq_iff_eq_neg]
  | none =>
    have opposite : (op .neg [a]).constant? = none := by
      rw [Expr.constant?, constant]
      rfl
    have run : convert (op .neg [a]) = (do return -(← convert a)) := by
      rw [convert, opposite]
    rw [run]
    cases convert a with
    | error e => exact iff_of_false (fun ⟨_, run, _⟩ => nomatch run) fun ⟨_, run, _⟩ => nomatch run
    | ok p =>
      simp only [ok_bind, pure, Except.pure, Except.ok.injEq, exists_eq_left', toMv_neg, neg_eq_iff_eq_neg]

/-- **Opposites.** -/
theorem negated (h : Becomes a f) : Becomes (negated a) (-f) := by
  unfold Expr.negated
  split
  · rename_i c
    have value := h.eq_of_constant? (a := num c) rfl
    rw [value, ← map_neg, ← Coefficient.toRat_neg]
    exact number (-c)
  · exact neg_iff.mp h
  · exact neg_iff.mpr (by rwa [neg_neg])

end Becomes

/-! ## 2. Sums -/

/-- The terms of a sum that is a constant are constants. -/
theorem sumConstants?_value (terms : Folds Becomes (· + ·) 0 as f) (h : sumConstants? as s = some c) :
    C c.toRat = C s.toRat + f := by
  induction as generalizing s f with
  | nil =>
    cases terms
    rw [sumConstants?] at h
    rw [Option.some.inj h, add_zero]
  | cons a as ih =>
    obtain ⟨g, rest, first, later, rfl⟩ := terms
    rw [sumConstants?] at h
    obtain ⟨k, constant, h⟩ := Option.bind_eq_some_iff.mp h
    rw [ih later h, first.eq_of_constant? constant, Coefficient.toRat_add, map_add, add_assoc]

/-- The terms are added one after the other. -/
theorem convertTerms_value (terms : Folds Becomes (· + ·) 0 as f) (ordinary : p.Ordinary) :
    ∃ q, convertTerms p as = .ok q ∧ q.toMv = p.toMv + f := by
  induction as generalizing p f with
  | nil =>
    cases terms
    exact ⟨p, by rw [convertTerms], (add_zero _).symm⟩
  | cons a as ih =>
    obtain ⟨g, rest, first, later, rfl⟩ := terms
    obtain ⟨q, run, rfl⟩ := first.exists_convert
    have ordinaryq : q.Ordinary := (convert_answers a).of_ok run
    obtain ⟨r, runs, value⟩ := ih later (ordinary.add ordinaryq)
    refine ⟨r, ?_, ?_⟩
    · rw [convertTerms, run]
      exact runs
    · rw [value, toMv_add ordinary.sound ordinaryq.sound, add_assoc]

theorem Becomes.add (terms : Folds Becomes (· + ·) 0 as f) (many : 2 ≤ as.length) : Becomes (op .add as) f := by
  have wellFormed : (op .add as).malformed? = none := by
    refine Expr.malformed?_op.mpr ⟨decide_eq_true many, fun a mem => ?_⟩
    obtain ⟨fs, all, -⟩ := folds_iff_forall₂.mp terms
    obtain ⟨g, -, part⟩ := exists_of_mem_forall₂_left all mem
    exact part.wellFormed
  cases constant : (op .add as).constant? with
  | some c =>
    have total : sumConstants? as .zero = some c := by
      match as, many, constant with
      | a :: b :: as, _, constant => rwa [Expr.constant?] at constant
    have value := sumConstants?_value terms total
    rw [Coefficient.toRat_zero, map_zero, zero_add] at value
    rw [← value]
    exact .of_constant? wellFormed constant
  | none =>
    have run : convert (op .add as) = convertTerms (ofConstant .zero) as := by rw [convert, constant]
    obtain ⟨q, answer, value⟩ := convertTerms_value terms (ordinary_ofConstant .zero)
    rw [toMv_ofConstant, Coefficient.toRat_zero, map_zero, zero_add] at value
    exact ⟨wellFormed, q, run.trans answer, value⟩

/-- **Sums**, and sums of a single term. -/
theorem Becomes.ofTerms (terms : Folds Becomes (· + ·) 0 (a :: as) f) : Becomes (ofTerms a as) f := by
  unfold Expr.ofTerms
  cases as with
  | nil => exact Folds.singleton_iff.mp terms
  | cons b as => exact .add terms (by simp)

/-! ## 3. Products -/

theorem expands_concat {past : List Polynomial} (expands : Expands past ps)
    (fits : ∀ v w, productDegree (past ++ ps) v + p.degreeIn w ≤ maxExponent) : Expands past (ps ++ [p]) := by
  induction ps generalizing past with
  | nil =>
    rw [List.append_nil] at fits
    exact expands_cons.mpr ⟨fits, expands_nil _⟩
  | cons q ps ih =>
    obtain ⟨first, rest⟩ := expands_cons.mp expands
    rw [List.append_cons] at fits
    exact expands_cons.mpr ⟨first, ih rest fits⟩

/-- **The factors of `a` are multiplied to the polynomial `f`.** -/
structure Multiplies (a : Expr) (f : MvPolynomial Variable ℚ) : Prop where
  wellFormed : a.malformed? = none
  exists_factors : ∃ ps, List.Forall₂ (fun b p => convert b = .ok p) (factorsOf a) ps ∧ Expands [] ps ∧
    (ps.map toMv).prod = f

namespace Multiplies

/-- An expression that is no product is its only factor. -/
theorem of_becomes (h : Becomes a f) (alone : factorsOf a = [a]) (fits : ∀ v, degreeOf v f ≤ maxExponent) :
    Multiplies a f := by
  obtain ⟨p, run, rfl⟩ := h.exists_convert
  have ordinary : p.Ordinary := (convert_answers a).of_ok run
  refine ⟨h.wellFormed, [p], ?_, expands_cons.mpr ⟨fun v w => ?_, expands_nil _⟩, ?_⟩
  · rw [alone]
    exact .cons run .nil
  · rw [show productDegree [] v = 0 from rfl, zero_add, ordinary.sound.degreeIn_eq]
    exact fits w
  · rw [List.map_singleton, List.prod_singleton]

theorem becomes (h : Multiplies a f) : Becomes a f := by
  obtain ⟨ps, factors, expands, value⟩ := h.exists_factors
  refine ⟨h.wellFormed, ?_⟩
  unfold factorsOf at factors
  split at factors
  · obtain ⟨r, run, running⟩ := (convert_mul (Expr.malformed?_op.mp h.wellFormed).1 factors).1 expands
    exact ⟨r, run, running.value.trans value⟩
  · obtain ⟨p, _, run, rest, rfl⟩ := List.forall₂_cons_left_iff.mp factors
    cases rest
    rw [List.map_singleton, List.prod_singleton] at value
    exact ⟨p, run, value⟩

theorem factorsOf_timesFactor (a b : Expr) : factorsOf (timesFactor a b) = factorsOf a ++ [b] := by
  cases a with
  | op o args => cases o <;> rfl
  | num | var | call => rfl

theorem malformed?_timesFactor (ha : a.malformed? = none) (hb : b.malformed? = none) :
    (timesFactor a b).malformed? = none := by
  unfold timesFactor
  split
  · obtain ⟨accepts, each⟩ := Expr.malformed?_op.mp ha
    have many := of_decide_eq_true accepts
    refine Expr.malformed?_op.mpr ⟨decide_eq_true ?_, List.forall_mem_append.mpr ⟨each, by simpa using hb⟩⟩
    rw [List.length_append]
    omega
  · exact Expr.malformed?_op.mpr ⟨rfl, by simpa using ⟨ha, hb⟩⟩

/-- **One more factor.** -/
theorem times (h : Multiplies a f) (h' : Becomes b g)
    (fits : ∀ v w, degreeOf v f + degreeOf w g ≤ maxExponent) : Multiplies (timesFactor a b) (f * g) := by
  obtain ⟨ps, factors, expands, rfl⟩ := h.exists_factors
  obtain ⟨q, run, rfl⟩ := h'.exists_convert
  have sound : ∀ p ∈ ps, p.Sound := fun p hp => (ordinary_factors factors p hp).sound
  have ordinary : q.Ordinary := (convert_answers b).of_ok run
  refine ⟨malformed?_timesFactor h.wellFormed h'.wellFormed, ps ++ [q], ?_,
    expands_concat expands fun v w => ?_, ?_⟩
  · rw [factorsOf_timesFactor]
    exact List.rel_append factors (.cons run .nil)
  · rw [List.nil_append, productDegree_eq sound, ordinary.sound.degreeIn_eq]
    exact fits v w
  · rw [List.map_append, List.prod_append, List.map_singleton, List.prod_singleton]

end Multiplies

end Polynomial

end Eliminant
