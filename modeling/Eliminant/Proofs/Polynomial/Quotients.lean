import Eliminant.Proofs.Division
import Eliminant.Proofs.Ideal.Elimination
import Eliminant.Proofs.Polynomial.Reading

/-!
# The quotients of a division

The eliminations of a division, collected by divisor, are its quotients: the products of quotients and
divisors add up to what was eliminated (`sum_quotient_mul`). For a single divisor

* `Reads.quotients_answers`: dividend, quotient and remainder make up the equation of a division;
* **`Reads.exact_answers`**: a divisor of the dividend leaves no remainder.
-/

namespace Eliminant

open MonomialOrder (lex)

/-- An elimination is one with a divisor of the list. -/
theorem Division.Proper.lt {n : Nat} {divisors : List Terms} {e : Elimination}
    (h : Proper n divisors e) : e.1 < divisors.length := by
  by_contra ge
  refine h.divisor ?_
  rw [divisorOf, List.getD_eq_getElem?_getD, List.getElem?_eq_none (not_lt.mp ge)]
  rfl

namespace Polynomial

variable {n : Nat} {vars : List Variable} {p d : Polynomial} {es : List Elimination}
  {divisors : List Terms} {f g : MvPolynomial (Fin vars.length) ℚ}

/-! ## 1. Collecting eliminations -/

theorem toMv_quotient_cons (e : Elimination) (es : List Elimination) (i : Nat) :
    Terms.toMv n (quotient vars (e :: es) i).terms =
      (if e.1 = i then MvPolynomial.monomial (e.2.exps.toFinsupp n) e.2.coeff.toRat else 0)
        + Terms.toMv n (quotient vars es i).terms := by
  show Terms.toMv n (if e.1 = i then Terms.insert e.2 (quotient vars es i).terms
    else (quotient vars es i).terms) = _
  split
  · rw [Terms.toMv_insert, Terms.toMv_singleton]
  · rw [zero_add]

theorem descending_quotient (i : Nat) :
    ∀ {es : List Elimination}, (∀ e ∈ es, e.2.exps.length = n ∧ e.2.coeff.isZero = false) →
      (quotient vars es i).terms.Descending n
  | [], _ => .nil
  | e :: es, h => by
    obtain ⟨⟨len, coeff⟩, rest⟩ := List.forall_mem_cons.mp h
    have ih : (quotient vars es i).terms.Descending n := descending_quotient i rest
    show Terms.Descending n (if e.1 = i then Terms.insert e.2 (quotient vars es i).terms
      else (quotient vars es i).terms)
    split
    · exact Terms.Descending.insert len coeff ih
    · exact ih

/-- **The products of quotients and divisors add up to what was eliminated.** -/
theorem sum_quotient_mul (vars : List Variable) : ∀ {es : List Elimination},
    (∀ e ∈ es, e.1 < divisors.length) →
    ∑ i ∈ Finset.range divisors.length,
        Terms.toMv n (quotient vars es i).terms * Terms.toMv n (divisors.getD i []) =
      (es.map (Division.product n divisors)).sum
  | [], _ => by simp [quotient]
  | e :: es, h => by
    obtain ⟨here, rest⟩ := List.forall_mem_cons.mp h
    simp only [toMv_quotient_cons, add_mul, Finset.sum_add_distrib, ite_mul, zero_mul]
    rw [Finset.sum_ite_eq, if_pos (Finset.mem_range.mpr here), sum_quotient_mul vars rest,
      List.map_cons, List.sum_cons]
    rfl

/-! ## 2. Division over one list of variables -/

/-- **Dividing by a single polynomial.** -/
theorem Reads.quotients_answers (hp : Reads vars p f) (hd : Reads vars d g) :
    Answers Failure.IsOverflow (fun out => ∃ q k r, out.1 = [q] ∧ Reads vars q k ∧
      Reads vars out.2 r ∧ f = k * g + r ∧ (g ≠ 0 → ∀ e ∈ r.support, ¬ lex.degree g ≤ e))
      (p.quotients [d]) := by
  have hds : ∀ ts ∈ [d.terms], ts.Descending vars.length := by simpa using hd.descending
  have same : alignAll [p, d] = [p, d] :=
    alignAll_of_vars_eq (by simpa using ⟨hp.vars_eq, hd.vars_eq⟩)
  unfold quotients divide
  rw [same]
  refine Answers.bind (P := fun out => Division.Invariant vars.length [d.terms] p.terms
    ⟨out.1.reverse, out.2.terms.reverse, []⟩ ∧ out.2.vars = vars) ?_ ?_
  · exact (Terms.divide_answers hds hp.descending).bind fun out inv => ⟨inv, hp.vars_eq⟩
  rintro ⟨es, r⟩ ⟨inv, vars_eq⟩
  dsimp only at inv vars_eq
  have remainder := Terms.isRemainder_of_invariant hds inv
  have proper : ∀ e ∈ es, Division.Proper vars.length [d.terms] e := by simpa using inv.proper
  have sum : Terms.toMv vars.length p.terms =
      Terms.toMv vars.length (quotient vars es 0).terms * Terms.toMv vars.length d.terms
        + Terms.toMv vars.length r.terms := by
    rw [inv.dividend_eq, ← sum_quotient_mul vars fun e he => (proper e he).lt]
    simp
  refine ⟨quotient vars es 0, Terms.toMv vars.length (quotient vars es 0).terms,
    Terms.toMv vars.length r.terms, ?_, ?_, ?_, ?_, fun ne e he => ?_⟩
  · rw [vars_eq]
    rfl
  · exact hp.with_terms rfl
      (descending_quotient 0 fun e he => ⟨(proper e he).length, (proper e he).coeff⟩) rfl
  · exact hp.with_terms vars_eq remainder.descending rfl
  · rwa [hp.toMv_terms, hd.toMv_terms] at sum
  · have some : d.terms ≠ [] := fun none => ne (hd.isZero_iff.mp (List.isEmpty_iff.mpr none))
    have := remainder.irreducible e he d.terms (List.mem_singleton_self _) some
    rwa [← hd.descending.degree_toMv, hd.toMv_terms] at this

/-- **A divisor of the dividend leaves no remainder.** -/
theorem Reads.exact_answers (hp : Reads vars p f) (hd : Reads vars d g) (ne : g ≠ 0) (h : g ∣ f) :
    Answers Failure.IsOverflow
      (fun out => ∃ q k, out.1 = [q] ∧ out.2.isZero = true ∧ Reads vars q k ∧ k * g = f)
      (p.quotients [d]) := by
  refine (hp.quotients_answers hd).imp fun out hout => ?_
  obtain ⟨q, k, r, one, hq, hr, sum, low⟩ := hout
  have zero : r = 0 := by
    by_contra some
    have div : g ∣ r := by
      rw [← sub_eq_of_eq_add' sum]
      exact dvd_sub h (dvd_mul_left g k)
    exact low ne _ (MonomialOrder.degree_mem_support some) (degree_le_of_dvd div some)
  refine ⟨q, k, one, hr.isZero_iff.mpr zero, hq, ?_⟩
  rw [sum, zero, add_zero]

end Polynomial

end Eliminant
