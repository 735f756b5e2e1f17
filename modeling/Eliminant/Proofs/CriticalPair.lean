import Eliminant.Groebner.CriticalPair
import Eliminant.Proofs.Division

/-!
# Critical pairs

* `Terms.sPolynomial_answers`: the S-polynomial of two sums is that of their polynomials;
* `firstLeast_lt`: the pair that is treated next is a pending one;
* `mem_swapRemove`, `mem_or_eq_of_swapRemove`: taking a pair out keeps all the others.
-/

namespace Eliminant

open MvPolynomial
open MonomialOrder (lex)

variable {n : Nat}

/-! ## 1. S-polynomials -/

namespace Terms

variable {f g : Terms}

/-- The leading term of a sum divided by the greatest common divisor of two leading terms. -/
theorem exists_cofactor {c : Coefficient} {row other : Exponents} (hc : c.isZero = false)
    (hr : row.length = n) {m : Exponents} (hm : m.length = n)
    (gcd : m.toFinsupp n = row.toFinsupp n ⊓ other.toFinsupp n) :
    ∃ q, Term.div ⟨c, row⟩ ⟨.one, m⟩ = .ok q ∧ q.exps.length = n ∧
      q.exps.toFinsupp n = row.toFinsupp n - other.toFinsupp n ∧ q.coeff.toRat = c.toRat := by
  have hdiv : m.divides row = true := (Exponents.divides_iff hm hr).mpr (gcd ▸ inf_le_left)
  let t : Term := ⟨c, row⟩
  let lead : Term := ⟨.one, m⟩
  have ht : t.exps.length = n := hr
  have hl : lead.exps.length = n := hm
  obtain ⟨q, hq, len, -, rows, coeffs⟩ := Division.exists_term_div ht hl hc rfl hdiv
  refine ⟨q, hq, len, ?_, ?_⟩
  · have sum : q.exps.toFinsupp n + m.toFinsupp n = row.toFinsupp n := rows
    rw [eq_tsub_of_add_eq sum, gcd]
    ext i
    simp only [Finsupp.tsub_apply, Finsupp.inf_apply]
    omega
  · have one : q.coeff.toRat * (Coefficient.one).toRat = c.toRat := coeffs
    rwa [Coefficient.toRat_one, mul_one] at one

/-- **The S-polynomial of two sums is that of their polynomials.** -/
theorem sPolynomial_answers (hf : Descending n f) (hg : Descending n g) (nf : f ≠ [])
    (ng : g ≠ []) :
    Answers Failure.IsOverflow
      (fun s => Descending n s ∧ toMv n s = lex.sPolynomial (toMv n f) (toMv n g))
      (sPolynomial ⟨leadCoeff f, leadRow f⟩ ⟨leadCoeff g, leadRow g⟩ f g) := by
  have lf := length_leadRow hf nf
  have lg := length_leadRow hg ng
  have zf := (Coefficient.isZero_eq_false_iff _).mpr (leadCoeff_ne_zero hf nf)
  have zg := (Coefficient.isZero_eq_false_iff _).mpr (leadCoeff_ne_zero hg ng)
  have lm := Exponents.length_gcd lf lg
  have gcd := Exponents.toFinsupp_gcd lf lg
  obtain ⟨forF, hforF, lenF, rowF, coeffF⟩ := exists_cofactor zg lg lm (gcd.trans (inf_comm _ _))
  obtain ⟨forG, hforG, lenG, rowG, coeffG⟩ := exists_cofactor zf lf lm gcd
  unfold sPolynomial
  show Answers _ _ (Term.div ⟨leadCoeff g, leadRow g⟩ ⟨.one, _⟩ >>= fun forF => _)
  rw [hforF]
  show Answers _ _ (Term.div ⟨leadCoeff f, leadRow f⟩ ⟨.one, _⟩ >>= fun forG => _)
  rw [hforG]
  refine (mulTerm_answers lenF hf).bind fun a ha => ?_
  refine (mulTerm_answers lenG hg).bind fun b hb => ⟨ha.1.sub hb.1, ?_⟩
  rw [toMv_sub, ha.2, hb.2, rowF, rowG, coeffF, coeffG, MonomialOrder.sPolynomial, hf.degree_toMv,
    hg.degree_toMv, hf.leadingCoeff_toMv, hg.leadingCoeff_toMv]

end Terms

/-! ## 2. The pair that is treated next -/

variable {α : Type} {cmp : α → α → Ordering} {as : List α} {a : α} {i : Nat}

theorem leastFrom_lt (cmp : α → α → Ordering) : ∀ (as : List α) (best : α) {place next : Nat},
    place < next → leastFrom cmp place best next as < next + as.length
  | [], _, place, next, h => by
    simpa [leastFrom] using h
  | a :: as, best, place, next, h => by
    unfold leastFrom
    rw [List.length_cons]
    split
    · have := leastFrom_lt cmp as a (Nat.lt_add_one next)
      omega
    · have := leastFrom_lt cmp as best (Nat.lt_add_one_of_lt h)
      omega

/-- The place of the first of the least entries is one of the list. -/
theorem firstLeast_lt (h : firstLeast cmp as = some i) : i < as.length := by
  cases as with
  | nil => cases h
  | cons a as =>
    cases h
    have := leastFrom_lt cmp as a Nat.zero_lt_one
    rw [List.length_cons]
    omega

theorem firstLeast_eq_none (h : firstLeast cmp as = none) : as = [] := by
  cases as with
  | nil => rfl
  | cons a as => cases h

/-! ## 3. Taking a pair out -/

theorem mem_swapRemove (h : a ∈ swapRemove as i) : a ∈ as := by
  unfold swapRemove at h
  split at h
  · cases h
  · rename_i z last
    rcases List.mem_or_eq_of_mem_set (List.mem_of_mem_dropLast h) with h | rfl
    · exact h
    · exact List.mem_of_getLast? last

theorem mem_or_eq_of_set {b z : α} (hi : as[i]? = some a) (hb : b ∈ as) :
    b = a ∨ b ∈ as.set i z := by
  obtain ⟨j, hj, rfl⟩ := List.getElem_of_mem hb
  by_cases same : i = j
  · subst same
    rw [List.getElem?_eq_getElem hj] at hi
    exact Or.inl (Option.some.inj hi)
  · refine Or.inr ?_
    rw [← List.getElem_set_of_ne same (by simpa using hj) (a := z)]
    exact List.getElem_mem _

theorem length_swapRemove (hi : as[i]? = some a) : (swapRemove as i).length + 1 = as.length := by
  have lt := (List.getElem?_eq_some_iff.mp hi).1
  unfold swapRemove
  split
  · rename_i none
    rw [List.getLast?_eq_none_iff.mp none] at lt
    exact absurd lt (Nat.not_lt_zero i)
  · rw [List.length_dropLast, List.length_set]
    omega

/-- **Only the entry at its place is lost.** -/
theorem mem_or_eq_of_swapRemove {b : α} (hi : as[i]? = some a) (hb : b ∈ as) :
    b = a ∨ b ∈ swapRemove as i := by
  rcases List.eq_nil_or_concat as with rfl | ⟨front, z, rfl⟩
  · cases hb
  · rw [List.concat_eq_append] at hi hb ⊢
    have removed : swapRemove (front ++ [z]) i = ((front ++ [z]).set i z).dropLast := by
      simp [swapRemove]
    rw [removed, List.set_append]
    by_cases lt : i < front.length
    · rw [if_pos lt, List.dropLast_concat]
      rw [List.getElem?_append_left lt] at hi
      rcases List.mem_append.mp hb with hb | hb
      · exact mem_or_eq_of_set hi hb
      · refine Or.inr ?_
        rw [List.mem_singleton.mp hb]
        exact List.mem_set lt z
    · rw [if_neg lt]
      have last : i = front.length := by
        have := (List.getElem?_eq_some_iff.mp hi).1
        rw [List.length_append, List.length_singleton] at this
        omega
      subst last
      rw [List.getElem?_concat_length] at hi
      rcases List.mem_append.mp hb with hb | hb
      · exact Or.inr (by simpa using hb)
      · rw [List.mem_singleton.mp hb]
        exact Or.inl (Option.some.inj hi)

end Eliminant
