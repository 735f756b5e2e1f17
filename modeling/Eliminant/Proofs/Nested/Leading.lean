import Eliminant.Proofs.Nested.Rows

/-!
# The leading term of a nested polynomial

The leading term of a polynomial is the last of its ascending rows. Nested, it is found by descending along
the last terms of all levels:

* `Nested.groupRows_concat`: the last row is the last of the last group;
* `Nested.leadingPowers_ofTerms`: so every level on the way has a last term, and the exponents that are met
  are those of the last row, without the zeros;
* **`Polynomial.leadingPowers_toNested`**: nested or not, a polynomial has one leading term, and it is the
  greatest.
-/

namespace Eliminant

open MonomialOrder (lex)
open Terms (front Ascending)

variable {e : Nat} {k : Coefficient} {row : Exponents} {ts : Terms} {v : Variable} {vs : List Variable}
  {p : Polynomial}

namespace Polynomial

/-- The powers of a row, without the variables whose exponent is zero. -/
theorem powers_cons : powers (v :: vs) (e :: row) =
    if 0 < e then (v, e) :: powers vs row else powers vs row := by
  unfold powers
  rw [List.zip_cons_cons, List.filter_cons]
  simp only [decide_eq_true_eq]

theorem powers_zeros : ∀ vs : List Variable, powers vs (.zeros vs.length) = []
  | [] => rfl
  | _ :: vs => powers_cons.trans (powers_zeros vs)

end Polynomial

open Eliminant.Polynomial (powers powers_cons powers_zeros)

namespace Nested

/-! ## 1. The last group -/

/-- **The last row is the last of the last group**, whatever comes before it. -/
theorem groupRows_concat : ∀ {n : Nat} {ts : Terms}, (∀ t ∈ ts, t.exps.length = n + 1) →
    ∃ groups group, groupRows (ts ++ [⟨k, e :: row⟩]) = groups ++ [(e, group ++ [⟨k, row⟩])]
  | _, [], _ => ⟨[], [], groupRows_last rfl⟩
  | _, ⟨_, []⟩ :: _, len => by cases (List.forall_mem_cons.mp len).1
  | n, ⟨c, f :: first⟩ :: ts, len => by
    obtain ⟨groups, group, later⟩ := groupRows_concat (List.forall_mem_cons.mp len).2
    rw [List.cons_append]
    rcases groups with _ | ⟨⟨g, group'⟩, groups⟩
    · obtain rfl | other := eq_or_ne f e
      · exact ⟨[], ⟨c, first⟩ :: group, groupRows_join later⟩
      · exact ⟨[(f, [⟨c, first⟩])], group, groupRows_start later other⟩
    · obtain rfl | other := eq_or_ne f g
      · exact ⟨(f, ⟨c, first⟩ :: group') :: groups, group, groupRows_join later⟩
      · exact ⟨(f, [⟨c, first⟩]) :: (g, group') :: groups, group, groupRows_start later other⟩

/-- The last term of a level leads it. -/
theorem leadingOfTerms_concat {c : Nested} {powers : List (Variable × Nat)}
    (lead : c.leadingPowers = .ok (powers, k)) :
    ∀ terms, leadingOfTerms (terms ++ [(e, c)]) = .ok (e, powers, k)
  | [] => by
    rw [List.nil_append, leadingOfTerms, lead]
    rfl
  | [_] => leadingOfTerms_concat lead []
  | _ :: t :: terms => leadingOfTerms_concat lead (t :: terms)

theorem leadingPowers_level {c : Nested} {powers : List (Variable × Nat)}
    (lead : c.leadingPowers = .ok (powers, k)) (terms : List (Nat × Nested)) :
    (level v (terms ++ [(e, c)])).leadingPowers =
      .ok (if 0 < e then (v, e) :: powers else powers, k) := by
  rw [leadingPowers, leadingOfTerms_concat lead]
  rfl

/-! ## 2. Descending along the last terms -/

/-- **The way along the last terms meets the powers of the last row.** The induction is on the variables: of
    the rows that are left, each variable keeps those of the last group. -/
theorem leadingPowers_ofTerms : ∀ {vs : List Variable} {ts : Terms} {t : Term},
    Ascending vs.length (ts ++ [t]) →
      (ofTerms vs (ts ++ [t])).leadingPowers = .ok (powers vs t.exps, t.coeff)
  | [], [], t, _ => rfl
  | [], s :: ts, t, h => by
    have empty {u : Term} (hu : u ∈ s :: ts ++ [t]) : u.exps = [] :=
      List.eq_nil_of_length_eq_zero (h.1 u hu)
    have lt := (List.pairwise_cons.mp h.2.2).1 t List.mem_concat_self
    rw [empty List.mem_cons_self, empty (List.mem_append_right _ (List.mem_singleton_self t))] at lt
    cases lt
  | v :: vs, ts, ⟨k, []⟩, h => by cases h.1 _ (List.mem_append_right _ (List.mem_singleton_self _))
  | v :: vs, ts, ⟨k, e :: row⟩, h => by
    obtain ⟨same, nonempty⟩ := groupRows_spec h.1
    obtain ⟨groups, group, last⟩ : ∃ groups group,
        groupRows (ts ++ [⟨k, e :: row⟩]) = groups ++ [(e, group ++ [⟨k, row⟩])] :=
      groupRows_concat fun t ht => h.1 t (List.mem_append_left _ ht)
    have ascending : Ascending vs.length (group ++ [⟨k, row⟩]) := by
      rw [← same, last] at h
      exact h.of_flatMap (e, group ++ [⟨k, row⟩]) (List.mem_append_right _ (List.mem_singleton_self _))
    have inner := leadingPowers_ofTerms ascending
    rw [powers_cons]
    by_cases alone : ∃ group, groupRows (ts ++ [⟨k, e :: row⟩]) = [(0, group)]
    · obtain ⟨group', alone⟩ := alone
      rw [ofTerms_skip alone]
      rw [last] at alone
      cases groups with
      | nil =>
        cases alone
        exact inner
      | cons x groups => simp at alone
    · rw [not_exists] at alone
      rw [ofTerms_level (List.append_ne_nil_of_right_ne_nil _ (List.cons_ne_nil _ _)) alone, last,
        List.map_append]
      exact leadingPowers_level inner _

end Nested

/-! ## 3. The leading term -/

namespace Polynomial

/-- The leading term comes first, and all others are below it. -/
theorem Consistent.leadTerm_greatest (h : p.Consistent) (some : p.isZero = false) :
    p.leadTerm ∈ p.terms ∧ ∀ t ∈ p.terms, t ≠ p.leadTerm →
      toLex (t.exps.toFinsupp p.vars.length) < toLex (p.leadTerm.exps.toFinsupp p.vars.length) := by
  have h : p.terms.Descending p.vars.length := h
  obtain ⟨vars, _ | ⟨t, ts⟩⟩ := p
  · cases some
  · refine ⟨List.mem_cons_self, fun u hu other => ?_⟩
    have later : u ∈ ts := (List.mem_cons.mp hu).resolve_left other
    exact (Exponents.compare_lt_iff_lex (h.length hu) (h.length List.mem_cons_self)).mp (h.below later)

/-- **The two ways to the leading term agree**: descending along the last terms of the nested polynomial never
    meets an empty level, and yields the variables of the leading term with their exponents, and the leading
    coefficient. They are those of the polynomial in the lexicographic order in which the first variable is the
    most significant; and if the polynomial is not zero, the leading term is one of its terms, and every other
    is below it. -/
theorem leadingPowers_toNested (consistent : p.Consistent) :
    p.toNested.leadingPowers = .ok (powers p.vars p.leadTerm.exps, p.leadCoeff) ∧
      p.leadTerm.coeff = p.leadCoeff ∧
      lex.degree (Terms.toMv p.vars.length p.terms) = p.leadTerm.exps.toFinsupp p.vars.length ∧
      lex.leadingCoeff (Terms.toMv p.vars.length p.terms) = p.leadCoeff.toRat ∧
      (p.isZero = false → p.leadTerm ∈ p.terms ∧ ∀ t ∈ p.terms, t ≠ p.leadTerm →
        toLex (t.exps.toFinsupp p.vars.length) < toLex (p.leadTerm.exps.toFinsupp p.vars.length)) := by
  have h : p.terms.Descending p.vars.length := consistent
  refine ⟨?_, ?_, ?_, h.leadingCoeff_toMv, consistent.leadTerm_greatest⟩
  · have ascending := Terms.ascending_reverse.mpr h
    obtain ⟨vars, _ | ⟨t, ts⟩⟩ := p
    · show (Nested.ofTerms vars []).leadingPowers = .ok (powers vars (.zeros vars.length), .zero)
      rw [Nested.ofTerms_nil, powers_zeros]
      rfl
    · rw [List.reverse_cons] at ascending
      show (Nested.ofTerms vars (t :: ts).reverse).leadingPowers = _
      rw [List.reverse_cons]
      exact Nested.leadingPowers_ofTerms ascending
  · obtain ⟨vars, _ | ⟨t, ts⟩⟩ := p <;> rfl
  · rw [h.degree_toMv]
    obtain ⟨vars, _ | ⟨t, ts⟩⟩ := p
    · show _ = (Exponents.zeros vars.length).toFinsupp vars.length
      rw [Exponents.toFinsupp_zeros]
      ext i
      rfl
    · rfl

/-- Variables that are not sorted, of which the first and the third have no exponent in the leading term. -/
theorem leadingPowers_toNested_at :
    let x := Variable.symbol "x"
    let y := Variable.symbol "y"
    let z := Variable.symbol "z"
    let p : Polynomial := ⟨[z, x, y], [⟨-.one, [0, 2, 0]⟩, ⟨.one, [0, 1, 7]⟩, ⟨.one, [0, 0, 9]⟩]⟩
    p.Consistent ∧ p.vars.Nodup ∧ p.isZero = false ∧ p.toNested.leadingPowers = .ok ([(x, 2)], -.one) ∧
      p.leadTerm ∈ p.terms := by
  intro x y z p
  have consistent : p.Consistent := by decide
  have some : p.isZero = false := rfl
  obtain ⟨lead, -, -, -, greatest⟩ := leadingPowers_toNested consistent
  exact ⟨consistent, by decide, some, lead, (greatest some).1⟩

end Polynomial

end Eliminant
