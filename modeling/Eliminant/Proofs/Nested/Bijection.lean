import Eliminant.Proofs.Nested.Flatten

/-!
# Nesting and multiplying out undo each other

A nested polynomial stands for a polynomial in all variables (`Nested.toMv`), and so do its terms over any
list that orders its variables (`Nested.toMv_flat`). What a polynomial is nested to has exactly the
variables that occur (`Nested.mentions_iff`), so multiplying it out gives the polynomial back without the
others:

* `Polynomial.nests_toNested`: over sorted variables, polynomials are nested to regular ones;
* **`Polynomial.toNested_toPolynomial`**: multiplied out again, they have lost the variables that do not
  occur;
* **`Nested.Regular.toPolynomial_toNested`**: a regular nested polynomial is nested from what it is
  multiplied out to.
-/

namespace Eliminant

open MvPolynomial (C X)
open Terms (front Ascending)
open Variable (Sorted)

variable {e i : Nat} {ts : Terms} {u v : Variable} {vs : List Variable} {r : Nested}
  {terms : List (Nat × Nested)} {p q : Polynomial}

/-! ## 1. What a nested polynomial stands for -/

namespace Nested

mutual
/-- **The polynomial in all variables that a nested polynomial stands for.** -/
noncomputable def toMv : Nested → MvPolynomial Variable ℚ
  | constant c => C c.toRat
  | level v terms => toMvTerms v terms

/-- The polynomial that the terms of a level in `v` stand for. -/
noncomputable def toMvTerms (v : Variable) : List (Nat × Nested) → MvPolynomial Variable ℚ
  | [] => 0
  | (e, c) :: rest => X v ^ e * c.toMv + toMvTerms v rest
end

end Nested

namespace Polynomial

theorem toMv_mk_nil (vs : List Variable) : (mk vs []).toMv = 0 := map_zero _

theorem toMv_mk_append (vs : List Variable) (ts us : Terms) :
    (mk vs (ts ++ us)).toMv = (mk vs ts).toMv + (mk vs us).toMv := by
  rw [toMv, toMv, toMv, ← map_add]
  exact congrArg _ (Terms.toMv_append ts us)

theorem toMv_mk_reverse (vs : List Variable) (ts : Terms) : (mk vs ts.reverse).toMv = (mk vs ts).toMv :=
  congrArg (MvPolynomial.rename vs.get) (Terms.toMv_reverse ts)

/-- The exponent in front is that of the first variable. -/
theorem toMv_mk_front (v : Variable) (vs : List Variable) (e : Nat) (ts : Terms) :
    (mk (v :: vs) (front e ts)).toMv = X v ^ e * (mk vs ts).toMv := by
  show MvPolynomial.rename (v :: vs).get (Terms.toMv (vs.length + 1) (front e ts)) = _
  rw [Terms.toMv_front, map_mul, map_pow, MvPolynomial.rename_X, lift, MvPolynomial.rename_rename]
  rfl

theorem toMv_mk_zeros (vs : List Variable) (c : Coefficient) :
    (mk vs [⟨c, .zeros vs.length⟩]).toMv = C c.toRat := by
  show MvPolynomial.rename vs.get (Terms.toMv vs.length [⟨c, .zeros vs.length⟩]) = _
  rw [Terms.toMv_singleton, Exponents.toFinsupp_zeros]
  exact MvPolynomial.rename_C _ _

end Polynomial

namespace Nested

open Eliminant.Polynomial (toMv_mk_nil toMv_mk_append toMv_mk_front toMv_mk_zeros)

theorem toMv_mk_flatMap (v : Variable) (listed : Nested → Terms) :
    ∀ {terms : List (Nat × Nested)}, (∀ t ∈ terms, (Polynomial.mk vs (listed t.2)).toMv = t.2.toMv) →
      (Polynomial.mk (v :: vs) (terms.flatMap fun t => front t.1 (listed t.2))).toMv = toMvTerms v terms
  | [], _ => by
    rw [toMvTerms]
    exact toMv_mk_nil _
  | (e, c) :: rest, h => by
    obtain ⟨first, later⟩ := List.forall_mem_cons.mp h
    rw [toMvTerms, List.flatMap_cons, toMv_mk_append, toMv_mk_front, toMv_mk_flatMap v listed later, first]

/-- **The terms stand for the same polynomial**, over any list that orders the variables. -/
theorem toMv_flat (h : InOrder vs r) : vs.Nodup → (Polynomial.mk vs (flat vs r)).toMv = r.toMv := by
  induction h with
  | constant vs c =>
    intro _
    rw [flat_constant, toMv]
    cases zero : c.isZero with
    | true =>
      rw [(Coefficient.isZero_iff_toRat c).mp zero, map_zero]
      exact toMv_mk_nil vs
    | false => exact toMv_mk_zeros vs c
  | skip v vs r later ih =>
    intro nodup
    obtain ⟨new, nodup⟩ := List.nodup_cons.mp nodup
    rw [later.flat_skip new, toMv_mk_front, ih nodup, pow_zero, one_mul]
  | level v vs terms each ih =>
    intro nodup
    rw [flat_level, toMv]
    exact toMv_mk_flatMap v (flat vs) fun t ht => ih t ht (List.nodup_cons.mp nodup).2

/-! ## 2. The variables that occur in the terms -/

/-- A level has a coefficient behind a power of its variable. -/
theorem RegularLevel.exists_pos (h : RegularLevel v terms) : ∃ t ∈ terms, 0 < t.1 := by
  by_contra none
  simp only [not_exists, not_and, Nat.not_lt, Nat.le_zero] at none
  cases terms with
  | nil => exact h.ne_nil rfl
  | cons s rest =>
    cases rest with
    | nil =>
      obtain ⟨e, c⟩ := s
      cases none _ List.mem_cons_self
      exact h.ne_alone c rfl
    | cons t rest =>
      have lt := (List.pairwise_cons.mp h.ascending).1 t List.mem_cons_self
      have zero := none t (List.mem_cons_of_mem s List.mem_cons_self)
      omega

/-- **The variables that are met are those with an exponent in some term.** -/
theorem mentions_iff (h : InOrder vs r) : Regular r → vs.Nodup → ∀ {i : Nat}, vs[i]? = some u →
    (Mentions u r ↔ ∃ t ∈ flat vs r, 0 < t.exps.getD i 0) := by
  induction h generalizing u with
  | constant vs c =>
    intro _ _ i _
    refine iff_of_false not_mentions_constant ?_
    rintro ⟨t, ht, some⟩
    rw [flat_constant] at ht
    split at ht
    · cases ht
    · cases List.mem_singleton.mp ht
      simp [Exponents.zeros] at some
  | skip v vs r later ih =>
    intro regular nodup i place
    obtain ⟨new, nodup⟩ := List.nodup_cons.mp nodup
    rw [later.flat_skip new]
    cases i with
    | zero =>
      cases place
      refine iff_of_false (fun deep => new (later.mem_of_mentions deep)) ?_
      simp [front]
    | succ i =>
      rw [ih regular nodup place]
      simp [front]
  | level v vs terms each ih =>
    rintro ⟨⟩ nodup i place
    rename_i regular here
    obtain ⟨new, nodup⟩ := List.nodup_cons.mp nodup
    rw [flat_level, mentions_level]
    cases i with
    | zero =>
      cases place
      refine iff_of_true (.inl rfl) ?_
      obtain ⟨t, ht, some⟩ := here.exists_pos
      have full : flat vs t.2 ≠ [] := fun none => Bool.eq_false_iff.mp (here.nonzero t ht)
        (((each t ht).relisted (regular t ht) nodup).eq_nil_iff.mp none)
      obtain ⟨s, ss, cons⟩ := List.exists_cons_of_ne_nil full
      exact ⟨⟨s.coeff, t.1 :: s.exps⟩, List.mem_flatMap_of_mem ht
        (List.mem_map_of_mem (cons ▸ List.mem_cons_self)), some⟩
    | succ i =>
      have ne : u ≠ v := by
        rintro rfl
        exact new (List.mem_of_getElem? place)
      rw [or_iff_right ne]
      constructor
      · rintro ⟨t, ht, deep⟩
        obtain ⟨s, hs, some⟩ := (ih t ht (regular t ht) nodup place).mp deep
        exact ⟨_, List.mem_flatMap_of_mem ht (List.mem_map_of_mem hs), some⟩
      · rintro ⟨s, hs, some⟩
        obtain ⟨t, ht, hs⟩ := List.mem_flatMap.mp hs
        obtain ⟨s', hs', rfl⟩ := List.mem_map.mp hs
        exact ⟨t, ht, (ih t ht (regular t ht) nodup place).mpr ⟨s', hs', some⟩⟩

/-- **A regular nested polynomial is nested from what it is multiplied out to.** -/
theorem Regular.toPolynomial_toNested (h : Regular r) : ∃ q, r.toPolynomial = .ok q ∧ q.toNested = r := by
  refine ⟨_, h.toPolynomial_eq, ?_⟩
  show ofTerms r.vars (flat r.vars r).reverse.reverse = r
  rw [List.reverse_reverse]
  exact (h.inOrder_vars.relisted h (nodup_vars r)).ofTerms_eq

end Nested

/-! ## 3. There and back -/

namespace Polynomial

theorem sorted_prune (sorted : Sorted p.vars) : Sorted p.prune.vars := by
  refine List.pairwise_filterMap.mpr (p.pairwise_occurring.imp fun {i j} lt u hu v hv => ?_)
  obtain ⟨hi, rfl⟩ := List.getElem?_eq_some_iff.mp hu
  obtain ⟨hj, rfl⟩ := List.getElem?_eq_some_iff.mp hv
  exact List.pairwise_iff_getElem.mp sorted i j hi hj lt

/-- **Over sorted variables, a polynomial is nested to a regular one with its terms.** -/
theorem Consistent.nests_toNested (hp : p.Consistent) (sorted : Sorted p.vars)
    (fits : ∀ t ∈ p.terms, ∀ e ∈ t.exps, e ≤ maxExponent) :
    Nested.Nests p.vars p.terms.reverse p.toNested :=
  Nested.nests_ofTerms sorted (Terms.ascending_reverse.mpr hp) fun t ht => fits t (List.mem_reverse.mp ht)

theorem isZero_iff_toNested (h : Nested.Nests p.vars p.terms.reverse p.toNested) :
    p.isZero = true ↔ p.toNested = .constant .zero := by
  constructor
  · intro zero
    show Nested.ofTerms p.vars p.terms.reverse = _
    rw [List.isEmpty_iff.mp zero]
    exact Nested.ofTerms_nil _
  · intro same
    have terms := h.flat_eq
    rw [same, Nested.flat_of_isZero rfl] at terms
    exact List.isEmpty_iff.mpr (List.reverse_eq_nil_iff.mp terms.symm)

/-- The variables that are met are those that occur. -/
theorem vars_toNested (h : Nested.Nests p.vars p.terms.reverse p.toNested) (sorted : Sorted p.vars) :
    p.toNested.vars = p.prune.vars := by
  have among : p.toNested.vars ⊆ p.vars := fun u hu => h.inOrder.mem_of_mentions (Nested.mem_vars.mp hu)
  refine Sorted.eq_of_mem_iff ?_ (sorted_prune sorted) fun u => ?_
  · exact Variable.sorted_of_subset (Nested.nodup_vars _) (Nested.pairwise_vars _) sorted among
  have occurs {i : Nat} (place : p.vars[i]? = some u) :
      Nested.Mentions u p.toNested ↔ ∃ t ∈ p.terms, 0 < t.exps.getD i 0 := by
    rw [Nested.mentions_iff h.inOrder h.regular sorted.nodup place, h.flat_eq]
    simp only [List.mem_reverse]
  rw [mem_prune_vars]
  constructor
  · intro hu
    obtain ⟨i, place⟩ := List.getElem?_of_mem (among hu)
    exact ⟨i, place, (occurs place).mp (Nested.mem_vars.mp hu)⟩
  · rintro ⟨i, place, some⟩
    exact Nested.mem_vars.mpr ((occurs place).mpr some)

/-- **Nested and multiplied out again, a polynomial has lost the variables that do not occur.** -/
theorem Consistent.toNested_toPolynomial (hp : p.Consistent) (sorted : Sorted p.vars)
    (fits : ∀ t ∈ p.terms, ∀ e ∈ t.exps, e ≤ maxExponent) :
    p.toNested.toPolynomial = .ok p.prune := by
  have nests := hp.nests_toNested sorted fits
  have whole : p.WellFormed := ⟨hp, sorted.nodup⟩
  have ordered := nests.regular.inOrder_vars
  have nodup := Nested.nodup_vars p.toNested
  have terms := (ordered.relisted nests.regular nodup).ascending
  have value : (mk p.toNested.vars (Nested.flat p.toNested.vars p.toNested).reverse).toMv = p.prune.toMv := by
    rw [toMv_mk_reverse, Nested.toMv_flat ordered nodup, whole.toMv_prune,
      ← Nested.toMv_flat nests.inOrder sorted.nodup, nests.flat_eq, toMv_mk_reverse]
  rw [nests.regular.toPolynomial_eq]
  have multiplied : (mk p.toNested.vars (Nested.flat p.toNested.vars p.toNested).reverse).Consistent :=
    terms.reverse
  exact congrArg _
    (multiplied.eq_of_toMv_eq whole.prune.consistent nodup (vars_toNested nests sorted) value)

end Polynomial

/-- **Nesting and multiplying out undo each other**: a polynomial over sorted variables is nested to a
    regular nested polynomial, which is the constant zero for the zero polynomial only, and multiplied out
    again it is the polynomial without the variables that do not occur; and every regular nested polynomial
    is nested from what it is multiplied out to. The exponents are words, on either side. -/
theorem nested_bijection (consistent : p.Consistent) (sorted : Sorted p.vars)
    (fits : ∀ t ∈ p.terms, ∀ e ∈ t.exps, e ≤ maxExponent) (regular : r.Regular) :
    (p.toNested.Regular ∧ (p.isZero = true ↔ p.toNested = .constant .zero) ∧
        p.toNested.toPolynomial = .ok p.prune) ∧
      ∃ q, r.toPolynomial = .ok q ∧ q.toNested = r :=
  have nests := consistent.nests_toNested sorted fits
  ⟨⟨nests.regular, Polynomial.isZero_iff_toNested nests, consistent.toNested_toPolynomial sorted fits⟩,
    regular.toPolynomial_toNested⟩

/-- A polynomial in whose list a name is not used, and a nested polynomial that lacks a variable in one
    coefficient but not in the other. -/
theorem nested_bijection_at :
    let x := Variable.symbol "x"
    let y := Variable.symbol "y"
    let z := Variable.symbol "z"
    let p : Polynomial := ⟨[x, y, z], [⟨.one, [2, 0, 1]⟩, ⟨-.one, [2, 0, 0]⟩, ⟨.one, [0, 0, 4294967295]⟩]⟩
    let one := Nested.constant .one
    let r := Nested.level x [(0, .level z [(4294967295, one)]), (3, .level y [(0, one), (1, one)])]
    p.Consistent ∧ Sorted p.vars ∧ (∀ t ∈ p.terms, ∀ e ∈ t.exps, e ≤ maxExponent) ∧ r.Regular ∧
      p.toNested.toPolynomial = .ok p.prune ∧ p.prune.vars = [x, z] ∧
      ∃ q, r.toPolynomial = .ok q ∧ q.toNested = r := by
  intro x y z p one r
  have consistent : p.Consistent := by decide
  have sorted : Sorted p.vars := Variable.isSorted_iff.mp (by decide)
  have fits : ∀ t ∈ p.terms, ∀ e ∈ t.exps, e ≤ maxExponent := by decide
  have constant : one.Regular := .constant _
  have inZ : (Nested.level z [(4294967295, one)]).Regular :=
    .level _ _ ⟨nofun, by simp, by decide, by decide, by decide, by decide⟩
      (List.forall_mem_singleton.mpr constant)
  have inY : (Nested.level y [(0, one), (1, one)]).Regular :=
    .level _ _ ⟨nofun, nofun, by decide, by decide, by decide, by decide⟩
      (List.forall_mem_cons.mpr ⟨constant, List.forall_mem_singleton.mpr constant⟩)
  have regular : r.Regular :=
    .level _ _ ⟨nofun, nofun, by decide, by decide, by decide, by decide⟩
      (List.forall_mem_cons.mpr ⟨inZ, List.forall_mem_singleton.mpr inY⟩)
  obtain ⟨⟨-, -, back⟩, forth⟩ := nested_bijection consistent sorted fits regular
  exact ⟨consistent, sorted, fits, regular, back, by decide, forth⟩

end Eliminant
