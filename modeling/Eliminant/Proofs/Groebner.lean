import Eliminant.Proofs.Completion
import Eliminant.Proofs.Polynomial.Reading
import Mathlib

/-!
# Groebner bases of polynomials

A polynomial whose variables stand in a list is read as a polynomial in the variables of that list
(`Polynomial.reading`), of which the first is the most significant. **`Polynomial.groebnerBasis_spec`**:
for every list of polynomials, every strategy and all settings, a completion that meets no limit
answers the reduced Groebner basis of the ideal that they generate, over the variables of all of them
-- `[0]` for the zero ideal, `[1]` for the unit ideal -- and no other failure than a limit can occur.
**`Polynomial.groebnerBasis_unique`**: over one list of variables the ideal alone decides the answer,
element by element; neither the generators nor the strategy nor the settings have a part in it.
-/

namespace Eliminant

open MonomialOrder (lex)

namespace Polynomial

variable {vars : List Variable} {p : Polynomial} {ps qs : List Polynomial}

/-! ## 1. The ideal and its basis -/

/-- The ideal that polynomials generate, in the variables of a list that has theirs. -/
noncomputable def ideal (vars : List Variable) (ps : List Polynomial) :
    Ideal (MvPolynomial (Fin vars.length) ℚ) :=
  Ideal.span {f | ∃ p ∈ ps, p.reading vars = f}

/-- **A system over one list of variables that is the reduced Groebner basis of polynomials**: of the
    ideal that they generate, in the lexicographic order in which the first variable is the most
    significant. -/
structure IsGroebnerBasis (ps : List Polynomial) (vars : List Variable) (system : List Polynomial) :
    Prop where
  /-- the list has exactly the variables of the polynomials, each once -/
  nodup : vars.Nodup
  mem : ∀ v, v ∈ vars ↔ ∃ p ∈ ps, v ∈ p.vars
  /-- the elements are consistent polynomials over the list -/
  vars_eq : ∀ b ∈ system, b.vars = vars
  consistent : ∀ b ∈ system, b.Consistent
  /-- an ideal that is not zero has its reduced Groebner basis -/
  reduced : ideal vars ps ≠ ⊥ → IsReducedBasis lex (ideal vars ps) (system.map (reading vars))
  /-- the zero ideal has `[0]` -/
  zero : ideal vars ps = ⊥ → system = [zero vars]
  /-- the unit ideal has `[1]` -/
  unit : ideal vars ps = ⊤ → system = [one vars]

/-- The terms of aligned polynomials stand for what the polynomials are read as. -/
theorem mem_system_terms (h : List.Forall₂ (Over vars) ps qs)
    {f : MvPolynomial (Fin vars.length) ℚ} :
    f ∈ system vars.length (qs.map (·.terms)) ↔ ∃ p ∈ ps, p.reading vars = f := by
  rw [mem_system]
  constructor
  · intro h
    obtain ⟨ts, hts, rfl⟩ := h
    obtain ⟨q, hq, rfl⟩ := List.mem_map.mp hts
    obtain ⟨p, hp, same⟩ := exists_of_mem_forall₂ h hq
    exact ⟨p, hp, same.reading_eq⟩
  · intro h
    obtain ⟨p, hp, rfl⟩ := h
    obtain ⟨q, hq, same⟩ := exists_of_mem_forall₂_left h hp
    exact ⟨q.terms, List.mem_map_of_mem hq, same.reading_eq.symm⟩

theorem span_system {qs : List Polynomial} (h : List.Forall₂ (Over vars) ps qs) :
    Ideal.span (system vars.length (qs.map (·.terms))) = ideal vars ps :=
  congrArg Ideal.span (Set.ext fun _ => mem_system_terms h)

theorem consistent_of_descending {ts : Terms} (h : ts.Descending vars.length) :
    (⟨vars, ts⟩ : Polynomial).Consistent := h

theorem map_reading (nodup : vars.Nodup) (basis : List Terms) :
    (basis.map fun ts => (⟨vars, ts⟩ : Polynomial)).map (reading vars) =
      basis.map (Terms.toMv vars.length) := by
  rw [List.map_map]
  exact List.map_congr_left fun ts _ => reading_vars (p := ⟨vars, ts⟩) nodup

/-- The basis of an ideal that is not zero. -/
theorem isGroebnerBasis_of_outcome {qs : List Polynomial} (nodup : vars.Nodup)
    (mem : ∀ v, v ∈ vars ↔ ∃ p ∈ ps, v ∈ p.vars) (h : List.Forall₂ (Over vars) ps qs)
    (ne : ideal vars ps ≠ ⊥) {basis : List Terms}
    (out : Completion.Outcome vars.length (qs.map (·.terms)) basis) :
    IsGroebnerBasis ps vars (basis.map (⟨vars, ·⟩)) := by
  have span := span_system h
  have reduced := out.shape.resolve_left fun zero => ne (span ▸ zero.2)
  have isBasis : IsReducedBasis lex (ideal vars ps) (basis.map (Terms.toMv vars.length)) :=
    span ▸ out.isReducedBasis (span.symm ▸ ne)
  refine ⟨nodup, mem, by simp, ?_, fun _ => ?_, fun zero => absurd zero ne, fun top => ?_⟩
  · simpa using fun ts hts => consistent_of_descending (reduced.descending ts hts)
  · rwa [map_reading nodup]
  · rw [top] at isBasis
    obtain ⟨ts, rfl, one⟩ := List.map_eq_singleton_iff.mp isBasis.eq_one
    have same : ts = Reduction.unit vars.length :=
      Terms.toMv_injective (reduced.descending ts List.mem_cons_self) Reduction.descending_unit
        (one.trans Reduction.toMv_unit.symm)
    rw [same]
    rfl

/-- **The reduced Groebner basis of a list of polynomials**: only a limit that is met can keep a
    completion from it. -/
theorem groebnerBasis_spec (strategy : Strategy) (settings : Settings) {ps : List Polynomial}
    (ne : ps ≠ []) (hps : ∀ p ∈ ps, p.Sound) :
    Answers Failure.IsLimit (fun out => IsGroebnerBasis ps (sharedVars (alignAll ps)) out.1)
      (groebnerBasis strategy settings ps) := by
  obtain ⟨all, mem⟩ := alignAll_spec hps
  have nodup : (sharedVars (alignAll ps)).Nodup := by
    obtain ⟨p, hp⟩ := List.exists_mem_of_ne_nil ps ne
    have flipped : List.Forall₂ (flip (Over _)) (alignAll ps) ps := List.Forall₂.flip all
    obtain ⟨q, -, sound, vars, -⟩ := exists_of_mem_forall₂ flipped hp
    exact vars ▸ sound.nodup
  have sums : ∀ ts ∈ (alignAll ps).map (·.terms),
      ts.Descending (sharedVars (alignAll ps)).length := by
    intro ts hts
    obtain ⟨q, hq, rfl⟩ := List.mem_map.mp hts
    obtain ⟨p, -, here⟩ := exists_of_mem_forall₂ all hq
    exact here.descending
  unfold groebnerBasis
  dsimp only
  by_cases zero : ideal (sharedVars (alignAll ps)) ps = ⊥
  · have zeros : ∀ ts ∈ (alignAll ps).map (·.terms), ts = [] := by
      intro ts hts
      refine (sums ts hts).toMv_eq_zero_iff.mp ?_
      rw [← span_system all] at zero
      exact Ideal.span_eq_bot.mp zero _ (toMv_mem_system hts)
    have some : (alignAll ps).map (·.terms) ≠ [] := fun e => ne <| by
      rw [List.map_eq_nil_iff] at e
      exact List.length_eq_zero_iff.mp (all.length_eq.trans (congrArg List.length e))
    rw [Completion.ofSums_of_zeros some zeros]
    refine ⟨nodup, mem, by simp, ?_, fun h => absurd zero h, fun _ => rfl, fun top => ?_⟩
    · simpa using consistent_of_descending .nil
    · exact absurd (zero.symm.trans top) bot_ne_top
  · refine (Completion.ofSums_answers sums).bind fun out h => ?_
    exact isGroebnerBasis_of_outcome nodup mem all zero h

/-- `x ^ 2 - 1`, `x * y - 1` and `y ^ 2 - 1`, over a list of variables each, have the reduced Groebner basis
    `x - y`, `y ^ 2 - 1`: a remainder is adopted, and another one becomes zero afterwards. -/
theorem groebnerBasis_spec_at :
    let x := Variable.symbol "x"
    let y := Variable.symbol "y"
    let ps : List Polynomial := [⟨[x], [⟨.one, [2]⟩, ⟨-.one, [0]⟩]⟩,
      ⟨[y, x], [⟨.one, [1, 1]⟩, ⟨-.one, [0, 0]⟩]⟩, ⟨[y], [⟨.one, [2]⟩, ⟨-.one, [0]⟩]⟩]
    let system : List Polynomial :=
      [⟨[x, y], [⟨.one, [1, 0]⟩, ⟨-.one, [0, 1]⟩]⟩, ⟨[x, y], [⟨.one, [0, 2]⟩, ⟨-.one, [0, 0]⟩]⟩]
    let stats : Statistics :=
      { pairsComputed := 4, pairsSkipped := 2, zeroReductions := 3, polynomialsAdded := 1, steps := 5 }
    ps ≠ [] ∧ (∀ p ∈ ps, p.Sound) ∧ groebnerBasis .normal {} ps = .ok (system, stats) ∧
      IsGroebnerBasis ps (sharedVars (alignAll ps)) system := by
  intro x y ps system stats
  have ne : ps ≠ [] := by decide
  have sound : ∀ p ∈ ps, p.Sound := by decide
  have run : groebnerBasis .normal {} ps = .ok (system, stats) := by
    unfold groebnerBasis Completion.ofSums
    rw [Completion.run_eq_unrolled _ _ 3]
    cbv
  exact ⟨ne, sound, run, (groebnerBasis_spec .normal {} ne sound).of_ok run⟩

/-! ## 2. The ideal alone decides the basis -/

theorem reading_mem_ideal (h : p ∈ ps) : p.reading vars ∈ ideal vars ps :=
  Ideal.subset_span ⟨p, h, rfl⟩

/-- The order of the generators, and how often they are listed, has no part in the ideal. -/
theorem ideal_congr (h : ∀ p, p ∈ ps ↔ p ∈ qs) : ideal vars ps = ideal vars qs := by
  unfold ideal
  simp only [h]

theorem ideal_cons (p : Polynomial) (ps : List Polynomial) :
    ideal vars (p :: ps) = Ideal.span {p.reading vars} ⊔ ideal vars ps := by
  unfold ideal
  rw [← Ideal.span_union]
  refine congrArg Ideal.span (Set.ext fun f => ?_)
  simp only [List.exists_mem_cons_iff, Set.mem_ofPred_eq, Set.mem_union, Set.mem_singleton_iff,
    eq_comm (b := f)]

/-- A member of the ideal adds nothing to the generators. -/
theorem ideal_cons_of_mem (h : p.reading vars ∈ ideal vars ps) :
    ideal vars (p :: ps) = ideal vars ps := by
  rw [ideal_cons]
  exact sup_eq_right.mpr ((Ideal.span_singleton_le_iff_mem _).mpr h)

/-- A generator may be multiplied by a coefficient that is not zero. -/
theorem ideal_cons_scale {c : Coefficient} (hc : c.isZero = false) (p : Polynomial)
    (ps : List Polynomial) : ideal vars (p.scale c :: ps) = ideal vars (p :: ps) := by
  have unit : IsUnit (MvPolynomial.C c.toRat : MvPolynomial (Fin vars.length) ℚ) :=
    (isUnit_iff_ne_zero.mpr ((Coefficient.isZero_eq_false_iff c).mp hc)).map MvPolynomial.C
  have scaled : (p.scale c).reading vars = MvPolynomial.C c.toRat * p.reading vars := by
    unfold reading
    rw [toMv_scale, map_mul, MvPolynomial.aeval_C, MvPolynomial.algebraMap_eq]
  rw [ideal_cons, ideal_cons, scaled, Ideal.span_singleton_mul_left_unit unit]

/-- Polynomials over one list of variables generate what their terms generate. -/
theorem span_system_of_vars_eq (nodup : vars.Nodup) (h : ∀ p ∈ ps, p.vars = vars) :
    Ideal.span (system vars.length (ps.map (·.terms))) = ideal vars ps := by
  have reading_eq {p : Polynomial} (hp : p ∈ ps) :
      p.reading vars = Terms.toMv vars.length p.terms := by
    have same := h p hp
    subst same
    exact reading_vars nodup
  refine congrArg Ideal.span (Set.ext fun f => mem_system.trans ⟨fun h => ?_, fun h => ?_⟩)
  · obtain ⟨ts, hts, rfl⟩ := h
    obtain ⟨p, hp, rfl⟩ := List.mem_map.mp hts
    exact ⟨p, hp, reading_eq hp⟩
  · obtain ⟨p, hp, rfl⟩ := h
    exact ⟨p.terms, List.mem_map_of_mem hp, (reading_eq hp).symm⟩

/-- Over one list of variables the basis is the completion of the terms as they are. -/
theorem groebnerBasis_of_vars_eq {strategy : Strategy} {settings : Settings}
    {system : List Polynomial} {stats : Statistics} (ne : ps ≠ []) (h : ∀ p ∈ ps, p.vars = vars)
    (run : groebnerBasis strategy settings ps = .ok (system, stats)) :
    ∃ basis, Completion.ofSums vars.length strategy settings (ps.map (·.terms)) = .ok (basis, stats) ∧
      system = basis.map (⟨vars, ·⟩) := by
  have shared : sharedVars ps = vars := by
    cases ps with
    | nil => exact absurd rfl ne
    | cons p ps => exact h p List.mem_cons_self
  unfold groebnerBasis at run
  rw [alignAll_of_vars_eq h] at run
  dsimp only at run
  rw [shared] at run
  cases done : Completion.ofSums vars.length strategy settings (ps.map (·.terms)) with
  | error e =>
    rw [done] at run
    cases run
  | ok out =>
    rw [done] at run
    cases run
    exact ⟨out.1, rfl, rfl⟩

/-- **The ideal alone decides its basis**: two lists of generators over one list of variables, two
    strategies and any settings lead to the same elements in the same order, wherever both
    completions end. -/
theorem groebnerBasis_unique {strategy strategy' : Strategy} {settings settings' : Settings}
    {system system' : List Polynomial} {stats stats' : Statistics} (nodup : vars.Nodup)
    (ne : ps ≠ []) (ne' : qs ≠ []) (hps : ∀ p ∈ ps, p.vars = vars ∧ p.Consistent)
    (hqs : ∀ q ∈ qs, q.vars = vars ∧ q.Consistent) (same : ideal vars ps = ideal vars qs)
    (run : groebnerBasis strategy settings ps = .ok (system, stats))
    (run' : groebnerBasis strategy' settings' qs = .ok (system', stats')) : system = system' := by
  have sums {ps : List Polynomial} (h : ∀ p ∈ ps, p.vars = vars ∧ p.Consistent) :
      ∀ ts ∈ ps.map (·.terms), ts.Descending vars.length := by
    intro ts hts
    obtain ⟨p, hp, rfl⟩ := List.mem_map.mp hts
    obtain ⟨rfl, consistent⟩ := h p hp
    exact consistent
  have vars_eq : ∀ p ∈ ps, p.vars = vars := fun p hp => (hps p hp).1
  have vars_eq' : ∀ q ∈ qs, q.vars = vars := fun q hq => (hqs q hq).1
  obtain ⟨basis, done, rfl⟩ := groebnerBasis_of_vars_eq ne vars_eq run
  obtain ⟨basis', done', rfl⟩ := groebnerBasis_of_vars_eq ne' vars_eq' run'
  rw [← span_system_of_vars_eq nodup vars_eq, ← span_system_of_vars_eq nodup vars_eq'] at same
  have bases : basis = basis' := Completion.ofSums_unique (sums hps) (sums hqs)
    (by simpa using ne) (by simpa using ne') same done done'
  rw [bases]

/-- `p = x ^ 2 - 1` and `q = x * y - 1` generate the ideal of `2 * q`, `(x * y + 1) * q - y ^ 2 * p` and `p`.
    The one completion adopts two remainders, the other one only one, and both end with `x - y`,
    `y ^ 2 - 1`. -/
theorem groebnerBasis_unique_at :
    let vars := [Variable.symbol "x", Variable.symbol "y"]
    let p : Polynomial := ⟨vars, [⟨.one, [2, 0]⟩, ⟨-.one, [0, 0]⟩]⟩
    let q : Polynomial := ⟨vars, [⟨.one, [1, 1]⟩, ⟨-.one, [0, 0]⟩]⟩
    let r : Polynomial := ⟨vars, [⟨.one, [0, 2]⟩, ⟨-.one, [0, 0]⟩]⟩
    let ps := [p, q]
    let qs := [q.scale (.ofInt 2), r, p]
    let system : List Polynomial := [⟨vars, [⟨.one, [1, 0]⟩, ⟨-.one, [0, 1]⟩]⟩, r]
    let stats : Statistics :=
      { pairsComputed := 4, pairsSkipped := 2, zeroReductions := 2, polynomialsAdded := 2, steps := 4 }
    let stats' : Statistics :=
      { pairsComputed := 4, pairsSkipped := 2, zeroReductions := 3, polynomialsAdded := 1, steps := 5 }
    vars.Nodup ∧ (∀ r ∈ ps, r.vars = vars ∧ r.Consistent) ∧ (∀ r ∈ qs, r.vars = vars ∧ r.Consistent) ∧
      ideal vars ps = ideal vars qs ∧
      groebnerBasis .normal {} ps = .ok (system, stats) ∧
      ∃ system', groebnerBasis .lowestLead {} qs = .ok (system', stats') ∧ system = system' := by
  intro vars p q r ps qs system stats stats'
  have nodup : vars.Nodup := by decide
  have hps : ∀ r ∈ ps, r.vars = vars ∧ r.Consistent := by decide
  have hqs : ∀ r ∈ qs, r.vars = vars ∧ r.Consistent := by decide +kernel
  have member : r.reading vars ∈ ideal vars [q, p] := by
    let a : Polynomial := ⟨vars, [⟨.one, [1, 1]⟩, ⟨.one, [0, 0]⟩]⟩
    let b : Polynomial := ⟨vars, [⟨.one, [0, 2]⟩]⟩
    let aq : Terms := [⟨.one, [2, 2]⟩, ⟨-.one, [0, 0]⟩]
    let bp : Terms := [⟨.one, [2, 2]⟩, ⟨-.one, [0, 2]⟩]
    have ha : a.Consistent ∧ b.Consistent := by decide
    obtain ⟨⟨-, hp⟩, -, hq⟩ : (p.vars = vars ∧ p.Consistent) ∧ q.vars = vars ∧ q.Consistent := by decide
    have left : a.terms.mul q.terms = .ok aq := by cbv
    have right : b.terms.mul p.terms = .ok bp := by cbv
    have leftValue : Terms.toMv 2 aq = Terms.toMv 2 a.terms * Terms.toMv 2 q.terms :=
      ((Terms.isProduct_mul ha.1 hq).of_ok left).2.2
    have rightValue : Terms.toMv 2 bp = Terms.toMv 2 b.terms * Terms.toMv 2 p.terms :=
      ((Terms.isProduct_mul ha.2 hp).of_ok right).2.2
    have value : Terms.toMv 2 r.terms = Terms.toMv 2 aq - Terms.toMv 2 bp := by
      rw [show r.terms = aq.sub bp by cbv, Terms.toMv_sub]
    rw [show r.reading vars = Terms.toMv 2 r.terms from reading_vars (p := r) nodup, value, leftValue, rightValue,
      show Terms.toMv 2 q.terms = q.reading vars from (reading_vars (p := q) nodup).symm,
      show Terms.toMv 2 p.terms = p.reading vars from (reading_vars (p := p) nodup).symm]
    exact sub_mem (Ideal.mul_mem_left _ _ (reading_mem_ideal (by simp)))
      (Ideal.mul_mem_left _ _ (reading_mem_ideal (by simp)))
  have same : ideal vars ps = ideal vars qs := by
    calc ideal vars ps = ideal vars [q, p] := ideal_congr (by simp [ps, or_comm])
      _ = ideal vars (r :: [q, p]) := (ideal_cons_of_mem member).symm
      _ = ideal vars (q :: [r, p]) := ideal_congr fun s => by simp only [List.mem_cons, or_left_comm]
      _ = ideal vars qs := (ideal_cons_scale (by decide) q _).symm
  have run : groebnerBasis .normal {} ps = .ok (system, stats) := by
    unfold groebnerBasis Completion.ofSums
    rw [Completion.run_eq_unrolled _ _ 3]
    cbv
  have run' : groebnerBasis .lowestLead {} qs = .ok (system, stats') := by
    unfold groebnerBasis Completion.ofSums
    rw [Completion.run_eq_unrolled _ _ 3]
    cbv
  exact ⟨nodup, hps, hqs, same, run, system, run',
    groebnerBasis_unique nodup (by decide) (by decide) hps hqs same run run'⟩

end Polynomial

end Eliminant
