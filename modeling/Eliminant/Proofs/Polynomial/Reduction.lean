import Eliminant.Proofs.Groebner
import Eliminant.Proofs.Polynomial.Division

/-!
# Auto-reduction of polynomials

**`Polynomial.reduce_spec`**: reducing a list of polynomials over whatever lists of variables fails only
where an exponent does not fit. What it answers generates the same ideal; it is `[0]` if all
polynomials are zero and else a reduced system, and reducing it once more changes nothing
(`Polynomial.IsReduction`).
-/

namespace Eliminant

open MonomialOrder (lex)

namespace Polynomial

variable {vars : List Variable} {ps qs : List Polynomial} {basis : List Terms}

/-- **A reduced system** over one list of variables. -/
structure IsReduced (vars : List Variable) (rs : List Polynomial) : Prop where
  not_zero : ∀ r ∈ rs, r.isZero = false
  monic : ∀ r ∈ rs, r.leadCoeff = .one
  /-- no monomial of an element is divisible by the leading monomial of another -/
  irreducible : ∀ p ∈ rs, ∀ q ∈ rs, q ≠ p → ∀ m ∈ (p.reading vars).support,
    ¬ lex.degree (q.reading vars) ≤ m
  /-- the leading monomials go down -/
  descending : rs.Pairwise fun p q =>
    lex.toSyn (lex.degree (q.reading vars)) < lex.toSyn (lex.degree (p.reading vars))
  /-- a constant is all that there is -/
  unit : ∀ r ∈ rs, r.isConstant = true → rs = [one vars]

/-- **What reducing the polynomials `ps` answers**, over the list `vars`. -/
structure IsReduction (ps : List Polynomial) (vars : List Variable) (rs : List Polynomial) : Prop where
  /-- the list has exactly the variables of the polynomials, each once -/
  nodup : vars.Nodup
  mem : ∀ v, v ∈ vars ↔ ∃ p ∈ ps, v ∈ p.vars
  /-- the elements are consistent polynomials over the list -/
  vars_eq : ∀ r ∈ rs, r.vars = vars
  consistent : ∀ r ∈ rs, r.Consistent
  ideal_eq : ideal vars rs = ideal vars ps
  zero_iff : rs = [zero vars] ↔ ∀ p ∈ ps, p.isZero = true
  reduced : ¬ (∀ p ∈ ps, p.isZero = true) → IsReduced vars rs
  again : reduce rs = .ok rs

/-- A reduced system of sums is one of polynomials. -/
theorem isReduced_of_terms (nodup : vars.Nodup) (h : Terms.Reduced vars.length basis) :
    IsReduced vars (basis.map (⟨vars, ·⟩)) := by
  have reading_eq (ts : Terms) : reading vars ⟨vars, ts⟩ = Terms.toMv vars.length ts :=
    reading_vars (p := ⟨vars, ts⟩) nodup
  have degree {ts : Terms} (hts : ts ∈ basis) : lex.degree (reading vars ⟨vars, ts⟩) =
      Exponents.toFinsupp vars.length ts.leadRow := by
    rw [reading_eq, (h.descending ts hts).degree_toMv]
  refine ⟨List.forall_mem_map.mpr fun ts hts => ?_, List.forall_mem_map.mpr h.monic, ?_, ?_,
    List.forall_mem_map.mpr fun ts hts const => ?_⟩
  · exact List.isEmpty_eq_false_iff.mpr (h.ne_nil ts hts)
  · refine List.forall_mem_map.mpr fun ps hps => List.forall_mem_map.mpr fun qs hqs ne => ?_
    rw [reading_eq, degree hqs]
    exact h.reduced ps hps qs hqs fun same => ne (same ▸ rfl)
  · rw [List.pairwise_map]
    refine h.sorted.imp_of_mem fun {ps qs} hps hqs lt => ?_
    rw [degree hps, degree hqs]
    exact (Exponents.compare_lt_iff_lex
      (Terms.length_leadRow (h.descending qs hqs) (h.ne_nil qs hqs))
      (Terms.length_leadRow (h.descending ps hps) (h.ne_nil ps hps))).mp lt
  · rw [h.eq_unit hts const]
    rfl

theorem map_terms (basis : List Terms) :
    (basis.map fun ts => (⟨vars, ts⟩ : Polynomial)).map (·.terms) = basis := by
  rw [List.map_map]
  exact List.map_id basis

/-- Polynomials over one list of variables are reduced as they are. -/
theorem reduce_map (vars : List Variable) (basis : List Terms) :
    reduce (basis.map (⟨vars, ·⟩)) =
      (do return (← Reduction.ofSums vars.length basis).map (Polynomial.mk vars)) := by
  have aligned : alignAll (basis.map fun ts => (⟨vars, ts⟩ : Polynomial)) = basis.map (⟨vars, ·⟩) :=
    alignAll_of_vars_eq (List.forall_mem_map.mpr fun ts _ => rfl)
  unfold reduce
  rw [aligned]
  dsimp only
  rw [map_terms]
  cases basis <;> rfl

/-- Aligned polynomials are zero together with the polynomials that they stand for. -/
theorem zeros_iff (hps : ∀ p ∈ ps, p.Sound) (h : List.Forall₂ (Over vars) ps qs) :
    (∀ ts ∈ qs.map (·.terms), ts = []) ↔ ∀ p ∈ ps, p.isZero = true := by
  induction h with
  | nil => simp
  | cons here _ ih =>
    obtain ⟨hp, hps⟩ := List.forall_mem_cons.mp hps
    rw [List.map_cons, List.forall_mem_cons, List.forall_mem_cons, ih hps, ← here.isZero_eq hp,
      isZero, List.isEmpty_iff]

/-- **Auto-reduction is correct**: it fails only where an exponent does not fit; its answer generates the
    same ideal, is `[0]` for zeros and a reduced system for everything else, and stays as it is when it
    is reduced again. -/
theorem reduce_spec (ne : ps ≠ []) (hps : ∀ p ∈ ps, p.Sound) :
    Answers Failure.IsOverflow (IsReduction ps (sharedVars (alignAll ps))) (reduce ps) := by
  obtain ⟨all, mem⟩ := alignAll_spec hps
  have nodup := nodup_sharedVars hps
  have zeros := zeros_iff hps all
  have sums := descending_of_forall₂ all
  refine (Reduction.ofSums_answers sums).with_run.bind fun basis out => ?_
  obtain ⟨run, out⟩ := out
  refine ⟨nodup, mem, List.forall_mem_map.mpr fun ts _ => rfl,
    List.forall_mem_map.mpr out.descending, ?_, ?_, ?_, ?_⟩
  · rw [← span_system all, ← out.span_eq, ← span_system_of_vars_eq nodup (by simp), map_terms]
  · rw [← zeros]
    constructor
    · intro zero
      rcases out.shape with ⟨-, none⟩ | reduced
      · exact none
      · have nil : basis = [[]] := by
          have terms := congrArg (List.map (·.terms)) zero
          rwa [map_terms] at terms
        exact absurd rfl (reduced.ne_nil [] (nil ▸ List.mem_cons_self))
    · intro none
      have some : (alignAll ps).map (·.terms) ≠ [] := fun e => ne <| by
        rw [List.map_eq_nil_iff] at e
        exact List.length_eq_zero_iff.mp (all.length_eq.trans (congrArg List.length e))
      rw [Reduction.ofSums_of_zeros some none] at run
      cases run
      rfl
  · intro some
    exact isReduced_of_terms nodup (out.shape.resolve_left fun zero => some (zeros.mp zero.2))
  · rw [reduce_map, out.ofSums_eq]
    rfl

/-- `2 * x * y - 2`, `0` and `y - 1` are reduced to `x - 1` and `y - 1`. -/
theorem reduce_spec_at :
    let x := Variable.symbol "x"
    let y := Variable.symbol "y"
    let two := Coefficient.ofInt 2
    let ps : List Polynomial := [⟨[x, y], [⟨two, [1, 1]⟩, ⟨-two, [0, 0]⟩]⟩, ⟨[y], []⟩,
      ⟨[y], [⟨.one, [1]⟩, ⟨-.one, [0]⟩]⟩]
    let rs : List Polynomial :=
      [⟨[x, y], [⟨.one, [1, 0]⟩, ⟨-.one, [0, 0]⟩]⟩, ⟨[x, y], [⟨.one, [0, 1]⟩, ⟨-.one, [0, 0]⟩]⟩]
    ps ≠ [] ∧ (∀ p ∈ ps, p.Sound) ∧ reduce ps = .ok rs ∧
      IsReduction ps (sharedVars (alignAll ps)) rs := by
  intro x y two ps rs
  have ne : ps ≠ [] := by decide
  have sound : ∀ p ∈ ps, p.Sound := by decide
  have run : reduce ps = .ok rs := by cbv
  exact ⟨ne, sound, run, (reduce_spec ne sound).of_ok run⟩

end Polynomial

end Eliminant
