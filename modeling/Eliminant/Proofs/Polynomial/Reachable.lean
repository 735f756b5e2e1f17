import Eliminant.Proofs.Polynomial.WellFormed

/-!
# Reachable polynomials

`Polynomial.Reachable` says that a polynomial is made by any number of operations from constants,
variables and single terms, and **`Polynomial.reachable_check`** that every such polynomial passes the
check (`check_eq_ok_iff`: it is consistent) and lists no variable twice.
-/

namespace Eliminant

namespace Polynomial

variable {p : Polynomial}

/-! ## 1. What the check checks -/

/-- No defect is found in rows that ascend. -/
theorem orderDefect?_eq_none_iff {n : Nat} : ∀ {rows : List Exponents},
    (∀ row ∈ rows, row.length = n) →
      (orderDefect? rows = none ↔ rows.Pairwise fun a b => a.compare b = .lt)
  | [], _ => by simp [orderDefect?]
  | [_], _ => by simp [orderDefect?]
  | a :: b :: rest, len => by
    obtain ⟨la, len⟩ := List.forall_mem_cons.mp len
    have ih : orderDefect? (b :: rest) = none ↔ (b :: rest).Pairwise fun a b => a.compare b = .lt :=
      orderDefect?_eq_none_iff len
    obtain ⟨lb, lrest⟩ := List.forall_mem_cons.mp len
    have first (h : (a :: b :: rest).Pairwise fun a b => a.compare b = .lt) : b.compare a = .gt :=
      Exponents.compare_gt_iff.mpr (List.rel_of_pairwise_cons h List.mem_cons_self)
    cases order : b.compare a with
    | eq =>
      have found : orderDefect? (a :: b :: rest) = some .equalTerms := by
        simp only [orderDefect?, order]
      rw [found]
      exact iff_of_false nofun fun h => nomatch order.symm.trans (first h)
    | lt =>
      have found : orderDefect? (a :: b :: rest) = some .wrongOrder := by
        simp only [orderDefect?, order]
      rw [found]
      exact iff_of_false nofun fun h => nomatch order.symm.trans (first h)
    | gt =>
      have later : orderDefect? (a :: b :: rest) = orderDefect? (b :: rest) := by
        simp only [orderDefect?, order]
      have lt := Exponents.compare_gt_iff.mp order
      rw [later, ih, List.pairwise_cons (a := a)]
      refine ⟨fun sorted => ⟨List.forall_mem_cons.mpr ⟨lt, fun c hc => ?_⟩, sorted⟩, fun h => h.2⟩
      exact Exponents.compare_trans la lb (lrest c hc) lt (List.rel_of_pairwise_cons sorted hc)

/-- **The check accepts exactly the consistent polynomials.** -/
theorem check_eq_ok_iff : p.check = .ok () ↔ p.Consistent := by
  unfold check
  split
  · rename_i ragged
    obtain ⟨t, ht, len⟩ := List.any_eq_true.mp ragged
    exact iff_of_false nofun fun h => (of_decide_eq_true len) (h.1 t ht)
  rename_i even
  have len : ∀ t ∈ p.terms, t.exps.length = p.vars.length := by simpa using even
  split
  · rename_i zeros
    obtain ⟨t, ht, zero⟩ := List.any_eq_true.mp zeros
    refine iff_of_false nofun fun h => ?_
    rw [h.2.1 t ht] at zero
    cases zero
  rename_i some
  have nonzero : ∀ t ∈ p.terms, t.coeff.isZero = false := by simpa using some
  have rows : ∀ as ∈ p.terms.reverse.map (·.exps), as.length = p.vars.length := by simpa using len
  have order := orderDefect?_eq_none_iff rows
  rw [List.pairwise_map, List.pairwise_reverse] at order
  split
  · rename_i defect
    refine iff_of_false nofun fun h => ?_
    rw [order.mpr h.2.2] at defect
    cases defect
  · rename_i none
    exact iff_of_true rfl ⟨len, nonzero, order.mp none⟩

/-! ## 2. Polynomials that are reached -/

/-- **A polynomial that is reached by any number of operations.** -/
inductive Reachable : Polynomial → Prop
  | ofConstant (c : Coefficient) : Reachable (ofConstant c)
  | ofVariable (v : Variable) : Reachable (ofVariable v)
  | zero {vars : List Variable} (nodup : vars.Nodup) : Reachable (zero vars)
  | one {vars : List Variable} (nodup : vars.Nodup) : Reachable (one vars)
  | constant {vars : List Variable} (nodup : vars.Nodup) (c : Coefficient) :
      Reachable (constant vars c)
  | monomial {vars : List Variable} {c : Coefficient} {exps : Exponents} {r : Polynomial}
      (nodup : vars.Nodup) (run : monomial vars c exps = .ok r) : Reachable r
  | nthVariable {vars : List Variable} {i : Nat} {r : Polynomial} (nodup : vars.Nodup)
      (run : nthVariable vars i = .ok r) : Reachable r
  | append {p r : Polynomial} {c : Coefficient} {exps : Exponents} (hp : Reachable p)
      (run : p.append c exps = .ok r) : Reachable r
  | add {p q : Polynomial} (hp : Reachable p) (hq : Reachable q) : Reachable (p + q)
  | sub {p q : Polynomial} (hp : Reachable p) (hq : Reachable q) : Reachable (p - q)
  | neg {p : Polynomial} (hp : Reachable p) : Reachable (-p)
  | mul {p q r : Polynomial} (hp : Reachable p) (hq : Reachable q) (run : p.mul q = .ok r) :
      Reachable r
  | pow {p r : Polynomial} {n : Nat} (hp : Reachable p) (run : p.pow n = .ok r) : Reachable r
  | scale {p : Polynomial} (hp : Reachable p) (c : Coefficient) : Reachable (p.scale c)
  | divCoeff {p r : Polynomial} {c : Coefficient} (hp : Reachable p)
      (run : p.divCoeff c = .ok r) : Reachable r
  | shift {p r : Polynomial} {exps : Exponents} (hp : Reachable p)
      (run : p.shift exps = .ok r) : Reachable r
  | mulTerm {p r : Polynomial} {t : Term} (hp : Reachable p) (run : p.mulTerm t = .ok r) :
      Reachable r
  | monic {p : Polynomial} (hp : Reachable p) : Reachable p.monic
  | alignLeft {p q : Polynomial} (hp : Reachable p) (hq : Reachable q) : Reachable (align p q).1
  | alignRight {p q : Polynomial} (hp : Reachable p) (hq : Reachable q) : Reachable (align p q).2
  | alignAll {ps : List Polynomial} {r : Polynomial} (hps : ∀ p ∈ ps, Reachable p)
      (hr : r ∈ alignAll ps) : Reachable r
  | rename {p r : Polynomial} {vars : List Variable} (hp : Reachable p) (nodup : vars.Nodup)
      (run : p.rename vars = .ok r) : Reachable r
  | prune {p : Polynomial} (hp : Reachable p) : Reachable p.prune
  | ofNested {nested : Nested} {r : Polynomial} (run : nested.toPolynomial = .ok r) : Reachable r
  | sPolynomial {p q r : Polynomial} (hp : Reachable p) (hq : Reachable q)
      (run : p.sPolynomial q = .ok r) : Reachable r
  | remainder {p r : Polynomial} {ds : List Polynomial} {es : List Elimination} (hp : Reachable p)
      (hds : ∀ d ∈ ds, Reachable d) (run : p.divide ds = .ok (es, r)) : Reachable r
  | quotient {p r rest : Polynomial} {ds qs : List Polynomial} (hp : Reachable p)
      (hds : ∀ d ∈ ds, Reachable d) (run : p.quotients ds = .ok (qs, rest)) (hr : r ∈ qs) :
      Reachable r
  | reduce {ps qs : List Polynomial} {r : Polynomial} (hps : ∀ p ∈ ps, Reachable p)
      (run : reduce ps = .ok qs) (hr : r ∈ qs) : Reachable r
  | groebnerBasis {strategy : Strategy} {settings : Settings} {ps system : List Polynomial}
      {stats : Statistics} {r : Polynomial} (hps : ∀ p ∈ ps, Reachable p)
      (run : groebnerBasis strategy settings ps = .ok (system, stats)) (hr : r ∈ system) :
      Reachable r
  | lcm {settings : Settings} {p q r : Polynomial} (hp : Reachable p) (hq : Reachable q)
      (run : lcm settings p q = .ok r) : Reachable r
  | gcd {settings : Settings} {p q r : Polynomial} (hp : Reachable p) (hq : Reachable q)
      (run : gcd settings p q = .ok r) : Reachable r

theorem wellFormed_single {vars : List Variable} {c : Coefficient} {exps : Exponents}
    (nodup : vars.Nodup) (len : exps.length = vars.length) (hc : c.isZero = false) :
    (⟨vars, [⟨c, exps⟩]⟩ : Polynomial).WellFormed :=
  ⟨Terms.Descending.cons_iff.mpr ⟨len, hc, by simp, .nil⟩, nodup⟩

theorem monomial_wellFormed {vars : List Variable} (nodup : vars.Nodup) (c : Coefficient)
    (exps : Exponents) : Answers (fun _ => True) WellFormed (monomial vars c exps) := by
  unfold monomial
  split
  · trivial
  rename_i len
  show (⟨vars, if c.isZero then [] else [⟨c, exps⟩]⟩ : Polynomial).WellFormed
  split
  · exact ⟨.nil, nodup⟩
  · rename_i some
    exact wellFormed_single nodup (not_not.mp len) (Bool.not_eq_true _ ▸ some)

/-- **Every operation keeps what makes a polynomial well formed.** -/
theorem Reachable.wellFormed (h : Reachable p) : p.WellFormed := by
  induction h with
  | ofConstant c => exact (On.constant [] c).wellFormed List.nodup_nil
  | ofVariable v => exact wellFormed_single (List.nodup_singleton v) rfl rfl
  | zero nodup => exact (On.zero _).wellFormed nodup
  | one nodup => exact (On.constant _ .one).wellFormed nodup
  | constant nodup c => exact (On.constant _ c).wellFormed nodup
  | monomial nodup run => exact (monomial_wellFormed nodup _ _).of_ok run
  | nthVariable nodup run =>
    unfold Polynomial.nthVariable at run
    split at run
    · cases run
      exact wellFormed_single nodup (by simp) rfl
    · cases run
  | append _ run ih => exact (ih.append _ _).of_ok run
  | add _ _ ihp ihq => exact ihp.add ihq
  | sub _ _ ihp ihq => exact ihp.sub ihq
  | neg _ ih => exact ih.neg
  | mul _ _ run ihp ihq => exact (ihp.mul ihq).of_ok run
  | pow _ run ih => exact ((ih.on.pow _).of_ok run).wellFormed ih.nodup
  | scale _ c ih => exact (ih.on.scale c).wellFormed ih.nodup
  | divCoeff _ run ih => exact ((ih.on.divCoeff _).of_ok run).wellFormed ih.nodup
  | shift _ run ih => exact ((ih.on.shift _).of_ok run).wellFormed ih.nodup
  | mulTerm _ run ih => exact ((ih.on.mulTerm _).of_ok run).wellFormed ih.nodup
  | monic _ ih => exact ih.on.monic.wellFormed ih.nodup
  | alignLeft _ _ ihp ihq => exact (align_on ihp ihq).left.wellFormed (align_on ihp ihq).nodup
  | alignRight _ _ ihp ihq => exact (align_on ihp ihq).right.wellFormed (align_on ihp ihq).nodup
  | alignAll _ hr ih => exact ((alignAll_on ih).2 _ hr).wellFormed (alignAll_on ih).1
  | rename _ nodup run ih => exact (ih.rename nodup).of_ok run
  | prune _ ih => exact ih.prune
  | ofNested run => exact (Nested.toPolynomial_wellFormed _).of_ok run
  | sPolynomial _ _ run ihp ihq => exact (ihp.sPolynomial ihq).of_ok run
  | remainder _ _ run ih ihs => exact ((ih.divide ihs).of_ok run).1
  | quotient _ _ run hr ih ihs => exact (ih.quotients ihs).of_ok run _ hr
  | reduce _ run hr ih => exact (WellFormed.reduce ih).of_ok run _ hr
  | groebnerBasis _ run hr ih => exact (WellFormed.groebnerBasis _ _ ih).of_ok run _ hr
  | lcm _ _ run ihp ihq => exact (ihp.lcm _ ihq).of_ok run
  | gcd _ _ run ihp ihq => exact (ihp.gcd _ ihq).of_ok run

/-- **Every polynomial that is reached passes the check**: its rows have one exponent for each variable,
    no coefficient is zero, and the terms descend; and no variable is listed twice. -/
theorem reachable_check (h : Reachable p) : p.check = .ok () ∧ p.Consistent ∧ p.vars.Nodup :=
  ⟨check_eq_ok_iff.mpr h.wellFormed.consistent, h.wellFormed.consistent, h.wellFormed.nodup⟩

/-- The name `x` and the kernel around it, which compare equal, are added up as one variable; the sum
    divides its square, and the quotient is renamed. -/
theorem reachable_check_at :
    let x := Variable.symbol "x"
    let y := Variable.symbol "y"
    let two := Coefficient.ofInt 2
    let sum := ofVariable x + ofVariable (.kernel (.var "x"))
    let r : Polynomial := ⟨[y], [⟨two, [1]⟩]⟩
    sum = ⟨[x], [⟨two, [1]⟩]⟩ ∧ Reachable r ∧ r.check = .ok () ∧ r.Consistent ∧ r.vars.Nodup := by
  intro x y two sum r
  have one : ofVariable x + ofVariable (.kernel (.var "x")) = ⟨[x], [⟨two, [1]⟩]⟩ := by cbv
  have reached : Reachable sum := .add (.ofVariable x) (.ofVariable (.kernel (.var "x")))
  have square : sum.mul sum = .ok ⟨[x], [⟨.ofInt 4, [2]⟩]⟩ := by cbv
  have quotients : Polynomial.quotients ⟨[x], [⟨.ofInt 4, [2]⟩]⟩ [sum] =
    .ok ([⟨[x], [⟨two, [1]⟩]⟩], ⟨[x], []⟩) := by cbv
  have quotient : Reachable ⟨[x], [⟨two, [1]⟩]⟩ :=
    .quotient (.mul reached reached square) (by simpa using reached) quotients List.mem_cons_self
  have names : [y].Nodup := by decide
  have renamed : Reachable r := .rename quotient names (by cbv)
  exact ⟨one, renamed, reachable_check renamed⟩

end Polynomial

end Eliminant
