import Eliminant.Proofs.Fraction.Reduced
import Eliminant.Proofs.Polynomial.OfExpr

/-!
# Fractions that are reached

The operations keep a fraction without common factors (`Fraction.Reachable.reduced`), and its
denominator is monic in the order in which its variables were met, but not always in the order in which
they stand:

* a sum, product or quotient is reduced from two polynomials over one list, whose kernels are met in
  ascending order, and an inverse is divided by its leading coefficient: here the two orders are one;
* of two polynomials that are handed in, the denominator may have a kernel that is met after those of
  the numerator and comes before them.

**`Fraction.reachable_spec`** says when the leading coefficient is `1`, and when equality tells that two
fractions are the same.
-/

namespace Eliminant

open MonomialOrder (lex)

namespace Fraction

/-! ## 1. Fractions that are reached -/

/-- **A fraction that is reached by any number of operations** from polynomials in names and kernels,
    with the order of the variables in which its denominator became monic. -/
inductive Reachable : List Variable → Fraction → Prop
  | of {settings : Settings} {num den : Polynomial} {r : Fraction} (hn : num.Ordinary)
      (hd : den.Ordinary) (run : Fraction.of settings num den = .ok r) :
      Reachable (meetingOrder num den) r
  | ofExprs {settings : Settings} {a b : Expr} {num den : Polynomial} {r : Fraction}
      (runn : Polynomial.ofExprOrKernel a = .ok num) (rund : Polynomial.ofExprOrKernel b = .ok den)
      (run : Fraction.ofExprs settings a b = .ok r) : Reachable (meetingOrder num den) r
  | ofPolynomial {p : Polynomial} (hp : p.Ordinary) : Reachable p.vars (ofPolynomial p)
  | neg {o : List Variable} {r : Fraction} (h : Reachable o r) : Reachable o r.neg
  | inv {o : List Variable} {r t : Fraction} (h : Reachable o r) (run : r.inv = .ok t) :
      Reachable t.den.vars t
  | add {settings : Settings} {o o' : List Variable} {r s t : Fraction} (hr : Reachable o r)
      (hs : Reachable o' s) (run : r.add settings s = .ok t) : Reachable t.den.vars t
  | sub {settings : Settings} {o o' : List Variable} {r s t : Fraction} (hr : Reachable o r)
      (hs : Reachable o' s) (run : r.sub settings s = .ok t) : Reachable t.den.vars t
  | mul {settings : Settings} {o o' : List Variable} {r s t : Fraction} (hr : Reachable o r)
      (hs : Reachable o' s) (run : r.mul settings s = .ok t) : Reachable t.den.vars t
  | div {settings : Settings} {o o' : List Variable} {r s t : Fraction} (hr : Reachable o r)
      (hs : Reachable o' s) (run : r.div settings s = .ok t) : Reachable t.den.vars t

variable {settings : Settings} {num den p : Polynomial} {r s t : Fraction}
  {order order' : List Variable}

/-! ## 2. One operation -/

/-- Two polynomials whose quotient was reduced. -/
theorem Reduced.of_run (hn : num.Ordinary) (hd : den.Ordinary) (run : of settings num den = .ok r) :
    Reduced (meetingOrder num den) r ∧ r.den.vars = (num.align den).1.vars := by
  cases nz : den.isZero with
  | true =>
    obtain ⟨u, error⟩ := of_zero settings hn hd nz
    rw [run] at error
    cases error
  | false =>
    obtain ⟨reduced, vars, -⟩ := (of_answers settings hn hd nz).of_ok run
    exact ⟨reduced, vars⟩

/-- An operation that answers a fraction whose denominator is monic, if it answers. -/
def GivesReduced (r : Except Failure Fraction) : Prop :=
  Answers (fun _ => True) (fun t => Reduced t.den.vars t) r

/-- **The denominator becomes monic** if its variables are among those of the numerator. -/
theorem of_gives (settings : Settings) (hn : num.Ordinary) (hd : den.Ordinary)
    (sub : den.vars ⊆ num.vars) : GivesReduced (of settings num den) := by
  have sorted : Variable.Sorted (kernels num den) := by
    rw [kernels_of_subset sub]
    exact List.Pairwise.filter _ hn.sorted
  cases run : of settings num den with
  | error e => trivial
  | ok t =>
    obtain ⟨reduced, vars⟩ := Reduced.of_run hn hd run
    rw [meetingOrder_of_sorted hn hd sorted, ← vars] at reduced
    exact reduced

namespace Reduced

theorem ofPolynomial (hp : p.Ordinary) : Reduced p.vars (ofPolynomial p) := by
  have one : Polynomial.Reads p.vars (.one p.vars) 1 := hp.sound.reads.one
  have value : (Polynomial.one p.vars).toMv = 1 := by
    rw [← one.rename_eq, map_one]
  refine ⟨hp, hp.constant .one, rfl, List.Perm.refl _, ?_, ?_, ?_⟩
  · exact value ▸ one_ne_zero
  · show IsRelPrime p.toMv (Polynomial.one p.vars).toMv
    rw [value]
    exact isRelPrime_one_right
  · show lex.leadingCoeff ((Polynomial.one p.vars).reading p.vars) = 1
    rw [one.reading_eq]
    exact lex.monic_one

theorem neg (h : Reduced order r) : Reduced order r.neg := by
  refine ⟨h.num.neg, h.den, h.vars_eq, h.perm, h.den_ne_zero, ?_, h.monic⟩
  show IsRelPrime (-r.num).toMv r.den.toMv
  rw [Polynomial.toMv_neg]
  exact h.coprime.neg_left

/-- **The inverse of a fraction** has a monic denominator. -/
theorem inv_gives (h : Reduced order r) : GivesReduced r.inv := by
  unfold inv
  split
  · trivial
  rename_i nz
  have ne : r.num.toMv ≠ 0 := fun zero => nz (h.num.sound.toMv_eq_zero_iff.mp zero)
  have lead : r.num.leadCoeff.toRat ≠ 0 := h.num.sound.leadCoeff_ne_zero ne
  have unit := (Coefficient.isZero_eq_false_iff _).mpr lead
  obtain ⟨n, runn, hn, readn, valuen⟩ := h.den.exists_divCoeff unit
  obtain ⟨d, rund, hd, readd, valued⟩ := h.num.exists_divCoeff unit
  rw [runn, rund]
  have left := associated_C_mul (inv_ne_zero lead) r.den.toMv
  have right := associated_C_mul (inv_ne_zero lead) r.num.toMv
  rw [← valuen] at left
  rw [← valued] at right
  refine ⟨hn, hd, ?_, List.Perm.refl _, right.ne_zero_iff.mp ne, ?_, ?_⟩
  · exact readn.vars_eq.trans (h.vars_eq.symm.trans readd.vars_eq.symm)
  · exact (h.coprime.symm.of_dvd_left left.symm.dvd).of_dvd_right right.symm.dvd
  · show lex.leadingCoeff (d.reading d.vars) = 1
    rw [readd.vars_eq, readd.reading_eq, MonomialOrder.leadingCoeff_mul,
      ← h.num.sound.reads.leadCoeff_eq]
    exact (congrArg (· * _) (MonomialOrder.leadingCoeff_C _)).trans (inv_mul_cancel₀ lead)

theorem mul_gives (settings : Settings) (hr : Reduced order r) (hs : Reduced order' s) :
    GivesReduced (r.mul settings s) := by
  unfold Fraction.mul
  refine Answers.bind (hr.num.mul hs.num).any fun n hn => ?_
  refine Answers.bind (hr.den.mul hs.den).any fun d hd => ?_
  refine of_gives settings hn.1 hd.1 fun v hv => ?_
  rw [hd.2, (Polynomial.align_spec hr.den.sound hs.den.sound).mem] at hv
  rw [hn.2, (Polynomial.align_spec hr.num.sound hs.num.sound).mem, hr.vars_eq, hs.vars_eq]
  exact hv

theorem add_gives (settings : Settings) (hr : Reduced order r) (hs : Reduced order' s) :
    GivesReduced (r.add settings s) := by
  have mem_add {p q : Polynomial} (hp : p.Ordinary) (hq : q.Ordinary) (v : Variable) :
      v ∈ (p + q).vars ↔ v ∈ p.vars ∨ v ∈ q.vars :=
    (Polynomial.align_spec hp.sound hq.sound).mem v
  unfold Fraction.add
  split
  · refine of_gives settings (hr.num.add hs.num) hr.den fun v hv => ?_
    exact (mem_add hr.num hs.num v).mpr (Or.inl (hr.vars_eq ▸ hv))
  refine Answers.bind (hr.num.mul hs.den).any fun a ha => ?_
  refine Answers.bind (hs.num.mul hr.den).any fun b hb => ?_
  refine Answers.bind (hr.den.mul hs.den).any fun d hd => ?_
  refine of_gives settings (ha.1.add hb.1) hd.1 fun v hv => ?_
  rw [hd.2, (Polynomial.align_spec hr.den.sound hs.den.sound).mem] at hv
  rw [mem_add ha.1 hb.1, ha.2, (Polynomial.align_spec hr.num.sound hs.den.sound).mem, hr.vars_eq]
  exact Or.inl hv

theorem sub_gives (settings : Settings) (hr : Reduced order r) (hs : Reduced order' s) :
    GivesReduced (r.sub settings s) := hr.add_gives settings hs.neg

theorem div_gives (settings : Settings) (hr : Reduced order r) (hs : Reduced order' s) :
    GivesReduced (r.div settings s) := by
  unfold Fraction.div
  exact Answers.bind hs.inv_gives fun _ => hr.mul_gives settings

end Reduced

/-! ## 3. Any number of operations -/

/-- **Every fraction that is reached has no common factors**, and its denominator is monic in the order
    of its variables that goes with it. -/
theorem Reachable.reduced (h : Reachable order r) : Reduced order r := by
  induction h with
  | of hn hd run => exact (Reduced.of_run hn hd run).1
  | ofExprs runn rund run =>
    have hn := (Polynomial.ofExprOrKernel_gives _).of_ok runn
    have hd := (Polynomial.ofExprOrKernel_gives _).of_ok rund
    unfold Fraction.ofExprs at run
    rw [runn, rund] at run
    exact (Reduced.of_run hn hd run).1
  | ofPolynomial hp => exact .ofPolynomial hp
  | neg _ ih => exact ih.neg
  | inv _ run ih => exact ih.inv_gives.of_ok run
  | add _ _ run ihr ihs => exact (ihr.add_gives _ ihs).of_ok run
  | sub _ _ run ihr ihs => exact (ihr.sub_gives _ ihs).of_ok run
  | mul _ _ run ihr ihs => exact (ihr.mul_gives _ ihs).of_ok run
  | div _ _ run ihr ihs => exact (ihr.div_gives _ ihs).of_ok run

/-! ## 4. When equality tells that fractions are the same -/

/-- The leading coefficient of a denominator that is monic in another order. -/
theorem Reduced.leadCoeff_eq_one_iff (h : Reduced order r) :
    r.den.leadCoeff = .one ↔
      lex.leadingCoeff (r.den.reading r.den.vars) = lex.leadingCoeff (r.den.reading order) := by
  rw [h.monic, ← h.den.sound.reads.leadCoeff_eq, ← Coefficient.toRat_one]
  exact ⟨congrArg Coefficient.toRat, fun same => Coefficient.toRat_injective same⟩

theorem Reduced.leadCoeff_of_sorted (h : Reduced order r) (sorted : Variable.Sorted order) :
    r.den.leadCoeff = .one := by
  have same : order = r.den.vars := sorted.eq_of_mem_iff h.den.sorted fun _ => h.perm.mem_iff
  subst same
  exact h.leadCoeff_eq_one_iff.mpr rfl

/-- **Two fractions without common factors that are the same are equal** if and only if the leading
    coefficients of their denominators are. -/
theorem Reduced.equal_iff (hr : Reduced order r) (hs : Reduced order' s)
    (same : r.num.toMv * s.den.toMv = s.num.toMv * r.den.toMv) :
    r.equal s = true ↔ r.den.leadCoeff = s.den.leadCoeff := by
  have dens := Polynomial.C_leadCoeff_mul hr.den.sound hs.den.sound hr.den.sorted hs.den.sorted
    (associated_of_mul_eq same hr.coprime hs.coprime)
  rw [equal, Bool.and_eq_true, Polynomial.equal_iff hr.num.sound hs.num.sound,
    Polynomial.equal_iff hr.den.sound hs.den.sound]
  constructor
  · intro h
    obtain ⟨-, den⟩ := h
    rw [den] at dens
    have := MvPolynomial.C_injective _ _ (mul_right_cancel₀ hs.den_ne_zero dens)
    exact Coefficient.toRat_injective this
  · intro lead
    rw [lead] at dens
    have unit : MvPolynomial.C (σ := Variable) s.den.leadCoeff.toRat ≠ 0 :=
      MvPolynomial.C_ne_zero.mpr (hs.den.sound.leadCoeff_ne_zero hs.den_ne_zero)
    have den : s.den.toMv = r.den.toMv := mul_left_cancel₀ unit dens
    rw [den] at same
    exact ⟨mul_right_cancel₀ hr.den_ne_zero same, den.symm⟩

/-- **Fractions that are reached** have no common factors and a denominator that is not zero. Its
    leading coefficient is `1` exactly if it is the one in the order of the variables in which the
    denominator became monic, and so whenever that order is ascending. Equality tells that two
    fractions are the same exactly if these leading coefficients are equal. -/
theorem reachable_spec (h : Reachable order r) :
    Reduced order r ∧
      (r.den.leadCoeff = .one ↔
        lex.leadingCoeff (r.den.reading r.den.vars) = lex.leadingCoeff (r.den.reading order)) ∧
      (Variable.Sorted order → r.den.leadCoeff = .one) ∧
      ∀ {order' s}, Reachable order' s → r.num.toMv * s.den.toMv = s.num.toMv * r.den.toMv →
        (r.equal s = true ↔ r.den.leadCoeff = s.den.leadCoeff) :=
  ⟨h.reduced, h.reduced.leadCoeff_eq_one_iff, h.reduced.leadCoeff_of_sorted,
    fun hs same => h.reduced.equal_iff hs.reduced same⟩

/-- `1 / (sin x + 2 * sin y)`, the `1` over `sin y`, is not equal to the inverse of its inverse: `sin y`
    is met before `sin x`, and so the leading coefficient of the denominator is `1 / 2`. -/
theorem reachable_spec_at :
    let x := Variable.kernel (.call "sin" [.var "x"])
    let y := Variable.kernel (.call "sin" [.var "y"])
    let two := Coefficient.one + .one
    let half : Coefficient := .small 1 2 (by decide) (by decide) (by decide) (by decide)
    let num : Polynomial := .one [y]
    let s : Fraction := ⟨.one [x, y], ⟨[x, y], [⟨.one, [1, 0]⟩, ⟨two, [0, 1]⟩]⟩⟩
    let r : Fraction := ⟨s.num.scale half, s.den.scale half⟩
    of {} num s.den = .ok r ∧ Reachable [y, x] r ∧ Reachable [x, y] s ∧
      r.num.toMv * s.den.toMv = s.num.toMv * r.den.toMv ∧ r.den.leadCoeff = half ∧
      r.equal s = false := by
  intro x y two half num s r
  have hn : num.Ordinary := ⟨by decide, Variable.isSorted_iff.mp (by decide), by decide⟩
  have hd : s.den.Ordinary := ⟨by decide, Variable.isSorted_iff.mp (by decide), by decide⟩
  have run : of {} num s.den = .ok r := by cbv
  have met : meetingOrder num s.den = [y, x] := by cbv
  have hr : Reachable [y, x] r := met ▸ .of hn hd run
  have hs : Reachable [x, y] s := .inv (.inv hr (t := ⟨s.den, s.num⟩) (by cbv)) (by cbv)
  have same : r.num.toMv * s.den.toMv = s.num.toMv * r.den.toMv := by
    rw [Polynomial.toMv_scale, Polynomial.toMv_scale]
    ring
  refine ⟨run, hr, hs, same, rfl, ?_⟩
  rw [← Bool.not_eq_true, (reachable_spec hr).2.2.2 hs same]
  decide

end Fraction

end Eliminant
