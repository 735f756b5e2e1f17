import Eliminant.Proofs.Polynomial.Reading

/-!
# Ordinary polynomials

Expressions are converted to polynomials over sorted lists of names and kernels, and every kernel is a
call or an operator node (`Polynomial.Ordinary`). The arithmetic keeps to such polynomials.
-/

namespace Eliminant

namespace Variable

variable {u v : Variable}

/-- A variable that is not a temporary. -/
def Permanent (v : Variable) : Prop := ∀ n, v ≠ .temporary n

/-- A name, or a kernel that is a call or an operator node: the variables that expressions are
    converted to. -/
def Ordinary : Variable → Prop
  | symbol _ | kernel (.call _ _) | kernel (.op _ _) => True
  | kernel _ | temporary _ => False

instance : DecidablePred Ordinary
  | symbol _ | kernel (.call _ _) | kernel (.op _ _) => isTrue trivial
  | kernel (.num _) | kernel (.var _) | temporary _ => isFalse id

theorem Ordinary.permanent (h : v.Ordinary) : v.Permanent := by
  rintro n rfl
  exact h

/-- Names come before kernels. -/
theorem Ordinary.compare_of_isKernel (hu : u.Ordinary) (hv : v.Ordinary) (name : u.isKernel = false)
    (kernel : v.isKernel = true) : u.compare v = .lt := by
  cases u with
  | symbol x =>
    cases v with
    | symbol y => cases kernel
    | temporary n => rfl
    | kernel b =>
      cases b with
      | num _ | var _ => exact hv.elim
      | call _ _ | op _ _ => rfl
  | kernel a => cases name
  | temporary n => exact hu.elim

end Variable

namespace Polynomial

open Variable (Sorted)

variable {p q r : Polynomial}

/-- A sound polynomial over a sorted list of names and kernels. -/
structure Ordinary (p : Polynomial) : Prop where
  sound : p.Sound
  sorted : Sorted p.vars
  ordinary : ∀ v ∈ p.vars, v.Ordinary

/-! ## 1. Arithmetic -/

namespace Ordinary

theorem permanent (h : p.Ordinary) : ∀ v ∈ p.vars, v.Permanent := fun v hv =>
  (h.ordinary v hv).permanent

theorem with_terms (h : p.Ordinary) (vars : q.vars = p.vars)
    (desc : q.terms.Descending p.vars.length) : q.Ordinary := by
  rw [← vars] at desc
  exact ⟨⟨desc, vars ▸ h.sound.nodup, vars ▸ h.sound.proper⟩, vars ▸ h.sorted, vars ▸ h.ordinary⟩

theorem align (hp : p.Ordinary) (hq : q.Ordinary) :
    (align p q).1.Ordinary ∧ (Polynomial.align p q).2.Ordinary := by
  have a := align_spec hp.sound hq.sound
  have sorted := (a.of_sorted hp.sorted hq.sorted).1
  have ordinary : ∀ v ∈ (Polynomial.align p q).1.vars, v.Ordinary := fun v hv =>
    ((a.mem v).mp hv).elim (hp.ordinary v) (hq.ordinary v)
  exact ⟨⟨a.left, sorted, ordinary⟩, a.right, a.vars_eq ▸ sorted, a.vars_eq ▸ ordinary⟩

theorem add (hp : p.Ordinary) (hq : q.Ordinary) : (p + q).Ordinary := by
  obtain ⟨left, right⟩ := hp.align hq
  have vars := (align_spec hp.sound hq.sound).vars_eq
  have desc : (Polynomial.align p q).2.terms.Descending _ := right.sound.consistent
  rw [vars] at desc
  exact left.with_terms rfl (left.sound.consistent.add desc)

theorem neg (hp : p.Ordinary) : (-p).Ordinary := hp.with_terms rfl hp.sound.consistent.neg

theorem sub (hp : p.Ordinary) (hq : q.Ordinary) : (p - q).Ordinary := hp.add hq.neg

theorem scale (hp : p.Ordinary) (c : Coefficient) : (p.scale c).Ordinary :=
  hp.with_terms rfl (hp.sound.consistent.scale c)

/-- Dividing by a coefficient that is not zero. -/
theorem exists_divCoeff (hp : p.Ordinary) {c : Coefficient} (hc : c.isZero = false) :
    ∃ q, p.divCoeff c = .ok q ∧ q.Ordinary ∧ Reads p.vars q (.C c.toRat⁻¹ * p.reading p.vars) ∧
      q.toMv = .C c.toRat⁻¹ * p.toMv := by
  obtain ⟨q, run, hq⟩ := hp.sound.reads.divCoeff hc
  refine ⟨q, run, hp.with_terms hq.vars_eq hq.descending, hq, ?_⟩
  rw [← hq.rename_eq, map_mul, MvPolynomial.rename_C, rename_reading (List.Subset.refl _)]

/-- A product is ordinary, and it is over the variables of both factors. -/
theorem mul (hp : p.Ordinary) (hq : q.Ordinary) :
    Answers Failure.IsOverflow (fun r => r.Ordinary ∧ r.vars = (Polynomial.align p q).1.vars)
      (p.mul q) := by
  have a := align_spec hp.sound hq.sound
  rw [mul_align hp.sound hq.sound]
  refine (a.reads_left.mul_answers a.reads_right).imp fun r hr => ⟨?_, hr.vars_eq⟩
  exact (hp.align hq).1.with_terms hr.vars_eq hr.descending

theorem constant (hp : p.Ordinary) (c : Coefficient) : (constant p.vars c).Ordinary := by
  have := hp.sound.reads.constant c
  exact hp.with_terms rfl this.descending

end Ordinary

/-- A variable as a polynomial. -/
theorem ordinary_ofVariable {v : Variable} (proper : v.Proper) (ordinary : v.Ordinary) :
    (ofVariable v).Ordinary := by
  refine ⟨⟨?_, List.nodup_singleton v, by simpa [ofVariable] using proper⟩,
    List.pairwise_singleton _ v, by simpa [ofVariable] using ordinary⟩
  exact Terms.Descending.cons_iff.mpr ⟨rfl, rfl, by simp, .nil⟩

end Polynomial

end Eliminant
