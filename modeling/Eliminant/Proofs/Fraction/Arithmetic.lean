import Eliminant.Proofs.Fraction.Reduced
import Eliminant.Proofs.Polynomial.Arithmetic

/-!
# The arithmetic of fractions is that of a field

Fractions are pairs of polynomials in names and kernels, over any lists of variables, sorted or not, and
with any denominators that are not zero (`Fraction.IsQuotient`). They need not be in lowest terms.

* `Fraction.of_isQuotient`: reducing with placeholders answers the same fraction;
* `Fraction.IsQuotient.add`, `mul`, `inv`: one statement for each operation;
* **`Fraction.fieldArithmetic_spec`**: all of them, with the exact condition under which there is no
  quotient.
-/

namespace Eliminant

open Eliminant.Placeholders (image original)

/-! ## 1. Polynomials in names and kernels -/

namespace Polynomial

variable {p q : Polynomial}

/-- A sound polynomial without temporaries, over a list in any order. -/
structure Plain (p : Polynomial) : Prop where
  sound : p.Sound
  permanent : ∀ v ∈ p.vars, v.Permanent

namespace Plain

theorem neg (hp : p.Plain) : (-p).Plain := ⟨hp.sound.neg, hp.permanent⟩

/-- The variables of two polynomials. -/
theorem permanent_align (hp : p.Plain) (hq : q.Plain) :
    ∀ v ∈ (align p q).1.vars, v.Permanent := fun v hv =>
  (((align_spec hp.sound hq.sound).mem v).mp hv).elim (hp.permanent v) (hq.permanent v)

theorem add (hp : p.Plain) (hq : q.Plain) : (p + q).Plain :=
  ⟨hp.sound.add hq.sound, hp.permanent_align hq⟩

theorem mul (hp : p.Plain) (hq : q.Plain) :
    Answers Failure.IsOverflow (fun r => r.Plain ∧ r.toMv = p.toMv * q.toMv) (p.mul q) := by
  have a := align_spec hp.sound hq.sound
  rw [mul_align hp.sound hq.sound]
  refine (a.reads_left.mul_answers a.reads_right).imp fun r hr => ⟨⟨hr.sound, ?_⟩, ?_⟩
  · rw [hr.vars_eq]
    exact hp.permanent_align hq
  · rw [← hr.rename_eq, map_mul, a.reads_left.rename_eq, a.reads_right.rename_eq, a.toMv_left,
      a.toMv_right]

/-- Dividing by a coefficient that is not zero. -/
theorem exists_divCoeff (hp : p.Plain) {c : Coefficient} (hc : c.toRat ≠ 0) :
    ∃ q, p.divCoeff c = .ok q ∧ q.Plain ∧ q.toMv = .C c.toRat⁻¹ * p.toMv := by
  obtain ⟨q, run, hq⟩ := hp.sound.reads.divCoeff ((Coefficient.isZero_eq_false_iff c).mpr hc)
  refine ⟨q, run, ⟨hq.sound, ?_⟩, ?_⟩
  · rw [hq.vars_eq]
    exact hp.permanent
  · rw [← hq.rename_eq, map_mul, MvPolynomial.rename_C, rename_reading (List.Subset.refl _)]

end Plain

end Polynomial

namespace Fraction

variable {settings : Settings} {num den num' den' : Polynomial} {r s t : Fraction}
  {n d n' d' : MvPolynomial Variable ℚ} {out : Polynomial × Polynomial}

/-! ## 2. Reducing -/

/-- A fraction of polynomials in names and kernels, over any lists of variables. Its denominator is not
    zero; it need not be monic, nor need the fraction be in lowest terms. -/
structure Plain (t : Fraction) : Prop where
  num : t.num.Plain
  den : t.den.Plain
  den_ne_zero : t.den.toMv ≠ 0

/-- **A fraction that is `n / d`.** -/
structure IsQuotient (n d : MvPolynomial Variable ℚ) (t : Fraction) : Prop extends Plain t where
  cross : t.num.toMv * d = n * t.den.toMv

/-- A fraction is its numerator over its denominator. -/
theorem Plain.isQuotient (h : r.Plain) : IsQuotient r.num.toMv r.den.toMv r := ⟨h, rfl⟩

/-- Putting the kernels back into what has been reduced. -/
theorem exists_isQuotient (hn : num.Plain) (hd : den.Plain)
    (mn : Polynomial.Mapped (image (kernels num den)) num num')
    (md : Polynomial.Mapped (image (kernels num den)) den den')
    (h : Polynomial.IsLowest num' den' out) :
    ∃ r : Fraction, (Placeholders.ofKernels (kernels num den)).restore out.1 = .ok r.num ∧
      (Placeholders.ofKernels (kernels num den)).restore out.2 = .ok r.den ∧
      IsQuotient num.toMv den.toMv r := by
  have a := Polynomial.align_spec mn.sound md.sound
  -- every variable is the image of its original, which is one of the variables handed in
  have known (v : Variable) (hv : v ∈ (num'.align den').1.vars) :
      ((original (kernels num den) v).Permanent ∧ (original (kernels num den) v).Proper) ∧
        image (kernels num den) (original (kernels num den) v) = v := by
    have image_of {p : Polynomial} (hp : p.Plain) (mem : v ∈ p.vars.map (image (kernels num den))) :
        ((original (kernels num den) v).Permanent ∧ (original (kernels num den) v).Proper) ∧
          image (kernels num den) (original (kernels num den) v) = v := by
      obtain ⟨u, hu, rfl⟩ := List.mem_map.mp mem
      rw [Placeholders.original_image (hp.permanent u hu)]
      exact ⟨⟨hp.permanent u hu, hp.sound.proper u hu⟩, rfl⟩
    rcases (a.mem v).mp hv with hv | hv
    · exact image_of hn ((mn.mem v).mp hv)
    · exact image_of hd ((md.mem v).mp hv)
  have nodup : ((num'.align den').1.vars.map (original (kernels num den))).Nodup := by
    refine a.left.nodup.map_on fun u hu v hv same => ?_
    rw [← (known u hu).2, same, (known v hv).2]
  obtain ⟨n, runn, mapn⟩ := Placeholders.restore_spec h.num_sound (h.num_vars ▸ nodup)
    (h.num_vars ▸ fun v hv => (known v hv).1.2)
  obtain ⟨d, rund, mapd⟩ := Placeholders.restore_spec h.den_sound (h.den_vars ▸ nodup)
    (h.den_vars ▸ fun v hv => (known v hv).1.2)
  have plain {p q : Polynomial} (vars : p.vars = (num'.align den').1.vars)
      (hq : Polynomial.Mapped (original (kernels num den)) p q) : q.Plain := by
    refine ⟨hq.sound, fun v hv => ?_⟩
    obtain ⟨u, hu, rfl⟩ := List.mem_map.mp ((hq.mem v).mp hv)
    exact (known u (vars ▸ hu)).1.1
  refine ⟨⟨n, d⟩, runn, rund, ⟨plain h.num_vars mapn, plain h.den_vars mapd, ?_⟩, ?_⟩
  · exact (mapd.toMv_eq_zero_iff h.den_sound (h.den_vars ▸ nodup)).not.mpr h.den_ne_zero
  · have value := congrArg (MvPolynomial.rename (original (kernels num den))) h.value
    rwa [map_mul, map_mul, ← mapn.rename_toMv, ← mapd.rename_toMv, mn.rename_toMv, md.rename_toMv,
      Placeholders.rename_original_image _ hn.permanent,
      Placeholders.rename_original_image _ hd.permanent] at value

/-- **Reducing with placeholders answers the same fraction**, unless a limit is met. -/
theorem of_isQuotient (settings : Settings) (hn : num.Plain) (hd : den.Plain)
    (nd : den.toMv ≠ 0) :
    Answers Failure.IsLimit (IsQuotient num.toMv den.toMv) (of settings num den) := by
  have nz : den.isZero = false := by
    rwa [← Bool.not_eq_true, ← hd.sound.toMv_eq_zero_iff]
  obtain ⟨num', den', run, run', mn, md⟩ :=
    exists_replaced hn.sound hd.sound hn.permanent hd.permanent
  refine of_replaced run run' ?_
  exact (Polynomial.lowest_answers settings mn.sound md.sound
    (ne_zero_of_mapped hd.sound hd.permanent md nz)).imp fun out => exists_isQuotient hn hd mn md

/-! ## 3. The operations -/

namespace IsQuotient

theorem neg (hr : IsQuotient n d r) : IsQuotient (-n) d r.neg := by
  refine ⟨⟨hr.num.neg, hr.den, hr.den_ne_zero⟩, ?_⟩
  show (-r.num).toMv * d = -n * r.den.toMv
  rw [Polynomial.toMv_neg, neg_mul, hr.cross, neg_mul]

/-- **The inverse of a fraction that is not zero.** -/
theorem inv (hr : IsQuotient n d r) (nz : r.num.toMv ≠ 0) :
    ∃ t, r.inv = .ok t ∧ IsQuotient d n t ∧ t.num.toMv ≠ 0 := by
  have lead := hr.num.sound.leadCoeff_ne_zero nz
  have unit : MvPolynomial.C (σ := Variable) r.num.leadCoeff.toRat⁻¹ ≠ 0 :=
    MvPolynomial.C_ne_zero.mpr (inv_ne_zero lead)
  obtain ⟨num, runn, hn, valuen⟩ := hr.den.exists_divCoeff lead
  obtain ⟨den, rund, hd, valued⟩ := hr.num.exists_divCoeff lead
  refine ⟨⟨num, den⟩, ?_, ⟨⟨hn, hd, ?_⟩, ?_⟩, ?_⟩
  · unfold Fraction.inv
    rw [if_neg (show ¬ r.isZero = true from hr.num.sound.toMv_eq_zero_iff.not.mp nz), runn, rund]
    rfl
  · exact valued ▸ mul_ne_zero unit nz
  · show num.toMv * n = d * den.toMv
    rw [valuen, valued]
    linear_combination (-MvPolynomial.C r.num.leadCoeff.toRat⁻¹) * hr.cross
  · exact valuen ▸ mul_ne_zero unit hr.den_ne_zero

theorem mul (settings : Settings) (hr : IsQuotient n d r) (hs : IsQuotient n' d' s) :
    Answers Failure.IsLimit (IsQuotient (n * n') (d * d')) (r.mul settings s) := by
  unfold Fraction.mul
  refine Answers.bind (hr.num.mul hs.num).isLimit fun num hnum => ?_
  refine Answers.bind (hr.den.mul hs.den).isLimit fun den hden => ?_
  have nd : den.toMv ≠ 0 := hden.2 ▸ mul_ne_zero hr.den_ne_zero hs.den_ne_zero
  refine (of_isQuotient settings hnum.1 hden.1 nd).imp fun t ht => ?_
  refine ⟨ht.toPlain, mul_right_cancel₀ nd ?_⟩
  have cross := ht.cross
  rw [hnum.2, hden.2] at cross
  rw [hden.2]
  linear_combination (d * d') * cross + t.den.toMv * s.num.toMv * d' * hr.cross
    + t.den.toMv * n * r.den.toMv * hs.cross

/-- The numerator of a sum, for equal denominators and for any. -/
theorem cross_add (hr : IsQuotient n d r) (hs : IsQuotient n' d' s) (same : r.den.toMv = s.den.toMv)
    (ht : IsQuotient (r.num + s.num).toMv r.den.toMv t) :
    IsQuotient (n * d' + n' * d) (d * d') t := by
  refine ⟨ht.toPlain, mul_right_cancel₀ hr.den_ne_zero ?_⟩
  have cross := ht.cross
  have crosss := hs.cross
  rw [Polynomial.toMv_add hr.num.sound hs.num.sound] at cross
  rw [← same] at crosss
  linear_combination (d * d') * cross + t.den.toMv * d' * hr.cross + t.den.toMv * d * crosss

/-- **The sum of two fractions**, whether or not their denominators are equal. -/
theorem add (settings : Settings) (hr : IsQuotient n d r) (hs : IsQuotient n' d' s) :
    Answers Failure.IsLimit (IsQuotient (n * d' + n' * d) (d * d')) (r.add settings s) := by
  unfold Fraction.add
  split
  · rename_i same
    have same := (Polynomial.equal_iff hr.den.sound hs.den.sound).mp same
    exact (of_isQuotient settings (hr.num.add hs.num) hr.den hr.den_ne_zero).imp fun t =>
      hr.cross_add hs same
  refine Answers.bind (hr.num.mul hs.den).isLimit fun a ha => ?_
  refine Answers.bind (hs.num.mul hr.den).isLimit fun b hb => ?_
  refine Answers.bind (hr.den.mul hs.den).isLimit fun den hden => ?_
  have nd : den.toMv ≠ 0 := hden.2 ▸ mul_ne_zero hr.den_ne_zero hs.den_ne_zero
  refine (of_isQuotient settings (ha.1.add hb.1) hden.1 nd).imp fun t ht => ?_
  refine ⟨ht.toPlain, mul_right_cancel₀ nd ?_⟩
  have cross := ht.cross
  rw [Polynomial.toMv_add ha.1.sound hb.1.sound, ha.2, hb.2, hden.2] at cross
  rw [hden.2]
  linear_combination (d * d') * cross + t.den.toMv * s.den.toMv * d' * hr.cross
    + t.den.toMv * r.den.toMv * d * hs.cross

theorem sub (settings : Settings) (hr : IsQuotient n d r) (hs : IsQuotient n' d' s) :
    Answers Failure.IsLimit (IsQuotient (n * d' - n' * d) (d * d')) (r.sub settings s) := by
  have sum := hr.add settings hs.neg
  rwa [neg_mul, ← sub_eq_add_neg] at sum

/-- **The quotient of two fractions**, the second not zero. -/
theorem div (settings : Settings) (hr : IsQuotient n d r) (hs : IsQuotient n' d' s)
    (nz : s.num.toMv ≠ 0) :
    Answers Failure.IsLimit (IsQuotient (n * d') (d * n')) (r.div settings s) := by
  obtain ⟨t, run, ht, -⟩ := hs.inv nz
  unfold Fraction.div
  rw [run]
  exact hr.mul settings ht

end IsQuotient

theorem inv_of_isZero (zero : r.num.isZero = true) : r.inv = .error (.undefined .inverseOfZero) :=
  if_pos zero

theorem div_of_isZero (settings : Settings) (zero : s.num.isZero = true) :
    r.div settings s = .error (.undefined .inverseOfZero) := by
  unfold Fraction.div
  rw [inv_of_isZero zero]
  rfl

/-- A fraction has an inverse unless it is `0`. -/
theorem Plain.inv_answers (hr : r.Plain) :
    Answers (fun e => e = .undefined .inverseOfZero) (IsQuotient r.den.toMv r.num.toMv) r.inv ∧
      ((∃ u, r.inv = .error (.undefined u)) ↔ r.num.isZero = true) := by
  by_cases zero : r.num.isZero = true
  · rw [inv_of_isZero zero]
    exact ⟨rfl, iff_of_true ⟨_, rfl⟩ zero⟩
  · obtain ⟨t, run, ht, -⟩ := hr.isQuotient.inv (hr.num.sound.toMv_eq_zero_iff.not.mpr zero)
    rw [run]
    exact ⟨ht, iff_of_false nofun zero⟩

/-- There is a quotient unless the divisor is `0`. -/
theorem Plain.div_answers (settings : Settings) (hr : r.Plain) (hs : s.Plain) :
    Answers (fun e => e.IsLimit ∨ e = .undefined .inverseOfZero)
        (IsQuotient (r.num.toMv * s.den.toMv) (r.den.toMv * s.num.toMv)) (r.div settings s) ∧
      ((∃ u, r.div settings s = .error (.undefined u)) ↔ s.num.isZero = true) := by
  by_cases zero : s.num.isZero = true
  · rw [div_of_isZero settings zero]
    exact ⟨Or.inr rfl, iff_of_true ⟨_, rfl⟩ zero⟩
  · have quotient := hr.isQuotient.div settings hs.isQuotient
      (hs.num.sound.toMv_eq_zero_iff.not.mpr zero)
    refine ⟨quotient.mono (fun _ => Or.inl) fun _ => id, iff_of_false ?_ zero⟩
    rintro ⟨u, run⟩
    exact (quotient.of_error run).elim nofun fun limit => limit.elim nofun nofun

/-- **The arithmetic of fractions is that of a field.** Negation always answers; the sum, difference,
    product and quotient answer unless a limit is met; there is no inverse of `r`, and no quotient by
    it, exactly if its numerator is `0`. For equal denominators the sum of the numerators over one of
    them is the fraction that multiplying across makes. -/
theorem fieldArithmetic_spec (settings : Settings) (hr : r.Plain) (hs : s.Plain) :
    IsQuotient (-r.num.toMv) r.den.toMv r.neg ∧
      Answers (fun e => e = .undefined .inverseOfZero) (IsQuotient r.den.toMv r.num.toMv) r.inv ∧
      ((∃ u, r.inv = .error (.undefined u)) ↔ r.num.isZero = true) ∧
      Answers Failure.IsLimit
        (IsQuotient (r.num.toMv * s.den.toMv + s.num.toMv * r.den.toMv) (r.den.toMv * s.den.toMv))
        (r.add settings s) ∧
      (r.den.equal s.den = true → (r.num + s.num).toMv * (r.den.toMv * s.den.toMv) =
        (r.num.toMv * s.den.toMv + s.num.toMv * r.den.toMv) * r.den.toMv) ∧
      Answers Failure.IsLimit
        (IsQuotient (r.num.toMv * s.den.toMv - s.num.toMv * r.den.toMv) (r.den.toMv * s.den.toMv))
        (r.sub settings s) ∧
      Answers Failure.IsLimit (IsQuotient (r.num.toMv * s.num.toMv) (r.den.toMv * s.den.toMv))
        (r.mul settings s) ∧
      Answers (fun e => e.IsLimit ∨ e = .undefined .inverseOfZero)
        (IsQuotient (r.num.toMv * s.den.toMv) (r.den.toMv * s.num.toMv)) (r.div settings s) ∧
      ((∃ u, r.div settings s = .error (.undefined u)) ↔ s.num.isZero = true) := by
  have qr := hr.isQuotient
  have qs := hs.isQuotient
  refine ⟨qr.neg, hr.inv_answers.1, hr.inv_answers.2, qr.add settings qs, fun same => ?_,
    qr.sub settings qs, qr.mul settings qs, (hr.div_answers settings hs).1,
    (hr.div_answers settings hs).2⟩
  rw [Polynomial.toMv_add hr.num.sound hs.num.sound,
    (Polynomial.equal_iff hr.den.sound hs.den.sound).mp same]
  ring

/-- `1 / (2 * f(x) + 3 * x)`, its denominator over a list that is not sorted, plus the same over a sorted one
    is `(2/3) / (x + 2/3 * f(x))`; its inverse is its denominator, and nothing is divided by a fraction
    that is `0`. -/
theorem fieldArithmetic_spec_at :
    let x := Variable.symbol "x"
    let f := Variable.kernel (.call "f" [.var "x"])
    let two := Coefficient.one + .one
    let three := two + .one
    let part : Coefficient := .small 2 3 (by decide) (by decide) (by decide) (by decide)
    let r : Fraction := ⟨.one [], ⟨[f, x], [⟨two, [1, 0]⟩, ⟨three, [0, 1]⟩]⟩⟩
    let s : Fraction := ⟨.one [f], ⟨[x, f], [⟨three, [1, 0]⟩, ⟨two, [0, 1]⟩]⟩⟩
    let zero : Fraction := ⟨.zero [], s.den⟩
    let sum : Fraction :=
      ⟨⟨[x, f], [⟨part, [0, 0]⟩]⟩, ⟨[x, f], [⟨.one, [1, 0]⟩, ⟨part, [0, 1]⟩]⟩⟩
    r.Plain ∧ s.Plain ∧ zero.Plain ∧ r.add {} s = .ok sum ∧
      IsQuotient (r.num.toMv * s.den.toMv + s.num.toMv * r.den.toMv) (r.den.toMv * s.den.toMv) sum ∧
      r.inv = .ok ⟨r.den, r.num⟩ ∧ IsQuotient r.den.toMv r.num.toMv ⟨r.den, r.num⟩ ∧
      ∃ u, r.div {} zero = .error (.undefined u) := by
  intro x f two three part r s zero sum
  have plain (p : Polynomial) (sound : p.Sound) (ordinary : ∀ v ∈ p.vars, v.Ordinary) : p.Plain :=
    ⟨sound, fun v hv => (ordinary v hv).permanent⟩
  have fraction (t : Fraction) (num : t.num.Plain) (den : t.den.Plain)
      (nz : ¬ t.den.isZero = true) : t.Plain :=
    ⟨num, den, den.sound.toMv_eq_zero_iff.not.mpr nz⟩
  have hd : s.den.Plain := plain _ (by decide) (by decide)
  have hr : r.Plain :=
    fraction r (plain _ (by decide) (by decide)) (plain _ (by decide) (by decide)) (by decide)
  have hs : s.Plain := fraction s (plain _ (by decide) (by decide)) hd (by decide)
  have hz : zero.Plain := fraction zero (plain _ (by decide) (by decide)) hd (by decide)
  have add : r.add {} s = .ok sum := by cbv
  have inv : r.inv = .ok ⟨r.den, r.num⟩ := by cbv
  obtain ⟨-, inverse, -, sums, -⟩ := fieldArithmetic_spec {} hr hs
  obtain ⟨-, -, -, -, -, -, -, -, undefined⟩ := fieldArithmetic_spec {} hr hz
  exact ⟨hr, hs, hz, add, sums.of_ok add, inv, inverse.of_ok inv, undefined.mpr (by decide)⟩

end Fraction

end Eliminant
