import Eliminant.Proofs.Fraction.Lowest
import Eliminant.Proofs.Fraction.Placeholder

/-!
# Reducing with placeholders

A fraction is reduced while placeholders stand for its kernels. They are ordered as their kernels were
met, and not as their kernels compare, so it is in that order of the variables
(`Fraction.meetingOrder`) that the denominator becomes monic.

* `Fraction.Reduced`: a fraction without common factors whose denominator is monic in a given order;
* **`Fraction.of_answers`**: what `Fraction.of` answers.
-/

namespace Eliminant

open MonomialOrder (lex)
open Eliminant.Placeholders (ofKernels met image original Kernels)
open Eliminant.Variable (Sorted)

namespace Fraction

variable {num den num' den' : Polynomial} {ks : List Variable} {v : Variable}

/-! ## 1. The order of the variables -/

/-- The names of two polynomials, in ascending order. -/
def names (num den : Polynomial) : List Variable :=
  (num.align den).1.vars.filter fun v => !v.isKernel

/-- The kernels of two polynomials, in the order in which they are met. -/
def kernels (num den : Polynomial) : List Variable := met (met [] num.vars) den.vars

/-- **The order in which the variables of two polynomials stand while placeholders stand for their
    kernels**: the names, and then the kernels as they are met. -/
def meetingOrder (num den : Polynomial) : List Variable := names num den ++ kernels num den

theorem mem_kernels :
    v ∈ kernels num den ↔ (v ∈ num.vars ∨ v ∈ den.vars) ∧ v.isKernel = true := by
  unfold kernels
  rw [Placeholders.mem_met, Placeholders.mem_met]
  simp only [List.not_mem_nil, false_or]
  tauto

theorem kernels_kernels (hn : num.Ordinary) (hd : den.Ordinary) : Kernels (kernels num den) :=
  (Kernels.nil.met hn.sound.nodup).met hd.sound.nodup

section Ordinary

variable (hn : num.Ordinary) (hd : den.Ordinary)
include hn hd

theorem mem_names :
    v ∈ names num den ↔ (v ∈ num.vars ∨ v ∈ den.vars) ∧ v.isKernel = false := by
  unfold names
  rw [List.mem_filter, (Polynomial.align_spec hn.sound hd.sound).mem]
  simp

theorem mem_meetingOrder : v ∈ meetingOrder num den ↔ v ∈ num.vars ∨ v ∈ den.vars := by
  unfold meetingOrder
  rw [List.mem_append, mem_names hn hd, mem_kernels]
  cases v.isKernel <;> simp

theorem nodup_meetingOrder : (meetingOrder num den).Nodup := by
  refine List.nodup_append.mpr ⟨?_, (kernels_kernels hn hd).nodup, ?_⟩
  · exact (Polynomial.align_spec hn.sound hd.sound).left.nodup.filter _
  · rintro u hu w hw rfl
    have name := ((mem_names hn hd).mp hu).2
    rw [(mem_kernels.mp hw).2] at name
    cases name

theorem sorted_names : Sorted (names num den) :=
  List.Pairwise.filter _ (hn.align hd).1.sorted

theorem permanent_names : ∀ v ∈ names num den, v.Permanent := fun v hv =>
  (hn.align hd).1.permanent v (List.mem_filter.mp hv).1

/-- **Names and kernels in ascending order**, if the kernels are met in ascending order. -/
theorem meetingOrder_of_sorted (h : Sorted (kernels num den)) :
    meetingOrder num den = (num.align den).1.vars := by
  have a := Polynomial.align_spec hn.sound hd.sound
  have ordinary (v : Variable) (hv : v ∈ num.vars ∨ v ∈ den.vars) : v.Ordinary :=
    hv.elim (hn.ordinary v) (hd.ordinary v)
  have sorted : Sorted (meetingOrder num den) := by
    refine List.pairwise_append.mpr ⟨sorted_names hn hd, h, fun u hu v hv => ?_⟩
    obtain ⟨memu, name⟩ := (mem_names hn hd).mp hu
    obtain ⟨memv, kernel⟩ := mem_kernels.mp hv
    exact (ordinary u memu).compare_of_isKernel (ordinary v memv) name kernel
  exact sorted.eq_of_mem_iff (hn.align hd).1.sorted fun v =>
    (mem_meetingOrder hn hd).trans (a.mem v).symm

end Ordinary

/-- The denominator has no kernels of its own. -/
theorem kernels_of_subset (sub : den.vars ⊆ num.vars) :
    kernels num den = num.vars.filter Variable.isKernel := by
  have first : met [] num.vars = num.vars.filter Variable.isKernel := by
    simp [met]
  have later : den.vars.filter (fun v => v.isKernel && v ∉ met [] num.vars) = [] := by
    refine List.filter_eq_nil_iff.mpr fun v hv => ?_
    simp [first, sub hv]
  rw [kernels, met, later, List.append_nil, first]

/-- Names in their order, and then the first `n` temporaries. -/
def withTemporaries (names : List Variable) (n : Nat) : List Variable :=
  names ++ (List.range n).map .temporary

theorem sorted_withTemporaries {names : List Variable} (sorted : Sorted names)
    (h : ∀ v ∈ names, v.Permanent) (n : Nat) : Sorted (withTemporaries names n) := by
  refine List.pairwise_append.mpr ⟨sorted, ?_, fun u hu v hv => ?_⟩
  · refine List.pairwise_map.mpr (List.pairwise_lt_range.imp fun {i j} lt => ?_)
    exact Nat.compare_eq_lt.mpr lt
  · obtain ⟨j, -, rfl⟩ := List.mem_map.mp hv
    cases u with
    | temporary n => exact absurd rfl (h _ hu n)
    | symbol _ | kernel _ => rfl

theorem map_original_withTemporaries {names : List Variable} (h : ∀ v ∈ names, v.Permanent) :
    (withTemporaries names ks.length).map (original ks) = names ++ ks := by
  have first : names.map (original ks) = names :=
    (List.map_congr_left fun v hv => Placeholders.original_of_permanent (h v hv)).trans
      (List.map_id _)
  have second : ((List.range ks.length).map .temporary).map (original ks) = ks := by
    refine List.ext_getElem (by simp) fun i hi hi' => ?_
    simp [Placeholders.original_temporary, hi']
  unfold withTemporaries
  rw [List.map_append, first, second]

/-- **The variables of two polynomials whose kernels have been replaced.** -/
theorem align_renamed (hn : num.Ordinary) (hd : den.Ordinary)
    (rn : Polynomial.Renamed (image (kernels num den)) num num')
    (rd : Polynomial.Renamed (image (kernels num den)) den den') :
    (num'.align den').1.vars = withTemporaries (names num den) (kernels num den).length := by
  have hks := kernels_kernels hn hd
  have a := Polynomial.align_spec rn.sound rd.sound
  refine (a.of_sorted rn.sorted rd.sorted).1.eq_of_mem_iff
    (sorted_withTemporaries (sorted_names hn hd) (permanent_names hn hd) _) fun v => ?_
  have images : v ∈ (num'.align den').1.vars ↔
      ∃ u, (u ∈ num.vars ∨ u ∈ den.vars) ∧ image (kernels num den) u = v := by
    rw [a.mem, rn.mem, rd.mem, List.mem_map, List.mem_map]
    constructor
    · intro h
      rcases h with ⟨u, hu, e⟩ | ⟨u, hu, e⟩
      · exact ⟨u, Or.inl hu, e⟩
      · exact ⟨u, Or.inr hu, e⟩
    · intro h
      obtain ⟨u, hu | hu, e⟩ := h
      · exact Or.inl ⟨u, hu, e⟩
      · exact Or.inr ⟨u, hu, e⟩
  rw [images, withTemporaries, List.mem_append, mem_names hn hd, List.mem_map]
  constructor
  · intro h
    obtain ⟨u, hu, rfl⟩ := h
    unfold image
    split
    · rename_i mem
      exact Or.inr ⟨_, List.mem_range.mpr (List.idxOf_lt_length_iff.mpr mem), rfl⟩
    · rename_i missing
      refine Or.inl ⟨hu, Bool.eq_false_iff.mpr fun kernel => missing ?_⟩
      exact mem_kernels.mpr ⟨hu, kernel⟩
  · intro h
    rcases h with ⟨hv, name⟩ | ⟨i, hi, rfl⟩
    · refine ⟨v, hv, if_neg fun mem => ?_⟩
      rw [(mem_kernels.mp mem).2] at name
      cases name
    · have hi := List.mem_range.mp hi
      have mem := List.getElem_mem hi
      refine ⟨(kernels num den)[i], (mem_kernels.mp mem).1, ?_⟩
      unfold image
      rw [if_pos mem, hks.nodup.idxOf_getElem]

/-! ## 2. Reducing -/

/-- **A fraction without common factors**, over one sorted list of names and kernels, whose denominator
    is monic when its variables stand in the given order. -/
structure Reduced (order : List Variable) (r : Fraction) : Prop where
  num : r.num.Ordinary
  den : r.den.Ordinary
  vars_eq : r.num.vars = r.den.vars
  perm : order.Perm r.den.vars
  den_ne_zero : r.den.toMv ≠ 0
  coprime : IsRelPrime r.num.toMv r.den.toMv
  monic : lex.leadingCoeff (r.den.reading order) = 1

/-- The two polynomials with placeholders for their kernels. -/
theorem exists_replaced (hn : num.Sound) (hd : den.Sound) (pn : ∀ v ∈ num.vars, v.Permanent)
    (pd : ∀ v ∈ den.vars, v.Permanent) :
    ∃ num' den', Placeholders.replace {} num = .ok (ofKernels (met [] num.vars), num') ∧
      (ofKernels (met [] num.vars)).replace den = .ok (ofKernels (kernels num den), den') ∧
      Polynomial.Mapped (image (kernels num den)) num num' ∧
      Polynomial.Mapped (image (kernels num den)) den den' := by
  have first : Kernels (met [] num.vars) := Kernels.nil.met hn.nodup
  obtain ⟨num', run, rn⟩ := Placeholders.replace_spec Kernels.nil hn pn
  obtain ⟨den', run', rd⟩ := Placeholders.replace_spec first hd pd
  refine ⟨num', den', run, run', rn.congr fun v hv => ?_, rd⟩
  by_cases mem : v ∈ met [] num.vars
  · exact (if_pos mem).trans (Placeholders.image_of_append _ mem).symm
  · have name : v ∉ kernels num den := fun h =>
      mem (Placeholders.mem_met.mpr (Or.inr ⟨hv, (mem_kernels.mp h).2⟩))
    exact (if_neg mem).trans (if_neg name).symm

/-- **A fraction in lowest terms whose kernels are put back.** -/
theorem exists_restored (hn : num.Ordinary) (hd : den.Ordinary)
    (rn : Polynomial.Renamed (image (kernels num den)) num num')
    (rd : Polynomial.Renamed (image (kernels num den)) den den')
    {out : Polynomial × Polynomial} (h : Polynomial.IsLowest num' den' out) :
    ∃ r : Fraction, (ofKernels (kernels num den)).restore out.1 = .ok r.num ∧
      (ofKernels (kernels num den)).restore out.2 = .ok r.den ∧ Reduced (meetingOrder num den) r ∧
      r.den.vars = (num.align den).1.vars ∧ r.num.toMv * den.toMv = num.toMv * r.den.toMv := by
  have a := Polynomial.align_spec hn.sound hd.sound
  have sorted : Sorted (num'.align den').1.vars :=
    ((Polynomial.align_spec rn.sound rd.sound).of_sorted rn.sorted rd.sorted).1
  have order : (num'.align den').1.vars.map (original (kernels num den)) = meetingOrder num den := by
    rw [align_renamed hn hd rn rd, map_original_withTemporaries (permanent_names hn hd), meetingOrder]
  have nodup := nodup_meetingOrder hn hd
  have proper : ∀ v ∈ (num'.align den').1.vars, (original (kernels num den) v).Proper := by
    intro v hv
    have mem := List.mem_map_of_mem (f := original (kernels num den)) hv
    rw [order, mem_meetingOrder hn hd] at mem
    exact mem.elim (hn.sound.proper _) (hd.sound.proper _)
  rw [← order] at nodup
  obtain ⟨n, runn, mapn⟩ := Placeholders.restore_spec h.num_sound (h.num_vars ▸ nodup)
    (h.num_vars ▸ proper)
  obtain ⟨d, rund, mapd⟩ := Placeholders.restore_spec h.den_sound (h.den_vars ▸ nodup)
    (h.den_vars ▸ proper)
  have renn := mapn.renamed (h.num_vars ▸ sorted)
  have rend := mapd.renamed (h.den_vars ▸ sorted)
  -- both are over the variables of the two polynomials
  have memn (v : Variable) : v ∈ n.vars ↔ v ∈ num.vars ∨ v ∈ den.vars := by
    rw [renn.mem, h.num_vars, order, mem_meetingOrder hn hd]
  have memd (v : Variable) : v ∈ d.vars ↔ v ∈ num.vars ∨ v ∈ den.vars := by
    rw [rend.mem, h.den_vars, order, mem_meetingOrder hn hd]
  have ordinary (v : Variable) (hv : v ∈ num.vars ∨ v ∈ den.vars) : v.Ordinary :=
    hv.elim (hn.ordinary v) (hd.ordinary v)
  have monic := rend.leadingCoeff_reading h.den_sound (h.den_vars ▸ nodup)
  rw [h.monic, h.den_vars, order, Coefficient.toRat_one] at monic
  have nonzero : d.toMv ≠ 0 := by
    intro zero
    rw [Polynomial.reading, zero, map_zero, MonomialOrder.leadingCoeff_zero] at monic
    exact zero_ne_one monic
  refine ⟨⟨n, d⟩, runn, rund, ⟨⟨renn.sound, renn.sorted, fun v hv => ordinary v ((memn v).mp hv)⟩,
    ⟨rend.sound, rend.sorted, fun v hv => ordinary v ((memd v).mp hv)⟩, ?_, ?_, nonzero, ?_, monic⟩,
    ?_, ?_⟩
  · exact renn.sorted.eq_of_mem_iff rend.sorted fun v => (memn v).trans (memd v).symm
  · refine (List.perm_ext_iff_of_nodup (order ▸ nodup) rend.sound.nodup).mpr fun v => ?_
    rw [mem_meetingOrder hn hd, memd]
  · refine (renn.isRelPrime_iff rend (h.den_vars.trans h.num_vars.symm) h.num_sound
      (h.num_vars ▸ nodup) h.den_ne_zero).mpr h.coprime
  · exact rend.sorted.eq_of_mem_iff (hn.align hd).1.sorted fun v => (memd v).trans (a.mem v).symm
  · have := congrArg (MvPolynomial.rename (original (kernels num den))) h.value
    rwa [map_mul, map_mul, ← renn.rename_toMv, ← rend.rename_toMv, rn.rename_toMv, rd.rename_toMv,
      Placeholders.rename_original_image _ hn.permanent,
      Placeholders.rename_original_image _ hd.permanent] at this

/-- Reducing the polynomials with placeholders, and putting their kernels back. -/
theorem of_replaced {m : Placeholders} {settings : Settings} {P : Fraction → Prop}
    (run : Placeholders.replace {} num = .ok (m, num'))
    (run' : m.replace den = .ok (ofKernels ks, den'))
    (h : Answers Failure.IsLimit (fun out => ∃ r : Fraction, (ofKernels ks).restore out.1 = .ok r.num ∧
      (ofKernels ks).restore out.2 = .ok r.den ∧ P r) (num'.reduceFraction settings den')) :
    Answers Failure.IsLimit P (of settings num den) := by
  unfold of
  rw [run]
  show Answers _ _ (m.replace den >>= _)
  rw [run']
  show Answers _ _ (num'.reduceFraction settings den' >>= _)
  refine h.bind fun out hout => ?_
  obtain ⟨n, d⟩ := out
  obtain ⟨r, runn, rund, hr⟩ := hout
  dsimp only at runn rund ⊢
  rw [runn, rund]
  exact hr

/-- A denominator that is not zero is not zero with placeholders. -/
theorem ne_zero_of_mapped (hd : den.Sound) (pd : ∀ v ∈ den.vars, v.Permanent)
    (rd : Polynomial.Mapped (image ks) den den') (nz : den.isZero = false) : den'.toMv ≠ 0 := by
  intro zero
  rw [rd.toMv_eq_zero_iff hd (Placeholders.nodup_image hd.nodup pd)] at zero
  rw [hd.toMv_eq_zero_iff.mp zero] at nz
  cases nz

/-- **Reducing a fraction with placeholders**: it fails on the denominator `0`; else only a limit that
    is met can keep it from the same fraction without common factors, whose denominator is monic in
    the order in which the variables are met. -/
theorem of_answers (settings : Settings) (hn : num.Ordinary) (hd : den.Ordinary)
    (nz : den.isZero = false) :
    Answers Failure.IsLimit (fun r => Reduced (meetingOrder num den) r ∧
      r.den.vars = (num.align den).1.vars ∧ r.num.toMv * den.toMv = num.toMv * r.den.toMv)
      (of settings num den) := by
  obtain ⟨num', den', run, run', mn, md⟩ :=
    exists_replaced hn.sound hd.sound hn.permanent hd.permanent
  have nd := ne_zero_of_mapped hd.sound hd.permanent md nz
  have rn := mn.renamed hn.sorted
  have rd := md.renamed hd.sorted
  refine of_replaced run run' ?_
  exact (Polynomial.isLowest_answers settings rn.sound rd.sound rn.sorted rd.sorted nd).imp
    fun out h => exists_restored hn hd rn rd h.1

/-- The denominator `0` is refused. -/
theorem of_zero (settings : Settings) (hn : num.Ordinary) (hd : den.Ordinary)
    (zero : den.isZero = true) : ∃ u, of settings num den = .error (.undefined u) := by
  obtain ⟨num', den', run, run', rn, rd⟩ :=
    exists_replaced hn.sound hd.sound hn.permanent hd.permanent
  have zero' : den'.isZero = true := by
    rw [← rd.sound.toMv_eq_zero_iff, rd.rename_toMv, hd.sound.toMv_eq_zero_iff.mpr zero, map_zero]
  obtain ⟨u, error⟩ := Polynomial.reduceFraction_of_zero settings rn.sound rd.sound zero'
  refine ⟨u, ?_⟩
  unfold of
  rw [run]
  show ((ofKernels (met [] num.vars)).replace den >>= _) = _
  rw [run']
  show (num'.reduceFraction settings den' >>= _) = _
  rw [error]
  rfl

end Fraction

end Eliminant
