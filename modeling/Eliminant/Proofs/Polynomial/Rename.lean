import Eliminant.Proofs.Polynomial.Equality
import Eliminant.Proofs.Sort

/-!
# Renaming the variables of a polynomial

A polynomial gets new variables, one for each, and the new list is sorted: what comes out is the old
sum of terms read over the new variables (**`Polynomial.rename_spec`**). If the new variables are the
images of the old ones under a map, the polynomial is mapped by it (`Polynomial.toMv_map`).
-/

namespace Eliminant

variable {us vs : List Variable} {u v w : Variable}

/-! ## 1. Sorting variables -/

namespace Variable

theorem eq_or_lt_of_not_lt (hu : u.Proper) (hv : v.Proper) (h : v.compare u ≠ .lt) :
    u = v ∨ u.compare v = .lt := by
  cases huv : u.compare v with
  | lt => exact Or.inr rfl
  | eq => exact Or.inl (eq_of_compare hu hv huv)
  | gt => exact absurd (compare_gt_iff.mp huv) h

/-- Distinct variables in ascending order are sorted. -/
theorem sorted_of_pairwise (nodup : vs.Nodup) (proper : ∀ v ∈ vs, v.Proper)
    (h : vs.Pairwise fun u v => v.compare u ≠ .lt) : Sorted vs := by
  refine (List.Pairwise.and nodup h).imp_of_mem fun {u v} hu hv both => ?_
  exact (eq_or_lt_of_not_lt (proper u hu) (proper v hv) both.2).resolve_left both.1

/-- So are distinct variables of a sorted list. -/
theorem sorted_of_subset (nodup : us.Nodup) (h : us.Pairwise fun u v => v.compare u ≠ .lt)
    (sorted : Sorted vs) (sub : us ⊆ vs) : Sorted us := by
  have either : Std.Symm fun u v : Variable => u.compare v = .lt ∨ v.compare u = .lt := ⟨fun _ _ => Or.symm⟩
  have apart : vs.Pairwise fun u v => u.compare v = .lt ∨ v.compare u = .lt := sorted.imp Or.inl
  refine (List.Pairwise.and nodup h).imp_of_mem fun {u v} hu hv both => ?_
  exact (apart.forall (sub hu) (sub hv) both.1).resolve_right both.2

end Variable

/-! ## 2. Renaming -/

namespace Polynomial

open Variable (Sorted Proper)
open MonomialOrder (lex)

variable {p q : Polynomial} {vars : List Variable}

/-- A polynomial over other variables of the same number. -/
theorem toMv_eq_rename {n : Nat} (len : vars.length = n) (ts : Terms) :
    (Polynomial.mk vars ts).toMv =
      MvPolynomial.rename (fun i : Fin n => vars.get (i.cast len.symm)) (Terms.toMv n ts) := by
  subst len
  rfl

/-- **Mapping the variables of a polynomial.** -/
theorem toMv_map (f : Variable → Variable) (p : Polynomial) :
    (Polynomial.mk (p.vars.map f) p.terms).toMv = MvPolynomial.rename f p.toMv := by
  rw [toMv_eq_rename (p.vars.length_map (f := f)), toMv, MvPolynomial.rename_rename]
  congr 2
  ext i
  simp

/-- Where the variables of a list stand once they are sorted along with their numbers. -/
theorem places_of_perm {pairs : List (Variable × Nat)}
    (perm : pairs.Perm (vars.zip (List.range vars.length))) :
    Places vars (pairs.map (·.1))
      ((List.range vars.length).map fun i => (pairs.map (·.2)).idxOf i) := by
  have numbered : ∀ x ∈ pairs, vars[x.2]? = some x.1 := by
    intro x hx
    obtain ⟨j, hj, rfl⟩ := List.getElem_of_mem (perm.mem_iff.mp hx)
    have hj' : j < vars.length := by simpa using hj
    simp [hj']
  have listed : ∀ i < vars.length, i ∈ pairs.map (·.2) := by
    intro i hi
    have mem : (vars[i], i) ∈ vars.zip (List.range vars.length) :=
      List.mem_iff_getElem.mpr ⟨i, by simpa using hi, by simp⟩
    exact List.mem_map.mpr ⟨_, perm.mem_iff.mpr mem, rfl⟩
  refine List.ext_getElem (by simp) fun i hi hi' => ?_
  have hi : i < vars.length := by simpa using hi
  have place := List.idxOf_lt_length_iff.mpr (listed i hi)
  have number : (pairs.map (·.2))[(pairs.map (·.2)).idxOf i] = i := List.getElem_idxOf place
  rw [List.length_map] at place
  rw [List.getElem_map] at number
  have here := numbered _ (List.getElem_mem place)
  rw [number] at here
  simp only [List.getElem_map, List.getElem_range, List.getElem?_map]
  rw [List.getElem?_eq_getElem place, Option.map_some, ← here, List.getElem?_eq_getElem hi]

/-- Renaming moves the terms to the new variables in the order of a sorting. -/
theorem rename_eq_moveTo (len : vars.length = p.vars.length) :
    let pairs := sortBy (fun u v : Variable × Nat => u.1.compare v.1) (vars.zip (List.range vars.length))
    (pairs.map (·.1)).Perm vars ∧ ∃ places, Places vars (pairs.map (·.1)) places ∧
      p.rename vars = .ok ((Polynomial.mk vars p.terms).moveTo places (pairs.map (·.1))) := by
  intro pairs
  have perm : pairs.Perm (vars.zip (List.range vars.length)) := sortBy_perm _ _
  have names : (vars.zip (List.range vars.length)).map Prod.fst = vars :=
    List.map_fst_zip (by simp)
  have permuted := perm.map Prod.fst
  rw [names] at permuted
  exact ⟨permuted, _, places_of_perm perm, if_neg (not_not.mpr len)⟩

/-- The terms are consistent over any list of as many variables. -/
theorem Consistent.with_vars (hp : p.Consistent) (len : vars.length = p.vars.length) :
    (Polynomial.mk vars p.terms).Consistent := by
  have : p.terms.Descending p.vars.length := hp
  rwa [← len] at this

/-- **Renaming reads the terms over the new variables**, in a sorted list. -/
theorem rename_spec (hp : p.Sound) (len : vars.length = p.vars.length) (nodup : vars.Nodup)
    (proper : ∀ v ∈ vars, v.Proper) :
    ∃ q, p.rename vars = .ok q ∧ q.Sound ∧ Sorted q.vars ∧ (∀ v, v ∈ q.vars ↔ v ∈ vars) ∧
      q.toMv = (Polynomial.mk vars p.terms).toMv := by
  obtain ⟨permuted, _, places, run⟩ := rename_eq_moveTo len
  have consistent := hp.consistent.with_vars len
  have ranks : Ranks (fun u v : Variable × Nat => u.1.compare v.1)
      (vars.zip (List.range vars.length)) := ranks_of_transCmp Prod.fst _
  have sorted := pairwise_sortBy ranks
  have nodup' := permuted.nodup_iff.mpr nodup
  have proper' := fun v hv => proper v (permuted.mem_iff.mp hv)
  refine ⟨_, run, ⟨consistent.moveTo nodup places, nodup', proper'⟩, ?_, fun v => permuted.mem_iff, ?_⟩
  · exact Variable.sorted_of_pairwise nodup' proper' (List.pairwise_map.mpr sorted)
  · exact toMv_moveTo consistent nodup places

/-! ## 3. Mapping the variables -/

/-- `q` is `p` with its variables mapped by `f`, over a sorted list. -/
structure Renamed (f : Variable → Variable) (p q : Polynomial) : Prop where
  sound : q.Sound
  sorted : Sorted q.vars
  mem : ∀ v, v ∈ q.vars ↔ v ∈ p.vars.map f
  toMv_eq : q.toMv = (Polynomial.mk (p.vars.map f) p.terms).toMv

theorem exists_renamed (f : Variable → Variable) (hp : p.Sound) (nodup : (p.vars.map f).Nodup)
    (proper : ∀ v ∈ p.vars, (f v).Proper) :
    ∃ q, p.rename (p.vars.map f) = .ok q ∧ Renamed f p q := by
  obtain ⟨q, run, sound, sorted, mem, same⟩ :=
    rename_spec hp (List.length_map f) nodup (by simpa using proper)
  exact ⟨q, run, sound, sorted, mem, same⟩

/-- `q` is `p` with its variables mapped by `f`, over a list that is sorted if that of `p` is. -/
structure Mapped (f : Variable → Variable) (p q : Polynomial) : Prop where
  sound : q.Sound
  sorted : Sorted p.vars → Sorted q.vars
  mem : ∀ v, v ∈ q.vars ↔ v ∈ p.vars.map f
  toMv_eq : q.toMv = (Polynomial.mk (p.vars.map f) p.terms).toMv

namespace Mapped

variable {f g : Variable → Variable}

/-- A polynomial whose variables stay. -/
theorem refl (hp : p.Sound) (h : ∀ v ∈ p.vars, f v = v) : Mapped f p p := by
  have same : p.vars.map f = p.vars := (List.map_congr_left h).trans (List.map_id _)
  exact ⟨hp, id, fun v => by rw [same], by rw [same]⟩

theorem congr (h : Mapped f p q) (same : ∀ v ∈ p.vars, f v = g v) : Mapped g p q := by
  have maps : p.vars.map f = p.vars.map g := List.map_congr_left same
  obtain ⟨sound, sorted, mem, eq⟩ := h
  rw [maps] at eq
  exact ⟨sound, sorted, fun v => maps ▸ mem v, eq⟩

theorem renamed (h : Mapped f p q) (sorted : Sorted p.vars) : Renamed f p q :=
  ⟨h.sound, h.sorted sorted, h.mem, h.toMv_eq⟩

theorem rename_toMv (h : Mapped f p q) : q.toMv = MvPolynomial.rename f p.toMv :=
  h.toMv_eq.trans (toMv_map f p)

/-- Mapping distinct variables to distinct ones makes no polynomial zero. -/
theorem toMv_eq_zero_iff (h : Mapped f p q) (hp : p.Sound) (nodup : (p.vars.map f).Nodup) :
    q.toMv = 0 ↔ p.toMv = 0 := by
  have inj : Function.Injective (f ∘ p.vars.get) := fun i j same => hp.get_injective
    (List.inj_on_of_nodup_map nodup (List.get_mem p.vars i) (List.get_mem p.vars j) same)
  rw [h.rename_toMv, toMv, MvPolynomial.rename_rename,
    MvPolynomial.rename_eq_zero_iff_of_injective _ inj,
    MvPolynomial.rename_eq_zero_iff_of_injective _ hp.get_injective]

end Mapped

namespace Renamed

variable {f : Variable → Variable} {p' q' : Polynomial}

theorem mapped (h : Renamed f p q) : Mapped f p q := ⟨h.sound, fun _ => h.sorted, h.mem, h.toMv_eq⟩

theorem rename_toMv (h : Renamed f p q) : q.toMv = MvPolynomial.rename f p.toMv :=
  h.toMv_eq.trans (toMv_map f p)

/-- The terms of the old polynomial, read over the new variables in their old order, are those of the
    new one: its leading coefficient in that order is the old one. -/
theorem leadingCoeff_reading (h : Renamed f p q) (hp : p.Sound) (nodup : (p.vars.map f).Nodup) :
    lex.leadingCoeff (q.reading (p.vars.map f)) = p.leadCoeff.toRat := by
  have desc : p.terms.Descending (p.vars.map f).length := by
    rw [List.length_map]
    exact hp.consistent
  have same : q.reading (p.vars.map f) = Terms.toMv (p.vars.map f).length p.terms := by
    rw [reading, h.toMv_eq]
    exact reading_vars (p := ⟨p.vars.map f, p.terms⟩) nodup
  rw [same, desc.leadingCoeff_toMv]
  rfl

/-- Renaming over one list neither makes nor loses common factors. -/
theorem isRelPrime_iff (h : Renamed f p q) (h' : Renamed f p' q') (vars : p'.vars = p.vars)
    (hp : p.Sound) (nodup : (p.vars.map f).Nodup) (ne : p'.toMv ≠ 0) :
    IsRelPrime q.toMv q'.toMv ↔ IsRelPrime p.toMv p'.toMv := by
  obtain ⟨us, ts⟩ := p
  obtain ⟨vs, ts'⟩ := p'
  cases vars
  have inj : Function.Injective (f ∘ us.get) := fun i j same => hp.get_injective
    (List.inj_on_of_nodup_map nodup (List.get_mem us i) (List.get_mem us j) same)
  have ne' : Terms.toMv us.length ts' ≠ 0 := fun zero => ne (by rw [toMv, zero, map_zero])
  rw [h.rename_toMv, h'.rename_toMv, toMv, toMv, MvPolynomial.rename_rename,
    MvPolynomial.rename_rename]
  exact (isRelPrime_rename_iff inj ne').trans (isRelPrime_rename_iff hp.get_injective ne').symm

end Renamed

end Polynomial

end Eliminant
