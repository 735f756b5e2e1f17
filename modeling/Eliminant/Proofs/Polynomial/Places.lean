import Eliminant.Polynomial.Alignment
import Eliminant.Proofs.Ideal.Extension
import Eliminant.Proofs.Terms.Arithmetic
import Mathlib.Algebra.MvPolynomial.Rename
import Mathlib.Data.List.NodupEquivFin

/-!
# Polynomials in variables, and moving them

A polynomial stands for a polynomial in all variables (`Polynomial.toMv`), whatever its list. Moving
it to another list that names every variable of the old one (`Places`) keeps it:

* `Exponents.toFinsupp_spread`: a row that is moved is the same monomial, with its variables renamed;
* **`Polynomial.toMv_moveTo`**, `Polynomial.Consistent.moveTo`: a polynomial that is moved is the same
  polynomial, and it stays consistent. Places that ascend keep the order of the terms; otherwise the
  terms are added up anew.
-/

namespace Eliminant

open MvPolynomial
open MonomialOrder (lex)

variable {m n : Nat} {places : List Nat} {us vs : List Variable}

/-! ## 1. Moving a row -/

namespace Exponents

variable {as bs row : Exponents}

theorem length_setAll (pairs : List (Nat × Nat)) (row : Exponents) :
    (pairs.foldl (fun row x => row.set x.1 x.2) row).length = row.length := by
  induction pairs generalizing row with
  | nil => rfl
  | cons x pairs ih => rw [List.foldl_cons, ih, List.length_set]

/-- A place that is not set keeps its exponent. -/
theorem getD_setAll_of_notMem {j : Nat} : ∀ {pairs : List (Nat × Nat)} {row : Exponents},
    (∀ x ∈ pairs, x.1 ≠ j) →
      (pairs.foldl (fun row x => row.set x.1 x.2) row).getD j 0 = row.getD j 0
  | [], _, _ => rfl
  | x :: pairs, row, h => by
    rw [List.foldl_cons, getD_setAll_of_notMem fun y hy => h y (List.mem_cons_of_mem x hy),
      List.getD_eq_getElem?_getD, List.getD_eq_getElem?_getD,
      List.getElem?_set_ne (h x List.mem_cons_self)]

/-- A place that is set once gets its exponent. -/
theorem getD_setAll_of_mem {j e : Nat} : ∀ {pairs : List (Nat × Nat)} {row : Exponents},
    (pairs.map Prod.fst).Nodup → (j, e) ∈ pairs → j < row.length →
      (pairs.foldl (fun row x => row.set x.1 x.2) row).getD j 0 = e
  | [], _, _, h, _ => nomatch h
  | x :: pairs, row, nodup, h, hj => by
    rw [List.map_cons, List.nodup_cons] at nodup
    rw [List.foldl_cons]
    rcases List.mem_cons.mp h with rfl | h
    · have later : ∀ y ∈ pairs, y.1 ≠ j := fun y hy same =>
        nodup.1 (List.mem_map.mpr ⟨y, hy, same⟩)
      rw [getD_setAll_of_notMem later, List.getD_eq_getElem?_getD, List.getElem?_set_self hj]
      rfl
    · exact getD_setAll_of_mem nodup.2 h (by rwa [List.length_set])

@[simp] theorem length_spread : (as.spread places n).length = n := by
  unfold spread
  rw [length_setAll, length_zeros]

end Exponents

/-! ## 2. Places of variables -/

/-- `places` lists for every variable of `us` where it stands in `vs`. -/
def Places (us vs : List Variable) (places : List Nat) : Prop :=
  places.map (fun i => vs[i]?) = us.map some

namespace Places

theorem length (h : Places us vs places) : places.length = us.length := by
  simpa using congrArg List.length h

theorem lt_length (h : Places us vs places) (i : Fin us.length) : (i : Nat) < places.length := by
  rw [h.length]
  exact i.2

theorem getElem?_eq (h : Places us vs places) (i : Fin us.length) :
    vs[places.get ⟨i, h.lt_length i⟩]? = some (us.get i) := by
  have := congrArg (fun l => l[(i : Nat)]?) h
  simpa [h.lt_length i] using this

/-- The place of the variable number `i`. -/
def toFin (h : Places us vs places) (i : Fin us.length) : Fin vs.length :=
  ⟨places.get ⟨i, h.lt_length i⟩, (List.getElem?_eq_some_iff.mp (h.getElem?_eq i)).1⟩

theorem get_toFin (h : Places us vs places) (i : Fin us.length) : vs.get (h.toFin i) = us.get i :=
  (List.getElem?_eq_some_iff.mp (h.getElem?_eq i)).2

theorem nodup (h : Places us vs places) (hus : us.Nodup) : places.Nodup := by
  refine List.Nodup.of_map _ (?_ : (places.map fun i => vs[i]?).Nodup)
  rw [show places.map (fun i => vs[i]?) = us.map some from h]
  exact hus.map (Option.some_injective _)

/-- Distinct places in a list without repetitions are those of distinct variables. -/
theorem nodup_of (h : Places us vs places) (hp : places.Nodup) (hvs : vs.Nodup) : us.Nodup := by
  refine List.Nodup.of_map some ?_
  rw [← show places.map (fun i => vs[i]?) = us.map some from h]
  refine hp.map_on fun i hi j _ same => ?_
  obtain ⟨k, hk, rfl⟩ := List.getElem_of_mem hi
  have := h.getElem?_eq ⟨k, h.length ▸ hk⟩
  have lt : places[k] < vs.length := (List.getElem?_eq_some_iff.mp this).1
  exact (List.getElem?_inj lt hvs).mp same

theorem subset (h : Places us vs places) : us ⊆ vs := by
  intro u hu
  obtain ⟨i, rfl⟩ := List.get_of_mem hu
  exact h.get_toFin i ▸ List.get_mem vs _

theorem toFin_injective (h : Places us vs places) (hus : us.Nodup) :
    Function.Injective h.toFin := by
  intro i j same
  have := congrArg vs.get same
  rw [h.get_toFin, h.get_toFin] at this
  exact List.nodup_iff_injective_get.mp hus this

/-- A place that is listed is that of a variable. -/
theorem exists_toFin_eq (h : Places us vs places) {j : Fin vs.length} (hj : (j : Nat) ∈ places) :
    ∃ i, h.toFin i = j := by
  obtain ⟨i, hi, e⟩ := List.getElem_of_mem hj
  exact ⟨⟨i, h.length.symm.trans_gt hi⟩, Fin.ext e⟩

end Places

namespace Exponents

variable {as bs : Exponents}

theorem getD_spread_toFin (h : Places us vs places) (hus : us.Nodup) (has : as.length = us.length)
    (i : Fin us.length) :
    (as.spread places vs.length).getD (h.toFin i) 0 = as.getD i 0 := by
  have fst : (places.zip as).map Prod.fst = places :=
    List.map_fst_zip (h.length.trans has.symm).le
  have hi : (i : Nat) < (places.zip as).length := by
    rw [List.length_zip, h.length, has, Nat.min_self]
    exact i.2
  unfold spread
  refine getD_setAll_of_mem (fst.symm ▸ h.nodup hus) ?_ (by simp)
  have mem := List.getElem_mem hi
  rw [List.getElem_zip] at mem
  rwa [← List.getElem_eq_getD (h := by rw [has]; exact i.2)]

/-- **A row that is moved is the same monomial, with its variables renamed.** -/
theorem toFinsupp_spread (h : Places us vs places) (hus : us.Nodup) (has : as.length = us.length) :
    (as.spread places vs.length).toFinsupp vs.length =
      (as.toFinsupp us.length).mapDomain h.toFin := by
  ext j
  by_cases hj : (j : Nat) ∈ places
  · obtain ⟨i, rfl⟩ := h.exists_toFin_eq hj
    rw [Finsupp.mapDomain_apply (h.toFin_injective hus)]
    exact getD_spread_toFin h hus has i
  · rw [Finsupp.mapDomain_of_notMem_range]
    · refine (getD_setAll_of_notMem fun x hx same => hj ?_).trans (by simp [zeros])
      exact same ▸ (List.of_mem_zip hx).1
    · intro h
      obtain ⟨i, rfl⟩ := h
      exact hj (List.get_mem _ _)

/-- Moving to places that ascend keeps the order of rows. -/
theorem compare_spread (h : Places us vs places) (hus : us.Nodup) (mono : StrictMono h.toFin)
    (ha : as.length = us.length) (hb : bs.length = us.length) (lt : as.compare bs = .lt) :
    (as.spread places vs.length).compare (bs.spread places vs.length) = .lt := by
  rw [compare_lt_iff ha hb] at lt
  rw [compare_lt_iff length_spread length_spread, toFinsupp_spread h hus ha,
    toFinsupp_spread h hus hb]
  exact toLex_mapDomain_lt mono lt

/-- Places that ascend reflect the order of rows as well. -/
theorem compare_of_spread (h : Places us vs places) (hus : us.Nodup) (mono : StrictMono h.toFin)
    (ha : as.length = us.length) (hb : bs.length = us.length)
    (lt : (as.spread places vs.length).compare (bs.spread places vs.length) = .lt) :
    as.compare bs = .lt := by
  cases order : as.compare bs with
  | lt => rfl
  | eq =>
    rw [eq_of_compare_eq order] at lt
    exact absurd lt (not_compare_self _)
  | gt =>
    have above := compare_spread h hus mono hb ha (compare_gt_iff.mp order)
    rw [← compare_gt_iff, lt] at above
    cases above

end Exponents

theorem isAscending_iff : ∀ {places : List Nat},
    isAscending places = true ↔ places.Pairwise (· < ·)
  | [] => by simp [isAscending]
  | [_] => by simp [isAscending]
  | i :: j :: rest => by
    have ih : isAscending (j :: rest) = true ↔ (j :: rest).Pairwise (· < ·) := isAscending_iff
    simp only [isAscending, Bool.and_eq_true, decide_eq_true_eq, ih]
    refine ⟨fun ⟨lt, rest⟩ => List.pairwise_cons.mpr ⟨fun k hk => ?_, rest⟩, fun all => ?_⟩
    · rcases List.mem_cons.mp hk with rfl | hk
      · exact lt
      · exact lt.trans ((List.pairwise_cons.mp rest).1 k hk)
    · obtain ⟨first, rest⟩ := List.pairwise_cons.mp all
      exact ⟨first j List.mem_cons_self, rest⟩

theorem Places.strictMono (h : Places us vs places) (asc : isAscending places = true) :
    StrictMono h.toFin := fun i j lt =>
  List.pairwise_iff_getElem.mp (isAscending_iff.mp asc) i j (h.lt_length i) (h.lt_length j) lt

/-- Variables with ascending places keep their order. -/
theorem Places.sublist (h : Places us vs places) (asc : isAscending places = true) :
    us.Sublist vs :=
  List.sublist_iff_exists_fin_orderEmbedding_get_eq.mpr
    ⟨OrderEmbedding.ofStrictMono h.toFin (h.strictMono asc), fun i => (h.get_toFin i).symm⟩

/-! ## 3. Moving a polynomial -/

namespace Terms

variable {ts : Terms}

/-- The terms of a sum with their rows moved. -/
def moved (places : List Nat) (n : Nat) (ts : Terms) : Terms :=
  ts.map fun t => ⟨t.coeff, t.exps.spread places n⟩

theorem toMv_moved (h : Places us vs places) (hus : us.Nodup) :
    ∀ {ts : Terms}, (∀ t ∈ ts, t.exps.length = us.length) →
      toMv vs.length (moved places vs.length ts) = rename h.toFin (toMv us.length ts)
  | [], _ => (map_zero _).symm
  | t :: ts, hts => by
    have ih := toMv_moved h hus fun u hu => hts u (List.mem_cons_of_mem t hu)
    rw [toMv_cons, map_add, ← ih, rename_monomial,
      ← Exponents.toFinsupp_spread h hus (hts t List.mem_cons_self)]
    exact toMv_cons _ _

theorem Descending.moved (h : Places us vs places) (hus : us.Nodup)
    (mono : StrictMono h.toFin) (hts : Descending us.length ts) :
    Descending vs.length (moved places vs.length ts) := by
  obtain ⟨len, zero, pairs⟩ := hts
  refine ⟨?_, ?_, List.pairwise_map.mpr (pairs.imp_of_mem fun {t u} ht hu lt => ?_)⟩
  · simp [Terms.moved]
  · simpa [Terms.moved] using zero
  · exact Exponents.compare_spread h hus mono (len u hu) (len t ht) lt

theorem toMv_foldr_insert (ts : Terms) : toMv n (ts.foldr insert []) = toMv n ts := by
  induction ts with
  | nil => rfl
  | cons t ts ih => rw [List.foldr_cons, toMv_insert, ih, toMv_singleton, toMv_cons]

theorem descending_foldr_insert (len : ∀ t ∈ ts, t.exps.length = n)
    (zero : ∀ t ∈ ts, t.coeff.isZero = false) : Descending n (ts.foldr insert []) := by
  induction ts with
  | nil => exact .nil
  | cons t ts ih =>
    rw [List.forall_mem_cons] at len zero
    exact (ih len.2 zero.2).insert len.1 zero.1

end Terms

namespace Polynomial

variable {p q : Polynomial}

/-- **The polynomial in all variables that a polynomial stands for.** -/
noncomputable def toMv (p : Polynomial) : MvPolynomial Variable ℚ :=
  MvPolynomial.rename p.vars.get (Terms.toMv p.vars.length p.terms)

/-- **A polynomial that is moved is the same polynomial.** -/
theorem toMv_moveTo (hp : p.Consistent) (hus : p.vars.Nodup) (h : Places p.vars vs places) :
    (p.moveTo places vs).toMv = p.toMv := by
  have terms : Terms.toMv vs.length (p.moveTo places vs).terms =
      MvPolynomial.rename h.toFin (Terms.toMv p.vars.length p.terms) := by
    rw [← Terms.toMv_moved h hus hp.1]
    unfold moveTo
    dsimp only
    split
    · rfl
    · exact Terms.toMv_foldr_insert _
  show MvPolynomial.rename vs.get (Terms.toMv vs.length (p.moveTo places vs).terms) = _
  rw [terms, rename_rename, toMv]
  congr 2
  exact funext h.get_toFin

/-- **A polynomial that is moved stays consistent.** -/
theorem Consistent.moveTo (hp : p.Consistent) (hus : p.vars.Nodup) (h : Places p.vars vs places) :
    (p.moveTo places vs).Consistent := by
  unfold Consistent Polynomial.moveTo
  dsimp only
  split
  · rename_i asc
    exact Terms.Descending.moved h hus (h.strictMono asc) hp
  · refine Terms.descending_foldr_insert ?_ ?_
    · simp
    · simpa using hp.2.1

/-- Places that ascend keep the leading coefficient. -/
theorem leadCoeff_moveTo (asc : isAscending places = true) :
    (p.moveTo places vs).leadCoeff = p.leadCoeff := by
  unfold leadCoeff moveTo
  dsimp only
  rw [if_pos asc]
  cases p.terms <;> rfl

end Polynomial

end Eliminant
