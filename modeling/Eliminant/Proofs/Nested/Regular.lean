import Eliminant.Proofs.Nested.Rows

/-!
# Regular nested polynomials

A nested polynomial is **regular** (`Nested.Regular`) if the exponents of every level ascend, no
coefficient of a level is zero, no level is empty or a single term with exponent zero, and the variables
ascend inwards. If its variables come in the order of a list (`Nested.InOrder`), it has terms over that
list, which are listed from the smallest on (`Nested.flat`).

* **`Nested.nests_ofTerms`**: over sorted variables, what ascending terms are nested to is regular, and
  has these terms;
* **`Nested.InOrder.relisted`**: a regular nested polynomial has ascending terms, and is nested from them.
-/

namespace Eliminant

open Terms (front Ascending)
open Variable (Sorted)

variable {k : Coefficient} {ts : Terms} {u v : Variable} {vs : List Variable} {r : Nested}
  {terms : List (Nat × Nested)}

namespace Nested

/-! ## 1. Regular nested polynomials, and lists that order their variables -/

/-- The variable of the outermost level. -/
def outermost? : Nested → Option Variable
  | constant _ => none
  | level v _ => some v

/-- A level whose terms are written in the one regular way. -/
structure RegularLevel (v : Variable) (terms : List (Nat × Nested)) : Prop where
  ne_nil : terms ≠ []
  ne_alone : ∀ c, terms ≠ [(0, c)]
  ascending : terms.Pairwise fun s t => s.1 < t.1
  fits : ∀ t ∈ terms, t.1 ≤ maxExponent
  nonzero : ∀ t ∈ terms, t.2.isZero = false
  inwards : ∀ t ∈ terms, ∀ u ∈ t.2.outermost?, v.compare u = .lt

/-- **The invariant of nested polynomials.** -/
inductive Regular : Nested → Prop
  | constant (c : Coefficient) : Regular (constant c)
  | level (v : Variable) (terms : List (Nat × Nested)) (here : RegularLevel v terms)
      (each : ∀ t ∈ terms, Regular t.2) : Regular (level v terms)

/-- The variables come in the order of a list. -/
inductive InOrder : List Variable → Nested → Prop
  | constant (vs : List Variable) (c : Coefficient) : InOrder vs (constant c)
  | skip (v : Variable) (vs : List Variable) (r : Nested) (later : InOrder vs r) : InOrder (v :: vs) r
  | level (v : Variable) (vs : List Variable) (terms : List (Nat × Nested))
      (each : ∀ t ∈ terms, InOrder vs t.2) : InOrder (v :: vs) (level v terms)

theorem InOrder.mem_of_outermost (h : InOrder vs r) : ∀ u ∈ r.outermost?, u ∈ vs := by
  induction h with
  | constant vs c => exact nofun
  | skip v vs r later ih => exact fun u hu => List.mem_cons_of_mem v (ih u hu)
  | level v vs terms each ih =>
    rintro u ⟨⟩
    exact List.mem_cons_self

/-! ## 2. The terms over a list of variables -/

/-- The terms over a list that orders the variables, from the smallest on. -/
def flat : List Variable → Nested → Terms
  | [], constant c => if c.isZero then [] else [⟨c, []⟩]
  | [], level .. => []
  | _ :: vs, constant c => front 0 (flat vs (constant c))
  | v :: vs, level u terms =>
    if u = v then terms.flatMap fun t => front t.1 (flat vs t.2) else front 0 (flat vs (level u terms))

theorem flat_constant (c : Coefficient) : ∀ vs : List Variable,
    flat vs (constant c) = if c.isZero then [] else [⟨c, .zeros vs.length⟩]
  | [] => rfl
  | v :: vs => by
    rw [flat, flat_constant c vs]
    split <;> rfl

theorem flat_level (v : Variable) (vs : List Variable) (terms : List (Nat × Nested)) :
    flat (v :: vs) (level v terms) = terms.flatMap fun t => front t.1 (flat vs t.2) :=
  if_pos rfl

/-- A variable that comes later leaves a column of zeros. -/
theorem flat_skip (new : ∀ u ∈ r.outermost?, u ≠ v) : flat (v :: vs) r = front 0 (flat vs r) := by
  cases r with
  | constant c => rfl
  | level u terms => exact if_neg (new u rfl)

theorem InOrder.flat_skip (h : InOrder vs r) (new : v ∉ vs) : flat (v :: vs) r = front 0 (flat vs r) :=
  Nested.flat_skip fun u hu same => new (same ▸ h.mem_of_outermost u hu)

theorem flat_of_isZero (h : r.isZero = true) : flat vs r = [] := by
  cases r with
  | constant c => exact (flat_constant c vs).trans (if_pos h)
  | level v terms => cases h

/-! ## 3. From terms to regular nested polynomials -/

/-- **A regular nested polynomial over a list of variables, with given terms.** -/
structure Nests (vs : List Variable) (ts : Terms) (r : Nested) : Prop where
  inOrder : InOrder vs r
  regular : Regular r
  flat_eq : flat vs r = ts

theorem Nests.isZero_eq_false (h : Nests vs ts r) (some : ts ≠ []) : r.isZero = false :=
  Bool.eq_false_iff.mpr fun zero => some (h.flat_eq.symm.trans (flat_of_isZero zero))

/-- A list whose first parts are only a zero. -/
theorem exists_alone {α β : Type} {f : α → β} {xs : List (Nat × α)} {y : β}
    (h : xs.map (fun x => (x.1, f x.2)) = [(0, y)]) : ∃ x, xs = [(0, x)] := by
  obtain ⟨⟨e, x⟩, single, same⟩ := List.map_eq_singleton_iff.mp h
  obtain ⟨rfl, -⟩ := Prod.mk.inj same
  exact ⟨x, single⟩

/-- Nested polynomials with ascending exponents make up a level. -/
theorem nests_level (v : Variable) (sorted : Sorted (v :: vs)) (some : ts ≠ [])
    (len : ∀ t ∈ ts, t.exps.length = vs.length + 1) (lt : (groupRows ts).Pairwise fun x y => x.1 < y.1)
    (ne : ∀ group, groupRows ts ≠ [(0, group)]) (fits : ∀ x ∈ groupRows ts, x.1 ≤ maxExponent)
    (each : ∀ x ∈ groupRows ts, Nests vs x.2 (ofTerms vs x.2)) :
    Nests (v :: vs) ts (level v ((groupRows ts).map fun x => (x.1, ofTerms vs x.2))) := by
  obtain ⟨same, nonempty⟩ := groupRows_spec len
  refine ⟨.level _ _ _ ?_, .level _ _ ⟨?_, ?_, ?_, ?_, ?_, ?_⟩ ?_, ?_⟩
  · exact List.forall_mem_map.mpr fun x hx => (each x hx).inOrder
  · intro none
    rw [List.map_eq_nil_iff] at none
    exact some (by rw [← same, none]; rfl)
  · intro c alone
    obtain ⟨group, single⟩ := exists_alone alone
    exact ne group single
  · exact List.pairwise_map.mpr lt
  · exact List.forall_mem_map.mpr fits
  · exact List.forall_mem_map.mpr fun x hx => (each x hx).isZero_eq_false (nonempty x hx)
  · refine List.forall_mem_map.mpr fun x hx u hu => ?_
    exact (List.pairwise_cons.mp sorted).1 u ((each x hx).inOrder.mem_of_outermost u hu)
  · exact List.forall_mem_map.mpr fun x hx => (each x hx).regular
  · rw [flat_level, List.flatMap_map]
    refine Eq.trans (List.flatMap_congr fun x hx => ?_) same
    exact congrArg (front x.1) (each x hx).flat_eq

/-- **Nesting ascending terms over sorted variables.** The induction is on the variables: their first
    one is left out, or is that of a level whose coefficients nest the groups of rows. -/
theorem nests_ofTerms : ∀ {vs : List Variable} {ts : Terms}, Sorted vs → Ascending vs.length ts →
    (∀ t ∈ ts, ∀ e ∈ t.exps, e ≤ maxExponent) → Nests vs ts (ofTerms vs ts)
  | vs, [], _, _, _ => by
    rw [ofTerms_nil]
    exact ⟨.constant _ _, .constant _, flat_of_isZero rfl⟩
  | [], [t], _, h, _ => by
    obtain ⟨len, zero, -⟩ := h
    obtain ⟨c, exps⟩ := t
    cases List.eq_nil_of_length_eq_zero (len _ List.mem_cons_self)
    refine ⟨.constant _ _, .constant _, ?_⟩
    show (if c.isZero then [] else _) = _
    rw [if_neg (Bool.eq_false_iff.mp (zero _ List.mem_cons_self))]
  | [], s :: t :: ts, _, h, _ => by
    obtain ⟨len, -, pairs⟩ := h
    have empty {u : Term} (hu : u ∈ s :: t :: ts) : u.exps = [] :=
      List.eq_nil_of_length_eq_zero (len u hu)
    have lt := (List.pairwise_cons.mp pairs).1 t List.mem_cons_self
    rw [empty List.mem_cons_self, empty (List.mem_cons_of_mem s List.mem_cons_self)] at lt
    cases lt
  | v :: vs, t :: ts, sorted, h, fits => by
    obtain ⟨same, nonempty⟩ := groupRows_spec h.1
    have lt := pairwise_groupRows h
    rw [← same] at h
    have groups := h.of_flatMap
    have entries {x : Nat × Terms} (hx : x ∈ groupRows (t :: ts)) {s : Term} (hs : s ∈ x.2) :
        ∀ e ∈ x.1 :: s.exps, e ≤ maxExponent := by
      refine fits ⟨s.coeff, x.1 :: s.exps⟩ ?_
      rw [← same]
      exact List.mem_flatMap_of_mem hx (List.mem_map_of_mem hs)
    have each : ∀ x ∈ groupRows (t :: ts), Nests vs x.2 (ofTerms vs x.2) := fun x hx =>
      nests_ofTerms (List.pairwise_cons.mp sorted).2 (groups x hx) fun s hs e he =>
        entries hx hs e (List.mem_cons_of_mem _ he)
    by_cases alone : ∃ group, groupRows (t :: ts) = [(0, group)]
    · obtain ⟨group, alone⟩ := alone
      rw [alone] at each same
      rw [ofTerms_skip alone]
      have inner := each _ List.mem_cons_self
      refine ⟨.skip _ _ _ inner.inOrder, inner.regular, ?_⟩
      rw [inner.inOrder.flat_skip (List.nodup_cons.mp sorted.nodup).1, inner.flat_eq]
      exact (List.flatMap_singleton _ _).symm.trans same
    · rw [not_exists] at alone
      rw [ofTerms_level (List.cons_ne_nil t ts) alone]
      refine nests_level v sorted (List.cons_ne_nil t ts) ?_ lt alone (fun x hx => ?_) each
      · exact fun s hs => (same ▸ h).1 s hs
      · obtain ⟨s, ss, cons⟩ := List.exists_cons_of_ne_nil (nonempty x hx)
        exact entries hx (cons ▸ List.mem_cons_self) x.1 List.mem_cons_self

/-! ## 4. Regular nested polynomials from their terms -/

theorem ofTerms_zeros (c : Coefficient) : ∀ vs : List Variable,
    ofTerms vs [⟨c, .zeros vs.length⟩] = constant c
  | [] => rfl
  | _ :: vs => (ofTerms_skip (groupRows_last rfl)).trans (ofTerms_zeros c vs)

/-- **A regular nested polynomial has ascending terms, and is nested from them.** -/
structure Relisted (vs : List Variable) (r : Nested) : Prop where
  ascending : Ascending vs.length (flat vs r)
  eq_nil_iff : flat vs r = [] ↔ r.isZero = true
  ofTerms_eq : ofTerms vs (flat vs r) = r

theorem relisted_constant (vs : List Variable) (c : Coefficient) : Relisted vs (constant c) := by
  cases zero : c.isZero with
  | true =>
    have empty : flat vs (constant c) = [] := flat_of_isZero zero
    refine ⟨?_, iff_of_true empty zero, ?_⟩
    · rw [empty]
      exact Terms.ascending_nil
    · rw [empty, ofTerms_nil, (Coefficient.isZero_iff c).mp zero]
  | false =>
    have single : flat vs (constant c) = [⟨c, .zeros vs.length⟩] := by
      rw [flat_constant, zero]
      rfl
    refine ⟨?_, iff_of_false (by rw [single]; exact List.cons_ne_nil _ _) (by simp [isZero, zero]), ?_⟩
    · rw [single]
      exact ⟨List.forall_mem_singleton.mpr Exponents.length_zeros, List.forall_mem_singleton.mpr zero,
        List.pairwise_singleton _ _⟩
    · rw [single, ofTerms_zeros]

theorem Relisted.skip (h : Relisted vs r) (inOrder : InOrder vs r) (new : v ∉ vs) :
    Relisted (v :: vs) r := by
  have column := inOrder.flat_skip new
  refine ⟨?_, ?_, ?_⟩
  · rw [column]
    exact (Terms.ascending_front 0).mpr h.ascending
  · rw [column, ← h.eq_nil_iff]
    exact List.map_eq_nil_iff
  · rw [column]
    obtain none | some := eq_or_ne (flat vs r) []
    · have same := h.ofTerms_eq
      rw [none, ofTerms_nil] at same
      rw [none]
      exact same
    · have alone : groupRows (front 0 (flat vs r) ++ []) = [(0, flat vs r)] :=
        groupRows_front some rfl nofun
      rw [List.append_nil] at alone
      rw [ofTerms_skip alone, h.ofTerms_eq]

theorem Relisted.level (here : RegularLevel v terms) (each : ∀ t ∈ terms, Relisted vs t.2) :
    Relisted (v :: vs) (level v terms) := by
  have groups : flat (v :: vs) (Nested.level v terms) =
      (terms.map fun t => (t.1, flat vs t.2)).flatMap fun x => front x.1 x.2 := by
    rw [flat_level, List.flatMap_map]
  have lt : (terms.map fun t => (t.1, flat vs t.2)).Pairwise fun x y => x.1 < y.1 :=
    List.pairwise_map.mpr here.ascending
  have nonempty : ∀ x ∈ terms.map fun t => (t.1, flat vs t.2), x.2 ≠ [] :=
    List.forall_mem_map.mpr fun t ht none =>
      Bool.eq_false_iff.mp (here.nonzero t ht) ((each t ht).eq_nil_iff.mp none)
  have again := groupRows_flatMap lt nonempty
  have some : flat (v :: vs) (Nested.level v terms) ≠ [] := by
    intro none
    rw [← groups, none] at again
    exact here.ne_nil (List.map_eq_nil_iff.mp again.symm)
  refine ⟨?_, iff_of_false some Bool.false_ne_true, ?_⟩
  · rw [groups]
    exact .flatMap lt (List.forall_mem_map.mpr fun t ht => (each t ht).ascending)
  · rw [ofTerms_level some, groups, again, List.map_map]
    · refine congrArg _ ((List.map_congr_left fun t ht => ?_).trans (List.map_id terms))
      exact Prod.ext rfl (each t ht).ofTerms_eq
    · intro group alone
      rw [groups, again] at alone
      obtain ⟨c, single⟩ := exists_alone alone
      exact here.ne_alone c single

theorem InOrder.relisted (h : InOrder vs r) : Regular r → vs.Nodup → Relisted vs r := by
  induction h with
  | constant vs c => exact fun _ _ => relisted_constant vs c
  | skip v vs r later ih =>
    intro regular nodup
    obtain ⟨new, nodup⟩ := List.nodup_cons.mp nodup
    exact (ih regular nodup).skip later new
  | level v vs terms each ih =>
    rintro ⟨⟩ nodup
    rename_i regular here
    exact .level here fun t ht => ih t ht (regular t ht) (List.nodup_cons.mp nodup).2

end Nested

end Eliminant
