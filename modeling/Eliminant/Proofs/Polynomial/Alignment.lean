import Eliminant.Groebner.Reduction
import Eliminant.Proofs.Order
import Eliminant.Proofs.Polynomial.Places

/-!
# Alignment keeps polynomials

Two lists of pairwise distinct variables are aligned to one list without repetitions, and the list is
sorted if both were (`Alignment.of_joins`). Two sorted lists may have variables that compare equal
without being equal (`Alignment.Twins`), of which the left one is kept; proper variables have no such
twins, and the common list has exactly the variables of both (`Alignment.of_spec`). So

* **`Polynomial.align_spec`**: two polynomials that are aligned are the same polynomials, consistent,
  over one list;
* **`Polynomial.alignAll_spec`**: so are all polynomials of a list, over one list that has exactly the
  variables of all of them.
-/

namespace Eliminant

variable {us vs : List Variable} {u v : Variable}

/-! ## 1. Sorted lists -/

namespace Variable

/-- Every variable is smaller than all that follow. -/
def Sorted (vs : List Variable) : Prop := vs.Pairwise fun u v => u.compare v = .lt

theorem isSorted_iff : ∀ {vs : List Variable}, isSorted vs = true ↔ Sorted vs
  | [] => by simp [isSorted, Sorted]
  | [_] => by simp [isSorted, Sorted]
  | u :: v :: rest => by
    have ih : isSorted (v :: rest) = true ↔ Sorted (v :: rest) := isSorted_iff
    simp only [isSorted, Bool.and_eq_true, beq_iff_eq, ih]
    refine ⟨fun ⟨lt, rest⟩ => List.pairwise_cons.mpr ⟨fun w hw => ?_, rest⟩, fun all => ?_⟩
    · rcases List.mem_cons.mp hw with rfl | hw
      · exact lt
      · exact compare_trans lt ((List.pairwise_cons.mp rest).1 w hw)
    · obtain ⟨first, rest⟩ := List.pairwise_cons.mp all
      exact ⟨first v List.mem_cons_self, rest⟩

theorem ne_of_compare_lt (h : u.compare v = .lt) : u ≠ v := by
  rintro rfl
  rw [compare_self] at h
  cases h

theorem Sorted.nodup (h : Sorted vs) : vs.Nodup := h.imp ne_of_compare_lt

/-- Sorted lists with the same variables are equal. -/
theorem Sorted.eq_of_mem_iff (hu : Sorted us) (hv : Sorted vs) (h : ∀ v, v ∈ us ↔ v ∈ vs) :
    us = vs := by
  have perm : us.Perm vs := (List.perm_ext_iff_of_nodup hu.nodup hv.nodup).mpr h
  refine perm.eq_of_pairwise (fun u v _ _ h₁ h₂ => ?_) hu hv
  exact absurd (compare_self u) (by rw [compare_trans h₁ h₂]; exact nofun)

end Variable

open Variable (Sorted Proper)

/-! ## 2. Merging sorted lists -/

/-- `places` lists in ascending order where the variables `us` stand in a list whose part from the
    place `place` on is `vars`. -/
structure PlacesFrom (place : Nat) (us vars : List Variable) (places : List Nat) : Prop where
  names : ∀ before : List Variable, before.length = place → Places us (before ++ vars) places
  above : ∀ i ∈ places, place ≤ i
  ascending : places.Pairwise (· < ·)

namespace PlacesFrom

variable {place : Nat} {vars : List Variable} {places : List Nat}

theorem nil : PlacesFrom place [] vars [] := ⟨fun _ _ => rfl, by simp, List.Pairwise.nil⟩

/-- A variable of the other list comes first. -/
theorem skip (v : Variable) (h : PlacesFrom (place + 1) us vars places) :
    PlacesFrom place us (v :: vars) places := by
  refine ⟨fun before len => ?_, fun i hi => Nat.le_of_succ_le (h.above i hi), h.ascending⟩
  have := h.names (before ++ [v]) (by simp [len])
  rwa [List.append_assoc] at this

/-- A variable of the list itself comes first. -/
theorem take (u : Variable) (h : PlacesFrom (place + 1) us vars places) :
    PlacesFrom place (u :: us) (u :: vars) (place :: places) := by
  refine ⟨fun before len => ?_, ?_, List.pairwise_cons.mpr ⟨h.above, h.ascending⟩⟩
  · have rest := (h.skip u).names before len
    subst len
    unfold Places at rest ⊢
    rw [List.map_cons, List.map_cons, rest, List.getElem?_append_right le_rfl, Nat.sub_self]
    rfl
  · exact List.forall_mem_cons.mpr ⟨le_rfl, fun i hi => Nat.le_of_succ_le (h.above i hi)⟩

end PlacesFrom

namespace Alignment

/-- Each variable of `ws` compares equal to the one of `vs` at its place. -/
def Twins (vs ws : List Variable) : Prop := List.Forall₂ (fun v w => v.compare w = .eq) vs ws

theorem Twins.refl : ∀ vs : List Variable, Twins vs vs
  | [] => .nil
  | v :: vs => .cons (Variable.compare_self v) (Twins.refl vs)

/-- Proper variables have no twins but themselves. -/
theorem Twins.eq {ws : List Variable} (h : Twins vs ws) (pv : ∀ v ∈ vs, v.Proper)
    (pw : ∀ w ∈ ws, w.Proper) : ws = vs := by
  induction h with
  | nil => rfl
  | cons here _ ih =>
    rw [List.forall_mem_cons] at pv pw
    rw [Variable.eq_of_compare pv.1 pw.1 here, ih pv.2 pw.2]

/-- What merging makes of two lists: a variable of the right list that compares equal to one of the
    left list gives way to it. -/
structure Merged (place : Nat) (us vs : List Variable) (a : Alignment) : Prop where
  sorted : Sorted a.vars
  mem : ∀ v ∈ a.vars, v ∈ us ∨ v ∈ vs
  left : PlacesFrom place us a.vars a.left
  right : ∃ ws, Twins vs ws ∧ PlacesFrom place ws a.vars a.right

/-- **Merging two sorted lists.** -/
theorem merge_spec (place : Nat) (hu : Sorted us) (hv : Sorted vs) :
    Merged place us vs (merge place us vs) := by
  fun_induction merge place us vs with
  | case1 place => exact ⟨List.Pairwise.nil, by simp, .nil, [], .nil, .nil⟩
  | case2 place u us a ih =>
    obtain ⟨first, hu⟩ := List.pairwise_cons.mp hu
    obtain ⟨sorted, mem, left, ws, twins, right⟩ := ih hu hv
    refine ⟨List.pairwise_cons.mpr ⟨fun w hw => ?_, sorted⟩, List.forall_mem_cons.mpr ⟨?_, ?_⟩,
      left.take u, ws, twins, right.skip u⟩
    · exact first w (by simpa using mem w hw)
    · simp
    · exact fun w hw => (mem w hw).imp_left (List.mem_cons_of_mem u)
  | case3 place v vs a ih =>
    obtain ⟨first, hv⟩ := List.pairwise_cons.mp hv
    obtain ⟨sorted, mem, left, ws, twins, right⟩ := ih hu hv
    refine ⟨List.pairwise_cons.mpr ⟨fun w hw => ?_, sorted⟩, List.forall_mem_cons.mpr ⟨?_, ?_⟩,
      left.skip v, v :: ws, .cons (Variable.compare_self v) twins, right.take v⟩
    · exact first w (by simpa using mem w hw)
    · simp
    · exact fun w hw => (mem w hw).imp_right (List.mem_cons_of_mem v)
  | case4 place u us v vs lt a ih =>
    obtain ⟨first, hu⟩ := List.pairwise_cons.mp hu
    obtain ⟨sorted, mem, left, ws, twins, right⟩ := ih hu hv
    refine ⟨List.pairwise_cons.mpr ⟨fun w hw => ?_, sorted⟩, List.forall_mem_cons.mpr ⟨?_, ?_⟩,
      left.take u, ws, twins, right.skip u⟩
    · rcases mem w hw with hw | hw
      · exact first w hw
      · rcases List.mem_cons.mp hw with rfl | hw
        · exact lt
        · exact Variable.compare_trans lt ((List.pairwise_cons.mp hv).1 w hw)
    · simp
    · exact fun w hw => (mem w hw).imp_left (List.mem_cons_of_mem u)
  | case5 place u us v vs gt a ih =>
    have lt := Variable.compare_gt_iff.mp gt
    obtain ⟨first, hv⟩ := List.pairwise_cons.mp hv
    obtain ⟨sorted, mem, left, ws, twins, right⟩ := ih hu hv
    refine ⟨List.pairwise_cons.mpr ⟨fun w hw => ?_, sorted⟩, List.forall_mem_cons.mpr ⟨?_, ?_⟩,
      left.skip v, v :: ws, .cons (Variable.compare_self v) twins, right.take v⟩
    · rcases mem w hw with hw | hw
      · rcases List.mem_cons.mp hw with rfl | hw
        · exact lt
        · exact Variable.compare_trans lt ((List.pairwise_cons.mp hu).1 w hw)
      · exact first w hw
    · simp
    · exact fun w hw => (mem w hw).imp_right (List.mem_cons_of_mem v)
  | case6 place u us v vs eq a ih =>
    obtain ⟨firstu, hu⟩ := List.pairwise_cons.mp hu
    obtain ⟨firstv, hv⟩ := List.pairwise_cons.mp hv
    obtain ⟨sorted, mem, left, ws, twins, right⟩ := ih hu hv
    have eq' : v.compare u = .eq := by rw [Variable.compare_swap u v, eq]; rfl
    refine ⟨List.pairwise_cons.mpr ⟨fun w hw => ?_, sorted⟩, List.forall_mem_cons.mpr ⟨?_, ?_⟩,
      left.take u, u :: ws, .cons eq' twins, right.take u⟩
    · refine (mem w hw).elim (firstu w) fun hw => ?_
      rw [Variable.compare_congr eq]
      exact firstv w hw
    · simp
    · exact fun w hw => (mem w hw).imp (List.mem_cons_of_mem u) (List.mem_cons_of_mem v)

/-! ## 3. Extending a list -/

/-- **Putting the variables that are missing behind a list.** -/
theorem extend_spec : ∀ us vs : List Variable, us.Nodup →
    ∃ more, (extend us vs).1 = us ++ more ∧ (us ++ more).Nodup ∧
      Places vs (us ++ more) (extend us vs).2 ∧ ∀ v, v ∈ us ++ more ↔ v ∈ us ∨ v ∈ vs
  | us, [], nodup => ⟨[], (List.append_nil us).symm, by simpa using nodup, rfl, by simp⟩
  | us, v :: vs, nodup => by
    unfold extend
    cases hv : us.findIdx? (· = v) with
    | some i =>
      obtain ⟨more, all, nodup', places, mem⟩ := extend_spec us vs nodup
      obtain ⟨hi, here, -⟩ := List.findIdx?_eq_some_iff_getElem.mp hv
      have here : us[i] = v := by simpa using here
      refine ⟨more, all, nodup', ?_, fun w => ?_⟩
      · unfold Places at places ⊢
        rw [List.map_cons, List.map_cons, places, List.getElem?_append_left hi,
          List.getElem?_eq_getElem hi, here]
      · rw [mem w, List.mem_cons]
        have : w = v → w ∈ us := fun e => e ▸ here ▸ List.getElem_mem hi
        tauto
    | none =>
      have missing : v ∉ us := fun hv' => by
        have := List.findIdx?_eq_none_iff.mp hv v hv'
        simp at this
      have nodup₁ : (us ++ [v]).Nodup :=
        List.nodup_append.mpr ⟨nodup, List.nodup_singleton v, fun u hu w hw same => missing
          (List.mem_singleton.mp hw ▸ same ▸ hu)⟩
      obtain ⟨more, all, nodup', places, mem⟩ := extend_spec (us ++ [v]) vs nodup₁
      have lists : us ++ [v] ++ more = us ++ v :: more := by simp
      rw [lists] at all nodup' places mem
      refine ⟨v :: more, all, nodup', ?_, fun w => ?_⟩
      · unfold Places at places ⊢
        rw [List.map_cons, List.map_cons, places, List.getElem?_append_right le_rfl, Nat.sub_self]
        rfl
      · rw [mem w]
        simp only [List.mem_append, List.mem_cons]
        tauto

/-! ## 4. The alignment of two lists -/

/-- **What an alignment of two lists of distinct variables is.** -/
structure Joins (us vs : List Variable) (a : Alignment) : Prop where
  left : Places us a.vars a.left
  right : ∃ ws, Twins vs ws ∧ ws.Nodup ∧ Places ws a.vars a.right
  nodup : a.vars.Nodup
  mem : ∀ v ∈ a.vars, v ∈ us ∨ v ∈ vs
  /-- the variables of the left list keep their order -/
  sublist : us.Sublist a.vars
  /-- a list that has all variables already is the common list -/
  of_subset : vs ⊆ us → a.vars = us
  /-- sorted lists are aligned to a sorted one, and the variables keep their order -/
  of_sorted : Sorted us → Sorted vs →
    Sorted a.vars ∧ isAscending a.left = true ∧ isAscending a.right = true

theorem places_range (us more : List Variable) :
    Places us (us ++ more) (List.range us.length) := by
  refine List.ext_getElem (by simp) fun i hi hi' => ?_
  have hi : i < us.length := by simpa using hi
  simp [List.getElem?_append_left hi, hi]

/-- **The alignment of two lists of distinct variables.** -/
theorem of_joins (hu : us.Nodup) (hv : vs.Nodup) : Joins us vs (of us vs) := by
  unfold of
  split
  · rename_i both
    obtain ⟨su, sv⟩ := Bool.and_eq_true_iff.mp both
    have su := Variable.isSorted_iff.mp su
    have sv := Variable.isSorted_iff.mp sv
    obtain ⟨sorted, mem, left, ws, twins, right⟩ := merge_spec 0 su sv
    have leftPlaces := left.names [] rfl
    have rightPlaces := right.names [] rfl
    have ascending := isAscending_iff.mpr left.ascending
    refine ⟨leftPlaces, ⟨ws, twins, ?_, rightPlaces⟩, sorted.nodup, mem,
      leftPlaces.sublist ascending, fun sub => ?_,
      fun _ _ => ⟨sorted, ascending, isAscending_iff.mpr right.ascending⟩⟩
    · exact rightPlaces.nodup_of (right.ascending.imp Nat.ne_of_lt) sorted.nodup
    · refine sorted.eq_of_mem_iff su fun v => ⟨fun h => ?_, fun h => leftPlaces.subset h⟩
      exact (mem v h).elim id fun hv => sub hv
  · rename_i both
    obtain ⟨more, all, nodup, places, mem⟩ := extend_spec us vs hu
    refine ⟨?_, ⟨vs, Twins.refl vs, hv, ?_⟩, ?_, ?_, ?_, fun sub => ?_,
      fun su sv => absurd ?_ both⟩
    · show Places us (extend us vs).1 _
      rw [all]
      exact places_range us more
    · show Places vs (extend us vs).1 _
      rwa [all]
    · show (extend us vs).1.Nodup
      rwa [all]
    · show ∀ v ∈ (extend us vs).1, _
      rw [all]
      exact fun v => (mem v).mp
    · show us.Sublist (extend us vs).1
      rw [all]
      exact List.sublist_append_left us more
    · show (extend us vs).1 = us
      have none : more = [] := by
        refine List.eq_nil_iff_forall_not_mem.mpr fun v hv => ?_
        have here : v ∈ us := ((mem v).mp (List.mem_append_right us hv)).elim id fun h => sub h
        exact (List.nodup_append.mp nodup).2.2 v here v hv rfl
      rw [all, none, List.append_nil]
    · rw [Bool.and_eq_true_iff]
      exact ⟨Variable.isSorted_iff.mpr su, Variable.isSorted_iff.mpr sv⟩

/-- **What an alignment of two lists of distinct, proper variables is.** -/
structure Aligns (us vs : List Variable) (a : Alignment) : Prop extends Joins us vs a where
  right_self : Places vs a.vars a.right
  mem_iff : ∀ v, v ∈ a.vars ↔ v ∈ us ∨ v ∈ vs

/-- **The alignment of two lists of distinct, proper variables.** -/
theorem of_spec (hu : us.Nodup) (hv : vs.Nodup) (pu : ∀ u ∈ us, u.Proper)
    (pv : ∀ v ∈ vs, v.Proper) : Aligns us vs (of us vs) := by
  have joins := of_joins hu hv
  obtain ⟨ws, twins, -, right⟩ := joins.right
  have pw : ∀ w ∈ ws, w.Proper := fun w hw => (joins.mem w (right.subset hw)).elim (pu w) (pv w)
  rw [twins.eq pv pw] at right
  refine ⟨joins, right, fun v => ⟨joins.mem v, fun h => ?_⟩⟩
  exact h.elim (fun h => joins.left.subset h) fun h => right.subset h

end Alignment

/-! ## 5. Aligned polynomials -/

namespace Polynomial

variable {p q : Polynomial}

/-- A consistent polynomial over distinct, proper variables. -/
structure Sound (p : Polynomial) : Prop where
  consistent : p.Consistent
  nodup : p.vars.Nodup
  proper : ∀ v ∈ p.vars, v.Proper

theorem sound_iff : p.Sound ↔ p.Consistent ∧ p.vars.Nodup ∧ ∀ v ∈ p.vars, v.Proper :=
  ⟨fun h => ⟨h.consistent, h.nodup, h.proper⟩, fun ⟨h₁, h₂, h₃⟩ => ⟨h₁, h₂, h₃⟩⟩

instance : Decidable p.Consistent :=
  inferInstanceAs (Decidable ((∀ t ∈ p.terms, _) ∧ (∀ t ∈ p.terms, _) ∧ List.Pairwise _ _))

instance : Decidable p.Sound := decidable_of_iff' _ sound_iff

/-- What aligning makes of two polynomials. -/
structure Aligned (p q : Polynomial) (r : Polynomial × Polynomial) : Prop where
  left : r.1.Sound
  right : r.2.Sound
  vars_eq : r.2.vars = r.1.vars
  toMv_left : r.1.toMv = p.toMv
  toMv_right : r.2.toMv = q.toMv
  mem : ∀ v, v ∈ r.1.vars ↔ v ∈ p.vars ∨ v ∈ q.vars
  sublist : p.vars.Sublist r.1.vars
  of_subset : q.vars ⊆ p.vars → r.1.vars = p.vars
  of_sorted : Sorted p.vars → Sorted q.vars →
    Sorted r.1.vars ∧ r.1.leadCoeff = p.leadCoeff ∧ r.2.leadCoeff = q.leadCoeff

/-- **Polynomials that are aligned are the same polynomials, over one list of variables.** -/
theorem align_spec (hp : p.Sound) (hq : q.Sound) : Aligned p q (align p q) := by
  unfold align
  split
  · rename_i same
    refine ⟨hp, hq, same.symm, rfl, rfl, fun v => ?_, List.Sublist.refl _, fun _ => rfl,
      fun sp _ => ⟨sp, rfl, rfl⟩⟩
    rw [same, or_self]
  · have a := Alignment.of_spec hp.nodup hq.nodup hp.proper hq.proper
    have proper : ∀ v ∈ (Alignment.of p.vars q.vars).vars, v.Proper := fun v hv =>
      (a.mem v hv).elim (hp.proper v) (hq.proper v)
    refine ⟨⟨hp.consistent.moveTo hp.nodup a.left, a.nodup, proper⟩,
      ⟨hq.consistent.moveTo hq.nodup a.right_self, a.nodup, proper⟩, rfl,
      toMv_moveTo hp.consistent hp.nodup a.left,
      toMv_moveTo hq.consistent hq.nodup a.right_self, a.mem_iff, a.sublist, a.of_subset,
      fun sp sq => ?_⟩
    obtain ⟨sorted, left, right⟩ := a.of_sorted sp sq
    exact ⟨sorted, leadCoeff_moveTo left, leadCoeff_moveTo right⟩

theorem align_of_vars_eq (h : p.vars = q.vars) : align p q = (p, q) := if_pos h

/-- Aligned polynomials are aligned. -/
theorem Aligned.align_eq {r : Polynomial × Polynomial} (h : Aligned p q r) : align r.1 r.2 = r :=
  align_of_vars_eq h.vars_eq.symm

/-- `p'` is `p` over the variables `vars`. -/
structure Over (vars : List Variable) (p p' : Polynomial) : Prop where
  sound : p'.Sound
  vars_eq : p'.vars = vars
  toMv_eq : p'.toMv = p.toMv

/-- What aligning makes of a polynomial and a list. -/
structure AlignedEach (first : Polynomial) (ps : List Polynomial)
    (r : Polynomial × List Polynomial) : Prop where
  sound : r.1.Sound
  toMv_eq : r.1.toMv = first.toMv
  mem : ∀ v, v ∈ r.1.vars ↔ v ∈ first.vars ∨ ∃ p ∈ ps, v ∈ p.vars
  sublist : first.vars.Sublist r.1.vars
  rest : List.Forall₂ (fun p p' => p'.Sound ∧ p'.toMv = p.toMv ∧ p'.vars ⊆ r.1.vars) ps r.2
  of_subset : (∀ p ∈ ps, p.vars ⊆ first.vars) →
    r.1.vars = first.vars ∧ List.Forall₂ (Over first.vars) ps r.2

theorem alignEach_spec : ∀ {ps : List Polynomial} {first : Polynomial}, first.Sound →
    (∀ p ∈ ps, p.Sound) → AlignedEach first ps (alignEach first ps)
  | [], first, hf, _ =>
    ⟨hf, rfl, by simp [alignEach], List.Sublist.refl _, .nil, fun _ => ⟨rfl, .nil⟩⟩
  | p :: ps, first, hf, hps => by
    obtain ⟨hp, hps⟩ := List.forall_mem_cons.mp hps
    have here := align_spec hf hp
    have later := alignEach_spec here.left hps
    have mem (v : Variable) : v ∈ (alignEach first (p :: ps)).1.vars ↔
        v ∈ first.vars ∨ ∃ q ∈ p :: ps, v ∈ q.vars := by
      refine (later.mem v).trans ?_
      rw [here.mem v, List.exists_mem_cons_iff, or_assoc]
    refine ⟨later.sound, later.toMv_eq.trans here.toMv_left, mem, here.sublist.trans later.sublist,
      .cons ?_ later.rest, fun sub => ?_⟩
    · refine ⟨here.right, here.toMv_right, fun v hv => ?_⟩
      exact (later.mem v).mpr (Or.inl (here.vars_eq ▸ hv))
    · obtain ⟨subp, subps⟩ := List.forall_mem_cons.mp sub
      have same := here.of_subset subp
      obtain ⟨vars, rest⟩ := later.of_subset (same.symm ▸ subps)
      rw [same] at vars rest
      exact ⟨vars, .cons ⟨here.right, here.vars_eq.trans same, here.toMv_right⟩ rest⟩

theorem forall₂_over {vars some : List Variable} {ps qs rs : List Polynomial}
    (first : List.Forall₂ (fun p p' => p'.Sound ∧ p'.toMv = p.toMv ∧ p'.vars ⊆ some) ps qs)
    (second : List.Forall₂ (Over vars) qs rs) : List.Forall₂ (Over vars) ps rs := by
  induction first generalizing rs with
  | nil => exact second
  | cons head _ ih =>
    cases second with
    | cons here rest => exact .cons ⟨here.sound, here.vars_eq, here.toMv_eq.trans head.2.1⟩ (ih rest)

/-- **The polynomials of a list that are aligned are the same polynomials, over one list of distinct
    variables that has exactly theirs.** -/
theorem alignAll_spec {ps : List Polynomial} (h : ∀ p ∈ ps, p.Sound) :
    List.Forall₂ (Over (sharedVars (alignAll ps))) ps (alignAll ps) ∧
      ∀ v, v ∈ sharedVars (alignAll ps) ↔ ∃ p ∈ ps, v ∈ p.vars := by
  cases ps with
  | nil => exact ⟨.nil, by simp [alignAll, sharedVars]⟩
  | cons first rest =>
    obtain ⟨hf, hrest⟩ := List.forall_mem_cons.mp h
    have one := alignEach_spec hf hrest
    have after : ∀ q ∈ (alignEach first rest).2,
        q.Sound ∧ q.vars ⊆ (alignEach first rest).1.vars := by
      intro q hq
      obtain ⟨p, -, sound, -, sub⟩ := exists_of_mem_forall₂ one.rest hq
      exact ⟨sound, sub⟩
    have two := alignEach_spec one.sound fun q hq => (after q hq).1
    obtain ⟨vars, all⟩ := two.of_subset fun q hq => (after q hq).2
    have shared : sharedVars (alignAll (first :: rest)) = (alignEach first rest).1.vars := vars
    rw [shared]
    refine ⟨.cons ⟨two.sound, vars, two.toMv_eq.trans one.toMv_eq⟩ (forall₂_over one.rest all), ?_⟩
    intro v
    rw [one.mem v, List.exists_mem_cons_iff]

/-- The variables of the first polynomial keep their order. -/
theorem sublist_sharedVars {first : Polynomial} {rest : List Polynomial}
    (h : ∀ p ∈ first :: rest, p.Sound) :
    first.vars.Sublist (sharedVars (alignAll (first :: rest))) := by
  obtain ⟨hf, hrest⟩ := List.forall_mem_cons.mp h
  have one := alignEach_spec hf hrest
  have after : ∀ q ∈ (alignEach first rest).2, q.Sound := by
    intro q hq
    obtain ⟨p, -, sound, -⟩ := exists_of_mem_forall₂ one.rest hq
    exact sound
  exact one.sublist.trans (alignEach_spec one.sound after).sublist

/-- The variables that aligned polynomials share are distinct. -/
theorem nodup_sharedVars {ps : List Polynomial} (h : ∀ p ∈ ps, p.Sound) :
    (sharedVars (alignAll ps)).Nodup := by
  obtain ⟨all, -⟩ := alignAll_spec h
  cases aligned : alignAll ps with
  | nil => exact List.nodup_nil
  | cons q qs =>
    rw [aligned] at all
    obtain ⟨p, -, moved⟩ := exists_of_mem_forall₂ all List.mem_cons_self
    exact moved.sound.nodup

/-! ## 6. Polynomials that are aligned already -/

theorem alignEach_of_vars_eq : ∀ {ds : List Polynomial}, (∀ d ∈ ds, d.vars = p.vars) →
    alignEach p ds = (p, ds)
  | [], _ => rfl
  | d :: ds, h => by
    obtain ⟨here, rest⟩ := List.forall_mem_cons.mp h
    unfold alignEach
    rw [align_of_vars_eq here.symm]
    dsimp only
    rw [alignEach_of_vars_eq rest]

/-- **Polynomials over one list of variables stay as they are.** -/
theorem alignAll_of_vars_eq {vars : List Variable} :
    ∀ {ps : List Polynomial}, (∀ p ∈ ps, p.vars = vars) → alignAll ps = ps
  | [], _ => rfl
  | p :: ds, h => by
    obtain ⟨here, rest⟩ := List.forall_mem_cons.mp h
    have one : alignEach p ds = (p, ds) :=
      alignEach_of_vars_eq fun d hd => (rest d hd).trans here.symm
    unfold alignAll
    dsimp only
    rw [one]
    dsimp only
    rw [one]

end Polynomial

end Eliminant
