import Eliminant.Proofs.Polynomial.WellFormed

/-!
# Groups of rows

Nesting takes ascending terms apart by the first exponents of their rows:

* `Terms.Ascending`: sums listed from the smallest term on, and what putting columns in front does to them;
* `Nested.groupRows_spec`, `Nested.pairwise_groupRows`: rows fall apart into groups whose exponents ascend;
* `Nested.groupRows_flatMap`: groups with ascending exponents are found again in their rows;
* `Nested.ofTerms_skip`, `Nested.ofTerms_level`: what becomes of the groups.
-/

namespace Eliminant

variable {n e f : Nat} {k : Coefficient} {row : Exponents} {ts group : Terms}
  {groups : List (Nat × Terms)} {v : Variable} {vs : List Variable}

/-! ## 1. Ascending sums -/

namespace Terms

/-- **A sum that is listed from the smallest term on.** -/
def Ascending (n : Nat) (ts : Terms) : Prop :=
  (∀ t ∈ ts, t.exps.length = n) ∧ (∀ t ∈ ts, t.coeff.isZero = false) ∧
    ts.Pairwise fun s t => s.exps.compare t.exps = .lt

theorem ascending_nil : Ascending n [] := ⟨List.forall_mem_nil _, List.forall_mem_nil _, .nil⟩

theorem ascending_reverse : Ascending n ts.reverse ↔ Descending n ts := by
  simp only [Ascending, Descending, List.mem_reverse, List.pairwise_reverse]

theorem Ascending.reverse (h : Ascending n ts) : Descending n ts.reverse :=
  ascending_reverse.mp ((List.reverse_reverse ts).symm ▸ h)

theorem ascending_front (e : Nat) : Ascending (n + 1) (front e ts) ↔ Ascending n ts := by
  have column : (front e ts).reverse = front e ts.reverse := List.map_reverse.symm
  have turned : Ascending (n + 1) (front e ts) ↔ Descending (n + 1) (front e ts.reverse) := by
    rw [← column, ← ascending_reverse, List.reverse_reverse]
  rw [turned, descending_front, ← ascending_reverse, List.reverse_reverse]

/-- What comes first in a group of rows comes first in all of them. -/
theorem Ascending.of_flatMap (h : Ascending (n + 1) (groups.flatMap fun x => front x.1 x.2)) :
    ∀ x ∈ groups, Ascending n x.2 := by
  obtain ⟨len, zero, pairs⟩ := h
  intro x hx
  refine (ascending_front x.1).mp ⟨fun t ht => ?_, fun t ht => ?_, (List.pairwise_flatMap.mp pairs).1 x hx⟩
  · exact len t (List.mem_flatMap_of_mem hx ht)
  · exact zero t (List.mem_flatMap_of_mem hx ht)

/-- Groups of rows with ascending exponents. -/
theorem Ascending.flatMap (lt : groups.Pairwise fun x y => x.1 < y.1)
    (h : ∀ x ∈ groups, Ascending n x.2) :
    Ascending (n + 1) (groups.flatMap fun x => front x.1 x.2) := by
  have each : ∀ x ∈ groups, Ascending (n + 1) (front x.1 x.2) := fun x hx =>
    (ascending_front x.1).mpr (h x hx)
  refine ⟨fun t ht => ?_, fun t ht => ?_, List.pairwise_flatMap.mpr
    ⟨fun x hx => (each x hx).2.2, lt.imp fun {x y} less s hs t ht => ?_⟩⟩
  · obtain ⟨x, hx, ht⟩ := List.mem_flatMap.mp ht
    exact (each x hx).1 t ht
  · obtain ⟨x, hx, ht⟩ := List.mem_flatMap.mp ht
    exact (each x hx).2.1 t ht
  · obtain ⟨s, -, rfl⟩ := List.mem_map.mp hs
    obtain ⟨t, -, rfl⟩ := List.mem_map.mp ht
    exact if_pos less

/-- **Adding ascending terms one by one** puts each in front. -/
theorem foldl_insert_of_ascending (h : Ascending n ts) :
    ts.foldl (fun (sum : Terms) t => Terms.insert t sum) [] = ts.reverse := by
  induction ts using List.reverseRecOn with
  | nil => rfl
  | append_singleton ts t ih =>
    obtain ⟨len, zero, pairs⟩ := h
    obtain ⟨before, -, below⟩ := List.pairwise_append.mp pairs
    have rest : Ascending n ts :=
      ⟨fun s hs => len s (List.mem_append_left _ hs), fun s hs => zero s (List.mem_append_left _ hs),
        before⟩
    rw [List.foldl_append, ih rest, List.reverse_append]
    show Terms.insert t ts.reverse = t :: ts.reverse
    cases rows : ts.reverse with
    | nil => rfl
    | cons s ss =>
      have mem : s ∈ ts := List.mem_reverse.mp (rows ▸ List.mem_cons_self)
      have above := Exponents.compare_gt_iff.mpr (below s mem t (List.mem_singleton_self t))
      simp only [Terms.insert, above]

end Terms

open Terms (front Ascending)

namespace Nested

/-! ## 2. Groups of rows -/

/-- The last row is a group. -/
theorem groupRows_last (h : groupRows ts = []) : groupRows (⟨k, e :: row⟩ :: ts) = [(e, [⟨k, row⟩])] := by
  rw [groupRows, h]
  rfl

/-- A row joins the group behind it, -/
theorem groupRows_join (h : groupRows ts = (e, group) :: groups) :
    groupRows (⟨k, e :: row⟩ :: ts) = (e, ⟨k, row⟩ :: group) :: groups := by
  rw [groupRows, h]
  exact if_pos rfl

/-- or starts one of its own. -/
theorem groupRows_start (h : groupRows ts = (f, group) :: groups) (ne : e ≠ f) :
    groupRows (⟨k, e :: row⟩ :: ts) = (e, [⟨k, row⟩]) :: (f, group) :: groups := by
  rw [groupRows, h]
  exact if_neg ne

/-- **Rows fall apart into groups**, of which none is empty. -/
theorem groupRows_spec : ∀ {ts : Terms}, (∀ t ∈ ts, t.exps.length = n + 1) →
    (groupRows ts).flatMap (fun x => front x.1 x.2) = ts ∧ ∀ x ∈ groupRows ts, x.2 ≠ []
  | [], _ => ⟨rfl, by simp [groupRows]⟩
  | ⟨k, []⟩ :: ts, h => by cases (List.forall_mem_cons.mp h).1
  | ⟨k, e :: row⟩ :: ts, h => by
    obtain ⟨same, some⟩ := groupRows_spec (List.forall_mem_cons.mp h).2
    cases hg : groupRows ts with
    | nil =>
      rw [hg] at same
      cases same
      rw [groupRows_last hg]
      exact ⟨rfl, by simp⟩
    | cons x groups =>
      obtain ⟨f, group⟩ := x
      rw [hg] at same some
      obtain rfl | ne := eq_or_ne e f
      · rw [groupRows_join hg]
        refine ⟨?_, List.forall_mem_cons.mpr ⟨List.cons_ne_nil _ _, (List.forall_mem_cons.mp some).2⟩⟩
        rw [← same]
        rfl
      · rw [groupRows_start hg ne]
        refine ⟨?_, List.forall_mem_cons.mpr ⟨List.cons_ne_nil _ _, some⟩⟩
        rw [List.flatMap_cons, same]
        rfl

/-- The first exponents of ascending rows ascend. -/
theorem pairwise_groupRows : ∀ {ts : Terms}, Ascending (n + 1) ts →
    (groupRows ts).Pairwise fun x y => x.1 < y.1
  | [], _ => List.Pairwise.nil
  | ⟨k, []⟩ :: ts, h => by cases (List.forall_mem_cons.mp h.1).1
  | ⟨k, e :: row⟩ :: ts, h => by
    obtain ⟨len, zero, pairs⟩ := h
    obtain ⟨first, later⟩ := List.pairwise_cons.mp pairs
    have len := (List.forall_mem_cons.mp len).2
    have ih := pairwise_groupRows ⟨len, (List.forall_mem_cons.mp zero).2, later⟩
    obtain ⟨same, some⟩ := groupRows_spec len
    cases hg : groupRows ts with
    | nil =>
      rw [groupRows_last hg]
      exact List.pairwise_singleton _ _
    | cons x groups =>
      obtain ⟨f, group⟩ := x
      rw [hg] at same some ih
      obtain ⟨below, rest⟩ := List.pairwise_cons.mp ih
      have le : e ≤ f := by
        obtain ⟨s, ss, rfl⟩ := List.exists_cons_of_ne_nil (List.forall_mem_cons.mp some).1
        have lt := first ⟨s.coeff, f :: s.exps⟩ (same ▸ List.mem_cons_self)
        by_contra greater
        rw [Exponents.compare, if_neg (by omega), if_pos (by omega)] at lt
        cases lt
      obtain rfl | ne := eq_or_ne e f
      · rw [groupRows_join hg]
        exact List.pairwise_cons.mpr ⟨below, rest⟩
      · rw [groupRows_start hg ne]
        have lt : e < f := by omega
        exact List.pairwise_cons.mpr
          ⟨List.forall_mem_cons.mpr ⟨lt, fun y hy => lt.trans (below y hy)⟩, ih⟩

/-- A group of rows in front of rows that start otherwise. -/
theorem groupRows_front (some : group ≠ []) (h : groupRows ts = groups)
    (ne : ∀ x ∈ groups.head?, e ≠ x.1) : groupRows (front e group ++ ts) = (e, group) :: groups := by
  induction group with
  | nil => exact absurd rfl some
  | cons t group ih =>
    cases group with
    | nil =>
      cases groups with
      | nil => exact groupRows_last h
      | cons x groups => exact groupRows_start h (ne x rfl)
    | cons s group => exact groupRows_join (ih (List.cons_ne_nil _ _))

/-- **Groups with ascending exponents are found again.** -/
theorem groupRows_flatMap (lt : groups.Pairwise fun x y => x.1 < y.1) (some : ∀ x ∈ groups, x.2 ≠ []) :
    groupRows (groups.flatMap fun x => front x.1 x.2) = groups := by
  induction groups with
  | nil => rfl
  | cons x groups ih =>
    obtain ⟨first, lt⟩ := List.pairwise_cons.mp lt
    obtain ⟨here, later⟩ := List.forall_mem_cons.mp some
    refine groupRows_front here (ih lt later) fun y hy => (first y ?_).ne
    exact List.mem_of_mem_head? hy

/-! ## 3. Nesting -/

theorem ofTerms_nil : ∀ vs : List Variable, ofTerms vs [] = constant .zero
  | [] => rfl
  | _ :: _ => rfl

/-- A variable that does not occur is left out. -/
theorem ofTerms_skip (h : groupRows ts = [(0, group)]) : ofTerms (v :: vs) ts = ofTerms vs group := by
  cases ts with
  | nil => cases h
  | cons t ts =>
    rw [ofTerms, h]
    · rfl
    · exact nofun

/-- The groups of rows are the coefficients of a level. -/
theorem ofTerms_level (some : ts ≠ []) (h : ∀ group, groupRows ts ≠ [(0, group)]) :
    ofTerms (v :: vs) ts = level v ((groupRows ts).map fun x => (x.1, ofTerms vs x.2)) := by
  cases ts with
  | nil => exact absurd rfl some
  | cons t ts =>
    rw [ofTerms]
    · split
      · exact absurd ‹_› (h _)
      · rfl
    · exact nofun

end Nested

end Eliminant
