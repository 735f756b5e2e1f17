import Eliminant.Expr.Normal
import Eliminant.Proofs.Order
import Eliminant.Proofs.Sort
import Eliminant.Proofs.Terms.Basic

/-!
# Tallies and sorted operands

The normal forms of sums and products do not depend on the order in which their operands are given: like
operands are collected in a tally, and what comes out is sorted.

* `Tally.content`: what a tally says, as a function with finite support, and `Tally.content_collect`: it is
  the sum of what has been added;
* **`Tally.perm_support`**: a tally in ascending order holds each expression once;
* **`Tally.collect_eq_of_perm`**: what is collected does not depend on the order;
* `Tally.collect_perm`, `Tally.nodup_of_perm`: unlike entries, and only they, are kept as they are;
* **`Expr.sort_eq_of_perm`**: lists with the same entries are sorted to the same list.
-/

namespace Eliminant

namespace Tally

variable {a : Expr} {c : Coefficient} {p : Expr × Coefficient} {t : Tally}

/-! ## 1. What a tally says -/

/-- Every expression with its number. -/
noncomputable def content (t : Tally) : Expr →₀ ℚ := (t.map fun p => Finsupp.single p.1 p.2.toRat).sum

@[simp] theorem content_nil : content [] = 0 := rfl

@[simp] theorem content_cons : content (p :: t) = Finsupp.single p.1 p.2.toRat + content t := by
  simp [content]

/-- Adding to the number of an expression. -/
theorem content_add (a : Expr) (c : Coefficient) (t : Tally) :
    (t.add a c).content = t.content + Finsupp.single a c.toRat := by
  induction t with
  | nil => simp [add]
  | cons p t ih =>
    obtain ⟨b, d⟩ := p
    unfold add
    split
    · rw [content_cons, content_cons, ih, add_assoc]
    · rename_i same
      cases Expr.eq_of_compare same
      rw [content_cons, content_cons, Coefficient.toRat_add, Finsupp.single_add, add_right_comm]
    · rw [content_cons, add_comm]

/-- Adds entries one by one. -/
def collect (pairs : List (Expr × Coefficient)) (t : Tally) : Tally :=
  pairs.foldl (fun t p => t.add p.1 p.2) t

/-- **Collecting adds up.** -/
theorem content_collect (pairs : List (Expr × Coefficient)) (t : Tally) :
    (collect pairs t).content = t.content + content pairs := by
  induction pairs generalizing t with
  | nil => simp [collect]
  | cons p pairs ih =>
    show (collect pairs (t.add p.1 p.2)).content = _
    rw [ih, content_add, content_cons, add_assoc]

/-- What holds of all that is added, and is kept where numbers are added up, holds of all entries. -/
theorem forall_collect {P : Expr × Coefficient → Prop} {pairs : List (Expr × Coefficient)}
    (merge : ∀ a c d, P (a, c) → P (a, d) → P (a, c + d)) (ht : ∀ p ∈ t, P p) (h : ∀ p ∈ pairs, P p) :
    ∀ p ∈ collect pairs t, P p := by
  have add (a : Expr) (c : Coefficient) (hp : P (a, c)) : ∀ t : Tally, (∀ p ∈ t, P p) →
      ∀ p ∈ t.add a c, P p := by
    intro t ht
    induction t with
    | nil => exact List.forall_mem_singleton.mpr hp
    | cons q t ih =>
      obtain ⟨b, d⟩ := q
      obtain ⟨first, later⟩ := List.forall_mem_cons.mp ht
      unfold Tally.add
      split
      · exact List.forall_mem_cons.mpr ⟨first, ih later⟩
      · rename_i same
        cases Expr.eq_of_compare same
        exact List.forall_mem_cons.mpr ⟨merge _ d c first hp, later⟩
      · exact List.forall_mem_cons.mpr ⟨hp, ht⟩
  induction pairs generalizing t with
  | nil => exact ht
  | cons p pairs ih =>
    obtain ⟨first, later⟩ := List.forall_mem_cons.mp h
    exact ih (add p.1 p.2 first t ht) later

/-! ## 2. Tallies in order -/

/-- Every expression of a tally is smaller than the next. -/
def Ascending (t : Tally) : Prop := t.Pairwise fun p q => p.1.compare q.1 = .lt

theorem mem_add (h : p ∈ t.add a c) : p.1 = a ∨ p ∈ t := by
  induction t with
  | nil => exact .inl (congrArg Prod.fst (List.mem_singleton.mp h))
  | cons q t ih =>
    obtain ⟨b, d⟩ := q
    unfold add at h
    split at h
    · rcases List.mem_cons.mp h with rfl | h
      · exact .inr List.mem_cons_self
      · exact (ih h).imp_right (List.mem_cons_of_mem _)
    · rename_i same
      rcases List.mem_cons.mp h with rfl | h
      · exact .inl (Expr.eq_of_compare same)
      · exact .inr (List.mem_cons_of_mem _ h)
    · rcases List.mem_cons.mp h with rfl | h
      · exact .inl rfl
      · exact .inr h

/-- Adding keeps the order. -/
theorem Ascending.add (h : t.Ascending) : (t.add a c).Ascending := by
  induction t with
  | nil => exact List.pairwise_singleton _ _
  | cons q t ih =>
    obtain ⟨b, d⟩ := q
    obtain ⟨first, later⟩ := List.pairwise_cons.mp h
    unfold Tally.add
    split
    · rename_i lt
      refine List.pairwise_cons.mpr ⟨fun p hp => ?_, ih later⟩
      rcases mem_add hp with rfl | hp
      · exact lt
      · exact first p hp
    · exact List.pairwise_cons.mpr ⟨first, later⟩
    · rename_i gt
      have lt : a.compare b = .lt := by rw [Expr.compare_swap b a, gt]; rfl
      refine List.pairwise_cons.mpr ⟨fun p hp => ?_, h⟩
      rcases List.mem_cons.mp hp with rfl | hp
      · exact lt
      · exact Expr.compare_trans _ lt (first p hp)

theorem Ascending.collect (pairs : List (Expr × Coefficient)) (h : t.Ascending) :
    (collect pairs t).Ascending := by
  induction pairs generalizing t with
  | nil => exact h
  | cons p pairs ih => exact ih h.add

/-- An expression is not smaller than itself. -/
theorem ne_of_compare_lt {a b : Expr} (h : a.compare b = .lt) : a ≠ b := by
  rintro rfl
  have swap := Expr.compare_swap a a
  rw [h] at swap
  cases swap

theorem content_of_forall_ne (h : ∀ p ∈ t, p.1 ≠ a) : t.content a = 0 := by
  induction t with
  | nil => rfl
  | cons p t ih =>
    obtain ⟨first, later⟩ := List.forall_mem_cons.mp h
    rw [content_cons, Finsupp.add_apply, Finsupp.single_eq_of_ne' first, ih later, add_zero]

/-- In ascending order, an entry says all about its expression. -/
theorem Ascending.content_apply (h : t.Ascending) (hp : p ∈ t) : t.content p.1 = p.2.toRat := by
  induction t with
  | nil => cases hp
  | cons q t ih =>
    obtain ⟨first, later⟩ := List.pairwise_cons.mp h
    rw [content_cons, Finsupp.add_apply]
    rcases List.mem_cons.mp hp with rfl | hp
    · rw [Finsupp.single_eq_same, content_of_forall_ne fun q hq => (ne_of_compare_lt (first q hq)).symm,
        add_zero]
    · rw [Finsupp.single_eq_of_ne' (ne_of_compare_lt (first p hp)), ih later hp, zero_add]

/-- **Of a tally in ascending order, the entries with a number that is not zero** are what it says. -/
theorem Ascending.perm_support (h : t.Ascending) : (t.filter fun p => !p.2.isZero).Perm
    (t.content.support.toList.map fun a => (a, .ofRat (t.content a))) := by
  have nodup : t.Nodup := h.imp fun lt same => ne_of_compare_lt lt (congrArg Prod.fst same)
  have nodup' : (t.content.support.toList.map fun a => (a, Coefficient.ofRat (t.content a))).Nodup :=
    t.content.support.nodup_toList.map fun a b same => congrArg Prod.fst same
  refine (List.perm_ext_iff_of_nodup (nodup.filter _) nodup').mpr fun p => ?_
  rw [List.mem_filter, List.mem_map, Bool.not_eq_true', Coefficient.isZero_eq_false_iff]
  constructor
  · rintro ⟨hp, nonzero⟩
    have value := h.content_apply hp
    refine ⟨p.1, ?_, by rw [value, Coefficient.ofRat_toRat]⟩
    rw [Finset.mem_toList, Finsupp.mem_support_iff, value]
    exact nonzero
  · rintro ⟨a, ha, rfl⟩
    rw [Finset.mem_toList, Finsupp.mem_support_iff] at ha
    obtain ⟨p, hp, rfl⟩ : ∃ p ∈ t, p.1 = a := by
      by_contra none
      exact ha (content_of_forall_ne fun p hp same => none ⟨p, hp, same⟩)
    rw [h.content_apply hp, Coefficient.ofRat_toRat]
    rw [h.content_apply hp] at ha
    exact ⟨hp, ha⟩

theorem mem_keys_add {b : Expr} : (∃ d, (b, d) ∈ t.add a c) ↔ b = a ∨ ∃ d, (b, d) ∈ t := by
  induction t with
  | nil => simp [add]
  | cons q t ih =>
    obtain ⟨k, e⟩ := q
    have cons {d : Coefficient} {u : Tally} :
        (∃ x, (b, x) ∈ (k, d) :: u) ↔ b = k ∨ ∃ x, (b, x) ∈ u := by
      simp only [List.mem_cons, Prod.mk.injEq, exists_or, exists_and_left, exists_eq, and_true]
    unfold add
    split
    · rw [cons, cons, ih, or_left_comm]
    · rename_i same
      rw [cons, cons, Expr.eq_of_compare same, ← or_assoc, or_self]
    · simp only [List.mem_cons, Prod.mk.injEq, exists_or, exists_and_left, exists_eq, and_true]

/-- What has been collected is what there was and what has been added. -/
theorem mem_keys_collect {b : Expr} {pairs : List (Expr × Coefficient)} :
    (∃ d, (b, d) ∈ collect pairs t) ↔ (∃ d, (b, d) ∈ pairs) ∨ ∃ d, (b, d) ∈ t := by
  induction pairs generalizing t with
  | nil => simp [collect]
  | cons q pairs ih =>
    obtain ⟨k, e⟩ := q
    refine (ih (t := t.add k e)).trans ?_
    rw [mem_keys_add]
    simp only [List.mem_cons, Prod.mk.injEq, exists_or, exists_and_left, exists_eq, and_true]
    rw [or_left_comm, or_assoc]

/-- **Tallies in ascending order are equal** if they say the same of the same expressions. -/
theorem Ascending.eq_of_content {u : Tally} (ht : t.Ascending) (hu : u.Ascending)
    (keys : ∀ b, (∃ d, (b, d) ∈ t) ↔ ∃ d, (b, d) ∈ u) (content : t.content = u.content) : t = u := by
  have sub {t u : Tally} (ht : t.Ascending) (hu : u.Ascending) (content : t.content = u.content)
      (keys : ∀ b, (∃ d, (b, d) ∈ t) → ∃ d, (b, d) ∈ u) : ∀ p ∈ t, p ∈ u := by
    intro p hp
    obtain ⟨d, hd⟩ := keys p.1 ⟨p.2, hp⟩
    have value : d.toRat = p.2.toRat := by
      rw [← ht.content_apply hp, content, ← hu.content_apply hd]
    rwa [Coefficient.toRat_injective value] at hd
  have nodup {t : Tally} (h : t.Ascending) : t.Nodup :=
    h.imp fun lt same => ne_of_compare_lt lt (congrArg Prod.fst same)
  have perm : t.Perm u := (List.perm_ext_iff_of_nodup (nodup ht) (nodup hu)).mpr fun p =>
    ⟨sub ht hu content (fun b => (keys b).mp) p, sub hu ht content.symm (fun b => (keys b).mpr) p⟩
  refine perm.eq_of_pairwise (fun p q _ _ lt gt => ?_) ht hu
  rw [Expr.compare_swap, gt] at lt
  cases lt

/-- **What is collected does not depend on the order.** -/
theorem collect_eq_of_perm {ps qs : List (Expr × Coefficient)} (h : ps.Perm qs) :
    collect ps [] = collect qs [] := by
  refine (Ascending.collect ps .nil).eq_of_content (Ascending.collect qs .nil) (fun b => ?_) ?_
  · rw [mem_keys_collect, mem_keys_collect]
    simp only [h.mem_iff]
  · rw [content_collect, content_collect]
    exact congrArg (content [] + ·) (h.map _).sum_eq

/-! ## 3. Entries that are unlike -/

/-- A new entry is inserted. -/
theorem add_perm (h : ∀ p ∈ t, p.1 ≠ a) : (t.add a c).Perm ((a, c) :: t) := by
  induction t with
  | nil => exact List.Perm.refl _
  | cons p t ih =>
    obtain ⟨b, d⟩ := p
    obtain ⟨first, later⟩ := List.forall_mem_cons.mp h
    unfold add
    split
    · exact ((ih later).cons _).trans (.swap _ _ _)
    · rename_i same
      exact absurd (Expr.eq_of_compare same) first
    · exact List.Perm.refl _

/-- Unlike entries are kept as they are. -/
theorem collect_perm {pairs : List (Expr × Coefficient)} (h : (pairs.map Prod.fst).Nodup)
    (new : ∀ p ∈ pairs, ∀ q ∈ t, q.1 ≠ p.1) : (collect pairs t).Perm (pairs ++ t) := by
  induction pairs generalizing t with
  | nil => exact List.Perm.refl _
  | cons p pairs ih =>
    obtain ⟨first, later⟩ := List.nodup_cons.mp h
    obtain ⟨newFirst, newLater⟩ := List.forall_mem_cons.mp new
    have inserted := add_perm (c := p.2) newFirst
    have fresh : ∀ q ∈ pairs, ∀ r ∈ t.add p.1 p.2, r.1 ≠ q.1 := by
      intro q hq r hr
      rcases List.mem_cons.mp (inserted.mem_iff.mp hr) with rfl | hr
      · exact fun same => first (same ▸ List.mem_map_of_mem hq)
      · exact newLater q hq r hr
    exact ((ih later fresh).trans (inserted.append_left pairs)).trans List.perm_middle

/-- Entries that are not merged are unlike. -/
theorem nodup_of_perm (h : (collect pairs []).Perm pairs) : (pairs.map Prod.fst).Nodup := by
  have ascending : (collect pairs []).Ascending := Ascending.collect pairs .nil
  have unlike : ((collect pairs []).map Prod.fst).Nodup :=
    List.pairwise_map.mpr (ascending.imp fun lt => ne_of_compare_lt lt)
  exact (h.map Prod.fst).nodup_iff.mp unlike

end Tally

/-! ## 4. Sorted operands -/

namespace Expr

/-- **Lists with the same entries are sorted to the same list.** -/
theorem sort_eq_of_perm {as bs : List Expr} (h : as.Perm bs) : sort as = sort bs := by
  have perm : (sort as).Perm (sort bs) :=
    ((sortBy_perm Expr.compare as).trans h).trans (sortBy_perm Expr.compare bs).symm
  refine perm.eq_of_pairwise (fun a b _ _ ba ab => ?_) (pairwise_sortBy (ranks_of_transCmp id as))
    (pairwise_sortBy (ranks_of_transCmp id bs))
  cases order : a.compare b with
  | lt => exact absurd order ab
  | eq => exact eq_of_compare order
  | gt => exact absurd (by rw [compare_swap a b, order]; rfl) ba

end Expr

end Eliminant
