import Eliminant.Order.Sort
import Mathlib.Data.List.Basic

/-!
# Sorting sorts

`sortBy` puts no entry behind one that compares greater (`pairwise_sortBy`). It asks of the comparison
only what it uses, and only on the entries of the list: that no two entries are each below the other,
and that "not below" passes on.
-/

namespace Eliminant

variable {α : Type} {cmp : α → α → Ordering} {a b c : α} {as bs : List α}

/-- A comparison that ranks the entries of a list. -/
structure Ranks (cmp : α → α → Ordering) (as : List α) : Prop where
  asymm : ∀ a ∈ as, ∀ b ∈ as, cmp a b = .lt → cmp b a ≠ .lt
  trans : ∀ a ∈ as, ∀ b ∈ as, ∀ c ∈ as, cmp b a ≠ .lt → cmp c b ≠ .lt → cmp c a ≠ .lt

theorem Ranks.mono (h : Ranks cmp bs) (sub : as ⊆ bs) : Ranks cmp as where
  asymm a ha b hb := h.asymm a (sub ha) b (sub hb)
  trans a ha b hb c hc := h.trans a (sub ha) b (sub hb) c (sub hc)

/-- The opposite comparison ranks the same entries. -/
theorem Ranks.flip (h : Ranks cmp as) : Ranks (fun a b => cmp b a) as where
  asymm a ha b hb := h.asymm b hb a ha
  trans a ha b hb c hc ba cb := h.trans c hc b hb a ha cb ba

/-- A total order ranks whatever it compares by a part. -/
theorem ranks_of_transCmp [Std.TransCmp cmp] {β : Type} (f : β → α) (bs : List β) :
    Ranks (fun x y => cmp (f x) (f y)) bs where
  asymm _ _ _ _ := Std.OrientedCmp.not_lt_of_lt
  trans _ _ _ _ _ _ yx zy := Ordering.ne_lt_iff_isGE.mpr
    (Std.TransCmp.isGE_trans (Ordering.ne_lt_iff_isGE.mp zy) (Ordering.ne_lt_iff_isGE.mp yx))

theorem pairwise_insertBy : ∀ {bs : List α}, Ranks cmp (a :: bs) →
    (bs.Pairwise fun b c => cmp c b ≠ .lt) →
      (insertBy cmp a bs).Pairwise fun b c => cmp c b ≠ .lt
  | [], _, _ => List.pairwise_singleton _ a
  | b :: bs, ranks, sorted => by
    have ha : a ∈ a :: b :: bs := List.mem_cons_self
    have hb : b ∈ a :: b :: bs := List.mem_cons_of_mem a List.mem_cons_self
    have hbs : ∀ c ∈ bs, c ∈ a :: b :: bs := fun c hc =>
      List.mem_cons_of_mem a (List.mem_cons_of_mem b hc)
    obtain ⟨first, rest⟩ := List.pairwise_cons.mp sorted
    unfold insertBy
    split
    · rename_i lt
      refine List.pairwise_cons.mpr ⟨fun c hc => ?_, pairwise_insertBy (ranks.mono ?_) rest⟩
      · rcases List.mem_cons.mp ((insertBy_perm cmp a bs).mem_iff.mp hc) with rfl | hc
        · exact ranks.asymm b hb c ha lt
        · exact first c hc
      · exact List.cons_subset_cons a (List.subset_cons_self b bs)
    · rename_i not_lt
      refine List.pairwise_cons.mpr ⟨fun c hc => ?_, sorted⟩
      rcases List.mem_cons.mp hc with rfl | hc
      · exact not_lt
      · exact ranks.trans a ha b hb c (hbs c hc) not_lt (first c hc)

/-- **Sorting sorts.** -/
theorem pairwise_sortBy : ∀ {as : List α}, Ranks cmp as →
    (sortBy cmp as).Pairwise fun b c => cmp c b ≠ .lt
  | [], _ => List.Pairwise.nil
  | a :: as, ranks => by
    refine pairwise_insertBy (ranks.mono ?_)
      (pairwise_sortBy (ranks.mono (List.subset_cons_self a as)))
    exact List.cons_subset_cons a (sortBy_perm cmp as).subset

/-- An entry that none after it is below goes to the front. -/
theorem insertBy_of_forall (h : ∀ b ∈ bs, cmp b a ≠ .lt) : insertBy cmp a bs = a :: bs := by
  cases bs with
  | nil => rfl
  | cons b bs => exact if_neg (h b List.mem_cons_self)

/-- **A list in order stays as it is.** -/
theorem sortBy_of_pairwise : ∀ {as : List α}, (as.Pairwise fun b c => cmp c b ≠ .lt) →
    sortBy cmp as = as
  | [], _ => rfl
  | a :: as, sorted => by
    obtain ⟨first, rest⟩ := List.pairwise_cons.mp sorted
    rw [sortBy, sortBy_of_pairwise rest]
    exact insertBy_of_forall first

end Eliminant
