/-!
# Stable sorting

`sortBy` puts a list into ascending order for a comparison. Entries that compare equal keep their
order, which shows wherever entries are compared by a part of them.
-/

namespace Eliminant

variable {α : Type}

/-- Inserts `a` before the first entry that is not smaller. -/
def insertBy (cmp : α → α → Ordering) (a : α) : List α → List α
  | [] => [a]
  | b :: bs => if cmp b a = .lt then b :: insertBy cmp a bs else a :: b :: bs

/-- The entries of a list in ascending order; equal ones keep their order. -/
def sortBy (cmp : α → α → Ordering) : List α → List α
  | [] => []
  | a :: as => insertBy cmp a (sortBy cmp as)

theorem insertBy_perm (cmp : α → α → Ordering) (a : α) :
    ∀ bs : List α, (insertBy cmp a bs).Perm (a :: bs)
  | [] => List.Perm.refl _
  | b :: bs => by
    unfold insertBy
    split
    · exact ((insertBy_perm cmp a bs).cons b).trans (List.Perm.swap a b bs)
    · exact List.Perm.refl _

/-- **Sorting keeps the entries.** -/
theorem sortBy_perm (cmp : α → α → Ordering) : ∀ as : List α, (sortBy cmp as).Perm as
  | [] => List.Perm.refl _
  | a :: as => (insertBy_perm cmp a _).trans ((sortBy_perm cmp as).cons a)

end Eliminant
