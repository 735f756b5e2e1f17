import Mathlib.Data.List.Forall2

/-!
# Folding the values of a list

`Folds R op unit as x` says that every entry of a list has a value in the sense of `R` and that the
values, combined with `op`, make up `x`. Where `op` is associative and commutative, lists may be joined
(`Folds.append`, `Folds.flatMap`) and permuted (`Folds.perm`), entries that are worth nothing may be
dropped (`Folds.filterMap`), and entries may be replaced by others of their value (`Folds.forall₂`).
-/

namespace Eliminant

variable {α β K : Type} {R : α → K → Prop} {S : β → K → Prop} {op : K → K → K} {unit : K}
  {a : α} {as bs : List α} {x y : K}

/-- Every entry of a list is related to one of the other list. -/
theorem exists_of_mem_forall₂ {R : α → β → Prop} {bs : List β} {b : β} (h : List.Forall₂ R as bs)
    (hb : b ∈ bs) : ∃ a ∈ as, R a b := by
  induction h with
  | nil => cases hb
  | cons hd _ ih =>
    rcases List.mem_cons.mp hb with rfl | hb
    · exact ⟨_, List.mem_cons_self, hd⟩
    · obtain ⟨a, ha, rel⟩ := ih hb
      exact ⟨a, List.mem_cons_of_mem _ ha, rel⟩

theorem exists_of_mem_forall₂_left {R : α → β → Prop} {bs : List β} (h : List.Forall₂ R as bs)
    (ha : a ∈ as) : ∃ b ∈ bs, R a b := by
  have flipped : List.Forall₂ (flip R) bs as := List.Forall₂.flip h
  exact exists_of_mem_forall₂ flipped ha

/-- **The entries of a list have values that make up `x`.** -/
def Folds (R : α → K → Prop) (op : K → K → K) (unit : K) : List α → K → Prop
  | [], x => x = unit
  | a :: as, x => ∃ y z, R a y ∧ Folds R op unit as z ∧ x = op y z

theorem folds_iff_forall₂ : Folds R op unit as x ↔ ∃ xs, List.Forall₂ R as xs ∧ x = xs.foldr op unit := by
  induction as generalizing x with
  | nil => simp [Folds]
  | cons a as ih =>
    constructor
    · rintro ⟨y, z, hy, hz, rfl⟩
      obtain ⟨ys, hys, rfl⟩ := ih.mp hz
      exact ⟨y :: ys, .cons hy hys, rfl⟩
    · rintro ⟨xs, h, rfl⟩
      obtain ⟨y, ys, hy, hys, rfl⟩ := List.forall₂_cons_left_iff.mp h
      exact ⟨y, _, hy, ih.mpr ⟨ys, hys, rfl⟩, rfl⟩

namespace Folds

/-- Entries that are replaced one for one keep their values. -/
theorem forall₂ {bs : List β} {T : α → β → Prop} (h : Folds R op unit as x)
    (hbs : List.Forall₂ T as bs) (hT : ∀ a b x, T a b → R a x → S b x) : Folds S op unit bs x := by
  induction hbs generalizing x with
  | nil => exact h
  | cons ht _ ih =>
    obtain ⟨y, z, hy, hz, rfl⟩ := h
    exact ⟨y, z, hT _ _ y ht hy, ih hz, rfl⟩

/-- Entries that are dropped are worth nothing. -/
theorem filterMap [Std.LawfulIdentity op unit] {f : α → Option β} (h : Folds R op unit as x)
    (kept : ∀ a b x, f a = some b → R a x → S b x) (dropped : ∀ a x, f a = none → R a x → x = unit) :
    Folds S op unit (as.filterMap f) x := by
  induction as generalizing x with
  | nil => exact h
  | cons a as ih =>
    obtain ⟨y, z, hy, hz, rfl⟩ := h
    cases hb : f a with
    | some b =>
      rw [List.filterMap_cons_some hb]
      exact ⟨y, z, kept a b y hb hy, ih hz, rfl⟩
    | none =>
      rw [List.filterMap_cons_none hb, dropped a y hb hy]
      have same : op unit z = z := Std.LawfulLeftIdentity.left_id z
      rw [same]
      exact ih hz

theorem singleton_iff [Std.LawfulIdentity op unit] : Folds R op unit [a] x ↔ R a x := by
  constructor
  · rintro ⟨y, z, hy, rfl, rfl⟩
    have same : op y z = y := Std.LawfulRightIdentity.right_id y
    rwa [same]
  · exact fun h => ⟨x, unit, h, rfl, (Std.LawfulRightIdentity.right_id x).symm⟩

/-- **The order of the entries does not matter.** -/
theorem perm [Std.Associative op] [Std.Commutative op] (h : Folds R op unit as x)
    (hp : as.Perm bs) : Folds R op unit bs x := by
  induction hp generalizing x with
  | nil => exact h
  | cons a _ ih =>
    obtain ⟨y, z, hy, hz, rfl⟩ := h
    exact ⟨y, z, hy, ih hz, rfl⟩
  | swap a b as =>
    obtain ⟨y, _, hy, ⟨z, w, hz, hw, rfl⟩, rfl⟩ := h
    refine ⟨z, op y w, hz, ⟨y, w, hy, hw, rfl⟩, ?_⟩
    calc op y (op z w) = op (op y z) w := (Std.Associative.assoc y z w).symm
      _ = op (op z y) w := congrArg (op · w) (Std.Commutative.comm y z)
      _ = op z (op y w) := Std.Associative.assoc z y w
  | trans _ _ ih ih' => exact ih' (ih h)

section Append

variable [Std.Associative op] [Std.LawfulIdentity op unit]

theorem append (ha : Folds R op unit as x) (hb : Folds R op unit bs y) :
    Folds R op unit (as ++ bs) (op x y) := by
  induction as generalizing x with
  | nil =>
    cases ha
    have same : op unit y = y := Std.LawfulLeftIdentity.left_id y
    rwa [same]
  | cons a as ih =>
    obtain ⟨v, z, hv, hz, rfl⟩ := ha
    exact ⟨v, op z y, hv, ih hz, Std.Associative.assoc v z y⟩

/-- The entries of the parts of a list, one part after the other. -/
theorem flatMap {f : β → List α} {cs : List β} (h : Folds S op unit cs x)
    (hf : ∀ c x, S c x → Folds R op unit (f c) x) : Folds R op unit (cs.flatMap f) x := by
  induction cs generalizing x with
  | nil => exact h
  | cons c cs ih =>
    obtain ⟨y, z, hy, hz, rfl⟩ := h
    rw [List.flatMap_cons]
    exact (hf c y hy).append (ih hz)

end Append

end Folds

end Eliminant
