import Eliminant.Coefficient.Exact
import Eliminant.Variable
import Mathlib.Algebra.Order.Ring.Rat
import Mathlib.Data.Rat.Lemmas

/-!
# The orders are total

Coefficients, expressions and variables are each compared by a recursion over their parts. The
comparisons are total orders:

* `Coefficient.compare_eq`: the order on coefficients is that of the rational numbers;
* `Expr.compare_self`, `Expr.eq_of_compare`, `Expr.compare_swap`, `Expr.compare_trans`: expressions,
  by induction over the operands;
* `Variable.compare` is a total preorder, and **proper** variables -- a kernel that is a bare name is
  not -- compare equal only where they are equal (`Variable.eq_of_compare`).

**`compare_total`** puts them together.
-/

namespace Eliminant

/-! ## 1. Coefficients -/

namespace Coefficient

/-- **The order on coefficients is that of the rational numbers.** -/
theorem compare_eq (a b : Coefficient) : a.compare b =
    if a.toRat < b.toRat then .lt else if b.toRat < a.toRat then .gt else .eq := by
  cases a with
  | large r hr => cases b <;> rfl
  | small n₁ d₁ hn₁ hd₁ p₁ red₁ =>
    cases b with
    | large r hr => rfl
    | small n₂ d₂ hn₂ hd₂ p₂ red₂ =>
      have e₁ : ((d₁.toNat : Nat) : Int) = d₁ := by omega
      have e₂ : ((d₂.toNat : Nat) : Int) = d₂ := by omega
      have lt₁ : (small n₁ d₁ hn₁ hd₁ p₁ red₁).toRat < (small n₂ d₂ hn₂ hd₂ p₂ red₂).toRat ↔
          n₁ * d₂ < n₂ * d₁ := by
        rw [Rat.lt_iff]
        simp only [toRat, e₁, e₂]
      have lt₂ : (small n₂ d₂ hn₂ hd₂ p₂ red₂).toRat < (small n₁ d₁ hn₁ hd₁ p₁ red₁).toRat ↔
          n₂ * d₁ < n₁ * d₂ := by
        rw [Rat.lt_iff]
        simp only [toRat, e₁, e₂]
      simp only [lt₁, lt₂, Coefficient.compare, wide_mul hn₁ hd₂, wide_mul hn₂ hd₁]
      rw [Int.compare_eq_ite_lt]

theorem eq_of_compare {a b : Coefficient} (h : a.compare b = .eq) : a = b := by
  rw [compare_eq] at h
  split at h
  · cases h
  · split at h
    · cases h
    · exact toRat_injective (le_antisymm (not_lt.mp ‹_›) (not_lt.mp ‹_›))

theorem compare_swap (a b : Coefficient) : b.compare a = (a.compare b).swap := by
  rw [compare_eq, compare_eq]
  rcases lt_trichotomy a.toRat b.toRat with lt | eq | gt
  · rw [if_neg lt.asymm, if_pos lt, if_pos lt]
    rfl
  · rw [eq, if_neg (lt_irrefl _), if_neg (lt_irrefl _)]
    rfl
  · rw [if_pos gt, if_neg gt.asymm, if_pos gt]
    rfl

theorem compare_lt_iff {a b : Coefficient} : a.compare b = .lt ↔ a.toRat < b.toRat := by
  rw [compare_eq]
  split
  · exact iff_of_true rfl ‹_›
  · split <;> exact iff_of_false nofun ‹_›

end Coefficient

/-! ## 2. Expressions -/

/-- Comparing by a first part and then by a second is transitive where both are. -/
theorem then_trans {α : Type} {cmp : α → α → Ordering} {a b c : α} {p q r : Ordering}
    (eq : ∀ {a b : α}, cmp a b = .eq → a = b)
    (first : cmp a b = .lt → cmp b c = .lt → cmp a c = .lt) (second : p = .lt → q = .lt → r = .lt)
    (h₁ : (cmp a b).then p = .lt) (h₂ : (cmp b c).then q = .lt) : (cmp a c).then r = .lt := by
  rw [Ordering.then_eq_lt] at h₁ h₂ ⊢
  rcases h₁ with lt₁ | ⟨eq₁, h₁⟩
  · rcases h₂ with lt₂ | ⟨eq₂, -⟩
    · exact Or.inl (first lt₁ lt₂)
    · exact Or.inl (eq eq₂ ▸ lt₁)
  · have ab := eq eq₁
    subst ab
    exact h₂.imp_right fun ⟨eq₂, h₂⟩ => ⟨eq₂, second h₁ h₂⟩

theorem string_trans {x y z : String} (h₁ : compare x y = .lt) (h₂ : compare y z = .lt) :
    compare x z = .lt := Std.TransCmp.lt_trans h₁ h₂

namespace Operator

theorem eq_of_compare {o p : Operator} (h : o.compare p = .eq) : o = p :=
  rank_injective (Nat.compare_eq_eq.mp h)

theorem compare_swap (o p : Operator) : p.compare o = (o.compare p).swap :=
  Std.OrientedOrd.eq_swap (α := Nat)

theorem compare_trans {o p q : Operator} (h₁ : o.compare p = .lt) (h₂ : p.compare q = .lt) :
    o.compare q = .lt := by
  unfold Operator.compare at *
  exact Std.TransCmp.lt_trans h₁ h₂

end Operator

namespace Expr

mutual
/-- **Only equal expressions compare equal.** -/
theorem eq_of_compare : ∀ {a b : Expr}, a.compare b = .eq → a = b
  | num m, num n, h => congrArg num (Coefficient.eq_of_compare h)
  | var x, var y, h => congrArg var (Std.LawfulEqOrd.eq_of_compare (α := String) h)
  | call f as, call g bs, h => by
    obtain ⟨hf, has⟩ := Ordering.then_eq_eq.mp h
    rw [Std.LawfulEqCmp.eq_of_compare hf, eq_of_compareList has]
  | op o as, op p bs, h => by
    obtain ⟨ho, has⟩ := Ordering.then_eq_eq.mp h
    rw [Operator.eq_of_compare ho, eq_of_compareList has]
  | num _, var _, h | num _, call .., h | num _, op .., h => nomatch h
  | var _, num _, h | var _, call .., h | var _, op .., h => nomatch h
  | call .., num _, h | call .., var _, h | call .., op .., h => nomatch h
  | op .., num _, h | op .., var _, h | op .., call .., h => nomatch h

theorem eq_of_compareList : ∀ {as bs : List Expr}, compareList as bs = .eq → as = bs
  | [], [], _ => rfl
  | [], _ :: _, h => nomatch h
  | _ :: _, [], h => nomatch h
  | a :: as, b :: bs, h => by
    obtain ⟨ha, has⟩ := Ordering.then_eq_eq.mp h
    rw [eq_of_compare ha, eq_of_compareList has]
end

mutual
theorem compare_swap : ∀ a b : Expr, b.compare a = (a.compare b).swap
  | num m, num n => Coefficient.compare_swap m n
  | var x, var y => Std.OrientedOrd.eq_swap (α := String)
  | call f as, call g bs => by
    show (compare g f).then _ = ((compare f g).then _).swap
    rw [Ordering.swap_then, compareList_swap as bs, Std.OrientedOrd.eq_swap (a := g)]
  | op o as, op p bs => by
    show (p.compare o).then _ = ((o.compare p).then _).swap
    rw [Ordering.swap_then, compareList_swap as bs, Operator.compare_swap o p]
  | num _, var _ | num _, call .. | num _, op .. => rfl
  | var _, num _ | var _, call .. | var _, op .. => rfl
  | call .., num _ | call .., var _ | call .., op .. => rfl
  | op .., num _ | op .., var _ | op .., call .. => rfl

theorem compareList_swap : ∀ as bs : List Expr, compareList bs as = (compareList as bs).swap
  | [], [] => rfl
  | [], _ :: _ => rfl
  | _ :: _, [] => rfl
  | a :: as, b :: bs => by
    show (Expr.compare b a).then _ = ((Expr.compare a b).then _).swap
    rw [Ordering.swap_then, compare_swap a b, compareList_swap as bs]
end

-- Of two expressions of different kinds the first is smaller or greater whatever their parts are, so
-- only the cases of one kind are left.
mutual
theorem compare_trans : ∀ (a : Expr) {b c : Expr}, a.compare b = .lt → b.compare c = .lt →
    a.compare c = .lt
  | num l, b, c, h₁, h₂ => by
    cases b <;> cases c <;> first | rfl | (cases h₁; done) | cases h₂ | skip
    exact Coefficient.compare_lt_iff.mpr
      ((Coefficient.compare_lt_iff.mp h₁).trans (Coefficient.compare_lt_iff.mp h₂))
  | var x, b, c, h₁, h₂ => by
    cases b <;> cases c <;> first | rfl | (cases h₁; done) | cases h₂ | skip
    exact string_trans h₁ h₂
  | call f as, b, c, h₁, h₂ => by
    cases b <;> cases c <;> first | rfl | (cases h₁; done) | cases h₂ | skip
    exact then_trans Std.LawfulEqOrd.eq_of_compare string_trans (compareList_trans as) h₁ h₂
  | op o as, b, c, h₁, h₂ => by
    cases b <;> cases c <;> first | cases h₁ | cases h₂ | skip
    exact then_trans Operator.eq_of_compare Operator.compare_trans (compareList_trans as) h₁ h₂

theorem compareList_trans : ∀ (as : List Expr) {bs cs : List Expr}, compareList as bs = .lt →
    compareList bs cs = .lt → compareList as cs = .lt
  | [], _ :: _, _ :: _, _, _ => rfl
  | a :: as, _ :: _, _ :: _, h₁, h₂ =>
    then_trans eq_of_compare (compare_trans a) (compareList_trans as) h₁ h₂
end

end Expr

/-! ## 3. Variables -/

namespace Variable

/-- A variable that is not a kernel around a bare name. -/
def Proper : Variable → Prop
  | kernel (.var _) => False
  | _ => True

instance : DecidablePred Proper
  | kernel (.var _) => isFalse id
  | kernel (.num _) | kernel (.call ..) | kernel (.op ..) => isTrue trivial
  | symbol _ | temporary _ => isTrue trivial

theorem compare_swap (u v : Variable) : v.compare u = (u.compare v).swap := by
  cases u <;> cases v <;> first | exact Expr.compare_swap _ _ | rfl | exact Std.OrientedOrd.eq_swap

/-- Symbols and kernels are compared as the expressions they stand for. -/
theorem compare_eq_toExpr {u v : Variable} (hu : ∀ s, u ≠ temporary s)
    (hv : ∀ s, v ≠ temporary s) : u.compare v = u.toExpr.compare v.toExpr := by
  cases u <;> cases v <;> first | rfl | exact absurd rfl (hu _) | exact absurd rfl (hv _)

/-- Temporaries come last. -/
theorem compare_temporary {t : Nat} {v : Variable} (hv : ∀ s, v ≠ temporary s) :
    (temporary t).compare v = .gt := by
  cases v <;> first | rfl | exact absurd rfl (hv _)

theorem compare_trans {u v w : Variable} (h₁ : u.compare v = .lt) (h₂ : v.compare w = .lt) :
    u.compare w = .lt := by
  by_cases hw : ∀ s, w ≠ temporary s
  · have hv : ∀ s, v ≠ temporary s := by
      rintro s rfl
      rw [compare_temporary hw] at h₂
      cases h₂
    have hu : ∀ s, u ≠ temporary s := by
      rintro s rfl
      rw [compare_temporary hv] at h₁
      cases h₁
    rw [compare_eq_toExpr hu hv] at h₁
    rw [compare_eq_toExpr hv hw] at h₂
    rw [compare_eq_toExpr hu hw]
    exact Expr.compare_trans _ h₁ h₂
  · obtain ⟨r, hw⟩ := not_forall.mp hw
    cases not_not.mp hw
    cases u with
    | symbol x => rfl
    | kernel a => rfl
    | temporary s =>
      cases v with
      | symbol y => cases h₁
      | kernel b => cases h₁
      | temporary t =>
        rw [Variable.compare, Nat.compare_eq_lt] at h₁ h₂ ⊢
        exact h₁.trans h₂

/-- **Only equal proper variables compare equal.** -/
theorem eq_of_compare {u v : Variable} (hu : u.Proper) (hv : v.Proper) (h : u.compare v = .eq) :
    u = v := by
  cases u with
  | temporary s =>
    cases v with
    | symbol y => cases h
    | kernel b => cases h
    | temporary t => exact congrArg temporary (Nat.compare_eq_eq.mp h)
  | symbol x =>
    cases v with
    | temporary t => cases h
    | symbol y => exact congrArg symbol (Expr.var.inj (Expr.eq_of_compare h))
    | kernel b =>
      cases (Expr.eq_of_compare h : Expr.var x = b)
      exact hv.elim
  | kernel a =>
    cases v with
    | temporary t => cases h
    | kernel b => exact congrArg kernel (Expr.eq_of_compare h)
    | symbol y =>
      cases (Expr.eq_of_compare h : a = Expr.var y)
      exact hu.elim

theorem compare_self (v : Variable) : v.compare v = .eq := by
  have := compare_swap v v
  cases h : v.compare v <;> rw [h] at this <;> first | rfl | cases this

theorem compare_gt_iff {u v : Variable} : u.compare v = .gt ↔ v.compare u = .lt := by
  rw [compare_swap u v]
  cases u.compare v <;> simp

/-- **Variables that compare equal compare alike with every other.** -/
theorem compare_congr {u v : Variable} (h : u.compare v = .eq) (w : Variable) :
    u.compare w = v.compare w := by
  by_cases hu : ∀ s, u ≠ temporary s
  · have hv : ∀ s, v ≠ temporary s := by
      rintro s rfl
      rw [compare_swap (temporary s) u, compare_temporary hu] at h
      cases h
    rw [compare_eq_toExpr hu hv] at h
    have same := Expr.eq_of_compare h
    by_cases hw : ∀ s, w ≠ temporary s
    · rw [compare_eq_toExpr hu hw, compare_eq_toExpr hv hw, same]
    · obtain ⟨r, hw⟩ := not_forall.mp hw
      cases not_not.mp hw
      rw [compare_swap (temporary r) u, compare_swap (temporary r) v, compare_temporary hu,
        compare_temporary hv]
  · obtain ⟨s, hu⟩ := not_forall.mp hu
    cases not_not.mp hu
    cases v with
    | symbol y => cases h
    | kernel b => cases h
    | temporary t => rw [Nat.compare_eq_eq.mp h]

/-- What compares equal: one temporary, or two other variables that stand for one expression. -/
theorem compare_eq_iff {u v : Variable} : u.compare v = .eq ↔
    (∃ t, u = temporary t ∧ v = temporary t) ∨
      (∀ t, u ≠ temporary t) ∧ (∀ t, v ≠ temporary t) ∧ u.toExpr = v.toExpr := by
  constructor
  · intro h
    by_cases hu : ∀ t, u ≠ temporary t
    · have hv : ∀ t, v ≠ temporary t := by
        rintro t rfl
        rw [compare_swap (temporary t) u, compare_temporary hu] at h
        cases h
      rw [compare_eq_toExpr hu hv] at h
      exact .inr ⟨hu, hv, Expr.eq_of_compare h⟩
    · obtain ⟨t, hu⟩ := not_forall.mp hu
      cases not_not.mp hu
      cases v with
      | symbol y => cases h
      | kernel b => cases h
      | temporary s => exact .inl ⟨t, rfl, congrArg temporary (Nat.compare_eq_eq.mp h).symm⟩
  · intro h
    rcases h with ⟨t, rfl, rfl⟩ | ⟨hu, hv, same⟩
    · exact compare_self _
    · rw [compare_eq_toExpr hu hv, same, ← compare_eq_toExpr hv hv]
      exact compare_self v

end Variable

/-! ## 4. Total orders -/

/-- A comparison is total if it can be turned round and no value tells those that compare equal
    apart. -/
theorem transCmp_of_congr {α : Type} {cmp : α → α → Ordering}
    (swap : ∀ a b, cmp b a = (cmp a b).swap)
    (congr : ∀ {a b}, cmp a b = .eq → ∀ c, cmp a c = cmp b c)
    (trans : ∀ {a b c}, cmp a b = .lt → cmp b c = .lt → cmp a c = .lt) : Std.TransCmp cmp where
  eq_swap {a b} := swap b a
  isLE_trans {a b c} hab hbc := by
    cases first : cmp a b with
    | gt =>
      rw [first] at hab
      cases hab
    | eq =>
      rw [congr first]
      exact hbc
    | lt =>
      have less : cmp a c = .lt := by
        cases second : cmp b c with
        | gt =>
          rw [second] at hbc
          cases hbc
        | eq => rw [swap c a, ← congr second a, ← swap b a, first]
        | lt => exact trans first second
      rw [less]
      rfl

theorem Expr.compare_eq_iff {a b : Expr} : a.compare b = .eq ↔ a = b := by
  refine ⟨eq_of_compare, ?_⟩
  rintro rfl
  have := compare_swap a a
  cases h : a.compare a <;> rw [h] at this <;> first | rfl | cases this

instance : Std.TransCmp Expr.compare :=
  transCmp_of_congr Expr.compare_swap (fun h _ => Expr.eq_of_compare h ▸ rfl) (Expr.compare_trans _)

instance : Std.TransCmp Variable.compare :=
  transCmp_of_congr Variable.compare_swap Variable.compare_congr Variable.compare_trans

/-- **The orders on expressions and on variables are total**: comparing the other way round reverses the
    outcome, and "at most" passes on. Only equal expressions compare equal, whatever their operands;
    of variables, one temporary with itself, and any two others that stand for one expression. So only
    equal ones do among the variables that are no kernel around a bare name. -/
theorem compare_total :
    Std.TransCmp Expr.compare ∧ (∀ a b : Expr, a.compare b = .eq ↔ a = b) ∧
      Std.TransCmp Variable.compare ∧
      (∀ u v : Variable, u.compare v = .eq ↔
        (∃ t, u = .temporary t ∧ v = .temporary t) ∨
          (∀ t, u ≠ .temporary t) ∧ (∀ t, v ≠ .temporary t) ∧ u.toExpr = v.toExpr) ∧
      ∀ u v : Variable, u.Proper → v.Proper → (u.compare v = .eq ↔ u = v) := by
  refine ⟨inferInstance, fun a b => Expr.compare_eq_iff, inferInstance,
    fun u v => Variable.compare_eq_iff, fun u v hu hv => ⟨Variable.eq_of_compare hu hv, ?_⟩⟩
  rintro rfl
  exact Variable.compare_self u

/-- A name compares equal to the kernel around it, which is another variable; a sum without operands and a
    call of that name with one are told apart. -/
theorem compare_total_at :
    let name := Variable.symbol "x"
    let bare := Variable.kernel (.var "x")
    let sum := Variable.kernel (.op .add [])
    let call := Variable.kernel (.call "x" [.op .neg []])
    name ≠ bare ∧ name.compare bare = .eq ∧ sum.Proper ∧ call.Proper ∧
      (sum.compare call = .eq ↔ sum = call) ∧ sum.compare call = .gt := by
  intro name bare sum call
  obtain ⟨-, -, -, alike, apart⟩ := compare_total
  have ps : sum.Proper := trivial
  have pc : call.Proper := trivial
  exact ⟨nofun, (alike name bare).mpr (.inr ⟨nofun, nofun, rfl⟩), ps, pc, apart sum call ps pc, rfl⟩

end Eliminant
