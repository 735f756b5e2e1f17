import Eliminant.Proofs.Expr.Weight

/-!
# When a normal form is its own normal form

Normal forms are arranged, but they need not be collected: a sum that is left with the coefficient `1` stays in the
sum around it, and a power whose exponents add up to `1` releases its base beside others like it. Normalizing such
a normal form once more changes it, and makes it lighter.

* `Expr.normalize_settles`: one more pass leaves an arranged expression as it is, or makes it lighter;
* **`Expr.normalize_idempotent_iff`**: normal forms stay as they are if and only if they are collected;
* `Expr.passes_settle`: normalizing again and again comes to an end.
-/

namespace Eliminant

namespace Expr

variable {a b r : Expr} {as bs args : List Expr} {o : Operator}

/-! ## 1. Nodes -/

/-- **A node weighs no more** when it is normalized, if it is none that is rewritten in terms of others. -/
theorem weight_nodeNormal_le (accepts : o.accepts args.length = true) (order : Arranged o as)
    (h : nodeNormal o args = .ok r) : weight r ≤ weight (op o args) := by
  have run := (nodeRuns_iff accepts).mpr h
  cases run with
  | add run =>
    obtain ⟨node, bound⟩ := weight_of_two_le .add args (by simp) (of_decide_eq_true accepts)
    rw [← sumRuns_iff.mp run]
    have le := (weight_sumNormal args).1
    omega
  | mul run =>
    obtain ⟨node, bound⟩ := weight_of_two_le .mul args (by simp) (of_decide_eq_true accepts)
    have le := run.weight_le.of_ok rfl
    omega
  | sub | neg | div => exact order.elim
  | pow run =>
    rename_i b e
    have le := run.weight_le.of_ok rfl
    have cost := factorCost_le b e
    rw [weight_pow, weight]
    omega
  | opaquePow =>
    rename_i b e _
    have base := three_le_weight b
    have exponent := three_le_weight e
    split
    · rw [weight_pow, weight]
      omega
    · exact Nat.le_refl _
  | subscript | prime => exact Nat.le_refl _

/-- A node of collected operands is collected and stays as it is, or it gets lighter. -/
theorem nodeNormal_settles (accepts : o.accepts args.length = true) (order : Arranged o args)
    (arranged : ∀ a ∈ args, IsArranged a) (h : nodeNormal o args = .ok r) :
    r = op o args ∧ Collected o args ∨ weight r < weight (op o args) := by
  have le := weight_nodeNormal_le accepts order h
  refine (lt_or_eq_of_le le).symm.imp_left fun same => ?_
  cases o with
  | add =>
    obtain ⟨node, bound⟩ := weight_of_two_le .add args (by simp) (of_decide_eq_true accepts)
    cases h
    obtain ⟨collected, split⟩ := (weight_sumNormal args).2 (by omega) (by omega)
    have sorted : sort args = args := order
    exact ⟨by rw [sumNormal_of_collected collected (of_decide_eq_true accepts) split, sorted], collected⟩
  | mul =>
    obtain ⟨node, bound⟩ := weight_of_two_le .mul args (by simp) (of_decide_eq_true accepts)
    have collected := (productRuns_iff.mpr h).collected (by omega) (by omega)
    have whole := productNormal_of_collected collected (of_decide_eq_true accepts) order arranged
    exact ⟨Except.ok.inj (h.symm.trans whole), collected⟩
  | pow =>
    obtain ⟨b, e, rfl, power⟩ := order
    exact ⟨Except.ok.inj (h.symm.trans power), trivial⟩
  | sub | neg | div => exact order.elim
  | subscript | prime => exact ⟨(Except.ok.inj h).symm, trivial⟩

/-! ## 2. Expressions -/

mutual
/-- **One more pass** leaves an arranged expression as it is, which is then collected, or makes it lighter. -/
theorem normalize_settles : ∀ a : Expr, IsArranged a → Answers (fun _ => True)
    (fun r => r = a ∧ IsCollected a ∨ weight r < weight a) (normalize a)
  | num n, _ => by
    rw [normalize]
    exact .inl ⟨rfl, throughout_num n⟩
  | var x, _ => by
    rw [normalize]
    exact .inl ⟨rfl, throughout_var x⟩
  | call f args, arranged => by
    rw [normalize]
    refine (normalizeList_settles args (throughout_call.mp arranged)).bind fun bs settled => ?_
    obtain ⟨rfl, collected⟩ | ⟨-, lt⟩ := settled
    · exact .inl ⟨rfl, throughout_call.mpr collected⟩
    · refine .inr ?_
      rw [weight, weight]
      omega
  | op o args, arranged => by
    obtain ⟨order, operands⟩ := throughout_op.mp arranged
    rw [normalize]
    refine (normalizeList_settles args operands).bind fun bs settled => ?_
    obtain ⟨rfl, collected⟩ | ⟨each, lt⟩ := settled
    · split
      · rename_i accepts
        refine (Answers.all (nodeNormal o bs)).with_run.imp fun r run => ?_
        refine (nodeNormal_settles accepts (order accepts) operands run.1).imp_left fun same => ?_
        exact ⟨same.1, throughout_op.mpr ⟨fun _ => same.2, collected⟩⟩
      · rename_i refuses
        exact .inl ⟨rfl, throughout_op.mpr ⟨fun accepts => absurd accepts refuses, collected⟩⟩
    · have node := weight_op_lt (o := o) each lt
      split
      · rename_i accepts
        refine (Answers.all (nodeNormal o bs)).with_run.imp fun r run => .inr ?_
        have kept : o.accepts args.length = true := each.length_eq ▸ accepts
        exact (weight_nodeNormal_le accepts (order kept) run.1).trans_lt node
      · exact .inr node

theorem normalizeList_settles : ∀ as : List Expr, (∀ a ∈ as, IsArranged a) → Answers (fun _ => True)
    (fun bs => bs = as ∧ (∀ a ∈ as, IsCollected a) ∨
      List.Forall₂ (fun b a => weight b ≤ weight a) bs as ∧ weightList bs < weightList as) (normalizeList as)
  | [], _ => by
    rw [normalizeList]
    exact .inl ⟨rfl, List.forall_mem_nil _⟩
  | a :: as, arranged => by
    obtain ⟨first, later⟩ := List.forall_mem_cons.mp arranged
    rw [normalizeList]
    refine (normalize_settles a first).bind fun b hb => (normalizeList_settles as later).bind fun bs hbs => ?_
    have same (cs : List Expr) : List.Forall₂ (fun b a => weight b ≤ weight a) cs cs :=
      List.forall₂_same.mpr fun _ _ => Nat.le_refl _
    obtain ⟨rfl, collected⟩ | lighter := hb
    · obtain ⟨rfl, all⟩ | ⟨each, lt⟩ := hbs
      · exact .inl ⟨rfl, List.forall_mem_cons.mpr ⟨collected, all⟩⟩
      · exact .inr ⟨.cons (Nat.le_refl _) each, Nat.add_lt_add_left lt _⟩
    · obtain ⟨rfl, -⟩ | ⟨each, lt⟩ := hbs
      · exact .inr ⟨.cons lighter.le (same bs), Nat.add_lt_add_right lighter _⟩
      · exact .inr ⟨.cons lighter.le each, Nat.add_lt_add lighter lt⟩
end

/-- **A normal form is its own normal form if and only if it is collected**: its numbers are folded, no sum stands
    in a sum and no product in a product, and no like terms and no like factors are left. -/
theorem normalize_idempotent_iff (h : normalize a = .ok r) : normalize r = .ok r ↔ IsCollected r := by
  have arranged := (normalize_arranged a).of_ok h
  constructor
  · intro again
    obtain ⟨-, collected⟩ | lighter := (normalize_settles r arranged).of_ok again
    · exact collected
    · exact absurd lighter (Nat.lt_irrefl _)
  · exact normalize_of_collected r arranged

/-- `x*x*y`, the normal form of `(x*y)^(1/2)*(x*y)^(1/2)*x`, has like factors, and `y*x^2` has none. -/
theorem normalize_idempotent_iff_at :
    let x := var "x"
    let y := var "y"
    let root := op .pow [op .mul [x, y], op .div [int 1, int 2]]
    let r := op .mul [x, x, y]
    let s := op .mul [y, op .pow [x, int 2]]
    normalize (op .mul [root, root, x]) = .ok r ∧ ¬IsCollected r ∧ normalize r = .ok s ∧ IsCollected s := by
  intro x y root r s
  have first : normalize (op .mul [root, root, x]) = .ok r := by cbv
  have second : normalize r = .ok s := by cbv
  have third : normalize s = .ok s := by cbv
  refine ⟨first, fun collected => ?_, second, (normalize_idempotent_iff second).mp third⟩
  have same : Except.ok s = Except.ok r := second.symm.trans ((normalize_idempotent_iff first).mpr collected)
  have sizes : size s = size r := congrArg size (Except.ok.inj same)
  simp [s, r, x, y, int, size, sizeList] at sizes

/-! ## 3. Pass after pass -/

/-- `n` passes, one after the other. -/
def passes : Nat → Expr → Except Failure Expr
  | 0, a => .ok a
  | n + 1, a => do passes n (← normalize a)

/-- Passes that change nothing. -/
theorem passes_of_fixed (fixed : normalize a = .ok a) (n : Nat) : passes n a = .ok a := by
  induction n with
  | zero => rfl
  | succ n ih =>
    rw [passes, fixed]
    exact ih

/-- An arranged expression settles before it has lost all its weight. -/
theorem passes_of_weight_le (n : Nat) : ∀ a, IsArranged a → weight a ≤ n →
    Answers Failure.IsMagnitude (fun s => normalize s = .ok s) (passes n a) := by
  induction n with
  | zero =>
    intro a _ le
    have bound := three_le_weight a
    omega
  | succ n ih =>
    intro a arranged le
    have settled := (normalize_alike a).and ((normalize_arranged a).and (normalize_settles a arranged))
    refine (settled.with_run.mono (fun _ why => why.1) fun _ => id).bind fun r h => ?_
    obtain ⟨run, -, arranged, ⟨rfl, -⟩ | lighter⟩ := h
    · rw [passes_of_fixed run]
      exact run
    · exact ih r arranged (by omega)

/-- **Normalizing again and again comes to an end**: some number of passes gives an expression that stays as it is,
    or a pass meets an exponent that is too large. -/
theorem passes_settle (a : Expr) :
    ∃ n, Answers Failure.IsMagnitude (fun s => normalize s = .ok s) (passes n a) := by
  have first := (normalize_alike a).and (normalize_arranged a)
  cases run : normalize a with
  | error why =>
    refine ⟨1, ?_⟩
    rw [passes, run]
    exact (first.of_error run).1
  | ok r =>
    refine ⟨weight r + 1, ?_⟩
    rw [passes, run]
    exact passes_of_weight_le (weight r) r (first.of_ok run).2 (Nat.le_refl _)

end Expr

end Eliminant
