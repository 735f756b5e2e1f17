import Eliminant.Proofs.Expr.Normal

/-!
# Normalizing adds no names

`Expr.names` are the names of the variables of an expression. A normal form has no other names than the
expression (`Expr.normalize_over`): every part of it is a number or a part of the expression.
-/

namespace Eliminant

namespace Expr

mutual
/-- The names of the variables of an expression. -/
def names : Expr → List String
  | num _ => []
  | var x => [x]
  | call _ args | op _ args => namesList args

/-- The names of the variables of an operand list. -/
def namesList : List Expr → List String
  | [] => []
  | a :: as => names a ++ namesList as
end

/-- An expression in variables of the given names. -/
def Over (known : List String) (a : Expr) : Prop := a.names ⊆ known

variable {known : List String} {a b r : Expr} {as bs args : List Expr} {c e : Coefficient}
  {o : Operator} {f : String} {tally : Tally}

theorem namesList_subset_iff : namesList as ⊆ known ↔ ∀ a ∈ as, a.Over known := by
  induction as with
  | nil => simp [namesList]
  | cons a as ih => rw [namesList, List.append_subset, ih, List.forall_mem_cons, Over]

@[simp] theorem over_num (n : Coefficient) : (num n).Over known := List.nil_subset _

@[simp] theorem over_op : (op o as).Over known ↔ ∀ a ∈ as, a.Over known := namesList_subset_iff

@[simp] theorem over_call : (call f as).Over known ↔ ∀ a ∈ as, a.Over known := namesList_subset_iff

/-! ## 1. Terms and factors -/

theorem flatten_over (h : ∀ a ∈ as, a.Over known) : ∀ a ∈ flatten o as, a.Over known := by
  fun_induction flatten o as with
  | case1 => exact h
  | case2 inner rest ih =>
    obtain ⟨first, later⟩ := List.forall_mem_cons.mp h
    exact List.forall_mem_append.mpr ⟨over_op.mp first, ih later⟩
  | case3 p inner rest _ ih =>
    obtain ⟨first, later⟩ := List.forall_mem_cons.mp h
    exact List.forall_mem_cons.mpr ⟨first, ih later⟩
  | case4 a rest _ ih =>
    obtain ⟨first, later⟩ := List.forall_mem_cons.mp h
    exact List.forall_mem_cons.mpr ⟨first, ih later⟩

theorem splitCoefficient_over (h : a.Over known) : a.splitCoefficient.2.Over known := by
  unfold splitCoefficient
  split <;> simp_all

theorem attachCoefficient_over (h : a.Over known) : (attachCoefficient c a).Over known := by
  unfold attachCoefficient
  split
  · exact h
  · split <;> simp_all

theorem splitExponent_over (h : a.Over known) : a.splitExponent.1.Over known := by
  unfold splitExponent
  split <;> simp_all

theorem factorsOf_over (h : a.Over known) : ∀ b ∈ factorsOf a, b.Over known := by
  unfold factorsOf
  split <;> simp_all

theorem sort_over (h : ∀ a ∈ as, a.Over known) : ∀ a ∈ sort as, a.Over known := fun a ha =>
  h a ((sortBy_perm Expr.compare as).mem_iff.mp ha)

theorem add_over (h : ∀ p ∈ tally, p.1.Over known) (ha : a.Over known) :
    ∀ p ∈ tally.add a c, p.1.Over known := by
  induction tally with
  | nil => exact List.forall_mem_singleton.mpr ha
  | cons entry rest ih =>
    obtain ⟨first, later⟩ := List.forall_mem_cons.mp h
    unfold Tally.add
    split
    · exact List.forall_mem_cons.mpr ⟨first, ih later⟩
    · exact List.forall_mem_cons.mpr ⟨first, later⟩
    · exact List.forall_mem_cons.mpr ⟨ha, h⟩

/-- Like terms and like factors are made from the operands. -/
theorem like_over (split : Expr → Expr × Coefficient)
    (names : ∀ a, a.Over known → (split a).1.Over known) (h : ∀ a ∈ as, a.Over known) :
    ∀ p ∈ as.foldl (fun tally a =>
      match a with
      | num _ => tally
      | a => Tally.add (split a).1 (split a).2 tally) [], p.1.Over known := by
  refine List.foldlRecOn (motive := fun t : Tally => ∀ p ∈ t, p.1.Over known) as _ (by simp) ?_
  intro tally ht a ha
  split
  · exact ht
  · exact add_over ht (names a (h a ha))

theorem likeTerms_over (h : ∀ a ∈ as, a.Over known) : ∀ p ∈ likeTerms as, p.1.Over known :=
  like_over (fun a => (a.splitCoefficient.2, a.splitCoefficient.1)) (fun _ => splitCoefficient_over) h

theorem likeFactors_over (h : ∀ a ∈ as, a.Over known) : ∀ p ∈ likeFactors as, p.1.Over known :=
  like_over splitExponent (fun _ => splitExponent_over) h

/-- A single operand needs no node. -/
theorem operands_over : (∀ a ∈ as, a.Over known) → Over known
    (match as with
      | [] => num c
      | [a] => a
      | as => op o as) := by
  intro h
  split
  · exact over_num _
  · exact h _ List.mem_cons_self
  · exact over_op.mpr h

/-! ## 2. Nodes -/

theorem sumNormal_over (h : ∀ a ∈ args, a.Over known) : (sumNormal args).Over known := by
  have terms := likeTerms_over (flatten_over (o := .add) h)
  unfold sumNormal
  dsimp only
  generalize constantPart (flatten .add args) = constant
  generalize attached : List.filterMap _ _ = as
  have collected : ∀ a ∈ as, a.Over known := by
    rw [← attached]
    intro b hb
    obtain ⟨⟨a, c⟩, ha, hb⟩ := List.mem_filterMap.mp hb
    dsimp only at hb
    split at hb
    · cases hb
    · cases hb
      exact attachCoefficient_over (terms _ ha)
  refine operands_over (sort_over ?_)
  split
  · exact collected
  · exact List.forall_mem_append.mpr ⟨collected, by simp⟩

/-- The exponents of powers may be any. -/
theorem productWith_over {power : Expr → Coefficient → Except Failure Expr}
    (names : ∀ b e, b.Over known → Answers (fun _ => True) (Over known) (power b e))
    (h : ∀ a ∈ args, a.Over known) :
    Answers (fun _ => True) (Over known) (productWith power args) := by
  have factors := likeFactors_over (flatten_over (o := .mul) h)
  unfold productWith
  dsimp only
  split
  · exact over_num _
  refine (Answers.mapM fun p hp => names p.1 p.2 (factors p hp)).bind fun powers hp => ?_
  have sorted : ∀ a ∈ sort ((powers.flatMap factorsOf).filter (!·.isNumber)), a.Over known := by
    refine sort_over fun a ha => ?_
    obtain ⟨b, hb, ha⟩ := List.mem_flatMap.mp (List.mem_filter.mp ha).1
    obtain ⟨p, -, names⟩ := exists_of_mem_forall₂ hp hb
    exact factorsOf_over names a ha
  split
  · exact over_num _
  split
  · exact over_num _
  · rename_i one
    have := sorted _ (one ▸ List.mem_cons_self)
    show Over known (if _ then _ else _)
    split
    · exact this
    · simpa using this
  · exact attachCoefficient_over (over_op.mpr sorted)

theorem numericPower_over (b e : Coefficient) :
    Answers (fun _ => True) (Over known) (numericPower b e) := by
  unfold numericPower
  repeat' split
  all_goals first | trivial | exact over_num _ | simp [Answers]

theorem powerOf_over (depth : Nat) : ∀ base e, base.Over known →
    Answers (fun _ => True) (Over known) (powerOf depth base e) := by
  induction depth with
  | zero => exact fun base e h => over_op.mpr (by simpa using h)
  | succ depth ih =>
    intro base e h
    have whole : (op .pow [base, num e]).Over known := over_op.mpr (by simpa using h)
    unfold powerOf
    split
    · exact over_num _
    split
    · exact h
    split
    · exact numericPower_over _ e
    · rename_i b f
      split
      · exact ih b (f * e) (over_op.mp h b List.mem_cons_self)
      · exact whole
    · rename_i factors
      split
      · refine (Answers.mapM fun a ha => ih a e (over_op.mp h a ha)).bind fun powers hp => ?_
        refine productWith_over ih fun b hb => ?_
        obtain ⟨a, -, names⟩ := exists_of_mem_forall₂ hp hb
        exact names
      · exact whole
    · exact whole

theorem powerNormal_over (ha : a.Over known) (hb : b.Over known) :
    Answers (fun _ => True) (Over known) (powerNormal a b) := by
  unfold powerNormal
  split
  · exact powerOf_over _ a _ ha
  · show Over known (if _ then _ else _)
    split
    · exact over_num _
    · exact over_op.mpr (by simpa using ⟨ha, hb⟩)

theorem productNormal_over (h : ∀ a ∈ args, a.Over known) :
    Answers (fun _ => True) (Over known) (productNormal args) := productWith_over (powerOf_over _) h

theorem nodeNormal_over (o : Operator) (h : ∀ a ∈ args, a.Over known) :
    Answers (fun _ => True) (Over known) (nodeNormal o args) := by
  have minus : minusOne.Over known := over_num _
  unfold nodeNormal
  split
  · exact sumNormal_over h
  · exact productNormal_over h
  · simp only [List.forall_mem_cons] at h
    refine (productNormal_over (by simpa using ⟨minus, h.2.1⟩)).bind fun r hr => ?_
    exact sumNormal_over (by simpa using ⟨h.1, hr⟩)
  · simp only [List.forall_mem_cons] at h
    exact productNormal_over (by simpa using ⟨minus, h.1⟩)
  · simp only [List.forall_mem_cons] at h
    refine (powerNormal_over h.2.1 minus).bind fun r hr => ?_
    exact productNormal_over (by simpa using ⟨h.1, hr⟩)
  · simp only [List.forall_mem_cons] at h
    exact powerNormal_over h.1 h.2.1
  · exact over_op.mpr h

/-! ## 3. Expressions -/

mutual
/-- **Normalizing adds no names.** -/
theorem normalize_over : ∀ a : Expr, a.Over known → Answers (fun _ => True) (Over known) (normalize a)
  | num n, h => by
    unfold normalize
    exact h
  | var x, h => by
    unfold normalize
    exact h
  | call f args, h => by
    unfold normalize
    exact (normalizeList_over args (over_call.mp h)).bind fun bs hbs => over_call.mpr hbs
  | op o args, h => by
    unfold normalize
    refine (normalizeList_over args (over_op.mp h)).bind fun bs hbs => ?_
    split
    · exact nodeNormal_over o hbs
    · exact over_op.mpr hbs

theorem normalizeList_over : ∀ as : List Expr, (∀ a ∈ as, a.Over known) →
    Answers (fun _ => True) (fun bs => ∀ b ∈ bs, b.Over known) (normalizeList as)
  | [], h => by
    unfold normalizeList
    exact h
  | a :: as, h => by
    obtain ⟨first, later⟩ := List.forall_mem_cons.mp h
    unfold normalizeList
    refine (normalize_over a first).bind fun b hb => ?_
    exact (normalizeList_over as later).bind fun bs hbs => List.forall_mem_cons.mpr ⟨hb, hbs⟩
end

/-- **A normal form** has the value of the expression and no other names. -/
theorem normalize_answers {K : Type} [Field K] [LinearOrder K] [IsStrictOrderedRing K]
    (I : Interpretation K) (names : a.Over known) :
    Answers Failure.IsMagnitude (fun b => Keeps I a b ∧ b.Over known) (normalize a) :=
  ((normalize_keeps a).and (normalize_over a names)).mono (fun _ h => h.1) fun _ => id

end Expr

end Eliminant
