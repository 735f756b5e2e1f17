import Eliminant.Proofs.Expr.Collected

/-!
# Normal forms are arranged

Whatever an expression looks like, its normal form is arranged: the operands of sums and products are in
ascending order, and no power can be taken any further. Every step puts arranged expressions together from
arranged expressions:

* `Expr.isArranged_attachCoefficient`, `Expr.isArranged_splitCoefficient`: terms and their coefficients;
* `Expr.isArranged_sumOfTally`, `Expr.isArranged_productOfPowers`: what is collected is sorted;
* `Expr.PowerRuns.arranged`, `Expr.ProductRuns.arranged`: powers and products, by induction on their runs;
* **`Expr.normalize_arranged`**: normal forms.
-/

namespace Eliminant

namespace Expr

variable {a b r : Expr} {as args factors : List Expr} {o : Operator} {c e : Coefficient} {t : Tally}

/-! ## 1. Terms and their coefficients -/

/-- The operands of a product are in order, also if there are too few of them. -/
theorem arranged_mul (h : IsArranged (op .mul factors)) : Arranged .mul factors := by
  rcases factors with _ | ⟨a, _ | ⟨b, more⟩⟩
  · exact ⟨[], [], rfl, List.forall_mem_nil _, List.forall_mem_nil _, rfl⟩
  · cases kind : a.isNumber with
    | true => exact ⟨[a], [], rfl, List.forall_mem_singleton.mpr kind, List.forall_mem_nil _, rfl⟩
    | false => exact ⟨[], [a], rfl, List.forall_mem_nil _, List.forall_mem_singleton.mpr kind, rfl⟩
  · exact (throughout_op.mp h).1 (by simp [Operator.accepts, Operator.arity])

theorem isArranged_mul (order : Arranged .mul factors) (h : ∀ a ∈ factors, IsArranged a) :
    IsArranged (op .mul factors) := throughout_op.mpr ⟨fun _ => order, h⟩

theorem Arranged.mul_cons (h : Arranged .mul factors) (c : Coefficient) : Arranged .mul (num c :: factors) := by
  obtain ⟨numbers, others, rfl, areNumbers, areNot, sorted⟩ := h
  exact ⟨num c :: numbers, others, rfl, List.forall_mem_cons.mpr ⟨rfl, areNumbers⟩, areNot, sorted⟩

/-- A coefficient in front of an arranged term. -/
theorem isArranged_attachCoefficient (h : IsArranged a) (c : Coefficient) : IsArranged (attachCoefficient c a) := by
  have number : IsArranged (num c) := throughout_num c
  unfold attachCoefficient
  split
  · exact h
  split
  · rename_i factors
    refine isArranged_mul ((arranged_mul h).mul_cons c) (List.forall_mem_cons.mpr ⟨number, ?_⟩)
    exact (throughout_op.mp h).2
  · have single : IsArranged (op .mul [a]) :=
      throughout_op.mpr ⟨fun accepts => (by cases accepts), List.forall_mem_singleton.mpr h⟩
    refine isArranged_mul ((arranged_mul single).mul_cons c) (List.forall_mem_cons.mpr ⟨number, ?_⟩)
    exact List.forall_mem_singleton.mpr h

/-- The rest of an arranged term. -/
theorem isArranged_splitCoefficient (h : IsArranged a) : IsArranged a.splitCoefficient.2 := by
  unfold splitCoefficient
  split
  · exact throughout_num _
  · exact (throughout_op.mp h).2 _ (List.mem_cons_of_mem _ List.mem_cons_self)
  · rename_i c factors _
    refine isArranged_mul ?_ fun a ha => (throughout_op.mp h).2 a (List.mem_cons_of_mem _ ha)
    obtain ⟨numbers, others, whole, areNumbers, areNot, sorted⟩ := arranged_mul h
    rcases numbers with _ | ⟨n, numbers⟩
    · -- the coefficient is a number, so it is none of the other factors
      have whole : num c :: factors = others := whole
      have first := areNot (num c) (whole ▸ List.mem_cons_self)
      cases first
    · obtain ⟨-, rfl⟩ := List.cons.inj whole
      exact ⟨numbers, others, rfl, (List.forall_mem_cons.mp areNumbers).2, areNot, sorted⟩
  · exact h

theorem isArranged_splitExponent (h : IsArranged a) : IsArranged a.splitExponent.1 := by
  unfold splitExponent
  split
  · exact (throughout_op.mp h).2 _ List.mem_cons_self
  · exact h

theorem isArranged_factorsOf (h : IsArranged a) : ∀ f ∈ factorsOf a, IsArranged f := by
  unfold factorsOf
  split
  · exact (throughout_op.mp h).2
  · exact List.forall_mem_singleton.mpr h

theorem isArranged_flatten (h : ∀ a ∈ as, IsArranged a) : ∀ a ∈ flatten o as, IsArranged a := by
  fun_induction flatten o as with
  | case1 => exact h
  | case2 inner rest ih =>
    obtain ⟨first, later⟩ := List.forall_mem_cons.mp h
    exact List.forall_mem_append.mpr ⟨(throughout_op.mp first).2, ih later⟩
  | case3 p inner rest _ ih =>
    obtain ⟨first, later⟩ := List.forall_mem_cons.mp h
    exact List.forall_mem_cons.mpr ⟨first, ih later⟩
  | case4 a rest _ ih =>
    obtain ⟨first, later⟩ := List.forall_mem_cons.mp h
    exact List.forall_mem_cons.mpr ⟨first, ih later⟩

/-! ## 2. Sums -/

theorem sort_sort (as : List Expr) : sort (sort as) = sort as := sort_eq_of_perm (sort_perm as)

theorem isArranged_sort (h : ∀ a ∈ as, IsArranged a) : ∀ a ∈ sort as, IsArranged a :=
  fun a ha => h a ((sort_perm as).mem_iff.mp ha)

theorem isArranged_likeTerms (h : ∀ a ∈ args, IsArranged a) : ∀ p ∈ likeTerms (flatten .add args), IsArranged p.1 := by
  rw [likeTerms_eq]
  refine Tally.forall_collect (fun _ _ _ h _ => h) (List.forall_mem_nil _) (List.forall_mem_map.mpr fun a ha => ?_)
  exact isArranged_splitCoefficient (isArranged_flatten h a (List.mem_of_mem_filter ha))

/-- **A sum of arranged terms.** -/
theorem isArranged_sumOfTally (h : ∀ p ∈ t, IsArranged p.1) (c : Coefficient) : IsArranged (sumOfTally c t) := by
  have terms : ∀ a ∈ (t.filter fun p => !p.2.isZero).map fun p => attachCoefficient p.2 p.1, IsArranged a :=
    List.forall_mem_map.mpr fun p hp => isArranged_attachCoefficient (h p (List.mem_of_mem_filter hp)) p.2
  unfold sumOfTally
  dsimp only
  rw [filterMap_nonzero]
  generalize List.map _ (List.filter _ t) = collected at terms
  have all : ∀ a ∈ if c.isZero then collected else collected ++ [num c], IsArranged a := by
    split
    · exact terms
    · exact List.forall_mem_append.mpr ⟨terms, List.forall_mem_singleton.mpr (throughout_num c)⟩
  generalize (if c.isZero then collected else collected ++ [num c]) = listed at all
  have arranged := isArranged_sort all
  have sorted := sort_sort listed
  generalize sort listed = result at arranged sorted
  rcases result with _ | ⟨a, _ | ⟨b, more⟩⟩
  · exact throughout_num _
  · exact arranged a List.mem_cons_self
  · exact throughout_op.mpr ⟨fun _ => sorted, arranged⟩

theorem SumRuns.arranged (h : SumRuns args r) (operands : ∀ a ∈ args, IsArranged a) : IsArranged r := by
  cases h with
  | visit perm => exact isArranged_sumOfTally (fun p hp => isArranged_likeTerms operands p (perm.mem_iff.mp hp)) _

/-! ## 3. Products and powers -/

/-- **A product of arranged powers.** -/
theorem isArranged_productOfPowers (h : ∀ a ∈ as, IsArranged a) (c : Coefficient) :
    IsArranged (productOfPowers c as) := by
  have factors : ∀ f ∈ (as.flatMap factorsOf).filter (!·.isNumber), IsArranged f ∧ f.isNumber = false := by
    intro f hf
    obtain ⟨mem, other⟩ := List.mem_filter.mp hf
    obtain ⟨a, ha, mem⟩ := List.mem_flatMap.mp mem
    exact ⟨isArranged_factorsOf (h a ha) f mem, by simpa using other⟩
  unfold productOfPowers
  dsimp only
  generalize c * _ = coefficient
  split
  · exact throughout_num _
  generalize (as.flatMap factorsOf).filter (!·.isNumber) = listed at factors
  have sorted := sort_sort listed
  have each : ∀ f ∈ sort listed, IsArranged f ∧ f.isNumber = false :=
    fun f hf => factors f ((sort_perm listed).mem_iff.mp hf)
  generalize sort listed = result at sorted each
  have order : Arranged .mul result := ⟨[], result, rfl, List.forall_mem_nil _, fun f hf => (each f hf).2, sorted⟩
  have arranged : ∀ f ∈ result, IsArranged f := fun f hf => (each f hf).1
  rcases result with _ | ⟨a, _ | ⟨b, more⟩⟩
  · exact throughout_num _
  · dsimp only
    split
    · exact arranged a List.mem_cons_self
    · exact isArranged_mul (order.mul_cons _) (List.forall_mem_cons.mpr ⟨throughout_num _, arranged⟩)
  · exact isArranged_attachCoefficient (isArranged_mul order arranged) coefficient

theorem isArranged_likeFactors (h : ∀ a ∈ args, IsArranged a) :
    ∀ p ∈ likeFactors (flatten .mul args), IsArranged p.1 := by
  rw [likeFactors_eq]
  refine Tally.forall_collect (fun _ _ _ h _ => h) (List.forall_mem_nil _) (List.forall_mem_map.mpr fun a ha => ?_)
  exact isArranged_splitExponent (isArranged_flatten h a (List.mem_of_mem_filter ha))

/-- A power that is its own normal form. -/
theorem isArranged_pow (hb : IsArranged b) (ha : IsArranged a) (power : powerNormal b a = .ok (op .pow [b, a])) :
    IsArranged (op .pow [b, a]) :=
  throughout_op.mpr ⟨fun _ => ⟨b, a, rfl, power⟩,
    List.forall_mem_cons.mpr ⟨hb, List.forall_mem_singleton.mpr ha⟩⟩

theorem numericPower_cases (b e : Coefficient) : Answers (fun _ => True)
    (fun r => r.isNumber = true ∨ r = op .pow [num b, num e]) (numericPower b e) := by
  unfold numericPower
  split
  · exact .inl rfl
  split
  · exact .inr rfl
  split
  · trivial
  split
  · exact .inr rfl
  split
  · exact .inl rfl
  split
  · exact .inl rfl
  · exact .inr rfl

mutual
theorem PowerRuns.arranged : ∀ {base : Expr} {e : Coefficient} {r : Except Failure Expr}, PowerRuns base e r →
    IsArranged base → Answers (fun _ => True) IsArranged r
  | _, _, _, .zero _, _ => throughout_num _
  | _, _, _, .one _ _, h => h
  | num b, e, _, .number zero one, h => by
    have run := PowerRuns.number (b := b) zero one
    refine ((numericPower_cases b e).with_run).imp fun r ⟨power, shape⟩ => ?_
    obtain number | rfl := shape
    · obtain ⟨c, rfl⟩ := eq_num_of_isNumber number
      exact throughout_num c
    · exact isArranged_pow h (throughout_num e) ((powerRuns_number.mp run).trans power)
  | _, _, _, .power _ _ _ run, h => run.arranged ((throughout_op.mp h).2 _ List.mem_cons_self)
  | _, _, _, .product _ _ _ runs run, h =>
    run.arranged (runs.arranged (List.forall_mem_map.mpr (throughout_op.mp h).2))
  | _, _, _, .productFails .., _ => trivial
  | _, e, _, .stays zero one stays, h =>
    isArranged_pow h (throughout_num e) (powerRuns_number.mp (.stays zero one stays))

theorem PowersRun.arranged : ∀ {ps : List (Expr × Coefficient)} {rs : Except Failure (List Expr)}, PowersRun ps rs →
    (∀ p ∈ ps, IsArranged p.1) → Answers (fun _ => True) (fun as => ∀ a ∈ as, IsArranged a) rs
  | _, _, .nil, _ => List.forall_mem_nil _
  | _, _, .cons run runs, h => by
    obtain ⟨first, later⟩ := List.forall_mem_cons.mp h
    exact List.forall_mem_cons.mpr ⟨run.arranged first, runs.arranged later⟩
  | _, _, .fails _, _ => trivial
  | _, _, .laterFails .., _ => trivial

theorem ProductRuns.arranged : ∀ {args : List Expr} {r : Except Failure Expr}, ProductRuns args r →
    (∀ a ∈ args, IsArranged a) → Answers (fun _ => True) IsArranged r
  | _, _, .zero _, _ => throughout_num _
  | _, _, .powers _ perm runs, h =>
    isArranged_productOfPowers (runs.arranged fun p hp => isArranged_likeFactors h p (perm.mem_iff.mp hp)) _
  | _, _, .fails .., _ => trivial
end

/-! ## 4. Normal forms -/

theorem isArranged_minusOne : IsArranged minusOne := throughout_num _

/-- **A node with arranged operands.** -/
theorem NodeRuns.arranged {r : Except Failure Expr} (h : NodeRuns o args r) (operands : ∀ a ∈ args, IsArranged a) :
    Answers (fun _ => True) IsArranged r := by
  have two {a b : Expr} (ha : IsArranged a) (hb : IsArranged b) : ∀ x ∈ [a, b], IsArranged x :=
    List.forall_mem_cons.mpr ⟨ha, List.forall_mem_singleton.mpr hb⟩
  have plain (p : Operator) (free : Arranged p args) : IsArranged (op p args) :=
    throughout_op.mpr ⟨fun _ => free, operands⟩
  cases h with
  | add run => exact run.arranged operands
  | mul run => exact run.arranged operands
  | sub product sum =>
    obtain ⟨first, second⟩ := List.forall_mem_cons.mp operands
    have opposite := product.arranged (two isArranged_minusOne (List.forall_mem_singleton.mp second))
    exact sum.arranged (two first opposite)
  | subFails _ => trivial
  | neg run => exact run.arranged (two isArranged_minusOne (List.forall_mem_singleton.mp operands))
  | div power product =>
    obtain ⟨first, second⟩ := List.forall_mem_cons.mp operands
    exact product.arranged (two first (power.arranged (List.forall_mem_singleton.mp second)))
  | divFails _ => trivial
  | pow run => exact run.arranged (List.forall_mem_cons.mp operands).1
  | opaquePow other =>
    rename_i b e
    obtain ⟨first, second⟩ := List.forall_mem_cons.mp operands
    have power := powerNormal_of_not_number (b := b) other
    show IsArranged _
    split
    · exact throughout_num _
    · rename_i one
      rw [if_neg one] at power
      exact isArranged_pow first (List.forall_mem_singleton.mp second) power
  | subscript => exact plain .subscript trivial
  | prime => exact plain .prime trivial

mutual
/-- **Normal forms are arranged.** -/
theorem normalize_arranged : ∀ a : Expr, Answers (fun _ => True) IsArranged (normalize a)
  | num n => by
    rw [normalize]
    exact throughout_num n
  | var x => by
    rw [normalize]
    exact throughout_var x
  | call f args => by
    rw [normalize]
    exact (normalizeList_arranged args).bind fun bs h => throughout_call.mpr h
  | op o args => by
    rw [normalize]
    refine (normalizeList_arranged args).bind fun bs h => ?_
    split
    · rename_i accepts
      exact ((nodeRuns_iff accepts).mpr rfl).arranged h
    · rename_i refuses
      exact throughout_op.mpr ⟨fun accepts => absurd accepts refuses, h⟩

theorem normalizeList_arranged : ∀ as : List Expr,
    Answers (fun _ => True) (fun bs => ∀ b ∈ bs, IsArranged b) (normalizeList as)
  | [] => by
    rw [normalizeList]
    exact List.forall_mem_nil _
  | a :: as => by
    rw [normalizeList]
    refine (normalize_arranged a).bind fun b hb => ?_
    exact (normalizeList_arranged as).bind fun bs hbs => List.forall_mem_cons.mpr ⟨hb, hbs⟩
end

end Expr

end Eliminant
