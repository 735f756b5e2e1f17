import Eliminant.Proofs.Expr.NormalSum

/-!
# Normal forms do not depend on the order of operands

Sums and products of the same operands have the same normal form, in whatever order the operands stand
(`Expr.sumNormal_eq_of_perm`, `Expr.productNormal_eq_of_perm`), and so do expressions whose sums and products
are shuffled anywhere (**`Expr.Shuffled.normalize_eq`**). What cannot be normalized has the same failure: there
is only one.
-/

namespace Eliminant

/-! ## 1. Operations on lists in another order -/

/-- The same answers in another order, or the same failure. -/
def Reordered {α : Type} : Except Failure (List α) → Except Failure (List α) → Prop
  | .ok as, .ok bs => as.Perm bs
  | .error e, .error e' => e = e'
  | _, _ => False

namespace Reordered

variable {α β : Type} {x y : Except Failure (List α)}

theorem refl (x : Except Failure (List α)) : Reordered x x := by
  cases x with
  | ok as => exact List.Perm.refl as
  | error e => exact rfl

theorem trans {z : Except Failure (List α)} (h : Reordered x y) (h' : Reordered y z) : Reordered x z := by
  cases x <;> cases y <;> cases z
  all_goals first
    | exact h.elim
    | exact h'.elim
    | exact h.trans h'

/-- **What does not depend on the order** is the same after both. -/
theorem bind_eq {k l : List α → Except Failure β} (h : Reordered x y)
    (same : ∀ as bs, as.Perm bs → k as = l bs) : (x >>= k) = (y >>= l) := by
  cases x <;> cases y
  · exact congrArg Except.error h
  · exact h.elim
  · exact h.elim
  · exact same _ _ h

/-- **One operation on the entries of a list**, where all of them fail in the same way. -/
theorem mapM {f : α → Except Failure β} {as bs : List α}
    (alike : ∀ a ∈ as, Answers Failure.IsMagnitude (fun _ => True) (f a)) (h : as.Perm bs) :
    Reordered (as.mapM f) (bs.mapM f) := by
  induction h with
  | nil => exact refl _
  | cons a h ih =>
    rw [List.mapM_cons, List.mapM_cons]
    cases f a with
    | error e => exact rfl
    | ok b =>
      have later := ih fun c hc => alike c (List.mem_cons_of_mem a hc)
      revert later
      cases List.mapM f _ <;> cases List.mapM f _
      · exact id
      · exact id
      · exact id
      · exact List.Perm.cons b
  | swap a b as =>
    have first := alike b List.mem_cons_self
    have second := alike a (List.mem_cons_of_mem b List.mem_cons_self)
    simp only [List.mapM_cons]
    cases hb : f b with
    | error e =>
      rw [hb] at first
      cases first
      cases ha : f a with
      | error e =>
        rw [ha] at second
        cases second
        exact rfl
      | ok a => exact rfl
    | ok d =>
      cases ha : f a with
      | error e => exact rfl
      | ok c =>
        cases List.mapM f as with
        | error e => exact rfl
        | ok cs => exact List.Perm.swap c d cs
  | trans h _ ih ih' =>
    exact (ih alike).trans (ih' fun a ha => alike a (h.mem_iff.mpr ha))

end Reordered

namespace Expr

variable {a b : Expr} {as bs : List Expr} {o : Operator} {power : Expr → Coefficient → Except Failure Expr}

/-! ## 2. Sums -/

/-- The sum of the terms of a tally and a number. -/
def sumOfTally (constant : Coefficient) (tally : Tally) : Expr :=
  let collected := tally.filterMap fun (a, c) => if c.isZero then none else some (attachCoefficient c a)
  match sort (if constant.isZero then collected else collected ++ [num constant]) with
  | [] => num .zero
  | [a] => a
  | sorted => op .add sorted

theorem sumNormal_eq_sumOfTally (args : List Expr) :
    sumNormal args = sumOfTally (constantPart (flatten .add args)) (likeTerms (flatten .add args)) := rfl

theorem sumOfTally_eq_of_perm {t u : Tally} (c : Coefficient) (h : t.Perm u) :
    sumOfTally c t = sumOfTally c u := by
  unfold sumOfTally
  dsimp only
  have terms := h.filterMap fun p => if p.2.isZero then none else some (attachCoefficient p.2 p.1)
  rw [sort_eq_of_perm (show List.Perm (if c.isZero then _ else _) (if c.isZero then _ else _) from ?_)]
  split
  · exact terms
  · exact terms.append_right _

theorem flatten_eq_flatMap (o : Operator) (as : List Expr) :
    flatten o as = as.flatMap fun a => flatten o [a] := by
  have opened (a : Expr) (as : List Expr) : flatten o (a :: as) = flatten o [a] ++ flatten o as := by
    cases a with
    | op p inner =>
      simp only [flatten]
      split
      · rw [List.append_nil]
      · rfl
    | num _ | var _ | call _ _ => rfl
  induction as with
  | nil => rfl
  | cons a as ih => rw [opened, ih, List.flatMap_cons]

theorem flatten_perm (o : Operator) (h : as.Perm bs) : (flatten o as).Perm (flatten o bs) := by
  rw [flatten_eq_flatMap, flatten_eq_flatMap]
  exact h.flatMap_right _

theorem constantPart_eq_of_perm (h : as.Perm bs) : constantPart as = constantPart bs := by
  refine Coefficient.toRat_injective ?_
  rw [toRat_constantPart, toRat_constantPart]
  exact (h.map summand).sum_eq

theorem likeTerms_eq_of_perm (h : as.Perm bs) : likeTerms as = likeTerms bs := by
  rw [likeTerms_eq, likeTerms_eq]
  exact Tally.collect_eq_of_perm ((h.filter _).map _)

/-- **Sums of the same terms.** -/
theorem sumNormal_eq_of_perm (h : as.Perm bs) : sumNormal as = sumNormal bs := by
  have flat := flatten_perm .add h
  rw [sumNormal_eq_sumOfTally, sumNormal_eq_sumOfTally, constantPart_eq_of_perm flat, likeTerms_eq_of_perm flat]

/-! ## 3. Products -/

/-- The product of a number and of what the powers of a product are. -/
def productOfPowers (given : Coefficient) (powers : List Expr) : Expr :=
  let factors := powers.flatMap factorsOf
  let coefficient := given * numericPart factors
  if coefficient.isZero then num .zero
  else
    match sort (factors.filter (!·.isNumber)) with
    | [] => num coefficient
    | [a] => if coefficient.isOne then a else op .mul [num coefficient, a]
    | sorted => attachCoefficient coefficient (op .mul sorted)

theorem productWith_eq_productOfPowers (args : List Expr) : productWith power args =
    if (numericPart (flatten .mul args)).isZero then .ok (num .zero)
    else do
      let powers ← (likeFactors (flatten .mul args)).mapM fun p => power p.1 p.2
      return productOfPowers (numericPart (flatten .mul args)) powers := by
  unfold productWith
  dsimp only
  split
  · rfl
  refine bind_congr fun powers => ?_
  unfold productOfPowers
  dsimp only
  split
  · rfl
  generalize sort _ = sorted
  obtain _ | ⟨a, _ | ⟨b, cs⟩⟩ := sorted
  all_goals rfl

theorem numericPart_eq_of_perm (h : as.Perm bs) : numericPart as = numericPart bs := by
  refine Coefficient.toRat_injective ?_
  rw [toRat_numericPart, toRat_numericPart]
  exact (h.map scalar).prod_eq

theorem likeFactors_eq_of_perm (h : as.Perm bs) : likeFactors as = likeFactors bs := by
  rw [likeFactors_eq, likeFactors_eq]
  exact Tally.collect_eq_of_perm ((h.filter _).map _)

theorem productOfPowers_eq_of_perm (c : Coefficient) (h : as.Perm bs) :
    productOfPowers c as = productOfPowers c bs := by
  have factors := h.flatMap_right factorsOf
  unfold productOfPowers
  dsimp only
  rw [numericPart_eq_of_perm factors, sort_eq_of_perm (factors.filter _)]

theorem productWith_eq_of_perm (h : as.Perm bs) : productWith power as = productWith power bs := by
  have flat := flatten_perm .mul h
  rw [productWith_eq_productOfPowers, productWith_eq_productOfPowers, numericPart_eq_of_perm flat, likeFactors_eq_of_perm flat]

theorem sizeList_eq_sum (as : List Expr) : sizeList as = (as.map size).sum := by
  induction as with
  | nil => rfl
  | cons a as ih => rw [sizeList, ih, List.map_cons, List.sum_cons]

theorem sizeList_eq_of_perm (h : as.Perm bs) : sizeList as = sizeList bs := by
  rw [sizeList_eq_sum, sizeList_eq_sum]
  exact (h.map size).sum_eq

/-- **Products of the same factors.** -/
theorem productNormal_eq_of_perm (h : as.Perm bs) : productNormal as = productNormal bs := by
  rw [productNormal, productNormal, sizeList_eq_of_perm h, productWith_eq_of_perm h]

/-! ## 4. Shuffled expressions -/

/-- **Expressions whose sums and products are shuffled**, any number of them and anywhere, in arguments of calls
    and in nodes that are not opened too. -/
inductive Shuffled : Expr → Expr → Prop
  | refl (a : Expr) : Shuffled a a
  | trans {a b c : Expr} : Shuffled a b → Shuffled b c → Shuffled a c
  | sum {as bs : List Expr} : as.Perm bs → Shuffled (op .add as) (op .add bs)
  | product {as bs : List Expr} : as.Perm bs → Shuffled (op .mul as) (op .mul bs)
  | argument (f : String) (ls rs : List Expr) {a b : Expr} :
      Shuffled a b → Shuffled (call f (ls ++ a :: rs)) (call f (ls ++ b :: rs))
  | operand (o : Operator) (ls rs : List Expr) {a b : Expr} :
      Shuffled a b → Shuffled (op o (ls ++ a :: rs)) (op o (ls ++ b :: rs))

theorem normalizeList_eq_mapM (as : List Expr) : normalizeList as = as.mapM normalize := by
  induction as with
  | nil => rw [normalizeList]; rfl
  | cons a as ih => rw [normalizeList, List.mapM_cons, ih]

/-- There is only one failure. -/
theorem normalize_alike (a : Expr) : Answers Failure.IsMagnitude (fun _ => True) (normalize a) :=
  (normalize_keeps (I := .bare) a).imp fun _ _ => trivial

theorem normalizeList_eq_of_eq (ls rs : List Expr) (h : normalize a = normalize b) :
    normalizeList (ls ++ a :: rs) = normalizeList (ls ++ b :: rs) := by
  simp only [normalizeList_eq_mapM, List.mapM_append, List.mapM_cons, h]

/-- Operands that are shuffled before they are normalized. -/
theorem normalize_op_eq_of_perm
    (node : ∀ as bs, as.Perm bs → nodeNormal o as = nodeNormal o bs)
    (few : ∀ n, o.accepts n = false → n ≤ 1) (h : as.Perm bs) : normalize (op o as) = normalize (op o bs) := by
  rw [normalize, normalize, normalizeList_eq_mapM, normalizeList_eq_mapM]
  refine (Reordered.mapM (fun a _ => normalize_alike a) h).bind_eq fun cs ds perm => ?_
  rw [perm.length_eq]
  split
  · exact node cs ds perm
  · rename_i refuses
    -- there is nothing to shuffle in a malformed sum or product
    have short := few ds.length (Bool.not_eq_true _ ▸ refuses)
    obtain _ | ⟨d, _ | ⟨e, ds⟩⟩ := ds
    · rw [perm.eq_nil]
    · rw [List.perm_singleton.mp perm]
    · simp at short

theorem few_of_refuses (h : o.arity = none) : ∀ n, o.accepts n = false → n ≤ 1 := by
  intro n refuses
  rw [Operator.accepts, h] at refuses
  have := of_decide_eq_false refuses
  omega

/-- **Shuffled expressions have the same normal form**, or none of them has one. -/
theorem Shuffled.normalize_eq (h : Shuffled a b) : normalize a = normalize b := by
  induction h with
  | refl a => rfl
  | trans _ _ ih ih' => exact ih.trans ih'
  | sum h =>
    exact normalize_op_eq_of_perm (fun _ _ h => congrArg Except.ok (sumNormal_eq_of_perm h))
      (few_of_refuses rfl) h
  | product h => exact normalize_op_eq_of_perm (fun _ _ => productNormal_eq_of_perm) (few_of_refuses rfl) h
  | argument f ls rs _ ih => rw [normalize, normalize, normalizeList_eq_of_eq ls rs ih]
  | operand o ls rs _ ih => rw [normalize, normalize, normalizeList_eq_of_eq ls rs ih]

end Expr

end Eliminant
