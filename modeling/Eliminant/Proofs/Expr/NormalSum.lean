import Eliminant.Proofs.Expr.NormalProduct

/-!
# Sums in normal form

What products in normal form add up to is a function from what their factors multiply to to their coefficient
(`totalOf`). A sum in normal form, `sumOf g`, is the sum of the products that `g` says, in their order, and
the normal form of a sum depends on nothing but what is added (**`sumNormal_products`**).
-/

namespace Eliminant

namespace Expr

variable {a b f : Expr} {as bs fs : List Expr} {o : Operator} {E F : Expr →₀ ℚ}
  {ms : List ((Expr →₀ ℚ) × ℚ)} {g : (Expr →₀ ℚ) →₀ ℚ}

/-! ## 1. What products add up to -/

/-- The products of a list, like ones added up. -/
noncomputable def totalOf (ms : List ((Expr →₀ ℚ) × ℚ)) : (Expr →₀ ℚ) →₀ ℚ :=
  (ms.map fun m => Finsupp.single m.1 m.2).sum

@[simp] theorem totalOf_nil : totalOf [] = 0 := rfl

@[simp] theorem totalOf_cons (m : (Expr →₀ ℚ) × ℚ) :
    totalOf (m :: ms) = Finsupp.single m.1 m.2 + totalOf ms := by
  simp [totalOf]

/-- What is added up has been listed. -/
theorem exists_of_mem_support (h : E ∈ (totalOf ms).support) : ∃ m ∈ ms, m.1 = E := by
  induction ms with
  | nil => simp at h
  | cons m ms ih =>
    rw [totalOf_cons, Finsupp.mem_support_iff, Finsupp.add_apply] at h
    by_cases same : m.1 = E
    · exact ⟨m, List.mem_cons_self, same⟩
    · rw [Finsupp.single_eq_of_ne' same, zero_add] at h
      obtain ⟨n, hn, eq⟩ := ih (Finsupp.mem_support_iff.mpr h)
      exact ⟨n, List.mem_cons_of_mem _ hn, eq⟩

/-- The products that are no numbers. -/
noncomputable def proper (ms : List ((Expr →₀ ℚ) × ℚ)) : List ((Expr →₀ ℚ) × ℚ) :=
  ms.filter fun m => !(term m.1 m.2).isNumber

/-- **A sum in normal form**: products in their order. -/
noncomputable def sumOf (g : (Expr →₀ ℚ) →₀ ℚ) : Expr :=
  match sort (g.support.toList.map fun E => term E (g E)) with
  | [] => num .zero
  | [a] => a
  | as => op .add as

/-! ## 2. The parts of a sum -/

/-- Operands that are no nodes of the operator stay. -/
theorem flatten_of_forall (h : ∀ a ∈ as, ∀ bs, a ≠ op o bs) : flatten o as = as := by
  fun_induction flatten o as with
  | case1 => rfl
  | case2 bs rest ih => exact absurd rfl (h _ List.mem_cons_self bs)
  | case3 p bs rest _ ih => rw [ih (List.forall_mem_cons.mp h).2]
  | case4 a rest _ ih => rw [ih (List.forall_mem_cons.mp h).2]

/-- The number that an operand adds. -/
def summand : Expr → ℚ
  | num n => n.toRat
  | _ => 0

theorem toRat_constantPart (as : List Expr) : (constantPart as).toRat = (as.map summand).sum := by
  have all (d : Coefficient) : (as.foldl (fun sum a =>
      match a with
      | num n => sum + n
      | _ => sum) d).toRat = d.toRat + (as.map summand).sum := by
    induction as generalizing d with
    | nil => simp
    | cons a as ih =>
      rw [List.map_cons, List.sum_cons, ← add_assoc]
      cases a with
      | num n => exact (ih _).trans (by rw [Coefficient.toRat_add]; rfl)
      | var _ | call _ _ | op _ _ => exact (ih d).trans (congrArg (· + _) (add_zero d.toRat).symm)
  exact (all .zero).trans (by rw [Coefficient.toRat_zero, zero_add])

theorem likeTerms_eq (as : List Expr) : likeTerms as = Tally.collect
    ((as.filter (!·.isNumber)).map fun a => (a.splitCoefficient.2, a.splitCoefficient.1)) [] := by
  refine foldl_eq_collect (fun _ _ => rfl) (fun t a other => ?_) as []
  cases a with
  | num n => cases other
  | var _ | call _ _ | op _ _ => rfl

theorem filterMap_nonzero (t : Tally) : (t.filterMap fun (a, c) =>
    if c.isZero then none else some (attachCoefficient c a)) =
    (t.filter fun p => !p.2.isZero).map fun p => attachCoefficient p.2 p.1 := by
  induction t with
  | nil => rfl
  | cons p t ih =>
    obtain ⟨a, c⟩ := p
    cases zero : c.isZero <;> simp [zero, ih]

section Products

variable (hm : ∀ m ∈ ms, Monomial m.1 ∧ m.2 ≠ 0)

include hm

theorem totalOf_zero : ((products ms).map summand).sum = totalOf ms 0 := by
  induction ms with
  | nil => rfl
  | cons m ms ih =>
    obtain ⟨first, later⟩ := List.forall_mem_cons.mp hm
    have head : summand (term m.1 m.2) = Finsupp.single m.1 m.2 0 := by
      by_cases zero : m.1 = 0
      · rw [zero, term_zero, Finsupp.single_eq_same, summand, Coefficient.toRat_ofRat]
      · have other := isNumber_term first.1 zero m.2
        rw [Finsupp.single_eq_of_ne' zero]
        cases h : term m.1 m.2 with
        | num n => rw [h] at other; cases other
        | var _ | call _ _ | op _ _ => rfl
    rw [totalOf_cons, Finsupp.add_apply, ← ih later, ← head]
    rfl

theorem totalOf_proper : totalOf (proper ms) = (totalOf ms).erase 0 := by
  induction ms with
  | nil => simp [proper]
  | cons m ms ih =>
    obtain ⟨first, later⟩ := List.forall_mem_cons.mp hm
    rw [totalOf_cons, Finsupp.erase_add, ← ih later]
    unfold proper
    by_cases zero : m.1 = 0
    · have number : (term m.1 m.2).isNumber = true := by rw [zero, term_zero]; rfl
      rw [List.filter_cons_of_neg (by simp [number]), zero, Finsupp.erase_single, zero_add]
    · rw [List.filter_cons_of_pos (by simp [isNumber_term first.1 zero m.2]), totalOf_cons,
        Finsupp.erase_single_ne (Ne.symm zero)]

theorem ne_zero_of_mem_proper {m : (Expr →₀ ℚ) × ℚ} (h : m ∈ proper ms) :
    m.1 ≠ 0 ∧ Monomial m.1 := by
  obtain ⟨mem, other⟩ := List.mem_filter.mp h
  refine ⟨fun zero => ?_, (hm m mem).1⟩
  rw [zero, term_zero] at other
  cases other

/-- The like terms of a sum are told apart by what their factors multiply to. -/
theorem content_likeTerms : (likeTerms (products ms)).content =
    (totalOf (proper ms)).mapDomain fun E => term E 1 := by
  have entries : ((products ms).filter (!·.isNumber)).map (fun a =>
      (a.splitCoefficient.2, a.splitCoefficient.1)) =
      (proper ms).map fun m => (term m.1 1, Coefficient.ofRat m.2) := by
    rw [products, List.filter_map, List.map_map]
    refine List.map_congr_left fun m h => ?_
    rw [Function.comp_apply, splitCoefficient_term (hm m (List.mem_filter.mp h).1).1]
  rw [likeTerms_eq, entries, Tally.content_collect, Tally.content_nil, zero_add]
  induction proper ms with
  | nil => simp
  | cons m ms ih =>
    rw [List.map_cons, Tally.content_cons, ih, totalOf_cons, Finsupp.mapDomain_add,
      Finsupp.mapDomain_single, Coefficient.toRat_ofRat]

/-- The like terms of a sum, put together again. -/
theorem collected_perm : ((likeTerms (products ms)).filterMap fun (a, c) =>
    if c.isZero then none else some (attachCoefficient c a)).Perm
    ((totalOf (proper ms)).support.toList.map fun E => term E (totalOf (proper ms) E)) := by
  classical
  have content := content_likeTerms hm
  have members : ∀ E ∈ (totalOf (proper ms)).support, E ≠ 0 ∧ Monomial E := by
    intro E h
    obtain ⟨m, mem, rfl⟩ := exists_of_mem_support h
    exact ne_zero_of_mem_proper hm mem
  have ascending : (likeTerms (products ms)).Ascending := by
    rw [likeTerms_eq]
    have ordered : Tally.Ascending [] := .nil
    exact ordered.collect _
  have injective : Set.InjOn (fun E => term E 1) (totalOf (proper ms)).support :=
    fun E hE F hF same => term_injOn (members E hE).2 (members F hF).2 same
  have support : (likeTerms (products ms)).content.support =
      (totalOf (proper ms)).support.image fun E => term E 1 := by
    rw [content, Finsupp.mapDomain_support_of_injOn _ injective]
  have listed : (likeTerms (products ms)).content.support.toList.Perm
      ((totalOf (proper ms)).support.toList.map fun E => term E 1) := by
    rw [← Multiset.coe_eq_coe, Finset.coe_toList, support, Finset.image_val_of_injOn injective,
      ← Multiset.map_coe, Finset.coe_toList]
  rw [filterMap_nonzero]
  refine ((ascending.perm_support.map _).trans ((listed.map _).map _)).trans (List.Perm.of_eq ?_)
  rw [List.map_map, List.map_map]
  refine List.map_congr_left fun E hE => ?_
  have mem := Finset.mem_toList.mp hE
  have value : (likeTerms (products ms)).content (term E 1) = totalOf (proper ms) E := by
    rw [content]
    exact Finsupp.mapDomain_apply' _ _ subset_rfl injective mem
  simp only [Function.comp_apply]
  rw [attachCoefficient_term (members E mem).2 (members E mem).1, Coefficient.toRat_ofRat, value]

end Products

/-- The products of a sum with its number. -/
theorem terms_perm : (if (Coefficient.ofRat (g 0)).isZero then
    (g.erase 0).support.toList.map fun E => term E (g.erase 0 E) else
    ((g.erase 0).support.toList.map fun E => term E (g.erase 0 E)) ++ [num (.ofRat (g 0))]).Perm
    (g.support.toList.map fun E => term E (g E)) := by
  classical
  have others : ((g.erase 0).support.toList.map fun E => term E (g.erase 0 E)) =
      (g.erase 0).support.toList.map fun E => term E (g E) := by
    refine List.map_congr_left fun E hE => ?_
    have mem := Finset.mem_toList.mp hE
    rw [Finsupp.support_erase] at mem
    rw [Finsupp.erase_ne (Finset.ne_of_mem_erase mem)]
  split
  · rename_i zero
    rw [Coefficient.isZero_iff_toRat, Coefficient.toRat_ofRat] at zero
    rw [Finsupp.erase_of_notMem_support (by simp [zero])]
  · rename_i nonzero
    rw [Coefficient.isZero_iff_toRat, Coefficient.toRat_ofRat] at nonzero
    have support : g.support = insert 0 (g.erase 0).support := by
      rw [Finsupp.support_erase, Finset.insert_erase (Finsupp.mem_support_iff.mpr nonzero)]
    rw [others, ← term_zero, support]
    refine (List.perm_append_singleton _ _).trans ?_
    have fresh : 0 ∉ (g.erase 0).support := by
      rw [Finsupp.support_erase]
      exact Finset.notMem_erase _ _
    exact ((Finset.toList_insert fresh).map fun E => term E (g E)).symm

/-- **The normal form of a sum** depends on nothing but what is added. -/
theorem sumNormal_products (hm : ∀ m ∈ ms, Monomial m.1 ∧ m.2 ≠ 0) :
    sumNormal (products ms) = sumOf (totalOf ms) := by
  have operands : flatten .add (products ms) = products ms :=
    flatten_of_forall (List.forall_mem_map.mpr fun m h => term_ne_add (hm m h).1 m.2)
  have number : constantPart (products ms) = .ofRat (totalOf ms 0) := by
    refine Coefficient.toRat_injective ?_
    rw [toRat_constantPart, totalOf_zero hm, Coefficient.toRat_ofRat]
  have collected := collected_perm hm
  rw [totalOf_proper hm] at collected
  unfold sumNormal sumOf
  dsimp only
  rw [operands, number]
  generalize List.filterMap _ _ = terms at collected
  have whole : (if (Coefficient.ofRat (totalOf ms 0)).isZero then terms else
      terms ++ [num (.ofRat (totalOf ms 0))]).Perm
      ((totalOf ms).support.toList.map fun E => term E (totalOf ms E)) := by
    refine List.Perm.trans ?_ terms_perm
    split
    · exact collected
    · exact collected.append_right _
  rewrite [sort_eq_of_perm whole]
  generalize sort _ = sorted
  rcases sorted with _ | ⟨a, _ | ⟨b, as⟩⟩ <;> rfl

/-- A single product is a sum in normal form. -/
theorem sumOf_single {c : ℚ} (nonzero : c ≠ 0) : sumOf (Finsupp.single E c) = term E c := by
  have list : (Finsupp.single E c).support.toList = [E] := by
    rw [Finsupp.support_single _ nonzero, Finset.toList_singleton]
  unfold sumOf
  rw [list, List.map_singleton, Finsupp.single_eq_same]
  rfl

theorem sumOf_zero : sumOf 0 = num .zero := by
  unfold sumOf
  rw [Finsupp.support_zero, Finset.toList_empty]
  rfl

/-- The sum of operands; a single one needs no node. -/
def ofSummands : List Expr → Expr
  | [] => num .zero
  | [a] => a
  | as => op .add as

/-- **Normalizing a sum** whose operands have products for normal forms. -/
theorem HaveProducts.normalize_ofSummands (h : HaveProducts as ms) :
    (ofSummands as).normalize = .ok (sumOf (totalOf ms)) := by
  have operands := h.normalizeList_eq
  have sum := sumNormal_products h.monomials
  cases h with
  | nil => rw [totalOf_nil, sumOf_zero, ofSummands, normalize]
  | cons first rest =>
    cases rest with
    | nil => rw [totalOf_cons, totalOf_nil, add_zero, sumOf_single first.2.2, ofSummands, first.1]
    | cons second rest =>
      have node : (op .add _).normalize = nodeNormal .add _ :=
        normalize_op operands (by simp [Operator.accepts, Operator.arity, products])
      exact node.trans (congrArg Except.ok sum)

end Expr

end Eliminant
