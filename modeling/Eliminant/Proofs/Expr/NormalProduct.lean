import Eliminant.Proofs.Expr.Factor
import Eliminant.Proofs.Expr.Tally

/-!
# Products in normal form

What a product of factors multiplies to is a function from bases to exponents (`contentOf`). A product in
normal form, `term E c`, is a coefficient in front of the factors that `E` says, in their order.

* **`productNormal_products`**: the normal form of a product depends on nothing but what is multiplied;
* `normalize_term`: a product in normal form is its own normal form;
* `splitCoefficient_term`, `term_injOn`: it tells its coefficient and what its factors multiply to.
-/

namespace Eliminant

namespace Expr

variable {a b f : Expr} {as bs fs : List Expr} {c d : ℚ} {e : Coefficient} {o : Operator}
  {E F : Expr →₀ ℚ}

/-! ## 1. What factors multiply to -/

/-- Every base of a list of factors with its exponent. -/
noncomputable def contentOf (fs : List Expr) : Expr →₀ ℚ := Tally.content (fs.map splitExponent)

@[simp] theorem contentOf_cons : contentOf (f :: fs) =
    Finsupp.single f.splitExponent.1 f.splitExponent.2.toRat + contentOf fs := by
  simp [contentOf]

theorem contentOf_perm (h : as.Perm bs) : contentOf as = contentOf bs :=
  ((h.map splitExponent).map _).sum_eq

/-- **Bases with exponents of factors.** -/
def Monomial (E : Expr →₀ ℚ) : Prop := ∀ b, E b ≠ 0 → Base b (E b)

theorem Monomial.zero : Monomial 0 := fun _ h => absurd rfl h

theorem Monomial.single (h : Base b c) : Monomial (Finsupp.single b c) := fun d hd => by
  obtain ⟨rfl, -⟩ := Finsupp.single_apply_ne_zero.mp hd
  rwa [Finsupp.single_eq_same]

theorem Factor.single (h : Factor f) :
    Monomial (Finsupp.single f.splitExponent.1 f.splitExponent.2.toRat) := .single h.base

/-- **The factors of a monomial**, in their order. -/
noncomputable def factors (E : Expr →₀ ℚ) : List Expr := sort (E.support.toList.map fun b => factor b (E b))

theorem factors_perm (E : Expr →₀ ℚ) :
    (factors E).Perm (E.support.toList.map fun b => factor b (E b)) := sort_perm _

theorem Monomial.factor_of_mem (h : Monomial E) : ∀ f ∈ factors E, Factor f := by
  intro f hf
  obtain ⟨b, hb, rfl⟩ := List.mem_map.mp ((factors_perm E).mem_iff.mp hf)
  exact (h b (Finsupp.mem_support_iff.mp (Finset.mem_toList.mp hb))).factor

/-- A monomial is what its factors multiply to. -/
theorem Monomial.contentOf_factors (h : Monomial E) : contentOf (factors E) = E := by
  have value : ∀ b ∈ E.support.toList, Finsupp.single (factor b (E b)).splitExponent.1
      (factor b (E b)).splitExponent.2.toRat = Finsupp.single b (E b) := by
    intro b hb
    rw [(h b (Finsupp.mem_support_iff.mp (Finset.mem_toList.mp hb))).splitExponent_factor,
      Coefficient.toRat_ofRat]
  rw [contentOf_perm (factors_perm E), contentOf, Tally.content, List.map_map, List.map_map]
  exact (congrArg List.sum (List.map_congr_left value)).trans
    ((Finset.sum_map_toList _ _).trans E.sum_single)

/-! ## 2. Products in normal form -/

/-- The product of operands; a single one needs no node. -/
def ofOperands : List Expr → Expr
  | [] => num .one
  | [a] => a
  | as => op .mul as

/-- Factors behind a coefficient; the coefficient `1` is not written. -/
def withCoefficient (c : ℚ) (fs : List Expr) : List Expr := if c = 1 then fs else num (.ofRat c) :: fs

/-- **A product in normal form**: a coefficient and the factors of a monomial. -/
noncomputable def term (E : Expr →₀ ℚ) (c : ℚ) : Expr := ofOperands (withCoefficient c (factors E))

theorem factors_eq_nil_iff : factors E = [] ↔ E = 0 := by
  rw [← List.length_eq_zero_iff, (factors_perm E).length_eq, List.length_map, Finset.length_toList,
    Finset.card_eq_zero, Finsupp.support_eq_empty]

theorem term_zero (c : ℚ) : term 0 c = num (.ofRat c) := by
  unfold term withCoefficient
  rw [factors_eq_nil_iff.mpr rfl]
  split
  · rename_i one
    rw [one]
    exact congrArg num (Coefficient.toRat_injective (by simp))
  · rfl

/-- The operands of a product stay together, whatever their number. -/
theorem flatten_mul (as : List Expr) : flatten .mul as = as.flatMap factorsOf := by
  fun_induction flatten .mul as with
  | case1 => rfl
  | case2 bs rest ih => rw [List.flatMap_cons, ih]; rfl
  | case3 p bs rest other ih =>
    rw [List.flatMap_cons, ih]
    unfold factorsOf
    split
    · rename_i same
      cases same
      exact absurd rfl other
    · rfl
  | case4 a rest other ih =>
    rw [List.flatMap_cons, ih]
    unfold factorsOf
    split
    · exact absurd rfl (other _ _)
    · rfl

/-! ### Numbers and other operands -/

/-- The number that an operand multiplies by. -/
def scalar : Expr → ℚ
  | num n => n.toRat
  | _ => 1

theorem toRat_numericPart (as : List Expr) : (numericPart as).toRat = (as.map scalar).prod := by
  have all (d : Coefficient) : (as.foldl (fun product a =>
      match a with
      | num n => product * n
      | _ => product) d).toRat = d.toRat * (as.map scalar).prod := by
    induction as generalizing d with
    | nil => simp
    | cons a as ih =>
      rw [List.map_cons, List.prod_cons, ← mul_assoc]
      cases a with
      | num n => exact (ih _).trans (by rw [Coefficient.toRat_mul]; rfl)
      | var _ | call _ _ | op _ _ => exact (ih d).trans (congrArg (· * _) (mul_one d.toRat).symm)
  exact (all .one).trans (by rw [Coefficient.toRat_one, one_mul])

theorem eq_num_of_isNumber (h : a.isNumber = true) : ∃ c, a = num c := by
  cases a with
  | num c => exact ⟨c, rfl⟩
  | var _ | call _ _ | op _ _ => cases h

/-- Going through operands and adding up the parts of those that are no numbers. -/
theorem foldl_eq_collect {step : Tally → Expr → Tally} {split : Expr → Expr × Coefficient}
    (number : ∀ t n, step t (num n) = t)
    (other : ∀ t a, a.isNumber = false → step t a = Tally.add (split a).1 (split a).2 t) (as : List Expr)
    (t : Tally) : as.foldl step t = Tally.collect ((as.filter (!·.isNumber)).map split) t := by
  induction as generalizing t with
  | nil => rfl
  | cons a as ih =>
    rw [List.foldl_cons, ih]
    cases kind : a.isNumber with
    | true =>
      obtain ⟨n, rfl⟩ := eq_num_of_isNumber kind
      rw [number, List.filter_cons_of_neg (by simp [kind])]
    | false =>
      rw [other t a kind, List.filter_cons_of_pos (by simp [kind])]
      rfl

theorem likeFactors_eq (as : List Expr) :
    likeFactors as = Tally.collect ((as.filter (!·.isNumber)).map splitExponent) [] := by
  refine foldl_eq_collect (fun _ _ => rfl) (fun t a other => ?_) as []
  cases a with
  | num n => cases other
  | var _ | call _ _ | op _ _ => rfl

theorem mapM_eq_ok {α β : Type} {f : α → Except Failure β} {g : α → β} {as : List α}
    (h : ∀ a ∈ as, f a = .ok (g a)) : as.mapM f = .ok (as.map g) := by
  induction as with
  | nil => rfl
  | cons a as ih =>
    obtain ⟨first, later⟩ := List.forall_mem_cons.mp h
    rw [List.mapM_cons, first, ih later]
    rfl

section Factors

variable (hf : ∀ f ∈ fs, Factor f)

include hf

theorem filter_isNumber : fs.filter (!·.isNumber) = fs :=
  List.filter_eq_self.mpr fun f h => by rw [(hf f h).isNumber_eq]; rfl

theorem flatMap_factorsOf : fs.flatMap factorsOf = fs := by
  induction fs with
  | nil => rfl
  | cons f fs ih =>
    obtain ⟨first, later⟩ := List.forall_mem_cons.mp hf
    rw [List.flatMap_cons, first.factorsOf_eq, ih later, List.singleton_append]

theorem prod_scalar : (fs.map scalar).prod = 1 := by
  refine List.prod_eq_one fun q hq => ?_
  obtain ⟨f, h, rfl⟩ := List.mem_map.mp hq
  have kind := (hf f h).isNumber_eq
  cases f with
  | num n => cases kind
  | var _ | call _ _ | op _ _ => rfl

theorem numericPart_eq : numericPart fs = .one :=
  Coefficient.toRat_injective (by rw [toRat_numericPart, prod_scalar hf, Coefficient.toRat_one])

/-- Collecting factors adds up positive exponents. -/
theorem pos_of_mem_collect : ∀ p ∈ Tally.collect (fs.map splitExponent) [], 0 < p.2.toRat := by
  refine Tally.forall_collect (fun a c d hc hd => ?_) (List.forall_mem_nil _) ?_
  · rw [Coefficient.toRat_add]
    exact add_pos hc hd
  · exact List.forall_mem_map.mpr fun f h => (hf f h).base.pos

/-- The powers of the collected factors are the factors of the product. -/
theorem sort_powers : sort ((Tally.collect (fs.map splitExponent) []).map fun p => factor p.1 p.2.toRat) =
    factors (contentOf fs) := by
  have entries := pos_of_mem_collect hf
  have content := Tally.content_collect (fs.map splitExponent) []
  rw [Tally.content_nil, zero_add] at content
  have ordered : Tally.Ascending [] := .nil
  have perm := (ordered.collect (fs.map splitExponent)).perm_support
  generalize Tally.collect _ _ = tally at entries content perm ⊢
  have all : tally.filter (fun p => !p.2.isZero) = tally := List.filter_eq_self.mpr fun p h => by
    rw [(Coefficient.isZero_eq_false_iff _).mpr (entries p h).ne']
    rfl
  rw [all, content] at perm
  refine sort_eq_of_perm ((perm.map fun p => factor p.1 p.2.toRat).trans (List.Perm.of_eq ?_))
  rw [List.map_map]
  exact List.map_congr_left fun b _ => by rw [Function.comp_apply, Coefficient.toRat_ofRat]; rfl

variable (total : Monomial (contentOf fs))

include total

/-- What is collected are the bases of factors. -/
theorem base_of_mem_collect : ∀ p ∈ Tally.collect (fs.map splitExponent) [], Base p.1 p.2.toRat := by
  have content := Tally.content_collect (fs.map splitExponent) []
  have ordered : Tally.Ascending [] := .nil
  intro p h
  have value := (ordered.collect _).content_apply h
  rw [content, Tally.content_nil, zero_add] at value
  have base := total p.1
  rw [contentOf, value] at base
  exact base (pos_of_mem_collect hf p h).ne'

/-- **A product depends on its number and on what its factors multiply to.** -/
theorem productWith_eq {power : Expr → Coefficient → Except Failure Expr} {args : List Expr}
    (number : (numericPart (flatten .mul args)).toRat = c) (nonzero : c ≠ 0)
    (others : (flatten .mul args).filter (!·.isNumber) = fs)
    (hp : fs ≠ [] → ∀ b e, Base b e.toRat → power b e = .ok (factor b e.toRat)) :
    productWith power args = .ok (term (contentOf fs) c) := by
  have number : numericPart (flatten .mul args) = .ofRat c :=
    Coefficient.toRat_injective (number.trans (Coefficient.toRat_ofRat c).symm)
  have entries := base_of_mem_collect hf total
  have sorted := sort_powers hf
  have powers : (Tally.collect (fs.map splitExponent) []).mapM (fun p => power p.1 p.2) =
      .ok ((Tally.collect (fs.map splitExponent) []).map fun p => factor p.1 p.2.toRat) := by
    refine mapM_eq_ok fun p h => ?_
    by_cases none : fs = []
    · subst none
      cases h
    · exact hp none p.1 p.2 (entries p h)
  unfold productWith term
  dsimp only
  rw [likeFactors_eq, others]
  generalize Tally.collect _ _ = tally at entries sorted powers ⊢
  have each : ∀ f ∈ tally.map fun p => factor p.1 p.2.toRat, Factor f :=
    List.forall_mem_map.mpr fun p h => (entries p h).factor
  have zero : (Coefficient.ofRat c).isZero = false := by
    rwa [Coefficient.isZero_eq_false_iff, Coefficient.toRat_ofRat]
  have unit : Coefficient.ofRat c * .one = .ofRat c := Coefficient.toRat_injective (by simp)
  rw [number, zero, if_neg Bool.false_ne_true, powers]
  simp only [bind, Except.bind, pure, Except.pure, flatMap_factorsOf each, numericPart_eq each,
    filter_isNumber each, sorted, unit, zero, Bool.false_eq_true, if_false]
  generalize factors (contentOf fs) = as
  unfold withCoefficient
  by_cases one : c = 1
  · have unit : Coefficient.ofRat c = .one := Coefficient.toRat_injective (by simp [one])
    rw [unit, if_pos one]
    rcases as with _ | ⟨a, _ | ⟨b, as⟩⟩ <;> rfl
  · have other : ¬(Coefficient.ofRat c).isOne = true := by
      rwa [Coefficient.isOne_iff_toRat, Coefficient.toRat_ofRat]
    rw [if_neg one]
    rcases as with _ | ⟨a, _ | ⟨b, as⟩⟩
    · rfl
    · simp only [if_neg other, ofOperands]
    · simp only [attachCoefficient, if_neg other, ofOperands]

end Factors

/-! ## 3. Products of products -/

theorem factorsOf_ofOperands (some : as ≠ []) (h : ∀ a ∈ as, ∀ bs, a ≠ op .mul bs) :
    factorsOf (ofOperands as) = as := by
  rcases as with _ | ⟨a, _ | ⟨b, as⟩⟩
  · exact absurd rfl some
  · show factorsOf a = [a]
    unfold factorsOf
    split
    · exact absurd rfl (h _ List.mem_cons_self _)
    · rfl
  · rfl

theorem Factor.ne_mul (h : Factor f) (bs : List Expr) : f ≠ op .mul bs := by
  rintro rfl
  cases h.isOpen_eq

section Monomial

variable (hE : Monomial E)

include hE

/-- The operands of a product in normal form, be there one or many. -/
theorem factorsOf_term (some : E ≠ 0 ∨ c ≠ 1) : factorsOf (term E c) = withCoefficient c (factors E) := by
  have single : ∀ f ∈ factors E, ∀ bs, f ≠ op .mul bs := fun f h => (hE.factor_of_mem f h).ne_mul
  refine factorsOf_ofOperands ?_ ?_
  · unfold withCoefficient
    split
    · rename_i one
      exact mt factors_eq_nil_iff.mp (some.resolve_right (not_not.mpr one))
    · exact List.cons_ne_nil _ _
  · unfold withCoefficient
    split
    · exact single
    · exact List.forall_mem_cons.mpr ⟨nofun, single⟩

/-- What multiplies to a product in normal form: its factors ... -/
theorem filter_factorsOf_term (c : ℚ) : (factorsOf (term E c)).filter (!·.isNumber) = factors E := by
  have some := filter_isNumber hE.factor_of_mem
  by_cases unit : E = 0 ∧ c = 1
  · rw [unit.1, term_zero, factors_eq_nil_iff.mpr rfl]
    rfl
  · rw [factorsOf_term hE (by tauto)]
    unfold withCoefficient
    split
    · exact some
    · exact some

/-- ... and its coefficient. -/
theorem prod_scalar_factorsOf_term (c : ℚ) : ((factorsOf (term E c)).map scalar).prod = c := by
  have some := prod_scalar hE.factor_of_mem
  by_cases unit : E = 0 ∧ c = 1
  · rw [unit.1, term_zero]
    simp [factorsOf, scalar]
  · rw [factorsOf_term hE (by tauto)]
    unfold withCoefficient
    split
    · rename_i one
      rw [some, one]
    · rw [List.map_cons, List.prod_cons, some, mul_one, scalar, Coefficient.toRat_ofRat]

end Monomial

/-- A list of products in normal form. -/
noncomputable def products (ms : List ((Expr →₀ ℚ) × ℚ)) : List Expr := ms.map fun m => term m.1 m.2

section Products

variable {ms : List ((Expr →₀ ℚ) × ℚ)} (hm : ∀ m ∈ ms, Monomial m.1 ∧ m.2 ≠ 0)

include hm

theorem prod_ne_zero : (ms.map (·.2)).prod ≠ 0 := by
  refine List.prod_ne_zero fun zero => ?_
  obtain ⟨m, h, zero⟩ := List.mem_map.mp zero
  exact (hm m h).2 zero

theorem contentOf_flatMap_factors : contentOf (ms.flatMap fun m => factors m.1) = (ms.map (·.1)).sum := by
  induction ms with
  | nil => rfl
  | cons m ms ih =>
    obtain ⟨first, later⟩ := List.forall_mem_cons.mp hm
    have rest := ih later
    unfold contentOf Tally.content at rest ⊢
    rw [List.flatMap_cons, List.map_append, List.map_append, List.sum_append, rest, List.map_cons,
      List.sum_cons]
    exact congrArg (· + _) first.1.contentOf_factors

/-- **A product of products in normal form** multiplies what they are. -/
theorem productNormal_products (total : Monomial (ms.map (·.1)).sum) :
    productNormal (products ms) = .ok (term (ms.map (·.1)).sum (ms.map (·.2)).prod) := by
  have each : ∀ f ∈ ms.flatMap fun m => factors m.1, Factor f := by
    intro f hf
    obtain ⟨m, h, hf⟩ := List.mem_flatMap.mp hf
    exact (hm m h).1.factor_of_mem f hf
  have operands : flatten .mul (products ms) = ms.flatMap fun m => factorsOf (term m.1 m.2) := by
    rw [flatten_mul, products, List.flatMap_map]
  rw [← contentOf_flatMap_factors hm] at total ⊢
  refine productWith_eq each total ?_ (prod_ne_zero hm) ?_ fun some b e base => ?_
  · rw [operands, toRat_numericPart, List.map_flatMap, List.flatMap_def, List.prod_flatten, List.map_map]
    exact congrArg List.prod (List.map_congr_left fun m h => prod_scalar_factorsOf_term (hm m h).1 m.2)
  · rw [operands, List.filter_flatMap]
    exact List.flatMap_congr fun m h => filter_factorsOf_term (hm m h).1 m.2
  · obtain ⟨k, size⟩ : ∃ k, sizeList (products ms) = k + 1 := by
      cases ms with
      | nil => exact absurd rfl some
      | cons m ms =>
        refine Nat.exists_eq_add_one.mpr ?_
        have := (term m.1 m.2).size_pos
        simp only [products, List.map_cons, sizeList]
        omega
    rw [size]
    exact base.powerOf_eq

end Products

/-- The operands of a list have products for normal forms. -/
def HaveProducts (as : List Expr) (ms : List ((Expr →₀ ℚ) × ℚ)) : Prop :=
  List.Forall₂ (fun a m => a.normalize = .ok (term m.1 m.2) ∧ Monomial m.1 ∧ m.2 ≠ 0) as ms

section HaveProducts

variable {ms : List ((Expr →₀ ℚ) × ℚ)} (h : HaveProducts as ms)

include h

theorem HaveProducts.normalizeList_eq : normalizeList as = .ok (products ms) := by
  induction h with
  | nil => rfl
  | cons first _ ih =>
    unfold normalizeList
    rw [first.1, ih]
    rfl

theorem HaveProducts.monomials : ∀ m ∈ ms, Monomial m.1 ∧ m.2 ≠ 0 := by
  induction h with
  | nil => exact List.forall_mem_nil _
  | cons first _ ih => exact List.forall_mem_cons.mpr ⟨first.2, ih⟩

/-- **Normalizing a product** whose operands have products for normal forms. -/
theorem HaveProducts.normalize_ofOperands (total : Monomial (ms.map (·.1)).sum) :
    (ofOperands as).normalize = .ok (term (ms.map (·.1)).sum (ms.map (·.2)).prod) := by
  have operands := h.normalizeList_eq
  have product := productNormal_products h.monomials total
  cases h with
  | nil =>
    rw [List.map_nil, List.map_nil, List.sum_nil, List.prod_nil, term_zero, ofOperands, normalize]
    exact congrArg (fun c => Except.ok (num c)) (Coefficient.toRat_injective (by simp))
  | cons first rest =>
    cases rest with
    | nil => simpa [ofOperands] using first.1
    | cons second rest =>
      exact (normalize_op operands (by simp [Operator.accepts, Operator.arity, products])).trans product

end HaveProducts

/-! ## 4. What a product in normal form tells -/

/-- A factor is a product in normal form. -/
theorem term_single (b : Expr) (nonzero : c ≠ 0) : term (Finsupp.single b c) 1 = factor b c := by
  have list : (Finsupp.single b c).support.toList = [b] := by
    rw [Finsupp.support_single _ nonzero, Finset.toList_singleton]
  have single : factors (Finsupp.single b c) = [factor b c] := by
    rw [factors, list, List.map_singleton, Finsupp.single_eq_same]
    rfl
  rw [term, withCoefficient, if_pos rfl, single]
  rfl

theorem Factor.term_eq (h : Factor f) :
    term (Finsupp.single f.splitExponent.1 f.splitExponent.2.toRat) 1 = f :=
  (term_single _ h.base.pos.ne').trans h.eq.symm

/-- The factors of a list, each as a product of its own. -/
theorem haveProducts_factors (hf : ∀ f ∈ fs, Factor f) : HaveProducts fs
    (fs.map fun f => (Finsupp.single f.splitExponent.1 f.splitExponent.2.toRat, 1)) := by
  refine List.forall₂_map_right_iff.mpr (List.forall₂_same.mpr fun f h => ?_)
  have factor := hf f h
  exact ⟨by rw [factor.normalize_eq, factor.term_eq], factor.single, one_ne_zero⟩

/-- The operands of a product in normal form, each as a product of its own. -/
theorem exists_haveProducts (hE : Monomial E) (nonzero : c ≠ 0) : ∃ ms,
    HaveProducts (withCoefficient c (factors E)) ms ∧ (ms.map (·.1)).sum = E ∧ (ms.map (·.2)).prod = c := by
  have factors := haveProducts_factors hE.factor_of_mem
  have content := hE.contentOf_factors
  generalize Expr.factors E = fs at factors content
  rw [contentOf, Tally.content, List.map_map] at content
  unfold withCoefficient
  split
  · rename_i one
    refine ⟨_, factors, ?_, ?_⟩
    · rw [List.map_map]
      exact content
    · simp [one, Function.comp_def]
  · refine ⟨(0, c) :: _, .cons ⟨?_, .zero, nonzero⟩ factors, ?_, ?_⟩
    · rw [normalize, term_zero]
    · rw [List.map_cons, List.sum_cons, zero_add, List.map_map]
      exact content
    · simp [Function.comp_def]

/-- **A product in normal form** is its own normal form. -/
theorem normalize_term (hE : Monomial E) (nonzero : c ≠ 0) :
    (term E c).normalize = .ok (term E c) := by
  obtain ⟨ms, operands, sum, prod⟩ := exists_haveProducts hE nonzero
  have whole := operands.normalize_ofOperands (sum ▸ hE)
  rwa [sum, prod] at whole

/-- A product in normal form is well formed. -/
theorem wellFormed_term (hE : Monomial E) (c : ℚ) : (term E c).malformed? = none := by
  have each : ∀ f ∈ withCoefficient c (factors E), f.malformed? = none := by
    unfold withCoefficient
    split
    · exact fun f h => (hE.factor_of_mem f h).wellFormed
    · exact List.forall_mem_cons.mpr ⟨rfl, fun f h => (hE.factor_of_mem f h).wellFormed⟩
  unfold term
  generalize withCoefficient c (factors E) = as at each
  rcases as with _ | ⟨a, _ | ⟨b, as⟩⟩
  · rfl
  · exact each a List.mem_cons_self
  · exact malformed?_op.mpr ⟨by simp [Operator.accepts, Operator.arity], each⟩

/-- A product in normal form is a number, a factor or a product of several operands. -/
theorem term_cases (hE : Monomial E) (c : ℚ) : (E = 0 ∧ term E c = num (.ofRat c)) ∨
    E ≠ 0 ∧ (c = 1 ∧ factors E = [term E c] ∧ Factor (term E c) ∨
      term E c = op .mul (withCoefficient c (factors E)) ∧ 2 ≤ (withCoefficient c (factors E)).length) := by
  have each := hE.factor_of_mem
  by_cases zero : E = 0
  · exact .inl ⟨zero, zero ▸ term_zero c⟩
  refine .inr ⟨zero, ?_⟩
  have some := mt factors_eq_nil_iff.mp zero
  unfold term withCoefficient
  generalize factors E = fs at each some
  rcases fs with _ | ⟨f, _ | ⟨g, fs⟩⟩
  · exact absurd rfl some
  · split
    · exact .inl ⟨‹_›, rfl, each f List.mem_cons_self⟩
    · exact .inr ⟨rfl, le_rfl⟩
  · split
    · exact .inr ⟨rfl, Nat.le_add_left 2 _⟩
    · exact .inr ⟨rfl, Nat.le_add_left 2 _⟩

theorem isNumber_term (hE : Monomial E) (some : E ≠ 0) (c : ℚ) : (term E c).isNumber = false := by
  obtain ⟨zero, -⟩ | ⟨-, ⟨-, -, factor⟩ | ⟨whole, -⟩⟩ := term_cases hE c
  · exact absurd zero some
  · exact factor.isNumber_eq
  · rw [whole]
    rfl

theorem term_ne_add (hE : Monomial E) (c : ℚ) (bs : List Expr) : term E c ≠ op .add bs := by
  intro same
  obtain ⟨-, whole⟩ | ⟨-, ⟨-, -, factor⟩ | ⟨whole, -⟩⟩ := term_cases hE c
  · cases whole.symm.trans same
  · have kind := factor.isOpen_eq
    rw [same] at kind
    cases kind
  · cases whole.symm.trans same

theorem Factor.splitCoefficient_eq (h : Factor f) : f.splitCoefficient = (.one, f) := by
  have kind := h.isOpen_eq
  unfold splitCoefficient
  split
  · cases kind
  · cases kind
  · cases kind
  · rfl

/-- **A product in normal form tells its coefficient.** -/
theorem splitCoefficient_term (hE : Monomial E) (c : ℚ) :
    (term E c).splitCoefficient = (.ofRat c, term E 1) := by
  have each := hE.factor_of_mem
  have unit : Coefficient.ofRat 1 = .one := Coefficient.toRat_injective (by simp)
  unfold term withCoefficient
  generalize factors E = fs at each
  rw [if_pos rfl]
  split
  · rename_i one
    rw [one, unit]
    rcases fs with _ | ⟨f, _ | ⟨g, fs⟩⟩
    · rfl
    · exact (each f List.mem_cons_self).splitCoefficient_eq
    · have kind := (each f List.mem_cons_self).isNumber_eq
      show (op .mul (f :: g :: fs)).splitCoefficient = _
      unfold splitCoefficient
      split
      · rename_i same
        cases same
      · rename_i same
        cases same
        cases kind
      · rename_i same
        cases same
        cases kind
      · rfl
  · rcases fs with _ | ⟨f, _ | ⟨g, fs⟩⟩ <;> rfl

/-- A product in normal form from its coefficient and the rest. -/
theorem attachCoefficient_term (hE : Monomial E) (some : E ≠ 0) (d : Coefficient) :
    attachCoefficient d (term E 1) = term E d.toRat := by
  have each := hE.factor_of_mem
  have some := mt factors_eq_nil_iff.mp some
  unfold term withCoefficient attachCoefficient
  generalize factors E = fs at each some
  rw [if_pos rfl, Coefficient.ofRat_toRat]
  by_cases one : d.toRat = 1
  · rw [if_pos (Coefficient.isOne_iff_toRat.mpr one), if_pos one]
  · rw [if_neg (mt Coefficient.isOne_iff_toRat.mp one), if_neg one]
    rcases fs with _ | ⟨f, _ | ⟨g, fs⟩⟩
    · exact absurd rfl some
    · dsimp only [ofOperands]
      split
      · exact absurd rfl ((each _ List.mem_cons_self).ne_mul _)
      · rfl
    · rfl

/-- A product in normal form tells what its factors multiply to. -/
theorem term_injOn (hE : Monomial E) (hF : Monomial F) (h : term E 1 = term F 1) : E = F := by
  rw [← hE.contentOf_factors, ← hF.contentOf_factors, ← filter_factorsOf_term hE 1,
    ← filter_factorsOf_term hF 1, h]

/-! ## 5. Expressions that are products in normal form -/

/-- What the factors of a product multiply to, and its coefficient. -/
noncomputable def partsOf (a : Expr) : (Expr →₀ ℚ) × ℚ :=
  (contentOf ((factorsOf a).filter (!·.isNumber)), ((factorsOf a).map scalar).prod)

theorem partsOf_term (hE : Monomial E) (c : ℚ) : partsOf (term E c) = (E, c) := by
  rw [partsOf, filter_factorsOf_term hE, prod_scalar_factorsOf_term hE, hE.contentOf_factors]

/-- **A product in normal form that is not zero.** -/
structure IsProduct (a : Expr) : Prop where
  monomial : Monomial (partsOf a).1
  nonzero : (partsOf a).2 ≠ 0
  eq : term (partsOf a).1 (partsOf a).2 = a

theorem isProduct_term (hE : Monomial E) (nonzero : c ≠ 0) : IsProduct (term E c) := by
  have parts := partsOf_term hE c
  exact ⟨by rwa [parts], by rwa [parts], by rw [parts]⟩

theorem IsProduct.normalize_eq (h : IsProduct a) : a.normalize = .ok a := by
  have normal := normalize_term h.monomial h.nonzero
  rwa [h.eq] at normal

theorem Factor.partsOf_eq (h : Factor f) :
    partsOf f = (Finsupp.single f.splitExponent.1 f.splitExponent.2.toRat, 1) := by
  have parts := partsOf_term h.single 1
  rwa [h.term_eq] at parts

theorem Base.partsOf_eq {b : Expr} (h : Base b 1) : partsOf b = (Finsupp.single b 1, 1) := by
  rw [h.isFactor.partsOf_eq, splitExponent_of_isBase h.kept.isBase, Coefficient.toRat_one]

theorem Factor.isProduct (h : Factor f) : IsProduct f := by
  have product := isProduct_term h.single one_ne_zero
  rwa [h.term_eq] at product

end Expr

end Eliminant
