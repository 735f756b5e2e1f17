import Eliminant.Proofs.Expr.Parts
import Eliminant.Proofs.Expr.Visiting

/-!
# Expressions that are their own normal forms

What is asked of a normal form has two parts. That it is **arranged** is seen node by node: the operands of sums
and products are in ascending order, no power can be taken any further, and there are no differences, negations
and quotients left. That it is **collected** is about operands that belong together: numbers are folded into one,
sums stand in no sums and products in no products, and like terms and like factors are collected.

* `Expr.IsArranged`, `Expr.IsCollected`: both, throughout an expression;
* `Expr.sumNormal_of_collected`, `Expr.productNormal_of_collected`: the normal form of a node that is both;
* **`Expr.normalize_of_collected`**: an arranged and collected expression is its own normal form.
-/

namespace Eliminant

namespace Expr

variable {a b f : Expr} {as args : List Expr} {o : Operator} {P : Operator → List Expr → Prop} {rest : Expr → Expr}

/-! ## 1. Nodes -/

/-- A property of every node with as many operands as its operator takes, in all parts of an expression. -/
def Throughout (P : Operator → List Expr → Prop) (a : Expr) : Prop :=
  ∀ o args, IsPart (op o args) a → o.accepts args.length = true → P o args

theorem throughout_num (c : Coefficient) : Throughout P (num c) := fun _ _ part => by cases part

theorem throughout_var (x : String) : Throughout P (var x) := fun _ _ part => by cases part

theorem throughout_call {f : String} : Throughout P (call f as) ↔ ∀ a ∈ as, Throughout P a := by
  constructor
  · exact fun h a ha o args part => h o args (.argument ha part)
  · intro h o args part
    cases part with
    | argument ha part => exact h _ ha o args part

theorem throughout_op : Throughout P (op o as) ↔
    (o.accepts as.length = true → P o as) ∧ ∀ a ∈ as, Throughout P a := by
  constructor
  · exact fun h => ⟨h o as .self, fun a ha p args part => h p args (.operand ha part)⟩
  · rintro ⟨node, operands⟩ p args part
    cases part with
    | self => exact node
    | operand ha part => exact operands _ ha p args part

/-- What normalizing does to the operands of a node: sums and products are in ascending order, the numbers of a
    product before its other factors; powers are taken as far as they can be. -/
def Arranged : Operator → List Expr → Prop
  | .add, args => sort args = args
  | .mul, args => ∃ numbers factors, args = numbers ++ factors ∧ (∀ a ∈ numbers, a.isNumber = true) ∧
      (∀ a ∈ factors, a.isNumber = false) ∧ sort factors = factors
  | .pow, args => ∃ b e, args = [b, e] ∧ powerNormal b e = .ok (op .pow [b, e])
  | .sub, _ | .neg, _ | .div, _ => False
  | .subscript, _ | .prime, _ => True

/-- Operands that belong together stand together: there is one number at most, no operand is a node of the same
    operator, and no two of the others have the same `rest`. -/
structure Merged (o : Operator) (rest : Expr → Expr) (args : List Expr) : Prop where
  numbers : (args.filter (·.isNumber)).length ≤ 1
  flat : ∀ a ∈ args, ∀ bs, a ≠ op o bs
  unlike : ((args.filter (!·.isNumber)).map rest).Nodup

/-- **A sum whose like terms are collected.** No term has the coefficient `0`, and none has `1` written. -/
structure CollectedSum (args : List Expr) : Prop extends Merged .add (·.splitCoefficient.2) args where
  nonzero : ∀ a ∈ args, a.splitCoefficient.1.isZero = false
  unwritten : ∀ c factors, op .mul (num c :: factors) ∈ args → c.isOne = false

/-- **A product whose like factors are collected.** Its number is neither `0` nor `1`. -/
structure CollectedProduct (args : List Expr) : Prop extends Merged .mul (·.splitExponent.1) args where
  nonzero : ∀ c, num c ∈ args → c.isZero = false
  unwritten : ∀ c, num c ∈ args → c.isOne = false

/-- Sums and products are collected; nothing is asked of other nodes. -/
def Collected : Operator → List Expr → Prop
  | .add, args => CollectedSum args
  | .mul, args => CollectedProduct args
  | _, _ => True

/-- **Arranged throughout.** -/
def IsArranged (a : Expr) : Prop := Throughout Arranged a

/-- **Collected throughout**: the numbers of every sum and every product are folded, sums and products are
    flattened, like terms and like factors are collected. -/
def IsCollected (a : Expr) : Prop := Throughout Collected a

/-! ## 2. Sums and products that are collected -/

/-- What only reads the numbers of a list. -/
theorem foldl_numbers {step : Coefficient → Expr → Coefficient}
    (other : ∀ c a, a.isNumber = false → step c a = c) (as : List Expr) (c : Coefficient) :
    as.foldl step c = (as.filter (·.isNumber)).foldl step c := by
  rw [List.foldl_filter]
  congr 1
  funext d a
  split
  · rfl
  · rename_i number
    exact other d a (Bool.not_eq_true _ ▸ number)

theorem constantPart_eq_filter (as : List Expr) : constantPart as = constantPart (as.filter (·.isNumber)) := by
  refine foldl_numbers (fun c a other => ?_) as .zero
  cases a with
  | num n => cases other
  | var _ | call _ _ | op _ _ => rfl

theorem numericPart_eq_filter (as : List Expr) : numericPart as = numericPart (as.filter (·.isNumber)) := by
  refine foldl_numbers (fun c a other => ?_) as .one
  cases a with
  | num n => cases other
  | var _ | call _ _ | op _ _ => rfl

theorem constantPart_singleton (c : Coefficient) : constantPart [num c] = c := by
  refine Coefficient.toRat_injective ?_
  rw [toRat_constantPart, List.map_singleton, List.sum_singleton, summand]

theorem numericPart_singleton (c : Coefficient) : numericPart [num c] = c := by
  refine Coefficient.toRat_injective ?_
  rw [toRat_numericPart, List.map_singleton, List.prod_singleton, scalar]

namespace Merged

theorem flatten_eq (h : Merged o rest args) : flatten o args = args := flatten_of_forall h.flat

/-- There is one number or none. -/
theorem numbers_cases (h : Merged o rest args) : args.filter (·.isNumber) = [] ∨
    ∃ c, args.filter (·.isNumber) = [num c] ∧ num c ∈ args := by
  have one := h.numbers
  have members : ∀ a ∈ args.filter (·.isNumber), a ∈ args ∧ a.isNumber = true := fun a ha => List.mem_filter.mp ha
  generalize args.filter (·.isNumber) = numbers at one members
  rcases numbers with _ | ⟨a, _ | ⟨b, more⟩⟩
  · exact .inl rfl
  · obtain ⟨mem, number⟩ := members a List.mem_cons_self
    obtain ⟨c, rfl⟩ := eq_num_of_isNumber number
    exact .inr ⟨c, rfl, mem⟩
  · simp at one

end Merged

/-- A term is put together again from its coefficient and the rest. -/
def IsSplit (a : Expr) : Prop := attachCoefficient a.splitCoefficient.1 a.splitCoefficient.2 = a

/-- **A collected sum** is only put into order. -/
theorem sumNormal_of_collected (h : CollectedSum args) (many : 2 ≤ args.length)
    (split : ∀ a ∈ args, a.isNumber = false → IsSplit a) : sumNormal args = op .add (sort args) := by
  have unlike : (((args.filter (!·.isNumber)).map fun a => (a.splitCoefficient.2, a.splitCoefficient.1)).map
      Prod.fst).Nodup := by
    rw [List.map_map]
    exact h.unlike
  have visited := Tally.collect_perm unlike fun _ _ _ hq => (List.not_mem_nil hq).elim
  rw [List.append_nil, ← likeTerms_eq] at visited
  -- the terms of the table are those of the sum
  have terms : (((args.filter (!·.isNumber)).map fun a => (a.splitCoefficient.2, a.splitCoefficient.1)).filter
      fun p => !p.2.isZero).map (fun p => attachCoefficient p.2 p.1) = args.filter (!·.isNumber) := by
    rw [List.filter_map, List.map_map, List.filter_eq_self.mpr]
    · refine (List.map_congr_left fun a ha => ?_).trans (List.map_id _)
      obtain ⟨mem, other⟩ := List.mem_filter.mp ha
      exact split a mem (by simpa using other)
    · intro a ha
      rw [Function.comp_apply, h.nonzero a (List.mem_of_mem_filter ha)]
      rfl
  rw [sumNormal_eq_sumOfTally, h.flatten_eq, sumOfTally_eq_of_perm _ visited]
  unfold sumOfTally
  dsimp only
  rw [filterMap_nonzero, terms]
  have whole : (if (constantPart args).isZero then args.filter (!·.isNumber) else
      args.filter (!·.isNumber) ++ [num (constantPart args)]).Perm args := by
    refine List.Perm.trans ?_ (List.filter_append_perm (·.isNumber) args)
    rw [constantPart_eq_filter]
    obtain none | ⟨c, one, mem⟩ := h.numbers_cases
    · rw [none]
      exact List.Perm.refl _
    · have nonzero : c.isZero = false := h.nonzero _ mem
      rw [one, constantPart_singleton, nonzero, if_neg Bool.false_ne_true]
      exact List.perm_append_comm
  rw [sort_eq_of_perm whole]
  have len : (sort args).length = args.length := (sort_perm args).length_eq
  generalize sort args = sorted at len
  rcases sorted with _ | ⟨a, _ | ⟨b, as⟩⟩
  · simp only [List.length_nil] at len
    omega
  · simp only [List.length_cons, List.length_nil] at len
    omega
  · rfl

/-- A factor of a normal form is the power of its base. -/
theorem powerRuns_splitExponent (h : IsArranged f) : PowerRuns f.splitExponent.1 f.splitExponent.2 (.ok f) := by
  unfold splitExponent
  split
  · rename_i b e
    obtain ⟨b', e', same, power⟩ := (throughout_op.mp h).1 rfl
    cases same
    exact powerRuns_number.mpr power
  · exact .one rfl rfl

theorem powersRun_splitExponent (h : ∀ f ∈ as, IsArranged f) : PowersRun (as.map splitExponent) (.ok as) := by
  induction as with
  | nil => exact .nil
  | cons f as ih =>
    obtain ⟨first, later⟩ := List.forall_mem_cons.mp h
    exact .cons (powerRuns_splitExponent first) (ih later)

/-- **A collected product** in order stays as it is. -/
theorem productNormal_of_collected (h : CollectedProduct args) (many : 2 ≤ args.length)
    (order : Arranged .mul args) (factors : ∀ f ∈ args, IsArranged f) :
    productNormal args = .ok (op .mul args) := by
  have unlike : (((args.filter (!·.isNumber)).map splitExponent).map Prod.fst).Nodup := by
    rw [List.map_map]
    exact h.unlike
  have visited := Tally.collect_perm unlike fun _ _ _ hq => (List.not_mem_nil hq).elim
  rw [List.append_nil, ← likeFactors_eq] at visited
  have number := numericPart_eq_filter args
  have nonzero : (numericPart args).isZero = false := by
    rw [number]
    obtain none | ⟨c, one, mem⟩ := h.numbers_cases
    · rw [none]
      rfl
    · rw [one, numericPart_singleton]
      exact h.nonzero c mem
  have powers : PowersRun _ (.ok (args.filter (!·.isNumber))) :=
    powersRun_splitExponent fun f hf => factors f (List.mem_of_mem_filter hf)
  have run : ProductRuns args (.ok (productOfPowers (numericPart args) (args.filter (!·.isNumber)))) := by
    have run : ProductRuns args _ :=
      .powers (by rwa [h.flatten_eq]) (by rw [h.flatten_eq]; exact visited.symm) powers
    rwa [h.flatten_eq] at run
  refine (productRuns_iff.mp run).trans (congrArg Except.ok ?_)
  -- the factors are opened, searched for numbers and sorted in vain
  have opened : (args.filter (!·.isNumber)).flatMap factorsOf = args.filter (!·.isNumber) := by
    rw [← flatten_mul]
    exact flatten_of_forall fun a ha => h.flat a (List.mem_of_mem_filter ha)
  have unit : numericPart args * numericPart (args.filter (!·.isNumber)) = numericPart args := by
    have none : (args.filter (!·.isNumber)).filter (·.isNumber) = [] := by simp [List.filter_filter]
    rw [numericPart_eq_filter (args.filter (!·.isNumber)), none]
    refine Coefficient.toRat_injective ?_
    rw [Coefficient.toRat_mul, toRat_numericPart [], List.map_nil, List.prod_nil, mul_one]
  obtain ⟨numbers, others, rfl, areNumbers, areNot, sorted⟩ := order
  have left : (numbers ++ others).filter (·.isNumber) = numbers := by
    rw [List.filter_append, List.filter_eq_self.mpr areNumbers, List.filter_eq_nil_iff.mpr (by simpa using areNot),
      List.append_nil]
  have right : (numbers ++ others).filter (!·.isNumber) = others := by
    rw [List.filter_append, List.filter_eq_nil_iff.mpr (by simpa using areNumbers),
      List.filter_eq_self.mpr (by simpa using areNot), List.nil_append]
  unfold productOfPowers
  dsimp only
  rw [opened, unit, nonzero, if_neg Bool.false_ne_true, List.filter_filter]
  simp only [Bool.and_self]
  rw [right, sorted, number, left]
  have cases := h.numbers_cases
  rw [left] at cases
  obtain rfl | ⟨c, rfl, mem⟩ := cases
  · rcases others with _ | ⟨a, _ | ⟨b, more⟩⟩
    · simp at many
    · simp at many
    · rfl
  · have other : ¬(c.isOne = true) := Bool.eq_false_iff.mp (h.unwritten c mem)
    rw [numericPart_singleton]
    rcases others with _ | ⟨a, _ | ⟨b, more⟩⟩
    · simp at many
    · exact if_neg other
    · exact if_neg other

/-! ## 3. Expressions that are their own normal forms -/

/-- The terms of a collected sum are put together again from their coefficients and the rest. -/
theorem isSplit_of_collected (h : CollectedSum args) (mem : a ∈ args) (other : a.isNumber = false)
    (collected : IsCollected a) : IsSplit a := by
  unfold IsSplit splitCoefficient
  split
  · cases other
  · rename_i c b
    have product : CollectedProduct [num c, b] := (throughout_op.mp collected).1 rfl
    have flat := product.flat b (List.mem_cons_of_mem _ List.mem_cons_self)
    show attachCoefficient c b = _
    unfold attachCoefficient
    rw [h.unwritten c _ mem, if_neg Bool.false_ne_true]
    split
    · exact absurd rfl (flat _)
    · rfl
  · rename_i c factors _
    unfold attachCoefficient
    rw [h.unwritten c _ mem, if_neg Bool.false_ne_true]
  · rfl

/-- **A node that is arranged and collected** is the normal form of its operands. -/
theorem nodeNormal_of_collected (accepts : o.accepts args.length = true) (order : Arranged o args)
    (together : Collected o args) (arranged : ∀ a ∈ args, IsArranged a) (collected : ∀ a ∈ args, IsCollected a) :
    nodeNormal o args = .ok (op o args) := by
  cases o with
  | add =>
    have sum : CollectedSum args := together
    have split : ∀ a ∈ args, a.isNumber = false → IsSplit a := fun a ha other =>
      isSplit_of_collected sum ha other (collected a ha)
    have sorted : sort args = args := order
    rw [nodeNormal, sumNormal_of_collected sum (of_decide_eq_true accepts) split, sorted]
  | mul => exact productNormal_of_collected together (of_decide_eq_true accepts) order arranged
  | pow =>
    obtain ⟨b, e, rfl, power⟩ := order
    exact power
  | sub | neg | div => exact order.elim
  | subscript | prime => rfl

mutual
/-- **An arranged and collected expression is its own normal form.** -/
theorem normalize_of_collected : ∀ a : Expr, IsArranged a → IsCollected a → normalize a = .ok a
  | num n, _, _ => by rw [normalize]
  | var x, _, _ => by rw [normalize]
  | call f args, arranged, collected => by
    rw [normalize, normalizeList_of_collected args (throughout_call.mp arranged) (throughout_call.mp collected)]
    rfl
  | op o args, arranged, collected => by
    obtain ⟨order, arrangedArgs⟩ := throughout_op.mp arranged
    obtain ⟨together, collectedArgs⟩ := throughout_op.mp collected
    rw [normalize, normalizeList_of_collected args arrangedArgs collectedArgs]
    show (if o.accepts args.length then nodeNormal o args else .ok (op o args)) = _
    split
    · rename_i accepts
      exact nodeNormal_of_collected accepts (order accepts) (together accepts) arrangedArgs collectedArgs
    · rfl

theorem normalizeList_of_collected : ∀ as : List Expr, (∀ a ∈ as, IsArranged a) → (∀ a ∈ as, IsCollected a) →
    normalizeList as = .ok as
  | [], _, _ => by rw [normalizeList]
  | a :: as, arranged, collected => by
    obtain ⟨arrangedFirst, arrangedLater⟩ := List.forall_mem_cons.mp arranged
    obtain ⟨collectedFirst, collectedLater⟩ := List.forall_mem_cons.mp collected
    rw [normalizeList, normalize_of_collected a arrangedFirst collectedFirst,
      normalizeList_of_collected as arrangedLater collectedLater]
    rfl
end

end Expr

end Eliminant
