import Eliminant.Proofs.Expr.Arranged

/-!
# Normal forms weigh no more than what is normalized

A weight is given to expressions such that opening a node, folding numbers and collecting like operands take some
of it away, and raising the factors of a product one by one adds nothing. A coefficient adds less than any
expression that is no number, so two like terms weigh more than one with the sum of their coefficients; and a
power weighs less than two of its bases.

* `Expr.weight`, `Expr.overhead`;
* `Tally.collect_cost`: collecting gets cheaper unless all entries are unlike;
* **`Expr.weight_sumNormal`**, **`Expr.weight_product`**: a sum or a product gets lighter unless it is
  collected;
* `Expr.PowerRuns.weight_le`: a power weighs no more than it did.
-/

namespace Eliminant

/-! ## 1. The weight of an expression -/

namespace Expr

/-- What a node adds to the weight of its operands, by their number. Nodes with too few operands are made heavy
    enough for a product not to lose weight when it is given a coefficient. -/
def overhead : Nat → Nat
  | 0 => 5
  | 1 => 4
  | _ => 1

mutual
/-- The weight of an expression. -/
def weight : Expr → Nat
  | num _ => 3
  | var _ => 5
  | call _ args => weightList args + 5
  | op .pow [b, e] => 2 * weight b + weight e - 4
  | op _ args => weightList args + overhead args.length

/-- The weight of an operand list. -/
def weightList : List Expr → Nat
  | [] => 0
  | a :: as => weight a + weightList as
end

variable {a b r : Expr} {as bs args factors : List Expr} {o : Operator} {c d e : Coefficient}

theorem weight_pow (b e : Expr) : weight (op .pow [b, e]) = 2 * weight b + weight e - 4 := by rw [weight]

/-- All other nodes add to the weight of their operands. -/
theorem weight_op (other : ¬(o = .pow ∧ args.length = 2)) :
    weight (op o args) = weightList args + overhead args.length := by
  rw [weight]
  rintro b e rfl rfl
  exact other ⟨rfl, rfl⟩

theorem weight_mul (factors : List Expr) :
    weight (op .mul factors) = weightList factors + overhead factors.length :=
  weight_op fun power => by cases power.1

theorem weightList_eq_sum (as : List Expr) : weightList as = (as.map weight).sum := by
  induction as with
  | nil => rfl
  | cons a as ih => rw [weightList, ih, List.map_cons, List.sum_cons]

theorem weightList_append (as bs : List Expr) : weightList (as ++ bs) = weightList as + weightList bs := by
  rw [weightList_eq_sum, weightList_eq_sum, weightList_eq_sum, List.map_append, List.sum_append]

theorem weightList_perm (h : as.Perm bs) : weightList as = weightList bs := by
  rw [weightList_eq_sum, weightList_eq_sum]
  exact (h.map weight).sum_eq

theorem overhead_pos (n : Nat) : 1 ≤ overhead n := by
  rcases n with _ | _ | n <;> simp [overhead]

/-- An expression that is no number weighs more than a coefficient adds. -/
theorem weight_bounds (a : Expr) : 3 ≤ weight a ∧ (a.isNumber = false → 5 ≤ weight a) := by
  induction size : a.size using Nat.strong_induction_on generalizing a with
  | _ n ih =>
    have operand {o : Operator} {args : List Expr} (whole : (op o args).size = n) : ∀ b ∈ args, 3 ≤ weight b := by
      intro b hb
      have smaller := size_le_of_mem hb
      rw [Expr.size] at whole
      exact (ih b.size (by omega) b rfl).1
    cases a with
    | num c =>
      rw [weight]
      exact ⟨Nat.le_refl 3, fun other => by cases other⟩
    | var x =>
      rw [weight]
      exact ⟨by omega, fun _ => Nat.le_refl 5⟩
    | call f args =>
      rw [weight]
      exact ⟨by omega, fun _ => by omega⟩
    | op o args =>
      suffices five : 5 ≤ weight (op o args) from ⟨by omega, fun _ => five⟩
      have each := operand size
      by_cases power : o = .pow ∧ args.length = 2
      · obtain ⟨rfl, two⟩ := power
        obtain ⟨b, e, rfl⟩ := List.length_eq_two.mp two
        obtain ⟨base, each⟩ := List.forall_mem_cons.mp each
        have exponent := List.forall_mem_singleton.mp each
        rw [weight_pow]
        omega
      rw [weight_op power]
      rcases args with _ | ⟨b, _ | ⟨c, more⟩⟩
      · simp only [weightList, List.length_nil, overhead]
        omega
      · have first := List.forall_mem_singleton.mp each
        simp only [weightList, List.length_cons, List.length_nil, overhead]
        omega
      · obtain ⟨first, each⟩ := List.forall_mem_cons.mp each
        obtain ⟨second, -⟩ := List.forall_mem_cons.mp each
        simp only [weightList, List.length_cons, overhead]
        omega

theorem three_le_weight (a : Expr) : 3 ≤ weight a := (weight_bounds a).1

theorem five_le_weight (other : a.isNumber = false) : 5 ≤ weight a := (weight_bounds a).2 other

/-- The weight of a sum or a product with enough operands. -/
theorem weight_of_two_le (o : Operator) (args : List Expr) (other : o ≠ .pow) (many : 2 ≤ args.length) :
    weight (op o args) = weightList args + 1 ∧ 6 ≤ weightList args := by
  rw [weight_op fun power => other power.1]
  rcases args with _ | ⟨a, _ | ⟨b, more⟩⟩
  · simp at many
  · simp at many
  · have first := three_le_weight a
    have second := three_le_weight b
    refine ⟨rfl, ?_⟩
    simp only [weightList]
    omega

/-- **Lighter operands make a lighter node.** -/
theorem weight_op_lt (each : List.Forall₂ (fun b a => weight b ≤ weight a) bs as) (lt : weightList bs < weightList as) :
    weight (op o bs) < weight (op o as) := by
  have len := each.length_eq
  by_cases power : o = .pow ∧ as.length = 2
  · obtain ⟨rfl, two⟩ := power
    obtain ⟨b, e, rfl⟩ := List.length_eq_two.mp two
    obtain ⟨b', e', rfl⟩ := List.length_eq_two.mp (len.trans two)
    obtain ⟨base, each⟩ := List.forall₂_cons.mp each
    obtain ⟨exponent, -⟩ := List.forall₂_cons.mp each
    have first := three_le_weight b'
    have second := three_le_weight e'
    rw [weight_pow, weight_pow]
    simp only [weightList] at lt
    omega
  · rw [weight_op power, weight_op (len ▸ power), len]
    omega

/-- Numbers, and what is none. -/
theorem weightList_eq_filter (as : List Expr) : weightList as =
    3 * (as.filter (·.isNumber)).length + weightList (as.filter (!·.isNumber)) := by
  rw [← weightList_perm (List.filter_append_perm (·.isNumber) as), weightList_append]
  congr 1
  have each : ∀ a ∈ as.filter (·.isNumber), a.isNumber = true := fun a ha => (List.mem_filter.mp ha).2
  generalize as.filter (·.isNumber) = numbers at each
  induction numbers with
  | nil => rfl
  | cons a numbers ih =>
    obtain ⟨first, later⟩ := List.forall_mem_cons.mp each
    obtain ⟨c, rfl⟩ := eq_num_of_isNumber first
    rw [weightList, ih later, List.length_cons, weight]
    omega

/-- Opening a sum or a product takes its overhead away. -/
theorem weightList_flatten (other : o ≠ .pow) (as : List Expr) : weightList (flatten o as) ≤ weightList as ∧
    (weightList (flatten o as) = weightList as → ∀ a ∈ as, ∀ bs, a ≠ op o bs) := by
  fun_induction flatten o as with
  | case1 => exact ⟨Nat.le_refl 0, fun _ => List.forall_mem_nil _⟩
  | case2 inner rest ih =>
    have opened : weight (op o inner) = _ := weight_op fun power => other power.1
    have added := overhead_pos inner.length
    rw [weightList_append, weightList]
    exact ⟨by omega, fun same => by omega⟩
  | case3 p inner rest different ih =>
    rw [weightList, weightList]
    refine ⟨by omega, fun same => List.forall_mem_cons.mpr ⟨?_, ih.2 (by omega)⟩⟩
    rintro bs same
    cases same
    exact different rfl
  | case4 a rest different ih =>
    rw [weightList, weightList]
    refine ⟨by omega, fun same => List.forall_mem_cons.mpr ⟨?_, ih.2 (by omega)⟩⟩
    exact fun bs => different o bs

end Expr

/-! ## 2. The cost of a tally -/

/-- What is cheaper everywhere is cheaper in total, unless it costs the same everywhere. -/
theorem sum_costs {α : Type} {f g : α → Nat} {l : List α} (h : ∀ a ∈ l, f a ≤ g a) :
    (l.map f).sum ≤ (l.map g).sum ∧ ((l.map f).sum = (l.map g).sum → ∀ a ∈ l, f a = g a) := by
  induction l with
  | nil => exact ⟨Nat.le_refl 0, fun _ => List.forall_mem_nil _⟩
  | cons a l ih =>
    obtain ⟨first, later⟩ := List.forall_mem_cons.mp h
    obtain ⟨le, same⟩ := ih later
    simp only [List.map_cons, List.sum_cons]
    exact ⟨by omega, fun eq => List.forall_mem_cons.mpr ⟨by omega, same (by omega)⟩⟩

namespace Tally

variable {cost : Expr × Coefficient → Nat} {a : Expr} {c : Coefficient} {pairs : List (Expr × Coefficient)}

section Cost

variable (merge : ∀ a c d, cost (a, c + d) < cost (a, c) + cost (a, d))

include merge

theorem add_cost (a : Expr) (c : Coefficient) (t : Tally) : (t.add a c).Perm ((a, c) :: t) ∨
    ((t.add a c).map cost).sum < cost (a, c) + (t.map cost).sum := by
  induction t with
  | nil => exact .inl (List.Perm.refl _)
  | cons p t ih =>
    obtain ⟨b, d⟩ := p
    unfold add
    split
    · refine ih.imp (fun perm => (perm.cons _).trans (.swap _ _ _)) fun lt => ?_
      simp only [List.map_cons, List.sum_cons]
      omega
    · rename_i same
      cases Expr.eq_of_compare same
      have cheaper := merge a d c
      refine .inr ?_
      simp only [List.map_cons, List.sum_cons]
      omega
    · exact .inl (List.Perm.refl _)

/-- **Collecting gets cheaper**, unless nothing is merged. -/
theorem collect_cost (pairs : List (Expr × Coefficient)) (t : Tally) :
    ((collect pairs t).map cost).sum ≤ (pairs.map cost).sum + (t.map cost).sum ∧
      (((collect pairs t).map cost).sum = (pairs.map cost).sum + (t.map cost).sum →
        (collect pairs t).Perm (pairs ++ t)) := by
  induction pairs generalizing t with
  | nil => exact ⟨(Nat.zero_add _).ge, fun _ => List.Perm.refl _⟩
  | cons p pairs ih =>
    obtain ⟨a, c⟩ := p
    obtain ⟨le, unmerged⟩ := ih (t.add a c)
    show ((collect pairs (t.add a c)).map cost).sum ≤ _ ∧ (((collect pairs (t.add a c)).map cost).sum = _ →
      (collect pairs (t.add a c)).Perm _)
    rw [List.map_cons, List.sum_cons]
    obtain inserted | cheaper := add_cost merge a c t
    · have total := (inserted.map cost).sum_eq
      rw [List.map_cons, List.sum_cons] at total
      refine ⟨by omega, fun same => ?_⟩
      exact ((unmerged (by omega)).trans (inserted.append_left pairs)).trans List.perm_middle
    · exact ⟨by omega, fun same => by omega⟩

end Cost

end Tally

namespace Expr

variable {a b r : Expr} {as bs args factors : List Expr} {o : Operator} {c d e : Coefficient} {t : Tally}

/-! ## 3. Sums -/

/-- What a coefficient adds. -/
theorem weight_attachCoefficient (c : Coefficient) (a : Expr) :
    weight a ≤ weight (attachCoefficient c a) ∧ weight (attachCoefficient c a) ≤ weight a + 4 := by
  unfold attachCoefficient
  split
  · omega
  split
  · rename_i factors
    rw [weight_mul, weight_mul, weightList, weight]
    rcases factors with _ | ⟨a, _ | ⟨b, more⟩⟩
    all_goals
      simp only [List.length_cons, List.length_nil, overhead]
      omega
  · rw [weight_mul, weightList, weight]
    simp only [weightList, List.length_cons, List.length_nil, overhead]
    omega

/-- The cost of a term in a tally. -/
def termCost (p : Expr × Coefficient) : Nat := max 5 (weight (attachCoefficient p.2 p.1))

theorem termCost_merge (a : Expr) (c d : Coefficient) : termCost (a, c + d) < termCost (a, c) + termCost (a, d) := by
  have bound := three_le_weight a
  have sum := weight_attachCoefficient (c + d) a
  have first := weight_attachCoefficient c a
  have second := weight_attachCoefficient d a
  simp only [termCost]
  omega

/-- A term gets lighter when it is put together again, unless it stays as it is. -/
theorem weight_split (other : a.isNumber = false) :
    weight (attachCoefficient a.splitCoefficient.1 a.splitCoefficient.2) < weight a ∨ IsSplit a := by
  unfold IsSplit splitCoefficient
  split
  · cases other
  · rename_i c b
    show weight (attachCoefficient c b) < _ ∨ attachCoefficient c b = _
    unfold attachCoefficient
    split
    · refine .inl ?_
      rw [weight_mul]
      simp only [weightList, weight, List.length_cons, List.length_nil, overhead]
      omega
    split
    · rename_i factors
      refine .inl ?_
      rw [weight_mul, weight_mul, weightList, weightList, weightList, weight_mul, weight]
      rcases factors with _ | ⟨a, _ | ⟨b, more⟩⟩
      all_goals
        simp only [List.length_cons, List.length_nil, overhead]
        omega
    · exact .inr rfl
  · rename_i c factors several
    show weight (attachCoefficient c (op .mul factors)) < _ ∨ attachCoefficient c (op .mul factors) = _
    unfold attachCoefficient
    split
    · refine .inl ?_
      rw [weight_mul, weight_mul, weightList, weight]
      rcases factors with _ | ⟨a, _ | ⟨b, more⟩⟩
      · simp only [List.length_cons, List.length_nil, overhead]
        omega
      · exact absurd rfl (several a)
      · simp only [List.length_cons, overhead]
        omega
    · exact .inr rfl
  · exact .inr rfl

theorem termCost_split (other : a.isNumber = false) :
    termCost (a.splitCoefficient.2, a.splitCoefficient.1) ≤ weight a := by
  have bound := five_le_weight other
  refine Nat.max_le.mpr ⟨bound, ?_⟩
  obtain lt | whole := weight_split other
  · exact lt.le
  · exact (congrArg weight whole).le

/-- A coefficient that is written is not `1`. -/
theorem IsSplit.isOne_eq_false (h : IsSplit (op .mul (num c :: factors))) : c.isOne = false := by
  cases one : c.isOne with
  | false => rfl
  | true =>
    have rest (a : Expr) : attachCoefficient c a = a := if_pos one
    rcases factors with _ | ⟨a, _ | ⟨b, more⟩⟩
    · cases (rest _).symm.trans h
    · have same : a = op .mul [num c, a] := (rest a).symm.trans h
      have sizes := congrArg size same
      simp only [size, sizeList] at sizes
      omega
    · have same : op .mul (a :: b :: more) = op .mul (num c :: a :: b :: more) := (rest _).symm.trans h
      have sizes := congrArg size same
      simp only [size, sizeList] at sizes
      omega

/-- What is left of a term of a tally. -/
def termWeight (p : Expr × Coefficient) : Nat := if p.2.isZero then 0 else weight (attachCoefficient p.2 p.1)

theorem termWeight_le (p : Expr × Coefficient) : termWeight p ≤ termCost p := by
  unfold termWeight termCost
  split
  · exact Nat.zero_le _
  · exact Nat.le_max_right _ _

/-- **Like terms get lighter**, unless they are collected already. -/
theorem likeTerms_cost (as : List Expr) :
    ((likeTerms as).map termWeight).sum ≤ weightList (as.filter (!·.isNumber)) ∧
      (((likeTerms as).map termWeight).sum = weightList (as.filter (!·.isNumber)) →
        ((as.filter (!·.isNumber)).map (·.splitCoefficient.2)).Nodup ∧
          ∀ a ∈ as, a.isNumber = false → a.splitCoefficient.1.isZero = false ∧ IsSplit a) := by
  have given : ∀ a ∈ as.filter (!·.isNumber), termCost (a.splitCoefficient.2, a.splitCoefficient.1) ≤ weight a :=
    fun a ha => termCost_split (by simpa using (List.mem_filter.mp ha).2)
  obtain ⟨givenLe, givenEq⟩ := sum_costs given
  obtain ⟨collectedLe, unmerged⟩ := Tally.collect_cost termCost_merge
    ((as.filter (!·.isNumber)).map fun a => (a.splitCoefficient.2, a.splitCoefficient.1)) []
  obtain ⟨keptLe, keptEq⟩ := sum_costs fun p (_ : p ∈ likeTerms as) => termWeight_le p
  rw [← likeTerms_eq, List.map_nil, List.sum_nil, Nat.add_zero, List.map_map] at collectedLe unmerged
  simp only [Function.comp_def] at collectedLe unmerged
  rw [← weightList_eq_sum] at givenLe givenEq
  refine ⟨by omega, fun same => ?_⟩
  have unmerged := unmerged (by omega)
  have givenEq := givenEq (by omega)
  have keptEq := keptEq (by omega)
  rw [List.append_nil] at unmerged
  have unlike := Tally.nodup_of_perm (likeTerms_eq as ▸ unmerged)
  rw [List.map_map] at unlike
  refine ⟨unlike, fun a ha other => ?_⟩
  -- a term costs as much as it weighs, and it is kept
  have mem : a ∈ as.filter (!·.isNumber) := List.mem_filter.mpr ⟨ha, by simp [other]⟩
  have kept := keptEq _ (unmerged.mem_iff.mpr (List.mem_map_of_mem mem))
  have weighs : (if a.splitCoefficient.1.isZero then 0 else
      weight (attachCoefficient a.splitCoefficient.1 a.splitCoefficient.2)) = weight a := kept.trans (givenEq a mem)
  have bound := three_le_weight a
  cases zero : a.splitCoefficient.1.isZero with
  | true =>
    rw [zero, if_pos rfl] at weighs
    omega
  | false =>
    rw [zero, if_neg Bool.false_ne_true] at weighs
    exact ⟨rfl, (weight_split other).resolve_left (by omega)⟩

/-- The weight of a sum that is put together from a number and terms. -/
theorem weight_sumOfTally (c : Coefficient) (t : Tally) :
    weight (sumOfTally c t) ≤ max 3 (1 + (if c.isZero then 0 else 3) + (t.map termWeight).sum) := by
  have terms : weightList ((t.filter fun p => !p.2.isZero).map fun p => attachCoefficient p.2 p.1) =
      (t.map termWeight).sum := by
    induction t with
    | nil => rfl
    | cons p t ih =>
      rw [List.map_cons, List.sum_cons, ← ih]
      cases zero : p.2.isZero with
      | true => simp [termWeight, zero]
      | false => simp [termWeight, zero, weightList]
  rw [← terms]
  unfold sumOfTally
  dsimp only
  rw [filterMap_nonzero]
  generalize List.map _ (List.filter _ t) = collected
  have listed : weightList (if c.isZero then collected else collected ++ [num c]) =
      (if c.isZero then 0 else 3) + weightList collected := by
    split
    · rw [Nat.zero_add]
    · rw [weightList_append, Nat.add_comm]
      simp only [weightList, weight]
  rw [Nat.add_assoc, ← listed, ← weightList_perm (sort_perm _)]
  generalize sort _ = sorted
  rcases sorted with _ | ⟨a, _ | ⟨b, more⟩⟩
  · exact Nat.le_max_left _ _
  · simp only [weightList]
    omega
  · have node := (weight_of_two_le .add (a :: b :: more) (by simp) (by simp)).1
    dsimp only
    omega

/-- What the number of a sum or a product weighs, beside all the numbers that it is folded from. -/
theorem number_cost {fold : List Expr → Coefficient} (neutral : Coefficient → Bool)
    (filtered : ∀ as, fold as = fold (as.filter (·.isNumber))) (empty : neutral (fold []) = true)
    (single : ∀ c, fold [num c] = c) (as : List Expr) :
    (if neutral (fold as) then 0 else 3) ≤ 3 * (as.filter (·.isNumber)).length ∧
      ((if neutral (fold as) then 0 else 3) = 3 * (as.filter (·.isNumber)).length →
        (as.filter (·.isNumber)).length ≤ 1 ∧ ∀ c, num c ∈ as → neutral c = false ∧ fold as = c) := by
  have members : ∀ c, num c ∈ as → num c ∈ as.filter (·.isNumber) := fun c hc => List.mem_filter.mpr ⟨hc, rfl⟩
  have each : ∀ a ∈ as.filter (·.isNumber), a.isNumber = true := fun a ha => (List.mem_filter.mp ha).2
  rw [filtered]
  generalize as.filter (·.isNumber) = numbers at members each
  rcases numbers with _ | ⟨a, _ | ⟨b, more⟩⟩
  · rw [empty, if_pos rfl]
    refine ⟨Nat.zero_le _, fun _ => ⟨Nat.zero_le 1, fun c hc => ?_⟩⟩
    cases members c hc
  · obtain ⟨d, rfl⟩ := eq_num_of_isNumber (each a List.mem_cons_self)
    rw [single]
    cases unit : neutral d with
    | true => exact ⟨Nat.zero_le _, fun same => by cases same⟩
    | false =>
      refine ⟨Nat.le_refl 3, fun _ => ⟨Nat.le_refl 1, fun c hc => ?_⟩⟩
      cases List.mem_singleton.mp (members c hc)
      exact ⟨unit, rfl⟩
  · have upper : (if neutral (fold (a :: b :: more)) then 0 else 3) ≤ 3 := by
      split
      · exact Nat.zero_le 3
      · exact Nat.le_refl 3
    simp only [List.length_cons] at upper ⊢
    exact ⟨by omega, fun same => by omega⟩

/-- **A sum gets lighter**, unless it is collected. -/
theorem weight_sumNormal (args : List Expr) : weight (sumNormal args) ≤ max 3 (1 + weightList args) ∧
    (weight (sumNormal args) = 1 + weightList args → 2 < weightList args →
      CollectedSum args ∧ ∀ a ∈ args, a.isNumber = false → IsSplit a) := by
  obtain ⟨opened, flat⟩ := weightList_flatten (o := .add) (by simp) args
  have parts := weightList_eq_filter (flatten .add args)
  obtain ⟨number, folded⟩ := number_cost Coefficient.isZero constantPart_eq_filter rfl
    constantPart_singleton (flatten .add args)
  obtain ⟨terms, collected⟩ := likeTerms_cost (flatten .add args)
  have whole := weight_sumOfTally (constantPart (flatten .add args)) (likeTerms (flatten .add args))
  rw [← sumNormal_eq_sumOfTally] at whole
  refine ⟨by omega, fun same many => ?_⟩
  have flat := flat (by omega)
  obtain ⟨one, nonzero⟩ := folded (by omega)
  obtain ⟨unlike, term⟩ := collected (by omega)
  rw [flatten_of_forall flat] at one nonzero unlike term
  refine ⟨⟨⟨one, flat, unlike⟩, fun a ha => ?_, fun c factors mem => ?_⟩, fun a ha other => (term a ha other).2⟩
  · cases kind : a.isNumber with
    | true =>
      obtain ⟨c, rfl⟩ := eq_num_of_isNumber kind
      exact (nonzero c ha).1
    | false => exact (term a ha kind).1
  · exact (term _ mem rfl).2.isOne_eq_false

/-! ## 4. Products and powers -/

/-- The cost of a factor in a tally. -/
def factorCost (p : Expr × Coefficient) : Nat := if p.2.isOne then weight p.1 else 2 * weight p.1 - 1

theorem factorCost_le (b : Expr) (e : Coefficient) : weight b ≤ factorCost (b, e) ∧ factorCost (b, e) < 2 * weight b := by
  have bound := three_le_weight b
  unfold factorCost
  split
  · dsimp only
    omega
  · dsimp only
    omega

/-- Factors that are raised one by one. -/
theorem sum_factorCost_le (e : Coefficient) (factors : List Expr) :
    ((factors.map (·, e)).map factorCost).sum ≤ 2 * weightList factors := by
  induction factors with
  | nil => exact Nat.zero_le _
  | cons f factors ih =>
    have first := factorCost_le f e
    simp only [List.map_cons, List.sum_cons, weightList] at ih ⊢
    omega

theorem factorCost_merge (b : Expr) (d e : Coefficient) :
    factorCost (b, d + e) < factorCost (b, d) + factorCost (b, e) := by
  have sum := factorCost_le b (d + e)
  have first := factorCost_le b d
  have second := factorCost_le b e
  omega

theorem factorCost_split (a : Expr) : factorCost a.splitExponent ≤ weight a := by
  unfold splitExponent
  split
  · rename_i b e
    have bound := factorCost_le b e
    rw [weight_pow, weight]
    omega
  · exact (if_pos rfl).le

/-- **Like factors get cheaper**, unless they are collected already. -/
theorem likeFactors_cost (as : List Expr) :
    ((likeFactors as).map factorCost).sum ≤ weightList (as.filter (!·.isNumber)) ∧
      (((likeFactors as).map factorCost).sum = weightList (as.filter (!·.isNumber)) →
        ((as.filter (!·.isNumber)).map (·.splitExponent.1)).Nodup) := by
  have givenLe := (sum_costs fun a (_ : a ∈ as.filter (!·.isNumber)) => factorCost_split a).1
  obtain ⟨collectedLe, unmerged⟩ := Tally.collect_cost factorCost_merge
    ((as.filter (!·.isNumber)).map splitExponent) []
  rw [← likeFactors_eq, List.map_nil, List.sum_nil, Nat.add_zero, List.map_map] at collectedLe unmerged
  simp only [Function.comp_def] at collectedLe unmerged
  rw [← weightList_eq_sum] at givenLe
  refine ⟨by omega, fun same => ?_⟩
  have unmerged := unmerged (by omega)
  rw [List.append_nil] at unmerged
  have unlike := Tally.nodup_of_perm (likeFactors_eq as ▸ unmerged)
  rwa [List.map_map] at unlike

theorem weightList_factorsOf (a : Expr) : weightList (factorsOf a) ≤ weight a := by
  unfold factorsOf
  split
  · rw [weight_mul]
    exact Nat.le_add_right _ _
  · exact Nat.le_refl _

theorem weightList_flatMap_factorsOf (as : List Expr) : weightList (as.flatMap factorsOf) ≤ weightList as := by
  induction as with
  | nil => exact Nat.le_refl 0
  | cons a as ih =>
    rw [List.flatMap_cons, weightList_append, weightList]
    exact Nat.add_le_add (weightList_factorsOf a) ih

theorem numericPart_append (as bs : List Expr) : numericPart (as ++ bs) = numericPart as * numericPart bs := by
  refine Coefficient.toRat_injective ?_
  rw [Coefficient.toRat_mul, toRat_numericPart, toRat_numericPart, toRat_numericPart, List.map_append,
    List.prod_append]

/-- The weight of a product that is put together from a number and factors. -/
theorem weight_productOfPowers (c : Coefficient) (powers : List Expr) :
    ((c * numericPart (powers.flatMap factorsOf)).isZero = true → weight (productOfPowers c powers) = 3) ∧
      weight (productOfPowers c powers) ≤ max 3 (1 + (if (c * numericPart (powers.flatMap factorsOf)).isOne then 0
        else 3) + weightList ((powers.flatMap factorsOf).filter (!·.isNumber))) := by
  unfold productOfPowers
  dsimp only
  generalize c * _ = coefficient
  cases zero : coefficient.isZero with
  | true =>
    rw [if_pos rfl]
    exact ⟨fun _ => by rw [weight], by rw [weight]; omega⟩
  | false =>
    refine ⟨fun contra => (by cases contra), ?_⟩
    rw [if_neg Bool.false_ne_true, ← weightList_perm (sort_perm _)]
    generalize sort _ = sorted
    rcases sorted with _ | ⟨a, _ | ⟨b, more⟩⟩
    · rw [weight]
      omega
    · cases one : coefficient.isOne with
      | true =>
        simp only [weightList, if_true]
        omega
      | false =>
        have node := (weight_of_two_le .mul [num coefficient, a] (by simp) (by simp)).1
        simp only [weightList, weight, Bool.false_eq_true, if_false] at node ⊢
        omega
    · have product := (weight_of_two_le .mul (a :: b :: more) (by simp) (by simp)).1
      cases one : coefficient.isOne with
      | true =>
        have plain : attachCoefficient coefficient (op .mul (a :: b :: more)) = _ := if_pos one
        dsimp only
        rw [plain, if_pos rfl]
        omega
      | false =>
        have written : attachCoefficient coefficient (op .mul (a :: b :: more)) =
            op .mul (num coefficient :: a :: b :: more) := if_neg (Bool.eq_false_iff.mp one)
        have node := (weight_of_two_le .mul (num coefficient :: a :: b :: more) (by simp)
          (by simp)).1
        rw [weightList, weight] at node
        dsimp only
        rw [written, if_neg Bool.false_ne_true]
        omega

/-- **A product gets lighter**, unless it is collected. -/
theorem weight_product {visited : Tally} {powers : List Expr}
    (perm : visited.Perm (likeFactors (flatten .mul args)))
    (powersLe : weightList powers ≤ (visited.map factorCost).sum) :
    weight (productOfPowers (numericPart (flatten .mul args)) powers) ≤ max 3 (1 + weightList args) ∧
      (weight (productOfPowers (numericPart (flatten .mul args)) powers) = 1 + weightList args →
        2 < weightList args → CollectedProduct args) := by
  obtain ⟨opened, flat⟩ := weightList_flatten (o := .mul) (by simp) args
  have parts := weightList_eq_filter (flatten .mul args)
  obtain ⟨zero, whole⟩ := weight_productOfPowers (numericPart (flatten .mul args)) powers
  have factors := weightList_flatMap_factorsOf powers
  have openedParts := weightList_eq_filter (powers.flatMap factorsOf)
  obtain ⟨number, folded⟩ := number_cost Coefficient.isOne numericPart_eq_filter rfl
    numericPart_singleton (flatten .mul args ++ powers.flatMap factorsOf)
  rw [numericPart_append, List.filter_append, List.length_append] at number folded
  obtain ⟨collectedLe, collected⟩ := likeFactors_cost (flatten .mul args)
  rw [(perm.map factorCost).sum_eq] at powersLe
  refine ⟨by omega, fun same many => ?_⟩
  have flat := flat (by omega)
  obtain ⟨one, unwritten⟩ := folded (by omega)
  have unlike := collected (by omega)
  have nonzero := mt zero (by omega)
  rw [flatten_of_forall flat] at one unwritten nonzero unlike
  refine ⟨⟨by omega, flat, unlike⟩, fun c mem => ?_, fun c mem => ?_⟩
  · rw [(unwritten c (List.mem_append_left _ mem)).2] at nonzero
    exact Bool.not_eq_true _ ▸ nonzero
  · exact (unwritten c (List.mem_append_left _ mem)).1

mutual
/-- **A power weighs no more** than its base twice. -/
theorem PowerRuns.weight_le : ∀ {base : Expr} {e : Coefficient} {r : Except Failure Expr}, PowerRuns base e r →
    Answers (fun _ => True) (fun r => weight r ≤ factorCost (base, e)) r
  | base, e, _, .zero _ => by
    have bound := factorCost_le base e
    have three := three_le_weight base
    show weight (num .one) ≤ _
    rw [weight]
    omega
  | base, e, _, .one _ _ => (factorCost_le base e).1
  | num b, e, _, .number _ one => by
    refine (numericPower_cases b e).imp fun r shape => ?_
    have cost : factorCost (num b, e) = 5 := by
      rw [factorCost, one, if_neg Bool.false_ne_true, weight]
    rw [cost]
    obtain number | rfl := shape
    · obtain ⟨c, rfl⟩ := eq_num_of_isNumber number
      rw [weight]
      omega
    · rw [weight_pow, weight, weight]
  | op .pow [b, num f], e, _, .power _ _ _ run => by
    refine run.weight_le.imp fun r le => ?_
    have inner := factorCost_le b (f * e)
    have outer := factorCost_le (op .pow [b, num f]) e
    rw [weight_pow, weight] at outer
    omega
  | op .mul factors, e, _, .product _ one _ runs run => by
    refine run.weight_le.imp fun r le => ?_
    have raised := runs.weight_le.trans (sum_factorCost_le e factors)
    have cost : factorCost (op .mul factors, e) = 2 * weight (op .mul factors) - 1 := by
      rw [factorCost, one, if_neg Bool.false_ne_true]
    have node := weight_mul factors
    have added := overhead_pos factors.length
    have bound := three_le_weight (op .mul factors)
    rw [cost]
    omega
  | _, _, _, .productFails .. => trivial
  | base, e, _, .stays _ one _ => by
    show weight (op .pow [base, num e]) ≤ _
    rw [factorCost, one, if_neg Bool.false_ne_true, weight_pow, weight]
    dsimp only
    omega

theorem PowersRun.weight_le : ∀ {ps : List (Expr × Coefficient)} {rs : Except Failure (List Expr)},
    PowersRun ps rs → Answers (fun _ => True) (fun as => weightList as ≤ (ps.map factorCost).sum) rs
  | _, _, .nil => Nat.le_refl 0
  | _, _, .cons run runs => by
    rw [List.map_cons, List.sum_cons]
    exact Nat.add_le_add run.weight_le runs.weight_le
  | _, _, .fails _ => trivial
  | _, _, .laterFails .. => trivial

theorem ProductRuns.weight_le : ∀ {args : List Expr} {r : Except Failure Expr}, ProductRuns args r →
    Answers (fun _ => True) (fun r => weight r ≤ max 3 (1 + weightList args)) r
  | _, _, .zero _ => by
    show weight (num .zero) ≤ _
    rw [weight]
    exact Nat.le_max_left _ _
  | _, _, .powers _ perm runs => (weight_product perm runs.weight_le).1
  | _, _, .fails .. => trivial
end

/-- A product that is as heavy as it was is collected. -/
theorem ProductRuns.collected (h : ProductRuns args (.ok r)) (same : weight r = 1 + weightList args)
    (many : 2 < weightList args) : CollectedProduct args := by
  cases h with
  | zero _ =>
    rw [weight] at same
    omega
  | powers _ perm runs => exact (weight_product perm runs.weight_le).2 same many

end Expr

end Eliminant
