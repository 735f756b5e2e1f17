import Eliminant.Proofs.Calls
import Eliminant.Proofs.Expr.Visiting
import Mathlib.Data.Prod.Lex

/-!
# Normalizing comes to an end

Normalizing an expression, a sum, a product and a power call each other: a power of a product raises every factor,
which makes new powers, and hands them to a product, which raises the bases that it has collected from them. The
definitions count levels down. Here nothing is counted: `NormalCall.body` says what each of the four does from one
call to the next, for operands of any kind, and with the tables visited in any order.

* `Expr.powerNormal_pow`, `Expr.powerNormal_mul`, `Expr.productNormal_eq`: the normal forms satisfy the recursion
  without its levels, so every body comes to the normal form (`Expr.NormalCall.value_body`);
* `Expr.NormalCall.rank_lt`: a call makes only calls of a lower rank. A power ranks by the nodes of its base, a
  product by those of the largest base among its factors, and what becomes of the raised factors of a product has
  only bases that are smaller than the product;
* **`Expr.normalCalls_end`**: every run of every call ends, in the normal form or in the one failure there is, and
  what lies below the power of a base has strictly smaller bases.
-/

namespace Eliminant

namespace Expr

variable {base a b : Expr} {as args factors : List Expr} {e f : Coefficient} {depth n : Nat} {o : Operator}

/-! ## 1. Powers and products without levels -/

theorem mapM_congr {α β : Type} {g k : α → Except Failure β} {xs : List α} (h : ∀ x ∈ xs, g x = k x) :
    xs.mapM g = xs.mapM k := by
  induction xs with
  | nil => rfl
  | cons x xs ih =>
    rw [List.mapM_cons, List.mapM_cons, h x List.mem_cons_self, ih fun y hy => h y (List.mem_cons_of_mem x hy)]

/-- As many levels as the base has nodes are enough. -/
theorem powerOf_eq_powerNormal (small : base.size ≤ depth) : powerOf depth base e = powerNormal base (num e) :=
  (powerRuns_iff depth base e _ small).mp (powerRuns_number.mpr rfl)

theorem productWith_eq_productNormal (small : ∀ a ∈ args, HasBases depth a) :
    productWith (powerOf depth) args = productNormal args :=
  (productRuns_of_powers (powerRuns_iff depth) small).mp (productRuns_iff.mpr rfl)

theorem powerNormal_bases (base : Expr) (e : Coefficient) :
    Answers (fun _ => True) (HasBases base.size) (powerNormal base (num e)) := powerOf_bases base.size base e

/-- The powers of the factors of a product have smaller bases than the product. -/
theorem hasBases_of_powers {powers : List Expr}
    (raised : factors.mapM (fun f => powerNormal f (num e)) = .ok powers) :
    ∀ a ∈ powers, HasBases (sizeList factors) a :=
  (powers_bases fun f _ => powerNormal_bases f e).of_ok raised

/-- **A product** raises every base that it has collected to its exponent. -/
theorem productNormal_eq (args : List Expr) : productNormal args =
    if (numericPart (flatten .mul args)).isZero then .ok (num .zero)
    else do
      let powers ← (likeFactors (flatten .mul args)).mapM fun p => powerNormal p.1 (num p.2)
      return productOfPowers (numericPart (flatten .mul args)) powers := by
  have small : ∀ a ∈ args, HasBases (sizeList args) a := fun a ha => hasBases_of_size (size_le_of_mem ha)
  rw [productNormal, productWith_eq_productOfPowers]
  rw [mapM_congr fun p hp => powerOf_eq_powerNormal (size_le_of_mem_likeFactors small p hp)]

/-- There is a level to open. -/
theorem exists_powerNormal_eq (base : Expr) (e : Coefficient) :
    ∃ depth, powerNormal base (num e) = powerOf (depth + 1) base e := by
  obtain ⟨depth, size⟩ := Nat.exists_eq_add_one.mpr (size_pos base)
  exact ⟨depth, (powerOf_eq_powerNormal size.le).symm⟩

theorem powerNormal_of_isZero (zero : e.isZero = true) : powerNormal base (num e) = .ok (num .one) := by
  obtain ⟨depth, level⟩ := exists_powerNormal_eq base e
  rw [level, powerOf_of_isZero zero]

theorem powerNormal_of_isOne (zero : e.isZero = false) (one : e.isOne = true) :
    powerNormal base (num e) = .ok base := by
  obtain ⟨depth, level⟩ := exists_powerNormal_eq base e
  rw [level, powerOf_of_isOne zero one]

section Proper

variable (zero : e.isZero = false) (one : e.isOne = false)

include zero one

theorem powerNormal_num (c : Coefficient) : powerNormal (num c) (num e) = numericPower c e := by
  obtain ⟨depth, level⟩ := exists_powerNormal_eq (num c) e
  rw [level, powerOf_num zero one]

theorem powerNormal_of_staysUnder (stays : StaysUnder e base) :
    powerNormal base (num e) = .ok (op .pow [base, num e]) := by
  obtain ⟨depth, level⟩ := exists_powerNormal_eq base e
  rw [level, powerOf_of_staysUnder zero one stays]

variable (integer : e.isInteger = true)

include integer

/-- **A power of a power** multiplies the exponents. -/
theorem powerNormal_pow (b : Expr) (f : Coefficient) :
    powerNormal (op .pow [b, num f]) (num e) = powerNormal b (num (f * e)) := by
  refine (powerOf_pow zero one integer).trans (powerOf_eq_powerNormal ?_)
  simp only [sizeList]
  omega

/-- **A power of a product** is the product of the powers of its factors. -/
theorem powerNormal_mul (factors : List Expr) : powerNormal (op .mul factors) (num e) =
    (do productNormal (← factors.mapM fun f => powerNormal f (num e))) := by
  have raised : factors.mapM (powerOf (sizeList factors) · e) = factors.mapM fun f => powerNormal f (num e) :=
    mapM_congr fun f hf => powerOf_eq_powerNormal (size_le_of_mem hf)
  refine (powerOf_mul zero one integer).trans ?_
  rw [raised]
  cases run : factors.mapM fun f => powerNormal f (num e) with
  | error why => rfl
  | ok powers => exact productWith_eq_productNormal (hasBases_of_powers run)

end Proper

/-! ## 2. Calls -/

/-- **A call**: normalize an expression, or make a sum, a product or a power of operands. -/
inductive NormalCall where
  | expr (a : Expr)
  | sum (args : List Expr)
  | product (args : List Expr)
  | power (base exponent : Expr)

namespace NormalCall

/-- What a call should answer. -/
def answer : NormalCall → Except Failure Expr
  | expr a => normalize a
  | sum args => .ok (sumNormal args)
  | product args => productNormal args
  | power base exponent => powerNormal base exponent

/-- The body of a power to a numeric exponent. -/
def powerBody (base : Expr) (e : Coefficient) : Body NormalCall Expr :=
  if e.isZero then .result (.ok (num .one))
  else if e.isOne then .result (.ok base)
  else
    match base with
    | num b => .result (numericPower b e)
    | op .pow [b, num f] =>
      if e.isInteger then .tailCall (power b (num (f * e))) else .result (.ok (op .pow [base, num e]))
    | op .mul factors =>
      if e.isInteger then .askAll (factors.map (power · (num e))) fun powers => .tailCall (product powers)
      else .result (.ok (op .pow [base, num e]))
    | base => .result (.ok (op .pow [base, num e]))

/-- The rest of the body of a node, once its operands are normal. -/
def nodeBody : Operator → List Expr → Body NormalCall Expr
  | .add, args => .tailCall (sum args)
  | .mul, args => .tailCall (product args)
  | .sub, [a, b] => .ask (product [minusOne, b]) fun c => .tailCall (sum [a, c])
  | .neg, [a] => .tailCall (product [minusOne, a])
  | .div, [a, b] => .ask (power b minusOne) fun c => .tailCall (product [a, c])
  | .pow, [b, e] => .tailCall (power b e)
  | o, args => .result (.ok (op o args))

/-- **What each of the four does**, with its table, if it has one, visited in the order that `visit` makes of it. -/
def body (visit : Tally → Tally) : NormalCall → Body NormalCall Expr
  | expr (num n) => .result (.ok (num n))
  | expr (var x) => .result (.ok (var x))
  | expr (call f args) => .askAll (args.map expr) fun bs => .result (.ok (call f bs))
  | expr (op o args) => .askAll (args.map expr) fun bs =>
    if o.accepts bs.length then nodeBody o bs else .result (.ok (op o bs))
  | sum args =>
    .result (.ok (sumOfTally (constantPart (flatten .add args)) (visit (likeTerms (flatten .add args)))))
  | product args =>
    let given := flatten .mul args
    if (numericPart given).isZero then .result (.ok (num .zero))
    else .askAll ((visit (likeFactors given)).map fun p => power p.1 (num p.2)) fun powers =>
      .result (.ok (productOfPowers (numericPart given) powers))
  | power base (num e) => powerBody base e
  | power base exponent => .result (.ok (if base.isOne then num .one else op .pow [base, exponent]))

/-- **The bodies of a call**, one for every order in which its table may be visited. -/
def HasBody (c : NormalCall) (body : Body NormalCall Expr) : Prop :=
  ∃ visit : Tally → Tally, (∀ tally, (visit tally).Perm tally) ∧ body = c.body visit

/-- **One call makes another**, in one of its bodies and with the answers of the calls that it has made before. -/
def Makes (c d : NormalCall) : Prop := ∃ body, c.HasBody body ∧ body.Asks answer d

/-! ## 3. What bodies come to -/

/-- There is only one failure. -/
theorem answer_alike (c : NormalCall) : Answers Failure.IsMagnitude (fun _ => True) c.answer := by
  cases c with
  | expr a => exact normalize_alike a
  | sum args => trivial
  | product args => exact (productNormal_keeps (I := .bare) args).imp fun _ _ => trivial
  | power base exponent => exact (powerNormal_keeps (I := .bare) base exponent).imp fun _ _ => trivial

/-- **How a power goes on**: it is done, it opens the power that is its base, or it raises the factors of its base
    and multiplies what they have become. -/
theorem powerBody_cases (base : Expr) (e : Coefficient) :
    powerBody base e = .result (powerNormal base (num e)) ∨
    (∃ b f, base = op .pow [b, num f] ∧ powerBody base e = .tailCall (power b (num (f * e))) ∧
      powerNormal base (num e) = powerNormal b (num (f * e))) ∨
    ∃ factors, base = op .mul factors ∧
      powerBody base e = .askAll (factors.map (power · (num e))) (fun powers => .tailCall (product powers)) ∧
      powerNormal base (num e) = (do productNormal (← factors.mapM fun f => powerNormal f (num e))) := by
  unfold powerBody
  cases powerCase base e with
  | zero zero =>
    rw [if_pos zero, powerNormal_of_isZero zero]
    exact .inl rfl
  | one zero one =>
    rw [zero, if_neg Bool.false_ne_true, if_pos one, powerNormal_of_isOne zero one]
    exact .inl rfl
  | number zero one =>
    rw [zero, if_neg Bool.false_ne_true, one, if_neg Bool.false_ne_true, powerNormal_num zero one]
    exact .inl rfl
  | power zero one integer =>
    rw [zero, if_neg Bool.false_ne_true, one, if_neg Bool.false_ne_true]
    exact .inr (.inl ⟨_, _, rfl, if_pos integer, powerNormal_pow zero one integer _ _⟩)
  | product zero one integer =>
    rw [zero, if_neg Bool.false_ne_true, one, if_neg Bool.false_ne_true]
    exact .inr (.inr ⟨_, rfl, if_pos integer, powerNormal_mul zero one integer _⟩)
  | stays zero one stays =>
    rw [zero, if_neg Bool.false_ne_true, one, if_neg Bool.false_ne_true, powerNormal_of_staysUnder zero one stays]
    left
    split
    · exact stays.elim
    · exact if_neg (Bool.eq_false_iff.mp stays)
    · exact if_neg (Bool.eq_false_iff.mp stays)
    · rfl

theorem value_powerBody (base : Expr) (e : Coefficient) :
    (powerBody base e).value answer = powerNormal base (num e) := by
  obtain same | ⟨b, f, -, same, value⟩ | ⟨factors, -, same, value⟩ := powerBody_cases base e
  · rw [same]
    rfl
  · rw [same, value]
    exact Body.value_tailCall _
  · rw [same, value, Body.value_askAll, List.mapM_map]
    exact bind_congr fun powers => Body.value_tailCall _

theorem value_nodeBody (o : Operator) (args : List Expr) : (nodeBody o args).value answer = nodeNormal o args := by
  have last (c : NormalCall) : (Body.tailCall c).value answer = c.answer := Body.value_tailCall c
  unfold nodeBody
  split
  · exact last _
  · exact last _
  · exact bind_congr fun c => last _
  · exact last _
  · exact bind_congr fun c => last _
  · exact last _
  · rw [nodeNormal]
    · rfl
    all_goals assumption

/-- **A body comes to the normal form**, whatever the order in which its table is visited. -/
theorem value_body {c : NormalCall} {body : Body NormalCall Expr} (h : c.HasBody body) :
    body.value answer = c.answer := by
  obtain ⟨visit, perm, rfl⟩ := h
  have operands (args : List Expr) : (args.map expr).mapM answer = normalizeList args := by
    rw [List.mapM_map, normalizeList_eq_mapM]
    rfl
  cases c with
  | expr a =>
    cases a with
    | num _ | var _ => rfl
    | call f args =>
      rw [body, Body.value_askAll, operands, answer, normalize]
      rfl
    | op o args =>
      rw [body, Body.value_askAll, operands, answer, normalize]
      refine bind_congr fun bs => ?_
      split
      · exact value_nodeBody o bs
      · rfl
  | sum args =>
    rw [body, Body.value, sumOfTally_eq_of_perm _ (perm _)]
    rfl
  | product args =>
    rw [body, answer, productNormal_eq]
    split
    · rfl
    · rw [Body.value_askAll, List.mapM_map]
      -- the first of several failures is the same in every order, since there is only one
      have alike (p : Expr × Coefficient) := answer_alike (power p.1 (num p.2))
      refine (Reordered.mapM (fun p _ => alike p) (perm _)).bind_eq fun as bs same => ?_
      exact congrArg Except.ok (productOfPowers_eq_of_perm _ same)
  | power base exponent =>
    cases exponent with
    | num e => exact value_powerBody base e
    | var _ | call _ _ | op _ _ => rfl

/-! ## 4. Calls rank lower and lower -/

/-- The nodes of the largest base among the factors of operands. -/
def largestBase (args : List Expr) : Nat :=
  ((args.flatMap factorsOf).map fun f => f.splitExponent.1.size).foldr max 0

theorem largestBase_le_iff : largestBase args ≤ n ↔ ∀ a ∈ args, HasBases n a := by
  have each (fs : List Expr) : (fs.map fun f => f.splitExponent.1.size).foldr max 0 ≤ n ↔
      ∀ f ∈ fs, f.splitExponent.1.size ≤ n := by
    induction fs with
    | nil => simp
    | cons f fs ih => rw [List.map_cons, List.foldr_cons, Nat.max_le, ih, List.forall_mem_cons]
  unfold HasBases
  rw [largestBase, each, List.forall_mem_flatMap]

/-- **The rank of a call.** Expressions rank by their nodes, above all that their operands are handed to. A power
    ranks by the nodes of its base, and a product right above the power of its largest base. -/
def rank : NormalCall → Nat ×ₗ Nat
  | expr a => toLex (1, a.size)
  | sum _ => toLex (0, 0)
  -- doubled, so that a product fits in between two powers
  | product args => toLex (0, 2 * largestBase args + 1)
  | power base _ => toLex (0, 2 * base.size)

variable {c d : NormalCall} {exponent exponent' : Expr}

theorem rank_power_lt_power : (power a exponent).rank < (power b exponent').rank ↔ a.size < b.size := by
  rw [rank, rank, Prod.Lex.toLex_lt_toLex]
  dsimp only
  omega

theorem rank_power_lt_product :
    (power a exponent).rank < (product args).rank ↔ a.size ≤ largestBase args := by
  rw [rank, rank, Prod.Lex.toLex_lt_toLex]
  dsimp only
  omega

theorem rank_product_lt_power :
    (product args).rank < (power b exponent).rank ↔ largestBase args < b.size := by
  rw [rank, rank, Prod.Lex.toLex_lt_toLex]
  dsimp only
  omega

/-- A call that is handed normal operands. -/
def IsInner : NormalCall → Prop
  | expr _ => False
  | sum _ | product _ | power _ _ => True

theorem IsInner.rank_lt (h : d.IsInner) (a : Expr) : d.rank < (expr a).rank := by
  cases d with
  | expr _ => exact h.elim
  | sum _ | product _ | power _ _ => exact Prod.Lex.toLex_lt_toLex.mpr (.inl Nat.zero_lt_one)

theorem isInner_of_asks_nodeBody (h : (nodeBody o args).Asks answer d) : d.IsInner := by
  have last {c : NormalCall} (h : (Body.tailCall c).Asks answer d) (inner : c.IsInner) : d.IsInner :=
    Body.eq_of_asks_tailCall h ▸ inner
  unfold nodeBody at h
  split at h
  · exact last h trivial
  · exact last h trivial
  · cases h with
    | first => trivial
    | later _ h => exact last h trivial
  · exact last h trivial
  · cases h with
    | first => trivial
    | later _ h => exact last h trivial
  · exact last h trivial
  · exact (Body.not_asks_result h).elim

/-- **What a power calls** has smaller bases. -/
theorem rank_lt_of_asks_powerBody (h : (powerBody base e).Asks answer d) : d.rank < (power base (num e)).rank := by
  obtain same | ⟨b, f, rfl, same, -⟩ | ⟨factors, rfl, same, -⟩ := powerBody_cases base e
  · rw [same] at h
    exact (Body.not_asks_result h).elim
  · rw [same] at h
    rw [Body.eq_of_asks_tailCall h]
    refine rank_power_lt_power.mpr ?_
    simp only [size, sizeList]
    omega
  · rw [same] at h
    obtain mem | ⟨powers, raised, h⟩ := Body.mem_or_asks_of_askAll h
    · obtain ⟨f, hf, rfl⟩ := List.mem_map.mp mem
      exact rank_power_lt_power.mpr (Nat.lt_succ_of_le (size_le_of_mem hf))
    · rw [Body.eq_of_asks_tailCall h]
      rw [List.mapM_map] at raised
      refine rank_product_lt_power.mpr (Nat.lt_succ_of_le ?_)
      exact largestBase_le_iff.mpr (hasBases_of_powers raised)

/-- **A call calls only what ranks lower.** -/
theorem rank_lt (h : c.Makes d) : d.rank < c.rank := by
  obtain ⟨body, ⟨visit, perm, rfl⟩, h⟩ := h
  have operand {args : List Expr} (mem : d ∈ args.map expr) {a : Expr} (small : sizeList args < a.size) :
      d.rank < (expr a).rank := by
    obtain ⟨b, hb, rfl⟩ := List.mem_map.mp mem
    exact Prod.Lex.toLex_lt_toLex.mpr (.inr ⟨rfl, (size_le_of_mem hb).trans_lt small⟩)
  cases c with
  | expr a =>
    cases a with
    | num _ | var _ => exact (Body.not_asks_result h).elim
    | call f args =>
      obtain mem | ⟨bs, -, h⟩ := Body.mem_or_asks_of_askAll h
      · exact operand mem (Nat.lt_succ_self _)
      · exact (Body.not_asks_result h).elim
    | op o args =>
      obtain mem | ⟨bs, -, h⟩ := Body.mem_or_asks_of_askAll h
      · exact operand mem (Nat.lt_succ_self _)
      · split at h
        · exact (isInner_of_asks_nodeBody h).rank_lt _
        · exact (Body.not_asks_result h).elim
  | sum args => exact (Body.not_asks_result h).elim
  | product args =>
    rw [NormalCall.body] at h
    split at h
    · exact (Body.not_asks_result h).elim
    · obtain mem | ⟨powers, -, h⟩ := Body.mem_or_asks_of_askAll h
      · obtain ⟨p, hp, rfl⟩ := List.mem_map.mp mem
        have hp := (perm _).mem_iff.mp hp
        exact rank_power_lt_product.mpr (size_le_of_mem_likeFactors (largestBase_le_iff.mp le_rfl) p hp)
      · exact (Body.not_asks_result h).elim
  | power base exponent =>
    cases exponent with
    | num e => exact rank_lt_of_asks_powerBody h
    | var _ | call _ _ | op _ _ => exact (Body.not_asks_result h).elim

/-- There is no endless chain of calls. -/
theorem makes_wellFounded : WellFounded fun d c => Makes c d :=
  Subrelation.wf rank_lt (InvImage.wf rank wellFounded_lt)

/-- **Calls below a call** rank lower, however far below they are. -/
theorem rank_lt_of_transGen (h : Relation.TransGen Makes c d) : d.rank < c.rank := by
  induction h with
  | single h => exact rank_lt h
  | tail _ h ih => exact (rank_lt h).trans ih

theorem exists_hasBody (c : NormalCall) : ∃ body, c.HasBody body := ⟨_, id, List.Perm.refl, rfl⟩

end NormalCall

/-! ## 5. Runs -/

open NormalCall

/-- **Normalizing comes to an end.** Whatever is called, on whatever operands, and in whatever order every table is
    visited: no run goes on forever, and one that cannot go on has come to the normal form or to the one failure
    there is, an exponent without absolute value. What the power of a base calls, however far below, are powers of
    strictly smaller bases and products that collect nothing but strictly smaller bases. -/
theorem normalCalls_end :
    (∀ c : NormalCall, Execution.Ends HasBody (.start c) c.answer) ∧
    (∀ (c : NormalCall) (why : Failure), c.answer = .error why → why = .exponentMagnitude) ∧
    (∀ b e b' e', Relation.TransGen Makes (.power b e) (.power b' e') → b'.size < b.size) ∧
    ∀ b e args, Relation.TransGen Makes (.power b e) (.product args) →
      ∀ p ∈ likeFactors (flatten .mul args), p.1.size < b.size := by
  refine ⟨fun c => ?_, fun c why failure => ?_, fun b e b' e' below => ?_, fun b e args below p hp => ?_⟩
  · exact Execution.ends_of_wellFounded exists_hasBody (fun _ _ => value_body) makes_wellFounded c
  · exact (answer_alike c).of_error failure
  · exact rank_power_lt_power.mp (rank_lt_of_transGen below)
  · have small := rank_product_lt_power.mp (rank_lt_of_transGen below)
    exact (size_le_of_mem_likeFactors (largestBase_le_iff.mp le_rfl) p hp).trans_lt small

/-- `(x*y)^(1/2)*(x*y)^(3/2)` squares `x*y`, which multiplies `x^2` by `y^2`, which squares `x`. The exponent of
    `2^(-9223372036854775808)` has no absolute value. -/
theorem normalCalls_end_at :
    let x := var "x"
    let y := var "y"
    let e := Coefficient.ofInt 2
    let squares := [op .pow [x, num e], op .pow [y, num e]]
    let roots := [op .pow [op .mul [x, y], num (.lowest 1 2)], op .pow [op .mul [x, y], num (.lowest 3 2)]]
    let square : NormalCall := .power (op .mul [x, y]) (num e)
    let smallest : NormalCall := .power (int 2) (int (-9223372036854775808))
    Makes (.product roots) square ∧ Makes square (.product squares) ∧
      Makes (.product squares) (.power x (num e)) ∧ x.size < (op .mul [x, y]).size ∧
      (y, e) ∈ likeFactors (flatten .mul squares) ∧ y.size < (op .mul [x, y]).size ∧
      Execution.Ends HasBody (.start (.product roots)) (.ok (op .mul squares)) ∧
      ∃ why, smallest.answer = .error why ∧ why = .exponentMagnitude ∧
        Execution.Ends HasBody (.start smallest) (.error why) := by
  intro x y e squares roots square smallest
  have first : Makes (.product roots) square := ⟨_, ⟨id, List.Perm.refl, rfl⟩, .first⟩
  have second : Makes square (.product squares) :=
    ⟨_, ⟨id, List.Perm.refl, rfl⟩, .later rfl (.later rfl .first)⟩
  have third : Makes (.product squares) (.power x (num e)) := ⟨_, ⟨id, List.Perm.refl, rfl⟩, .first⟩
  have collected : (y, e) ∈ likeFactors (flatten .mul squares) := .tail _ (.head _)
  have value : answer (.product roots) = .ok (op .mul squares) := by cbv
  have failure : smallest.answer = .error .exponentMagnitude := by cbv
  obtain ⟨ends, only, powers, products⟩ := normalCalls_end
  refine ⟨first, second, third, ?_, collected, ?_, value ▸ ends _, _, failure, ?_, failure ▸ ends _⟩
  · exact powers _ _ _ _ (.tail (.single second) third)
  · exact products _ _ _ (.single second) _ collected
  · exact only _ _ failure

end Expr

end Eliminant
