import Eliminant.Expr.Printer
import Eliminant.Proofs.Expr.Constant

/-!
# Expressions are evaluated, normalized and written without a step that has no answer

Operands are taken by their number, coefficients are divided, and the absolute value of a word is taken. Here
the same computations are made once more, and each of these steps fails where it has no answer: an operand that
is not there (`noSuchIndex`), a division by zero (`zeroDivisor`), and the absolute value of the least word, with
any failure that is given. Malformed expressions are no exception.

* **`Expr.constantChecked_eq`**, **`Expr.textChecked_eq`**: constants are evaluated and expressions are written
  without any of these failures;
* **`Expr.normalizeWith_eq`**: a normal form has no other failure than powers of numbers have;
* **`Expr.numericPowerChecked_eq`**: and a power of numbers has only that of an absolute value.
-/

namespace Eliminant

/-! ## 1. Failures in the place of others -/

/-- The failure `e`, with `f` in the place of that of an absolute value. -/
def Failure.atMagnitude (f e : Failure) : Failure := if e = .exponentMagnitude then f else e

@[simp] theorem Failure.atMagnitude_magnitude (f : Failure) : f.atMagnitude .exponentMagnitude = f := if_pos rfl

theorem Failure.atMagnitude_of_ne (f : Failure) {e : Failure} (h : e ≠ .exponentMagnitude) :
    f.atMagnitude e = e := if_neg h

section MapError

variable {α β : Type} {f : Failure → Failure}

theorem ok_bind (a : α) (g : α → Except Failure β) : (Except.ok a >>= g) = g a := rfl

theorem mapError_bind (x : Except Failure α) (g : α → Except Failure β) :
    (x >>= g).mapError f = x.mapError f >>= fun a => (g a).mapError f := by
  cases x <;> rfl

theorem mapError_bind_pure (x : Except Failure α) (g : α → β) :
    (x >>= fun a => pure (g a)).mapError f = x.mapError f >>= fun a => pure (g a) := mapError_bind x _

/-- What comes later is compared on the answers only. -/
theorem mapError_bind_of_answers {F : Failure → Prop} {P : α → Prop} {x : Except Failure α}
    {g h : α → Except Failure β} (answers : Answers F P x) (later : ∀ a, P a → (g a).mapError f = h a) :
    (x >>= g).mapError f = x.mapError f >>= h := by
  cases x with
  | ok a => exact later a answers
  | error e => rfl

/-- What cannot fail does not depend on the failures. -/
theorem mapError_of_answers {P : α → Prop} {x : Except Failure α} (answers : Answers (fun _ => False) P x) :
    x.mapError f = x := by
  cases x with
  | ok a => rfl
  | error e => exact answers.elim

theorem mapError_mapM (g : α → Except Failure β) (as : List α) :
    (as.mapM g).mapError f = as.mapM fun a => (g a).mapError f := by
  induction as with
  | nil => rfl
  | cons a as ih =>
    rw [List.mapM_cons, List.mapM_cons, mapError_bind]
    refine bind_congr fun b => ?_
    rw [mapError_bind, ih]
    rfl

end MapError

/-- The absolute value of a word; that of the least one is no word, and fails with `f`. -/
def absChecked (f : Failure) (n : Int) : Except Failure Nat :=
  if n = -9223372036854775808 then .error f else .ok n.natAbs

namespace Coefficient

/-- `powConstant?`, with checked divisions. -/
def powConstantChecked (b : Coefficient) (e : Int) : Except Failure (Option Coefficient) :=
  if b.isOne || (b.isZero && 0 < e) then .ok (some b)
  else if (-b).isOne then .ok (some (if e % 2 = 0 then -b else b))
  else if maxFoldedExponent < e.natAbs then .ok none
  else if 0 ≤ e then .ok (some (b.pow e.natAbs))
  else if b.isZero then .ok none
  else do return some ((← b.inv).pow e.natAbs)

theorem powConstantChecked_eq (b : Coefficient) (e : Int) :
    b.powConstantChecked e = .ok (b.powConstant? e) := by
  unfold powConstantChecked powConstant?
  split
  · rfl
  split
  · rfl
  split
  · rfl
  split
  · rfl
  split
  · rename_i zero
    obtain ⟨e, fails⟩ := (inv_eq_error_iff b).mpr ((isZero_iff b).mp zero)
    rw [fails]
  · rename_i nonzero
    obtain ⟨i, inv, -⟩ := exists_inv (Bool.not_eq_true _ ▸ nonzero)
    rw [inv]
    rfl

end Coefficient

namespace Expr

variable {o : Operator} {as : List Expr}

/-! ## 2. Constants -/

mutual
/-- `constant?`, with operands taken by their number and checked divisions. -/
def constantChecked : Expr → OptionT (Except Failure) Coefficient
  | num n => pure n
  | var _ | call .. => failure
  | op o args =>
    if o.accepts args.length then
      match o, args with
      | .add, args => sumChecked args .zero
      | .mul, args => productChecked args .one
      | .sub, a :: b :: _ => do return (← constantChecked a) - (← constantChecked b)
      | .neg, a :: _ => do return -(← constantChecked a)
      | .div, a :: b :: _ => do
        let m ← constantChecked a
        let n ← constantChecked b
        if n.isZero then failure else OptionT.lift (m.div n)
      | .pow, a :: b :: _ => do
        let m ← constantChecked a
        let n ← constantChecked b
        match n.toWord? with
        | none => failure
        | some e => OptionT.mk (m.powConstantChecked e)
      | .subscript, _ | .prime, _ => failure
      | _, _ => OptionT.lift (.error .noSuchIndex)
    else failure

/-- `sumConstants?`, checked. -/
def sumChecked : List Expr → Coefficient → OptionT (Except Failure) Coefficient
  | [], sum => pure sum
  | a :: as, sum => do sumChecked as (sum + (← constantChecked a))

/-- `mulConstants?`, checked. -/
def productChecked : List Expr → Coefficient → OptionT (Except Failure) Coefficient
  | [], product => pure product
  | a :: as, product => do productChecked as (product * (← constantChecked a))
end

theorem exists_of_two_le (many : decide (2 ≤ as.length) = true) : ∃ a b rest, as = a :: b :: rest := by
  cases as with
  | nil => cases many
  | cons a as =>
    cases as with
    | nil => cases many
    | cons b rest => exact ⟨a, b, rest, rfl⟩

/-- A malformed expression is no constant. -/
theorem constant?_of_refuses (refuses : o.accepts as.length = false) : (op o as).constant? = none := by
  unfold constant?
  split
  all_goals first
    | rfl
    | rename_i same
      cases same <;> simp [Operator.accepts, Operator.arity] at refuses

theorem run_bind_eq {α β : Type} {x : OptionT (Except Failure) α} {y : Option α}
    {f : α → OptionT (Except Failure) β} {g : α → Option β} (hx : x.run = .ok y)
    (hf : ∀ a, (f a).run = .ok (g a)) : (x >>= f).run = .ok (y >>= g) := by
  rw [OptionT.run_bind, hx]
  cases y with
  | none => rfl
  | some a => exact hf a

/-- A quotient is taken only where the divisor is not zero. -/
theorem run_div (m n : Coefficient) :
    (if n.isZero then failure else OptionT.lift (m.div n) : OptionT (Except Failure) Coefficient).run =
      .ok (m.div n).toOption := by
  split
  · rename_i zero
    obtain ⟨e, fails⟩ := (Coefficient.inv_eq_error_iff n).mpr ((Coefficient.isZero_iff n).mp zero)
    rw [Coefficient.div, fails]
    rfl
  · rename_i nonzero
    obtain ⟨q, quotient, -⟩ := Coefficient.exists_div m (Bool.not_eq_true _ ▸ nonzero)
    rw [quotient]
    rfl

mutual
/-- **A constant is evaluated without a broken step.** -/
theorem constantChecked_eq : ∀ a : Expr, (constantChecked a).run = .ok a.constant?
  | num n => by rw [constantChecked, constant?]; rfl
  | var x => by rw [constantChecked, constant?]; rfl
  | call f as => by rw [constantChecked, constant?]; rfl
  | op o as => by
    unfold constantChecked
    split
    · rename_i accepts
      -- the number of operands is what the operator takes
      simp only [Operator.accepts] at accepts
      split
      · obtain ⟨a, b, rest, rfl⟩ := exists_of_two_le accepts
        rw [constant?]
        exact sumChecked_eq _ .zero
      · obtain ⟨a, b, rest, rfl⟩ := exists_of_two_le accepts
        rw [constant?]
        exact productChecked_eq _ .one
      · rename_i a b rest
        obtain rfl : rest = [] := by simpa [Operator.arity] using accepts
        rw [constant?]
        exact run_bind_eq (constantChecked_eq a) fun m => run_bind_eq (constantChecked_eq b) fun n => rfl
      · rename_i a rest
        obtain rfl : rest = [] := by simpa [Operator.arity] using accepts
        rw [constant?]
        exact run_bind_eq (constantChecked_eq a) fun m => rfl
      · rename_i a b rest
        obtain rfl : rest = [] := by simpa [Operator.arity] using accepts
        rw [constant?]
        exact run_bind_eq (constantChecked_eq a) fun m => run_bind_eq (constantChecked_eq b) (run_div m)
      · rename_i a b rest
        obtain rfl : rest = [] := by simpa [Operator.arity] using accepts
        rw [constant?]
        refine run_bind_eq (constantChecked_eq a) fun m => run_bind_eq (constantChecked_eq b) fun n => ?_
        cases n.toWord? with
        | none => rfl
        | some e => exact m.powConstantChecked_eq e
      · rw [constant?] <;> first | rfl | nofun
      · rw [constant?] <;> first | rfl | nofun
      · exfalso
        obtain _ | ⟨a, _ | ⟨b, rest⟩⟩ := as
        all_goals cases o <;> simp_all [Operator.arity]
    · rename_i refuses
      rw [constant?_of_refuses (Bool.not_eq_true _ ▸ refuses)]
      rfl

theorem sumChecked_eq : ∀ (as : List Expr) (sum : Coefficient),
    (sumChecked as sum).run = .ok (sumConstants? as sum)
  | [], sum => by rw [sumChecked, sumConstants?]; rfl
  | a :: as, sum => by
    rw [sumChecked, sumConstants?]
    exact run_bind_eq (constantChecked_eq a) fun m => sumChecked_eq as (sum + m)

theorem productChecked_eq : ∀ (as : List Expr) (product : Coefficient),
    (productChecked as product).run = .ok (mulConstants? as product)
  | [], product => by rw [productChecked, mulConstants?]; rfl
  | a :: as, product => by
    rw [productChecked, mulConstants?]
    exact run_bind_eq (constantChecked_eq a) fun m => productChecked_eq as (product * m)
end

/-! ## 3. Written forms -/

mutual
/-- `text`, with operands taken by their number. -/
def textChecked : Expr → Except Failure String
  | num n => .ok n.text
  | var x => .ok x
  | call f args => do return f ++ "(" ++ String.intercalate "," (← textsChecked args) ++ ")"
  | op o args =>
    if o.accepts args.length then
      match o, args with
      | .add, a :: rest => do
        return inPlace (tight .add) a (← textChecked a)
          ++ String.join (List.zipWith laterTerm rest (← textsChecked rest))
      | .sub, a :: b :: _ => do
        return inPlace (loose .sub) a (← textChecked a) ++ "-" ++ inPlace (tight .sub) b (← textChecked b)
      | .mul, a :: rest => do
        return inPlace (loose .neg) a (← textChecked a)
          ++ String.join (List.zipWith laterFactor rest (← textsChecked rest))
      | .div, a :: b :: _ => do
        return inPlace (loose .div) a (← textChecked a) ++ "/" ++ inPlace (tight .div) b (← textChecked b)
      | .neg, a :: _ => do return "-" ++ inPlace (tight .mul) a (← textChecked a)
      | .pow, a :: b :: _ => do
        return inPlace (tight .pow) a (← textChecked a) ++ "^" ++ inPlace (tight .pow) b (← textChecked b)
      | .subscript, a :: b :: _ => do
        return inPlace (loose .subscript) a (← textChecked a) ++ "_" ++ inPlace strongest b (← textChecked b)
      | .prime, a :: _ => do return inPlace (loose .prime) a (← textChecked a) ++ "'"
      | .add, [] | .mul, [] => .ok ""
      | _, _ => .error .noSuchIndex
    else .ok (op o args).outline

/-- `texts`, with operands taken by their number. -/
def textsChecked : List Expr → Except Failure (List String)
  | [] => .ok []
  | a :: as => do return (← textChecked a) :: (← textsChecked as)
end

/-- A malformed node is written as its outline. -/
theorem text_of_refuses (refuses : o.accepts as.length = false) : (op o as).text = (op o as).outline := by
  unfold text
  split
  all_goals
    rename_i same
    cases same
  all_goals first
    | rfl
    | simp [Operator.accepts, Operator.arity] at refuses

mutual
/-- **An expression is written without a broken step.** -/
theorem textChecked_eq : ∀ a : Expr, textChecked a = .ok a.text
  | num n => by rw [textChecked, text]
  | var x => by rw [textChecked, text]
  | call f as => by
    rw [textChecked, text, textsChecked_eq as]
    rfl
  | op o as => by
    unfold textChecked
    split
    · rename_i accepts
      simp only [Operator.accepts] at accepts
      split
      · rename_i a rest
        obtain ⟨_, b, rest, same⟩ := exists_of_two_le accepts
        cases same
        rw [text, textChecked_eq a, textsChecked_eq (b :: rest)]
        rfl
      · rename_i a b rest
        obtain rfl : rest = [] := by simpa [Operator.arity] using accepts
        rw [text, textChecked_eq a, textChecked_eq b]
        rfl
      · rename_i a rest
        obtain ⟨_, b, rest, same⟩ := exists_of_two_le accepts
        cases same
        rw [text, textChecked_eq a, textsChecked_eq (b :: rest)]
        rfl
      · rename_i a b rest
        obtain rfl : rest = [] := by simpa [Operator.arity] using accepts
        rw [text, textChecked_eq a, textChecked_eq b]
        rfl
      · rename_i a rest
        obtain rfl : rest = [] := by simpa [Operator.arity] using accepts
        rw [text, textChecked_eq a]
        rfl
      · rename_i a b rest
        obtain rfl : rest = [] := by simpa [Operator.arity] using accepts
        rw [text, textChecked_eq a, textChecked_eq b]
        rfl
      · rename_i a b rest
        obtain rfl : rest = [] := by simpa [Operator.arity] using accepts
        rw [text, textChecked_eq a, textChecked_eq b]
        rfl
      · rename_i a rest
        obtain rfl : rest = [] := by simpa [Operator.arity] using accepts
        rw [text, textChecked_eq a]
        rfl
      · cases accepts
      · cases accepts
      · exfalso
        obtain _ | ⟨a, _ | ⟨b, rest⟩⟩ := as
        all_goals cases o <;> simp_all [Operator.arity]
    · rename_i refuses
      rw [text_of_refuses (Bool.not_eq_true _ ▸ refuses)]

theorem textsChecked_eq : ∀ as : List Expr, textsChecked as = .ok (texts as)
  | [] => by rw [textsChecked, texts]
  | a :: as => by
    rw [textsChecked, texts, textChecked_eq a, textsChecked_eq as]
    rfl
end

/-! ## 4. Normal forms -/

/-- `powerOf`, with the powers of numbers left open. -/
def powerOfWith (number : Coefficient → Coefficient → Except Failure Expr) :
    (depth : Nat) → (base : Expr) → (e : Coefficient) → Except Failure Expr
  | 0, base, e => .ok (op .pow [base, num e])
  | depth + 1, base, e =>
    if e.isZero then .ok (num .one)
    else if e.isOne then .ok base
    else
      match base with
      | num b => number b e
      | op .pow [b, num f] =>
        if e.isInteger then powerOfWith number depth b (f * e) else .ok (op .pow [base, num e])
      | op .mul factors =>
        if e.isInteger then do
          productWith (powerOfWith number depth) (← factors.mapM (powerOfWith number depth · e))
        else .ok (op .pow [base, num e])
      | base => .ok (op .pow [base, num e])

section With

variable (number : Coefficient → Coefficient → Except Failure Expr)

/-- `powerNormal`, with the powers of numbers left open. -/
def powerNormalWith (base exponent : Expr) : Except Failure Expr :=
  match exponent with
  | num e => powerOfWith number base.size base e
  | e => .ok (if base.isOne then num .one else op .pow [base, e])

/-- `productNormal`, with the powers of numbers left open. -/
def productNormalWith (args : List Expr) : Except Failure Expr :=
  productWith (powerOfWith number (sizeList args)) args

/-- `nodeNormal`, with the powers of numbers left open. -/
def nodeNormalWith : Operator → List Expr → Except Failure Expr
  | .add, args => .ok (sumNormal args)
  | .mul, args => productNormalWith number args
  | .sub, [a, b] => do return sumNormal [a, ← productNormalWith number [minusOne, b]]
  | .neg, [a] => productNormalWith number [minusOne, a]
  | .div, [a, b] => do productNormalWith number [a, ← powerNormalWith number b minusOne]
  | .pow, [b, e] => powerNormalWith number b e
  | o, args => .ok (op o args)

mutual
/-- `normalize`, with the powers of numbers left open. -/
def normalizeWith : Expr → Except Failure Expr
  | num n => .ok (num n)
  | var x => .ok (var x)
  | call f args => do return call f (← normalizeListWith args)
  | op o args => do
    let args ← normalizeListWith args
    if o.accepts args.length then nodeNormalWith number o args else return op o args

/-- `normalizeList`, with the powers of numbers left open. -/
def normalizeListWith : List Expr → Except Failure (List Expr)
  | [] => .ok []
  | a :: as => do
    let a ← normalizeWith a
    let as ← normalizeListWith as
    return a :: as
end

end With

section Exchange

variable {f : Failure → Failure} {number : Coefficient → Coefficient → Except Failure Expr}

theorem productWith_mapError (power : Expr → Coefficient → Except Failure Expr) (args : List Expr) :
    productWith (fun b e => (power b e).mapError f) args = (productWith power args).mapError f := by
  unfold productWith
  dsimp only
  split
  · rfl
  rw [mapError_bind, mapError_mapM]
  refine bind_congr fun powers => ?_
  split
  · rfl
  split
  · rfl
  · rfl
  · rfl

section Nodes

variable (h : ∀ b e, number b e = (numericPower b e).mapError f)

include h

theorem powerOfWith_eq (depth : Nat) (base : Expr) (e : Coefficient) :
    powerOfWith number depth base e = (powerOf depth base e).mapError f := by
  induction depth generalizing base e with
  | zero => rfl
  | succ depth ih =>
    have power : powerOfWith number depth = fun b e => (powerOf depth b e).mapError f :=
      funext fun b => funext fun e => ih b e
    unfold powerOfWith powerOf
    split
    · rfl
    split
    · rfl
    cases base with
    | num b => exact h b e
    | var _ | call _ _ => rfl
    | op o args =>
      cases o with
      | mul =>
        dsimp only
        split
        · rw [power, mapError_bind, mapError_mapM]
          exact bind_congr fun powers => productWith_mapError _ powers
        · rfl
      | pow =>
        -- only a power of two operands, the second a number, is opened
        obtain _ | ⟨b, _ | ⟨f, more⟩⟩ := args
        · rfl
        · rfl
        · cases f with
          | num f =>
            cases more with
            | nil =>
              dsimp only
              split
              · exact ih _ _
              · rfl
            | cons c more => rfl
          | var _ | call _ _ | op _ _ => rfl
      | add | sub | div | neg | subscript | prime => rfl

theorem productNormalWith_eq (args : List Expr) :
    productNormalWith number args = (productNormal args).mapError f := by
  unfold productNormalWith productNormal
  rw [← productWith_mapError]
  exact congrArg (productWith · args) (funext fun b => funext fun e => powerOfWith_eq h _ b e)

theorem powerNormalWith_eq (base exponent : Expr) :
    powerNormalWith number base exponent = (powerNormal base exponent).mapError f := by
  cases exponent with
  | num e => exact powerOfWith_eq h _ base e
  | var _ | call _ _ | op _ _ => rfl

theorem nodeNormalWith_eq (o : Operator) (args : List Expr) :
    nodeNormalWith number o args = (nodeNormal o args).mapError f := by
  cases o with
  | add | subscript | prime => rfl
  | mul => exact productNormalWith_eq h _
  | sub =>
    obtain _ | ⟨a, _ | ⟨b, _ | ⟨c, more⟩⟩⟩ := args
    · rfl
    · rfl
    · rw [nodeNormalWith, nodeNormal, mapError_bind, productNormalWith_eq h]
      rfl
    · rfl
  | neg =>
    obtain _ | ⟨a, _ | ⟨b, more⟩⟩ := args
    · rfl
    · exact productNormalWith_eq h _
    · rfl
  | div =>
    obtain _ | ⟨a, _ | ⟨b, _ | ⟨c, more⟩⟩⟩ := args
    · rfl
    · rfl
    · rw [nodeNormalWith, nodeNormal, mapError_bind, powerNormalWith_eq h]
      exact bind_congr fun p => productNormalWith_eq h _
    · rfl
  | pow =>
    obtain _ | ⟨b, _ | ⟨e, _ | ⟨c, more⟩⟩⟩ := args
    · rfl
    · rfl
    · exact powerNormalWith_eq h _ _
    · rfl

end Nodes

mutual
/-- **Normal forms fail only as powers of numbers do.** -/
theorem normalizeWith_eq (h : ∀ b e, number b e = (numericPower b e).mapError f) :
    ∀ a : Expr, normalizeWith number a = (normalize a).mapError f
  | num n => by rw [normalizeWith, normalize]; rfl
  | var x => by rw [normalizeWith, normalize]; rfl
  | call g args => by
    rw [normalizeWith, normalize, mapError_bind, normalizeListWith_eq h args]
    rfl
  | op o args => by
    rw [normalizeWith, normalize, mapError_bind, normalizeListWith_eq h args]
    refine bind_congr fun args => ?_
    split
    · exact nodeNormalWith_eq h o args
    · rfl

theorem normalizeListWith_eq (h : ∀ b e, number b e = (numericPower b e).mapError f) :
    ∀ as : List Expr, normalizeListWith number as = (normalizeList as).mapError f
  | [] => by rw [normalizeListWith, normalizeList]; rfl
  | a :: as => by
    rw [normalizeListWith, normalizeList, mapError_bind, normalizeWith_eq h a]
    refine bind_congr fun a => ?_
    rw [mapError_bind, normalizeListWith_eq h as]
    rfl
end

end Exchange

/-! ## 5. Powers of numbers -/

/-- `numericPower`, with a checked division and checked absolute values. -/
def numericPowerChecked (f : Failure) (b e : Coefficient) : Except Failure Expr :=
  if b.isOne then .ok (num .one)
  else
    match e.toWord? with
    | none => .ok (op .pow [num b, num e])
    | some n => do
      if maxFoldedExponent < (← absChecked f n) then return op .pow [num b, num e]
      else if 0 < n then return num (b.pow n.natAbs)
      else if b.isZero then return op .pow [num b, num e]
      else return num ((← b.inv).pow n.natAbs)

/-- **A power of numbers fails only where an exponent has no absolute value.** -/
theorem numericPowerChecked_eq (f : Failure) (b e : Coefficient) :
    numericPowerChecked f b e = (numericPower b e).mapError f.atMagnitude := by
  unfold numericPowerChecked numericPower absChecked
  split
  · rfl
  cases e.toWord? with
  | none => rfl
  | some n =>
    dsimp only
    split
    · exact congrArg Except.error f.atMagnitude_magnitude.symm
    show (if maxFoldedExponent < n.natAbs then _ else _) = _
    split
    · rfl
    split
    · rfl
    split
    · rename_i zero
      obtain ⟨e, fails⟩ := (Coefficient.inv_eq_error_iff b).mpr ((Coefficient.isZero_iff b).mp zero)
      rw [fails]
      rfl
    · rename_i nonzero
      obtain ⟨i, inv, -⟩ := Coefficient.exists_inv (Bool.not_eq_true _ ▸ nonzero)
      rw [inv]
      rfl

end Expr

end Eliminant
