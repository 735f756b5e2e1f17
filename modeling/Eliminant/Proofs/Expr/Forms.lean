import Eliminant.Proofs.Expr.Faithful
import Eliminant.Proofs.Expr.Positions

/-!
# Written forms and where they can stand

For each kind of place there is a statement that the tokens `ts`, in such a place, are read with the value
of `m`: `Primary`, `Marked`, `Unary`, `Product`, `Sum`, `Terms` and `Arguments`. What they are read as is
another question (`Proofs/Expr/Positions`); here it only matters that it means the same (`Means`).

Each kind of place takes all forms of the kinds before it (`Primary.marked`, `Marked.unary`, `Unary.product`,
`Product.sum`), and brackets bring every form back to the first (`Sum.brackets`).
-/

namespace Eliminant

namespace Expr

variable {m m' : Expr} {ms : List Expr} {ts us : List Token}

/-! ## 1. The kinds of places -/

/-- `ts` is an operand that means `m`. -/
def Primary (ts : List Token) (m : Expr) : Prop := ∃ b : Expr, b.Means m ∧ AsPrimary ts b

/-- `ts` is an operand with its marks, and more marks may follow. -/
def Marked (ts : List Token) (m : Expr) : Prop := ∃ b : Expr, b.Means m ∧ AsMarked ts b

/-- `ts` is a power with its signs. -/
def Unary (ts : List Token) (m : Expr) : Prop := ∃ b : Expr, b.Means m ∧ AsUnary ts b

/-- `ts` starts a product, and more factors and divisors may follow. -/
def Product (ts : List Token) (m : Expr) : Prop := ∃ b : Expr, b.Means m ∧ AsProduct ts b

/-- `ts` is a sum, and more terms may follow. -/
def Sum (ts : List Token) (m : Expr) : Prop :=
  ∃ (b : Expr) (bs : List Expr), (ofTerms b bs).Means m ∧ AsSum ts b bs

/-- `ts` are later terms of a sum, and more may follow. -/
def Terms (ts : List Token) (ms : List Expr) : Prop :=
  ∃ bs : List Expr, List.Forall₂ Means bs ms ∧ AsTerms ts bs

/-! ## 2. From place to place -/

theorem Primary.marked (h : Primary ts m) : Marked ts m := by
  obtain ⟨b, means, reads⟩ := h
  exact ⟨b, means, reads.marked⟩

theorem Marked.unary (h : Marked ts m) : Unary ts m := by
  obtain ⟨b, means, reads⟩ := h
  exact ⟨b, means, reads.unary⟩

theorem Unary.product (h : Unary ts m) : Product ts m := by
  obtain ⟨b, means, reads⟩ := h
  exact ⟨b, means, reads.product⟩

theorem Unary.congr (h : Unary ts m) (same : SameValue m m') : Unary ts m' := by
  obtain ⟨b, means, reads⟩ := h
  exact ⟨b, means.trans same, reads⟩

theorem Product.congr (h : Product ts m) (same : SameValue m m') : Product ts m' := by
  obtain ⟨b, means, reads⟩ := h
  exact ⟨b, means.trans same, reads⟩

theorem Product.sum (h : Product ts m) : Sum ts m := by
  obtain ⟨b, means, reads⟩ := h
  exact ⟨b, [], means, reads.sum⟩

/-- A sum that does not go on. -/
theorem Sum.reads (h : Sum ts m) :
    ∃ b : Expr, b.Means m ∧ ∀ rest, Follow 7 rest → Reads .sum (ts ++ rest) b rest := by
  obtain ⟨b, bs, means, reads⟩ := h
  exact ⟨_, means, reads.reads⟩

/-- **Brackets make an operand of anything.** -/
theorem Sum.brackets (h : Sum ts m) : Primary (.opening :: (ts ++ [.closing])) m := by
  obtain ⟨b, bs, means, reads⟩ := h
  exact ⟨_, means, reads.brackets⟩

/-! ## 3. Operands -/

theorem Primary.var (x : String) : Primary [.name x] (var x) := ⟨_, .refl rfl, .var x⟩

theorem Primary.number (k : ℕ) : Primary [.number (toString k)] (int k) := by
  refine ⟨_, .refl rfl, ?_⟩
  rw [← ofDigits_toString]
  exact .digits _

/-- `ts` are the arguments of a call, at least one. -/
inductive Arguments : List Token → List Expr → Prop
  | last {ts : List Token} {m : Expr} : Sum ts m → Arguments ts [m]
  | more {ts us : List Token} {m : Expr} {ms : List Expr} :
    Sum ts m → Arguments us ms → Arguments (ts ++ .comma :: us) (m :: ms)

theorem Arguments.reads (h : Arguments ts ms) :
    ∃ bs : List Expr, List.Forall₂ Means bs ms ∧ AsArguments ts bs := by
  induction h with
  | last h =>
    obtain ⟨b, bs, means, reads⟩ := h
    exact ⟨_, .cons means .nil, reads.last⟩
  | more h _ ih =>
    obtain ⟨b, bs, means, reads⟩ := h
    obtain ⟨cs, all, later⟩ := ih
    exact ⟨_, .cons means all, reads.more later⟩

theorem Arguments.call (f : String) (h : Arguments ts ms) :
    Primary (.name f :: .opening :: (ts ++ [.closing])) (call f ms) := by
  obtain ⟨bs, means, reads⟩ := h.reads
  exact ⟨_, .call f means, reads.call f⟩

theorem Primary.bareCall (f : String) :
    Primary [.name f, .opening, .closing] (Expr.call f []) := ⟨_, .refl rfl, .bareCall f⟩

theorem Marked.prime (h : Marked ts m) : Marked (ts ++ [.sign '\'']) (op .prime [m]) := by
  obtain ⟨b, means, reads⟩ := h
  exact ⟨_, .node rfl (.cons means .nil), reads.prime⟩

theorem Marked.subscript (h : Marked ts m) (h' : Primary us m') :
    Marked (ts ++ .sign '_' :: us) (op .subscript [m, m']) := by
  obtain ⟨b, means, reads⟩ := h
  obtain ⟨b', means', reads'⟩ := h'
  exact ⟨_, .node rfl (.cons means (.cons means' .nil)), reads.subscript reads'⟩

theorem Marked.pow (h : Marked ts m) (h' : Unary us m') :
    Unary (ts ++ .sign '^' :: us) (op .pow [m, m']) := by
  obtain ⟨b, means, reads⟩ := h
  obtain ⟨b', means', reads'⟩ := h'
  exact ⟨_, .node rfl (.cons means (.cons means' .nil)), reads.pow reads'⟩

theorem Unary.neg (h : Unary ts m) : Unary (.sign '-' :: ts) (op .neg [m]) := by
  obtain ⟨b, means, reads⟩ := h
  exact ⟨_, means.negated, reads.neg⟩

/-! ## 4. Products and sums -/

theorem Product.mul (h : Product ts m) (h' : Unary us m') :
    Product (ts ++ .sign '*' :: us) (op .mul [m, m']) := by
  obtain ⟨b, means, reads⟩ := h
  obtain ⟨b', means', reads'⟩ := h'
  exact ⟨_, means.timesFactor means', reads.times reads'⟩

theorem Product.div (h : Product ts m) (h' : Unary us m') :
    Product (ts ++ .sign '/' :: us) (op .div [m, m']) := by
  obtain ⟨b, means, reads⟩ := h
  obtain ⟨b', means', reads'⟩ := h'
  exact ⟨_, .node rfl (.cons means (.cons means' .nil)), reads.div reads'⟩

theorem Terms.nil : Terms [] [] := ⟨[], .nil, .nil⟩

theorem Terms.plus (h : Product ts m) (h' : Terms us ms) :
    Terms (.sign '+' :: (ts ++ us)) (m :: ms) := by
  obtain ⟨b, means, reads⟩ := h
  obtain ⟨bs, all, later⟩ := h'
  exact ⟨b :: bs, .cons means all, .plus reads later⟩

/-- A later term whose minus sign is that between the terms. -/
theorem Terms.minus (h : Product ts m) (opposite : SameValue (op .neg [m]) m') (h' : Terms us ms) :
    Terms (.sign '-' :: (ts ++ us)) (m' :: ms) := by
  obtain ⟨b, means, reads⟩ := h
  obtain ⟨bs, all, later⟩ := h'
  exact ⟨negated b :: bs, .cons (means.negated.trans opposite) all, .minus reads later⟩

theorem Product.add (h : Product ts m) (h' : Terms us ms) (many : ms ≠ []) :
    Sum (ts ++ us) (op .add (m :: ms)) := by
  obtain ⟨b, means, reads⟩ := h
  obtain ⟨bs, all, later⟩ := h'
  exact ⟨b, bs, means.ofTerms many all, reads.add later⟩

theorem Sum.sub (h : Sum ts m) (h' : Product us m') :
    Sum (ts ++ .sign '-' :: us) (op .sub [m, m']) := by
  obtain ⟨b, bs, means, reads⟩ := h
  obtain ⟨b', means', reads'⟩ := h'
  exact ⟨b, bs ++ [negated b'], means.ofTerms_sub means', reads.sub reads'⟩

end Expr

end Eliminant
