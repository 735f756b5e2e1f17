import Eliminant.Proofs.Expr.Grammar
import Mathlib.Algebra.Order.Group.Nat

/-!
# What tokens are read as in a place

What a sequence of tokens is read as depends on the place where it stands. For each kind of place there is a
statement that the tokens `ts`, in such a place, are read as `b`, whatever follows that does not hold on to
them more tightly (`Follow`):

* `AsPrimary`: as an operand of anything, and `AsMarked`: with primes and subscripts behind it;
* `AsUnary`: as a factor, divisor or exponent, or behind a sign;
* `AsProduct`: at the start of a product, which may go on;
* `AsSum`: at the start of a sum, which may go on, and `AsTerms`: as its later terms;
* `AsArguments`: in the brackets of a call.

A reading in one kind of place is a reading in the next (`AsPrimary.marked`, `AsMarked.unary`,
`AsUnary.product`, `AsProduct.sum`), and brackets bring every reading back to the first (`AsSum.brackets`).
-/

namespace Eliminant

/-! ## 1. What may follow -/

/-- How tightly a token holds on to the operand in front of it: as tightly as the operator that it writes.
    An operand holds on to another one, with which it is a product or a call; brackets that close and commas
    hold on to nothing. -/
def Token.grip : Token → Nat
  | number _ | name _ | opening => 255
  | closing | comma => 0
  | sign c =>
    if c = '+' ∨ c = '-' then Operator.add.precedence
    else if c = '*' ∨ c = '/' then Operator.mul.precedence
    else if c = '^' then Operator.pow.precedence
    else Operator.prime.precedence

namespace Expr

variable {b c e : Expr} {bs cs : List Expr} {t : Token} {ts us rest : List Token} {k l : Nat}

/-- What follows holds on less tightly than `k`. -/
def Follow (k : Nat) (ts : List Token) : Prop := ∀ t ∈ ts.head?, t.grip < k

namespace Follow

theorem mono (h : Follow k ts) (le : k ≤ l) : Follow l ts := fun t ht => (h t ht).trans_le le

theorem nil : Follow k [] := nofun

theorem cons (h : t.grip < k) : Follow k (t :: ts) := fun u hu => by
  cases hu
  exact h

/-- Some token with a firmer grip does not follow. -/
theorem head_ne (h : Follow k ts) (le : k ≤ t.grip) : ts.head? ≠ some t := fun same =>
  (h t same).not_ge le

end Follow

open Phrase

/-- Operands start with no sign. -/
theorem head_ne_sign {p : Phrase} {out : p.Answer} (h : Reads p ts out rest)
    (operand : p = primary ∨ p = marked) (s : Char) : ts.head? ≠ some (.sign s) := by
  induction h with
  | number | name _ | bareCall | call _ _ | bracket _ _ => nofun
  | marked _ _ ih _ => exact ih (.inl rfl)
  | _ => simp at operand

/-! ## 2. The kinds of places -/

/-- As an operand, `ts` are read as `b`. -/
def AsPrimary (ts : List Token) (b : Expr) : Prop :=
  ∀ rest, Follow 255 rest → Reads primary (ts ++ rest) b rest

/-- As an operand with its marks, behind which more marks may follow, `ts` are read as `b`. -/
def AsMarked (ts : List Token) (b : Expr) : Prop :=
  ∀ rest out last, Follow 255 rest → Reads (marks b) rest out last → Reads marked (ts ++ rest) out last

/-- As a power with its signs, `ts` are read as `b`. -/
def AsUnary (ts : List Token) (b : Expr) : Prop :=
  ∀ rest, Follow 9 rest → Reads unary (ts ++ rest) b rest

/-- As the start of a product, behind which more factors and divisors may follow, `ts` are read as `b`. -/
def AsProduct (ts : List Token) (b : Expr) : Prop :=
  ∀ rest out last, Follow 9 rest → Reads (factors b) rest out last → Reads product (ts ++ rest) out last

/-- As the start of a sum, behind which more terms may follow, `ts` are read as `b` and the terms `bs`. -/
def AsSum (ts : List Token) (b : Expr) (bs : List Expr) : Prop :=
  ∀ rest more last, Follow 8 rest → Reads terms rest more last →
    Reads sum (ts ++ rest) (ofTerms b (bs ++ more)) last

/-- As later terms of a sum, behind which more may follow, `ts` are read as `bs`. -/
def AsTerms (ts : List Token) (bs : List Expr) : Prop :=
  ∀ rest more last, Follow 8 rest → Reads terms rest more last →
    Follow 8 (ts ++ rest) ∧ Reads terms (ts ++ rest) (bs ++ more) last

/-- As the arguments of a call, `ts` are read as `bs`. -/
def AsArguments (ts : List Token) (bs : List Expr) : Prop :=
  ∀ rest, Reads arguments (ts ++ .closing :: rest) bs (.closing :: rest)

/-! ## 3. From place to place -/

theorem AsPrimary.marked (h : AsPrimary ts b) : AsMarked ts b := fun rest _ _ follow later =>
  .marked (h rest follow) later

theorem AsMarked.unary (h : AsMarked ts b) : AsUnary ts b := by
  intro rest follow
  have stop : Reads (marks b) rest b rest :=
    .lastMark (follow.head_ne (by decide)) (follow.head_ne (by decide))
  have operand := h rest b rest (follow.mono (by decide)) stop
  exact .unsigned (head_ne_sign operand (.inr rfl) _) (head_ne_sign operand (.inr rfl) _)
    (.unraised operand (follow.head_ne (by decide)))

theorem AsUnary.product (h : AsUnary ts b) : AsProduct ts b := fun rest _ _ follow later =>
  .product (h rest follow) later

/-- A product that does not go on. -/
theorem AsProduct.reads (h : AsProduct ts b) (rest : List Token) (follow : Follow 8 rest) :
    Reads .product (ts ++ rest) b rest := by
  refine h rest b rest (follow.mono (by decide)) ?_
  refine .lastFactor (follow.head_ne (by decide)) (follow.head_ne (by decide)) fun t ht => ?_
  have grip := follow t ht
  cases t with
  | number _ | name _ | opening => exact absurd grip (by simp [Token.grip])
  | sign _ | closing | comma => rfl

theorem AsProduct.sum (h : AsProduct ts b) : AsSum ts b [] := fun rest _ _ follow later =>
  .sum (h.reads rest follow) later

/-- A sum that does not go on. -/
theorem AsSum.reads (h : AsSum ts b bs) (rest : List Token) (follow : Follow 7 rest) :
    Reads .sum (ts ++ rest) (ofTerms b bs) rest := by
  have stop : Reads terms rest [] rest :=
    .lastTerm (follow.head_ne (by decide)) (follow.head_ne (by decide))
  have all := h rest [] rest (follow.mono (by decide)) stop
  rwa [List.append_nil] at all

/-- **Brackets make an operand of anything.** -/
theorem AsSum.brackets (h : AsSum ts b bs) :
    AsPrimary (.opening :: (ts ++ [.closing])) (ofTerms b bs) := by
  intro rest _
  rw [List.cons_append, List.append_assoc]
  exact .bracket (h.reads _ (.cons (by decide)))

/-! ## 4. Operands -/

theorem AsPrimary.var (x : String) : AsPrimary [.name x] (var x) := fun _ follow =>
  .name (follow.head_ne (by simp [Token.grip]))

theorem AsPrimary.digits (digits : String) : AsPrimary [.number digits] (ofDigits digits) :=
  fun _ _ => .number

theorem AsPrimary.bareCall (f : String) : AsPrimary [.name f, .opening, .closing] (call f []) :=
  fun _ _ => .bareCall

theorem AsArguments.call (f : String) (h : AsArguments ts bs) :
    AsPrimary (.name f :: .opening :: (ts ++ [.closing])) (call f bs) := by
  intro rest _
  rw [List.cons_append, List.cons_append, List.append_assoc]
  exact .call (h rest)

theorem AsSum.last (h : AsSum ts b bs) : AsArguments ts [ofTerms b bs] := fun _ =>
  .lastArgument (h.reads _ (.cons (by decide))) nofun

theorem AsSum.more (h : AsSum ts b bs) (h' : AsArguments us cs) :
    AsArguments (ts ++ .comma :: us) (ofTerms b bs :: cs) := by
  intro rest
  rw [List.append_assoc]
  exact .argument (h.reads _ (.cons (by decide))) (h' rest)

theorem AsMarked.prime (h : AsMarked ts b) : AsMarked (ts ++ [.sign '\'']) (op .prime [b]) := by
  intro rest out last follow later
  rw [List.append_assoc]
  exact h _ _ _ (.cons (by decide)) (.prime later)

theorem AsMarked.subscript (h : AsMarked ts b) (h' : AsPrimary us c) :
    AsMarked (ts ++ .sign '_' :: us) (op .subscript [b, c]) := by
  intro rest out last follow later
  rw [List.append_assoc]
  exact h _ _ _ (.cons (by decide)) (.subscript (h' rest follow) later)

theorem AsMarked.pow (h : AsMarked ts b) (h' : AsUnary us c) :
    AsUnary (ts ++ .sign '^' :: us) (op .pow [b, c]) := by
  intro rest follow
  rw [List.append_assoc]
  have stop : Reads (marks b) (.sign '^' :: (us ++ rest)) b (.sign '^' :: (us ++ rest)) :=
    .lastMark (by simp) (by simp)
  have operand := h _ b _ (.cons (by decide)) stop
  exact .unsigned (head_ne_sign operand (.inr rfl) _) (head_ne_sign operand (.inr rfl) _)
    (.raised operand (h' rest follow))

theorem AsUnary.neg (h : AsUnary ts b) : AsUnary (.sign '-' :: ts) (negated b) :=
  fun rest follow => .negative (h rest follow)

/-! ## 5. Products and sums -/

theorem AsProduct.times (h : AsProduct ts b) (h' : AsUnary us c) :
    AsProduct (ts ++ .sign '*' :: us) (timesFactor b c) := by
  intro rest out last follow later
  rw [List.append_assoc]
  exact h _ _ _ (.cons (by decide)) (.times (h' rest follow) later)

theorem AsProduct.div (h : AsProduct ts b) (h' : AsUnary us c) :
    AsProduct (ts ++ .sign '/' :: us) (op .div [b, c]) := by
  intro rest out last follow later
  rw [List.append_assoc]
  exact h _ _ _ (.cons (by decide)) (.divided (h' rest follow) later)

theorem AsTerms.nil : AsTerms [] [] := fun _ _ _ follow later => ⟨follow, later⟩

theorem AsTerms.plus (h : AsProduct ts b) (h' : AsTerms us bs) :
    AsTerms (.sign '+' :: (ts ++ us)) (b :: bs) := by
  intro rest more last follow later
  obtain ⟨follow, later⟩ := h' rest more last follow later
  rw [List.cons_append, List.append_assoc]
  exact ⟨.cons (by decide), .plus (h.reads _ follow) later⟩

/-- A later term whose minus sign is that between the terms. -/
theorem AsTerms.minus (h : AsProduct ts b) (h' : AsTerms us bs) :
    AsTerms (.sign '-' :: (ts ++ us)) (negated b :: bs) := by
  intro rest more last follow later
  obtain ⟨follow, later⟩ := h' rest more last follow later
  rw [List.cons_append, List.append_assoc]
  exact ⟨.cons (by decide), .minus (h.reads _ follow) later⟩

theorem AsProduct.add (h : AsProduct ts b) (h' : AsTerms us bs) : AsSum (ts ++ us) b bs := by
  intro rest more last follow later
  obtain ⟨follow, later⟩ := h' rest more last follow later
  rw [List.append_assoc]
  exact .sum (h.reads _ follow) later

theorem AsSum.sub (h : AsSum ts b bs) (h' : AsProduct us c) :
    AsSum (ts ++ .sign '-' :: us) b (bs ++ [negated c]) := by
  intro rest more last follow later
  rw [List.append_assoc, List.append_assoc]
  exact h _ _ _ (.cons (by decide)) (.minus (h'.reads rest follow) later)

end Expr

end Eliminant
