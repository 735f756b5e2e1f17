import Eliminant.Expr.Printer
import Eliminant.Proofs.Expr.Forms
import Eliminant.Proofs.Text.Scan

/-!
# Written forms are read with the value that they were written with

Every well-formed expression with readable names is written as a text that is read without an error, and
what is read has the value of the expression in every interpretation -- but for one kind of node. A
negative fraction binds like a negation, and so it is not put in brackets where it divides: the quotient of
`1` by `-1/2` is written as that of `1` by `-1`, divided by `2`. `Expr.asWritten` is the expression with all
such divisors taken apart, and **`Expr.parse_text`** says that what is read has its value.

The proof follows the places of the written form: `Written a ts` says that `ts` is what `a` is written with,
and in which places it can stand without brackets, which its binding strength tells.
-/

namespace Eliminant

/-! ## 1. Numbers as text -/

namespace Coefficient

variable (n : Coefficient)

theorem text_eq : n.text = fractionText n.toRat.num n.toRat.den := by
  cases n with
  | small p q _ _ pos _ =>
    show fractionText p q = fractionText p (q.toNat : ℤ)
    rw [Int.toNat_of_nonneg (by omega)]
  | large _ _ => rfl

variable {n}

/-- A negative number is written with a minus sign in front of its opposite. -/
theorem text_of_isNegative (h : n.isNegative = true) : n.text = "-" ++ (-n).text := by
  have negative := (isNegative_iff n).mp h
  obtain ⟨k, hk⟩ : ∃ k : ℕ, n.toRat.num = -(k + 1 : ℕ) := ⟨n.toRat.num.natAbs - 1, by omega⟩
  have sign : toString (-(k + 1 : ℕ) : ℤ) = "-" ++ toString ((k + 1 : ℕ) : ℤ) := rfl
  rw [text_eq, text_eq, toRat_neg, Rat.neg_num, Rat.neg_den, hk, neg_neg]
  unfold fractionText
  split
  · exact sign
  · simp only [sign, String.append_assoc]

/-- A number that is not negative is written as a numerator, and a denominator unless it is `1`. -/
theorem text_of_nonneg (h : n.isNegative = false) : ∃ k : ℕ, n.toRat.num = k ∧
    n.text = if n.isInteger then toString k else toString k ++ "/" ++ toString n.toRat.den := by
  have nonneg : 0 ≤ n.toRat.num := not_lt.mp ((isNegative_iff n).not.mp (by simp [h]))
  obtain ⟨k, hk⟩ := Int.eq_ofNat_of_zero_le nonneg
  refine ⟨k, hk, ?_⟩
  rw [text_eq, hk]
  unfold fractionText
  simp only [isInteger_iff, Nat.cast_eq_one]
  rfl

theorem text_ofInt (k : ℤ) : (ofInt k).text = toString k := by
  rw [text_eq, toRat_ofInt, Rat.num_intCast, Rat.den_intCast]
  rfl

theorem isNegative_ofInt {k : ℤ} : (ofInt k).isNegative = true ↔ k < 0 := by
  rw [isNegative_iff, toRat_ofInt, Rat.num_intCast]

theorem isNegative_neg (h : n.isNegative = true) : (-n).isNegative = false := by
  have negative := (isNegative_iff n).mp h
  rw [← Bool.not_eq_true, isNegative_iff, toRat_neg, Rat.neg_num]
  omega

end Coefficient

namespace Expr

/-! ## 2. Readable names and bare fractions -/

mutual
/-- Whether the names of all variables and functions can be read. -/
def wellNamed : Expr → Bool
  | num _ => true
  | var x => isName x
  | call f args => isName f && wellNamedList args
  | op _ args => wellNamedList args

/-- Whether the names in an operand list can be read. -/
def wellNamedList : List Expr → Bool
  | [] => true
  | a :: as => wellNamed a && wellNamedList as
end

/-- The numerator and the denominator of a negative fraction with signs in front of it, none of which are in
    brackets. -/
def bareFraction? : Expr → Option (Expr × Expr)
  | num n =>
    if n.isNegative && !n.isInteger then some (int n.toRat.num, int n.toRat.den) else none
  | op .neg [a] => (bareFraction? a).map fun p => (op .neg [p.1], p.2)
  | _ => none

mutual
/-- **The expression that is written**: a divisor that is a negative fraction is written without brackets,
    and so its numerator divides and then its denominator. -/
def asWritten : Expr → Expr
  | num n => num n
  | var x => var x
  | call f args => call f (asWrittenList args)
  | op .div [a, b] =>
    match bareFraction? b with
    | some (x, d) => op .div [op .div [asWritten a, x], d]
    | none => op .div [asWritten a, asWritten b]
  | op o args => op o (asWrittenList args)

/-- The operands as they are written. -/
def asWrittenList : List Expr → List Expr
  | [] => []
  | a :: as => asWritten a :: asWrittenList as
end

mutual
/-- Whether a negative fraction divides somewhere. -/
def hasBareDivisor : Expr → Bool
  | num _ | var _ => false
  | call _ args => hasBareDivisorList args
  | op .div [a, b] => (bareFraction? b).isSome || hasBareDivisor a || hasBareDivisor b
  | op _ args => hasBareDivisorList args

/-- Whether a negative fraction divides somewhere in an operand list. -/
def hasBareDivisorList : List Expr → Bool
  | [] => false
  | a :: as => hasBareDivisor a || hasBareDivisorList as
end

variable {a b m : Expr} {as args : List Expr} {ts us : List Token} {o : Operator} {f : String}
  {n : Coefficient}

theorem wellNamedList_iff : wellNamedList as = true ↔ ∀ a ∈ as, a.wellNamed = true := by
  induction as with
  | nil => simp [wellNamedList]
  | cons a as ih => rw [wellNamedList, Bool.and_eq_true, ih, List.forall_mem_cons]

theorem asWrittenList_eq_map : asWrittenList as = as.map asWritten := by
  induction as with
  | nil => rfl
  | cons a as ih => rw [asWrittenList, ih, List.map_cons]

theorem asWritten_op (h : o ≠ .div) : (op o args).asWritten = op o (args.map asWritten) := by
  rw [asWritten, asWrittenList_eq_map]
  rintro a b rfl
  exact absurd rfl h

theorem asWritten_div : (op .div [a, b]).asWritten =
    match bareFraction? b with
    | some (x, d) => op .div [op .div [a.asWritten, x], d]
    | none => op .div [a.asWritten, b.asWritten] := by
  rw [asWritten]

theorem hasBareDivisor_op (h : (op o args).hasBareDivisor = false) :
    hasBareDivisorList args = false ∧ ∀ a b, o = .div → args = [a, b] → bareFraction? b = none := by
  cases o with
  | div =>
    match args with
    | [a, b] => simp_all [hasBareDivisor, hasBareDivisorList]
    | [] | [_] | _ :: _ :: _ :: _ => simp_all [hasBareDivisor]
  | _ => simpa [hasBareDivisor] using h

mutual
/-- Nothing changes where no negative fraction divides. -/
theorem asWritten_eq : ∀ a : Expr, a.hasBareDivisor = false → a.asWritten = a
  | num _, _ | var _, _ => by simp [asWritten]
  | call f args, h => by
    rw [asWritten, asWrittenList_eq args (by simpa [hasBareDivisor] using h)]
  | op o args, h => by
    obtain ⟨inner, divisor⟩ := hasBareDivisor_op h
    have same := asWrittenList_eq args inner
    by_cases quotient : o = .div ∧ ∃ a b, args = [a, b]
    · obtain ⟨rfl, a, b, rfl⟩ := quotient
      simp only [asWrittenList, List.cons.injEq] at same
      rw [asWritten_div, divisor a b rfl rfl, same.1, same.2.1]
    · rw [asWritten, same]
      exact fun a b div two => quotient ⟨div, a, b, two⟩

theorem asWrittenList_eq : ∀ as : List Expr, hasBareDivisorList as = false → asWrittenList as = as
  | [], _ => rfl
  | a :: as, h => by
    rw [hasBareDivisorList, Bool.or_eq_false_iff] at h
    rw [asWrittenList, asWritten_eq a h.1, asWrittenList_eq as h.2]
end

/-! ## 3. Operands with signs -/

/-- A negative fraction binds like a negation and is written as it is. -/
theorem bareFraction?_eq_some : ∀ {a x d : Expr}, bareFraction? a = some (x, d) →
    a.strength = Operator.neg.precedence ∧ a.asWritten = a ∧ SameValue (op .div [x, d]) a
  | num n, x, d, h => by
    unfold bareFraction? at h
    split at h
    · rename_i bare
      cases h
      refine ⟨if_pos (Bool.and_elim_left bare), by rw [asWritten], SameValue.fraction n⟩
    · cases h
  | op .neg [a], x, d, h => by
    rw [bareFraction?, Option.map_eq_some_iff] at h
    obtain ⟨⟨y, d⟩, inner, h⟩ := h
    cases h
    obtain ⟨-, written, same⟩ := bareFraction?_eq_some inner
    refine ⟨rfl, ?_, same.neg_quotient⟩
    rw [asWritten_op (by decide), List.map_singleton, written]
  | var _, _, _, h | call _ _, _, _, h => by simp [bareFraction?] at h
  | op .neg [], _, _, h | op .neg (_ :: _ :: _), _, _, h => by simp [bareFraction?] at h
  | op .add _, _, _, h | op .sub _, _, _, h | op .mul _, _, _, h | op .div _, _, _, h
  | op .pow _, _, _, h | op .subscript _, _, _, h | op .prime _, _, _, h => by
    simp [bareFraction?] at h

/-- **What stands where factors and divisors do**: a power with its signs, or a negative fraction, of which
    only the numerator is one. -/
inductive Operand (a : Expr) : List Token → Prop
  | unary {ts : List Token} : bareFraction? a = none → Unary ts a.asWritten → Operand a ts
  | bare {us vs : List Token} {x d : Expr} : bareFraction? a = some (x, d) → Unary us x → Unary vs d →
    Operand a (us ++ .sign '/' :: vs)

namespace Operand

theorem product (h : Operand a ts) : Product ts a.asWritten := by
  cases h with
  | unary _ h => exact h.product
  | bare bare h h' =>
    obtain ⟨-, written, same⟩ := bareFraction?_eq_some bare
    rw [written]
    exact (h.product.div h').congr same

theorem neg (h : Operand a ts) : Operand (op .neg [a]) (.sign '-' :: ts) := by
  cases h with
  | unary none h =>
    refine .unary (by rw [bareFraction?, none]; rfl) ?_
    rw [asWritten_op (by decide)]
    exact h.neg
  | bare bare h h' => exact .bare (by rw [bareFraction?, bare]; rfl) h.neg h'

/-- A later factor. -/
theorem mul (h : Product ts m) (h' : Operand b us) :
    Product (ts ++ .sign '*' :: us) (op .mul [m, b.asWritten]) := by
  cases h' with
  | unary _ h' => exact h.mul h'
  | bare bare h' h'' =>
    obtain ⟨-, written, same⟩ := bareFraction?_eq_some bare
    have read := (h.mul h').div h''
    rw [List.append_assoc] at read
    rw [written]
    exact (read.congr (SameValue.mul_quotient _ _ _)).congr (same.op_right _ _)

/-- A divisor. -/
theorem div (h : Product ts a.asWritten) (h' : Operand b us) :
    Product (ts ++ .sign '/' :: us) (op .div [a, b]).asWritten := by
  rw [asWritten_div]
  cases h' with
  | unary none h' =>
    rw [none]
    exact h.div h'
  | bare bare h' h'' =>
    have read := (h.div h').div h''
    rw [List.append_assoc] at read
    rw [bare]
    exact read

end Operand

/-! ## 4. What an expression is written with -/

/-- `ts` is a minus sign and a product that means the opposite of `m`. -/
def Opposite (ts : List Token) (m : Expr) : Prop :=
  ∃ us m', ts = .sign '-' :: us ∧ Product us m' ∧ SameValue (op .neg [m']) m

/-- **`a` is written with the tokens `ts`**, which stand without brackets where the binding strength of `a`
    allows it: 12 is the least for bases and exponents, 9 for factors and divisors, 8 for terms. -/
structure Written (a : Expr) (ts : List Token) : Prop where
  spells : Spells ts a.text
  primary : strongest ≤ a.strength → Primary ts a.asWritten
  marked : 12 ≤ a.strength → Marked ts a.asWritten
  operand : 9 ≤ a.strength → Operand a ts
  product : 8 ≤ a.strength → Product ts a.asWritten
  sum : Sum ts a.asWritten
  signed : a.startsWithMinus = true → Opposite ts a.asWritten

namespace Written

theorem of_marked (spells : Spells ts a.text) (h : Marked ts a.asWritten)
    (primary : strongest ≤ a.strength → Primary ts a.asWritten) (bare : bareFraction? a = none)
    (sign : a.startsWithMinus = false) : Written a ts where
  spells := spells
  primary := primary
  marked _ := h
  operand _ := .unary bare h.unary
  product _ := h.unary.product
  sum := h.unary.product.sum
  signed minus := by rw [sign] at minus; cases minus

theorem of_primary (spells : Spells ts a.text) (h : Primary ts a.asWritten)
    (bare : bareFraction? a = none) (sign : a.startsWithMinus = false) : Written a ts :=
  of_marked spells h.marked (fun _ => h) bare sign

theorem of_operand (spells : Spells ts a.text) (h : Operand a ts) (loose : a.strength < 12)
    (signed : a.startsWithMinus = true → Opposite ts a.asWritten) : Written a ts where
  spells := spells
  primary tight := absurd (tight.trans_lt loose) (by decide)
  marked tight := absurd loose tight.not_gt
  operand _ := h
  product _ := h.product
  sum := h.product.sum
  signed := signed

theorem of_product (spells : Spells ts a.text) (h : Product ts a.asWritten) (loose : a.strength < 9)
    (signed : a.startsWithMinus = true → Opposite ts a.asWritten) : Written a ts where
  spells := spells
  primary tight := absurd (tight.trans_lt loose) (by decide)
  marked tight := absurd loose (by omega)
  operand tight := absurd loose tight.not_gt
  product _ := h
  sum := h.sum
  signed := signed

theorem of_sum (spells : Spells ts a.text) (h : Sum ts a.asWritten) (loose : a.strength < 8)
    (sign : a.startsWithMinus = false) : Written a ts where
  spells := spells
  primary tight := absurd (tight.trans_lt loose) (by decide)
  marked tight := absurd loose (by omega)
  operand tight := absurd loose (by omega)
  product tight := absurd loose tight.not_gt
  sum := h
  signed minus := by rw [sign] at minus; cases minus

/-! ## 5. Places -/

/-- In a place that demands more, an expression is written in brackets. -/
theorem place (h : Written a ts) (least : Nat) : ∃ us, Spells us (inPlace least a a.text) ∧
    (a.strength < least ∧ Primary us a.asWritten ∨ least ≤ a.strength ∧ us = ts) := by
  unfold inPlace
  split
  · rename_i loose
    exact ⟨_, h.spells.brackets, .inl ⟨loose, h.sum.brackets⟩⟩
  · rename_i tight
    exact ⟨ts, h.spells, .inr ⟨not_lt.mp tight, rfl⟩⟩

theorem place_primary (h : Written a ts) : ∃ us, Spells us (inPlace strongest a a.text) ∧
    Primary us a.asWritten := by
  obtain ⟨us, spells, ⟨-, brackets⟩ | ⟨tight, rfl⟩⟩ := h.place strongest
  · exact ⟨us, spells, brackets⟩
  · exact ⟨us, spells, h.primary tight⟩

theorem place_marked (h : Written a ts) : ∃ us, Spells us (inPlace 12 a a.text) ∧
    Marked us a.asWritten := by
  obtain ⟨us, spells, ⟨-, brackets⟩ | ⟨tight, rfl⟩⟩ := h.place 12
  · exact ⟨us, spells, brackets.marked⟩
  · exact ⟨us, spells, h.marked tight⟩

theorem place_operand (h : Written a ts) : ∃ us, Spells us (inPlace 9 a a.text) ∧ Operand a us := by
  obtain ⟨us, spells, ⟨loose, brackets⟩ | ⟨tight, rfl⟩⟩ := h.place 9
  · refine ⟨us, spells, .unary (Option.eq_none_iff_forall_not_mem.mpr fun p bare => ?_)
      brackets.marked.unary⟩
    rw [(bareFraction?_eq_some bare).1] at loose
    exact absurd loose (by decide)
  · exact ⟨us, spells, h.operand tight⟩

theorem place_product (h : Written a ts) (least : Nat) (tight : 8 ≤ least) :
    ∃ us, Spells us (inPlace least a a.text) ∧ Product us a.asWritten := by
  obtain ⟨us, spells, ⟨-, brackets⟩ | ⟨enough, rfl⟩⟩ := h.place least
  · exact ⟨us, spells, brackets.marked.unary.product⟩
  · exact ⟨us, spells, h.product (tight.trans enough)⟩

theorem place_sum (h : Written a ts) (least : Nat) :
    ∃ us, Spells us (inPlace least a a.text) ∧ Sum us a.asWritten := by
  obtain ⟨us, spells, ⟨-, brackets⟩ | ⟨-, rfl⟩⟩ := h.place least
  · exact ⟨us, spells, brackets.marked.unary.product.sum⟩
  · exact ⟨us, spells, h.sum⟩

/-! ## 6. Numbers -/

theorem digits_valid (k : ℕ) : (Token.number (toString k)).Valid := by
  have digits : (toString k).toList = Nat.toDigits 10 k := Nat.toList_repr
  have all (c : Char) (hc : c ∈ Nat.toDigits 10 k) : c.isDigit = true :=
    Nat.isDigit_of_mem_toDigits (by decide) (by decide) hc
  cases chars : Nat.toDigits 10 k with
  | nil => exact absurd chars Nat.toDigits_ne_nil
  | cons c cs =>
    rw [chars] at all
    obtain ⟨first, later⟩ := List.forall_mem_cons.mp all
    exact ⟨c, cs, digits.trans chars, first, later⟩

theorem unary_number (k : ℕ) : Unary [.number (toString k)] (int k) :=
  (Primary.number k).marked.unary

/-- A numerator, a slash and a denominator. -/
theorem product_fraction {k : ℕ} (value : n.toRat.num = k) :
    Product [.number (toString k), .sign '/', .number (toString n.toRat.den)] (num n) := by
  have same := SameValue.fraction n
  rw [value] at same
  exact ((unary_number k).product.div (unary_number n.toRat.den)).congr same

/-- What a number that is not negative is written with. -/
theorem exists_numeral (nonneg : n.isNegative = false) : ∃ ts, Spells ts n.text ∧
    (n.isInteger = true ∧ Primary ts (num n) ∨ n.isInteger = false ∧ ∃ k : ℕ, n.toRat.num = k ∧
      ts = [.number (toString k), .sign '/', .number (toString n.toRat.den)]) := by
  obtain ⟨k, value, text⟩ := Coefficient.text_of_nonneg nonneg
  have numerator : Spells [.number (toString k)] (toString k) := .word (digits_valid k)
  rw [text]
  cases integer : n.isInteger with
  | true =>
    have den := (Coefficient.isInteger_iff n).mp integer
    have same : int k = num n := int_eq (by
      rw [← value]
      exact (Rat.coe_int_num_of_den_eq_one den).symm)
    exact ⟨_, numerator, .inl ⟨rfl, same ▸ .number k⟩⟩
  | false =>
    have fraction := numerator.join (.sign '/') rfl rfl (.word (digits_valid n.toRat.den))
    exact ⟨_, fraction, .inr ⟨rfl, k, value, rfl⟩⟩

/-- A number that is not negative. -/
theorem exists_of_nonneg (nonneg : n.isNegative = false) : ∃ ts, Written (num n) ts := by
  have written : (num n).asWritten = num n := by rw [asWritten]
  have bare : bareFraction? (num n) = none := by simp [bareFraction?, nonneg]
  obtain ⟨ts, spells, ⟨-, number⟩ | ⟨fraction, k, value, rfl⟩⟩ := exists_numeral nonneg
  · exact ⟨ts, of_primary spells (written ▸ number) bare nonneg⟩
  · refine ⟨_, of_product spells (written ▸ product_fraction value) ?_ fun minus => ?_⟩
    · simp [strength, nonneg, fraction, Operator.precedence]
    · cases nonneg.symm.trans minus

/-- A negative number: a minus sign, and its opposite. -/
theorem exists_of_isNegative (negative : n.isNegative = true) : ∃ ts, Written (num n) ts := by
  have written : (num n).asWritten = num n := by rw [asWritten]
  have loose : (num n).strength < 12 := by simp [strength, negative, Operator.precedence]
  have integer : (-n).isInteger = n.isInteger := by
    rw [Bool.eq_iff_iff, Coefficient.isInteger_iff, Coefficient.isInteger_iff, Coefficient.toRat_neg,
      Rat.neg_den]
  have opposite : SameValue (op .neg [num (-n)]) (num n) := .neg_num n
  obtain ⟨ts, spells, form⟩ := exists_numeral (Coefficient.isNegative_neg negative)
  have spells : Spells (.sign '-' :: ts) n.text :=
    Coefficient.text_of_isNegative negative ▸ .cons (.sign '-') rfl rfl spells
  rw [integer] at form
  obtain ⟨whole, number⟩ | ⟨fraction, k, value, rfl⟩ := form
  · refine ⟨_, of_operand spells (.unary ?_ ?_) loose fun _ => ⟨ts, num (-n), rfl, ?_, ?_⟩⟩
    · simp [bareFraction?, whole]
    · rw [written]
      exact number.marked.unary.neg.congr opposite
    · exact number.marked.unary.product
    · exact written ▸ opposite
  · have bare : bareFraction? (num n) = some (int n.toRat.num, int n.toRat.den) := by
      simp [bareFraction?, negative, fraction]
    have den : (-n).toRat.den = n.toRat.den := by rw [Coefficient.toRat_neg, Rat.neg_den]
    have numerator : n.toRat.num = -k := by rw [← value, Coefficient.toRat_neg, Rat.neg_num, neg_neg]
    refine ⟨_, of_operand spells ?_ loose fun _ => ⟨_, _, rfl, product_fraction value, ?_⟩⟩
    · rw [den]
      rw [numerator] at bare
      exact .bare bare ((unary_number k).neg.congr (.neg_int k)) (unary_number _)
    · exact written ▸ opposite

/-! ## 7. Nodes -/

/-- Expressions that are written somehow. -/
abbrev Writable (as : List Expr) : Prop := ∀ a ∈ as, ∃ ts, Written a ts

/-- What starts with a minus sign needs no brackets in a sum. -/
theorem strength_of_startsWithMinus (h : a.startsWithMinus = true) : 8 ≤ a.strength := by
  unfold startsWithMinus at h
  split at h
  · simp [strength, h, Operator.precedence]
  · exact show 8 ≤ Operator.neg.precedence by decide
  · exact le_rfl
  · cases h

/-- The later terms of a sum, each behind its sign. -/
theorem exists_laterTerms : ∀ {as : List Expr}, Writable as → ∃ us,
    Spells us (String.join (List.zipWith laterTerm as (texts as))) ∧
      (∀ u ∈ us.head?, u.isWord = false) ∧ Terms us (as.map asWritten)
  | [], _ => ⟨[], .nil, nofun, .nil⟩
  | a :: as, h => by
    obtain ⟨⟨ts, first⟩, later⟩ := List.forall_mem_cons.mp h
    obtain ⟨vs, spells, mark, terms⟩ := exists_laterTerms later
    rw [texts, List.zipWith_cons_cons, String.join_cons, laterTerm]
    cases sign : a.startsWithMinus with
    | true =>
      obtain ⟨us, m, rfl, product, opposite⟩ := first.signed sign
      have tight : ¬ a.strength < tight .add := (strength_of_startsWithMinus sign).not_gt
      rw [if_pos rfl, inPlace, if_neg tight, String.empty_append]
      exact ⟨.sign '-' :: (us ++ vs), first.spells.append spells mark, by simp [Token.isWord],
        .minus product opposite terms⟩
    | false =>
      obtain ⟨us, spells', product⟩ := first.place_product (tight .add) le_rfl
      rw [if_neg (by decide)]
      exact ⟨.sign '+' :: (us ++ vs), (Spells.cons (.sign '+') rfl rfl spells').append spells mark,
        by simp [Token.isWord], .plus product terms⟩

/-- A later factor of a product, behind its asterisk. -/
theorem exists_laterFactor (h : Written a ts) :
    ∃ us, Spells (.sign '*' :: us) (laterFactor a a.text) ∧ Operand a us := by
  obtain ⟨us, spells, operand⟩ := h.place_operand
  exact ⟨us, .cons (.sign '*') rfl rfl spells, operand⟩

/-- The later factors of a product. -/
theorem exists_laterFactors : ∀ {as : List Expr}, Writable as → ∃ us,
    Spells us (String.join (List.zipWith laterFactor as (texts as))) ∧
      (∀ u ∈ us.head?, u.isWord = false) ∧ ∀ {ts ms}, 2 ≤ ms.length → Product ts (op .mul ms) →
        Product (ts ++ us) (op .mul (ms ++ as.map asWritten))
  | [], _ => ⟨[], .nil, nofun, fun _ h => by simpa using h⟩
  | a :: as, h => by
    obtain ⟨⟨ts, first⟩, later⟩ := List.forall_mem_cons.mp h
    obtain ⟨vs, spells, mark, factors⟩ := exists_laterFactors later
    obtain ⟨us, spells', operand⟩ := exists_laterFactor first
    rw [texts, List.zipWith_cons_cons, String.join_cons]
    refine ⟨.sign '*' :: (us ++ vs), spells'.append spells mark, by simp [Token.isWord],
      fun {ts ms} many h => ?_⟩
    have product := (operand.mul h).congr ⟨fun I => (I.eval_mul_concat many a.asWritten).symm⟩
    have all := factors (by rw [List.length_append]; omega) product
    simpa using all

/-- A product of which the first factor has been read. -/
theorem exists_factors (h : Writable (b :: as)) : ∃ us,
    Spells us (String.join (List.zipWith laterFactor (b :: as) (texts (b :: as)))) ∧
      (∀ u ∈ us.head?, u.isWord = false) ∧ ∀ {ts m}, Product ts m →
        Product (ts ++ us) (op .mul (m :: (b :: as).map asWritten)) := by
  obtain ⟨⟨ts, first⟩, later⟩ := List.forall_mem_cons.mp h
  obtain ⟨vs, spells, mark, factors⟩ := exists_laterFactors later
  obtain ⟨us, spells', operand⟩ := exists_laterFactor first
  rw [texts, List.zipWith_cons_cons, String.join_cons]
  refine ⟨.sign '*' :: (us ++ vs), spells'.append spells mark, by simp [Token.isWord],
    fun {ts m} h => ?_⟩
  simpa using factors le_rfl (operand.mul h)

theorem exists_of_add (h : Writable (a :: b :: as)) : ∃ ts, Written (op .add (a :: b :: as)) ts := by
  obtain ⟨⟨ts, first⟩, later⟩ := List.forall_mem_cons.mp h
  obtain ⟨us, spells, product⟩ := first.place_product (tight .add) le_rfl
  obtain ⟨vs, spells', mark, terms⟩ := exists_laterTerms later
  refine ⟨us ++ vs, of_sum (spells.append spells' mark) ?_
    (show Operator.add.precedence < 8 by decide) rfl⟩
  rw [asWritten_op (by decide)]
  exact product.add terms (by simp)

theorem exists_of_sub (h : Written a ts) (h' : Written b us) : ∃ ts, Written (op .sub [a, b]) ts := by
  obtain ⟨ts, spells, sum⟩ := h.place_sum (loose .sub)
  obtain ⟨us, spells', product⟩ := h'.place_product (tight .sub) le_rfl
  refine ⟨_, of_sum (spells.join (.sign '-') rfl rfl spells') ?_
    (show Operator.sub.precedence < 8 by decide) rfl⟩
  rw [asWritten_op (by decide)]
  exact sum.sub product

/-- A product starts with a minus sign where its first factor is a negative number. -/
theorem startsWithMinus_mul (h : (op .mul (a :: as)).startsWithMinus = true) :
    a.startsWithMinus = true ∧ loose .neg ≤ a.strength := by
  cases a with
  | num n =>
    have negative : n.isNegative = true := h
    exact ⟨negative, by simp [strength, negative, loose]⟩
  | var _ | call _ _ | op _ _ => cases h

theorem exists_of_mul (h : Writable (a :: b :: as)) : ∃ ts, Written (op .mul (a :: b :: as)) ts := by
  obtain ⟨⟨ts, first⟩, later⟩ := List.forall_mem_cons.mp h
  obtain ⟨us, spells, form⟩ := first.place (loose .neg)
  obtain ⟨vs, spells', mark, factors⟩ := exists_factors later
  have product : Product us a.asWritten := by
    obtain ⟨-, brackets⟩ | ⟨tight, rfl⟩ := form
    · exact brackets.marked.unary.product
    · exact first.product (le_trans (by decide) tight)
  have written : (op .mul (a :: b :: as)).asWritten =
      op .mul (a.asWritten :: (b :: as).map asWritten) := asWritten_op (by decide)
  refine ⟨us ++ vs, of_product (spells.append spells' mark) ?_
    (show Operator.mul.precedence < 9 by decide) fun minus => ?_⟩
  · rw [written]
    exact factors product
  · obtain ⟨sign, tight⟩ := startsWithMinus_mul minus
    obtain ⟨-, rfl⟩ := form.resolve_left fun h => tight.not_gt h.1
    obtain ⟨us, m, rfl, product, opposite⟩ := first.signed sign
    rw [written]
    exact ⟨us ++ vs, _, rfl, factors product, opposite.neg_product _⟩

theorem exists_of_div (h : Written a ts) (h' : Written b us) : ∃ ts, Written (op .div [a, b]) ts := by
  obtain ⟨ts, spells, product⟩ := h.place_product (loose .div) le_rfl
  obtain ⟨us, spells', operand⟩ := h'.place_operand
  exact ⟨_, of_product (spells.join (.sign '/') rfl rfl spells') (operand.div product)
    (show Operator.div.precedence < 9 by decide) nofun⟩

theorem exists_of_neg (h : Written a ts) : ∃ ts, Written (op .neg [a]) ts := by
  obtain ⟨us, spells, operand⟩ := h.place_operand
  refine ⟨_, of_operand (.cons (.sign '-') rfl rfl spells) operand.neg
    (show Operator.neg.precedence < 12 by decide) fun _ => ⟨us, _, rfl, operand.product, ?_⟩⟩
  rw [asWritten_op (by decide)]
  exact ⟨fun _ => rfl⟩

theorem exists_of_pow (h : Written a ts) (h' : Written b us) : ∃ ts, Written (op .pow [a, b]) ts := by
  obtain ⟨ts, spells, base⟩ := h.place_marked
  obtain ⟨us, spells', exponent⟩ := h'.place_marked
  refine ⟨_, of_operand (spells.join (.sign '^') rfl rfl spells') (.unary rfl ?_)
    (show Operator.pow.precedence < 12 by decide) nofun⟩
  rw [asWritten_op (by decide)]
  exact base.pow exponent.unary

theorem exists_of_subscript (h : Written a ts) (h' : Written b us) :
    ∃ ts, Written (op .subscript [a, b]) ts := by
  obtain ⟨ts, spells, base⟩ := h.place_marked
  obtain ⟨us, spells', index⟩ := h'.place_primary
  have weak : ¬ strongest ≤ Operator.subscript.precedence := by decide
  refine ⟨_, of_marked (spells.join (.sign '_') rfl rfl spells') ?_
    (fun tight => absurd tight weak) rfl rfl⟩
  rw [asWritten_op (by decide)]
  exact base.subscript index

theorem exists_of_prime (h : Written a ts) : ∃ ts, Written (op .prime [a]) ts := by
  obtain ⟨us, spells, base⟩ := h.place_marked
  have weak : ¬ strongest ≤ Operator.prime.precedence := by decide
  refine ⟨_, of_marked (spells.snoc (.sign '\'') rfl rfl) ?_ (fun tight => absurd tight weak) rfl rfl⟩
  rw [asWritten_op (by decide)]
  exact base.prime

/-- The arguments of a call, at least one. -/
theorem exists_arguments : ∀ {a : Expr} {as : List Expr}, Writable (a :: as) → ∃ us,
    Spells us (String.intercalate "," (texts (a :: as))) ∧ Arguments us ((a :: as).map asWritten)
  | a, [], h => by
    obtain ⟨ts, first⟩ := h a List.mem_cons_self
    exact ⟨ts, by simpa [texts] using first.spells, .last first.sum⟩
  | a, b :: as, h => by
    obtain ⟨⟨ts, first⟩, later⟩ := List.forall_mem_cons.mp h
    obtain ⟨us, spells, arguments⟩ := exists_arguments later
    rw [texts, texts, String.intercalate_cons_cons, ← texts]
    exact ⟨_, first.spells.join .comma trivial rfl spells, .more first.sum arguments⟩

theorem exists_of_call (named : isName f = true) (h : Writable as) :
    ∃ ts, Written (.call f as) ts := by
  cases as with
  | nil =>
    refine ⟨_, of_primary (.call named .nil) ?_ rfl rfl⟩
    rw [asWritten]
    exact .bareCall f
  | cons a as =>
    obtain ⟨us, spells, arguments⟩ := exists_arguments h
    refine ⟨_, of_primary (.call named spells) ?_ rfl rfl⟩
    rw [asWritten, asWrittenList_eq_map]
    exact arguments.call f

/-- **A node whose operands are written is written itself.** -/
theorem exists_of_op (accepts : o.accepts as.length = true) (h : Writable as) :
    ∃ ts, Written (op o as) ts := by
  match o, as, accepts, h with
  | .add, a :: b :: as, _, h => exact exists_of_add h
  | .mul, a :: b :: as, _, h => exact exists_of_mul h
  | .sub, [a, b], _, h =>
    obtain ⟨ts, left⟩ := h a (by simp)
    obtain ⟨us, right⟩ := h b (by simp)
    exact exists_of_sub left right
  | .div, [a, b], _, h =>
    obtain ⟨ts, left⟩ := h a (by simp)
    obtain ⟨us, right⟩ := h b (by simp)
    exact exists_of_div left right
  | .pow, [a, b], _, h =>
    obtain ⟨ts, left⟩ := h a (by simp)
    obtain ⟨us, right⟩ := h b (by simp)
    exact exists_of_pow left right
  | .subscript, [a, b], _, h =>
    obtain ⟨ts, left⟩ := h a (by simp)
    obtain ⟨us, right⟩ := h b (by simp)
    exact exists_of_subscript left right
  | .neg, [a], _, h =>
    obtain ⟨ts, inner⟩ := h a (by simp)
    exact exists_of_neg inner
  | .prime, [a], _, h =>
    obtain ⟨ts, inner⟩ := h a (by simp)
    exact exists_of_prime inner

mutual
/-- **Every well-formed expression with readable names is written with tokens** that stand where its
    binding strength allows it. -/
theorem exists_written : ∀ a : Expr, a.malformed? = none → a.wellNamed = true → ∃ ts, Written a ts
  | num n, _, _ => by
    cases sign : n.isNegative with
    | true => exact exists_of_isNegative sign
    | false => exact exists_of_nonneg sign
  | var x, _, named => by
    have name : (Token.name x).Valid := by rwa [wellNamed] at named
    refine ⟨_, of_primary (.word name) ?_ rfl rfl⟩
    rw [asWritten]
    exact .var x
  | .call f args, wellFormed, named => by
    rw [wellNamed, Bool.and_eq_true] at named
    exact exists_of_call named.1
      (exists_writtenList args (malformed?_call.mp wellFormed) (wellNamedList_iff.mp named.2))
  | op o args, wellFormed, named => by
    obtain ⟨accepts, inner⟩ := malformed?_op.mp wellFormed
    rw [wellNamed] at named
    exact exists_of_op accepts (exists_writtenList args inner (wellNamedList_iff.mp named))

theorem exists_writtenList : ∀ as : List Expr, (∀ a ∈ as, a.malformed? = none) →
    (∀ a ∈ as, a.wellNamed = true) → Writable as
  | [], _, _ => nofun
  | a :: as, wellFormed, named => by
    obtain ⟨first, later⟩ := List.forall_mem_cons.mp wellFormed
    obtain ⟨first', later'⟩ := List.forall_mem_cons.mp named
    exact List.forall_mem_cons.mpr ⟨exists_written a first first', exists_writtenList as later later'⟩
end

end Written

/-! ## 8. Reading what has been written -/

theorem parse_of_lexemes {s : String} {l : Lexeme} {ls : List Lexeme} {last : Position}
    (cut : Lexeme.ofText s = .ok (l :: ls, last)) (read : ofTokens ((l :: ls).map (·.token)) = .ok a) :
    parse s = .ok a := by
  unfold parse
  rw [cut]
  simp only [read]

/-- What is written with tokens is read. -/
theorem parse_of_spells {s : String} (spells : Spells ts s) (h : Reads .sum ts a []) :
    parse s = .ok a := by
  obtain ⟨ls, last, cut, tokens⟩ := Lexeme.ofText_spells spells
  cases ls with
  | nil =>
    have short := h.length_le
    rw [← tokens] at short
    cases short
  | cons l ls =>
    refine parse_of_lexemes cut ?_
    rw [tokens]
    exact ofTokens_iff.mpr h

/-- **Every well-formed expression with readable names is written as a text that is read**, and what is read
    is well formed and has, in every interpretation, the value of the expression as it is written. That is
    the value of the expression itself unless a negative fraction divides in it. -/
theorem parse_text (wellFormed : a.malformed? = none) (named : a.wellNamed = true) :
    ∃ b, parse a.text = .ok b ∧ b.malformed? = none ∧
      (∀ {K : Type} [Field K] [LinearOrder K] [IsStrictOrderedRing K] (I : Interpretation K),
        I.eval b = I.eval a.asWritten) ∧
      (a.hasBareDivisor = false → ∀ {K : Type} [Field K] [LinearOrder K] [IsStrictOrderedRing K]
        (I : Interpretation K), I.eval b = I.eval a) := by
  obtain ⟨ts, written⟩ := Written.exists_written a wellFormed named
  obtain ⟨b, means, reads⟩ := written.sum.reads
  have read := reads [] .nil
  rw [List.append_nil] at read
  refine ⟨b, parse_of_spells written.spells read, means.wellFormed, fun I => means.value I,
    fun none => ?_⟩
  rw [asWritten_eq a none] at means
  exact fun I => means.value I

/-- The quotient of `1` by `-1/2`, which is `-2`, is written without brackets and read as `-1/2`; the
    difference of `x` and `-1/2 * f(x)` is read with its value. -/
theorem parse_text_at :
    let half : Coefficient := .small (-1) 2 (by decide) (by decide) (by decide) (by decide)
    let a := op .div [int 1, num half]
    let c := op .sub [var "x", op .mul [num half, .call "f" [var "x"]]]
    a.malformed? = none ∧ a.wellNamed = true ∧ a.text = "1/" ++ "-1/2" ∧
      Interpretation.bare.eval a = some (-2) ∧
      (∃ b, parse a.text = .ok b ∧ Interpretation.bare.eval b = some (-1 / 2)) ∧
      c.malformed? = none ∧ c.wellNamed = true ∧
      ∃ b, parse c.text = .ok b ∧ ∀ I : Interpretation ℚ, I.eval b = I.eval c := by
  intro half a c
  have ha : a.malformed? = none := by decide
  have hc : c.malformed? = none := by decide
  have na : a.wellNamed = true := by decide
  have nx : isName "x" = true :=
    isName_of_ascii (String.toList_ofList : "x".toList = ['x']) rfl nofun
  have nf : isName "f" = true :=
    isName_of_ascii (String.toList_ofList : "f".toList = ['f']) rfl nofun
  have nc : c.wellNamed = true := by simp [c, wellNamed, wellNamedList, nx, nf]
  have text : a.text = "1/" ++ "-1/2" := by rfl
  have integer (k : ℤ) : Interpretation.bare.eval (int k) = some (k : ℚ) :=
    congrArg (fun q : ℚ => some q) (Coefficient.toRat_ofInt k)
  have quotient {a b : Expr} {x y : ℚ} (hx : Interpretation.bare.eval a = some x)
      (hy : Interpretation.bare.eval b = some y) (ne : y ≠ 0) :
      Interpretation.bare.eval (op .div [a, b]) = some (x / y) :=
    Interpretation.eval_two_iff.mpr ⟨x, y, hx, hy, if_neg ne⟩
  have fraction : Interpretation.bare.eval (num half) = some (-1 / 2) := by
    refine congrArg (fun q : ℚ => some q) (Coefficient.toRat_small.trans ?_)
    rw [Rat.divInt_eq_div]
    norm_num
  have value : Interpretation.bare.eval a = some (-2) := by
    have := quotient (integer 1) fraction (by norm_num)
    norm_num at this
    exact this
  have written : Interpretation.bare.eval a.asWritten = some (-1 / 2) := by
    have form : a.asWritten = op .div [op .div [int 1, int (-1)], int 2] := by rfl
    have := quotient (quotient (integer 1) (integer (-1)) (by norm_num)) (integer 2) (by norm_num)
    norm_num at this
    rw [form, this]
    norm_num
  obtain ⟨b, read, -, same, -⟩ := parse_text ha na
  obtain ⟨b', read', -, -, same'⟩ := parse_text hc nc
  exact ⟨ha, na, text, value, ⟨b, read, (same _).trans written⟩, hc, nc, b', read',
    fun I => same' (by decide) I⟩

end Expr

end Eliminant
