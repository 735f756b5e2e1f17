import Eliminant.Proofs.Expr.Parsed
import Eliminant.Proofs.Expr.Roundtrip

/-!
# What has been read is read again

What a text is read as is written as a text that is read as the same expression -- but for the sign of one
kind of term. A later term of a sum that is a product with a negative number in front, as in `a+-2*x`, is
written with a minus sign between the terms, and `a-2*x` is read with an opposite as its last term.
`Expr.reread` is the expression in which every such term is the opposite of a product, and
**`Expr.parse_text_of_parse`** says that it is what the written form is read as: the expression itself if it
has no such term, and itself from the second time on.

The proof is by the forms that the readers put together (`Parsed`) and follows the places of the written
form: `Restored a ts` says that `ts` is what `a` is written with, and as what it is read in each place.
-/

namespace Eliminant

namespace Expr

/-! ## 1. The expression that is read again -/

/-- Whether a term is a product with a negative number in front. -/
def isSignedTerm : Expr → Bool
  | op .mul (num n :: _ :: _) => n.isNegative
  | _ => false

/-- A later term with its sign in front of it: a product with a negative number in front becomes the
    opposite of a product. -/
def withSign : Expr → Expr
  | op .mul (num n :: b :: rest) =>
    if n.isNegative then op .neg [op .mul (num (-n) :: b :: rest)] else op .mul (num n :: b :: rest)
  | a => a

mutual
/-- **The expression that is read again**: in every sum, each later term has its sign in front of it. -/
def reread : Expr → Expr
  | num n => num n
  | var x => var x
  | call f args => call f (rereadList args)
  | op .add (a :: rest) => op .add (reread a :: rereadTerms rest)
  | op o args => op o (rereadList args)

/-- The operands as they are read again. -/
def rereadList : List Expr → List Expr
  | [] => []
  | a :: as => reread a :: rereadList as

/-- The later terms of a sum as they are read again. -/
def rereadTerms : List Expr → List Expr
  | [] => []
  | a :: as => withSign (reread a) :: rereadTerms as
end

mutual
/-- Whether a later term of a sum somewhere is a product with a negative number in front. -/
def hasSignedTerm : Expr → Bool
  | num _ | var _ => false
  | call _ args => hasSignedTermList args
  | op .add (a :: rest) => hasSignedTerm a || hasSignedTermList rest || rest.any isSignedTerm
  | op _ args => hasSignedTermList args

/-- Whether an operand list has such a term somewhere. -/
def hasSignedTermList : List Expr → Bool
  | [] => false
  | a :: as => hasSignedTerm a || hasSignedTermList as
end

variable {a b : Expr} {as args : List Expr} {ts us : List Token} {o : Operator} {f : String}
  {n : Coefficient}

theorem rereadList_eq_map : rereadList as = as.map reread := by
  induction as with
  | nil => rfl
  | cons a as ih => rw [rereadList, ih, List.map_cons]

theorem rereadTerms_eq_map : rereadTerms as = as.map fun a => withSign a.reread := by
  induction as with
  | nil => rfl
  | cons a as ih => rw [rereadTerms, ih, List.map_cons]

@[simp] theorem reread_num : (num n).reread = num n := by rw [reread]

@[simp] theorem reread_var {x : String} : (var x).reread = var x := by rw [reread]

@[simp] theorem reread_call : (call f args).reread = call f (args.map reread) := by
  rw [reread, rereadList_eq_map]

@[simp] theorem reread_add :
    (op .add (a :: as)).reread = op .add (a.reread :: as.map fun b => withSign b.reread) := by
  rw [reread, rereadTerms_eq_map]

theorem reread_op (h : o ≠ .add) : (op o args).reread = op o (args.map reread) := by
  rw [reread, rereadList_eq_map]
  rintro a as rfl
  exact absurd rfl h

@[simp] theorem reread_empty : (op o []).reread = op o [] := by cases o <;> rfl

/-- Every node but a sum is read again from its operands. -/
theorem add_or_reread (o : Operator) (args : List Expr) : (o = .add ∧ ∃ a as, args = a :: as) ∨
    (op o args).reread = op o (args.map reread) ∧
      (op o args).hasSignedTerm = hasSignedTermList args := by
  by_cases sum : o = .add ∧ ∃ a as, args = a :: as
  · exact .inl sum
  · refine .inr ⟨?_, ?_⟩
    · rw [reread, rereadList_eq_map]
      exact fun a as add cons => sum ⟨add, a, as, cons⟩
    · rw [hasSignedTerm]
      exact fun a as add cons => sum ⟨add, a, as, cons⟩

theorem withSign_of_isSignedTerm (h : a.isSignedTerm = false) : withSign a = a := by
  unfold withSign
  split
  · exact if_neg (by simpa [isSignedTerm] using h)
  · rfl

theorem isSignedTerm_withSign : (withSign a).isSignedTerm = false := by
  unfold withSign
  split
  · split
    · rfl
    · rename_i positive
      simpa [isSignedTerm] using positive
  · rename_i other
    unfold isSignedTerm
    split
    · exact absurd rfl (other _ _ _)
    · rfl

theorem isSignedTerm_reread : a.reread.isSignedTerm = a.isSignedTerm := by
  match a with
  | num _ | var _ => simp
  | call _ _ => simp [isSignedTerm]
  | op .add [] => rfl
  | op .add (_ :: _) => simp [isSignedTerm]
  | op .mul args =>
    rw [reread_op (by decide)]
    match args with
    | [] => rfl
    | [a] => cases a <;> simp [isSignedTerm]
    | .num n :: b :: as => simp [isSignedTerm]
    | .var _ :: _ :: _ => simp [isSignedTerm]
    | .call _ _ :: _ :: _ => simp [isSignedTerm]
    | .op o args :: _ :: _ => 
      obtain ⟨rfl, b, bs, rfl⟩ | ⟨same, -⟩ := add_or_reread o args
      · simp [isSignedTerm]
      · simp [isSignedTerm, same]
  | op .sub _ | op .div _ | op .neg _ | op .pow _ | op .subscript _ | op .prime _ =>
    rw [reread_op (by decide)]
    rfl

theorem takesSign_reread : a.reread.takesSign = a.takesSign := by
  match a with
  | num _ | var _ => simp
  | call _ _ | op .add [] | op .add (_ :: _) => simp [takesSign]
  | op .neg [] | op .neg [_] | op .neg (_ :: _ :: _) => simp [reread_op, takesSign]
  | op .sub _ | op .mul _ | op .div _ | op .pow _ | op .subscript _ | op .prime _ =>
    rw [reread_op (by decide)]
    rfl

theorem isProduct_reread : a.reread.isProduct = a.isProduct := by
  match a with
  | num _ | var _ => simp
  | call _ _ | op .add [] | op .add (_ :: _) => simp [isProduct]
  | op .sub _ | op .mul _ | op .div _ | op .neg _ | op .pow _ | op .subscript _ | op .prime _ =>
    rw [reread_op (by decide)]
    rfl

/-- A later term stays as it is if it is read again as it is and needs no sign in front of it. -/
theorem withSign_reread_eq_iff : withSign a.reread = a ↔ a.reread = a ∧ a.isSignedTerm = false := by
  cases signed : a.isSignedTerm with
  | false => rw [withSign_of_isSignedTerm (isSignedTerm_reread.trans signed), and_iff_left rfl]
  | true =>
    refine iff_of_false (fun same => ?_) (by simp)
    rw [← same, isSignedTerm_withSign] at signed
    cases signed

theorem rereadTerms_eq_iff :
    rereadTerms as = as ↔ rereadList as = as ∧ as.any isSignedTerm = false := by
  induction as with
  | nil => simp [rereadTerms, rereadList]
  | cons a as ih =>
    rw [rereadTerms, rereadList, List.cons.injEq, List.cons.injEq, withSign_reread_eq_iff, ih,
      List.any_cons, Bool.or_eq_false_iff, and_and_and_comm]

mutual
/-- **What has no such term is read again as it is**, and nothing else is. -/
theorem reread_eq_iff : ∀ a : Expr, a.reread = a ↔ a.hasSignedTerm = false
  | num _ | var _ => by simp [hasSignedTerm]
  | call f args => by
    rw [reread_call, ← rereadList_eq_map, hasSignedTerm, call.injEq, eq_self, true_and, rereadList_eq_iff args]
  | op o args => by
    obtain ⟨rfl, a, as, rfl⟩ | ⟨same, signed⟩ := add_or_reread o args
    · rw [reread, hasSignedTerm, op.injEq, eq_self, true_and, List.cons.injEq, reread_eq_iff a,
        rereadTerms_eq_iff, rereadList_eq_iff as, Bool.or_eq_false_iff, Bool.or_eq_false_iff, and_assoc]
    · rw [same, signed, op.injEq, eq_self, true_and, ← rereadList_eq_map, rereadList_eq_iff args]

theorem rereadList_eq_iff : ∀ as : List Expr, rereadList as = as ↔ hasSignedTermList as = false
  | [] => by simp [rereadList, hasSignedTermList]
  | a :: as => by
    rw [rereadList, hasSignedTermList, List.cons.injEq, reread_eq_iff a, rereadList_eq_iff as,
      Bool.or_eq_false_iff]
end

/-- A term that is read again as it is still is with its sign in front of it. -/
theorem reread_withSign (h : a.reread = a) : (withSign a).reread = withSign a := by
  unfold withSign
  split
  · rename_i n b rest
    split
    · rw [reread_op (by decide), op.injEq] at h
      have later := (List.cons.inj h.2).2
      rw [reread_op (by decide), List.map_singleton, reread_op (by decide), List.map_cons, later, reread_num]
    · exact h
  · exact h

mutual
/-- **The second time, everything is read again as it is.** -/
theorem reread_reread : ∀ a : Expr, a.reread.reread = a.reread
  | num _ | var _ => by simp
  | call f args => by
    rw [reread_call, reread_call, List.map_map]
    exact congrArg (call f) (List.map_congr_left (reread_reread_of_mem args))
  | op o args => by
    have inner := reread_reread_of_mem args
    by_cases sum : o = .add
    · subst sum
      cases args with
      | nil => rfl
      | cons a as =>
        obtain ⟨first, later⟩ := List.forall_mem_cons.mp inner
        rw [reread_add, reread_add, first, List.map_map]
        refine congrArg (fun terms => op .add (a.reread :: terms)) (List.map_congr_left fun b hb => ?_)
        show withSign (withSign b.reread).reread = withSign b.reread
        rw [reread_withSign (later b hb), withSign_of_isSignedTerm isSignedTerm_withSign]
    · rw [reread_op sum, reread_op sum, List.map_map]
      exact congrArg (op o) (List.map_congr_left inner)

theorem reread_reread_of_mem : ∀ as : List Expr, ∀ a ∈ as, a.reread.reread = a.reread
  | [] => nofun
  | a :: as => List.forall_mem_cons.mpr ⟨reread_reread a, reread_reread_of_mem as⟩
end

/-! ## 2. What is read in each place -/

/-- What a minus sign stands in front of in the written form of a term that starts with one. -/
def withoutSign : Expr → Expr
  | num n => num (-n)
  | op .neg [a] => a
  | op .mul (num n :: rest) => op .mul (num (-n) :: rest)
  | a => a

/-- **`a` is written with the tokens `ts`**, and read again in the places where the binding strength of `a`
    allows it: 12 is the least for bases and exponents, 9 for factors and divisors, 8 for terms. -/
structure Restored (a : Expr) (ts : List Token) : Prop where
  spells : Spells ts a.text
  primary : strongest ≤ a.strength → AsPrimary ts a.reread
  marked : 12 ≤ a.strength → AsMarked ts a.reread
  unary : 9 ≤ a.strength → AsUnary ts a.reread
  product : 8 ≤ a.strength → AsProduct ts a.reread
  sum : ∃ b bs, ofTerms b bs = a.reread ∧ AsSum ts b bs
  signed : a.startsWithMinus = true → ∃ us, ts = .sign '-' :: us ∧ AsProduct us (withoutSign a.reread)

namespace Restored

theorem of_marked (spells : Spells ts a.text) (h : AsMarked ts a.reread)
    (primary : strongest ≤ a.strength → AsPrimary ts a.reread) (sign : a.startsWithMinus = false) :
    Restored a ts where
  spells := spells
  primary := primary
  marked _ := h
  unary _ := h.unary
  product _ := h.unary.product
  sum := ⟨_, [], rfl, h.unary.product.sum⟩
  signed minus := by rw [sign] at minus; cases minus

theorem of_primary (spells : Spells ts a.text) (h : AsPrimary ts a.reread)
    (sign : a.startsWithMinus = false) : Restored a ts :=
  of_marked spells h.marked (fun _ => h) sign

theorem of_unary (spells : Spells ts a.text) (h : AsUnary ts a.reread) (loose : a.strength < 12)
    (signed : a.startsWithMinus = true →
      ∃ us, ts = .sign '-' :: us ∧ AsProduct us (withoutSign a.reread)) : Restored a ts where
  spells := spells
  primary tight := absurd (tight.trans_lt loose) (by decide)
  marked tight := absurd loose tight.not_gt
  unary _ := h
  product _ := h.product
  sum := ⟨_, [], rfl, h.product.sum⟩
  signed := signed

theorem of_product (spells : Spells ts a.text) (h : AsProduct ts a.reread) (loose : a.strength < 9)
    (signed : a.startsWithMinus = true →
      ∃ us, ts = .sign '-' :: us ∧ AsProduct us (withoutSign a.reread)) : Restored a ts where
  spells := spells
  primary tight := absurd (tight.trans_lt loose) (by decide)
  marked tight := absurd loose (by omega)
  unary tight := absurd loose tight.not_gt
  product _ := h
  sum := ⟨_, [], rfl, h.sum⟩
  signed := signed

/-! ## 3. Places -/

/-- In a place that demands more, an expression is written in brackets. -/
theorem place (h : Restored a ts) (least : Nat) : ∃ us, Spells us (inPlace least a a.text) ∧
    (a.strength < least ∧ AsPrimary us a.reread ∨ least ≤ a.strength ∧ us = ts) := by
  unfold inPlace
  split
  · rename_i loose
    obtain ⟨b, bs, same, sum⟩ := h.sum
    exact ⟨_, h.spells.brackets, .inl ⟨loose, same ▸ sum.brackets⟩⟩
  · rename_i tight
    exact ⟨ts, h.spells, .inr ⟨not_lt.mp tight, rfl⟩⟩

theorem place_primary (h : Restored a ts) :
    ∃ us, Spells us (inPlace strongest a a.text) ∧ AsPrimary us a.reread := by
  obtain ⟨us, spells, ⟨-, brackets⟩ | ⟨tight, rfl⟩⟩ := h.place strongest
  · exact ⟨us, spells, brackets⟩
  · exact ⟨us, spells, h.primary tight⟩

theorem place_marked (h : Restored a ts) :
    ∃ us, Spells us (inPlace 12 a a.text) ∧ AsMarked us a.reread := by
  obtain ⟨us, spells, ⟨-, brackets⟩ | ⟨tight, rfl⟩⟩ := h.place 12
  · exact ⟨us, spells, brackets.marked⟩
  · exact ⟨us, spells, h.marked tight⟩

theorem place_unary (h : Restored a ts) :
    ∃ us, Spells us (inPlace 9 a a.text) ∧ AsUnary us a.reread := by
  obtain ⟨us, spells, ⟨-, brackets⟩ | ⟨tight, rfl⟩⟩ := h.place 9
  · exact ⟨us, spells, brackets.marked.unary⟩
  · exact ⟨us, spells, h.unary tight⟩

theorem place_product (h : Restored a ts) (least : Nat) (tight : 8 ≤ least) :
    ∃ us, Spells us (inPlace least a a.text) ∧ AsProduct us a.reread := by
  obtain ⟨us, spells, ⟨-, brackets⟩ | ⟨enough, rfl⟩⟩ := h.place least
  · exact ⟨us, spells, brackets.marked.unary.product⟩
  · exact ⟨us, spells, h.product (tight.trans enough)⟩

/-! ## 4. Numbers -/

theorem asPrimary_nat (k : ℕ) : AsPrimary [.number (toString k)] (int k) :=
  ofDigits_toString k ▸ .digits (toString k)

/-- A natural number is written with its digits. -/
theorem of_nat (k : ℕ) : Restored (int k) [.number (toString k)] := by
  have text : (int k).text = toString k := (Coefficient.text_ofInt k).trans rfl
  refine of_primary (text.symm ▸ .word (Written.digits_valid k)) ?_ ?_
  · rw [int, reread_num]
    exact asPrimary_nat k
  · exact Bool.eq_false_iff.mpr fun sign => absurd (Coefficient.isNegative_ofInt.mp sign) (by omega)

/-- A negative number is written with a minus sign and the digits of its opposite. -/
theorem of_negative (k : ℕ) :
    Restored (int (-(k + 1 : ℕ))) [.sign '-', .number (toString (k + 1))] := by
  have text : (int (-(k + 1 : ℕ))).text = "-" ++ toString (k + 1) :=
    (Coefficient.text_ofInt _).trans rfl
  have negative : (Coefficient.ofInt (-(k + 1 : ℕ))).isNegative = true :=
    Coefficient.isNegative_ofInt.mpr (by omega)
  have digits := asPrimary_nat (k + 1)
  have opposite : negated (int (k + 1 : ℕ)) = int (-(k + 1 : ℕ)) :=
    congrArg num (Coefficient.neg_ofInt _)
  refine of_unary (text.symm ▸ .cons (.sign '-') rfl rfl (.word (Written.digits_valid (k + 1)))) ?_ ?_
    fun _ => ⟨_, rfl, ?_⟩
  · rw [int, reread_num, ← int, ← opposite]
    exact digits.marked.unary.neg
  · rw [int, strength, if_pos negative]
    decide
  · rw [int, reread_num, withoutSign, Coefficient.neg_ofInt, neg_neg]
    exact digits.marked.unary.product

/-! ## 5. Nodes -/

/-- Expressions that are written somehow, and read again. -/
abbrev Restorable (as : List Expr) : Prop := ∀ a ∈ as, ∃ ts, Restored a ts

/-- A term that starts with no sign is read again without one. -/
theorem isSignedTerm_of_startsWithMinus (sign : a.startsWithMinus = false) : a.isSignedTerm = false := by
  unfold isSignedTerm
  split
  · exact sign
  · rfl

/-- A product starts with a minus sign where its first factor is a negative number. -/
theorem exists_num_of_startsWithMinus (sign : (op .mul (a :: as)).startsWithMinus = true) :
    ∃ n, a = num n := by
  cases a with
  | num n => exact ⟨n, rfl⟩
  | var _ | call _ _ | op _ _ => cases sign

/-- The sign in front of a term stands for that of the term. -/
theorem negated_withoutSign (parsed : Parsed a) (sign : a.startsWithMinus = true) :
    negated (withoutSign a.reread) = withSign a.reread := by
  cases parsed with
  | int k => rw [int, reread_num, withoutSign, negated, Coefficient.neg_ofInt, Coefficient.neg_ofInt, neg_neg,
      withSign_of_isSignedTerm rfl]
  | neg _ unsigned =>
    rw [reread_op (by decide), List.map_singleton, withoutSign, withSign_of_isSignedTerm rfl]
    exact negated_of_takesSign (takesSign_reread.trans unsigned)
  | @mul a as first single later many =>
    obtain ⟨n, rfl⟩ : ∃ n, a = num n := exists_num_of_startsWithMinus sign
    obtain ⟨b, as, rfl⟩ := List.exists_cons_of_ne_nil many
    rw [reread_op (by decide), List.map_cons, List.map_cons, reread_num, withoutSign, withSign,
      if_pos (show n.isNegative = true from sign)]
    rfl
  | var | call | add | div | pow | subscript | prime => cases sign

/-- The later terms of a sum, each behind its sign. -/
theorem exists_laterTerms : ∀ {as : List Expr}, (∀ a ∈ as, Parsed a) → Restorable as → ∃ us,
    Spells us (String.join (List.zipWith laterTerm as (texts as))) ∧
      (∀ u ∈ us.head?, u.isWord = false) ∧ AsTerms us (as.map fun a => withSign a.reread)
  | [], _, _ => ⟨[], .nil, nofun, .nil⟩
  | a :: as, parsed, h => by
    obtain ⟨⟨ts, first⟩, later⟩ := List.forall_mem_cons.mp h
    obtain ⟨firstParsed, laterParsed⟩ := List.forall_mem_cons.mp parsed
    obtain ⟨vs, spells, mark, terms⟩ := exists_laterTerms laterParsed later
    rw [texts, List.zipWith_cons_cons, String.join_cons, laterTerm, List.map_cons]
    cases sign : a.startsWithMinus with
    | true =>
      obtain ⟨us, rfl, product⟩ := first.signed sign
      have tight : ¬ a.strength < tight .add := (Written.strength_of_startsWithMinus sign).not_gt
      rw [if_pos rfl, inPlace, if_neg tight, String.empty_append, ← negated_withoutSign firstParsed sign]
      exact ⟨.sign '-' :: (us ++ vs), first.spells.append spells mark, by simp [Token.isWord],
        .minus product terms⟩
    | false =>
      obtain ⟨us, spells', product⟩ := first.place_product (tight .add) le_rfl
      have unsigned := isSignedTerm_reread.trans (isSignedTerm_of_startsWithMinus sign)
      rw [if_neg (by decide), withSign_of_isSignedTerm unsigned]
      exact ⟨.sign '+' :: (us ++ vs), (Spells.cons (.sign '+') rfl rfl spells').append spells mark,
        by simp [Token.isWord], .plus product terms⟩

/-- The later factors of a product. -/
theorem exists_laterFactors : ∀ {as : List Expr}, Restorable as → ∃ us,
    Spells us (String.join (List.zipWith laterFactor as (texts as))) ∧
      (∀ u ∈ us.head?, u.isWord = false) ∧ ∀ {ts b}, AsProduct ts b →
        AsProduct (ts ++ us) (as.foldl (fun b a => timesFactor b a.reread) b)
  | [], _ => ⟨[], .nil, nofun, fun h => by simpa using h⟩
  | a :: as, h => by
    obtain ⟨⟨ts, first⟩, later⟩ := List.forall_mem_cons.mp h
    obtain ⟨vs, spells, mark, factors⟩ := exists_laterFactors later
    obtain ⟨us, spells', factor⟩ := first.place_unary
    rw [texts, List.zipWith_cons_cons, String.join_cons]
    refine ⟨.sign '*' :: (us ++ vs), (Spells.cons (.sign '*') rfl rfl spells').append spells mark,
      by simp [Token.isWord], fun {ts b} h => ?_⟩
    simpa using factors (h.times factor)

theorem foldl_timesFactor (bs : List Expr) :
    as.foldl (fun b a => timesFactor b a.reread) (op .mul bs) = op .mul (bs ++ as.map reread) := by
  induction as generalizing bs with
  | nil => simp
  | cons a as ih =>
    rw [List.foldl_cons, timesFactor, ih, List.map_cons, List.append_assoc, List.singleton_append]

/-- The factors of a product are put together again. -/
theorem foldl_timesFactor_of_isProduct (single : a.isProduct = false) (many : as ≠ []) :
    as.foldl (fun b a => timesFactor b a.reread) a = op .mul (a :: as.map reread) := by
  cases as with
  | nil => exact absurd rfl many
  | cons b as => rw [List.foldl_cons, timesFactor_of_isProduct single, foldl_timesFactor]; rfl

theorem exists_of_add (parsed : ∀ b ∈ as, Parsed b) (many : as ≠ []) (h : Restorable (a :: as)) :
    ∃ ts, Restored (op .add (a :: as)) ts := by
  obtain ⟨⟨ts, first⟩, later⟩ := List.forall_mem_cons.mp h
  obtain ⟨us, spells, product⟩ := first.place_product (tight .add) le_rfl
  obtain ⟨vs, spells', mark, terms⟩ := exists_laterTerms parsed later
  obtain ⟨b, as, rfl⟩ := List.exists_cons_of_ne_nil many
  have loose : (op .add (a :: b :: as)).strength < 8 := show Operator.add.precedence < 8 by decide
  exact ⟨us ++ vs, {
    spells := spells.append spells' mark
    primary := fun tight => absurd (tight.trans_lt loose) (by decide)
    marked := fun tight => absurd (tight.trans_lt loose) (by decide)
    unary := fun tight => absurd (tight.trans_lt loose) (by decide)
    product := fun tight => absurd loose tight.not_gt
    sum := ⟨_, _, by rw [reread_add]; rfl, product.add terms⟩
    signed := nofun }⟩

theorem exists_of_mul (single : a.isProduct = false) (many : as ≠ []) (h : Restorable (a :: as)) :
    ∃ ts, Restored (op .mul (a :: as)) ts := by
  obtain ⟨b, as, rfl⟩ := List.exists_cons_of_ne_nil many
  obtain ⟨⟨ts, first⟩, later⟩ := List.forall_mem_cons.mp h
  obtain ⟨us, spells, form⟩ := first.place (loose .neg)
  obtain ⟨vs, spells', mark, factors⟩ := exists_laterFactors later
  have product : AsProduct us a.reread := by
    obtain ⟨-, brackets⟩ | ⟨tight, rfl⟩ := form
    · exact brackets.marked.unary.product
    · exact first.product (le_trans (by decide) tight)
  have whole := factors product
  rw [foldl_timesFactor_of_isProduct (isProduct_reread.trans single) many] at whole
  refine ⟨us ++ vs, of_product (spells.append spells' mark) ?_
    (show Operator.mul.precedence < 9 by decide) fun sign => ?_⟩
  · rw [reread_op (by decide)]
    exact whole
  · obtain ⟨n, rfl⟩ := exists_num_of_startsWithMinus sign
    have tight : loose .neg ≤ (num n).strength := by
      rw [strength, if_pos (show n.isNegative = true from sign)]
      exact le_rfl
    obtain ⟨-, rfl⟩ := form.resolve_left fun h => tight.not_gt h.1
    obtain ⟨us, rfl, opposite⟩ := first.signed sign
    rw [reread_num, withoutSign] at opposite
    have unsigned := factors opposite
    rw [foldl_timesFactor_of_isProduct rfl many] at unsigned
    rw [reread_op (by decide), List.map_cons, reread_num]
    exact ⟨us ++ vs, rfl, unsigned⟩

theorem exists_of_div (h : Restored a ts) (h' : Restored b us) : ∃ ts, Restored (op .div [a, b]) ts := by
  obtain ⟨ts, spells, product⟩ := h.place_product (loose .div) le_rfl
  obtain ⟨us, spells', divisor⟩ := h'.place_unary
  refine ⟨_, of_product (spells.join (.sign '/') rfl rfl spells') ?_
    (show Operator.div.precedence < 9 by decide) nofun⟩
  rw [reread_op (by decide)]
  exact product.div divisor

theorem exists_of_neg (unsigned : a.takesSign = false) (h : Restored a ts) :
    ∃ ts, Restored (op .neg [a]) ts := by
  obtain ⟨us, spells, operand⟩ := h.place_unary
  have same : (op .neg [a]).reread = op .neg [a.reread] := reread_op (by decide)
  have opposite := negated_of_takesSign (takesSign_reread.trans unsigned)
  refine ⟨_, of_unary (.cons (.sign '-') rfl rfl spells) ?_ (show Operator.neg.precedence < 12 by decide)
    fun _ => ⟨us, rfl, ?_⟩⟩
  · rw [same, ← opposite]
    exact operand.neg
  · rw [same]
    exact operand.product

theorem exists_of_pow (h : Restored a ts) (h' : Restored b us) : ∃ ts, Restored (op .pow [a, b]) ts := by
  obtain ⟨ts, spells, base⟩ := h.place_marked
  obtain ⟨us, spells', exponent⟩ := h'.place_marked
  refine ⟨_, of_unary (spells.join (.sign '^') rfl rfl spells') ?_
    (show Operator.pow.precedence < 12 by decide) nofun⟩
  rw [reread_op (by decide)]
  exact base.pow exponent.unary

theorem exists_of_subscript (h : Restored a ts) (h' : Restored b us) :
    ∃ ts, Restored (op .subscript [a, b]) ts := by
  obtain ⟨ts, spells, base⟩ := h.place_marked
  obtain ⟨us, spells', index⟩ := h'.place_primary
  have weak : ¬ strongest ≤ Operator.subscript.precedence := by decide
  refine ⟨_, of_marked (spells.join (.sign '_') rfl rfl spells') ?_
    (fun tight => absurd tight weak) rfl⟩
  rw [reread_op (by decide)]
  exact base.subscript index

theorem exists_of_prime (h : Restored a ts) : ∃ ts, Restored (op .prime [a]) ts := by
  obtain ⟨us, spells, base⟩ := h.place_marked
  have weak : ¬ strongest ≤ Operator.prime.precedence := by decide
  refine ⟨_, of_marked (spells.snoc (.sign '\'') rfl rfl) ?_ (fun tight => absurd tight weak) rfl⟩
  rw [reread_op (by decide)]
  exact base.prime

/-- The arguments of a call, at least one. -/
theorem exists_arguments : ∀ {a : Expr} {as : List Expr}, Restorable (a :: as) → ∃ us,
    Spells us (String.intercalate "," (texts (a :: as))) ∧ AsArguments us ((a :: as).map reread)
  | a, [], h => by
    obtain ⟨ts, first⟩ := h a List.mem_cons_self
    obtain ⟨b, bs, same, sum⟩ := first.sum
    rw [List.map_singleton, ← same]
    exact ⟨ts, by simpa [texts] using first.spells, sum.last⟩
  | a, b :: as, h => by
    obtain ⟨⟨ts, first⟩, later⟩ := List.forall_mem_cons.mp h
    obtain ⟨us, spells, arguments⟩ := exists_arguments later
    obtain ⟨c, cs, same, sum⟩ := first.sum
    rw [texts, texts, String.intercalate_cons_cons, ← texts, List.map_cons, ← same]
    exact ⟨_, first.spells.join .comma trivial rfl spells, sum.more arguments⟩

theorem exists_of_call (named : isName f = true) (h : Restorable as) :
    ∃ ts, Restored (.call f as) ts := by
  cases as with
  | nil =>
    refine ⟨_, of_primary (.call named .nil) ?_ rfl⟩
    rw [reread_call]
    exact .bareCall f
  | cons a as =>
    obtain ⟨us, spells, arguments⟩ := exists_arguments h
    refine ⟨_, of_primary (.call named spells) ?_ rfl⟩
    rw [reread_call]
    exact arguments.call f

/-- **Everything that the readers put together is written with tokens** that are read again, in every place
    where its binding strength allows it. -/
theorem exists_restored (h : Parsed a) : ∃ ts, Restored a ts := by
  induction h with
  | int k =>
    obtain ⟨k, rfl | rfl⟩ := k.eq_nat_or_neg
    · exact ⟨_, of_nat k⟩
    · cases k with
      | zero => exact ⟨_, of_nat 0⟩
      | succ k => exact ⟨_, of_negative k⟩
  | @var x named =>
    have name : (Token.name x).Valid := named
    refine ⟨_, of_primary (.word name) ?_ rfl⟩
    rw [reread_var]
    exact .var x
  | call named _ ih => exact exists_of_call named ih
  | add _ later many ih ih' => exact exists_of_add later many (List.forall_mem_cons.mpr ⟨ih, ih'⟩)
  | mul _ single _ many ih ih' => exact exists_of_mul single many (List.forall_mem_cons.mpr ⟨ih, ih'⟩)
  | div _ _ ih ih' =>
    obtain ⟨ts, left⟩ := ih
    obtain ⟨us, right⟩ := ih'
    exact exists_of_div left right
  | neg _ unsigned ih =>
    obtain ⟨ts, inner⟩ := ih
    exact exists_of_neg unsigned inner
  | pow _ _ ih ih' =>
    obtain ⟨ts, base⟩ := ih
    obtain ⟨us, exponent⟩ := ih'
    exact exists_of_pow base exponent
  | subscript _ _ ih ih' =>
    obtain ⟨ts, base⟩ := ih
    obtain ⟨us, index⟩ := ih'
    exact exists_of_subscript base index
  | prime _ ih =>
    obtain ⟨ts, inner⟩ := ih
    exact exists_of_prime inner

end Restored

/-! ## 6. Reading again -/

/-- What the readers put together is written as a text that is read. -/
theorem parse_text_of_parsed (h : Parsed a) : parse a.text = .ok a.reread := by
  obtain ⟨ts, restored⟩ := Restored.exists_restored h
  obtain ⟨b, bs, same, sum⟩ := restored.sum
  have reads := sum.reads [] .nil
  rw [List.append_nil, same] at reads
  exact parse_of_spells restored.spells reads

/-- **What a text is read as is written as a text that is read again**: as the same expression with the
    signs of all later terms in front of them. That is the same expression if and only if no later term of a
    sum is a product with a negative number in front; and it is always restored from its own written form. -/
theorem parse_text_of_parse {s : String} (h : parse s = .ok a) :
    parse a.text = .ok a.reread ∧ (parse a.text = .ok a ↔ a.hasSignedTerm = false) ∧
      parse a.reread.text = .ok a.reread := by
  have again := parse_text_of_parsed (parsed_of_parse h)
  have twice := parse_text_of_parsed (parsed_of_parse again)
  rw [reread_reread] at twice
  refine ⟨again, ?_, twice⟩
  rw [again, Except.ok.injEq, reread_eq_iff]

/-- `a+-2*x` is a sum with a product of `-2` and `x`. It is written as `a-2*x` and read again with the
    opposite of `2*x`, and from then on nothing changes. -/
theorem parse_text_of_parse_at :
    let c := op .add [var "a", op .mul [int (-2), var "x"]]
    let d := op .add [var "a", op .neg [op .mul [int 2, var "x"]]]
    parse "a+-2*x" = .ok c ∧ c.hasSignedTerm = true ∧ c.text = "a-2*x" ∧ parse c.text = .ok d ∧
      parse c.text ≠ .ok c ∧ parse d.text = .ok d := by
  intro c d
  have cut : Lexeme.ofText "a+-2*x" = .ok ([⟨.name "a", ⟨1, 1⟩⟩, ⟨.sign '+', ⟨1, 2⟩⟩, ⟨.sign '-', ⟨1, 3⟩⟩,
      ⟨.number "2", ⟨1, 4⟩⟩, ⟨.sign '*', ⟨1, 5⟩⟩, ⟨.name "x", ⟨1, 6⟩⟩], ⟨1, 7⟩) := by rfl
  have read : parse "a+-2*x" = .ok c := parse_of_lexemes cut (by rfl)
  have signed : c.hasSignedTerm = true := by rfl
  have same : c.reread = d := by rfl
  obtain ⟨again, unchanged, twice⟩ := parse_text_of_parse read
  rw [same] at again twice
  have changed : parse c.text ≠ .ok c := fun h =>
    absurd (signed.symm.trans (unchanged.mp h)) (by decide)
  exact ⟨read, signed, by rfl, again, changed, twice⟩

end Expr

end Eliminant
