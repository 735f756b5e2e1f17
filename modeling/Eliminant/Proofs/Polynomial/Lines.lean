import Eliminant.Polynomial.Nested
import Eliminant.Proofs.Expr.Roundtrip
import Eliminant.Proofs.Polynomial.Becomes

/-!
# Lines of terms are read as sums

A polynomial is written as a line of terms, each behind its sign, and a term is written as a product. Whoever reads
it takes a minus sign at the start of the line for one of the first factor, and every later sign for one of the
whole term. The value is the same:

* `SignedTerm`: tokens that are a term, with a minus sign in front or without, and become a polynomial;
* `Line`: tokens that are a sum, at the start of a line and behind another one;
* `TermText` and `SumText`: texts that are written with such tokens. Numbers and powers of names are terms, a term
  may be multiplied (`TermText.times`), one line may follow another (`SumText.append`), and in brackets a line
  is the first factor of a term (`SumText.brackets`);
* **`SumText.exists_ofExpr`**: what is written as a line is read, and becomes the polynomial of the line.
-/

namespace Eliminant

open MvPolynomial (C X degreeOf)

/-- A variable that is a name and can be read. -/
def Variable.Readable (v : Variable) : Prop := ∃ x, v = .symbol x ∧ isName x = true

/-- Names of ASCII letters and digits can be read. -/
theorem Variable.readable_of_ascii {x : String} {c : Char} {cs : List Char} (chars : x.toList = c :: cs)
    (letter : c.isAlpha = true) (more : ∀ d ∈ cs, d.isAlphanum = true) : (symbol x).Readable :=
  ⟨x, rfl, isName_of_ascii chars letter more⟩

namespace Polynomial

open Eliminant.Expr (num op int negated factorsOf AsPrimary AsUnary AsProduct AsSum AsTerms)

variable {ts us : List Token} {s r x : String} {a b : Expr} {as : List Expr} {c : Coefficient}
  {f g : MvPolynomial Variable ℚ} {v : Variable} {n : ℕ}

/-! ## 1. Terms with their signs -/

/-- The tokens start a product that is multiplied to `f`. -/
def StartsProduct (ts : List Token) (f : MvPolynomial Variable ℚ) : Prop :=
  ∃ a, AsProduct ts a ∧ Multiplies a f

theorem StartsProduct.times (h : StartsProduct ts f) (factor : AsUnary us b) (becomes : Becomes b g)
    (fits : ∀ v w, degreeOf v f + degreeOf w g ≤ maxExponent) : StartsProduct (ts ++ .sign '*' :: us) (f * g) := by
  obtain ⟨a, reads, product⟩ := h
  exact ⟨_, reads.times factor, product.times becomes fits⟩

/-- **A term with its sign.** A minus sign is read with the first factor, or with the whole term. -/
inductive SignedTerm : List Token → MvPolynomial Variable ℚ → Prop
  | plain {ts : List Token} {f : MvPolynomial Variable ℚ} (unsigned : ts.head? ≠ some (.sign '-'))
      (product : StartsProduct ts f) : SignedTerm ts f
  | minus {ts : List Token} {f : MvPolynomial Variable ℚ} (whole : StartsProduct ts f)
      (first : StartsProduct (.sign '-' :: ts) (-f)) : SignedTerm (.sign '-' :: ts) (-f)

theorem SignedTerm.times (h : SignedTerm ts f) (factor : AsUnary us b) (becomes : Becomes b g)
    (fits : ∀ v w, degreeOf v f + degreeOf w g ≤ maxExponent) : SignedTerm (ts ++ .sign '*' :: us) (f * g) := by
  cases h with
  | plain unsigned product =>
    refine .plain ?_ (product.times factor becomes fits)
    cases ts with
    | nil => simp
    | cons t ts => exact unsigned
  | @minus ts f whole first =>
    have product := first.times factor becomes fits
    simp only [MvPolynomial.degreeOf_neg] at fits
    rw [neg_mul] at product ⊢
    exact .minus (whole.times factor becomes fits) product

/-! ## 2. Lines of terms -/

/-- A line that follows another one starts with a sign. -/
def behindSign (ts : List Token) : List Token := if ts.head? = some (.sign '-') then ts else .sign '+' :: ts

/-- **A line of terms**, which is a sum by itself or the rest of one. -/
structure Line (ts : List Token) (f : MvPolynomial Variable ℚ) : Prop where
  start : ∃ a as, AsSum ts a as ∧ Folds Becomes (· + ·) 0 (a :: as) f ∧ (as = [] → Multiplies a f)
  later : ∃ as, AsTerms (behindSign ts) as ∧ Folds Becomes (· + ·) 0 as f ∧ as ≠ []

theorem SignedTerm.line (h : SignedTerm ts f) : Line ts f := by
  cases h with
  | plain unsigned product =>
    obtain ⟨a, reads, product⟩ := product
    have plus := AsTerms.plus reads .nil
    rw [List.append_nil] at plus
    refine ⟨⟨a, [], reads.sum, Folds.singleton_iff.mpr product.becomes, fun _ => product⟩, [a], ?_,
      Folds.singleton_iff.mpr product.becomes, List.cons_ne_nil _ _⟩
    rwa [behindSign, if_neg unsigned]
  | @minus ts f whole first =>
    obtain ⟨a, reads, product⟩ := first
    obtain ⟨b, later, opposite⟩ := whole
    have minus := AsTerms.minus later .nil
    rw [List.append_nil] at minus
    refine ⟨⟨a, [], reads.sum, Folds.singleton_iff.mpr product.becomes, fun _ => product⟩, [negated b], ?_,
      Folds.singleton_iff.mpr opposite.becomes.negated, List.cons_ne_nil _ _⟩
    exact minus

/-- Later terms of a sum, and more of them. -/
theorem asTerms_append {bs : List Expr} (h : AsTerms ts as) (h' : AsTerms us bs) :
    AsTerms (ts ++ us) (as ++ bs) := by
  intro rest more last follow later
  obtain ⟨follow, later⟩ := h' rest more last follow later
  rw [List.append_assoc, List.append_assoc]
  exact h _ _ _ follow later

/-- A sum, and more terms of it. -/
theorem asSum_append {bs : List Expr} (h : AsSum ts a as) (h' : AsTerms us bs) :
    AsSum (ts ++ us) a (as ++ bs) := by
  intro rest more last follow later
  obtain ⟨follow, later⟩ := h' rest more last follow later
  rw [List.append_assoc, List.append_assoc]
  exact h _ _ _ follow later

namespace Line

/-- A line is read as a sum. -/
theorem exists_reads (h : Line ts f) : ∃ a, Expr.Reads .sum ts a [] ∧ Becomes a f := by
  obtain ⟨a, as, reads, terms, -⟩ := h.start
  have whole := reads.reads [] .nil
  rw [List.append_nil] at whole
  exact ⟨_, whole, .ofTerms terms⟩

theorem ne_nil (h : Line ts f) : ts ≠ [] := by
  rintro rfl
  obtain ⟨a, reads, -⟩ := h.exists_reads
  cases reads.length_le

theorem behindSign_append (h : Line ts f) (us : List Token) : behindSign (ts ++ us) = behindSign ts ++ us := by
  unfold behindSign
  rw [List.head?_append_of_ne_nil ts h.ne_nil]
  split
  · rfl
  · rfl

/-- **One line behind another.** -/
theorem append (h : Line ts f) (h' : Line us g) : Line (ts ++ behindSign us) (f + g) := by
  obtain ⟨bs, more, values, some⟩ := h'.later
  constructor
  · obtain ⟨a, as, reads, terms, -⟩ := h.start
    exact ⟨a, as ++ bs, asSum_append reads more, terms.append values,
      fun none => absurd (List.append_eq_nil_iff.mp none).2 some⟩
  · obtain ⟨as, reads, terms, -⟩ := h.later
    rw [h.behindSign_append]
    exact ⟨as ++ bs, asTerms_append reads more, terms.append values, List.append_ne_nil_of_right_ne_nil as some⟩

/-- **A line in brackets** is a factor. -/
theorem brackets (h : Line ts f) (fits : ∀ v, degreeOf v f ≤ maxExponent) :
    SignedTerm (.opening :: (ts ++ [.closing])) f := by
  obtain ⟨a, as, reads, terms, single⟩ := h.start
  refine .plain nofun ⟨_, reads.brackets.marked.unary.product, ?_⟩
  cases as with
  | nil => exact single rfl
  | cons b as => exact .of_becomes (.ofTerms terms) rfl fits

end Line

/-! ## 3. Texts -/

/-- The text `s` is written with a term that becomes `f`. -/
def TermText (s : String) (f : MvPolynomial Variable ℚ) : Prop := ∃ ts, Spells ts s ∧ SignedTerm ts f

/-- The text `s` is written with a line of terms that becomes `f`. -/
def SumText (s : String) (f : MvPolynomial Variable ℚ) : Prop := ∃ ts, Spells ts s ∧ Line ts f

/-- The first token of a text that starts with a minus sign. -/
theorem head?_eq_minus_iff (h : Spells ts s) : s.toList.head? = some '-' ↔ ts.head? = some (.sign '-') := by
  rw [h.chars]
  cases ts with
  | nil => simp
  | cons t ts =>
    have valid := h.valid t List.mem_cons_self
    rw [List.flatMap_cons, List.head?_cons, Option.some.injEq]
    cases t with
    | number ds =>
      obtain ⟨c, cs, chars, digit, -⟩ := valid
      have ne : c ≠ '-' := by rintro rfl; cases digit
      simp [Token.chars, Token.text, chars, ne]
    | name x =>
      obtain ⟨c, cs, chars, letter, -⟩ := isName_iff.mp valid
      have ne : c ≠ '-' := by
        rintro rfl
        exact absurd letter (by decide)
      simp [Token.chars, Token.text, chars, ne]
    | sign c => simp [Token.chars, Token.text]
    | opening | closing | comma => simp [Token.chars, Token.text]

theorem TermText.sum (h : TermText s f) : SumText s f := by
  obtain ⟨ts, spells, term⟩ := h
  exact ⟨ts, spells, term.line⟩

/-- **A line behind another one**, with a plus sign unless it brings its own sign. -/
theorem SumText.append (h : SumText s f) (h' : SumText r g) :
    SumText (s ++ (Nested.plusBefore r ++ r)) (f + g) := by
  obtain ⟨ts, spells, line⟩ := h
  obtain ⟨us, spells', line'⟩ := h'
  refine ⟨_, ?_, line.append line'⟩
  unfold Nested.plusBefore behindSign
  by_cases minus : us.head? = some (.sign '-')
  · rw [if_pos minus, if_pos ((head?_eq_minus_iff spells').mpr minus), String.empty_append]
    refine spells.append spells' fun u hu => ?_
    cases hu.symm.trans minus
    rfl
  · rw [if_neg minus, if_neg (mt (head?_eq_minus_iff spells').mp minus), ← String.append_assoc]
    exact spells.join (.sign '+') rfl rfl spells'

/-- Any number of lines behind a line. -/
theorem SumText.join {rs : List String} (h : SumText s f) (later : Folds SumText (· + ·) 0 rs g) :
    SumText (s ++ String.join (rs.map fun r => Nested.plusBefore r ++ r)) (f + g) := by
  induction rs generalizing s f g with
  | nil =>
    cases later
    rw [add_zero]
    simpa using h
  | cons r rs ih =>
    obtain ⟨d, e, first, later, rfl⟩ := later
    have all := ih (h.append first) later
    rw [add_assoc, String.append_assoc] at all
    simpa using all

/-- A line in brackets starts a term. -/
theorem SumText.brackets (h : SumText s f) (fits : ∀ v, degreeOf v f ≤ maxExponent) :
    TermText ("(" ++ s ++ ")") f := by
  obtain ⟨ts, spells, line⟩ := h
  exact ⟨_, spells.brackets, line.brackets fits⟩

/-- **What is written as a line is read**, and becomes the polynomial of the line. -/
theorem SumText.exists_ofExpr (h : SumText s f) :
    ∃ a p, Expr.parse s = .ok a ∧ ofExpr a = .ok p ∧ p.Ordinary ∧ p.toMv = f := by
  obtain ⟨ts, spells, line⟩ := h
  obtain ⟨a, reads, becomes⟩ := line.exists_reads
  obtain ⟨p, run, value⟩ := becomes.exists_convert
  exact ⟨a, p, Expr.parse_of_spells spells reads, ofExpr_eq_ok_iff.mpr ⟨becomes.wellFormed, run⟩,
    (convert_answers a).of_ok run, value⟩

/-! ## 4. Numbers and powers of names -/

theorem degreeOf_C_le (q : ℚ) (v : Variable) : degreeOf v (C q) ≤ maxExponent := by
  rw [MvPolynomial.degreeOf_C]
  exact Nat.zero_le _

theorem asUnary_digits (k : ℕ) : AsUnary [.number (toString k)] (int k) := by
  rw [← Expr.ofDigits_toString]
  exact (AsPrimary.digits _).marked.unary

theorem startsProduct_number (h : AsUnary ts (num c)) : StartsProduct ts (C c.toRat) :=
  ⟨_, h.product, .of_becomes (.number c) rfl (degreeOf_C_le _)⟩

/-- A numerator, a slash and a denominator. -/
theorem startsProduct_fraction (h : AsUnary ts (num c)) (some : n ≠ 0) :
    StartsProduct (ts ++ [.sign '/', .number (toString n)]) (C (c.toRat / n)) := by
  have value : (Coefficient.ofInt n).toRat = n := (Coefficient.toRat_ofInt _).trans (Int.cast_natCast n)
  have nonzero : (Coefficient.ofInt n).toRat ≠ 0 := by
    rw [value]
    exact Nat.cast_ne_zero.mpr some
  rw [← value]
  exact ⟨_, h.product.div (asUnary_digits n), .of_becomes (.fraction c nonzero) rfl (degreeOf_C_le _)⟩

/-- A number that is not negative, and a minus sign in front of it. -/
theorem exists_of_nonneg (nonneg : c.isNegative = false) : ∃ ts, Spells ts c.text ∧
    ts.head? ≠ some (.sign '-') ∧ StartsProduct ts (C c.toRat) ∧
    StartsProduct (.sign '-' :: ts) (-C c.toRat) := by
  obtain ⟨k, value, text⟩ := Coefficient.text_of_nonneg nonneg
  have numerator : Spells [.number (toString k)] (toString k) := .word (Expr.Written.digits_valid k)
  have negative : AsUnary [.sign '-', .number (toString k)] (num (-.ofInt k)) := (asUnary_digits k).neg
  rw [text, ← map_neg]
  cases integer : c.isInteger with
  | true =>
    have same : Coefficient.ofInt k = c := Coefficient.toRat_injective (by
      rw [Coefficient.toRat_ofInt, ← value]
      exact Rat.coe_int_num_of_den_eq_one ((Coefficient.isInteger_iff c).mp integer))
    rw [← same, ← Coefficient.toRat_neg]
    exact ⟨_, numerator, nofun, startsProduct_number (asUnary_digits k), startsProduct_number negative⟩
  | false =>
    have quotient : c.toRat = (Coefficient.ofInt k).toRat / c.toRat.den := by
      rw [Coefficient.toRat_ofInt, ← value, Rat.num_div_den]
    have fraction := numerator.join (.sign '/') rfl rfl (.word (Expr.Written.digits_valid c.toRat.den))
    have plus := startsProduct_fraction (asUnary_digits k) c.toRat.den_nz
    have minus := startsProduct_fraction negative c.toRat.den_nz
    rw [Coefficient.toRat_neg, neg_div, ← quotient] at minus
    rw [← quotient] at plus
    exact ⟨_, fraction, nofun, plus, minus⟩

/-- **A number is a term.** -/
theorem termText_number (c : Coefficient) : TermText c.text (C c.toRat) := by
  cases sign : c.isNegative with
  | false =>
    obtain ⟨ts, spells, unsigned, product, -⟩ := exists_of_nonneg sign
    exact ⟨ts, spells, .plain unsigned product⟩
  | true =>
    obtain ⟨ts, spells, -, whole, first⟩ := exists_of_nonneg (Coefficient.isNegative_neg sign)
    have text := Spells.cons (.sign '-') rfl rfl spells
    have term := SignedTerm.minus whole first
    rw [Coefficient.toRat_neg, map_neg, neg_neg] at term
    refine ⟨_, ?_, term⟩
    rw [Coefficient.text_of_isNegative sign]
    exact text

/-- The written form of a power of a variable. -/
def powerText (v : Variable) (n : ℕ) : String := v.text ++ (if n = 1 then "" else "^" ++ toString n)

/-- **A power of a name** is a factor, and it is no product, with a minus sign or without. -/
theorem exists_asUnary_power (readable : v.Readable) (pos : 0 < n) (fits : n ≤ maxExponent) :
    ∃ ts b, Spells ts (powerText v n) ∧ ts.head? ≠ some (.sign '-') ∧ AsUnary ts b ∧
      factorsOf b = [b] ∧ factorsOf (negated b) = [negated b] ∧ Becomes b (X v ^ n) := by
  obtain ⟨x, rfl, name⟩ := readable
  have becomes := Becomes.power x pos fits
  have spells : Spells [.name x] x := .word name
  unfold powerText
  split
  · rename_i one
    subst one
    rw [Nat.cast_one, Expr.factor_one] at becomes
    refine ⟨[.name x], _, ?_, by simp, (AsPrimary.var x).marked.unary, rfl, rfl, becomes⟩
    rwa [String.append_empty]
  · rename_i other
    have same : (Expr.var x).factor n = op .pow [.var x, int n] := by
      rw [Expr.factor, if_neg (by exact_mod_cast other), int]
      refine congrArg (fun c => op .pow [.var x, num c]) (Coefficient.toRat_injective ?_)
      rw [Coefficient.toRat_ofRat, Coefficient.toRat_ofInt, Int.cast_natCast]
    rw [same] at becomes
    refine ⟨[.name x, .sign '^', .number (toString n)], _, ?_, by simp,
      (AsPrimary.var x).marked.pow (asUnary_digits n), rfl, rfl, becomes⟩
    rw [← String.append_assoc]
    exact spells.join (.sign '^') rfl rfl (.word (Expr.Written.digits_valid n))

theorem degreeOf_X_pow_le (v w : Variable) (n : ℕ) :
    degreeOf w (X v ^ n : MvPolynomial Variable ℚ) ≤ if v = w then n else 0 := by
  refine MvPolynomial.degreeOf_le_iff.mpr fun m hm => ?_
  rw [support_X_pow] at hm
  rw [Finset.mem_singleton.mp hm, Finsupp.single_apply]

/-- **A power of a name is a term**, and so is its opposite. -/
theorem termText_power (readable : v.Readable) (pos : 0 < n) (fits : n ≤ maxExponent) :
    TermText (powerText v n) (X v ^ n) ∧ TermText ("-" ++ powerText v n) (-X v ^ n) := by
  obtain ⟨ts, b, spells, unsigned, reads, alone, alone', becomes⟩ := exists_asUnary_power readable pos fits
  have small : ∀ w, degreeOf w (X v ^ n : MvPolynomial Variable ℚ) ≤ maxExponent := fun w => by
    have degree := degreeOf_X_pow_le v w n
    split at degree <;> omega
  have whole : StartsProduct ts (X v ^ n) := ⟨b, reads.product, .of_becomes becomes alone small⟩
  have opposite : ∀ w, degreeOf w (-X v ^ n : MvPolynomial Variable ℚ) ≤ maxExponent := fun w => by
    rw [MvPolynomial.degreeOf_neg]
    exact small w
  have first : StartsProduct (.sign '-' :: ts) (-X v ^ n) :=
    ⟨_, reads.neg.product, .of_becomes becomes.negated alone' opposite⟩
  exact ⟨⟨ts, spells, .plain unsigned whole⟩, _, .cons (.sign '-') rfl rfl spells, .minus whole first⟩

/-- **One more power.** -/
theorem TermText.times (h : TermText s f) (readable : v.Readable) (pos : 0 < n)
    (fits : ∀ w, degreeOf w f + n ≤ maxExponent) : TermText (s ++ "*" ++ powerText v n) (f * X v ^ n) := by
  obtain ⟨ts, spells, term⟩ := h
  have small : n ≤ maxExponent := (Nat.le_add_left _ _).trans (fits v)
  obtain ⟨us, b, spells', -, reads, -, -, becomes⟩ := exists_asUnary_power readable pos small
  refine ⟨_, spells.join (.sign '*') rfl rfl spells', term.times reads becomes fun u w => ?_⟩
  have bound := fits u
  have degree := degreeOf_X_pow_le v w n
  split at degree <;> omega

/-! ## 5. Texts without a sign -/

/-- The text starts with a character that is no minus sign. -/
def Unsigned (s : String) : Prop := ∃ c cs, s.toList = c :: cs ∧ c ≠ '-'

namespace Unsigned

theorem append (h : Unsigned s) (r : String) : Unsigned (s ++ r) := by
  obtain ⟨c, cs, chars, ne⟩ := h
  exact ⟨c, cs ++ r.toList, by rw [String.toList_append, chars, List.cons_append], ne⟩

theorem plusBefore (h : Unsigned s) : Nested.plusBefore s = "+" := by
  obtain ⟨c, cs, chars, ne⟩ := h
  rw [Nested.plusBefore, chars]
  exact if_neg fun same => ne (Option.some.inj same)

end Unsigned

theorem plusBefore_minus (s : String) : Nested.plusBefore ("-" ++ s) = "" := by
  rw [Nested.plusBefore, String.toList_append]
  exact if_pos rfl

theorem unsigned_number (nonneg : c.isNegative = false) : Unsigned c.text := by
  obtain ⟨k, -, text⟩ := Coefficient.text_of_nonneg nonneg
  have digits : Unsigned (toString k) := by
    obtain ⟨d, ds, chars, digit, -⟩ := Expr.Written.digits_valid k
    exact ⟨d, ds, chars, by rintro rfl; cases digit⟩
  rw [text]
  split
  · exact digits
  · rw [String.append_assoc]
    exact digits.append _

theorem unsigned_power (readable : v.Readable) : Unsigned (powerText v n) := by
  obtain ⟨x, rfl, name⟩ := readable
  obtain ⟨d, ds, chars, letter, -⟩ := isName_iff.mp name
  refine Unsigned.append ⟨d, ds, chars, ?_⟩ _
  rintro rfl
  exact absurd letter (by decide)

end Polynomial

end Eliminant
