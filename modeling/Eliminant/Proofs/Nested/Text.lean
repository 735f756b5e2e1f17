import Eliminant.Proofs.Nested.Bijection
import Eliminant.Proofs.Polynomial.Text

/-!
# The written forms of polynomials are read back

A level of a nested polynomial is written from its last term on: a factor and the power of its variable. The
factor is the written form of the coefficient, in brackets if that counts as more than one term, and left out where
it is `1`; in front of the power `0` the coefficient stands as it is, terms and all. So a level is a line of terms,
and a single term if it counts as one (`Nested.IsWritten`).

* `Nested.factorText_cases`, `IsWritten.factor`: a factor and a power are a term with the sign of the factor;
* `Nested.isWritten_level`: the terms of a level make up a line;
* `Nested.InOrder.isWritten`: so every regular nested polynomial in names is written, by induction on the levels.

**`Polynomial.text_roundTrip`**: flat or nested, a polynomial in names is written as a text that is read, and what
is read becomes the polynomial again.
-/

namespace Eliminant

open MvPolynomial (C X degreeOf)
open Terms (front)
open Eliminant.Polynomial (SumText TermText Unsigned termText_number termText_power)

variable {e B : Nat} {v : Variable} {vs : List Variable} {r c : Nested} {n : Coefficient} {s : String}
  {terms : List (Nat × Nested)} {f : MvPolynomial Variable ℚ} {p : Polynomial}

namespace Nested

/-! ## 1. Counting terms -/

/-- A coefficient that is not zero counts. -/
theorem Regular.termCount_pos (h : Regular r) (some : r.isZero = false) : 0 < r.termCount := by
  induction h with
  | constant c =>
    rw [termCount, show c.isZero = false from some]
    exact Nat.one_pos
  | level v terms here each ih =>
    cases terms with
    | nil => exact absurd rfl here.ne_nil
    | cons t terms =>
      obtain ⟨e, c⟩ := t
      have first := ih (e, c) List.mem_cons_self (here.nonzero _ List.mem_cons_self)
      rw [termCount, termCountList]
      exact Nat.lt_add_right _ first

/-- A level that counts as one term is the coefficient of a power. -/
theorem RegularLevel.exists_single (here : RegularLevel v terms) (each : ∀ t ∈ terms, Regular t.2)
    (one : (level v terms).termCount ≤ 1) : ∃ e c, terms = [(e, c)] ∧ 0 < e ∧ c.termCount ≤ 1 := by
  have counts : ∀ t ∈ terms, 0 < t.2.termCount := fun t mem =>
    (each t mem).termCount_pos (here.nonzero t mem)
  rw [termCount] at one
  match terms, here.ne_nil, here.ne_alone, counts, one with
  | [(e, c)], _, alone, _, one =>
    refine ⟨e, c, rfl, Nat.pos_of_ne_zero fun zero => alone c (zero ▸ rfl), ?_⟩
    simpa [termCountList] using one
  | (e, c) :: (f, d) :: rest, _, _, counts, one =>
    have first := counts (e, c) List.mem_cons_self
    have second := counts (f, d) (List.mem_cons_of_mem _ List.mem_cons_self)
    simp only [termCountList] at one first second
    omega

/-! ## 2. Degrees -/

/-- The exponents of the terms bound those of the polynomial. -/
theorem InOrder.degreeOf_le (h : InOrder vs r) (regular : Regular r) (nodup : vs.Nodup)
    (readable : ∀ v ∈ vs, v.Readable) (rows : ∀ t ∈ flat vs r, ∀ e ∈ t.exps, e ≤ B) (w : Variable) :
    degreeOf w r.toMv ≤ B := by
  have value : (Polynomial.mk vs (flat vs r).reverse).toMv = r.toMv := by
    rw [Polynomial.toMv_mk_reverse, toMv_flat h nodup]
  have sound : (Polynomial.mk vs (flat vs r).reverse).Sound := by
    refine ⟨(h.relisted regular nodup).ascending.reverse, nodup, fun v mem => ?_⟩
    obtain ⟨x, rfl, -⟩ := readable v mem
    trivial
  rw [← value]
  refine sound.maxDegree_le_iff_degreeOf.mp (Terms.foldl_max_le_iff.mpr ⟨Nat.zero_le B, fun t mem => ?_⟩) w
  exact Polynomial.maxDegree_le_iff.mpr (rows t (List.mem_reverse.mp mem))

/-! ## 3. Factors and powers -/

theorem plusBefore_append (some : s.toList ≠ []) (t : String) : plusBefore (s ++ t) = plusBefore s := by
  unfold plusBefore
  rw [String.toList_append, List.head?_append_of_ne_nil _ some]

/-- **The four factors** in front of a power. -/
theorem factorText_cases (c : Nested) (written : String) :
    (∃ n, c = constant n ∧ n.isOne = true ∧ factorText c written = "") ∨
    (∃ n, c = constant n ∧ (-n).isOne = true ∧ factorText c written = "-") ∨
    c.termCount ≤ 1 ∧ factorText c written = written ++ "*" ∨
    factorText c written = "(" ++ written ++ ")" ++ "*" := by
  unfold factorText
  split
  · rename_i n
    split
    · exact .inl ⟨n, rfl, ‹_›, rfl⟩
    split
    · exact .inr (.inl ⟨n, rfl, ‹_›, rfl⟩)
    · refine .inr (.inr (.inl ⟨?_, rfl⟩))
      rw [termCount]
      split <;> omega
  · have closing : ")*" = ")" ++ "*" := rfl
    split
    · rw [closing, ← String.append_assoc]
      exact .inr (.inr (.inr rfl))
    · rename_i single
      exact .inr (.inr (.inl ⟨Nat.le_of_not_lt single, rfl⟩))

/-- **A written coefficient**: a line of terms, and a single term if it counts as one. -/
structure IsWritten (r : Nested) : Prop where
  sum : SumText r.text r.toMv
  term : r.termCount ≤ 1 → TermText r.text r.toMv

theorem isWritten_constant (n : Coefficient) : IsWritten (constant n) := by
  have number := termText_number n
  rw [← text, ← toMv] at number
  exact ⟨number.sum, fun _ => number⟩

/-- **A factor and a power are a term**, whose sign is that of the factor. -/
theorem IsWritten.factor (h : IsWritten c) (readable : v.Readable) (pos : 0 < e)
    (fits : ∀ w, degreeOf w c.toMv + e ≤ maxExponent) :
    TermText (factorText c c.text ++ Polynomial.powerText v e) (X v ^ e * c.toMv) ∧
      plusBefore (factorText c c.text ++ Polynomial.powerText v e) = plusBefore (factorText c c.text) := by
  have small : e ≤ maxExponent := (Nat.le_add_left _ _).trans (fits v)
  have unit (n : Coefficient) : (constant n).toMv = C n.toRat := by rw [toMv]
  obtain ⟨plus, minus⟩ := termText_power readable pos small
  rw [mul_comm]
  obtain ⟨n, rfl, one, factor⟩ | ⟨n, rfl, one, factor⟩ | ⟨single, factor⟩ | factor := factorText_cases c c.text
  · rw [Coefficient.isOne_iff_toRat] at one
    rw [factor, String.empty_append, unit, one, map_one, one_mul]
    exact ⟨plus, (Polynomial.unsigned_power readable).plusBefore⟩
  · rw [Coefficient.isOne_iff_toRat, Coefficient.toRat_neg, neg_eq_iff_eq_neg] at one
    rw [factor, unit, one, map_neg, map_one, neg_one_mul]
    exact ⟨minus, plusBefore_append (by decide) _⟩
  · rw [factor]
    exact ⟨(h.term single).times readable pos fits, plusBefore_append (by simp) _⟩
  · rw [factor]
    have inside := h.sum.brackets fun w => (Nat.le_add_right _ _).trans (fits w)
    exact ⟨inside.times readable pos fits, plusBefore_append (by simp) _⟩

/-! ## 4. Levels -/

/-- A written factor and its power, which are a line with the sign of the factor. -/
def Piece (q : String × String) (f : MvPolynomial Variable ℚ) : Prop :=
  SumText (q.1 ++ q.2) f ∧ plusBefore (q.1 ++ q.2) = plusBefore q.1

theorem laterTermText_eq {q : String × String} (h : Piece q f) :
    laterTermText q = plusBefore (q.1 ++ q.2) ++ (q.1 ++ q.2) := by
  rw [h.2, ← String.append_assoc]
  rfl

/-- The pieces of a level are one line. -/
theorem sumText_joinText {qs : List (String × String)} (some : qs ≠ []) (h : Folds Piece (· + ·) 0 qs f) :
    SumText (joinText qs) f := by
  cases qs with
  | nil => exact absurd rfl some
  | cons q qs =>
    obtain ⟨first, rest, piece, later, rfl⟩ := h
    obtain ⟨fs, pieces, -⟩ := folds_iff_forall₂.mp later
    have texts : qs.map laterTermText = (qs.map fun q => q.1 ++ q.2).map fun r => plusBefore r ++ r := by
      rw [List.map_map]
      refine List.map_congr_left fun q' mem => ?_
      obtain ⟨f, -, piece⟩ := exists_of_mem_forall₂_left pieces mem
      exact laterTermText_eq piece
    have lines : Folds SumText (· + ·) 0 (qs.map fun q => q.1 ++ q.2) rest :=
      later.forall₂ (T := fun q r => q.1 ++ q.2 = r)
        (List.forall₂_map_right_iff.mpr (List.forall₂_same.mpr fun _ _ => rfl))
        fun q r f same piece => same ▸ piece.1
    show SumText (q.1 ++ q.2 ++ String.join (qs.map laterTermText)) _
    rw [texts]
    exact piece.1.join lines

theorem termTexts_eq_map (v : Variable) : ∀ terms : List (Nat × Nested), termTexts v terms =
    terms.map fun t => (if t.1 = 0 then t.2.text else factorText t.2 t.2.text, powerText v t.1)
  | [] => by rw [termTexts, List.map_nil]
  | (e, c) :: rest => by rw [termTexts, termTexts_eq_map v rest, List.map_cons]

/-- A term of a level is a line with the sign of its factor. -/
theorem IsWritten.piece (h : IsWritten c) (readable : v.Readable)
    (fits : ∀ w, degreeOf w c.toMv + e ≤ maxExponent) :
    Piece (if e = 0 then c.text else factorText c c.text, powerText v e) (X v ^ e * c.toMv) := by
  unfold powerText
  split
  · rename_i zero
    rw [zero, pow_zero, one_mul]
    unfold Piece
    rw [String.append_empty]
    exact ⟨h.sum, rfl⟩
  · rename_i some
    obtain ⟨term, sign⟩ := h.factor readable (Nat.pos_of_ne_zero some) fits
    exact ⟨term.sum, sign⟩

/-- **A level is written** if its coefficients are. -/
theorem isWritten_level (here : RegularLevel v terms) (each : ∀ t ∈ terms, Regular t.2) (readable : v.Readable)
    (fits : ∀ t ∈ terms, ∀ w, degreeOf w t.2.toMv + t.1 ≤ maxExponent) (h : ∀ t ∈ terms, IsWritten t.2) :
    IsWritten (level v terms) := by
  have pieces : Folds Piece (· + ·) 0 (termTexts v terms) (level v terms).toMv := by
    rw [termTexts_eq_map, toMv]
    clear here each
    induction terms with
    | nil =>
      rw [toMvTerms]
      rfl
    | cons t terms ih =>
      obtain ⟨e, c⟩ := t
      obtain ⟨fit, fits⟩ := List.forall_mem_cons.mp fits
      obtain ⟨first, later⟩ := List.forall_mem_cons.mp h
      rw [toMvTerms]
      exact ⟨_, _, first.piece readable fit, ih fits later, rfl⟩
  have some : (termTexts v terms).reverse ≠ [] := by
    rw [termTexts_eq_map]
    simpa using here.ne_nil
  refine ⟨?_, fun one => ?_⟩
  · rw [text]
    exact sumText_joinText some (pieces.perm (List.reverse_perm _).symm)
  · obtain ⟨e, c, rfl, pos, single⟩ := here.exists_single each one
    obtain ⟨term, -⟩ := (h _ List.mem_cons_self).factor readable pos (fits _ List.mem_cons_self)
    have value : (level v [(e, c)]).toMv = X v ^ e * c.toMv := by rw [toMv, toMvTerms, toMvTerms, add_zero]
    have written : (level v [(e, c)]).text = factorText c c.text ++ Polynomial.powerText v e := by
      rw [text, termTexts_eq_map]
      show (if e = 0 then c.text else factorText c c.text) ++ powerText v e ++ String.join [] = _
      rw [if_neg pos.ne', powerText, if_neg pos.ne']
      exact String.append_empty
    rw [written, value]
    exact term

/-- **Every regular nested polynomial in names is written**, if the exponents of its rows fit. -/
theorem InOrder.isWritten (h : InOrder vs r) (regular : Regular r) (nodup : vs.Nodup)
    (readable : ∀ v ∈ vs, v.Readable) (fit : ∀ t ∈ flat vs r, t.exps.Fit) : IsWritten r := by
  induction h with
  | constant vs c => exact isWritten_constant c
  | skip v vs r later ih =>
    obtain ⟨new, nodup⟩ := List.nodup_cons.mp nodup
    rw [later.flat_skip new] at fit
    exact ih regular nodup (List.forall_mem_cons.mp readable).2 fun t mem =>
      (fit _ (List.mem_map_of_mem mem)).tail
  | level v vs terms each ih =>
    obtain ⟨new, nodup⟩ := List.nodup_cons.mp nodup
    obtain ⟨first, readable⟩ := List.forall_mem_cons.mp readable
    cases regular with
    | level _ _ here regular =>
      have rows (t : Nat × Nested) (mem : t ∈ terms) : ∀ s ∈ flat vs t.2, Exponents.Fit (t.1 :: s.exps) :=
        fun s deep => by
          refine fit ⟨s.coeff, t.1 :: s.exps⟩ ?_
          rw [flat_level]
          exact List.mem_flatMap_of_mem mem (List.mem_map_of_mem deep)
      refine isWritten_level here regular first (fun t mem w => ?_) fun t mem =>
        ih t mem (regular t mem) nodup readable fun s deep => (rows t mem s deep).tail
      have small := here.fits t mem
      have degree := (each t mem).degreeOf_le (B := maxExponent - t.1) (regular t mem) nodup readable
        (fun s deep e he => ?_) w
      · omega
      · have pair := (rows t mem s deep).head e he
        omega

end Nested

/-! ## 5. Reading back -/

namespace Polynomial

/-- **Polynomials in names are written as texts that are read back**, flat and nested. -/
theorem text_roundTrip (consistent : p.Consistent) (sorted : Variable.Sorted p.vars)
    (readable : ∀ v ∈ p.vars, v.Readable) (fits : ∀ t ∈ p.terms, t.exps.twoLargest ≤ maxExponent) :
    (∃ a q, Expr.parse p.text = .ok a ∧ ofExpr a = .ok q ∧ q.equal p = true) ∧
      ∃ a q, Expr.parse p.toNested.text = .ok a ∧ ofExpr a = .ok q ∧ q.equal p = true := by
  have nodup := sorted.nodup
  have fit : ∀ t ∈ p.terms, t.exps.Fit := fun t mem => fit_of_twoLargest (fits t mem)
  have sound : p.Sound := by
    refine ⟨consistent, nodup, fun v mem => ?_⟩
    obtain ⟨x, rfl, -⟩ := readable v mem
    trivial
  have back {s : String} (h : SumText s p.toMv) :
      ∃ a q, Expr.parse s = .ok a ∧ ofExpr a = .ok q ∧ q.equal p = true := by
    obtain ⟨a, q, read, run, ordinary, value⟩ := h.exists_ofExpr
    exact ⟨a, q, read, run, (equal_iff ordinary.sound sound).mpr value⟩
  have nests := consistent.nests_toNested sorted fun t mem => (fit t mem).each
  have value : p.toNested.toMv = p.toMv := by
    rw [← Nested.toMv_flat nests.inOrder nodup, nests.flat_eq, toMv_mk_reverse]
  have written := nests.inOrder.isWritten nests.regular nodup readable fun t mem => by
    rw [nests.flat_eq] at mem
    exact fit t (List.mem_reverse.mp mem)
  exact ⟨back (sumText_text consistent nodup readable fit), back (value ▸ written.sum)⟩

/-- A fraction, the coefficients `1` and `-1`, a coefficient in brackets, and exponents that fit only just. -/
theorem text_roundTrip_at :
    let x := Variable.symbol "x"
    let y := Variable.symbol "y"
    let half : Coefficient := .small (-1) 2 (by decide) (by decide) (by decide) (by decide)
    let p : Polynomial := ⟨[x, y],
      [⟨half, [4294967290, 5]⟩, ⟨.one, [4294967290, 0]⟩, ⟨-.one, [1, 2]⟩, ⟨.ofInt 3, [0, 0]⟩]⟩
    p.Consistent ∧ Variable.Sorted p.vars ∧ (∀ v ∈ p.vars, v.Readable) ∧
      (∀ t ∈ p.terms, t.exps.twoLargest ≤ maxExponent) ∧
      p.text = "-1/2*x^4294967290*y^5+x^4294967290-x*y^2+3" ∧
      p.toNested.text = "(-1/2*y^5+1)*x^4294967290-y^2*x+3" ∧
      (∃ a q, Expr.parse p.text = .ok a ∧ ofExpr a = .ok q ∧ q.equal p = true) ∧
      ∃ a q, Expr.parse p.toNested.text = .ok a ∧ ofExpr a = .ok q ∧ q.equal p = true := by
  intro x y half p
  have consistent : p.Consistent := by decide
  have sorted : Variable.Sorted p.vars := Variable.isSorted_iff.mp (by decide)
  have readable : ∀ v ∈ p.vars, v.Readable :=
    List.forall_mem_cons.mpr ⟨Variable.readable_of_ascii (c := 'x') String.toList_ofList rfl nofun,
      List.forall_mem_singleton.mpr (Variable.readable_of_ascii (c := 'y') String.toList_ofList rfl nofun)⟩
  have fits : ∀ t ∈ p.terms, t.exps.twoLargest ≤ maxExponent := by decide
  exact ⟨consistent, sorted, readable, fits, by rfl, by cbv, text_roundTrip consistent sorted readable fits⟩

end Polynomial

end Eliminant
