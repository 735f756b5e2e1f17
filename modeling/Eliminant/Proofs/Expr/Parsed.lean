import Eliminant.Proofs.Expr.Faithful
import Eliminant.Proofs.Expr.Grammar
import Eliminant.Proofs.Text.Scan

/-!
# What is read

`Parsed a` says that `a` is of a form that the readers put together. Of all expressions these are

* the integers, and the variables and calls whose names can be read;
* sums and products of two or more operands, where the first factor of a product is no product;
* quotients, powers, subscripts and primes;
* opposites of anything but a number or another opposite.

There are no fractions and no differences. **`Expr.parsed_of_parse`**: whatever a text is read as is of this
form.
-/

namespace Eliminant

theorem Coefficient.neg_ofInt (k : ℤ) : -ofInt k = ofInt (-k) :=
  toRat_injective (by simp)

namespace Expr

/-! ## 1. Forms -/

/-- Whether an expression takes a minus sign in front of it into itself: numbers change theirs, and a second
    sign cancels the first. -/
def takesSign : Expr → Bool
  | num _ | op .neg [_] => true
  | _ => false

/-- Whether an expression is a product. -/
def isProduct : Expr → Bool
  | op .mul _ => true
  | _ => false

/-- **The forms that the readers put together.** -/
inductive Parsed : Expr → Prop
  | int (k : ℤ) : Parsed (int k)
  | var {x : String} : isName x = true → Parsed (var x)
  | call {f : String} {as : List Expr} : isName f = true → (∀ a ∈ as, Parsed a) → Parsed (call f as)
  | add {a : Expr} {as : List Expr} :
    Parsed a → (∀ b ∈ as, Parsed b) → as ≠ [] → Parsed (op .add (a :: as))
  | mul {a : Expr} {as : List Expr} :
    Parsed a → a.isProduct = false → (∀ b ∈ as, Parsed b) → as ≠ [] → Parsed (op .mul (a :: as))
  | div {a b : Expr} : Parsed a → Parsed b → Parsed (op .div [a, b])
  | neg {a : Expr} : Parsed a → a.takesSign = false → Parsed (op .neg [a])
  | pow {a b : Expr} : Parsed a → Parsed b → Parsed (op .pow [a, b])
  | subscript {a b : Expr} : Parsed a → Parsed b → Parsed (op .subscript [a, b])
  | prime {a : Expr} : Parsed a → Parsed (op .prime [a])

variable {a b : Expr} {as : List Expr}

/-- A minus sign in front of what does not take it makes an opposite. -/
theorem negated_of_takesSign (h : a.takesSign = false) : negated a = op .neg [a] := by
  unfold negated
  split
  · cases h
  · cases h
  · rfl

theorem Parsed.negated (h : Parsed a) : Parsed (negated a) := by
  cases h with
  | int k =>
    rw [Expr.int, Expr.negated, Coefficient.neg_ofInt]
    exact .int (-k)
  | neg inner _ => exact inner
  | var named => exact .neg (.var named) rfl
  | call named inner => exact .neg (.call named inner) rfl
  | add first later many => exact .neg (.add first later many) rfl
  | mul first single later many => exact .neg (.mul first single later many) rfl
  | div left right => exact .neg (.div left right) rfl
  | pow left right => exact .neg (.pow left right) rfl
  | subscript left right => exact .neg (.subscript left right) rfl
  | prime inner => exact .neg (.prime inner) rfl

theorem timesFactor_of_isProduct (h : a.isProduct = false) : timesFactor a b = op .mul [a, b] := by
  unfold timesFactor
  split
  · cases h
  · rfl

theorem Parsed.timesFactor (h : Parsed a) (h' : Parsed b) : Parsed (timesFactor a b) := by
  cases product : a.isProduct with
  | false =>
    rw [timesFactor_of_isProduct product]
    exact .mul h product (by simpa using h') (by simp)
  | true =>
    cases h with
    | mul first single later many =>
      exact .mul first single (by simpa [or_imp, forall_and] using ⟨later, h'⟩) (by simp)
    | _ => cases product

theorem Parsed.ofTerms (h : Parsed a) (later : ∀ b ∈ as, Parsed b) : Parsed (ofTerms a as) := by
  cases as with
  | nil => exact h
  | cons b as => exact .add h later (by simp)

/-! ## 2. The readers -/

open Phrase

/-- What is left is the end of what there was. -/
theorem Reads.suffix {p : Phrase} {ts rest : List Token} {out : p.Answer} (h : Reads p ts out rest) :
    rest <:+ ts := by
  induction h with
  | lastTerm | lastFactor | lastMark => exact List.suffix_rfl
  | number | name => exact List.suffix_cons _ _
  | bareCall => exact List.suffix_append [_, _, _] _
  | unsigned _ _ _ ih | unraised _ _ ih | lastArgument _ _ ih => exact ih
  | negative _ ih | positive _ ih | prime _ ih => exact ih.trans (List.suffix_cons _ _)
  | bracket _ ih => exact ((List.suffix_cons _ _).trans ih).trans (List.suffix_cons _ _)
  | call _ ih => exact ((List.suffix_cons _ _).trans ih).trans (List.suffix_append [_, _] _)
  | sum _ _ ih ih' | product _ _ ih ih' | marked _ _ ih ih' | beside _ _ _ ih ih' => exact ih'.trans ih
  | raised _ _ ih ih' | argument _ _ ih ih' => exact ih'.trans ((List.suffix_cons _ _).trans ih)
  | plus _ _ ih ih' | minus _ _ ih ih' | times _ _ ih ih' | divided _ _ ih ih' | subscript _ _ ih ih' =>
    exact (ih'.trans ih).trans (List.suffix_cons _ _)

/-- What a line answers is of the forms that the readers put together, if what it starts with is. -/
def Phrase.AnswersParsed : (p : Phrase) → p.Answer → Prop
  | terms, as | arguments, as => ∀ a ∈ as, Parsed a
  | factors a, b | marks a, b => Parsed a → Parsed b
  | sum, a | product, a | unary, a | power, a | marked, a | primary, a => Parsed a

/-- **From valid tokens, every line of the grammar reads what the readers put together.** -/
theorem Reads.parsed {p : Phrase} {ts rest : List Token} {out : p.Answer} (h : Reads p ts out rest)
    (valid : ∀ t ∈ ts, t.Valid) : p.AnswersParsed out := by
  induction h with
  | lastTerm => nofun
  | lastFactor | lastMark => exact id
  | number => exact .int _
  | name _ => exact .var (valid _ List.mem_cons_self)
  | bareCall => exact .call (valid _ List.mem_cons_self) nofun
  | unsigned _ _ _ ih | unraised _ _ ih => exact ih valid
  | lastArgument _ _ ih => exact List.forall_mem_singleton.mpr (ih valid)
  | negative _ ih => exact (ih (List.forall_mem_cons.mp valid).2).negated
  | positive _ ih | bracket _ ih => exact ih (List.forall_mem_cons.mp valid).2
  | prime _ ih => exact fun start => ih (List.forall_mem_cons.mp valid).2 start.prime
  | call _ ih =>
    obtain ⟨name, valid⟩ := List.forall_mem_cons.mp valid
    exact .call name (ih (List.forall_mem_cons.mp valid).2)
  | sum first _ ih ih' =>
    exact (ih valid).ofTerms (ih' fun t ht => valid t (first.suffix.subset ht))
  | product first _ ih ih' | marked first _ ih ih' =>
    exact ih' (fun t ht => valid t (first.suffix.subset ht)) (ih valid)
  | raised first _ ih ih' =>
    exact .pow (ih valid) (ih' fun t ht => valid t (first.suffix.subset (List.mem_cons_of_mem _ ht)))
  | argument first _ ih ih' =>
    exact List.forall_mem_cons.mpr ⟨ih valid,
      ih' fun t ht => valid t (first.suffix.subset (List.mem_cons_of_mem _ ht))⟩
  | beside _ first _ ih ih' =>
    exact fun start => ih' (fun t ht => valid t (first.suffix.subset ht)) (start.timesFactor (ih valid))
  | plus first _ ih ih' =>
    have valid := (List.forall_mem_cons.mp valid).2
    exact List.forall_mem_cons.mpr ⟨ih valid, ih' fun t ht => valid t (first.suffix.subset ht)⟩
  | minus first _ ih ih' =>
    have valid := (List.forall_mem_cons.mp valid).2
    exact List.forall_mem_cons.mpr
      ⟨(ih valid).negated, ih' fun t ht => valid t (first.suffix.subset ht)⟩
  | times first _ ih ih' =>
    have valid := (List.forall_mem_cons.mp valid).2
    exact fun start => ih' (fun t ht => valid t (first.suffix.subset ht)) (start.timesFactor (ih valid))
  | divided first _ ih ih' =>
    have valid := (List.forall_mem_cons.mp valid).2
    exact fun start => ih' (fun t ht => valid t (first.suffix.subset ht)) (start.div (ih valid))
  | subscript first _ ih ih' =>
    have valid := (List.forall_mem_cons.mp valid).2
    exact fun start =>
      ih' (fun t ht => valid t (first.suffix.subset ht)) (start.subscript (ih valid))

/-- **Whatever a text is read as is of a form that the readers put together.** -/
theorem parsed_of_parse {s : String} (h : parse s = .ok a) : Parsed a := by
  unfold parse at h
  split at h
  · cases h
  · cases h
  · rename_i lexemes last _ cut
    split at h
    · rename_i b read
      cases h
      refine (ofTokens_iff.mp read).parsed fun t ht => ?_
      obtain ⟨l, hl, rfl⟩ := List.mem_map.mp ht
      exact Lexeme.ofText_valid cut l hl
    · split at h <;> cases h

end Expr

end Eliminant
