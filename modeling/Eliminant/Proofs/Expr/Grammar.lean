import Eliminant.Expr.Parser

/-!
# The grammar as a relation

`Reads p ts out rest`: the line `p` of the grammar, reading from the front of the tokens `ts`, answers
`out` and leaves `rest`. There is one rule for every way through a reader, and the conditions of a rule
say where the reader stops: at a token with which it does not go on.

**`Reads.runs`**: what the rules derive is what the reader answers, with any fuel that is at least ten
times the number of tokens plus the height of the line in the grammar. Nothing else needs to be known
about fuel.

**`Reads.of_read`**: what a reader answers, with any fuel, the rules derive. So the readers take exactly the
grammar (`ofTokens_iff`).
-/

namespace Eliminant

namespace Expr

/-! ## 1. The rules -/

/-- The lines of the grammar. The lines for what follows the first term, factor or operand have what has
    been read of the product or operand before them. -/
inductive Phrase where
  | sum
  | terms
  | product
  | factors (a : Expr)
  | unary
  | power
  | marked
  | marks (a : Expr)
  | primary
  | arguments

namespace Phrase

/-- What a line answers: an expression, or a list of terms or arguments. -/
abbrev Answer : Phrase → Type
  | terms | arguments => List Expr
  | _ => Expr

/-- The reader of a line. -/
def read : (p : Phrase) → (fuel : Nat) → List Token → Except ReadError (p.Answer × List Token)
  | sum => readSum
  | terms => readTerms
  | product => readProduct
  | factors a => fun fuel => readFactors fuel a
  | unary => readUnary
  | power => readPower
  | marked => readPostfix
  | marks a => fun fuel => readMarks fuel a
  | primary => readPrimary
  | arguments => readArguments

/-- The number of tokens that a line needs. -/
def least : Phrase → Nat
  | terms | factors _ | marks _ => 0
  | _ => 1

/-- The fuel that a line needs to get to its next token. -/
def height : Phrase → Nat
  | primary | marks _ | terms => 1
  | marked => 2
  | power => 3
  | unary => 4
  | factors _ => 5
  | product => 6
  | sum => 7
  | arguments => 8

end Phrase

open Phrase

/-- **What the lines of the grammar read.** -/
inductive Reads : (p : Phrase) → List Token → p.Answer → List Token → Prop
  | sum {ts us rest : List Token} {a : Expr} {as : List Expr} :
    Reads product ts a us → Reads terms us as rest → Reads sum ts (ofTerms a as) rest
  | plus {ts us rest : List Token} {a : Expr} {as : List Expr} :
    Reads product ts a us → Reads terms us as rest → Reads terms (.sign '+' :: ts) (a :: as) rest
  | minus {ts us rest : List Token} {a : Expr} {as : List Expr} :
    Reads product ts a us → Reads terms us as rest →
      Reads terms (.sign '-' :: ts) (negated a :: as) rest
  | lastTerm {ts : List Token} :
    ts.head? ≠ some (.sign '+') → ts.head? ≠ some (.sign '-') → Reads terms ts [] ts
  | product {ts us rest : List Token} {a b : Expr} :
    Reads unary ts a us → Reads (factors a) us b rest → Reads product ts b rest
  | times {ts us rest : List Token} {a b c : Expr} :
    Reads unary ts b us → Reads (factors (timesFactor a b)) us c rest →
      Reads (factors a) (.sign '*' :: ts) c rest
  | divided {ts us rest : List Token} {a b c : Expr} :
    Reads unary ts b us → Reads (factors (op .div [a, b])) us c rest →
      Reads (factors a) (.sign '/' :: ts) c rest
  | beside {t : Token} {ts us rest : List Token} {a b c : Expr} :
    t.startsOperand = true → Reads unary (t :: ts) b us → Reads (factors (timesFactor a b)) us c rest →
      Reads (factors a) (t :: ts) c rest
  | lastFactor {ts : List Token} {a : Expr} :
    ts.head? ≠ some (.sign '*') → ts.head? ≠ some (.sign '/') →
      (∀ t ∈ ts.head?, t.startsOperand = false) → Reads (factors a) ts a ts
  | negative {ts rest : List Token} {a : Expr} :
    Reads unary ts a rest → Reads unary (.sign '-' :: ts) (negated a) rest
  | positive {ts rest : List Token} {a : Expr} :
    Reads unary ts a rest → Reads unary (.sign '+' :: ts) a rest
  | unsigned {ts rest : List Token} {a : Expr} :
    ts.head? ≠ some (.sign '-') → ts.head? ≠ some (.sign '+') → Reads power ts a rest →
      Reads unary ts a rest
  | raised {ts us rest : List Token} {a e : Expr} :
    Reads marked ts a (.sign '^' :: us) → Reads unary us e rest →
      Reads power ts (op .pow [a, e]) rest
  | unraised {ts rest : List Token} {a : Expr} :
    Reads marked ts a rest → rest.head? ≠ some (.sign '^') → Reads power ts a rest
  | marked {ts us rest : List Token} {a b : Expr} :
    Reads primary ts a us → Reads (marks a) us b rest → Reads marked ts b rest
  | prime {ts rest : List Token} {a b : Expr} :
    Reads (marks (op .prime [a])) ts b rest → Reads (marks a) (.sign '\'' :: ts) b rest
  | subscript {ts us rest : List Token} {a b c : Expr} :
    Reads primary ts b us → Reads (marks (op .subscript [a, b])) us c rest →
      Reads (marks a) (.sign '_' :: ts) c rest
  | lastMark {ts : List Token} {a : Expr} :
    ts.head? ≠ some (.sign '\'') → ts.head? ≠ some (.sign '_') → Reads (marks a) ts a ts
  | number {digits : String} {rest : List Token} :
    Reads primary (.number digits :: rest) (ofDigits digits) rest
  | name {x : String} {rest : List Token} :
    rest.head? ≠ some .opening → Reads primary (.name x :: rest) (var x) rest
  | bareCall {f : String} {rest : List Token} :
    Reads primary (.name f :: .opening :: .closing :: rest) (call f []) rest
  | call {f : String} {ts rest : List Token} {as : List Expr} :
    Reads arguments ts as (.closing :: rest) →
      Reads primary (.name f :: .opening :: ts) (call f as) rest
  | bracket {ts rest : List Token} {a : Expr} :
    Reads sum ts a (.closing :: rest) → Reads primary (.opening :: ts) a rest
  | lastArgument {ts rest : List Token} {a : Expr} :
    Reads sum ts a rest → rest.head? ≠ some .comma → Reads arguments ts [a] rest
  | argument {ts us rest : List Token} {a : Expr} {as : List Expr} :
    Reads sum ts a (.comma :: us) → Reads arguments us as rest → Reads arguments ts (a :: as) rest

/-! ## 2. Where a reader stops -/

section Stops

variable {fuel : Nat} {t : Token} {ts us rest : List Token} {a b : Expr} {as : List Expr}
  {x f : String}

theorem readTerms_stop (noPlus : ts.head? ≠ some (.sign '+')) (noMinus : ts.head? ≠ some (.sign '-')) :
    readTerms (fuel + 1) ts = .ok ([], ts) := by
  unfold readTerms
  split
  · exact absurd rfl noPlus
  · exact absurd rfl noMinus
  · rfl

theorem readFactors_stop (noTimes : ts.head? ≠ some (.sign '*')) (noOver : ts.head? ≠ some (.sign '/'))
    (noOperand : ∀ t ∈ ts.head?, t.startsOperand = false) :
    readFactors (fuel + 1) a ts = .ok (a, ts) := by
  unfold readFactors
  split
  · exact absurd rfl noTimes
  · exact absurd rfl noOver
  · rw [if_neg (by rw [noOperand _ rfl]; decide)]
  · rfl

theorem readFactors_beside (starts : t.startsOperand = true)
    (run : readUnary fuel (t :: ts) = .ok (b, us)) :
    readFactors (fuel + 1) a (t :: ts) = readFactors fuel (timesFactor a b) us := by
  cases t with
  | sign _ | closing | comma => cases starts
  | number _ | name _ | opening => simp only [readFactors, starts, if_true, run, bind, Except.bind]

theorem readUnary_unsigned (noMinus : ts.head? ≠ some (.sign '-'))
    (noPlus : ts.head? ≠ some (.sign '+')) : readUnary (fuel + 1) ts = readPower fuel ts := by
  unfold readUnary
  split
  · exact absurd rfl noMinus
  · exact absurd rfl noPlus
  · rfl

theorem readPower_unraised (run : readPostfix fuel ts = .ok (a, us))
    (noPower : us.head? ≠ some (.sign '^')) : readPower (fuel + 1) ts = .ok (a, us) := by
  simp only [readPower, run, bind, Except.bind]
  split
  · exact absurd rfl noPower
  · rfl

theorem readMarks_stop (noPrime : ts.head? ≠ some (.sign '\''))
    (noSubscript : ts.head? ≠ some (.sign '_')) : readMarks (fuel + 1) a ts = .ok (a, ts) := by
  unfold readMarks
  split
  · exact absurd rfl noPrime
  · exact absurd rfl noSubscript
  · rfl

theorem readPrimary_name (noCall : rest.head? ≠ some .opening) :
    readPrimary (fuel + 1) (.name x :: rest) = .ok (var x, rest) := by
  match rest, noCall with
  | [], _ => rfl
  | .opening :: _, noCall => exact absurd rfl noCall
  | .number _ :: _, _ | .name _ :: _, _ | .sign _ :: _, _ | .closing :: _, _ | .comma :: _, _ => rfl

theorem readPrimary_call (run : readArguments fuel ts = .ok (as, .closing :: rest))
    (other : ts.head? ≠ some .closing) :
    readPrimary (fuel + 1) (.name f :: .opening :: ts) = .ok (call f as, rest) := by
  match ts, other with
  | .closing :: _, other => exact absurd rfl other
  | [], _ | .number _ :: _, _ | .name _ :: _, _ | .sign _ :: _, _ | .opening :: _, _
  | .comma :: _, _ => simp only [readPrimary, run, bind, Except.bind, pure, Except.pure]

theorem readArguments_last (run : readSum fuel ts = .ok (a, us))
    (noComma : us.head? ≠ some .comma) : readArguments (fuel + 1) ts = .ok ([a], us) := by
  simp only [readArguments, run, bind, Except.bind]
  split
  · exact absurd rfl noComma
  · rfl

end Stops

/-! ## 3. The readers follow the rules -/

namespace Reads

variable {p : Phrase} {ts rest : List Token} {out : p.Answer}

/-- Every line but those that may be empty takes a token. -/
theorem length_le (h : Reads p ts out rest) : rest.length + p.least ≤ ts.length := by
  induction h <;> simp only [least, List.length_cons] at * <;> omega

/-- Nothing that is read starts with a closing bracket. -/
theorem head_ne_closing (h : Reads p ts out rest) (needed : p.least = 1) :
    ts.head? ≠ some .closing := by
  induction h with
  | sum _ _ ih _ | product _ _ ih _ | unsigned _ _ _ ih | raised _ _ ih _ | unraised _ _ ih
  | marked _ _ ih _ | lastArgument _ _ ih | argument _ _ ih _ => exact ih rfl
  | negative _ _ | positive _ _ | number | name _ | bareCall | call _ _ | bracket _ _ => nofun
  | plus _ _ _ _ | minus _ _ _ _ | lastTerm _ _ | times _ _ _ _ | divided _ _ _ _ | beside _ _ _ _ _
  | lastFactor _ _ _ | prime _ _ | subscript _ _ _ _ | lastMark _ _ => cases needed

/-- The reader of a line answers, with enough fuel. -/
def Runs (p : Phrase) (ts : List Token) (out : p.Answer) (rest : List Token) : Prop :=
  ∀ fuel, 10 * ts.length + p.height ≤ fuel + 1 → p.read (fuel + 1) ts = .ok (out, rest)

theorem Runs.read_eq (h : Runs p ts out rest) (fuel : Nat)
    (enough : 10 * ts.length + p.height ≤ fuel) : p.read fuel ts = .ok (out, rest) := by
  have positive : 1 ≤ p.height := by cases p <;> simp [height]
  obtain ⟨m, rfl⟩ : ∃ m, fuel = m + 1 := ⟨fuel - 1, by omega⟩
  exact h m enough

/-- **What the rules derive is what the reader answers.** A reader that is called on the same tokens is
    that of a lower line, and a token that has been taken makes up for any line. -/
theorem runs (h : Reads p ts out rest) : Runs p ts out rest := by
  induction h with
  | lastTerm noPlus noMinus => exact fun _ _ => readTerms_stop noPlus noMinus
  | lastFactor noTimes noOver noOperand => exact fun _ _ => readFactors_stop noTimes noOver noOperand
  | lastMark noPrime noSubscript => exact fun _ _ => readMarks_stop noPrime noSubscript
  | name noCall => exact fun _ _ => readPrimary_name noCall
  | number | bareCall => exact fun _ _ => by simp only [Phrase.read, readPrimary]
  | unsigned noMinus noPlus _ ih =>
    intro fuel enough
    simp only [height] at enough
    exact (readUnary_unsigned noMinus noPlus).trans (ih.read_eq _ (by simp only [height]; omega))
  | unraised _ noPower ih =>
    intro fuel enough
    simp only [height] at enough
    exact readPower_unraised (ih.read_eq _ (by simp only [height]; omega)) noPower
  | lastArgument _ noComma ih =>
    intro fuel enough
    simp only [height] at enough
    exact readArguments_last (ih.read_eq _ (by simp only [height]; omega)) noComma
  | call inner ih =>
    intro fuel enough
    simp only [height, List.length_cons] at enough
    exact readPrimary_call (ih.read_eq _ (by simp only [height]; omega)) (inner.head_ne_closing rfl)
  | negative _ ih | positive _ ih | prime _ ih | bracket _ ih =>
    intro fuel enough
    simp only [height, List.length_cons] at enough
    have run := ih.read_eq fuel (by simp only [height]; omega)
    simp only [Phrase.read] at *
    simp only [readUnary, readMarks, readPrimary, run, bind, Except.bind, pure, Except.pure]
  | beside starts first _ ih ih' =>
    intro fuel enough
    have shorter := first.length_le
    simp only [height, least, List.length_cons] at enough shorter
    exact (readFactors_beside starts (ih.read_eq _ (by simp only [height, List.length_cons]; omega))).trans
      (ih'.read_eq _ (by simp only [height]; omega))
  | sum first _ ih ih' | plus first _ ih ih' | minus first _ ih ih' | product first _ ih ih'
  | times first _ ih ih' | divided first _ ih ih' | marked first _ ih ih' | subscript first _ ih ih'
  | raised first _ ih ih' | argument first _ ih ih' =>
    intro fuel enough
    have shorter := first.length_le
    simp only [height, least, List.length_cons] at enough shorter
    have run := ih.read_eq fuel (by simp only [height]; omega)
    have run' := ih'.read_eq fuel (by simp only [height]; omega)
    simp only [Phrase.read] at *
    simp only [readSum, readTerms, readProduct, readFactors, readPower, readPostfix, readMarks,
      readArguments, run, run', bind, Except.bind, pure, Except.pure]

end Reads

/-! ## 4. The readers read nothing else -/

/-- What has been read in two steps. -/
theorem read_bind {α β : Type} {x : Except ReadError α} {f : α → Except ReadError β} {b : β}
    (h : (x >>= f) = .ok b) : ∃ a, x = .ok a ∧ f a = .ok b := by
  cases x with
  | error e => cases h
  | ok a => exact ⟨a, rfl, h⟩

theorem head_ne_of {t : Token} {ts : List Token} (h : ∀ us, ts = t :: us → False) :
    ts.head? ≠ some t := fun head => by
  obtain ⟨us, rfl⟩ := List.head?_eq_some_iff.mp head
  exact h us rfl

namespace Reads

/-- What every line answers with this fuel, the rules derive. -/
def Derives (fuel : Nat) : Prop := ∀ (p : Phrase) (ts : List Token) (out : p.Answer) (rest : List Token),
  p.read fuel ts = .ok (out, rest) → Reads p ts out rest

section Step

variable {fuel : Nat} {ts rest : List Token} {a b : Expr} {as : List Expr} (ih : Derives fuel)

include ih

theorem of_readSum (h : readSum (fuel + 1) ts = .ok (a, rest)) : Reads .sum ts a rest := by
  obtain ⟨_, first, h⟩ := read_bind h
  obtain ⟨_, later, h⟩ := read_bind h
  cases h
  exact .sum (ih .product _ _ _ first) (ih .terms _ _ _ later)

theorem of_readTerms (h : readTerms (fuel + 1) ts = .ok (as, rest)) : Reads .terms ts as rest := by
  unfold readTerms at h
  split at h
  · obtain ⟨_, first, h⟩ := read_bind h
    obtain ⟨_, later, h⟩ := read_bind h
    cases h
    exact .plus (ih .product _ _ _ first) (ih .terms _ _ _ later)
  · obtain ⟨_, first, h⟩ := read_bind h
    obtain ⟨_, later, h⟩ := read_bind h
    cases h
    exact .minus (ih .product _ _ _ first) (ih .terms _ _ _ later)
  · rename_i noPlus noMinus
    cases h
    exact .lastTerm (head_ne_of noPlus) (head_ne_of noMinus)

theorem of_readProduct (h : readProduct (fuel + 1) ts = .ok (a, rest)) : Reads .product ts a rest := by
  obtain ⟨_, first, h⟩ := read_bind h
  exact .product (ih .unary _ _ _ first) (ih (.factors _) _ _ _ h)

theorem of_readFactors (h : readFactors (fuel + 1) a ts = .ok (b, rest)) :
    Reads (.factors a) ts b rest := by
  unfold readFactors at h
  split at h
  · obtain ⟨_, first, h⟩ := read_bind h
    exact .times (ih .unary _ _ _ first) (ih (.factors _) _ _ _ h)
  · obtain ⟨_, first, h⟩ := read_bind h
    exact .divided (ih .unary _ _ _ first) (ih (.factors _) _ _ _ h)
  · rename_i t us noTimes noOver
    split at h
    · rename_i starts
      obtain ⟨_, first, h⟩ := read_bind h
      exact .beside starts (ih .unary _ _ _ first) (ih (.factors _) _ _ _ h)
    · rename_i other
      cases h
      exact .lastFactor (by simpa using noTimes) (by simpa using noOver) (by simpa using other)
  · cases h
    exact .lastFactor nofun nofun nofun

theorem of_readUnary (h : readUnary (fuel + 1) ts = .ok (a, rest)) : Reads .unary ts a rest := by
  unfold readUnary at h
  split at h
  · obtain ⟨_, inner, h⟩ := read_bind h
    cases h
    exact .negative (ih .unary _ _ _ inner)
  · exact .positive (ih .unary _ _ _ h)
  · rename_i noMinus noPlus
    exact .unsigned (head_ne_of noMinus) (head_ne_of noPlus) (ih .power _ _ _ h)

theorem of_readPower (h : readPower (fuel + 1) ts = .ok (a, rest)) : Reads .power ts a rest := by
  obtain ⟨⟨b, us⟩, base, h⟩ := read_bind h
  have base := ih .marked _ _ _ base
  dsimp only at h
  split at h
  · obtain ⟨_, exponent, h⟩ := read_bind h
    cases h
    exact .raised base (ih .unary _ _ _ exponent)
  · rename_i noPower
    cases h
    exact .unraised base (head_ne_of noPower)

theorem of_readPostfix (h : readPostfix (fuel + 1) ts = .ok (a, rest)) : Reads .marked ts a rest := by
  obtain ⟨_, first, h⟩ := read_bind h
  exact .marked (ih .primary _ _ _ first) (ih (.marks _) _ _ _ h)

theorem of_readMarks (h : readMarks (fuel + 1) a ts = .ok (b, rest)) : Reads (.marks a) ts b rest := by
  unfold readMarks at h
  split at h
  · exact .prime (ih (.marks _) _ _ _ h)
  · obtain ⟨_, first, h⟩ := read_bind h
    exact .subscript (ih .primary _ _ _ first) (ih (.marks _) _ _ _ h)
  · rename_i noPrime noSubscript
    cases h
    exact .lastMark (head_ne_of noPrime) (head_ne_of noSubscript)

theorem of_readPrimary (h : readPrimary (fuel + 1) ts = .ok (a, rest)) : Reads .primary ts a rest := by
  unfold readPrimary at h
  split at h
  · cases h
  · cases h
    exact .number
  · cases h
    exact .bareCall
  · obtain ⟨⟨as, us⟩, inner, h⟩ := read_bind h
    have inner := ih .arguments _ _ _ inner
    dsimp only at h
    split at h
    · cases h
      exact .call inner
    · cases h
  · rename_i noBareCall noCall
    cases h
    exact .name (head_ne_of noCall)
  · obtain ⟨⟨b, us⟩, inner, h⟩ := read_bind h
    have inner := ih .sum _ _ _ inner
    dsimp only at h
    split at h
    · cases h
      exact .bracket inner
    · cases h
  · cases h

theorem of_readArguments (h : readArguments (fuel + 1) ts = .ok (as, rest)) :
    Reads .arguments ts as rest := by
  obtain ⟨⟨b, us⟩, first, h⟩ := read_bind h
  have first := ih .sum _ _ _ first
  dsimp only at h
  split at h
  · obtain ⟨_, later, h⟩ := read_bind h
    cases h
    exact .argument first (ih .arguments _ _ _ later)
  · rename_i noComma
    cases h
    exact .lastArgument first (head_ne_of noComma)

end Step

/-- **What a reader answers, the rules derive.** -/
theorem of_read : ∀ fuel, Derives fuel
  | 0, p, _, _, _, h => by cases p <;> simp only [Phrase.read] at h <;> cases h
  | fuel + 1, p, ts, out, rest, h => by
    have ih := of_read fuel
    cases p with
    | sum => exact of_readSum ih h
    | terms => exact of_readTerms ih h
    | product => exact of_readProduct ih h
    | factors a => exact of_readFactors ih h
    | unary => exact of_readUnary ih h
    | power => exact of_readPower ih h
    | marked => exact of_readPostfix ih h
    | marks a => exact of_readMarks ih h
    | primary => exact of_readPrimary ih h
    | arguments => exact of_readArguments ih h

end Reads

/-! ## 5. Whole texts -/

/-- **What tokens write is what the rules derive from all of them.** -/
theorem ofTokens_iff {ts : List Token} {a : Expr} : ofTokens ts = .ok a ↔ Reads .sum ts a [] := by
  constructor
  · intro h
    obtain ⟨⟨b, us⟩, run, h⟩ := read_bind h
    match us, h with
    | [], h =>
      cases h
      exact Reads.of_read (10 * (ts.length + 1)) .sum _ _ _ run
  · intro h
    have run : readSum (10 * (ts.length + 1)) ts = .ok (a, []) :=
      h.runs.read_eq (10 * (ts.length + 1)) (by simp only [height]; omega)
    unfold ofTokens
    rw [run]
    rfl

end Expr

end Eliminant
