import Eliminant.Proofs.Expr.Grammar

/-!
# The sentences of the grammar

`Sentence k ts`: the tokens `ts` are derived from the category `k` of the grammar. Nothing is said about
where a reader would stop, so one sequence of tokens may be derived in several ways: `f(x)` is a call, and it
is the product of `f` and `(x)`.

The readers always go on for as long as they can. That they lose nothing by it is seen on a machine that knows
no categories: it goes through the tokens with a stack of open brackets and checks what may follow what
(`Machine.step`).

* `Sentence.runs`: the machine goes through every sentence, however it is derived;
* `Reads.of_accepts`: where the machine gets to the end, the readers do;
* `Reads.exists_sentence`: what a reader takes is a sentence;
* **`exists_reads_iff`**: so the readers take exactly the sums of the grammar.
-/

namespace Eliminant

namespace Expr

/-! ## 1. The grammar -/

/-- The categories of the grammar. `terms`, `factors` and `marks` are what may be repeated behind the first
    term, factor and operand. -/
inductive Category where
  | sum
  | terms
  | product
  | factors
  | unary
  | power
  | marked
  | marks
  | primary
  | arguments
  deriving DecidableEq, Repr

open Category

/-- **The tokens that a category derives.** -/
inductive Sentence : Category → List Token → Prop
  | sum {ts us : List Token} : Sentence product ts → Sentence terms us → Sentence sum (ts ++ us)
  | noTerms : Sentence terms []
  | plus {ts us : List Token} :
    Sentence product ts → Sentence terms us → Sentence terms (.sign '+' :: (ts ++ us))
  | minus {ts us : List Token} :
    Sentence product ts → Sentence terms us → Sentence terms (.sign '-' :: (ts ++ us))
  | product {ts us : List Token} :
    Sentence unary ts → Sentence factors us → Sentence product (ts ++ us)
  | noFactors : Sentence factors []
  | times {ts us : List Token} :
    Sentence unary ts → Sentence factors us → Sentence factors (.sign '*' :: (ts ++ us))
  | divided {ts us : List Token} :
    Sentence unary ts → Sentence factors us → Sentence factors (.sign '/' :: (ts ++ us))
  | beside {ts us : List Token} :
    Sentence power ts → Sentence factors us → Sentence factors (ts ++ us)
  | negative {ts : List Token} : Sentence unary ts → Sentence unary (.sign '-' :: ts)
  | positive {ts : List Token} : Sentence unary ts → Sentence unary (.sign '+' :: ts)
  | unsigned {ts : List Token} : Sentence power ts → Sentence unary ts
  | raised {ts us : List Token} :
    Sentence marked ts → Sentence unary us → Sentence power (ts ++ .sign '^' :: us)
  | unraised {ts : List Token} : Sentence marked ts → Sentence power ts
  | marked {ts us : List Token} :
    Sentence primary ts → Sentence marks us → Sentence marked (ts ++ us)
  | noMarks : Sentence marks []
  | prime {ts : List Token} : Sentence marks ts → Sentence marks (.sign '\'' :: ts)
  | subscript {ts us : List Token} :
    Sentence primary ts → Sentence marks us → Sentence marks (.sign '_' :: (ts ++ us))
  | number {digits : String} : Sentence primary [.number digits]
  | name {x : String} : Sentence primary [.name x]
  | bareCall {f : String} : Sentence primary [.name f, .opening, .closing]
  | call {f : String} {ts : List Token} :
    Sentence arguments ts → Sentence primary (.name f :: .opening :: (ts ++ [.closing]))
  | bracket {ts : List Token} : Sentence sum ts → Sentence primary (.opening :: (ts ++ [.closing]))
  | lastArgument {ts : List Token} : Sentence sum ts → Sentence arguments ts
  | argument {ts us : List Token} :
    Sentence sum ts → Sentence arguments us → Sentence arguments (ts ++ .comma :: us)

/-! ## 2. What may follow what -/

/-- An open bracket: that of a call may hold several sums, or none. -/
inductive Bracket where
  | call
  | group
  deriving DecidableEq, Repr

/-- A place between two tokens: before an operand, behind the bracket of a call, before an operand that takes
    no sign, behind an operand, and behind a name. -/
inductive Place where
  | operand
  | argument
  | primary
  | behind
  | behindName
  deriving DecidableEq, Repr

/-- Whether an operand ends at a place. -/
def Place.isBehind : Place → Bool
  | behind | behindName => true
  | operand | argument | primary => false

namespace Machine

/-- Whether the token is a sign with which an operand may start. -/
def isPrefixSign (c : Char) : Bool := c == '+' || c == '-'

/-- Whether the token is a sign between two operands, the second of which may carry a sign. -/
def isInnerSign (c : Char) : Bool := isPrefixSign c || c == '*' || c == '/' || c == '^'

/-- One token further. A bracket behind a name is that of a call. -/
def step (σ : Place × List Bracket) : Token → Option (Place × List Bracket)
  | .number _ => some (.behind, σ.2)
  | .name _ => some (.behindName, σ.2)
  | .opening =>
    if σ.1 = .behindName then some (.argument, .call :: σ.2) else some (.operand, .group :: σ.2)
  | .closing =>
    match σ.2 with
    | [] => none
    | bracket :: outer =>
      if σ.1.isBehind || (σ.1 == .argument && bracket == .call) then some (.behind, outer) else none
  | .comma =>
    match σ.2 with
    | .call :: _ => if σ.1.isBehind then some (.operand, σ.2) else none
    | _ => none
  | .sign c =>
    if σ.1.isBehind then
      if isInnerSign c then some (.operand, σ.2)
      else if c = '\'' then some (.behind, σ.2)
      else if c = '_' then some (.primary, σ.2)
      else none
    else if σ.1 ≠ .primary ∧ isPrefixSign c then some (.operand, σ.2)
    else none

/-- All tokens of a list. -/
def run (σ : Place × List Bracket) (ts : List Token) : Option (Place × List Bracket) := ts.foldlM step σ

theorem run_cons (σ : Place × List Bracket) (t : Token) (ts : List Token) :
    run σ (t :: ts) = (step σ t).bind (run · ts) := by
  unfold run
  rw [List.foldlM_cons]
  rfl

/-- The machine gets behind an operand, and all brackets in `ts` are closed. -/
def Passes (p : Place) (stack : List Bracket) (ts : List Token) : Prop :=
  ∃ q : Place, q.isBehind = true ∧ run (p, stack) ts = some (q, stack)

variable {p q : Place} {stack : List Bracket} {c : Char} {t : Token} {ts us rest : List Token}

theorem step_inner (behind : p.isBehind = true) (inner : isInnerSign c = true) :
    step (p, stack) (.sign c) = some (.operand, stack) := by
  simp [step, behind, inner]

theorem step_prime (behind : p.isBehind = true) :
    step (p, stack) (.sign '\'') = some (.behind, stack) := by
  simp [step, behind, isInnerSign, isPrefixSign]

theorem step_subscript (behind : p.isBehind = true) :
    step (p, stack) (.sign '_') = some (.primary, stack) := by
  simp [step, behind, isInnerSign, isPrefixSign]

theorem step_comma (behind : p.isBehind = true) :
    step (p, .call :: stack) .comma = some (.operand, .call :: stack) := by
  simp [step, behind]

theorem step_closing {bracket : Bracket} (behind : p.isBehind = true) :
    step (p, bracket :: stack) .closing = some (.behind, stack) := by
  cases p with
  | behind | behindName => rfl
  | operand | argument | primary => cases behind

theorem step_sign (start : (p == .operand || p == .argument) = true)
    (sign : isPrefixSign c = true) : step (p, stack) (.sign c) = some (.operand, stack) := by
  cases p with
  | operand | argument => simp [step, Place.isBehind, sign]
  | primary | behind | behindName => cases start

theorem Passes.append (h : Passes p stack ts)
    (rest : ∀ q : Place, q.isBehind = true → Passes q stack us) : Passes p stack (ts ++ us) := by
  obtain ⟨q, behind, first⟩ := h
  obtain ⟨r, behind, later⟩ := rest q behind
  refine ⟨r, behind, ?_⟩
  unfold run at first later ⊢
  rw [List.foldlM_append, first]
  exact later

theorem Passes.cons (h : step (p, stack) t = some (q, stack)) (rest : Passes q stack ts) :
    Passes p stack (t :: ts) := by
  obtain ⟨r, behind, later⟩ := rest
  refine ⟨r, behind, ?_⟩
  rw [run_cons, h]
  exact later

/-- What stands in brackets, up to the closing one. -/
theorem Passes.close {bracket : Bracket} (h : step (p, stack) t = some (q, bracket :: stack))
    (inside : Passes q (bracket :: stack) ts) : Passes p stack (t :: (ts ++ [.closing])) := by
  obtain ⟨r, behind, inside⟩ := inside
  refine ⟨.behind, rfl, ?_⟩
  have last : run (r, bracket :: stack) [.closing] = some (.behind, stack) := by
    rw [run_cons, step_closing behind]
    rfl
  rw [run_cons, h, Option.bind_some]
  unfold run at inside last ⊢
  rw [List.foldlM_append, inside]
  exact last

end Machine

/-! ## 3. The machine goes through every sentence -/

/-- Where a category may start. An operand without a sign may also follow another. -/
def Category.startsAt (k : Category) (p : Place) : Bool :=
  match k with
  | sum | product | unary | arguments => p == .operand || p == .argument
  | power | marked | primary => true
  | terms | factors | marks => p.isBehind

namespace Sentence

open Machine

variable {k : Category} {ts : List Token}

/-- **The machine goes through every sentence**, in whatever way it is derived. -/
theorem runs (h : Sentence k ts) : ∀ (p : Place) (stack : List Bracket), k.startsAt p = true →
    (k = arguments → ∃ inner, stack = .call :: inner) → Passes p stack ts := by
  induction h with
  | noTerms | noFactors | noMarks => exact fun p stack start _ => ⟨p, start, rfl⟩
  | unsigned _ ih | unraised _ ih => exact fun p stack _ _ => ih p stack rfl nofun
  | lastArgument _ ih => exact fun p stack start _ => ih p stack start nofun
  | sum _ _ ih ih' | product _ _ ih ih' =>
    exact fun p stack start _ => (ih p stack start nofun).append fun q behind => ih' q stack behind nofun
  | marked _ _ ih ih' | beside _ _ ih ih' =>
    exact fun p stack _ _ => (ih p stack rfl nofun).append fun q behind => ih' q stack behind nofun
  | plus _ _ ih ih' | minus _ _ ih ih' | times _ _ ih ih' | divided _ _ ih ih' =>
    intro p stack start _
    have operand := (ih .operand stack rfl nofun).append fun q behind => ih' q stack behind nofun
    exact .cons (step_inner start rfl) operand
  | negative _ ih | positive _ ih =>
    exact fun p stack start _ => .cons (step_sign start rfl) (ih .operand stack rfl nofun)
  | raised _ _ ih ih' =>
    exact fun p stack _ _ => (ih p stack rfl nofun).append fun q behind =>
      .cons (step_inner behind rfl) (ih' .operand stack rfl nofun)
  | prime _ ih =>
    exact fun p stack start _ => .cons (step_prime start) (ih .behind stack rfl nofun)
  | subscript _ _ ih ih' =>
    intro p stack start _
    have operand := (ih .primary stack rfl nofun).append fun q behind => ih' q stack behind nofun
    exact .cons (step_subscript start) operand
  | number => exact fun p stack _ _ => ⟨.behind, rfl, rfl⟩
  | name => exact fun p stack _ _ => ⟨.behindName, rfl, rfl⟩
  | bareCall => exact fun p stack _ _ => ⟨.behind, rfl, rfl⟩
  | call _ ih =>
    intro p stack _ _
    have inside := ih .argument (.call :: stack) rfl fun _ => ⟨stack, rfl⟩
    exact .cons (q := .behindName) rfl (.close rfl inside)
  | bracket _ ih =>
    intro p stack _ _
    by_cases name : p = .behindName
    · exact .close (by rw [name]; rfl) (ih .argument (.call :: stack) rfl nofun)
    · exact .close (if_neg name) (ih .operand (.group :: stack) rfl nofun)
  | argument _ _ ih ih' =>
    intro p stack start some
    obtain ⟨inner, rfl⟩ := some rfl
    exact (ih p _ start nofun).append fun q behind =>
      .cons (step_comma behind) (ih' .operand _ rfl fun _ => ⟨inner, rfl⟩)

end Sentence

/-! ## 4. Where the machine gets to the end, the readers do -/

/-- How far up a token is taken: by marks, powers, products, sums, arguments or brackets. -/
def level : Token → Nat
  | .sign c =>
    if c = '^' then 1 else if c = '*' ∨ c = '/' then 2 else if Machine.isPrefixSign c then 3 else 0
  | .number _ | .name _ | .opening => 2
  | .comma => 4
  | .closing => 5

/-- The tokens end, or go on with one that is taken further up. -/
def Stops (n : Nat) (ts : List Token) : Prop := ∀ t ∈ ts.head?, n ≤ level t

theorem stops_zero (ts : List Token) : Stops 0 ts := fun _ _ => Nat.zero_le _

theorem stops_cons {n : Nat} {t : Token} {ts : List Token} : Stops n (t :: ts) ↔ n ≤ level t := by
  simp [Stops]

namespace Phrase

/-- What is known of the next token where a line of the grammar starts. -/
def entry : Phrase → Nat
  | factors _ => 2
  | terms => 3
  | _ => 0

/-- What is known of the next token where a line of the grammar ends. -/
def exit : Phrase → Nat
  | primary => 0
  | marked | marks _ => 1
  | power | unary => 2
  | product | factors _ => 3
  | sum | terms => 4
  | arguments => 5

/-- The place where a line of the grammar starts. -/
def place : Phrase → Place
  | sum | product | unary | arguments => .operand
  | power | marked | primary => .primary
  | marks _ | factors _ | terms => .behind

/-- The category of a line of the grammar. -/
def category : Phrase → Category
  | sum => .sum
  | terms => .terms
  | product => .product
  | factors _ => .factors
  | unary => .unary
  | power => .power
  | marked => .marked
  | marks _ => .marks
  | primary => .primary
  | arguments => .arguments

end Phrase

namespace Machine

/-- The machine gets to the end, behind an operand and with all brackets closed. -/
def Accepts (p : Place) (stack : List Bracket) (ts : List Token) : Prop :=
  ∃ q : Place, q.isBehind = true ∧ run (p, stack) ts = some (q, [])

variable {p q : Place} {stack inner : List Bracket} {t : Token} {ts us rest : List Token}

theorem accepts_nil : Accepts p stack [] ↔ p.isBehind = true ∧ stack = [] := by
  constructor
  · rintro ⟨q, behind, run⟩
    cases run
    exact ⟨behind, rfl⟩
  · rintro ⟨behind, rfl⟩
    exact ⟨p, behind, rfl⟩

theorem accepts_cons : Accepts p stack (t :: ts) ↔
    ∃ q inner, step (p, stack) t = some (q, inner) ∧ Accepts q inner ts := by
  unfold Accepts
  simp only [run_cons]
  cases step (p, stack) t with
  | none => simp
  | some σ =>
    constructor
    · exact fun later => ⟨σ.1, σ.2, rfl, later⟩
    · rintro ⟨q, inner, taken, later⟩
      cases taken
      exact later

theorem Accepts.next (h : Accepts p stack (t :: ts)) (take : step (p, stack) t = some (q, inner)) :
    Accepts q inner ts := by
  obtain ⟨r, other, taken, later⟩ := accepts_cons.mp h
  cases take.symm.trans taken
  exact later

theorem Accepts.not_stuck (h : Accepts p stack (t :: ts)) : step (p, stack) t ≠ none := by
  obtain ⟨r, other, taken, later⟩ := accepts_cons.mp h
  rw [taken]
  nofun

theorem Accepts.congr (h : Accepts p stack (t :: ts)) (same : step (p, stack) t = step (q, stack) t) :
    Accepts q stack (t :: ts) := by
  rw [accepts_cons] at h ⊢
  rwa [← same]

end Machine

namespace Reads

open Machine Phrase

/-- Where the machine gets to the end of tokens that this fuel is enough for, every line of the grammar
    takes its part of them, and the machine gets to the end of the others. -/
def Proceeds (fuel : Nat) : Prop := ∀ (p : Phrase) (ts : List Token) (stack : List Bracket),
  10 * ts.length + p.height ≤ fuel → Stops p.entry ts → (p = .arguments → ∃ inner, stack = .call :: inner) →
    Accepts p.place stack ts → ∃ out rest, Reads p ts out rest ∧ Stops p.exit rest ∧
      Accepts .behind stack rest

/-- What stands in brackets ends with the closing one. -/
theorem exists_closing {stack : List Bracket} {bracket : Bracket} {rest : List Token}
    (h : Accepts .behind (bracket :: stack) rest) (stops : Stops 4 rest)
    (noComma : bracket = .call → rest.head? ≠ some .comma) :
    ∃ us, rest = .closing :: us ∧ Accepts .behind stack us := by
  cases rest with
  | nil => exact absurd (accepts_nil.mp h).2 nofun
  | cons t us =>
    have above : 4 ≤ level t := stops_cons.mp stops
    cases t with
    | closing => exact ⟨us, rfl, h.next (step_closing rfl)⟩
    | comma =>
      cases bracket with
      | call => exact absurd rfl (noComma rfl)
      | group => exact absurd rfl h.not_stuck
    | number _ | name _ | opening => simp [level] at above
    | sign c =>
      simp only [level] at above
      grind

section Step

variable {fuel : Nat} {ts : List Token} {stack : List Bracket} (ih : Proceeds fuel)

include ih

theorem exists_sum (enough : 10 * ts.length + 7 ≤ fuel + 1) (h : Accepts .operand stack ts) :
    ∃ a rest, Reads .sum ts a rest ∧ Stops 4 rest ∧ Accepts .behind stack rest := by
  obtain ⟨a, us, first, stops, h⟩ := ih .product ts stack (by simp only [height]; omega) (stops_zero _) (by simp) h
  have shorter := first.length_le
  simp only [least] at shorter
  obtain ⟨as, rest, later, stops, h⟩ := ih .terms us stack (by simp only [height]; omega) stops (by simp) h
  exact ⟨_, rest, .sum first later, stops, h⟩

theorem exists_terms (enough : 10 * ts.length + 1 ≤ fuel + 1) (entry : Stops 3 ts)
    (h : Accepts .behind stack ts) :
    ∃ as rest, Reads .terms ts as rest ∧ Stops 4 rest ∧ Accepts .behind stack rest := by
  -- a term behind its sign, and the terms that follow
  have term {c : Char} {us : List Token} (same : ts = .sign c :: us) (sign : isPrefixSign c = true) :
      ∃ a vs as rest, Reads .product us a vs ∧ Reads .terms vs as rest ∧ Stops 4 rest ∧
        Accepts .behind stack rest := by
    subst same
    have operand := h.next (step_inner rfl (by simp [isInnerSign, sign]))
    simp only [List.length_cons] at enough
    obtain ⟨a, vs, first, stops, h⟩ :=
      ih .product us stack (by simp only [height]; omega) (stops_zero _) (by simp) operand
    have shorter := first.length_le
    simp only [least] at shorter
    obtain ⟨as, rest, later, stops, h⟩ := ih .terms vs stack (by simp only [height]; omega) stops (by simp) h
    exact ⟨a, vs, as, rest, first, later, stops, h⟩
  by_cases plus : ts.head? = some (.sign '+')
  · obtain ⟨us, rfl⟩ := List.head?_eq_some_iff.mp plus
    obtain ⟨a, vs, as, rest, first, later, end'⟩ := term rfl rfl
    exact ⟨_, rest, .plus first later, end'⟩
  by_cases minus : ts.head? = some (.sign '-')
  · obtain ⟨us, rfl⟩ := List.head?_eq_some_iff.mp minus
    obtain ⟨a, vs, as, rest, first, later, end'⟩ := term rfl rfl
    exact ⟨_, rest, .minus first later, end'⟩
  refine ⟨[], ts, .lastTerm plus minus, fun t ht => ?_, h⟩
  have above := entry t ht
  cases t with
  | sign c =>
    have other : isPrefixSign c = false := by
      rw [ht] at plus minus
      simpa [isPrefixSign] using And.intro plus minus
    simp only [level, other] at above
    grind
  | number _ | name _ | opening => simp [level] at above
  | closing | comma => simp [level]

theorem exists_product (enough : 10 * ts.length + 6 ≤ fuel + 1) (h : Accepts .operand stack ts) :
    ∃ a rest, Reads .product ts a rest ∧ Stops 3 rest ∧ Accepts .behind stack rest := by
  obtain ⟨a, us, first, stops, h⟩ := ih .unary ts stack (by simp only [height]; omega) (stops_zero _) (by simp) h
  have shorter := first.length_le
  simp only [least] at shorter
  obtain ⟨b, rest, later, stops, h⟩ :=
    ih (.factors a) us stack (by simp only [height]; omega) stops (by simp) h
  exact ⟨b, rest, .product first later, stops, h⟩

theorem exists_factors (a : Expr) (enough : 10 * ts.length + 5 ≤ fuel + 1) (entry : Stops 2 ts)
    (h : Accepts .behind stack ts) :
    ∃ b rest, Reads (.factors a) ts b rest ∧ Stops 3 rest ∧ Accepts .behind stack rest := by
  -- an operand, and the factors behind it, which are no more than there is fuel for
  have factor {us : List Token} (short : 10 * us.length + 4 ≤ fuel)
      (operand : Accepts .operand stack us) (combine : Expr → Expr) :
      ∃ b vs c rest, Reads .unary us b vs ∧ Reads (.factors (combine b)) vs c rest ∧ Stops 3 rest ∧
        Accepts .behind stack rest := by
    obtain ⟨b, vs, first, stops, h⟩ :=
      ih .unary us stack (by simp only [height]; omega) (stops_zero _) (by simp) operand
    have shorter := first.length_le
    simp only [least] at shorter
    obtain ⟨c, rest, later, stops, h⟩ :=
      ih (.factors (combine b)) vs stack (by simp only [height]; omega) stops (by simp) h
    exact ⟨b, vs, c, rest, first, later, stops, h⟩
  by_cases times : ts.head? = some (.sign '*')
  · obtain ⟨us, rfl⟩ := List.head?_eq_some_iff.mp times
    rw [List.length_cons] at enough
    obtain ⟨b, vs, c, rest, first, later, end'⟩ :=
      factor (by omega) (h.next (step_inner rfl rfl)) (timesFactor a)
    exact ⟨c, rest, .times first later, end'⟩
  by_cases slash : ts.head? = some (.sign '/')
  · obtain ⟨us, rfl⟩ := List.head?_eq_some_iff.mp slash
    rw [List.length_cons] at enough
    obtain ⟨b, vs, c, rest, first, later, end'⟩ :=
      factor (by omega) (h.next (step_inner rfl rfl)) fun b => op .div [a, b]
    exact ⟨c, rest, .divided first later, end'⟩
  by_cases starts : ∃ t ∈ ts.head?, t.startsOperand = true
  · obtain ⟨t, ht, starts⟩ := starts
    obtain ⟨us, rfl⟩ := List.head?_eq_some_iff.mp ht
    have same : step (.behind, stack) t = step (.operand, stack) t := by
      cases t with
      | number _ | name _ | opening => rfl
      | sign _ | closing | comma => cases starts
    obtain ⟨b, vs, c, rest, first, later, end'⟩ := factor (by omega) (h.congr same) (timesFactor a)
    exact ⟨c, rest, .beside starts first later, end'⟩
  have other : ∀ t ∈ ts.head?, t.startsOperand = false := fun t ht =>
    Bool.eq_false_iff.mpr fun h => starts ⟨t, ht, h⟩
  refine ⟨a, ts, .lastFactor times slash other, fun t ht => ?_, h⟩
  have above := entry t ht
  have kind := other t ht
  rw [ht] at times slash
  cases t with
  | sign c =>
    simp only [level] at above ⊢
    grind
  | number _ | name _ | opening => cases kind
  | closing | comma => simp [level]

theorem exists_unary (enough : 10 * ts.length + 4 ≤ fuel + 1) (h : Accepts .operand stack ts) :
    ∃ a rest, Reads .unary ts a rest ∧ Stops 2 rest ∧ Accepts .behind stack rest := by
  by_cases minus : ts.head? = some (.sign '-')
  · obtain ⟨us, rfl⟩ := List.head?_eq_some_iff.mp minus
    rw [List.length_cons] at enough
    obtain ⟨a, rest, inner, end'⟩ := ih .unary us stack (by simp only [height]; omega) (stops_zero _) (by simp)
      (h.next (step_sign rfl rfl))
    exact ⟨_, rest, .negative inner, end'⟩
  by_cases plus : ts.head? = some (.sign '+')
  · obtain ⟨us, rfl⟩ := List.head?_eq_some_iff.mp plus
    rw [List.length_cons] at enough
    obtain ⟨a, rest, inner, end'⟩ := ih .unary us stack (by simp only [height]; omega) (stops_zero _) (by simp)
      (h.next (step_sign rfl rfl))
    exact ⟨_, rest, .positive inner, end'⟩
  have unsigned : Accepts .primary stack ts := by
    cases ts with
    | nil => exact absurd (accepts_nil.mp h).1 (by decide)
    | cons t ts =>
      refine h.congr ?_
      cases t with
      | number _ | name _ | opening | closing | comma => rfl
      | sign c =>
        have other : isPrefixSign c = false := by
          simpa [isPrefixSign] using And.intro plus minus
        simp [step, Place.isBehind, other]
  obtain ⟨a, rest, inner, end'⟩ :=
    ih .power ts stack (by simp only [height]; omega) (stops_zero _) (by simp) unsigned
  exact ⟨a, rest, .unsigned minus plus inner, end'⟩

theorem exists_power (enough : 10 * ts.length + 3 ≤ fuel + 1) (h : Accepts .primary stack ts) :
    ∃ a rest, Reads .power ts a rest ∧ Stops 2 rest ∧ Accepts .behind stack rest := by
  obtain ⟨a, us, base, stops, h⟩ :=
    ih .marked ts stack (by simp only [height]; omega) (stops_zero _) (by simp) h
  have shorter := base.length_le
  simp only [least] at shorter
  by_cases power : us.head? = some (.sign '^')
  · obtain ⟨vs, rfl⟩ := List.head?_eq_some_iff.mp power
    rw [List.length_cons] at shorter
    obtain ⟨e, rest, exponent, end'⟩ := ih .unary vs stack (by simp only [height]; omega) (stops_zero _) (by simp)
      (h.next (step_inner rfl rfl))
    exact ⟨_, rest, .raised base exponent, end'⟩
  · refine ⟨a, us, .unraised base power, fun t ht => ?_, h⟩
    have above : 1 ≤ level t := stops t ht
    rw [ht] at power
    cases t with
    | sign c =>
      simp only [level] at above ⊢
      grind
    | number _ | name _ | opening | closing | comma => simp [level]

theorem exists_marked (enough : 10 * ts.length + 2 ≤ fuel + 1) (h : Accepts .primary stack ts) :
    ∃ a rest, Reads .marked ts a rest ∧ Stops 1 rest ∧ Accepts .behind stack rest := by
  obtain ⟨a, us, first, -, h⟩ :=
    ih .primary ts stack (by simp only [height]; omega) (stops_zero _) (by simp) h
  have shorter := first.length_le
  simp only [least] at shorter
  obtain ⟨b, rest, later, stops, h⟩ :=
    ih (.marks a) us stack (by simp only [height]; omega) (stops_zero _) (by simp) h
  exact ⟨b, rest, .marked first later, stops, h⟩

theorem exists_marks (a : Expr) (enough : 10 * ts.length + 1 ≤ fuel + 1) (h : Accepts .behind stack ts) :
    ∃ b rest, Reads (.marks a) ts b rest ∧ Stops 1 rest ∧ Accepts .behind stack rest := by
  by_cases prime : ts.head? = some (.sign '\'')
  · obtain ⟨us, rfl⟩ := List.head?_eq_some_iff.mp prime
    rw [List.length_cons] at enough
    obtain ⟨b, rest, later, end'⟩ := ih (.marks (op .prime [a])) us stack (by simp only [height]; omega)
      (stops_zero _) (by simp) (h.next (step_prime rfl))
    exact ⟨b, rest, .prime later, end'⟩
  by_cases subscript : ts.head? = some (.sign '_')
  · obtain ⟨us, rfl⟩ := List.head?_eq_some_iff.mp subscript
    rw [List.length_cons] at enough
    obtain ⟨b, vs, first, -, h⟩ := ih .primary us stack (by simp only [height]; omega) (stops_zero _) (by simp)
      (h.next (step_subscript rfl))
    have shorter := first.length_le
    simp only [least] at shorter
    obtain ⟨c, rest, later, end'⟩ := ih (.marks (op .subscript [a, b])) vs stack
      (by simp only [height]; omega) (stops_zero _) (by simp) h
    exact ⟨c, rest, .subscript first later, end'⟩
  refine ⟨a, ts, .lastMark prime subscript, fun t ht => ?_, h⟩
  obtain ⟨us, rfl⟩ := List.head?_eq_some_iff.mp ht
  cases t with
  | sign c =>
    have taken := h.not_stuck
    simp only [step, Place.isBehind, if_true] at taken
    simp only [level, isInnerSign] at taken ⊢
    grind
  | number _ | name _ | opening | closing | comma => simp [level]

theorem exists_primary (enough : 10 * ts.length + 1 ≤ fuel + 1) (h : Accepts .primary stack ts) :
    ∃ a rest, Reads .primary ts a rest ∧ Stops 0 rest ∧ Accepts .behind stack rest := by
  match ts, h, enough with
  | [], h, _ => exact absurd (accepts_nil.mp h).1 (by decide)
  | .number digits :: us, h, _ => exact ⟨_, us, .number, stops_zero _, h.next rfl⟩
  | .sign c :: us, h, _ => exact absurd (by simp [step, Place.isBehind]) h.not_stuck
  | .closing :: us, h, _ => exact absurd (by cases stack <;> rfl) h.not_stuck
  | .comma :: us, h, _ =>
    refine absurd ?_ h.not_stuck
    match stack with
    | [] | .group :: _ | .call :: _ => rfl
  | .opening :: us, h, enough =>
    rw [List.length_cons] at enough
    have inside : Accepts .operand (.group :: stack) us := h.next rfl
    obtain ⟨a, vs, inner, stops, h⟩ :=
      ih .sum us _ (by simp only [height]; omega) (stops_zero _) (by simp) inside
    obtain ⟨rest, rfl, h⟩ := exists_closing h stops (by simp)
    exact ⟨a, rest, .bracket inner, stops_zero _, h⟩
  | .name x :: us, h, enough =>
    rw [List.length_cons] at enough
    have behind : Accepts .behindName stack us := h.next rfl
    by_cases call : us.head? = some .opening
    · obtain ⟨vs, rfl⟩ := List.head?_eq_some_iff.mp call
      rw [List.length_cons] at enough
      have inside : Accepts .argument (.call :: stack) vs := behind.next rfl
      by_cases bare : vs.head? = some .closing
      · obtain ⟨rest, rfl⟩ := List.head?_eq_some_iff.mp bare
        exact ⟨_, rest, .bareCall, stops_zero _, inside.next rfl⟩
      · have operand : Accepts .operand (.call :: stack) vs := by
          cases vs with
          | nil => exact absurd (accepts_nil.mp inside).1 (by decide)
          | cons t vs =>
            refine inside.congr ?_
            cases t with
            | closing => exact absurd rfl bare
            | number _ | name _ | opening | comma => rfl
            | sign c => simp [step, Place.isBehind]
        obtain ⟨as, ws, inner, stops, h⟩ := ih .arguments vs _ (by simp only [height]; omega) (stops_zero _)
          (fun _ => ⟨stack, rfl⟩) operand
        have stops : Stops 5 ws := stops
        obtain ⟨rest, rfl, h⟩ := exists_closing h (fun t ht => Nat.le_of_succ_le (stops t ht))
          fun _ comma => absurd (stops .comma comma) (by decide)
        exact ⟨_, rest, .call inner, stops_zero _, h⟩
    · refine ⟨_, us, .name call, stops_zero _, ?_⟩
      cases us with
      | nil => exact accepts_nil.mpr ⟨rfl, (accepts_nil.mp behind).2⟩
      | cons t us =>
        refine behind.congr ?_
        cases t with
        | opening => exact absurd rfl call
        | number _ | name _ | comma => rfl
        | closing => cases stack <;> rfl
        | sign c => simp [step, Place.isBehind]

theorem exists_arguments (enough : 10 * ts.length + 8 ≤ fuel + 1)
    (h : Accepts .operand (.call :: stack) ts) :
    ∃ as rest, Reads .arguments ts as rest ∧ Stops 5 rest ∧ Accepts .behind (.call :: stack) rest := by
  obtain ⟨a, us, first, stops, h⟩ := ih .sum ts _ (by simp only [height]; omega) (stops_zero _) (by simp) h
  have shorter := first.length_le
  simp only [least] at shorter
  by_cases comma : us.head? = some .comma
  · obtain ⟨vs, rfl⟩ := List.head?_eq_some_iff.mp comma
    rw [List.length_cons] at shorter
    obtain ⟨as, rest, later, end'⟩ := ih .arguments vs _ (by simp only [height]; omega) (stops_zero _)
      (fun _ => ⟨stack, rfl⟩) (h.next (step_comma rfl))
    exact ⟨_, rest, .argument first later, end'⟩
  · obtain ⟨vs, rfl, -⟩ := exists_closing h stops fun _ => comma
    exact ⟨_, _, .lastArgument first comma, stops_cons.mpr (Nat.le_refl 5), h⟩

end Step

/-- **Where the machine gets to the end, every line of the grammar takes its part.** -/
theorem of_accepts : ∀ fuel, Proceeds fuel
  | 0, p, ts, stack, enough, _, _, _ => by
    have positive : 1 ≤ p.height := by cases p <;> simp [height]
    omega
  | fuel + 1, p, ts, stack, enough, entry, inCall, h => by
    have ih := of_accepts fuel
    cases p with
    | sum => exact exists_sum ih enough h
    | terms => exact exists_terms ih enough entry h
    | product => exact exists_product ih enough h
    | factors a => exact exists_factors ih a enough entry h
    | unary => exact exists_unary ih enough h
    | power => exact exists_power ih enough h
    | marked => exact exists_marked ih enough h
    | marks a => exact exists_marks ih a enough h
    | primary => exact exists_primary ih enough h
    | arguments =>
      obtain ⟨inner, rfl⟩ := inCall rfl
      exact exists_arguments ih enough h

end Reads

/-! ## 5. What a reader takes is a sentence -/

theorem Sentence.power_of_startsOperand {us rest : List Token} {t : Token} {ts : List Token}
    (h : Sentence .unary us) (same : t :: ts = us ++ rest) (starts : t.startsOperand = true) :
    Sentence .power us := by
  cases h with
  | unsigned inner => exact inner
  | negative _ | positive _ =>
    cases same
    cases starts

/-- **What a line of the grammar takes is a sentence.** -/
theorem Reads.exists_sentence {p : Phrase} {ts rest : List Token} {out : p.Answer}
    (h : Reads p ts out rest) : ∃ us, ts = us ++ rest ∧ Sentence p.category us := by
  induction h with
  | lastTerm => exact ⟨[], rfl, .noTerms⟩
  | lastFactor => exact ⟨[], rfl, .noFactors⟩
  | lastMark => exact ⟨[], rfl, .noMarks⟩
  | number => exact ⟨_, rfl, .number⟩
  | name _ => exact ⟨[_], rfl, .name⟩
  | bareCall => exact ⟨[_, _, _], rfl, .bareCall⟩
  | unsigned _ _ _ ih =>
    obtain ⟨us, rfl, inner⟩ := ih
    exact ⟨us, rfl, .unsigned inner⟩
  | unraised _ _ ih =>
    obtain ⟨us, rfl, inner⟩ := ih
    exact ⟨us, rfl, .unraised inner⟩
  | lastArgument _ _ ih =>
    obtain ⟨us, rfl, inner⟩ := ih
    exact ⟨us, rfl, .lastArgument inner⟩
  | negative _ ih =>
    obtain ⟨us, rfl, inner⟩ := ih
    exact ⟨_ :: us, rfl, .negative inner⟩
  | positive _ ih =>
    obtain ⟨us, rfl, inner⟩ := ih
    exact ⟨_ :: us, rfl, .positive inner⟩
  | prime _ ih =>
    obtain ⟨us, rfl, inner⟩ := ih
    exact ⟨_ :: us, rfl, .prime inner⟩
  | bracket _ ih =>
    obtain ⟨us, rfl, inner⟩ := ih
    exact ⟨_, by simp, .bracket inner⟩
  | @call f _ _ _ _ ih =>
    obtain ⟨us, rfl, inner⟩ := ih
    exact ⟨.name f :: .opening :: (us ++ [Token.closing]), by simp, Sentence.call inner⟩
  | sum _ _ ih ih' =>
    obtain ⟨us, rfl, first⟩ := ih
    obtain ⟨vs, rfl, later⟩ := ih'
    exact ⟨us ++ vs, by simp, .sum first later⟩
  | product _ _ ih ih' =>
    obtain ⟨us, rfl, first⟩ := ih
    obtain ⟨vs, rfl, later⟩ := ih'
    exact ⟨us ++ vs, by simp, .product first later⟩
  | marked _ _ ih ih' =>
    obtain ⟨us, rfl, first⟩ := ih
    obtain ⟨vs, rfl, later⟩ := ih'
    exact ⟨us ++ vs, by simp, .marked first later⟩
  | beside starts _ _ ih ih' =>
    obtain ⟨us, same, first⟩ := ih
    obtain ⟨vs, rfl, later⟩ := ih'
    exact ⟨us ++ vs, by simpa using same, .beside (first.power_of_startsOperand same starts) later⟩
  | plus _ _ ih ih' =>
    obtain ⟨us, rfl, first⟩ := ih
    obtain ⟨vs, rfl, later⟩ := ih'
    exact ⟨_ :: (us ++ vs), by simp, .plus first later⟩
  | minus _ _ ih ih' =>
    obtain ⟨us, rfl, first⟩ := ih
    obtain ⟨vs, rfl, later⟩ := ih'
    exact ⟨_ :: (us ++ vs), by simp, .minus first later⟩
  | times _ _ ih ih' =>
    obtain ⟨us, rfl, first⟩ := ih
    obtain ⟨vs, rfl, later⟩ := ih'
    exact ⟨_ :: (us ++ vs), by simp, .times first later⟩
  | divided _ _ ih ih' =>
    obtain ⟨us, rfl, first⟩ := ih
    obtain ⟨vs, rfl, later⟩ := ih'
    exact ⟨_ :: (us ++ vs), by simp, .divided first later⟩
  | subscript _ _ ih ih' =>
    obtain ⟨us, rfl, first⟩ := ih
    obtain ⟨vs, rfl, later⟩ := ih'
    exact ⟨_ :: (us ++ vs), by simp, .subscript first later⟩
  | raised _ _ ih ih' =>
    obtain ⟨us, rfl, base⟩ := ih
    obtain ⟨vs, rfl, exponent⟩ := ih'
    exact ⟨_, by simp, .raised base exponent⟩
  | argument _ _ ih ih' =>
    obtain ⟨us, rfl, first⟩ := ih
    obtain ⟨vs, rfl, later⟩ := ih'
    exact ⟨_, by simp, .argument first later⟩

/-- **The readers take exactly the sums of the grammar.** -/
theorem exists_reads_iff {ts : List Token} : (∃ a, Reads .sum ts a []) ↔ Sentence .sum ts := by
  constructor
  · rintro ⟨a, h⟩
    obtain ⟨us, rfl, inner⟩ := h.exists_sentence
    rwa [List.append_nil]
  · intro h
    obtain ⟨a, rest, reads, stops, behind⟩ := Reads.of_accepts _ .sum ts [] (Nat.le_refl _) (stops_zero _)
      (by simp) (h.runs .operand [] rfl (by simp))
    have stops : Stops 4 rest := stops
    -- no bracket is open, so no token is left
    match rest, stops, behind with
    | [], _, _ => exact ⟨a, reads⟩
    | .closing :: _, _, behind => exact absurd rfl behind.not_stuck
    | .comma :: _, _, behind => exact absurd rfl behind.not_stuck
    | .number _ :: _, stops, _ | .name _ :: _, stops, _ | .opening :: _, stops, _ =>
      exact absurd (stops_cons.mp stops) (by simp [level])
    | .sign c :: _, stops, _ =>
      have above := stops_cons.mp stops
      simp only [level] at above
      grind

end Expr

end Eliminant
