import Eliminant.Proofs.Expr.Parsed
import Eliminant.Proofs.Expr.Roundtrip
import Eliminant.Proofs.Expr.Sentence

/-!
# Which texts are read

A text is read if and only if it can be cut into tokens, and these are a sum of the grammar
(**`parse_accepts`**). A text that is not read is refused at one of its tokens or at its end: a reader that
fails leaves an end of the tokens that it was given, and fuel is never used up (`Reads.lasts`).
-/

namespace Eliminant

namespace Expr

open Phrase

/-! ## 1. Where a reader fails -/

/-- What has failed in two steps. -/
theorem read_bind_error {α β : Type} {x : Except ReadError α} {f : α → Except ReadError β} {e : ReadError}
    (h : (x >>= f) = .error e) : x = .error e ∨ ∃ a, x = .ok a ∧ f a = .error e := by
  cases x with
  | error _ =>
    cases h
    exact .inl rfl
  | ok a => exact .inr ⟨a, rfl, h⟩

/-- **A failure at a token or at the end**, and not for want of fuel. -/
def FailsWithin (ts : List Token) (e : ReadError) : Prop := e.1 ≠ .tooDeep ∧ e.2 <:+ ts

/-- A reader that starts within a text stays within it: it leaves an end of the tokens that it was given. -/
def StaysWithin {α : Type} (ts : List Token) : Except ReadError (α × List Token) → Prop
  | .ok (_, rest) => rest <:+ ts
  | .error e => FailsWithin ts e

theorem FailsWithin.mono {ts us : List Token} {e : ReadError} (h : FailsWithin us e) (part : us <:+ ts) :
    FailsWithin ts e := ⟨h.1, h.2.trans part⟩

namespace Reads

/-- This fuel is enough for what every line of the grammar reads. -/
def Lasts (fuel : Nat) : Prop := ∀ (p : Phrase) (ts : List Token) (e : ReadError),
  10 * ts.length + p.height ≤ fuel → p.read fuel ts = .error e → FailsWithin ts e

section Step

variable {fuel : Nat} {ts : List Token} {e : ReadError} (ih : Lasts fuel)

include ih

/-- A line that starts with another one, which takes a token. -/
theorem fails_first (first : Phrase) {β : Type} {next : first.Answer × List Token → Except ReadError β}
    (needed : first.least = 1) (enough : 10 * ts.length + first.height ≤ fuel)
    (later : ∀ a us, us.length < ts.length → next (a, us) = .error e → FailsWithin us e)
    (h : (first.read fuel ts >>= next) = .error e) : FailsWithin ts e := by
  obtain h | ⟨⟨a, us⟩, run, h⟩ := read_bind_error h
  · exact ih first ts e enough h
  · have taken := of_read fuel first ts a us run
    have shorter := taken.length_le
    exact (later a us (by omega) h).mono taken.suffix

theorem fails_readSum (enough : 10 * ts.length + 7 ≤ fuel + 1)
    (h : readSum (fuel + 1) ts = .error e) : FailsWithin ts e := by
  refine fails_first ih .product rfl (by simp only [height]; omega) (fun a us shorter h => ?_) h
  obtain h | ⟨_, -, h⟩ := read_bind_error h
  · exact ih .terms us e (by simp only [height]; omega) h
  · cases h

theorem fails_readTerms (enough : 10 * ts.length + 1 ≤ fuel + 1)
    (h : readTerms (fuel + 1) ts = .error e) : FailsWithin ts e := by
  -- a term and the terms that follow
  have term {us : List Token} {f : Expr → Expr} (short : 10 * us.length + 6 ≤ fuel)
      (h : (readProduct fuel us >>= fun r => readTerms fuel r.2 >>= fun r' =>
        .ok (f r.1 :: r'.1, r'.2)) = .error e) : FailsWithin us e := by
    refine fails_first ih .product rfl (by simp only [height]; omega) (fun a vs shorter h => ?_) h
    obtain h | ⟨_, -, h⟩ := read_bind_error h
    · exact ih .terms vs e (by simp only [height]; omega) h
    · cases h
  unfold readTerms at h
  split at h
  · simp only [List.length_cons] at enough
    exact (term (f := id) (by omega) h).mono (List.suffix_cons _ _)
  · simp only [List.length_cons] at enough
    exact (term (f := negated) (by omega) h).mono (List.suffix_cons _ _)
  · cases h

theorem fails_readProduct (enough : 10 * ts.length + 6 ≤ fuel + 1)
    (h : readProduct (fuel + 1) ts = .error e) : FailsWithin ts e :=
  fails_first ih .unary rfl (by simp only [height]; omega)
    (fun a us shorter h => ih (.factors a) us e (by simp only [height]; omega) h) h

theorem fails_readFactors (a : Expr) (enough : 10 * ts.length + 5 ≤ fuel + 1)
    (h : readFactors (fuel + 1) a ts = .error e) : FailsWithin ts e := by
  -- an operand and the factors behind it
  have factor {us : List Token} {f : Expr → Expr} (short : 10 * us.length + 4 ≤ fuel)
      (h : (readUnary fuel us >>= fun r => readFactors fuel (f r.1) r.2) = .error e) : FailsWithin us e :=
    fails_first ih .unary rfl (by simp only [height]; omega)
      (fun b vs shorter h => ih (.factors (f b)) vs e (by simp only [height]; omega) h) h
  unfold readFactors at h
  split at h
  · simp only [List.length_cons] at enough
    exact (factor (by omega) h).mono (List.suffix_cons _ _)
  · simp only [List.length_cons] at enough
    exact (factor (f := fun b => op .div [a, b]) (by omega) h).mono (List.suffix_cons _ _)
  · split at h
    · exact factor (by omega) h
    · cases h
  · cases h

theorem fails_readUnary (enough : 10 * ts.length + 4 ≤ fuel + 1)
    (h : readUnary (fuel + 1) ts = .error e) : FailsWithin ts e := by
  unfold readUnary at h
  split at h
  · simp only [List.length_cons] at enough
    obtain h | ⟨_, -, h⟩ := read_bind_error h
    · exact (ih .unary _ e (by simp only [height]; omega) h).mono (List.suffix_cons _ _)
    · cases h
  · simp only [List.length_cons] at enough
    exact (ih .unary _ e (by simp only [height]; omega) h).mono (List.suffix_cons _ _)
  · exact ih .power ts e (by simp only [height]; omega) h

theorem fails_readPower (enough : 10 * ts.length + 3 ≤ fuel + 1)
    (h : readPower (fuel + 1) ts = .error e) : FailsWithin ts e := by
  refine fails_first ih .marked rfl (by simp only [height]; omega) (fun a us shorter h => ?_) h
  dsimp only at h
  split at h
  · simp only [List.length_cons] at shorter
    obtain h | ⟨_, -, h⟩ := read_bind_error h
    · exact (ih .unary _ e (by simp only [height]; omega) h).mono (List.suffix_cons _ _)
    · cases h
  · cases h

theorem fails_readPostfix (enough : 10 * ts.length + 2 ≤ fuel + 1)
    (h : readPostfix (fuel + 1) ts = .error e) : FailsWithin ts e :=
  fails_first ih .primary rfl (by simp only [height]; omega)
    (fun a us shorter h => ih (.marks a) us e (by simp only [height]; omega) h) h

theorem fails_readMarks (a : Expr) (enough : 10 * ts.length + 1 ≤ fuel + 1)
    (h : readMarks (fuel + 1) a ts = .error e) : FailsWithin ts e := by
  unfold readMarks at h
  split at h
  · simp only [List.length_cons] at enough
    exact (ih (.marks _) _ e (by simp only [height]; omega) h).mono (List.suffix_cons _ _)
  · simp only [List.length_cons] at enough
    exact (fails_first ih .primary rfl (by simp only [height]; omega)
      (fun b us shorter h => ih (.marks _) us e (by simp only [height]; omega) h) h).mono
        (List.suffix_cons _ _)
  · cases h

theorem fails_readPrimary (enough : 10 * ts.length + 1 ≤ fuel + 1)
    (h : readPrimary (fuel + 1) ts = .error e) : FailsWithin ts e := by
  unfold readPrimary at h
  split at h
  · cases h
    exact ⟨by simp, List.suffix_rfl⟩
  · cases h
  · cases h
  · simp only [List.length_cons] at enough
    refine FailsWithin.mono ?_ (List.suffix_append [_, _] _)
    refine fails_first ih .arguments rfl (by simp only [height]; omega) (fun as us _ h => ?_) h
    dsimp only at h
    split at h
    · cases h
    · cases h
      exact ⟨by simp, List.suffix_rfl⟩
  · cases h
  · simp only [List.length_cons] at enough
    refine FailsWithin.mono ?_ (List.suffix_cons _ _)
    refine fails_first ih .sum rfl (by simp only [height]; omega) (fun a us _ h => ?_) h
    dsimp only at h
    split at h
    · cases h
    · cases h
      exact ⟨by simp, List.suffix_rfl⟩
  · cases h
    exact ⟨by simp, List.suffix_cons _ _⟩

theorem fails_readArguments (enough : 10 * ts.length + 8 ≤ fuel + 1)
    (h : readArguments (fuel + 1) ts = .error e) : FailsWithin ts e := by
  refine fails_first ih .sum rfl (by simp only [height]; omega) (fun a us shorter h => ?_) h
  dsimp only at h
  split at h
  · simp only [List.length_cons] at shorter
    obtain h | ⟨_, -, h⟩ := read_bind_error h
    · exact (ih .arguments _ e (by simp only [height]; omega) h).mono (List.suffix_cons _ _)
    · cases h
  · cases h

end Step

/-- **Fuel is never used up**, and what a failing reader leaves is an end of what it was given. -/
theorem lasts : ∀ fuel, Lasts fuel
  | 0, p, ts, e, enough, _ => by
    have positive : 1 ≤ p.height := by cases p <;> simp [height]
    omega
  | fuel + 1, p, ts, e, enough, h => by
    have ih := lasts fuel
    cases p with
    | sum => exact fails_readSum ih enough h
    | terms => exact fails_readTerms ih enough h
    | product => exact fails_readProduct ih enough h
    | factors a => exact fails_readFactors ih a enough h
    | unary => exact fails_readUnary ih enough h
    | power => exact fails_readPower ih enough h
    | marked => exact fails_readPostfix ih enough h
    | marks a => exact fails_readMarks ih a enough h
    | primary => exact fails_readPrimary ih enough h
    | arguments => exact fails_readArguments ih enough h

end Reads

/-- **Every reader stays within the text**, whatever it answers. -/
theorem staysWithin_read (p : Phrase) (ts : List Token) (fuel : Nat) (enough : 10 * ts.length + p.height ≤ fuel) :
    StaysWithin ts (p.read fuel ts) := by
  cases run : p.read fuel ts with
  | ok r => exact (Reads.of_read fuel p ts r.1 r.2 run).suffix
  | error e => exact Reads.lasts fuel p ts e enough run

/-- Tokens that are no expression are refused at one of them, or at their end. -/
theorem ofTokens_fails {ts : List Token} {e : ReadError} (h : ofTokens ts = .error e) : FailsWithin ts e := by
  obtain h | ⟨⟨a, us⟩, run, h⟩ := read_bind_error h
  · exact Reads.lasts (10 * (ts.length + 1)) .sum ts e (by simp only [height]; omega) h
  · have left := (Reads.of_read (10 * (ts.length + 1)) .sum ts a us run).suffix
    cases us with
    | nil => cases h
    | cons t rest =>
      cases h
      exact ⟨by simp, left⟩

/-! ## 2. Whole texts -/

/-- What the readers put together is well formed. -/
theorem Parsed.wellFormed {a : Expr} (h : Parsed a) : a.malformed? = none := by
  induction h with
  | int _ | var _ => rfl
  | call _ _ ih => exact malformed?_call.mpr ih
  | add _ _ many ih ih' | mul _ _ _ many ih ih' =>
    obtain ⟨b, bs, rfl⟩ := List.exists_cons_of_ne_nil many
    exact malformed?_op.mpr ⟨by simp [Operator.accepts, Operator.arity], List.forall_mem_cons.mpr ⟨ih, ih'⟩⟩
  | div _ _ ih ih' | pow _ _ ih ih' | subscript _ _ ih ih' =>
    exact malformed?_op.mpr ⟨rfl, by simp [ih, ih']⟩
  | neg _ _ ih | prime _ ih => exact malformed?_op.mpr ⟨rfl, by simp [ih]⟩

theorem exists_ofTokens_iff {ts : List Token} : (∃ a, ofTokens ts = .ok a) ↔ Sentence .sum ts :=
  (exists_congr fun _ => ofTokens_iff).trans exists_reads_iff

/-- What is read of a text that has been cut. -/
theorem exists_parse_iff {s : String} {ls : List Lexeme} {last : Position}
    (cut : Lexeme.ofText s = .ok (ls, last)) :
    (∃ a, parse s = .ok a) ↔ ls ≠ [] ∧ Sentence .sum (ls.map (·.token)) := by
  rw [← exists_ofTokens_iff]
  cases ls with
  | nil =>
    have empty : parse s = .error .empty := by
      unfold parse
      rw [cut]
    simp [empty]
  | cons l ls =>
    rw [and_iff_right (List.cons_ne_nil l ls)]
    constructor
    · rintro ⟨a, h⟩
      unfold parse at h
      rw [cut] at h
      dsimp only at h
      split at h
      · rename_i b read
        exact ⟨b, read⟩
      · split at h <;> cases h
    · rintro ⟨a, read⟩
      exact ⟨a, parse_of_lexemes cut read⟩

/-- A text that is not read is refused at one of its tokens or at its end. -/
theorem position_of_parse {s : String} {why : SyntaxError} {p : Position}
    (h : parse s = .error (.syntaxError why p)) : why ≠ .tooDeep ∧
      ∃ ls last, Lexeme.ofText s = .ok (ls, last) ∧ (p = last ∨ ∃ l ∈ ls, p = l.position) := by
  unfold parse at h
  split at h
  · cases h
  · cases h
  · rename_i ls last _ cut
    split at h
    · cases h
    · rename_i rest read
      have fails := ofTokens_fails read
      split at h
      · cases h
        exact ⟨fails.1, ls, _, cut, .inl rfl⟩
      · rename_i l _ left
        cases h
        have mem : l ∈ ls := List.mem_of_mem_drop (left ▸ List.mem_cons_self)
        exact ⟨fails.1, ls, last, cut, .inr ⟨l, mem, rfl⟩⟩

/-- **A text is read if and only if it can be cut into tokens that are a sum of the grammar.** What is read is
    well formed. Every reader comes to an end within the text; and what is not read is refused at a token or
    at the end of the text. -/
theorem parse_accepts (s : String) :
    ((∃ a, parse s = .ok a) ↔ ∃ ts, Lexeme.Cuts s.toList ts ∧ ts ≠ [] ∧ Sentence .sum ts) ∧
      (∀ a, parse s = .ok a → a.malformed? = none) ∧
      (∀ (p : Phrase) (ts : List Token) (fuel : Nat), 10 * ts.length + p.height ≤ fuel →
        StaysWithin ts (p.read fuel ts)) ∧
      ∀ why p, parse s = .error (.syntaxError why p) → why ≠ .tooDeep ∧
        ∃ ls last, Lexeme.ofText s = .ok (ls, last) ∧ (p = last ∨ ∃ l ∈ ls, p = l.position) := by
  refine ⟨⟨fun h => ?_, ?_⟩, fun a h => (parsed_of_parse h).wellFormed, staysWithin_read,
    fun why p => position_of_parse⟩
  · cases cut : Lexeme.ofText s with
    | error stray =>
      obtain ⟨a, h⟩ := h
      unfold parse at h
      rw [cut] at h
      cases h
    | ok r =>
      obtain ⟨ls, last⟩ := r
      obtain ⟨some, sum⟩ := (exists_parse_iff cut).mp h
      exact ⟨_, Lexeme.ofText_iff.mp ⟨ls, last, cut, rfl⟩, by simpa using some, sum⟩
  · rintro ⟨ts, cuts, some, sum⟩
    obtain ⟨ls, last, cut, rfl⟩ := Lexeme.ofText_iff.mpr cuts
    exact (exists_parse_iff cut).mpr ⟨by simpa using some, sum⟩

/-- `f(x)` is derived as the product of `f` and `(x)`, and so it is read, though not as a product. `f(,x)` is
    refused at the comma. -/
theorem parse_accepts_at :
    let ts : List Token := [.name "f", .opening, .name "x", .closing]
    Lexeme.Cuts "f(x)".toList ts ∧ Sentence .sum ts ∧ (∃ a, parse "f(x)" = .ok a) ∧
      (∀ a, parse "f(x)" = .ok a → a.malformed? = none) ∧
      parse "f(,x)" = .error (.syntaxError (.unexpected .comma) ⟨1, 4⟩) ∧
      ¬ ∃ us, Lexeme.Cuts "f(,x)".toList us ∧ us ≠ [] ∧ Sentence .sum us := by
  intro ts
  have cuts : Lexeme.Cuts "f(x)".toList ts :=
    Lexeme.ofText_iff.mp ⟨[⟨.name "f", ⟨1, 1⟩⟩, ⟨.opening, ⟨1, 2⟩⟩, ⟨.name "x", ⟨1, 3⟩⟩, ⟨.closing, ⟨1, 4⟩⟩],
      ⟨1, 5⟩, rfl, rfl⟩
  have factor (x : String) : Sentence .power [.name x] := .unraised (.marked .name .noMarks)
  have inner : Sentence .sum [.name "x"] := .sum (.product (.unsigned (factor "x")) .noFactors) .noTerms
  have bracket : Sentence .power [.opening, .name "x", .closing] :=
    .unraised (.marked (.bracket inner) .noMarks)
  have sum : Sentence .sum ts :=
    .sum (.product (.unsigned (factor "f")) (.beside bracket .noFactors)) .noTerms
  have refused : parse "f(,x)" = .error (.syntaxError (.unexpected .comma) ⟨1, 4⟩) := by decide +kernel
  obtain ⟨accepts, wellFormed, -, -⟩ := parse_accepts "f(x)"
  refine ⟨cuts, sum, accepts.mpr ⟨ts, cuts, nofun, sum⟩, wellFormed, refused, fun derived => ?_⟩
  obtain ⟨a, read⟩ := (parse_accepts "f(,x)").1.mpr derived
  cases refused.symm.trans read

end Expr

end Eliminant
