import Eliminant.Failure
import Mathlib.Data.List.Forall2

/-!
# Outcomes: what an operation answers, and which failures may stand in its place

A statement about an operation that can fail has two halves: what holds of its answer, and which
failures are possible at all. `Answers F P r` says both at once -- `r` is an answer with `P`, or a
failure that `F` admits -- so a guard that never fires is one that no admitted failure names.

* `Failure.IsOverflow`: an exponent did not fit; the only failure of the arithmetic on consistent
  sums;
* `Failure.IsLimit`: an exponent did not fit, the budget was used up or the computation was
  cancelled; the only failures of a completion.
-/

namespace Eliminant

variable {α β : Type} {F G : Failure → Prop} {P Q : α → Prop} {r : Except Failure α}

/-- `r` is an answer with `P`, or a failure that `F` admits. -/
def Answers (F : Failure → Prop) (P : α → Prop) : Except Failure α → Prop
  | .ok a => P a
  | .error e => F e

/-- An exponent did not fit. -/
def Failure.IsOverflow (e : Failure) : Prop := e = .exponentOverflow

/-- An exponent did not fit, or the allowed effort was used up. -/
def Failure.IsLimit (e : Failure) : Prop :=
  e = .exponentOverflow ∨ (∃ steps, e = .budgetExceeded steps) ∨ e = .aborted

theorem Failure.IsOverflow.isLimit {e : Failure} (h : e.IsOverflow) : e.IsLimit := Or.inl h

namespace Answers

theorem of_ok (h : Answers F P r) {a : α} (ha : r = .ok a) : P a := by
  subst ha
  exact h

theorem of_error (h : Answers F P r) {e : Failure} (he : r = .error e) : F e := by
  subst he
  exact h

theorem mono (h : Answers F P r) (hF : ∀ e, F e → G e) (hP : ∀ a, P a → Q a) : Answers G Q r := by
  cases r with
  | ok a => exact hP a h
  | error e => exact hF e h

theorem imp (h : Answers F P r) (hP : ∀ a, P a → Q a) : Answers F Q r := h.mono (fun _ => id) hP

/-- Two statements about one operation. -/
theorem and (h : Answers F P r) (h' : Answers G Q r) :
    Answers (fun e => F e ∧ G e) (fun a => P a ∧ Q a) r := by
  cases r with
  | ok a => exact ⟨h, h'⟩
  | error e => exact ⟨h, h'⟩

/-- An answer is what the operation answers. -/
theorem with_run (h : Answers F P r) : Answers F (fun a => r = .ok a ∧ P a) r := by
  cases r with
  | ok a => exact ⟨rfl, h⟩
  | error e => exact h

/-- A failure of the arithmetic is one of a completion. -/
theorem isLimit (h : Answers Failure.IsOverflow P r) : Answers Failure.IsLimit P r :=
  h.mono (fun _ => Failure.IsOverflow.isLimit) fun _ => id

/-- Whatever the failures are. -/
theorem any (h : Answers F P r) : Answers (fun _ => True) P r :=
  h.mono (fun _ _ => trivial) fun _ => id

/-- An operation of which nothing is said. -/
theorem all (r : Except Failure α) : Answers (fun _ => True) (fun _ => True) r := by
  cases r <;> trivial

/-- **One operation after another.** -/
theorem bind {Q : β → Prop} {f : α → Except Failure β} (h : Answers F P r)
    (hf : ∀ a, P a → Answers F Q (f a)) : Answers F Q (r >>= f) := by
  cases r with
  | ok a => exact hf a h
  | error e => exact h

/-- **An operation on every entry of a list.** -/
theorem mapM {R : α → β → Prop} {f : α → Except Failure β} :
    ∀ {as : List α}, (∀ a ∈ as, Answers F (R a) (f a)) → Answers F (List.Forall₂ R as) (as.mapM f)
  | [], _ => List.Forall₂.nil
  | a :: as, h => by
    rw [List.mapM_cons]
    refine (h a List.mem_cons_self).bind fun b hb => ?_
    exact (mapM fun a ha => h a (List.mem_cons_of_mem _ ha)).bind fun bs hbs => .cons hb hbs

/-- **A fold that moves an invariant along**, by one with every entry. -/
theorem foldlM {γ : Type} {I : Nat → α → Prop} {f : α → γ → Except Failure α} :
    ∀ {xs : List γ} {n : Nat} {a : α}, I n a →
      (∀ i (hi : i < xs.length) a, I (n + i) a → Answers F (I (n + i + 1)) (f a xs[i])) →
        Answers F (I (n + xs.length)) (xs.foldlM f a)
  | [], _, _, ha, _ => ha
  | x :: xs, n, a, ha, step => by
    rw [List.foldlM_cons, List.length_cons, ← Nat.add_assoc, Nat.add_right_comm]
    refine bind (step 0 (Nat.zero_lt_succ _) a ha) fun b hb => foldlM hb fun i hi c hc => ?_
    have := step (i + 1) (Nat.succ_lt_succ hi) c
    rw [Nat.add_zero, Nat.add_right_comm n 1 i]
    exact this (by rwa [← Nat.add_assoc, Nat.add_right_comm])

/-- A fold that treats every entry: what holds of an entry once it is treated, and is kept by
    whatever comes later, holds of all of them in the end. -/
theorem foldlM_forall {γ : Type} {I : α → Prop} {R : α → α → Prop} {T : γ → α → Prop}
    {f : α → γ → Except Failure α} (refl : ∀ a, R a a) (trans : ∀ a b c, R a b → R b c → R a c)
    (mono : ∀ x a b, R a b → T x a → T x b) :
    ∀ {xs : List γ} {a : α}, I a →
      (∀ x ∈ xs, ∀ a, I a → Answers F (fun b => I b ∧ R a b ∧ T x b) (f a x)) →
      Answers F (fun b => I b ∧ R a b ∧ ∀ x ∈ xs, T x b) (xs.foldlM f a)
  | [], a, ha, _ => ⟨ha, refl a, by simp⟩
  | x :: xs, a, ha, step => by
    rw [List.foldlM_cons]
    refine bind (step x List.mem_cons_self a ha) fun b hb => ?_
    obtain ⟨ib, rab, tb⟩ := hb
    refine (foldlM_forall refl trans mono ib fun y hy => step y (List.mem_cons_of_mem x hy)).imp
      fun c hc => ?_
    obtain ⟨ic, rbc, tc⟩ := hc
    exact ⟨ic, trans a b c rab rbc, List.forall_mem_cons.mpr ⟨mono x b c rbc tb, tc⟩⟩

end Answers

end Eliminant
