import Eliminant.Fraction.Basic
import Mathlib

/-!
# A limit changes no answer

A completion asks its settings for leave before every reduction of an S-polynomial. Under a limit it takes
the steps of the unlimited completion one by one and answers the same, or it stops at the first step for
which the leave is refused.

* `Settings.StopsAt n e`: the settings admit `n` steps and refuse the next one with `e`;
* `Follows n e k`: what a computation that has taken `k` steps answers under such settings, beside what it
  answers without a limit. It is kept by everything that a completion is put together from
  (`Follows.bind`, `Follows.permit_bind`, `Follows.foldlM`), and so it holds of a whole one
  (`Completion.ofSums_follows`);
* **`Polynomial.groebnerBasis_limited`**: a budget is exceeded exactly where the unlimited completion takes
  more steps, and a cancelled completion answers only where it needs no step at all.
-/

namespace Eliminant

/-! ## 1. Limits -/

/-- Settings without a limit. -/
def Settings.unlimited : Settings := { maxSteps := none }

/-- The settings admit `n` steps, and refuse the next one with `e`. -/
structure Settings.StopsAt (settings : Settings) (n : Nat) (e : Failure) : Prop where
  admits : ∀ k < n, settings.permit k = .ok ()
  refuses : settings.permit n = .error e

theorem Settings.stopsAt_budget (m : Nat) :
    StopsAt { maxSteps := some m } m (.budgetExceeded m) where
  admits k less := by simp [permit, less]
  refuses := by simp [permit]

theorem Settings.stopsAt_abort (budget : Option Nat) :
    StopsAt { maxSteps := budget, abort := true } 0 .aborted where
  admits _ less := absurd less (Nat.not_lt_zero _)
  refuses := rfl

/-! ## 2. Computations that keep pace -/

/-- A computation that answers like the unlimited one, or is refused with `e`. -/
def Agrees {α : Type} (e : Failure) (free limited : Except Failure α) : Prop :=
  limited = free ∨ limited = .error e

namespace Agrees

variable {α β : Type} {e : Failure} {x y : Except Failure α}

theorem refl (x : Except Failure α) : Agrees e x x := .inl rfl

theorem bind {f g : α → Except Failure β} (h : Agrees e x y) (next : ∀ a, Agrees e (f a) (g a)) :
    Agrees e (x >>= f) (y >>= g) := by
  obtain rfl | rfl := h
  · cases y with
    | ok a => exact next a
    | error e' => exact .refl _
  · exact .inr rfl

end Agrees

section Follows

variable {α β γ : Type} {n k : Nat} {e : Failure} {steps : α → Nat} {steps' : β → Nat}
  {x y : Except Failure α} {settings : Settings}

/-- **What a computation that has taken `k` steps answers under a limit**: `free` is what it answers
    without one, after a number of steps that `steps` reads off the answer. -/
structure Follows (n : Nat) (e : Failure) (steps : α → Nat) (k : Nat)
    (free limited : Except Failure α) : Prop where
  le : ∀ a, free = .ok a → k ≤ steps a
  ok : k ≤ n → ∀ a, free = .ok a → limited = if steps a ≤ n then .ok a else .error e
  error : k ≤ n → ∀ f, free = .error f → limited = .error f ∨ limited = .error e

namespace Follows

/-- A computation that takes no step. -/
theorem still (count : ∀ a, x = .ok a → steps a = k) : Follows n e steps k x x where
  le a run := Nat.le_of_eq (count a run).symm
  ok within a run := by rw [count a run, if_pos within, run]
  error _ _ run := .inl run

/-- **One computation after another.** -/
theorem bind {f g : α → Except Failure β} (h : Follows n e steps k x y)
    (next : ∀ a, x = .ok a → Follows n e steps' (steps a) (f a) (g a)) :
    Follows n e steps' k (x >>= f) (y >>= g) := by
  cases run : x with
  | error e' =>
    refine ⟨nofun, nofun, fun within f' same => ?_⟩
    cases same
    obtain limited | limited := h.error within e' run
    · exact .inl (by rw [limited]; rfl)
    · exact .inr (by rw [limited]; rfl)
  | ok a =>
    have later := next a run
    refine ⟨fun b answer => Nat.le_trans (h.le a run) (later.le b answer), fun within b answer => ?_,
      fun within f' answer => ?_⟩
    all_goals
      have limited := h.ok within a run
      split at limited
    · rename_i within
      rw [limited]
      exact later.ok within b answer
    · rename_i beyond
      rw [limited, if_neg fun within => beyond (Nat.le_trans (later.le b answer) within)]
      rfl
    · rename_i within
      rw [limited]
      exact later.error within f' answer
    · rw [limited]
      exact .inr rfl

/-- A computation behind one that knows of no limit. -/
theorem behind (x : Except Failure α) {f g : α → Except Failure β}
    (next : ∀ a, x = .ok a → Follows n e steps' k (f a) (g a)) :
    Follows n e steps' k (x >>= f) (x >>= g) := by
  have first : Follows n e (fun _ => k) k x x := still fun _ _ => rfl
  exact first.bind next

/-- **A step that needs leave.** -/
theorem permit_bind (stops : settings.StopsAt n e) {f : Unit → Except Failure α}
    (next : ∀ a, f () = .ok a → steps a = k + 1) :
    Follows n e steps k (Settings.unlimited.permit k >>= f) (settings.permit k >>= f) := by
  refine ⟨fun a answer => next a answer ▸ Nat.le_succ k, fun within a answer => ?_,
    fun within f' answer => ?_⟩
  all_goals obtain less | rfl := Nat.lt_or_eq_of_le within
  · rw [stops.admits k less, next a answer, if_pos (Nat.succ_le_of_lt less)]
    exact answer
  · rw [stops.refuses, next a answer, if_neg (Nat.not_succ_le_self k)]
    rfl
  · rw [stops.admits k less]
    exact .inl answer
  · rw [stops.refuses]
    exact .inr rfl

theorem foldlM {f g : α → γ → Except Failure α}
    (step : ∀ a c, Follows n e steps (steps a) (f a c) (g a c)) :
    ∀ (cs : List γ) (a : α), Follows n e steps (steps a) (cs.foldlM f a) (cs.foldlM g a)
  | [], _ => still fun _ run => by cases run; rfl
  | c :: cs, a => by
    rw [List.foldlM_cons, List.foldlM_cons]
    exact (step a c).bind fun b _ => foldlM step cs b

theorem agrees (h : Follows n e steps k x y) (within : k ≤ n) : Agrees e x y := by
  cases run : x with
  | ok a =>
    have limited := h.ok within a run
    split at limited
    · exact .inl limited
    · exact .inr limited
  | error f => exact h.error within f run

end Follows

end Follows

/-! ## 3. Completions -/

variable {n : Nat} {e : Failure} {settings : Settings}

namespace Queue

theorem addPair_follows (stops : settings.StopsAt n e) (basis : List Terms) (j : Nat) (g : Terms)
    (q : Queue) (numbered : Terms × Nat) : Follows n e (fun q : Queue => q.stats.steps) q.stats.steps
      (addPair .unlimited basis j g q numbered) (addPair settings basis j g q numbered) := by
  unfold addPair
  dsimp only
  split
  · exact .still fun _ run => by cases run; rfl
  refine .permit_bind stops fun a run => ?_
  cases sPoly : Terms.sPolynomial ⟨numbered.1.leadCoeff, numbered.1.leadRow⟩ ⟨g.leadCoeff, g.leadRow⟩
      numbered.1 g with
  | error _ => simp [sPoly, bind, Except.bind] at run
  | ok s =>
    cases remainder : s.remainder basis with
    | error _ => simp [sPoly, remainder, bind, Except.bind] at run
    | ok r =>
      simp only [sPoly, remainder, bind, Except.bind] at run
      split at run <;> cases run <;> rfl

theorem addPairs_follows (stops : settings.StopsAt n e) (basis : List Terms) (q : Queue)
    (numbered : Terms × Nat) : Follows n e (fun q : Queue => q.stats.steps) q.stats.steps
      (addPairs .unlimited basis q numbered) (addPairs settings basis q numbered) :=
  .foldlM (addPair_follows stops basis numbered.2 numbered.1) _ q

theorem ofBasis_follows (stops : settings.StopsAt n e) (basis : List Terms) :
    Follows n e (fun q : Queue => q.stats.steps) 0 (ofBasis .unlimited basis)
      (ofBasis settings basis) :=
  .foldlM (addPairs_follows stops basis) _ {}

end Queue

/-- The state that a step leads to. -/
def Progress.state : Progress → Completion
  | .finished s | .next s => s

namespace Completion

variable {strategy : Strategy} {i : Nat} {pair : CriticalPair} {h : Terms}

/-- The number of steps that a completion has taken. -/
def steps (s : Completion) : Nat := s.queue.stats.steps

theorem review_follows (stops : settings.StopsAt n e) (s : Completion) (i : Nat) (pair : CriticalPair) :
    Follows n e (fun p : Progress => p.state.steps) s.steps (review .unlimited s i pair)
      (review settings s i pair) := by
  refine .permit_bind stops fun a run => ?_
  cases remainder : pair.remainder.remainder s.basis with
  | error _ => simp [remainder, bind, Except.bind] at run
  | ok r =>
    simp only [remainder, bind, Except.bind] at run
    split at run <;> cases run <;> rfl

theorem adopt_follows (stops : settings.StopsAt n e) (s : Completion) (i : Nat) (h : Terms) :
    Follows n e (fun p : Progress => p.state.steps) s.steps (adopt .unlimited s i h)
      (adopt settings s i h) := by
  unfold adopt
  split
  · exact .still fun _ run => by cases run; rfl
  split
  · have pairs := Queue.addPairs_follows stops (s.basis ++ [h])
      ⟨swapRemove s.queue.pairs i,
        { s.queue.stats with polynomialsAdded := s.queue.stats.polynomialsAdded + 1 }⟩
      (h, s.basis.length)
    exact pairs.bind fun queue _ => .still fun _ run => by cases run; rfl
  · exact .still nofun

theorem step_follows (stops : settings.StopsAt n e) (strategy : Strategy) (s : Completion) :
    Follows n e (fun p : Progress => p.state.steps) s.steps (step .unlimited strategy s)
      (step settings strategy s) := by
  unfold step
  split
  · exact .still fun _ run => by cases run; rfl
  split
  · exact .still fun _ run => by cases run; rfl
  split
  · exact review_follows stops s _ _
  · exact adopt_follows stops s _ _

/-- **A whole run**, by induction on what descends with every step. -/
theorem run_follows (stops : settings.StopsAt n e) (strategy : Strategy) (s : Completion) :
    Follows n e steps s.steps (run .unlimited strategy s) (run settings strategy s) := by
  induction s using descends_wf.induction with
  | _ s ih =>
    rw [run_eq, run_eq]
    refine (step_follows stops strategy s).bind fun progress run => ?_
    cases progress with
    | finished t => exact .still fun _ run => by cases run; rfl
    | next t => exact ih t (step_descends run)

theorem ofSums_follows (stops : settings.StopsAt n e) (m : Nat) (strategy : Strategy)
    (sums : List Terms) :
    Follows n e (fun out : List Terms × Statistics => out.2.steps) 0
      (ofSums m strategy .unlimited sums) (ofSums m strategy settings sums) := by
  refine .behind _ fun basis _ => ?_
  split
  · exact .still fun _ run => by cases run; rfl
  refine (Queue.ofBasis_follows stops basis).bind fun queue _ => ?_
  refine (run_follows stops strategy ⟨basis, queue⟩).bind fun s _ => ?_
  refine .behind _ fun final _ => .still fun _ run => ?_
  cases run
  rfl

end Completion

namespace Polynomial

variable {strategy : Strategy} {ps system : List Polynomial} {stats : Statistics} {f g : Polynomial}

theorem groebnerBasis_follows (stops : settings.StopsAt n e) (strategy : Strategy)
    (ps : List Polynomial) :
    Follows n e (fun out : List Polynomial × Statistics => out.2.steps) 0
      (groebnerBasis strategy .unlimited ps) (groebnerBasis strategy settings ps) := by
  exact (Completion.ofSums_follows stops _ _ _).bind fun out _ => .still fun _ run => by cases run; rfl

/-! ## 4. Computations that complete on the way -/

theorem lcm_agrees (stops : settings.StopsAt n e) (f g : Polynomial) :
    Agrees e (lcm .unlimited f g) (lcm settings f g) := by
  unfold lcm
  dsimp only
  split
  · exact .refl _
  split
  · exact .refl _
  split
  · exact .refl _
  exact ((Completion.ofSums_follows stops _ _ _).agrees (Nat.zero_le n)).bind fun _ => .refl _

theorem gcd_agrees (stops : settings.StopsAt n e) (f g : Polynomial) :
    Agrees e (gcd .unlimited f g) (gcd settings f g) := by
  unfold gcd
  dsimp only
  split
  · exact .refl _
  split
  · exact .refl _
  split
  · exact .refl _
  exact (lcm_agrees stops _ _).bind fun _ => .refl _

theorem reduceFraction_agrees (stops : settings.StopsAt n e) (f g : Polynomial) :
    Agrees e (reduceFraction .unlimited f g) (reduceFraction settings f g) := by
  unfold reduceFraction
  dsimp only
  split
  · exact .refl _
  split
  · exact .refl _
  exact (gcd_agrees stops _ _).bind fun _ => .refl _

/-- **What a limit does to a completion that answers without one**: under a budget it answers the same
    basis and statistics, unless it takes more steps than the budget has, and then the budget is exceeded;
    cancelled from the start, it answers only if it takes no step. What is computed by completion --
    multiples, divisors, fractions in lowest terms -- is under a budget the same or not computed. -/
theorem groebnerBasis_limited (run : groebnerBasis strategy .unlimited ps = .ok (system, stats)) :
    (∀ m, groebnerBasis strategy { maxSteps := some m } ps =
      if stats.steps ≤ m then .ok (system, stats) else .error (.budgetExceeded m)) ∧
    (∀ budget, groebnerBasis strategy { maxSteps := budget, abort := true } ps =
      if 1 ≤ stats.steps then .error .aborted else .ok (system, stats)) ∧
    ∀ m f g, Agrees (.budgetExceeded m) (lcm .unlimited f g) (lcm { maxSteps := some m } f g) ∧
      Agrees (.budgetExceeded m) (gcd .unlimited f g) (gcd { maxSteps := some m } f g) ∧
      Agrees (.budgetExceeded m) (reduceFraction .unlimited f g)
        (reduceFraction { maxSteps := some m } f g) := by
  refine ⟨fun m => ?_, fun budget => ?_, fun m f g => ?_⟩
  · exact (groebnerBasis_follows (Settings.stopsAt_budget m) strategy ps).ok (Nat.zero_le m) _ run
  · rw [(groebnerBasis_follows (Settings.stopsAt_abort budget) strategy ps).ok (Nat.le_refl 0) _ run]
    show (if stats.steps ≤ 0 then _ else _) = _
    split <;> split <;> first | rfl | omega
  · have stops := Settings.stopsAt_budget m
    exact ⟨lcm_agrees stops f g, gcd_agrees stops f g, reduceFraction_agrees stops f g⟩

/-- The completion of `x ^ 2 - 1`, `x * y - 1` and `y ^ 2 - 1` adds `x - y`. It takes four steps for new pairs
    and a fifth one for a remainder that is out of date then: a budget of five admits it, one of four
    refuses the last step, and one of one a pair that is new. -/
theorem groebnerBasis_limited_at :
    let vars := [Variable.symbol "x", Variable.symbol "y"]
    let last : Polynomial := ⟨vars, [⟨.one, [0, 2]⟩, ⟨-.one, [0, 0]⟩]⟩
    let ps : List Polynomial := [⟨vars, [⟨.one, [2, 0]⟩, ⟨-.one, [0, 0]⟩]⟩,
      ⟨vars, [⟨.one, [1, 1]⟩, ⟨-.one, [0, 0]⟩]⟩, last]
    let system : List Polynomial := [⟨vars, [⟨.one, [1, 0]⟩, ⟨-.one, [0, 1]⟩]⟩, last]
    let stats : Statistics :=
      { pairsComputed := 4, pairsSkipped := 2, zeroReductions := 3, polynomialsAdded := 1, steps := 5 }
    groebnerBasis .lowestLead .unlimited ps = .ok (system, stats) ∧
      groebnerBasis .lowestLead { maxSteps := some 5 } ps = .ok (system, stats) ∧
      groebnerBasis .lowestLead { maxSteps := some 4 } ps = .error (.budgetExceeded 4) ∧
      groebnerBasis .lowestLead { maxSteps := some 1 } ps = .error (.budgetExceeded 1) ∧
      groebnerBasis .lowestLead { abort := true } ps = .error .aborted := by
  intro vars last ps system stats
  have run : groebnerBasis .lowestLead .unlimited ps = .ok (system, stats) := by
    unfold groebnerBasis Completion.ofSums
    rw [Completion.run_eq_unrolled _ _ 3]
    cbv
  obtain ⟨budget, cancelled, -⟩ := groebnerBasis_limited run
  exact ⟨run, budget 5, budget 4, budget 1, cancelled _⟩

end Polynomial

end Eliminant
