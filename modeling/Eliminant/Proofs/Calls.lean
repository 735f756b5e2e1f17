import Eliminant.Failure
import Mathlib.Logic.Relation
import Mathlib.Order.WellFounded

/-!
# Functions that call each other come to an end

Functions that call each other are run by a machine that keeps a stack of the calls that are still open. Nothing
bounds how deep they call, and a call may have more than one body, where the order of something is left open.

* `Body`: what a function does from one call to the next; `Body.value`, `Body.Asks`: what it comes to and which
  calls it makes, if calls have the answers they should have;
* `Execution.Step`: a call is made, or an answer goes back to whoever has asked for it;
* `Execution.Ends`: no run goes on forever, and every run that cannot go on has come to the same result;
* **`Execution.ends_of_wellFounded`**: every call ends in its answer, if its bodies come to that answer and there is
  no endless chain of calls.
-/

namespace Eliminant

/-! ## 1. Bodies -/

/-- **The body of a function**: a result, or a call and how it goes on with the answer. A failure of a call is the
    failure of the body. -/
inductive Body (C A : Type) where
  | result (r : Except Failure A)
  | ask (c : C) (next : A → Body C A)

variable {C A : Type}

namespace Body

/-- Makes calls one after the other. -/
def askAll : List C → (List A → Body C A) → Body C A
  | [], next => next []
  | c :: cs, next => ask c fun a => askAll cs fun as => next (a :: as)

/-- Answers what another call answers. -/
def tailCall (c : C) : Body C A := ask c fun a => result (.ok a)

/-- **What a body comes to**, if calls have these answers. -/
def value (answer : C → Except Failure A) : Body C A → Except Failure A
  | result r => r
  | ask c next => do (next (← answer c)).value answer

/-- **The calls that a body makes**, if calls have these answers. -/
inductive Asks (answer : C → Except Failure A) : Body C A → C → Prop
  | first {c : C} {next : A → Body C A} : Asks answer (ask c next) c
  | later {c d : C} {a : A} {next : A → Body C A} : answer c = .ok a → Asks answer (next a) d →
      Asks answer (ask c next) d

variable {answer : C → Except Failure A} {c d : C} {cs : List C} {next : List A → Body C A}

theorem value_tailCall (c : C) : (tailCall c : Body C A).value answer = answer c := by
  rw [tailCall, value]
  cases answer c with
  | ok a => rfl
  | error why => rfl

theorem value_askAll (cs : List C) (next : List A → Body C A) :
    (askAll cs next).value answer = (do (next (← cs.mapM answer)).value answer) := by
  induction cs generalizing next with
  | nil => rfl
  | cons c cs ih =>
    rw [askAll, value, List.mapM_cons]
    cases answer c with
    | error why => rfl
    | ok a =>
      refine (ih _).trans ?_
      cases cs.mapM answer with
      | error why => rfl
      | ok as => rfl

theorem not_asks_result {r : Except Failure A} : ¬(result r : Body C A).Asks answer d := nofun

theorem eq_of_asks_tailCall (h : (tailCall c : Body C A).Asks answer d) : d = c := by
  cases h with
  | first => rfl
  | later _ h => exact (not_asks_result h).elim

/-- What is asked for is one of the calls, or it is asked for behind them. -/
theorem mem_or_asks_of_askAll (h : (askAll cs next).Asks answer d) :
    d ∈ cs ∨ ∃ as, cs.mapM answer = .ok as ∧ (next as).Asks answer d := by
  induction cs generalizing next with
  | nil => exact .inr ⟨[], rfl, h⟩
  | cons c cs ih =>
    cases h with
    | first => exact .inl List.mem_cons_self
    | later first h =>
      obtain mem | ⟨as, later, h⟩ := ih h
      · exact .inl (List.mem_cons_of_mem c mem)
      · refine .inr ⟨_ :: as, ?_, h⟩
        rw [List.mapM_cons, first, later]
        rfl

end Body

/-! ## 2. Runs -/

/-- **A run at one moment**: the rest of the body at work, and how the open calls go on, the innermost first. -/
structure Execution (C A : Type) where
  body : Body C A
  waiting : List (A → Body C A)

namespace Execution

/-- A run that makes one call. -/
def start (c : C) : Execution C A := ⟨.tailCall c, []⟩

/-- A run that has come to its result. -/
def done (r : Except Failure A) : Execution C A := ⟨.result r, []⟩

/-- **One step of a run**, where calls have these bodies. A failure leaves the open calls one by one. -/
inductive Step (HasBody : C → Body C A → Prop) : Execution C A → Execution C A → Prop
  | call {c : C} {body : Body C A} {next : A → Body C A} {waiting : List (A → Body C A)} :
      HasBody c body → Step HasBody ⟨.ask c next, waiting⟩ ⟨body, next :: waiting⟩
  | answer {a : A} {next : A → Body C A} {waiting : List (A → Body C A)} :
      Step HasBody ⟨.result (.ok a), next :: waiting⟩ ⟨next a, waiting⟩
  | failure {why : Failure} {next : A → Body C A} {waiting : List (A → Body C A)} :
      Step HasBody ⟨.result (.error why), next :: waiting⟩ ⟨.result (.error why), waiting⟩

/-- **Every run from here ends in `r`**: none goes on forever, and one that cannot go on has come to `r`. -/
structure Ends (HasBody : C → Body C A → Prop) (s : Execution C A) (r : Except Failure A) : Prop where
  finite : ¬∃ run : Nat → Execution C A, run 0 = s ∧ ∀ n, Step HasBody (run n) (run (n + 1))
  last : ∀ t, Relation.ReflTransGen (Step HasBody) s t → (∀ u, ¬Step HasBody t u) → t = done r

variable {HasBody : C → Body C A → Prop} {s : Execution C A} {r : Except Failure A}

/-- The same by its steps: a run that is not done can go on, and ends in `r` whichever step it takes. -/
inductive Inevitable (HasBody : C → Body C A → Prop) (r : Except Failure A) : Execution C A → Prop
  | done : Inevitable HasBody r (done r)
  | step {s t : Execution C A} : Step HasBody s t → (∀ u, Step HasBody s u → Inevitable HasBody r u) →
      Inevitable HasBody r s

theorem not_step_done {t : Execution C A} : ¬Step HasBody (done r) t := nofun

theorem Inevitable.acc (h : Inevitable HasBody r s) : Acc (flip (Step HasBody)) s := by
  induction h with
  | done => exact .intro _ fun t step => (not_step_done step).elim
  | step _ _ ih => exact .intro _ ih

theorem Inevitable.ends (h : Inevitable HasBody r s) : Ends HasBody s r where
  finite endless := by
    obtain ⟨run, first, steps⟩ := endless
    exact not_acc_iff_exists_descending_chain.mpr ⟨run, first, steps⟩ h.acc
  last t steps stuck := by
    induction steps using Relation.ReflTransGen.head_induction_on with
    | refl =>
      cases h with
      | done => rfl
      | step step _ => exact (stuck _ step).elim
    | head step _ ih =>
      cases h with
      | done => exact (not_step_done step).elim
      | step _ all => exact ih (all _ step)

/-! ## 3. Every run ends -/

section Calls

variable {answer : C → Except Failure A}

/-- A call that is made and answered, whatever goes on behind it. -/
def Returns (HasBody : C → Body C A → Prop) (r : Except Failure A) (answer : C → Except Failure A)
    (c : C) : Prop :=
  ∀ next waiting, Inevitable HasBody r ⟨.result (answer c), next :: waiting⟩ →
    Inevitable HasBody r ⟨.ask c next, waiting⟩

/-- **A body whose calls return** runs to what it comes to. -/
theorem inevitable_of_value {waiting : List (A → Body C A)} (body : Body C A)
    (calls : ∀ d, body.Asks answer d → Returns HasBody r answer d)
    (h : Inevitable HasBody r ⟨.result (body.value answer), waiting⟩) :
    Inevitable HasBody r ⟨body, waiting⟩ := by
  induction body with
  | result _ => exact h
  | ask c next ih =>
    refine calls c .first next waiting ?_
    rw [Body.value] at h
    cases value : answer c with
    | ok a =>
      rw [value] at h
      refine .step .answer fun u step => ?_
      cases step
      exact ih a (fun d asks => calls d (.later value asks)) h
    | error why =>
      rw [value] at h
      refine .step .failure fun u step => ?_
      cases step
      exact h

variable (bodies : ∀ c, ∃ body, HasBody c body)
  (sound : ∀ c body, HasBody c body → body.value answer = answer c)
  (descends : WellFounded fun d c => ∃ body, HasBody c body ∧ body.Asks answer d)

include bodies sound descends

/-- **Every call ends in its answer**, if its bodies come to it and no chain of calls is endless. -/
theorem ends_of_wellFounded (c : C) : Ends HasBody (start c) (answer c) := by
  have returns : Returns HasBody (answer c) answer c := by
    generalize answer c = r
    induction c using descends.induction with
    | _ c ih =>
      intro next waiting h
      obtain ⟨body, some⟩ := bodies c
      refine .step (.call some) fun u step => ?_
      cases step with
      | call some =>
        refine inevitable_of_value _ (fun d asks => ih d ⟨_, some, asks⟩) ?_
        rwa [sound c _ some]
  refine (returns _ [] ?_).ends
  -- the answer goes back to the run that has asked for it
  cases answer c with
  | ok a =>
    refine .step .answer fun u step => ?_
    cases step
    exact .done
  | error why =>
    refine .step .failure fun u step => ?_
    cases step
    exact .done

end Calls

end Execution

end Eliminant
