import Eliminant.Division

/-!
# Auto-reduction

A system is reduced when no term of a member is divisible by the leading term of another. To reduce
a system, every member in turn is divided by all the others and replaced by its remainder, or
dropped when nothing is left of it, and this is repeated until a whole turn changes nothing.

* A system of zeros reduces to the single member `0`, and a system that holds or produces a constant
  to the single member `1`.
* Otherwise the members are made monic and listed from the greatest leading row.

Each turn that changes something makes the system smaller (`SmallerSystem`), so there is a last one.
-/

namespace Eliminant

namespace Reduction

/-- The sum `1` in `n` variables. -/
def unit (n : Nat) : Terms := [Term.one n]

/-- The outcome of a turn over a system. -/
inductive Sweep where
  /-- a constant was met -/
  | unit
  /-- the members that are left, and whether there was a change -/
  | members (system : List Terms) (changed : Bool)

/-- A turn over the members `after`, where `before` are those that had their turn. -/
def sweep (before : List Terms) (changed : Bool) : (after : List Terms) → Except Failure Sweep
  | [] => .ok (.members before changed)
  | p :: after => do
    let (eliminations, r) ← p.divide (before ++ after)
    if eliminations.isEmpty then sweep (before ++ [p]) changed after
    else if r.isEmpty then sweep before true after
    else if r.isConstant then return .unit
    else sweep (before ++ [r]) true after

/-- Repeats turns until one changes nothing; `none` when a constant was met. -/
def settle (system : List Terms) : Except Failure (Option (List Terms)) :=
  match sweep [] false system with
  | .error e => .error e
  | .ok .unit => .ok none
  | .ok (.members settled false) => .ok (some settled)
  | .ok (.members smaller true) =>
    if SmallerSystem smaller system then settle smaller else .error .unordered
termination_by smallerSystem_wf.wrap system

/-- The reduced system of a list of sums in `n` variables. -/
def ofSums (n : Nat) (sums : List Terms) : Except Failure (List Terms) :=
  let system := sums.filter (!·.isEmpty)
  if sums.isEmpty then .ok []
  else if system.isEmpty then .ok [[]]
  else if system.any Terms.isConstant then .ok [unit n]
  else do
    match ← settle system with
    | none => return [unit n]
    | some settled =>
      return sortBy (fun p q => q.leadRow.compare p.leadRow) (settled.map Terms.monic)

end Reduction

namespace Polynomial

/-- The variables that the members of an aligned list share. -/
def sharedVars : List Polynomial → List Variable
  | [] => []
  | p :: _ => p.vars

/-- The reduced system of a list of polynomials. -/
def reduce (ps : List Polynomial) : Except Failure (List Polynomial) := do
  let ps := alignAll ps
  let vars := sharedVars ps
  return (← Reduction.ofSums vars.length (ps.map (·.terms))).map (⟨vars, ·⟩)

end Polynomial

end Eliminant
