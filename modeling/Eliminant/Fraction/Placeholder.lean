import Eliminant.Polynomial.Alignment

/-!
# Placeholders for kernels

While a fraction is reduced, every kernel is replaced by a temporary of its own, and put back
afterwards. `Placeholders` remembers which kernel has which temporary, in one map for each direction; a
kernel that is already known keeps its temporary, and a new one takes the next number and enters both
maps.

A replacement renames the variables of a polynomial and so sorts them anew: temporaries come last,
in the order in which their kernels were met.
-/

namespace Eliminant

/-- Kernels and the numbers of their temporaries. -/
structure Placeholders where
  /-- the number of the next temporary -/
  next : Nat := 0
  /-- the number of each kernel met so far, the latest first -/
  numbers : List (Variable × Nat) := []
  /-- the kernel of each number handed out so far, the latest first -/
  kernels : List (Nat × Variable) := []
  deriving DecidableEq

namespace Placeholders

/-- The number of kernels met so far. -/
def size (m : Placeholders) : Nat := m.numbers.length

/-- Forgets all kernels, but not which numbers are used up. -/
def clear (m : Placeholders) : Placeholders := { m with numbers := [], kernels := [] }

/-- The number of the temporary of a variable that has one. -/
def number? (m : Placeholders) (v : Variable) : Option Nat := m.numbers.lookup v

/-- The number of the temporary of a variable, which is entered if it is not known. -/
def enter (m : Placeholders) (v : Variable) : Placeholders × Nat :=
  match m.number? v with
  | some n => (m, n)
  | none => (⟨m.next + 1, (v, m.next) :: m.numbers, (m.next, v) :: m.kernels⟩, m.next)

/-- Replaces the kernels of a list of variables. -/
def replaceVars (m : Placeholders) : List Variable → Placeholders × List Variable
  | [] => (m, [])
  | v :: vs =>
    let (m, v) :=
      if v.isKernel then
        let (m, n) := m.enter v
        (m, .temporary n)
      else (m, v)
    let (m, vs) := m.replaceVars vs
    (m, v :: vs)

/-- Replaces the kernels of a polynomial. -/
def replace (m : Placeholders) (p : Polynomial) : Except Failure (Placeholders × Polynomial) :=
  if p.vars.any Variable.isKernel then do
    let (m, vars) := m.replaceVars p.vars
    return (m, ← p.rename vars)
  else .ok (m, p)

/-- The kernel whose temporary a variable is. -/
def kernelOf? (m : Placeholders) : Variable → Option Variable
  | .temporary n => m.kernels.lookup n
  | _ => none

/-- Puts the kernels of a polynomial back. -/
def restore (m : Placeholders) (p : Polynomial) : Except Failure Polynomial :=
  if p.vars.any fun v => (m.kernelOf? v).isSome then
    p.rename (p.vars.map fun v => (m.kernelOf? v).getD v)
  else .ok p

end Placeholders

end Eliminant
