import Eliminant.Term

/-!
# Lists of terms

A polynomial is a sum of terms in **descending** order, the leading term first, without zero
coefficients and with rows of one length. `Terms.Descending n` says just that; the operations below
compute with lists of terms as sums, and they rely on the order, but they answer for any list.

* `Terms.insert` adds one term, `Terms.add` merges two sums;
* `Terms.scale`, `Terms.shift`, `Terms.mulTerm` multiply by a coefficient, a row and a term.
-/

namespace Eliminant

/-- A sum of terms. -/
abbrev Terms := List Term

namespace Terms

/-- **The invariant of a polynomial in `n` variables**: rows of length `n`, no zero coefficient, and
    every term above all that follow. -/
def Descending (n : Nat) (ts : Terms) : Prop :=
  (∀ t ∈ ts, t.exps.length = n) ∧ (∀ t ∈ ts, t.coeff.isZero = false) ∧
    ts.Pairwise fun s t => t.exps.compare s.exps = .lt

/-- Adds a term with a coefficient that is not zero. -/
def insert (t : Term) : Terms → Terms
  | [] => [t]
  | u :: us =>
    match t.exps.compare u.exps with
    | .gt => t :: u :: us
    | .eq =>
      let c := u.coeff + t.coeff
      if c.isZero then us else ⟨c, u.exps⟩ :: us
    | .lt => u :: insert t us

/-- The sum of two sums. -/
def add (ts us : Terms) : Terms :=
  match ts, us with
  | [], us => us
  | ts, [] => ts
  | t :: ts, u :: us =>
    match t.exps.compare u.exps with
    | .gt => t :: add ts (u :: us)
    | .lt => u :: add (t :: ts) us
    | .eq =>
      let c := t.coeff + u.coeff
      if c.isZero then add ts us else ⟨c, t.exps⟩ :: add ts us
termination_by ts.length + us.length

/-- The opposite sum. -/
def neg (ts : Terms) : Terms := ts.map fun t => ⟨-t.coeff, t.exps⟩

/-- The difference of two sums. -/
def sub (ts us : Terms) : Terms := add ts (neg us)

/-- Multiplies every coefficient. -/
def scale (c : Coefficient) (ts : Terms) : Terms :=
  if c.isZero then [] else ts.map fun t => ⟨t.coeff * c, t.exps⟩

/-- Adds a row to every row. -/
def shift (exps : Exponents) : Terms → Except Failure Terms
  | [] => .ok []
  | t :: ts => do
    let e ← t.exps.add? exps
    let rest ← shift exps ts
    return ⟨t.coeff, e⟩ :: rest

/-- Multiplies by a term. -/
def mulTerm (t : Term) (us : Terms) : Except Failure Terms := shift t.exps (scale t.coeff us)

/-- The leading coefficient, `0` for the empty sum. -/
def leadCoeff : Terms → Coefficient
  | [] => .zero
  | t :: _ => t.coeff

/-- The leading row, empty for the empty sum. -/
def leadRow : Terms → Exponents
  | [] => []
  | t :: _ => t.exps

/-- Multiplies such that the leading coefficient becomes `1`. -/
def monic (ts : Terms) : Terms :=
  match ts with
  | [] => []
  | t :: _ =>
    if t.coeff.isOne then ts
    else
      match t.coeff.inv with
      | .ok c => scale c ts
      | .error _ => ts

/-- The largest exponent of any variable in any term. -/
def maxDegree (ts : Terms) : Nat := ts.foldl (fun d t => max d t.exps.maxDegree) 0

/-- The largest exponent of the variable number `i`. -/
def degree (i : Nat) (ts : Terms) : Nat := ts.foldl (fun d t => max d (t.exps.getD i 0)) 0

/-- Whether the sum has no variable. -/
def isConstant : Terms → Bool
  | [] => true
  | [t] => t.exps.isConstant
  | _ => false

end Terms

end Eliminant
