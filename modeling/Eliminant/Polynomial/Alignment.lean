import Eliminant.Polynomial.Basic

/-!
# Alignment: two polynomials over one list of variables

Before two polynomials are combined, both are moved to one list that has the variables of both:

* two sorted lists are merged, so the common list is sorted as well; variables that compare equal
  become one, the one of the left list;
* otherwise the variables of the right list that the left list lacks are put behind it.

An `Alignment` is the common list and the place of every old variable in it, and `spread` moves the
exponents of a row to their places. Where every place is behind the one before it the terms stay in
order; otherwise they are added up anew.
-/

namespace Eliminant

/-- A common list of variables, and the places of the variables of two lists in it. -/
structure Alignment where
  vars : List Variable
  left : List Nat
  right : List Nat
  deriving DecidableEq

namespace Alignment

/-- Merges two sorted lists; `place` is the place of the next variable. -/
def merge (place : Nat) (us vs : List Variable) : Alignment :=
  match us, vs with
  | [], [] => ⟨[], [], []⟩
  | u :: us, [] =>
    let a := merge (place + 1) us []
    ⟨u :: a.vars, place :: a.left, a.right⟩
  | [], v :: vs =>
    let a := merge (place + 1) [] vs
    ⟨v :: a.vars, a.left, place :: a.right⟩
  | u :: us, v :: vs =>
    match u.compare v with
    | .lt =>
      let a := merge (place + 1) us (v :: vs)
      ⟨u :: a.vars, place :: a.left, a.right⟩
    | .gt =>
      let a := merge (place + 1) (u :: us) vs
      ⟨v :: a.vars, a.left, place :: a.right⟩
    | .eq =>
      let a := merge (place + 1) us vs
      ⟨u :: a.vars, place :: a.left, place :: a.right⟩
termination_by us.length + vs.length

/-- Puts the variables of `vs` that `us` lacks behind `us`. -/
def extend (us : List Variable) : (vs : List Variable) → List Variable × List Nat
  | [] => (us, [])
  | v :: vs =>
    match us.findIdx? (· = v) with
    | some i =>
      let (all, places) := extend us vs
      (all, i :: places)
    | none =>
      let (all, places) := extend (us ++ [v]) vs
      (all, us.length :: places)

/-- The alignment of two lists of variables. -/
def of (us vs : List Variable) : Alignment :=
  if Variable.isSorted us && Variable.isSorted vs then merge 0 us vs
  else
    let (all, places) := extend us vs
    ⟨all, List.range us.length, places⟩

end Alignment

/-- Moves the exponents of a row to the given places of a row of length `n`. -/
def Exponents.spread (places : List Nat) (n : Nat) (exps : Exponents) : Exponents :=
  (places.zip exps).foldl (fun row (i, e) => row.set i e) (zeros n)

/-- Whether every number of a list is below the next. -/
def isAscending : List Nat → Bool
  | i :: j :: rest => i < j && isAscending (j :: rest)
  | _ => true

namespace Polynomial

/-- A polynomial moved to `vars`, where its variables have the given places. -/
def moveTo (p : Polynomial) (places : List Nat) (vars : List Variable) : Polynomial :=
  let moved : Terms := p.terms.map fun t => ⟨t.coeff, t.exps.spread places vars.length⟩
  ⟨vars, if isAscending places then moved else moved.foldr Terms.insert []⟩

/-- Two polynomials moved to one list of variables. -/
def align (p q : Polynomial) : Polynomial × Polynomial :=
  if p.vars = q.vars then (p, q)
  else
    let a := Alignment.of p.vars q.vars
    (p.moveTo a.left a.vars, q.moveTo a.right a.vars)

/-- Aligns `first` with every polynomial of a list in turn. -/
def alignEach (first : Polynomial) : List Polynomial → Polynomial × List Polynomial
  | [] => (first, [])
  | p :: ps =>
    let (first, p) := align first p
    let (first, ps) := alignEach first ps
    (first, p :: ps)

/-- The polynomials of a list moved to one list of variables. After the first turn the first
    polynomial has all variables, and the second turn hands them on. -/
def alignAll : List Polynomial → List Polynomial
  | [] => []
  | first :: rest =>
    let (first, rest) := alignEach first rest
    let (first, rest) := alignEach first rest
    first :: rest

/-- Whether two polynomials are equal, whatever their lists of variables. -/
def equal (p q : Polynomial) : Bool :=
  if p.vars = q.vars then p.terms == q.terms
  else if p.terms.length ≠ q.terms.length then false
  else
    let (p, q) := align p q
    p.terms == q.terms

/-- Replaces the variables by `vars`, one for each, and sorts the new list. -/
def rename (p : Polynomial) (vars : List Variable) : Except Failure Polynomial :=
  if vars.length ≠ p.vars.length then .error .renameCount
  else
    let sorted := sortBy (fun u v => u.1.compare v.1) (vars.zip (List.range vars.length))
    let order := sorted.map (·.2)
    let places := (List.range vars.length).map fun i => order.idxOf i
    .ok (p.moveTo places (sorted.map (·.1)))

end Polynomial

end Eliminant
