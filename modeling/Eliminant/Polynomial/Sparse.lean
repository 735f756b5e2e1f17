import Eliminant.Order.Sort
import Eliminant.Polynomial.Terms

/-!
# Products of sums

A product is accumulated: every product of two terms is added to a table that holds a coefficient for each
row that has occurred. The table is then visited in some order, which is not specified. What has become
zero on the way is dropped, and the rest is sorted by rows.

* `RowTable`: the table;
* `Terms.mulVisiting`: the product, for any order in which tables are visited, and `Terms.mul`, where it is
  the order in which rows have first occurred.
-/

namespace Eliminant

/-- Rows of exponents, each with its coefficient. -/
abbrev RowTable := List (Exponents × Coefficient)

namespace RowTable

/-- Adds `c` to the coefficient of a row, which is `0` at first. -/
def add (row : Exponents) (c : Coefficient) : RowTable → RowTable
  | [] => [(row, .zero + c)]
  | (r, d) :: rest => if r = row then (r, d + c) :: rest else (r, d) :: add row c rest

/-- Adds the product of two terms. -/
def addProduct (table : RowTable) (t u : Term) : Except Failure RowTable := do
  return table.add (← t.exps.add? u.exps) (t.coeff * u.coeff)

/-- The table of the products of all terms of two sums, from the smallest terms on. -/
def ofProducts (ts us : Terms) : Except Failure RowTable :=
  ts.reverse.foldlM (fun table t => us.reverse.foldlM (·.addProduct t ·) table) []

/-- The entries of a table as terms. -/
def entries (table : RowTable) : Terms := table.map fun (row, c) => ⟨c, row⟩

/-- The entries that have not become zero, from the smallest row on. -/
def sorted (table : RowTable) : RowTable :=
  sortBy (fun a b => a.1.compare b.1) (table.filter fun (_, c) => !c.isZero)

/-- The sum of the entries, the leading term first. -/
def toTerms (table : RowTable) : Terms := (entries (sorted table)).reverse

end RowTable

namespace Terms

/-- The product of two sums, where `visit` puts the entries of a table into the order in which they are
    visited. -/
def mulVisiting (visit : RowTable → RowTable) (ts us : Terms) : Except Failure Terms := do
  return (visit (← RowTable.ofProducts ts us)).toTerms

/-- The product of two sums. -/
def mul (ts us : Terms) : Except Failure Terms := do
  return (← RowTable.ofProducts ts us).toTerms

end Terms

end Eliminant
