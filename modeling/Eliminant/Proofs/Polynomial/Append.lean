import Eliminant.Proofs.Polynomial.Equality

/-!
# Adding terms one by one

A polynomial can be written down as a table: the coefficients of its terms from the smallest on, and all
rows one behind the other in a single list of exponents (`Polynomial.table`). A term is added to a table by
a binary search for its row: it goes behind the last row, is merged with the term of its row, takes that
term away, or is put in between. Every entry that is looked up is there, and

* `Table.search_spec`: the search finds the row, or the place where it belongs;
* `Polynomial.table_append`: adding to the table is adding to the polynomial;
* `Polynomial.append_step`, `Polynomial.appendAll_run`: what one term adds, and what all terms of a list add;
* **`Polynomial.appendAll_spec`**: terms in whatever order, rows repeated or not, add up to the polynomial
  that has for every row the sum of the coefficients given for it, and to the same table.
-/

namespace Eliminant

open MvPolynomial (coeff)

variable {n : Nat} {exps : Exponents} {c : Coefficient} {t u : Term} {ts us first rest : Terms}

/-! ## 1. Tables -/

/-- Ascending terms, written down as their coefficients and as their rows one behind the other. -/
structure Table where
  coeffs : List Coefficient
  exps : List Nat
  deriving DecidableEq

namespace Table

/-- Where a row stands in a table, or the first row that it belongs before. -/
inductive Spot where
  | here (i : Nat)
  | before (i : Nat)

/-- The row number `i` of a table with rows of length `n`. -/
def row (n : Nat) (table : Table) (i : Nat) : Except Failure Exponents :=
  if (i + 1) * n ≤ table.exps.length then .ok ((table.exps.drop (i * n)).take n)
  else .error .noSuchIndex

/-- Looks for a row among those from number `l` to before number `r`. -/
def search (n : Nat) (table : Table) (exps : Exponents) (l r : Nat) : Except Failure Spot :=
  if l < r then do
    let m := (l + r) / 2
    match exps.compare (← table.row n m) with
    | .eq => return .here m
    | .gt => search n table exps (m + 1) r
    | .lt => search n table exps l m
  else return .before l
termination_by r - l

/-- Whether the last row of a table, if there is one, is below `exps`. -/
def endsBelow (n : Nat) (table : Table) (exps : Exponents) : Except Failure Bool :=
  if table.coeffs.length = 0 then return true
  else return (← table.row n (table.coeffs.length - 1)).compare exps == .lt

/-- Adds to the coefficient number `i`, and takes the term out where the sum is zero. -/
def addAt (n : Nat) (table : Table) (i : Nat) (c : Coefficient) : Except Failure Table :=
  match table.coeffs[i]? with
  | none => .error .noSuchIndex
  | some d =>
    if !(d + c).isZero then .ok { table with coeffs := table.coeffs.set i (d + c) }
    else if table.exps.length < (i + 1) * n then .error .noSuchIndex
    else .ok ⟨table.coeffs.eraseIdx i, table.exps.take (i * n) ++ table.exps.drop ((i + 1) * n)⟩

/-- Puts a term before the one with number `i`. -/
def insertAt (n : Nat) (table : Table) (i : Nat) (c : Coefficient) (exps : Exponents) :
    Except Failure Table :=
  if table.coeffs.length < i ∨ table.exps.length < i * n then .error .noSuchIndex
  else .ok ⟨table.coeffs.take i ++ c :: table.coeffs.drop i,
    table.exps.take (i * n) ++ exps ++ table.exps.drop (i * n)⟩

/-- Adds a term at the spot of its row. -/
def put (n : Nat) (table : Table) (c : Coefficient) (exps : Exponents) : Spot → Except Failure Table
  | .here i => table.addAt n i c
  | .before i => table.insertAt n i c exps

/-- Adds a term to a table with rows of length `n`. -/
def append (n : Nat) (table : Table) (c : Coefficient) (exps : Exponents) : Except Failure Table :=
  if c.isZero then .ok table
  else if exps.length ≠ n then .error (.variableCount exps.length n)
  else do
    if ← table.endsBelow n exps then return ⟨table.coeffs ++ [c], table.exps ++ exps⟩
    else table.put n c exps (← table.search n exps 0 table.coeffs.length)

/-- The table of ascending terms. -/
def ofTerms (ts : Terms) : Table := ⟨ts.map (·.coeff), ts.flatMap (·.exps)⟩

@[simp] theorem length_coeffs (ts : Terms) : (ofTerms ts).coeffs.length = ts.length := List.length_map _

/-! ## 2. What is looked up in a table -/

theorem length_rows (len : ∀ t ∈ ts, t.exps.length = n) : (ts.flatMap (·.exps)).length = ts.length * n := by
  induction ts with
  | nil => simp
  | cons t ts ih =>
    obtain ⟨first, rest⟩ := List.forall_mem_cons.mp len
    rw [List.flatMap_cons, List.length_append, first, ih rest, List.length_cons]
    ring

theorem take_rows (len : ∀ t ∈ first, t.exps.length = n) (rest : Terms) :
    ((first ++ rest).flatMap (·.exps)).take (first.length * n) = first.flatMap (·.exps) := by
  rw [List.flatMap_append]
  exact List.take_left' (length_rows len)

theorem drop_rows (len : ∀ t ∈ first, t.exps.length = n) (rest : Terms) :
    ((first ++ rest).flatMap (·.exps)).drop (first.length * n) = rest.flatMap (·.exps) := by
  rw [List.flatMap_append]
  exact List.drop_left' (length_rows len)

theorem drop_rows_succ (len : ∀ u ∈ first ++ t :: rest, u.exps.length = n) :
    ((first ++ t :: rest).flatMap (·.exps)).drop ((first.length + 1) * n) = rest.flatMap (·.exps) := by
  rw [List.append_cons] at len ⊢
  have upTo : ∀ u ∈ first ++ [t], u.exps.length = n := fun u hu => len u (List.mem_append_left rest hu)
  have := drop_rows upTo rest
  rwa [List.length_append, List.length_singleton] at this

/-- **The rows of a table are those of its terms.** -/
theorem row_ofTerms (len : ∀ u ∈ first ++ t :: rest, u.exps.length = n) :
    (ofTerms (first ++ t :: rest)).row n first.length = .ok t.exps := by
  have earlier : ∀ u ∈ first, u.exps.length = n := fun u hu => len u (List.mem_append_left _ hu)
  have here : t.exps.length = n := len t (by simp)
  have inside : (first.length + 1) * n ≤ (ofTerms (first ++ t :: rest)).exps.length := by
    show _ ≤ ((first ++ t :: rest).flatMap (·.exps)).length
    rw [length_rows len]
    refine Nat.mul_le_mul_right n ?_
    simp
  unfold row
  rw [if_pos inside]
  show Except.ok ((((first ++ t :: rest).flatMap (·.exps)).drop (first.length * n)).take n) = _
  rw [drop_rows earlier, List.flatMap_cons, List.take_left' here]

/-! ## 3. Looking for a row -/

/-- How a spot divides ascending terms: at a term with the row, or between those below and those above. -/
def Spot.Divides (exps : Exponents) (ts : Terms) : Spot → Prop
  | here i => ∃ first t rest, ts = first ++ t :: rest ∧ first.length = i ∧ t.exps = exps
  | before i => ∃ first rest, ts = first ++ rest ∧ first.length = i ∧
      (∀ t ∈ first, t.exps.compare exps = .lt) ∧ ∀ t ∈ rest, exps.compare t.exps = .lt

/-- **A search for a row** finds it, or the place where it belongs, as long as all rows before number `l` are
    below it and all from number `r` on are above. -/
theorem search_spec (len : ∀ t ∈ ts, t.exps.length = n) (lenExps : exps.length = n)
    (ascending : ts.Pairwise fun t u => t.exps.compare u.exps = .lt) {l r : Nat} (ordered : l ≤ r)
    (inside : r ≤ ts.length) (below : ∀ t ∈ ts.take l, t.exps.compare exps = .lt)
    (above : ∀ t ∈ ts.drop r, exps.compare t.exps = .lt) :
    ∃ spot, (ofTerms ts).search n exps l r = .ok spot ∧ spot.Divides exps ts := by
  induction gap : r - l using Nat.strongRecOn generalizing l r with
  | _ gap' ih =>
    unfold search
    split
    · rename_i some
      obtain ⟨first, t, rest, rfl, count⟩ :
          ∃ first t rest, ts = first ++ t :: rest ∧ first.length = (l + r) / 2 := by
        have middle : (l + r) / 2 < ts.length := by omega
        refine ⟨ts.take ((l + r) / 2), ts[(l + r) / 2], ts.drop ((l + r) / 2 + 1), ?_, ?_⟩
        · rw [← List.drop_eq_getElem_cons middle, List.take_append_drop]
        · rw [List.length_take, Nat.min_eq_left middle.le]
      obtain ⟨-, ascendingRest, between⟩ := List.pairwise_append.mp ascending
      have lenT : t.exps.length = n := len t (by simp)
      dsimp only
      rw [← count, row_ofTerms len]
      show ∃ spot, (match exps.compare t.exps with
        | .eq => Except.ok (Spot.here first.length)
        | .gt => (ofTerms (first ++ t :: rest)).search n exps (first.length + 1) r
        | .lt => (ofTerms (first ++ t :: rest)).search n exps l first.length) = .ok spot ∧ _
      split
      · rename_i same
        exact ⟨_, rfl, first, t, rest, rfl, rfl, (Exponents.eq_of_compare_eq same).symm⟩
      · rename_i greater
        have lt := Exponents.compare_gt_iff.mp greater
        refine ih _ (by omega) (by omega) inside (fun u hu => ?_) above rfl
        rw [List.append_cons, List.take_left' (by simp)] at hu
        rcases List.mem_append.mp hu with hu | hu
        · exact Exponents.compare_trans (len u (List.mem_append_left _ hu)) lenT lenExps
            (between u hu t List.mem_cons_self) lt
        · exact List.mem_singleton.mp hu ▸ lt
      · rename_i lt
        refine ih _ (by omega) (by omega) (by omega) below (fun u hu => ?_) rfl
        rw [List.drop_left' rfl] at hu
        rcases List.mem_cons.mp hu with rfl | hu
        · exact lt
        · exact Exponents.compare_trans lenExps lenT (len u (by simp [hu])) lt
            ((List.pairwise_cons.mp ascendingRest).1 u hu)
    · obtain rfl : l = r := by omega
      refine ⟨_, rfl, ts.take l, ts.drop l, (List.take_append_drop l ts).symm, ?_, below, above⟩
      rw [List.length_take, Nat.min_eq_left inside]

/-! ## 4. Adding a term to a table -/

/-- Adding a term between those below it and those above. -/
theorem insertAt_ofTerms (len : ∀ u ∈ first ++ rest, u.exps.length = n) (t : Term) :
    (ofTerms (first ++ rest)).insertAt n first.length t.coeff t.exps =
      .ok (ofTerms (first ++ t :: rest)) := by
  have earlier : ∀ u ∈ first, u.exps.length = n := fun u hu => len u (List.mem_append_left _ hu)
  have inside : ¬ ((ofTerms (first ++ rest)).coeffs.length < first.length ∨
      (ofTerms (first ++ rest)).exps.length < first.length * n) := by
    have rows : (ofTerms (first ++ rest)).exps.length = (first ++ rest).length * n := length_rows len
    have more : first.length * n ≤ (first ++ rest).length * n := Nat.mul_le_mul_right n (by simp)
    simp only [ofTerms, List.length_map, List.length_append] at rows more ⊢
    omega
  unfold insertAt
  rw [if_neg inside]
  have coeffs : (ofTerms (first ++ rest)).coeffs.take first.length ++
      t.coeff :: (ofTerms (first ++ rest)).coeffs.drop first.length = (ofTerms (first ++ t :: rest)).coeffs := by
    simp [ofTerms]
  have exps : (ofTerms (first ++ rest)).exps.take (first.length * n) ++ t.exps ++
      (ofTerms (first ++ rest)).exps.drop (first.length * n) = (ofTerms (first ++ t :: rest)).exps := by
    unfold ofTerms
    rw [take_rows earlier, drop_rows earlier, List.flatMap_append, List.flatMap_cons, List.append_assoc]
  rw [coeffs, exps]

/-- Adding to the coefficient of a term that is there. -/
theorem addAt_ofTerms (len : ∀ u ∈ first ++ t :: rest, u.exps.length = n) (c : Coefficient) :
    (ofTerms (first ++ t :: rest)).addAt n first.length c =
      .ok (ofTerms (first ++ if (t.coeff + c).isZero then rest else ⟨t.coeff + c, t.exps⟩ :: rest)) := by
  have earlier : ∀ u ∈ first, u.exps.length = n := fun u hu => len u (List.mem_append_left _ hu)
  have there : (ofTerms (first ++ t :: rest)).coeffs[first.length]? = some t.coeff := by simp [ofTerms]
  have inside : ¬ (ofTerms (first ++ t :: rest)).exps.length < (first.length + 1) * n := by
    have rows : (ofTerms (first ++ t :: rest)).exps.length = (first ++ t :: rest).length * n := length_rows len
    rw [rows, not_lt]
    exact Nat.mul_le_mul_right n (by simp)
  unfold addAt
  rw [there]
  dsimp only
  cases (t.coeff + c).isZero with
  | false =>
    have coeffs : (ofTerms (first ++ t :: rest)).coeffs.set first.length (t.coeff + c) =
        (ofTerms (first ++ ⟨t.coeff + c, t.exps⟩ :: rest)).coeffs := by simp [ofTerms]
    rw [coeffs]
    simp [ofTerms]
  | true =>
    have coeffs : (ofTerms (first ++ t :: rest)).coeffs.eraseIdx first.length =
        (ofTerms (first ++ rest)).coeffs := by simp [ofTerms, List.eraseIdx_append_of_length_le]
    have exps : (ofTerms (first ++ t :: rest)).exps.take (first.length * n) ++
        (ofTerms (first ++ t :: rest)).exps.drop ((first.length + 1) * n) = (ofTerms (first ++ rest)).exps := by
      unfold ofTerms
      rw [take_rows earlier, drop_rows_succ len, List.flatMap_append]
    rw [Bool.not_true, if_neg Bool.false_ne_true, if_neg inside, coeffs, exps]
    rfl

theorem endsBelow_ofTerms (len : ∀ u ∈ first ++ [t], u.exps.length = n) :
    (ofTerms (first ++ [t])).endsBelow n exps = .ok (t.exps.compare exps == .lt) := by
  have count : (ofTerms (first ++ [t])).coeffs.length = first.length + 1 := by simp [ofTerms]
  unfold endsBelow
  rw [count, if_neg (Nat.succ_ne_zero _), Nat.add_sub_cancel, row_ofTerms len]
  rfl

end Table

namespace Terms

/-- A term that is added passes by the terms above it. -/
theorem insert_append (above : ∀ u ∈ us, t.exps.compare u.exps = .lt) (ts : Terms) :
    insert t (us ++ ts) = us ++ insert t ts := by
  induction us with
  | nil => rfl
  | cons u us ih =>
    obtain ⟨here, later⟩ := List.forall_mem_cons.mp above
    rw [List.cons_append, insert, here, List.cons_append]
    exact congrArg _ (ih later)

/-- A term that is added goes before the terms below it. -/
theorem insert_of_below (below : ∀ u ∈ us, u.exps.compare t.exps = .lt) : insert t us = t :: us := by
  cases us with
  | nil => rfl
  | cons u us =>
    have greater := Exponents.compare_gt_iff.mpr (below u List.mem_cons_self)
    rw [insert, greater]

/-- A term that is added is merged with the one of its row. -/
theorem insert_of_eq (same : u.exps = t.exps) : insert t (u :: us) =
    if (u.coeff + t.coeff).isZero then us else ⟨u.coeff + t.coeff, u.exps⟩ :: us := by
  rw [insert, same, Exponents.compare_self]

/-- A term is added at the spot that divides the sum. -/
theorem table_put {spot : Table.Spot} (h : Descending n us) (divides : spot.Divides t.exps us.reverse) :
    (Table.ofTerms us.reverse).put n t.coeff t.exps spot = .ok (Table.ofTerms (insert t us).reverse) := by
  have lens : ∀ u ∈ us.reverse, u.exps.length = n := fun u hu => h.length (List.mem_reverse.mp hu)
  cases spot with
  | here i =>
    obtain ⟨first, u, rest, split, rfl, same⟩ := divides
    rw [split] at lens ⊢
    obtain rfl : us = rest.reverse ++ u :: first.reverse := by simpa using congrArg List.reverse split
    have between := (Descending.append_iff.mp h).2.2
    rw [insert_append fun w hw => same ▸ between w hw u List.mem_cons_self, insert_of_eq same, Table.put,
      Table.addAt_ofTerms lens]
    cases (u.coeff + t.coeff).isZero <;> simp
  | before i =>
    obtain ⟨first, rest, split, rfl, below, above⟩ := divides
    rw [split] at lens ⊢
    obtain rfl : us = rest.reverse ++ first.reverse := by simpa using congrArg List.reverse split
    rw [insert_append fun w hw => above w (List.mem_reverse.mp hw),
      insert_of_below fun w hw => below w (List.mem_reverse.mp hw), Table.put, Table.insertAt_ofTerms lens]
    simp

/-- **Adding a term to the table of a sum** is adding it to the sum. -/
theorem table_insert (h : Descending n us) (len : t.exps.length = n) (some : t.coeff.isZero = false) :
    (Table.ofTerms us.reverse).append n t.coeff t.exps = .ok (Table.ofTerms (insert t us).reverse) := by
  have lens : ∀ u ∈ us.reverse, u.exps.length = n := fun u hu => h.length (List.mem_reverse.mp hu)
  have ascending : us.reverse.Pairwise fun t u => t.exps.compare u.exps = .lt :=
    List.pairwise_reverse.mpr h.2.2
  have searched : ((Table.ofTerms us.reverse).search n t.exps 0 (Table.ofTerms us.reverse).coeffs.length >>=
      (Table.ofTerms us.reverse).put n t.coeff t.exps) = .ok (Table.ofTerms (insert t us).reverse) := by
    obtain ⟨spot, run, divides⟩ := Table.search_spec lens len ascending (Nat.zero_le _) le_rfl
      (by simp) (by rw [List.drop_length]; simp)
    rw [Table.length_coeffs, run]
    exact table_put h divides
  unfold Table.append
  rw [if_neg (Bool.eq_false_iff.mp some), if_neg (not_not.mpr len)]
  cases us with
  | nil =>
    show Except.ok (⟨[t.coeff], t.exps⟩ : Table) = _
    simp [Table.ofTerms, insert]
  | cons u us =>
    rw [List.reverse_cons] at lens searched ⊢
    rw [Table.endsBelow_ofTerms lens]
    cases order : u.exps.compare t.exps with
    | lt =>
      have greater := Exponents.compare_gt_iff.mpr order
      rw [insert, greater]
      show Except.ok (⟨_, _⟩ : Table) = _
      simp [Table.ofTerms]
    | eq => exact searched
    | gt => exact searched

/-- The sum of the coefficients that a list of terms has for a row. -/
def sumAt (ts : Terms) (exps : Exponents) : Coefficient :=
  ((ts.filter fun t => t.exps = exps).map (·.coeff)).foldr (· + ·) .zero

theorem sumAt_of_ne (ne : ∀ t ∈ ts, t.exps ≠ exps) : sumAt ts exps = .zero := by
  have none : ts.filter (fun t => t.exps = exps) = [] := by simpa [List.filter_eq_nil_iff] using ne
  rw [sumAt, none]
  rfl

/-- The coefficients of a sum are the sums of the coefficients given. -/
theorem toRat_sumAt (len : ∀ t ∈ ts, t.exps.length = n) (lenExps : exps.length = n) :
    (sumAt ts exps).toRat = coeff (exps.toFinsupp n) (toMv n ts) := by
  induction ts with
  | nil => rfl
  | cons t ts ih =>
    obtain ⟨here, later⟩ := List.forall_mem_cons.mp len
    rw [toMv_cons, MvPolynomial.coeff_add, MvPolynomial.coeff_monomial, ← ih later]
    unfold sumAt
    by_cases same : t.exps = exps
    · rw [List.filter_cons_of_pos (by simpa using same), if_pos (congrArg _ same)]
      exact Coefficient.toRat_add _ _
    · have other : t.exps.toFinsupp n ≠ exps.toFinsupp n := fun h =>
        same (Exponents.toFinsupp_injective here lenExps h)
      rw [List.filter_cons_of_neg (by simpa using same), if_neg other, zero_add]

end Terms

/-! ## 5. Adding terms to a polynomial -/

/-- Adds the terms of a list one by one. -/
def Table.appendAll (n : Nat) (table : Table) (ts : List Term) : Except Failure Table :=
  ts.foldlM (fun table t => table.append n t.coeff t.exps) table

namespace Polynomial

variable {vars : List Variable} {p : Polynomial}

/-- Adds the terms of a list one by one. -/
def appendAll (p : Polynomial) (ts : List Term) : Except Failure Polynomial :=
  ts.foldlM (fun p t => p.append t.coeff t.exps) p

/-- A polynomial, written down. -/
def table (p : Polynomial) : Table := .ofTerms p.terms.reverse

/-- **Adding a term to the table** of a polynomial is adding it to the polynomial, and fails where that does. -/
theorem table_append (hp : p.Consistent) (c : Coefficient) (exps : Exponents) :
    p.table.append p.vars.length c exps = (p.append c exps).map table := by
  unfold Polynomial.append
  split
  · rename_i zero
    exact if_pos zero
  rename_i some
  split
  · rename_i mismatch
    rw [Table.append, if_neg some, if_pos mismatch]
    rfl
  · rename_i len
    exact Terms.table_insert (t := ⟨c, exps⟩) hp (not_not.mp len) (Bool.eq_false_iff.mpr some)

/-- **What one term adds to a consistent polynomial.** -/
theorem append_step (hp : p.Consistent) (len : t.exps.length = p.vars.length) :
    ∃ q, p.append t.coeff t.exps = .ok q ∧ q.vars = p.vars ∧ q.Consistent ∧
      Terms.toMv p.vars.length q.terms =
        MvPolynomial.monomial (t.exps.toFinsupp p.vars.length) t.coeff.toRat + Terms.toMv p.vars.length p.terms := by
  unfold Polynomial.append
  cases zero : t.coeff.isZero with
  | true =>
    refine ⟨p, rfl, rfl, hp, ?_⟩
    rw [(Coefficient.isZero_iff_toRat _).mp zero, map_zero, zero_add]
  | false =>
    rw [if_neg Bool.false_ne_true, if_neg (not_not.mpr len)]
    refine ⟨_, rfl, rfl, Terms.Descending.insert len zero hp, ?_⟩
    rw [← Terms.toMv_singleton]
    exact Terms.toMv_insert t p.terms

/-- **What the terms of a list add**, to the polynomial and to its table. -/
theorem appendAll_run : ∀ {ts : List Term} {p : Polynomial}, p.Consistent →
    (∀ t ∈ ts, t.exps.length = p.vars.length) →
      ∃ q, p.appendAll ts = .ok q ∧ p.table.appendAll p.vars.length ts = .ok q.table ∧ q.vars = p.vars ∧
        q.Consistent ∧
        Terms.toMv p.vars.length q.terms = Terms.toMv p.vars.length ts + Terms.toMv p.vars.length p.terms
  | [], p, hp, _ => ⟨p, rfl, rfl, rfl, hp, (zero_add _).symm⟩
  | t :: ts, p, hp, len => by
    obtain ⟨here, later⟩ := List.forall_mem_cons.mp len
    obtain ⟨q, run, vars, hq, value⟩ := append_step hp here
    obtain ⟨r, rest, table, vars', hr, value'⟩ := appendAll_run hq (vars ▸ later)
    have first := table_append hp t.coeff t.exps
    rw [run] at first
    rw [vars] at table value'
    refine ⟨r, ?_, ?_, vars'.trans vars, hr, ?_⟩
    · unfold appendAll
      rw [List.foldlM_cons, run]
      exact rest
    · unfold Table.appendAll
      rw [List.foldlM_cons, first]
      exact table
    · rw [value', value, Terms.toMv_cons]
      ring

/-- The terms of a polynomial are known by its coefficients. -/
theorem Consistent.mem_terms_iff (hp : p.Consistent) (len : ∀ t ∈ ts, t.exps.length = p.vars.length)
    (value : Terms.toMv p.vars.length p.terms = Terms.toMv p.vars.length ts) :
    ⟨c, exps⟩ ∈ p.terms ↔ c = Terms.sumAt ts exps ∧ c.isZero = false := by
  have desc : p.terms.Descending p.vars.length := hp
  constructor
  · intro mem
    have here := desc.length mem
    refine ⟨Coefficient.toRat_injective ?_, desc.2.1 _ mem⟩
    rw [Terms.toRat_sumAt len here, ← value]
    exact (desc.coeff_toMv mem).symm
  · intro entry
    obtain ⟨rfl, some⟩ := entry
    have lenExps : exps.length = p.vars.length := by
      by_contra other
      have none : ∀ t ∈ ts, t.exps ≠ exps := fun t ht same => other (same ▸ len t ht)
      rw [Terms.sumAt_of_ne none] at some
      cases some
    have there : exps.toFinsupp p.vars.length ∈ (Terms.toMv p.vars.length p.terms).support := by
      rw [MvPolynomial.mem_support_iff, value, ← Terms.toRat_sumAt len lenExps]
      exact (Coefficient.isZero_eq_false_iff _).mp some
    obtain ⟨t, ht, same⟩ := desc.mem_support_iff.mp there
    have row : t.exps = exps := Exponents.toFinsupp_injective (desc.length ht) lenExps same
    have coefficient : t.coeff = Terms.sumAt ts exps := by
      refine Coefficient.toRat_injective ?_
      rw [Terms.toRat_sumAt len lenExps, ← value, ← row]
      exact (desc.coeff_toMv ht).symm
    rwa [← coefficient, ← row]

/-- **Terms that are added one by one** to the zero polynomial, in whatever order, never fail and yield one
    consistent polynomial: it has for every row the sum of the coefficients that are given for it, unless that
    is zero. The table that is searched and cut for every term is that of this polynomial in the end. -/
theorem appendAll_spec (vars : List Variable) (len : ∀ t ∈ ts, t.exps.length = vars.length) :
    ∃ p : Polynomial, p.vars = vars ∧ p.Consistent ∧
      (∀ exps c, ⟨c, exps⟩ ∈ p.terms ↔ c = Terms.sumAt ts exps ∧ c.isZero = false) ∧
      ∀ us : Terms, us.Perm ts → (zero vars).appendAll us = .ok p ∧
        Table.appendAll vars.length ⟨[], []⟩ us = .ok p.table := by
  have run {us : Terms} (perm : us.Perm ts) := appendAll_run (p := zero vars) .nil
    fun t (ht : t ∈ us) => len t (perm.subset ht)
  obtain ⟨p, -, -, hvars, hp, value⟩ := run (.refl ts)
  have hvars : p.vars = vars := hvars
  subst hvars
  have value : Terms.toMv p.vars.length p.terms = Terms.toMv p.vars.length ts := value.trans (add_zero _)
  refine ⟨p, rfl, hp, fun exps c => hp.mem_terms_iff len value, fun us perm => ?_⟩
  obtain ⟨q, answer, table, hvars', hq, value'⟩ := run perm
  have permuted : Terms.toMv p.vars.length us = Terms.toMv p.vars.length ts := (perm.map _).sum_eq
  obtain rfl : p = q := by
    refine hp.eq_of_terms hq hvars'.symm ?_
    rw [value, ← permuted]
    exact (value'.trans (add_zero _)).symm
  exact ⟨answer, table⟩

/-- The coefficients of `y` cancel, those of `x` add up, and `0 * x ^ 7 * y ^ 7` adds nothing; the order in
    which they are given does not show. -/
theorem appendAll_spec_at :
    let vars := [Variable.symbol "x", .symbol "y"]
    let ts : List Term := [⟨.ofInt 2, [0, 1]⟩, ⟨.one, [2, 0]⟩, ⟨.ofInt 3, [1, 0]⟩, ⟨.ofInt (-2), [0, 1]⟩,
      ⟨.ofInt 5, [0, 0]⟩, ⟨.zero, [7, 7]⟩, ⟨.ofInt 4, [1, 0]⟩]
    let p : Polynomial := ⟨vars, [⟨.one, [2, 0]⟩, ⟨.ofInt 7, [1, 0]⟩, ⟨.ofInt 5, [0, 0]⟩]⟩
    (∀ t ∈ ts, t.exps.length = vars.length) ∧ (zero vars).appendAll ts = .ok p ∧ p.Consistent ∧
      (zero vars).appendAll ts.reverse = .ok p ∧
      Table.appendAll vars.length ⟨[], []⟩ ts.reverse = .ok ⟨[.ofInt 5, .ofInt 7, .one], [0, 0, 1, 0, 2, 0]⟩ := by
  intro vars ts p
  have len : ∀ t ∈ ts, t.exps.length = vars.length := by decide
  have run : (zero vars).appendAll ts = .ok p := by cbv
  obtain ⟨q, -, consistent, -, all⟩ := appendAll_spec vars len
  obtain rfl : q = p := Except.ok.inj ((all ts (.refl ts)).1.symm.trans run)
  exact ⟨len, run, consistent, all ts.reverse (List.reverse_perm ts)⟩

end Polynomial

end Eliminant
