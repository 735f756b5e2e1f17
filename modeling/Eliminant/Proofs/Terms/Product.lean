import Eliminant.Polynomial.Sparse
import Eliminant.Proofs.Sort
import Eliminant.Proofs.Terms.Arithmetic

/-!
# Products do not depend on how they are accumulated

While a product is accumulated, the table holds what has been added to it so far (`RowTable.Holds`): its
rows are distinct, and its entries add up to a polynomial. Every step adds to that polynomial, and it fails
exactly where exponents do not fit together (`RowTable.Adds`). Dropping zeros and sorting lists the same
polynomial as a descending sum, and since there is only one, the order in which the table is visited does
not matter:

* `RowTable.Adds.foldlM`: **both loops, by one induction**;
* `RowTable.Holds.toTerms`: what a table is listed as;
* `Terms.IsProduct`: what a product answers, and `Terms.IsProduct.unique`;
* **`Terms.mulVisiting_eq_mul`**: every order of visiting gives the same product;
* **`Terms.mul_singleton_left`**, **`Terms.mul_singleton_right`**: multiplying by a term gives the product
  with the sum of that term alone.
-/

namespace Eliminant

open MvPolynomial

variable {n : Nat}

namespace RowTable

variable {row : Exponents} {c : Coefficient} {table visited : RowTable} {t u : Term} {ts us : Terms}
  {f g : MvPolynomial (Fin n) ℚ} {bad : Prop}

/-! ## 1. What a table holds -/

/-- The rows of a table. -/
def rows (table : RowTable) : List Exponents := table.map (·.1)

/-- **The rows of a table are distinct, and its entries add up to `f`.** -/
structure Holds (n : Nat) (table : RowTable) (f : MvPolynomial (Fin n) ℚ) : Prop where
  length : ∀ row ∈ table.rows, row.length = n
  nodup : table.rows.Nodup
  value : Terms.toMv n table.entries = f

theorem Holds.nil : Holds n [] 0 := ⟨by simp [rows], List.nodup_nil, rfl⟩

theorem rows_add (row : Exponents) (c : Coefficient) : ∀ table : RowTable,
    (table.add row c).rows = if row ∈ table.rows then table.rows else table.rows ++ [row]
  | [] => rfl
  | (r, d) :: rest => by
    unfold add
    split
    · rename_i same
      rw [if_pos (by simp [rows, same])]
      rfl
    · rename_i other
      show r :: rows (add row c rest) = if row ∈ r :: rows rest then r :: rows rest else r :: rows rest ++ [row]
      rw [rows_add row c rest]
      simp only [List.mem_cons, Ne.symm other, false_or]
      split <;> rfl

theorem toMv_entries_add (row : Exponents) (c : Coefficient) : ∀ table : RowTable,
    Terms.toMv n (table.add row c).entries =
      Terms.toMv n table.entries + monomial (row.toFinsupp n) c.toRat
  | [] => by simp [add, entries]
  | (r, d) :: rest => by
    unfold add
    split
    · rename_i same
      subst same
      show Terms.toMv n (⟨d + c, r⟩ :: entries rest) = Terms.toMv n (⟨d, r⟩ :: entries rest) + _
      rw [Terms.toMv_cons, Terms.toMv_cons, Coefficient.toRat_add, map_add]
      exact add_right_comm _ _ _
    · show Terms.toMv n (⟨d, r⟩ :: entries (add row c rest)) = Terms.toMv n (⟨d, r⟩ :: entries rest) + _
      rw [Terms.toMv_cons, Terms.toMv_cons, toMv_entries_add row c rest, add_assoc]

theorem Holds.add (h : Holds n table f) (len : row.length = n) (c : Coefficient) :
    Holds n (table.add row c) (f + monomial (row.toFinsupp n) c.toRat) := by
  refine ⟨?_, ?_, by rw [toMv_entries_add, h.value]⟩
  · rw [rows_add]
    split
    · exact h.length
    · exact List.forall_mem_append.mpr ⟨h.length, List.forall_mem_singleton.mpr len⟩
  · rw [rows_add]
    split
    · exact h.nodup
    · rename_i new
      exact List.nodup_append.mpr ⟨h.nodup, List.nodup_singleton row,
        fun r hr s hs same => new (List.mem_singleton.mp hs ▸ same ▸ hr)⟩

/-- What a table holds does not depend on the order of its entries. -/
theorem Holds.perm (h : Holds n table f) (perm : visited.Perm table) : Holds n visited f where
  length row hrow := h.length row ((perm.map _).mem_iff.mp hrow)
  nodup := (perm.map _).nodup_iff.mpr h.nodup
  value := (((perm.map _).map _).sum_eq).trans h.value

/-! ## 2. Accumulating -/

/-- **A step that adds `g` to what a table holds**, and that fails exactly where something is `bad`. -/
def Adds (n : Nat) (bad : Prop) (g : MvPolynomial (Fin n) ℚ) (step : RowTable → Except Failure RowTable) :
    Prop :=
  ∀ table f, Holds n table f →
    Answers (fun e => e = .exponentOverflow ∧ bad) (fun r => ¬ bad ∧ Holds n r (f + g)) (step table)

/-- **A loop adds what its steps add**, and it fails exactly where one of them does. -/
theorem Adds.foldlM {α : Type} {bad : α → Prop} {g : α → MvPolynomial (Fin n) ℚ}
    {step : RowTable → α → Except Failure RowTable} :
    ∀ {as : List α}, (∀ a ∈ as, Adds n (bad a) (g a) (step · a)) →
      Adds n (∃ a ∈ as, bad a) (as.map g).sum (as.foldlM step)
  | [], _ => fun table f h => ⟨by simp, (add_zero f).symm ▸ h⟩
  | a :: as, steps => fun table f h => by
    obtain ⟨first, rest⟩ := List.forall_mem_cons.mp steps
    simp only [List.foldlM_cons, List.exists_mem_cons_iff, List.map_cons, List.sum_cons]
    refine ((first table f h).mono (fun e he => ⟨he.1, .inl he.2⟩) fun _ => id).bind fun next hn => ?_
    refine (foldlM rest next _ hn.2).mono (fun e he => ⟨he.1, .inr he.2⟩) fun r hr => ?_
    exact ⟨not_or.mpr ⟨hn.1, hr.1⟩, add_assoc f (g a) _ ▸ hr.2⟩

theorem adds_addProduct (ht : t.exps.length = n) (hu : u.exps.length = n) :
    Adds n (Exponents.Exceed n t.exps u.exps) (Terms.toMv n [t] * Terms.toMv n [u]) (·.addProduct t u) := by
  intro table f h
  refine ((Exponents.add?_answers ht hu).and (Exponents.add?_fits ht hu)).bind fun row sum => ?_
  obtain ⟨⟨len, rows⟩, fits⟩ := sum
  have product : Terms.toMv n [t] * Terms.toMv n [u] =
      monomial (row.toFinsupp n) (t.coeff * u.coeff).toRat := by
    rw [Terms.toMv_singleton, Terms.toMv_singleton, monomial_mul, rows, Coefficient.toRat_mul]
  rw [product]
  exact ⟨fits, h.add len _⟩

/-- **All products of two terms add up to the product.** -/
theorem ofProducts_answers (ht : ∀ t ∈ ts, t.exps.length = n) (hu : ∀ u ∈ us, u.exps.length = n) :
    Answers (fun e => e = .exponentOverflow ∧ ∃ t ∈ ts, ∃ u ∈ us, Exponents.Exceed n t.exps u.exps)
      (fun table => (¬ ∃ t ∈ ts, ∃ u ∈ us, Exponents.Exceed n t.exps u.exps) ∧
        Holds n table (Terms.toMv n ts * Terms.toMv n us)) (ofProducts ts us) := by
  have sum (vs : Terms) : (vs.reverse.map fun v => Terms.toMv n [v]).sum = Terms.toMv n vs := by
    rw [← Terms.toMv_reverse vs]
    simp only [Terms.toMv_singleton]
    rfl
  have row (t : Term) (len : t.exps.length = n) : Adds n (∃ u ∈ us, Exponents.Exceed n t.exps u.exps)
      (Terms.toMv n [t] * Terms.toMv n us) (us.reverse.foldlM (·.addProduct t ·)) := by
    have := Adds.foldlM fun u hu' => adds_addProduct len (hu u (List.mem_reverse.mp hu'))
    simpa only [List.mem_reverse, List.sum_map_mul_left, sum] using this
  have := Adds.foldlM (fun t ht' => row t (ht t (List.mem_reverse.mp ht'))) [] 0 .nil
  simpa only [List.mem_reverse, List.sum_map_mul_right, sum, zero_add, ofProducts] using this

/-! ## 3. What a table is listed as -/

theorem toMv_entries_filter : ∀ table : RowTable,
    Terms.toMv n (entries (table.filter fun (_, c) => !c.isZero)) = Terms.toMv n table.entries
  | [] => rfl
  | (row, c) :: table => by
    show _ = Terms.toMv n (⟨c, row⟩ :: entries table)
    rw [Terms.toMv_cons, ← toMv_entries_filter table]
    cases zero : c.isZero with
    | false =>
      rw [List.filter_cons_of_pos (by simp [zero])]
      exact Terms.toMv_cons ⟨c, row⟩ _
    | true =>
      rw [List.filter_cons_of_neg (by simp [zero]), (Coefficient.isZero_iff_toRat _).mp zero, map_zero,
        zero_add]

/-- Dropping what has become zero and sorting the rest does not change what a table holds. -/
theorem Holds.sorted (h : Holds n table f) : Holds n table.sorted f := by
  have kept : (rows (table.filter fun (_, c) => !c.isZero)).Sublist table.rows := List.filter_sublist.map _
  refine Holds.perm ⟨fun row mem => h.length row (kept.subset mem), h.nodup.sublist kept, ?_⟩
    (sortBy_perm _ _)
  rw [toMv_entries_filter, h.value]

theorem isZero_of_mem_sorted {entry : Exponents × Coefficient} (h : entry ∈ table.sorted) :
    entry.2.isZero = false := by
  simpa using (List.mem_filter.mp ((sortBy_perm _ _).mem_iff.mp h)).2

theorem Holds.pairwise_sorted (h : Holds n table f) :
    table.sorted.Pairwise fun a b => a.1.compare b.1 = .lt := by
  have length : ∀ entry ∈ table.filter fun (_, c) => !c.isZero, entry.1.length = n := fun entry mem =>
    h.length entry.1 (List.mem_map_of_mem (List.mem_filter.mp mem).1)
  have ascending := pairwise_sortBy (Exponents.ranks length)
  refine (ascending.and (List.pairwise_map.mp h.sorted.nodup)).imp fun {a b} apart => ?_
  cases order : a.1.compare b.1 with
  | lt => rfl
  | eq => exact absurd (Exponents.eq_of_compare_eq order) apart.2
  | gt => exact absurd (Exponents.compare_gt_iff.mp order) apart.1

/-- **A table is listed as a descending sum**, and it is the one that its entries add up to. -/
theorem Holds.toTerms (h : Holds n table f) :
    table.toTerms.Descending n ∧ Terms.toMv n table.toTerms = f := by
  refine ⟨⟨fun t ht => ?_, fun t ht => ?_, ?_⟩, (Terms.toMv_reverse _).trans h.sorted.value⟩
  · obtain ⟨entry, mem, rfl⟩ := List.mem_map.mp (List.mem_reverse.mp ht)
    exact h.sorted.length entry.1 (List.mem_map_of_mem mem)
  · obtain ⟨entry, mem, rfl⟩ := List.mem_map.mp (List.mem_reverse.mp ht)
    exact isZero_of_mem_sorted mem
  · exact List.pairwise_reverse.mpr (List.pairwise_map.mpr h.pairwise_sorted)

end RowTable

namespace Terms

variable {t u : Term} {ts us vs : Terms} {r r' : Except Failure Terms} {visit : RowTable → RowTable}

/-! ## 4. What a product answers -/

/-- Some terms of two sums have exponents that do not fit together. -/
def Exceed (n : Nat) (ts us : Terms) : Prop := ∃ t ∈ ts, ∃ u ∈ us, Exponents.Exceed n t.exps u.exps

/-- **What the product of two sums answers**: the sum that stands for the product, or a failure exactly
    where exponents do not fit together. -/
def IsProduct (n : Nat) (ts us : Terms) : Except Failure Terms → Prop :=
  Answers (fun e => e = .exponentOverflow ∧ Exceed n ts us)
    (fun vs => ¬ Exceed n ts us ∧ Descending n vs ∧ toMv n vs = toMv n ts * toMv n us)

/-- **There is only one answer.** -/
theorem IsProduct.unique (h : IsProduct n ts us r) (h' : IsProduct n ts us r') : r = r' := by
  cases r with
  | error e =>
    cases r' with
    | error e' => rw [h.1, h'.1]
    | ok vs' => exact absurd h.2 h'.1
  | ok vs =>
    cases r' with
    | error e' => exact absurd h'.2 h.1
    | ok vs' => rw [toMv_injective h.2.1 h'.2.1 (h.2.2.trans h'.2.2.symm)]

theorem Exceed.symm (h : Exceed n ts us) : Exceed n us ts := by
  obtain ⟨t, ht, u, hu, exceed⟩ := h
  exact ⟨u, hu, t, ht, (Exponents.exceed_comm _ _).mp exceed⟩

theorem exceed_comm : Exceed n ts us ↔ Exceed n us ts := ⟨.symm, .symm⟩

theorem IsProduct.symm (h : IsProduct n ts us r) : IsProduct n us ts r := by
  unfold IsProduct
  rwa [exceed_comm, mul_comm (toMv n us)]

/-- **Accumulating gives the product**, in whatever order the table is visited. -/
theorem isProduct_mulVisiting (perm : ∀ table, (visit table).Perm table)
    (ht : ∀ t ∈ ts, t.exps.length = n) (hu : ∀ u ∈ us, u.exps.length = n) :
    IsProduct n ts us (mulVisiting visit ts us) :=
  (RowTable.ofProducts_answers ht hu).bind fun table h => ⟨h.1, (h.2.perm (perm table)).toTerms⟩

theorem mulVisiting_id (ts us : Terms) : mulVisiting id ts us = mul ts us := rfl

theorem isProduct_mul (ht : Descending n ts) (hu : Descending n us) : IsProduct n ts us (mul ts us) :=
  isProduct_mulVisiting (fun _ => .refl _) ht.1 hu.1

/-- **The order in which a table is visited does not matter.** -/
theorem mulVisiting_eq_mul (perm : ∀ table, (visit table).Perm table) (ht : Descending n ts)
    (hu : Descending n us) : mulVisiting visit ts us = mul ts us :=
  (isProduct_mulVisiting perm ht.1 hu.1).unique (isProduct_mul ht hu)

/-! ## 5. Products with a single term -/

theorem isProduct_mulTerm (ht : Descending n [t]) (hu : Descending n us) :
    IsProduct n [t] us (mulTerm t us) := by
  obtain ⟨len, some, -, -⟩ := Descending.cons_iff.mp ht
  have exceed : Exceed n [t] us ↔ ∃ u ∈ us, Exponents.Exceed n t.exps u.exps := by simp [Exceed]
  refine ((mulTerm_answers len hu).and (mulTerm_fits len some hu)).mono
    (fun e he => ⟨he.1, exceed.mpr he.2⟩) fun vs h => ?_
  obtain ⟨⟨desc, value⟩, fits⟩ := h
  refine ⟨fun large => ?_, desc, by rw [value, toMv_singleton]⟩
  obtain ⟨u, hu, large⟩ := exceed.mp large
  exact fits u hu large

/-- **Multiplying by a term is the product with it.** -/
theorem mul_singleton_left (ht : Descending n [t]) (hu : Descending n us) : mul [t] us = mulTerm t us :=
  (isProduct_mul ht hu).unique (isProduct_mulTerm ht hu)

theorem mul_singleton_right (ht : Descending n ts) (hu : Descending n [u]) : mul ts [u] = mulTerm u ts :=
  (isProduct_mul ht hu).unique (isProduct_mulTerm hu ht).symm

theorem mul_nil_right (ht : Descending n ts) : mul ts [] = .ok [] :=
  (isProduct_mul ht .nil).unique ⟨by simp [Exceed], .nil, by rw [toMv_nil, mul_zero]⟩

end Terms

end Eliminant
