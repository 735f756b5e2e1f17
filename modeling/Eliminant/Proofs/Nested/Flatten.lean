import Eliminant.Proofs.Nested.Regular

/-!
# Multiplying out regular nested polynomials

Multiplying out collects the variables, sorts them, and adds the terms one by one. For a regular nested
polynomial the sorted list orders the variables, no exponent is met twice, and every term comes in front
of those before it:

* `Nested.addTo_behind`: what is added below a row are the terms of `Nested.flat`;
* `Nested.Regular.inOrder`: any list orders the variables that holds them and never a smaller one behind
  a greater;
* **`Nested.Regular.toPolynomial_eq`**: what a regular nested polynomial is multiplied out to.
-/

namespace Eliminant

open Terms (front Ascending)

variable {e : Nat} {row : Exponents} {ts us sum : Terms} {u v : Variable} {before vs met : List Variable}
  {r : Nested} {terms : List (Nat × Nested)} {t : Nat × Nested}

/-! ## 1. Adding terms behind a row -/

namespace Terms

/-- Adds terms one by one, each behind a row. -/
def addBehind (row : Exponents) (ts sum : Terms) : Terms :=
  ts.foldl (fun (sum : Terms) t => Terms.insert ⟨t.coeff, row ++ t.exps⟩ sum) sum

theorem addBehind_append : addBehind row (ts ++ us) sum = addBehind row us (addBehind row ts sum) :=
  List.foldl_append

theorem addBehind_front : addBehind row (front e ts) sum = addBehind (row ++ [e]) ts sum := by
  simp [addBehind, front, List.foldl_map]

theorem addBehind_nil {n : Nat} (h : Ascending n ts) : addBehind [] ts [] = ts.reverse :=
  foldl_insert_of_ascending h

end Terms

open Terms (addBehind addBehind_append addBehind_front)

namespace Nested

/-- The coefficients of a level are added behind the row with its exponent. -/
theorem addTermsTo_behind {n : Nat} {listed : Nested → Terms} {vars : List Variable} :
    ∀ {terms : List (Nat × Nested)} (sum : Terms), (∀ t ∈ terms, t.1 ≤ maxExponent) →
      (∀ t ∈ terms, ∀ sum, addTo vars (row ++ [t.1] ++ Exponents.zeros n) sum t.2 =
        .ok (addBehind (row ++ [t.1]) (listed t.2) sum)) →
      addTermsTo vars row.length (row ++ Exponents.zeros (n + 1)) sum terms =
        .ok (addBehind row (terms.flatMap fun t => front t.1 (listed t.2)) sum)
  | [], sum, _, _ => by rw [addTermsTo]; rfl
  | (e, c) :: rest, sum, fits, each => by
    obtain ⟨fit, fits⟩ := List.forall_mem_cons.mp fits
    obtain ⟨first, later⟩ := List.forall_mem_cons.mp each
    have zero : (row ++ Exponents.zeros (n + 1)).getD row.length 0 = 0 := by simp [Exponents.zeros]
    have put : (row ++ Exponents.zeros (n + 1)).set row.length e = row ++ [e] ++ Exponents.zeros n := by
      simp [Exponents.zeros, List.replicate_succ]
    rw [addTermsTo]
    simp only [zero, zero_add, put]
    rw [if_neg (Nat.not_lt.mpr fit), first sum]
    show addTermsTo vars row.length (row ++ Exponents.zeros (n + 1)) _ rest = _
    rw [addTermsTo_behind _ fits later, List.flatMap_cons, addBehind_append, addBehind_front]

/-- **What is added behind a row are the terms.** The variables before those of the list have their
    exponents in the row; the induction moves one variable after the other there. -/
theorem addTo_behind (h : InOrder vs r) : Regular r → ∀ before row (sum : Terms),
    (before ++ vs).Nodup → row.length = before.length →
      addTo (before ++ vs) (row ++ Exponents.zeros vs.length) sum r = .ok (addBehind row (flat vs r) sum) := by
  induction h with
  | constant vs c =>
    intro _ before row sum _ _
    rw [addTo, flat_constant]
    cases c.isZero <;> rfl
  | skip v vs r later ih =>
    intro regular before row sum nodup len
    have new : v ∉ vs := (List.nodup_cons.mp (List.nodup_append.mp nodup).2.1).1
    have zero : row ++ Exponents.zeros (v :: vs).length = row ++ [0] ++ Exponents.zeros vs.length :=
      List.append_cons row 0 (Exponents.zeros vs.length)
    rw [List.append_cons] at nodup ⊢
    rw [later.flat_skip new, addBehind_front, zero]
    exact ih regular _ _ sum nodup (by simp [len])
  | level v vs terms each ih =>
    rintro ⟨⟩ before row sum nodup len
    rename_i regular here
    have new : v ∉ before := fun old =>
      (List.nodup_append.mp nodup).2.2 v old v List.mem_cons_self rfl
    have place : (before ++ v :: vs).findIdx (· = v) = row.length := by
      rw [List.findIdx_append, if_neg (by simpa using new), List.findIdx_cons]
      simp [len]
    rw [addTo, place, flat_level]
    refine addTermsTo_behind sum here.fits fun t ht sum => ?_
    rw [List.append_cons] at nodup ⊢
    exact ih t ht (regular t ht) _ _ sum nodup (by simp [len])

/-! ## 2. The variables that are met -/

/-- A variable has a level somewhere. -/
inductive Mentions (u : Variable) : Nested → Prop
  | here (terms : List (Nat × Nested)) : Mentions u (level u terms)
  | inside (v : Variable) (terms : List (Nat × Nested)) (t : Nat × Nested) (mem : t ∈ terms)
      (deep : Mentions u t.2) : Mentions u (level v terms)

theorem not_mentions_constant {c : Coefficient} : ¬Mentions u (constant c) := nofun

theorem mentions_level : Mentions u (level v terms) ↔ u = v ∨ ∃ t ∈ terms, Mentions u t.2 := by
  constructor
  · rintro (⟨⟩ | ⟨_, _, t, mem, deep⟩)
    · exact .inl rfl
    · exact .inr ⟨t, mem, deep⟩
  · rintro (rfl | ⟨t, mem, deep⟩)
    · exact .here terms
    · exact .inside v terms t mem deep

mutual
/-- The variables that are met are collected. -/
theorem mem_collect : ∀ (r : Nested) {met : List Variable},
    u ∈ collect met r ↔ u ∈ met ∨ Mentions u r
  | constant _, _ => by
    rw [collect]
    exact (or_iff_left not_mentions_constant).symm
  | level v terms, met => by
    rw [collect, mem_collectTerms terms, mentions_level, ← or_assoc]
    refine or_congr_left ?_
    split
    · rename_i old
      exact ⟨Or.inl, fun h => h.elim id fun same => same ▸ old⟩
    · rw [List.mem_append, List.mem_singleton]

theorem mem_collectTerms : ∀ (terms : List (Nat × Nested)) {met : List Variable},
    u ∈ collectTerms met terms ↔ u ∈ met ∨ ∃ t ∈ terms, Mentions u t.2
  | [], _ => by simp [collectTerms]
  | (_, c) :: rest, _ => by
    rw [collectTerms, mem_collectTerms rest, mem_collect c, List.exists_mem_cons_iff, or_assoc]
end

theorem InOrder.mem_of_mentions (h : InOrder vs r) : Mentions u r → u ∈ vs := by
  induction h with
  | constant vs c => exact fun deep => absurd deep not_mentions_constant
  | skip v vs r later ih => exact fun deep => List.mem_cons_of_mem v (ih deep)
  | level v vs terms each ih =>
    intro deep
    rcases mentions_level.mp deep with rfl | ⟨t, mem, deep⟩
    · exact List.mem_cons_self
    · exact List.mem_cons_of_mem v (ih t mem deep)

/-- The variables of a regular nested polynomial ascend inwards on the whole way. -/
theorem Regular.compare_lt (h : Regular r) : (∀ w ∈ r.outermost?, v.compare w = .lt) → Mentions u r →
    v.compare u = .lt := by
  induction h generalizing v with
  | constant c => exact fun _ deep => absurd deep not_mentions_constant
  | level w terms here each ih =>
    intro below deep
    rcases mentions_level.mp deep with rfl | ⟨t, mem, deep⟩
    · exact below u rfl
    · exact Variable.compare_trans (below w rfl) (ih t mem (here.inwards t mem) deep)

/-- **A list orders the variables if it holds them, and none that is smaller behind a greater one.** -/
theorem Regular.inOrder : ∀ {vs : List Variable} {r : Nested}, Regular r → vs.Nodup →
    vs.Pairwise (fun u v => v.compare u ≠ .lt) → (∀ u, Mentions u r → u ∈ vs) → InOrder vs r
  | vs, .constant c, _, _, _, _ => .constant vs c
  | [], .level u terms, _, _, _, mem => absurd (mem u (.here terms)) List.not_mem_nil
  | v :: vs, .level u terms, regular, nodup, sorted, mem => by
    have nodupRest := (List.nodup_cons.mp nodup).2
    obtain ⟨first, sortedRest⟩ := List.pairwise_cons.mp sorted
    obtain rfl | ne := eq_or_ne u v
    · cases regular with
      | level _ _ here each =>
        refine .level u vs terms fun t ht => (each t ht).inOrder nodupRest sortedRest fun w deep => ?_
        have lt := (each t ht).compare_lt (here.inwards t ht) deep
        have later := mem w (.inside u terms t ht deep)
        exact List.mem_of_ne_of_mem (Variable.ne_of_compare_lt lt).symm later
    · refine .skip v vs _ (regular.inOrder nodupRest sortedRest fun w deep => ?_)
      have later : u ∈ vs := List.mem_of_ne_of_mem ne (mem u (.here terms))
      refine List.mem_of_ne_of_mem ?_ (mem w deep)
      rintro rfl
      cases regular with
      | level _ _ here each =>
        rcases mentions_level.mp deep with same | ⟨t, ht, deep⟩
        · exact ne same.symm
        · exact first u later ((each t ht).compare_lt (here.inwards t ht) deep)

/-! ## 3. Multiplying out -/

/-- The sorted list of the variables. -/
def vars (r : Nested) : List Variable := Variable.sort (r.collect [])

theorem toPolynomial_eq_bind (r : Nested) : r.toPolynomial =
    (r.addTo r.vars (.zeros r.vars.length) []).bind fun ts => .ok ⟨r.vars, ts⟩ := rfl

theorem nodup_vars (r : Nested) : r.vars.Nodup :=
  (sortBy_perm _ _).nodup_iff.mpr (nodup_collect r List.nodup_nil)

theorem mem_vars : u ∈ r.vars ↔ Mentions u r := by
  refine (sortBy_perm _ _).mem_iff.trans ((mem_collect r).trans ?_)
  exact or_iff_right List.not_mem_nil

theorem pairwise_vars (r : Nested) : r.vars.Pairwise fun u v => v.compare u ≠ .lt :=
  pairwise_sortBy (ranks_of_transCmp id _)

theorem Regular.inOrder_vars (h : Regular r) : InOrder r.vars r :=
  h.inOrder (nodup_vars r) (pairwise_vars r) fun _ => mem_vars.mpr

/-- **A regular nested polynomial is multiplied out to its terms.** -/
theorem Regular.toPolynomial_eq (h : Regular r) :
    r.toPolynomial = .ok ⟨r.vars, (flat r.vars r).reverse⟩ := by
  have run : r.addTo r.vars (.zeros r.vars.length) [] = .ok (addBehind [] (flat r.vars r) []) :=
    addTo_behind h.inOrder_vars h [] [] [] (nodup_vars r) rfl
  rw [Terms.addBehind_nil (h.inOrder_vars.relisted h (nodup_vars r)).ascending] at run
  rw [toPolynomial_eq_bind, run]
  rfl

end Nested

end Eliminant
