import Eliminant.Proofs.Nested.Bijection

/-!
# Multiplying out any nested polynomial

Nothing is asked of a nested polynomial that is multiplied out: variables may repeat along a path, exponents
may repeat or descend, coefficients may be zero and levels empty. What its terms are multiplied with is a row
of exponents, and a level adds to the one of its variable.

* `Nested.Path`, `Nested.Exceeds`: the exponents that are met on the way to a node, and a way on which those of
  one variable add up to more than fits;
* `Nested.addTo_answers`: the terms are added behind the row, unless the exponents exceed behind it;
* `Nested.addShared_eq`: one row that all branches change is left by each of them as it was found;
* **`Nested.toPolynomial_spec`**: multiplying out fails exactly where exponents exceed, and else it yields the
  polynomial for which the nested one stands, over the sorted list of its variables.
-/

namespace Eliminant

open MvPolynomial (C X monomial)

namespace Polynomial

variable {v : Variable} {vars : List Variable} {exps : Exponents}

/-- The place of a variable in a list that has it. -/
theorem get_findIdx (mem : v ∈ vars) :
    ∃ i : Fin vars.length, vars.findIdx (· = v) = i ∧ vars.get i = v := by
  have lt : vars.findIdx (· = v) < vars.length := List.findIdx_lt_length_of_exists ⟨v, mem, by simp⟩
  exact ⟨⟨_, lt⟩, rfl, by simpa using List.findIdx_getElem (w := lt)⟩

theorem monomialOf_eq_getD (nodup : vars.Nodup) (mem : v ∈ vars) :
    monomialOf vars exps v = exps.getD (vars.findIdx (· = v)) 0 := by
  obtain ⟨i, place, rfl⟩ := get_findIdx mem
  rw [place, monomialOf_get nodup]

/-- Adding to the exponent of one variable. -/
theorem monomialOf_set (nodup : vars.Nodup) (mem : v ∈ vars) (len : exps.length = vars.length) (e : Nat) :
    monomialOf vars (exps.set (vars.findIdx (· = v)) (exps.getD (vars.findIdx (· = v)) 0 + e)) =
      monomialOf vars exps + .single v e := by
  obtain ⟨i, place, rfl⟩ := get_findIdx mem
  rw [place]
  ext u
  rw [Finsupp.add_apply]
  by_cases listed : u ∈ vars
  · obtain ⟨j, rfl⟩ := List.get_of_mem listed
    rw [monomialOf_get nodup, monomialOf_get nodup]
    obtain rfl | other := eq_or_ne i j
    · rw [Finsupp.single_eq_same]
      simp [len]
    · have apart : vars.get j ≠ vars.get i := fun same => other ((nodup.get_inj_iff.mp same).symm)
      rw [Finsupp.single_eq_of_ne apart, add_zero]
      simp [Fin.val_ne_of_ne other]
  · have apart : u ≠ vars.get i := fun same => listed (same ▸ mem)
    rw [monomialOf_of_notMem listed, monomialOf_of_notMem listed, Finsupp.single_eq_of_ne apart, add_zero]

end Polynomial

open Eliminant.Polynomial (monomialOf monomialOf_eq_getD monomialOf_set)

namespace Nested

variable {e : Nat} {m : Variable →₀ ℕ} {u v : Variable} {vars : List Variable} {exps : Exponents}
  {sum : Terms} {r c : Nested} {t : Nat × Nested} {terms : List (Nat × Nested)}
  {path : List (Variable × Nat)}

/-! ## 1. Exponents along a path -/

/-- **The variables and exponents on the way from the root to a node.** -/
inductive Path : Nested → List (Variable × Nat) → Prop
  | root (r : Nested) : Path r []
  | down (v : Variable) (terms : List (Nat × Nested)) (t : Nat × Nested) (path : List (Variable × Nat))
      (mem : t ∈ terms) (deep : Path t.2 path) : Path (level v terms) ((v, t.1) :: path)

/-- The exponents of one variable along a path, added up. -/
def exponentOf (u : Variable) (path : List (Variable × Nat)) : Nat :=
  ((path.filter fun step => step.1 = u).map fun step => step.2).sum

/-- **Along some path, the exponents of one variable add up to more than fits.** -/
def Exceeds (r : Nested) : Prop := ∃ path, Path r path ∧ ∃ u, maxExponent < exponentOf u path

/-- The same behind a monomial, whose exponents count as well. -/
def ExceedsBehind (m : Variable →₀ ℕ) (r : Nested) : Prop :=
  ∃ path, Path r path ∧ ∃ u, maxExponent < m u + exponentOf u path

theorem exceedsBehind_zero : ExceedsBehind 0 r ↔ r.Exceeds := by simp [ExceedsBehind, Exceeds]

theorem exponentOf_cons :
    exponentOf u ((v, e) :: path) = Finsupp.single v e u + exponentOf u path := by
  unfold exponentOf
  rw [List.filter_cons]
  obtain rfl | other := eq_or_ne v u
  · simp
  · simp [other, Finsupp.single_eq_of_ne other.symm]

/-- The root is a node. -/
theorem exceedsBehind_of_lt (large : maxExponent < m u) : ExceedsBehind m r :=
  ⟨[], .root r, u, large⟩

theorem not_exceedsBehind_constant (fits : ∀ u, m u ≤ maxExponent) (k : Coefficient) :
    ¬ExceedsBehind m (constant k) := by
  rintro ⟨path, ⟨⟩, u, large⟩
  exact (fits u).not_gt large

/-- A path through a level goes on behind one of its exponents. -/
theorem exceedsBehind_level (fits : ∀ u, m u ≤ maxExponent) :
    ExceedsBehind m (level v terms) ↔ ∃ t ∈ terms, ExceedsBehind (m + .single v t.1) t.2 := by
  constructor
  · rintro ⟨path, ⟨⟩ | ⟨_, _, t, path, mem, deep⟩, u, large⟩
    · exact absurd large (fits u).not_gt
    · rw [exponentOf_cons, ← add_assoc] at large
      exact ⟨t, mem, path, deep, u, large⟩
  · rintro ⟨t, mem, path, deep, u, large⟩
    refine ⟨_, .down v terms t path mem deep, u, ?_⟩
    rwa [exponentOf_cons, ← add_assoc]

/-! ## 2. Adding behind a row -/

/-- A coefficient is added with the row as it is. -/
theorem toMv_addTo_constant (k : Coefficient) :
    (Polynomial.mk vars (if k.isZero then sum else sum.insert ⟨k, exps⟩)).toMv =
      (Polynomial.mk vars sum).toMv + monomial (monomialOf vars exps) 1 * (constant k).toMv := by
  rw [toMv, mul_comm, MvPolynomial.C_mul_monomial, mul_one]
  split
  · rename_i zero
    rw [(Coefficient.isZero_iff_toRat k).mp zero, map_zero, add_zero]
  · show MvPolynomial.rename vars.get (Terms.toMv vars.length (sum.insert ⟨k, exps⟩)) = _
    rw [Terms.toMv_insert, map_add, Terms.toMv_singleton, MvPolynomial.rename_monomial, add_comm]
    rfl

/-- **How adding ends** behind a monomial: with what is to be added, or where exponents exceed. -/
def Adds (vars : List Variable) (sum : Terms) (exceeds : Prop) (added : MvPolynomial Variable ℚ)
    (answer : Except Failure Terms) : Prop :=
  Answers (fun f => f = .nestedOverflow ∧ exceeds)
    (fun ts => ¬exceeds ∧ (Polynomial.mk vars ts).toMv = (Polynomial.mk vars sum).toMv + added) answer

theorem Adds.congr {exceeds exceeds' : Prop} {added : MvPolynomial Variable ℚ}
    {answer : Except Failure Terms} (h : Adds vars sum exceeds added answer) (same : exceeds ↔ exceeds') :
    Adds vars sum exceeds' added answer :=
  h.mono (fun _ => .imp_right same.mp) fun _ => .imp_left (mt same.mpr)

/-- One addition after another. -/
theorem Adds.bind {first later : Prop} {f g : MvPolynomial Variable ℚ} {answer : Except Failure Terms}
    {next : Terms → Except Failure Terms} (h : Adds vars sum first f answer)
    (h' : ∀ ts, Adds vars ts later g (next ts)) : Adds vars sum (first ∨ later) (f + g) (answer >>= next) := by
  cases answer with
  | error e => exact ⟨h.1, .inl h.2⟩
  | ok ts =>
    refine (h' ts).mono (fun _ => .imp_right .inr) fun us added => ⟨not_or.mpr ⟨h.1, added.1⟩, ?_⟩
    rw [added.2, h.2, add_assoc]

mutual
/-- **What is added behind a row** is the product with its monomial, and it fails exactly where exponents
    exceed. -/
theorem addTo_answers (nodup : vars.Nodup) : ∀ (r : Nested) {exps : Exponents} (sum : Terms),
    (∀ u, Mentions u r → u ∈ vars) → exps.length = vars.length →
      (∀ u, monomialOf vars exps u ≤ maxExponent) →
        Adds vars sum (ExceedsBehind (monomialOf vars exps) r) (monomial (monomialOf vars exps) 1 * r.toMv)
          (addTo vars exps sum r)
  | constant k, exps, sum, _, _, fits => by
    rw [addTo]
    exact ⟨not_exceedsBehind_constant fits k, toMv_addTo_constant k⟩
  | level v terms, exps, sum, among, len, fits => by
    rw [addTo, toMv]
    have inside : ∀ t ∈ terms, ∀ u, Mentions u t.2 → u ∈ vars :=
      fun t ht u deep => among u (.inside v terms t ht deep)
    exact (addTermsTo_answers nodup terms sum (among v (.here terms)) inside len fits).congr
      (exceedsBehind_level fits).symm

theorem addTermsTo_answers (nodup : vars.Nodup) : ∀ {v : Variable} (terms : List (Nat × Nested))
    {exps : Exponents} (sum : Terms), v ∈ vars → (∀ t ∈ terms, ∀ u, Mentions u t.2 → u ∈ vars) →
      exps.length = vars.length → (∀ u, monomialOf vars exps u ≤ maxExponent) →
        Adds vars sum (∃ t ∈ terms, ExceedsBehind (monomialOf vars exps + .single v t.1) t.2)
          (monomial (monomialOf vars exps) 1 * toMvTerms v terms)
          (addTermsTo vars (vars.findIdx (· = v)) exps sum terms)
  | _, [], exps, sum, _, _, _, _ => by
    rw [addTermsTo, toMvTerms, mul_zero]
    exact ⟨by simp, (add_zero _).symm⟩
  | v, (e, c) :: rest, exps, sum, mem, among, len, fits => by
    obtain ⟨first, later⟩ := List.forall_mem_cons.mp among
    have row := monomialOf_set nodup mem len e
    have exponent : (monomialOf vars exps + .single v e) v = exps.getD (vars.findIdx (· = v)) 0 + e := by
      rw [Finsupp.add_apply, Finsupp.single_eq_same, monomialOf_eq_getD nodup mem]
    rw [addTermsTo]
    split
    · rename_i large
      exact ⟨rfl, _, List.mem_cons_self, exceedsBehind_of_lt (exponent.symm ▸ large)⟩
    · rename_i small
      have fits' : ∀ u, (monomialOf vars exps + .single v e) u ≤ maxExponent := fun u => by
        obtain rfl | other := eq_or_ne u v
        · exact exponent ▸ not_lt.mp small
        · rw [Finsupp.add_apply, Finsupp.single_eq_of_ne other, add_zero]
          exact fits u
      have len' : (exps.set (vars.findIdx (· = v)) (exps.getD (vars.findIdx (· = v)) 0 + e)).length =
          vars.length := by rw [List.length_set, len]
      have inner := addTo_answers nodup c sum first len' (row ▸ fits')
      rw [row] at inner
      have all := inner.bind fun ts => addTermsTo_answers nodup rest ts mem later len fits
      have product : monomial (monomialOf vars exps) (1 : ℚ) * toMvTerms v ((e, c) :: rest) =
          monomial (monomialOf vars exps + .single v e) 1 * c.toMv +
            monomial (monomialOf vars exps) 1 * toMvTerms v rest := by
        rw [toMvTerms, mul_add, ← mul_assoc, MvPolynomial.X_pow_eq_monomial, MvPolynomial.monomial_mul,
          mul_one]
      rw [product]
      refine all.congr ?_
      rw [List.exists_mem_cons_iff]
end

/-! ## 3. One row for all branches -/

mutual
/-- Adds the terms of a nested polynomial to `sum` with a single row, in which every level adds its exponent
    before a coefficient is added and takes it off again behind it. -/
def addShared (vars : List Variable) (exps : Exponents) (sum : Terms) :
    Nested → Except Failure (Exponents × Terms)
  | constant c => .ok (exps, if c.isZero then sum else sum.insert ⟨c, exps⟩)
  | level v terms => addTermsShared vars (vars.findIdx (· = v)) exps sum terms

/-- The terms of a level in the variable number `i`. -/
def addTermsShared (vars : List Variable) (i : Nat) (exps : Exponents) (sum : Terms) :
    List (Nat × Nested) → Except Failure (Exponents × Terms)
  | [] => .ok (exps, sum)
  | (e, c) :: rest =>
    let f := exps.getD i 0 + e
    if maxExponent < f then .error .nestedOverflow
    else do
      let (left, sum) ← addShared vars (exps.set i f) sum c
      if left.getD i 0 < e then .error .indivisible
      else addTermsShared vars i (left.set i (left.getD i 0 - e)) sum rest
end

mutual
/-- **Every branch leaves the shared row as it has found it.** -/
theorem addShared_eq : ∀ (r : Nested) {exps : Exponents} (sum : Terms), (∀ u, Mentions u r → u ∈ vars) →
    exps.length = vars.length →
      addShared vars exps sum r = (addTo vars exps sum r).map fun ts => (exps, ts)
  | constant k, exps, sum, _, _ => by
    rw [addShared, addTo]
    rfl
  | level v terms, exps, sum, among, len => by
    rw [addShared, addTo]
    have listed : vars.findIdx (· = v) < vars.length :=
      List.findIdx_lt_length_of_exists ⟨v, among v (.here terms), by simp⟩
    exact addTermsShared_eq terms sum listed (fun t ht u deep => among u (.inside v terms t ht deep)) len

theorem addTermsShared_eq {i : Nat} : ∀ (terms : List (Nat × Nested)) {exps : Exponents} (sum : Terms),
    i < vars.length → (∀ t ∈ terms, ∀ u, Mentions u t.2 → u ∈ vars) → exps.length = vars.length →
      addTermsShared vars i exps sum terms = (addTermsTo vars i exps sum terms).map fun ts => (exps, ts)
  | [], exps, sum, _, _, _ => by
    rw [addTermsShared, addTermsTo]
    rfl
  | (e, c) :: rest, exps, sum, listed, among, len => by
    obtain ⟨first, later⟩ := List.forall_mem_cons.mp among
    have len' : (exps.set i (exps.getD i 0 + e)).length = vars.length := by rw [List.length_set, len]
    have inner := addShared_eq c sum first len'
    have inside : i < exps.length := len ▸ listed
    have put : (exps.set i (exps.getD i 0 + e)).getD i 0 = exps.getD i 0 + e := by simp [inside]
    have back : (exps.set i (exps.getD i 0 + e)).set i (exps.getD i 0 + e - e) = exps := by
      rw [Nat.add_sub_cancel, List.set_set, List.getD_eq_getElem _ _ inside, List.set_getElem_self]
    rw [addTermsShared, addTermsTo]
    dsimp only
    split
    · rfl
    · rw [inner]
      cases addTo vars (exps.set i (exps.getD i 0 + e)) sum c with
      | error f => rfl
      | ok ts =>
        show (if (exps.set i (exps.getD i 0 + e)).getD i 0 < e then _ else
          addTermsShared vars i ((exps.set i _).set i ((exps.set i _).getD i 0 - e)) ts rest) = _
        rw [put, if_neg (Nat.not_lt.mpr (Nat.le_add_left e _)), back]
        exact addTermsShared_eq rest ts listed later len
end

/-! ## 4. Multiplying out -/

theorem addTo_vars_answers (r : Nested) :
    Adds r.vars [] r.Exceeds r.toMv (r.addTo r.vars (.zeros r.vars.length) []) := by
  have zero : monomialOf r.vars (.zeros r.vars.length) = 0 := by
    rw [monomialOf, Exponents.toFinsupp_zeros, Finsupp.mapDomain_zero]
  have run := addTo_answers (nodup_vars r) r [] (fun _ => mem_vars.mpr) Exponents.length_zeros
    (by rw [zero]; exact fun _ => Nat.zero_le _)
  rw [zero, MvPolynomial.monomial_zero', map_one, one_mul] at run
  exact run.congr exceedsBehind_zero

/-- **Multiplying out is exact**, whatever the nested polynomial looks like. It fails exactly where along some
    path the exponents of one variable add up to more than fits, and else it yields a consistent polynomial over
    the sorted list of the variables that are met, which is the sum of products that is written. One row of
    exponents is enough for all branches: each leaves it as it was. -/
theorem toPolynomial_spec (proper : ∀ v, Mentions v r → v.Proper) :
    (∀ f, r.toPolynomial = .error f ↔ f = .nestedOverflow ∧ r.Exceeds) ∧
      (¬r.Exceeds → ∃ p, r.toPolynomial = .ok p ∧ p.Consistent ∧ Variable.Sorted p.vars ∧
        (∀ v, v ∈ p.vars ↔ Mentions v r) ∧ p.toMv = r.toMv) ∧
      r.addShared r.vars (.zeros r.vars.length) [] =
        (r.addTo r.vars (.zeros r.vars.length) []).map fun ts => (.zeros r.vars.length, ts) := by
  refine ⟨?_, ?_, addShared_eq r [] (fun _ => mem_vars.mpr) Exponents.length_zeros⟩
  · intro f
    have run := addTo_vars_answers r
    rw [toPolynomial_eq_bind]
    cases answer : r.addTo r.vars (.zeros r.vars.length) [] with
    | error g =>
      rw [answer] at run
      obtain ⟨rfl, exceeds⟩ := run
      exact ⟨fun h => by cases h; exact ⟨rfl, exceeds⟩, fun h => h.1 ▸ rfl⟩
    | ok ts =>
      rw [answer] at run
      exact iff_of_false nofun fun h => run.1 h.2
  · intro small
    have run := addTo_vars_answers r
    have whole := toPolynomial_wellFormed r
    rw [toPolynomial_eq_bind] at whole ⊢
    cases answer : r.addTo r.vars (.zeros r.vars.length) [] with
    | error g =>
      rw [answer] at run
      exact absurd run.2 small
    | ok ts =>
      rw [answer] at run whole
      have value : (Polynomial.mk r.vars ts).toMv = r.toMv := by
        rw [run.2, Polynomial.toMv_mk_nil, zero_add]
      have sorted : Variable.Sorted r.vars :=
        Variable.sorted_of_pairwise (nodup_vars r) (fun v hv => proper v (mem_vars.mp hv)) (pairwise_vars r)
      exact ⟨_, rfl, whole.consistent, sorted, fun v => mem_vars, value⟩

/-- A variable twice on a path, terms that cancel and merge, and an empty level; and a path on which two
    exponents of one variable exceed, although nothing lies behind them. -/
theorem toPolynomial_spec_at :
    let x := Variable.symbol "x"
    let y := Variable.symbol "y"
    let z := Variable.symbol "z"
    let one := Nested.constant .one
    let inner := level x [(2, one), (1, constant (-.one)), (2, one)]
    let r := level y [(3, level x [(0, inner), (1, one)]), (0, constant .zero), (5, level z [])]
    let p : Polynomial := ⟨[x, y, z], [⟨.one + .one, [2, 3, 0]⟩]⟩
    let s := level x [(4294967295, level y [(1, level x [(1, level z [])])])]
    (∀ v, Mentions v r → v.Proper) ∧ r.toPolynomial = .ok p ∧ ¬r.Exceeds ∧ p.toMv = r.toMv ∧
      (∀ v, Mentions v s → v.Proper) ∧ s.toPolynomial = .error .nestedOverflow ∧ s.Exceeds := by
  intro x y z one inner r p s
  have proper (a : Nested) (listed : ∀ v ∈ a.vars, v.Proper) (v : Variable) (deep : Mentions v a) : v.Proper :=
    listed v (mem_vars.mpr deep)
  have properR := proper r (by decide)
  have properS := proper s (by decide)
  have run : r.toPolynomial = .ok p := by decide
  have fails : s.toPolynomial = .error .nestedOverflow := by decide
  obtain ⟨failure, exact, -⟩ := toPolynomial_spec properR
  have small : ¬r.Exceeds := fun exceeds => by
    have fails := (failure _).mpr ⟨rfl, exceeds⟩
    rw [run] at fails
    cases fails
  obtain ⟨q, again, -, -, -, value⟩ := exact small
  rw [run] at again
  cases again
  exact ⟨properR, run, small, value, properS, fails, (((toPolynomial_spec properS).1 _).mp fails).2⟩

end Nested

end Eliminant
