import Eliminant.Division
import Eliminant.Proofs.Ideal.Combination
import Eliminant.Proofs.Terms.Arithmetic

/-!
# Division by several sums is correct

A division keeps an invariant (`Division.Invariant`): the dividend is the sum of what was
eliminated, the remainder and the rest; eliminations are proper and go down; no leading row divides
a row of the remainder. Every step keeps it and makes the leading row of the rest smaller, so

* `Division.run_answers`: **a division fails only where an exponent does not fit** -- the guard that
  asks whether the rest gets smaller never fires -- and ends with the invariant;
* `Terms.divide_answers`: eliminations and remainder of a sum;
* `Terms.remainder_answers`: the remainder differs from the dividend by a combination of the divisors
  that goes no higher than the dividend;
* `Terms.divide_of_undivided`: a sum of which no divisor eliminates a term is its own remainder.
-/

namespace Eliminant

open MvPolynomial
open MonomialOrder (lex)

variable {n : Nat} {t : Term} {ts us dividend : Terms} {divisors : List Terms}

/-! ## 1. The polynomials of a system -/

section System

open Terms (toMv leadRow)

/-- The polynomials in `n` variables that the sums of a list stand for. -/
def system (n : Nat) (sums : List Terms) : Set (MvPolynomial (Fin n) ℚ) :=
  {f | f ∈ sums.map (toMv n)}

theorem mem_system {sums : List Terms} {f : MvPolynomial (Fin n) ℚ} :
    f ∈ system n sums ↔ ∃ ts ∈ sums, toMv n ts = f := List.mem_map

theorem system_insert (before : List Terms) (ts : Terms) (after : List Terms) :
    system n (before ++ ts :: after) = insert (toMv n ts) (system n (before ++ after)) := by
  ext f
  simp only [mem_system, Set.mem_insert_iff, List.mem_append, List.mem_cons]
  constructor
  · intro h
    obtain ⟨us, hus | rfl | hus, rfl⟩ := h
    · exact Or.inr ⟨us, Or.inl hus, rfl⟩
    · exact Or.inl rfl
    · exact Or.inr ⟨us, Or.inr hus, rfl⟩
  · intro h
    rcases h with rfl | ⟨us, hus | hus, rfl⟩
    · exact ⟨ts, Or.inr (Or.inl rfl), rfl⟩
    · exact ⟨us, Or.inl hus, rfl⟩
    · exact ⟨us, Or.inr (Or.inr hus), rfl⟩

theorem toMv_mem_system {sums : List Terms} (h : ts ∈ sums) : toMv n ts ∈ system n sums :=
  mem_system.mpr ⟨ts, h, rfl⟩

/-- No leading monomial of `sums` divides the monomial `e`. -/
def Undivided (n : Nat) (sums : List Terms) (e : Fin n →₀ ℕ) : Prop :=
  ∀ ts ∈ sums, ts ≠ [] → ¬ Exponents.toFinsupp n (leadRow ts) ≤ e

end System

namespace Division

open Terms

/-! ## 2. The first divisor -/

theorem firstDivisor_eq_none {row : Exponents} : ∀ {divisors : List Terms} {i : Nat},
    firstDivisor row i divisors = none →
      ∀ d ∈ divisors, d ≠ [] → (leadRow d).divides row = false
  | [], _, _ => by simp
  | [] :: divisors, i, h => by
    have h : firstDivisor row (i + 1) divisors = none := h
    have later := firstDivisor_eq_none h
    intro d hd ne
    rcases List.mem_cons.mp hd with rfl | hd
    · exact absurd rfl ne
    · exact later d hd ne
  | (lead :: more) :: divisors, i, h => by
    unfold firstDivisor at h
    split at h
    · cases h
    · rename_i no
      intro d hd ne
      rcases List.mem_cons.mp hd with rfl | hd
      · exact Bool.not_eq_true _ ▸ no
      · exact firstDivisor_eq_none h d hd ne

/-- **The first divisor is the one of the least number whose leading row divides.** -/
theorem firstDivisor_eq_some {row : Exponents} {lead : Term} {d : Terms} :
    ∀ {divisors : List Terms} {i j : Nat}, firstDivisor row i divisors = some (j, lead, d) →
      ∃ k, j = i + k ∧ divisors.getD k [] = d ∧ (∃ more, d = lead :: more) ∧
        lead.exps.divides row = true ∧
        ∀ l < k, divisors.getD l [] ≠ [] → (leadRow (divisors.getD l [])).divides row = false
  | [], _, _, h => nomatch h
  | [] :: divisors, i, j, h => by
    have h : firstDivisor row (i + 1) divisors = some (j, lead, d) := h
    obtain ⟨k, hj, hd, shape, div, first⟩ := firstDivisor_eq_some h
    refine ⟨k + 1, by omega, hd, shape, div, fun l hl ne => ?_⟩
    cases l with
    | zero => exact absurd rfl ne
    | succ l => exact first l (by omega) ne
  | (head :: more) :: divisors, i, j, h => by
    unfold firstDivisor at h
    split at h
    · rename_i yes
      cases h
      exact ⟨0, rfl, rfl, ⟨more, rfl⟩, yes, fun l hl => absurd hl (Nat.not_lt_zero l)⟩
    · rename_i no
      obtain ⟨k, hj, hd, shape, div, first⟩ := firstDivisor_eq_some h
      refine ⟨k + 1, by omega, hd, shape, div, fun l hl ne => ?_⟩
      cases l with
      | zero => exact Bool.not_eq_true _ ▸ no
      | succ l => exact first l (by omega) ne

/-! ## 3. The invariant -/

/-- The divisor of an elimination. -/
def divisorOf (divisors : List Terms) (e : Elimination) : Terms := divisors.getD e.1 []

/-- The monomial that an elimination cancels. -/
noncomputable def target (n : Nat) (divisors : List Terms) (e : Elimination) : Fin n →₀ ℕ :=
  e.2.exps.toFinsupp n + Exponents.toFinsupp n (leadRow (divisorOf divisors e))

/-- The product that an elimination subtracts. -/
noncomputable def product (n : Nat) (divisors : List Terms) (e : Elimination) :
    MvPolynomial (Fin n) ℚ :=
  monomial (e.2.exps.toFinsupp n) e.2.coeff.toRat * toMv n (divisorOf divisors e)

/-- An elimination with the first divisor whose leading monomial divides what is cancelled. -/
structure Proper (n : Nat) (divisors : List Terms) (e : Elimination) : Prop where
  length : e.2.exps.length = n
  coeff : e.2.coeff.isZero = false
  divisor : divisorOf divisors e ≠ []
  first : ∀ j < e.1, divisors.getD j [] ≠ [] →
    ¬ Exponents.toFinsupp n (leadRow (divisors.getD j [])) ≤ target n divisors e
  /-- the product that is subtracted fits -/
  fits : ∀ u ∈ divisorOf divisors e, ¬ Exponents.Exceed n e.2.exps u.exps

/-- How far the terms of the dividend are still there: all of them, or those before the term `t` that
    was eliminated first, and then only terms below `t`. -/
def Shape (dividend : Terms) (s : Division) : Prop :=
  (s.eliminations = [] ∧ s.remainder.reverse ++ s.rest = dividend) ∨
    (s.eliminations ≠ [] ∧ ∃ front t back more, dividend = front ++ t :: back ∧
      s.remainder.reverse = front ++ more ∧ (∀ u ∈ more, u.exps.compare t.exps = .lt) ∧
      ∀ u ∈ s.rest, u.exps.compare t.exps = .lt)

/-- **The invariant of a division.** -/
structure Invariant (n : Nat) (divisors : List Terms) (dividend : Terms) (s : Division) : Prop where
  start : Descending n dividend
  rest : Descending n s.rest
  remainder : Descending n s.remainder.reverse
  sum : toMv n dividend = (s.eliminations.map (product n divisors)).sum
    + toMv n s.remainder.reverse + toMv n s.rest
  proper : ∀ e ∈ s.eliminations, Proper n divisors e
  irreducible : ∀ t ∈ s.remainder, Undivided n divisors (t.exps.toFinsupp n)
  below : ∀ t ∈ s.remainder, ∀ u ∈ s.rest, u.exps.compare t.exps = .lt
  below_target : ∀ e ∈ s.eliminations, ∀ u ∈ s.rest,
    lex.toSyn (u.exps.toFinsupp n) < lex.toSyn (target n divisors e)
  targets : s.eliminations.Pairwise fun e e' =>
    lex.toSyn (target n divisors e) < lex.toSyn (target n divisors e')
  target_le : ∀ e ∈ s.eliminations,
    lex.toSyn (target n divisors e) ≤ lex.toSyn (lex.degree (toMv n dividend))
  rest_le : ∀ u ∈ s.rest,
    lex.toSyn (u.exps.toFinsupp n) ≤ lex.toSyn (lex.degree (toMv n dividend))
  shape : Shape dividend s

theorem getD_mem {k : Nat} (ne : divisors.getD k [] ≠ []) : divisors.getD k [] ∈ divisors := by
  rw [List.getD_eq_getElem?_getD] at ne ⊢
  cases hk : divisors[k]? with
  | none =>
    rw [hk] at ne
    exact absurd rfl ne
  | some d => exact List.mem_of_getElem? hk

theorem Proper.mem {e : Elimination} (h : Proper n divisors e) :
    divisorOf divisors e ∈ divisors := getD_mem h.divisor

theorem invariant_start (h : Descending n dividend) :
    Invariant n divisors dividend ⟨[], [], dividend⟩ where
  start := h
  rest := h
  remainder := .nil
  sum := by simp
  proper := List.forall_mem_nil _
  irreducible := List.forall_mem_nil _
  below := List.forall_mem_nil _
  below_target := List.forall_mem_nil _
  targets := List.Pairwise.nil
  target_le := List.forall_mem_nil _
  rest_le u hu := MonomialOrder.le_degree (h.mem_support_iff.mpr ⟨u, hu, rfl⟩)
  shape := Or.inl ⟨rfl, rfl⟩

theorem Invariant.eq_dividend {eliminations : List Elimination} {r : Terms}
    (h : Invariant n divisors dividend ⟨eliminations.reverse, r.reverse, []⟩)
    (none : eliminations = []) : r = dividend := by
  rcases h.shape with ⟨-, same⟩ | ⟨some, -⟩
  · simpa using same
  · exact absurd (List.reverse_eq_nil_iff.mpr none) some

/-- **The dividend is the sum of what was eliminated and the remainder.** -/
theorem Invariant.dividend_eq {eliminations : List Elimination} {r : Terms}
    (h : Invariant n divisors dividend ⟨eliminations.reverse, r.reverse, []⟩) :
    toMv n dividend = (eliminations.map (product n divisors)).sum + toMv n r := by
  have := h.sum
  simpa only [List.map_reverse, List.sum_reverse, List.reverse_reverse, toMv_nil, add_zero] using this

theorem isDown_rows : ∀ {ts : Terms}, Descending n ts → IsDown Exponents.Below (rows ts)
  | [], _ => trivial
  | [_], _ => trivial
  | t :: u :: ts, h => by
    refine ⟨⟨?_, h.below List.mem_cons_self⟩, isDown_rows h.tail⟩
    exact (h.tail.length List.mem_cons_self).trans (h.length List.mem_cons_self).symm

theorem lex_rows {back more : Terms} (hmore : ∀ u ∈ more, u.exps.Below t.exps) :
    ∀ front : Terms, List.Lex Exponents.Below (rows (front ++ more)) (rows (front ++ t :: back))
  | u :: front => List.Lex.cons (lex_rows hmore front)
  | [] => by
    cases more with
    | nil => exact List.Lex.nil
    | cons u more => exact List.Lex.rel (hmore u List.mem_cons_self)

/-- **A remainder after an elimination has smaller rows than the dividend.** -/
theorem Invariant.downLex {eliminations : List Elimination} {r : Terms}
    (h : Invariant n divisors dividend ⟨eliminations.reverse, r.reverse, []⟩)
    (some : eliminations ≠ []) : DownLex Exponents.Below (rows r) (rows dividend) := by
  have desc : Descending n r := by simpa using h.remainder
  refine ⟨isDown_rows desc, ?_⟩
  rcases h.shape with ⟨none, -⟩ | ⟨-, front, t, back, more, hd, hr, hmore, -⟩
  · exact absurd (List.reverse_eq_nil_iff.mp none) some
  · have split : r = front ++ more := by simpa using hr
    have ht := h.start.length (hd ▸ List.mem_append_right front List.mem_cons_self)
    rw [hd, split]
    refine lex_rows (fun u hu => ⟨?_, hmore u hu⟩) front
    exact (desc.length (split ▸ List.mem_append_right front hu)).trans ht.symm

/-! ## 4. A step keeps the invariant -/

variable {s next : Division} {rest : Terms}

/-- A leading term that no divisor eliminates moves to the remainder. -/
theorem Invariant.keep (h : Invariant n divisors dividend s) (hs : s.rest = t :: rest)
    (irr : Undivided n divisors (t.exps.toFinsupp n)) :
    Invariant n divisors dividend { s with remainder := t :: s.remainder, rest := rest } := by
  have mem : ∀ u ∈ rest, u ∈ s.rest := fun u hu => hs ▸ List.mem_cons_of_mem t hu
  have ht : t ∈ s.rest := hs ▸ List.mem_cons_self
  have desc : Descending n (t :: rest) := hs ▸ h.rest
  have lists : (t :: s.remainder).reverse ++ rest = s.remainder.reverse ++ s.rest := by
    rw [List.reverse_cons, List.append_assoc, hs]
    rfl
  refine ⟨h.start, desc.tail, ?_, ?_, h.proper, ?_, ?_, ?_, h.targets, h.target_le, ?_, ?_⟩
  · rw [List.reverse_cons, Descending.append_iff]
    refine ⟨h.remainder, Descending.cons_iff.mpr ⟨h.rest.1 t ht, h.rest.2.1 t ht, by simp, .nil⟩, ?_⟩
    intro u hu v hv
    rw [List.mem_singleton.mp hv]
    exact h.below u (List.mem_reverse.mp hu) t ht
  · rw [add_assoc, ← toMv_append, lists, toMv_append, ← add_assoc]
    exact h.sum
  · intro u hu
    rcases List.mem_cons.mp hu with rfl | hu
    · exact irr
    · exact h.irreducible u hu
  · intro u hu v hv
    rcases List.mem_cons.mp hu with rfl | hu
    · exact desc.below hv
    · exact h.below u hu v (mem v hv)
  · exact fun e he u hu => h.below_target e he u (mem u hu)
  · exact fun u hu => h.rest_le u (mem u hu)
  · rcases h.shape with ⟨none, same⟩ | ⟨some, front, u, back, more, hd, hr, hmore, hrest⟩
    · exact Or.inl ⟨none, lists.trans same⟩
    · refine Or.inr ⟨some, front, u, back, more ++ [t], hd, ?_, ?_, fun v hv => hrest v (mem v hv)⟩
      · rw [List.reverse_cons, hr, List.append_assoc]
      · intro v hv
        rcases List.mem_append.mp hv with hv | hv
        · exact hmore v hv
        · rw [List.mem_singleton.mp hv]
          exact hrest t ht

/-- Terms that cancel leave only terms below them. -/
theorem below_of_cancel {us : Terms} (h : Descending n (t :: rest)) (hu : Descending n us)
    (deg : lex.degree (toMv n us) = t.exps.toFinsupp n)
    (lead : lex.leadingCoeff (toMv n us) = t.coeff.toRat) :
    ∀ v ∈ Terms.sub (t :: rest) us, v.exps.compare t.exps = .lt := by
  intro v hv
  have desc := h.sub hu
  have mem : v.exps.toFinsupp n ∈ (toMv n (Terms.sub (t :: rest) us)).support :=
    desc.mem_support_iff.mpr ⟨v, hv, rfl⟩
  rw [Exponents.compare_lt_iff_lex (desc.length hv) (h.length List.mem_cons_self)]
  rw [toMv_sub] at mem
  refine lt_of_le_of_ne ?_ fun eq => ?_
  · refine (MonomialOrder.le_degree mem).trans (MonomialOrder.degree_sub_le.trans ?_)
    rw [h.degree_toMv, deg]
    exact max_le le_rfl le_rfl
  · rw [lex.toSyn.injective eq, mem_support_iff, coeff_sub, h.coeff_toMv List.mem_cons_self] at mem
    rw [← deg] at mem
    exact mem (sub_eq_zero.mpr lead.symm)

/-- A leading term that a divisor eliminates leaves only terms below it. -/
theorem Invariant.eliminate (h : Invariant n divisors dividend s) (hs : s.rest = t :: rest)
    {e : Elimination} (proper : Proper n divisors e)
    (htarget : target n divisors e = t.exps.toFinsupp n) {us : Terms} (hu : Descending n us)
    (sum : toMv n us = product n divisors e)
    (hbelow : ∀ v ∈ Terms.sub (t :: rest) us, v.exps.compare t.exps = .lt) :
    Invariant n divisors dividend { s with
      eliminations := e :: s.eliminations
      rest := Terms.sub (t :: rest) us } := by
  have desc : Descending n (t :: rest) := hs ▸ h.rest
  have ht : t ∈ s.rest := hs ▸ List.mem_cons_self
  have len := desc.length List.mem_cons_self
  have diff := desc.sub hu
  -- what is below `t` is below everything that `t` is below
  have below : ∀ v ∈ Terms.sub (t :: rest) us,
      lex.toSyn (v.exps.toFinsupp n) < lex.toSyn (t.exps.toFinsupp n) := fun v hv =>
    (Exponents.compare_lt_iff_lex (diff.length hv) len).mp (hbelow v hv)
  have trans {w : Term} (hw : w.exps.length = n) (lt : t.exps.compare w.exps = .lt) {v : Term}
      (hv : v ∈ Terms.sub (t :: rest) us) : v.exps.compare w.exps = .lt :=
    Exponents.compare_trans (diff.length hv) len hw (hbelow v hv) lt
  refine ⟨h.start, diff, h.remainder, ?_, ?_, h.irreducible, ?_, ?_, ?_, ?_, ?_, ?_⟩
  · rw [List.map_cons, List.sum_cons, toMv_sub, sum, h.sum, hs]
    ring
  · exact List.forall_mem_cons.mpr ⟨proper, h.proper⟩
  · intro u hu v hv
    exact trans (h.remainder.length (List.mem_reverse.mpr hu)) (h.below u hu t ht) hv
  · refine List.forall_mem_cons.mpr ⟨?_, fun e' he' v hv => ?_⟩
    · rw [htarget]
      exact below
    · exact (below v hv).trans (h.below_target e' he' t ht)
  · refine List.pairwise_cons.mpr ⟨fun e' he' => ?_, h.targets⟩
    rw [htarget]
    exact h.below_target e' he' t ht
  · refine List.forall_mem_cons.mpr ⟨?_, h.target_le⟩
    rw [htarget]
    exact h.rest_le t ht
  · exact fun v hv => (below v hv).le.trans (h.rest_le t ht)
  · refine Or.inr ⟨List.cons_ne_nil _ _, ?_⟩
    rcases h.shape with ⟨-, same⟩ | ⟨-, front, u, back, more, hd, hr, hmore, hrest⟩
    · refine ⟨s.remainder.reverse, t, rest, [], ?_, (List.append_nil _).symm, by simp, hbelow⟩
      rw [← same, hs]
    · refine ⟨front, u, back, more, hd, hr, hmore, fun v hv => trans ?_ (hrest t ht) hv⟩
      exact h.start.length (hd ▸ List.mem_append_right front List.mem_cons_self)

theorem leadBelow_of_forall (ht : t.exps.length = n) (hus : Descending n us)
    (h : ∀ u ∈ us, u.exps.compare t.exps = .lt) : us.LeadBelow (t :: rest) := by
  cases us with
  | nil => exact trivial
  | cons u us =>
    exact ⟨(hus.length List.mem_cons_self).trans ht.symm, h u List.mem_cons_self⟩

/-- The quotient of two terms of which the second divides the first. -/
theorem exists_term_div {lead : Term} (ht : t.exps.length = n) (hl : lead.exps.length = n)
    (zt : t.coeff.isZero = false) (zl : lead.coeff.isZero = false)
    (hdiv : lead.exps.divides t.exps = true) :
    ∃ q, t.div lead = .ok q ∧ q.exps.length = n ∧ q.coeff.isZero = false ∧
      q.exps.toFinsupp n + lead.exps.toFinsupp n = t.exps.toFinsupp n ∧
      q.coeff.toRat * lead.coeff.toRat = t.coeff.toRat := by
  obtain ⟨e, he, len, sub⟩ := Exponents.sub?_of_divides ht hl hdiv
  obtain ⟨c, hc, quot⟩ := Coefficient.exists_div t.coeff zl
  rw [Coefficient.isZero_eq_false_iff] at zt zl
  have cancel : c.toRat * lead.coeff.toRat = t.coeff.toRat := by
    rw [quot, div_mul_cancel₀ _ zl]
  refine ⟨⟨c, e⟩, ?_, len, ?_, ?_, cancel⟩
  · unfold Term.div
    rw [he, hc]
    rfl
  · rw [Coefficient.isZero_eq_false_iff]
    exact left_ne_zero_of_mul (cancel ▸ zt)
  · show e.toFinsupp n + _ = _
    rw [sub, tsub_add_cancel_of_le ((Exponents.divides_iff hl ht).mp hdiv)]

theorem not_le_of_divides_eq_false {d : Terms} {row : Exponents} (hd : Descending n d)
    (ne : d ≠ []) (hrow : row.length = n) (h : (leadRow d).divides row = false) :
    ¬ Exponents.toFinsupp n (leadRow d) ≤ row.toFinsupp n := by
  cases d with
  | nil => exact absurd rfl ne
  | cons lead more =>
    intro le
    have := (Exponents.divides_iff (hd.length List.mem_cons_self) hrow).mpr le
    rw [show lead.exps.divides row = false from h] at this
    cases this

/-- **A step fails only where an exponent does not fit, keeps the invariant, and makes the leading
    row of the rest smaller.** -/
theorem step_answers (hds : ∀ d ∈ divisors, Descending n d)
    (h : Invariant n divisors dividend s) :
    Answers Failure.IsOverflow
      (fun out => (out = none ∧ s.rest = []) ∨ ∃ next, out = some next ∧
        Invariant n divisors dividend next ∧ next.rest.LeadBelow s.rest)
      (step divisors s) := by
  unfold step
  cases hs : s.rest with
  | nil => exact Or.inl ⟨rfl, rfl⟩
  | cons t rest =>
    have desc : Descending n (t :: rest) := hs ▸ h.rest
    obtain ⟨len, zt, below, -⟩ := Descending.cons_iff.mp desc
    dsimp only
    cases hf : firstDivisor t.exps 0 divisors with
    | none =>
      refine Or.inr ⟨_, rfl, h.keep hs fun d hd ne => ?_, leadBelow_of_forall len desc.tail below⟩
      exact not_le_of_divides_eq_false (hds d hd) ne len (firstDivisor_eq_none hf d hd ne)
    | some found =>
      obtain ⟨j, lead, d⟩ := found
      obtain ⟨i, hj, hd, ⟨more, shape⟩, hdiv, first⟩ := firstDivisor_eq_some hf
      rw [Nat.zero_add] at hj
      subst hj shape
      have ne : divisors.getD j [] ≠ [] := by
        rw [hd]
        exact List.cons_ne_nil lead more
      have descd : Descending n (lead :: more) := hds _ (hd ▸ getD_mem ne)
      obtain ⟨q, hq, lenq, zq, rows, coeffs⟩ := exists_term_div len
        (descd.length List.mem_cons_self) zt (descd.2.1 lead List.mem_cons_self) hdiv
      have cancels : target n divisors (j, q) = t.exps.toFinsupp n := by
        unfold target divisorOf
        rw [hd]
        exact rows
      show Answers _ _ (t.div lead >>= fun q => mulTerm q (lead :: more) >>= fun us => _)
      rw [hq]
      refine (((mulTerm_answers lenq descd).and (mulTerm_fits lenq zq descd)).mono
        (fun _ => And.left) fun _ => id).bind fun us hus => Or.inr ⟨_, rfl, ?_⟩
      obtain ⟨⟨desc', sum⟩, fits⟩ := hus
      have proper : Proper n divisors (j, q) := by
        refine ⟨lenq, zq, ne, fun l hl nel => ?_, ?_⟩
        · rw [cancels]
          exact not_le_of_divides_eq_false (hds _ (getD_mem nel)) nel len (first l hl nel)
        · rw [divisorOf, hd]
          exact fits
      have zl := (Coefficient.isZero_eq_false_iff _).mp zq
      have deg : lex.degree (toMv n us) = t.exps.toFinsupp n := by
        rw [sum, degree_monomial_mul zl (descd.toMv_ne_zero (List.cons_ne_nil lead more)),
          descd.degree_toMv]
        exact rows
      have lc : lex.leadingCoeff (toMv n us) = t.coeff.toRat := by
        rw [sum, MonomialOrder.leadingCoeff_mul, MonomialOrder.leadingCoeff_monomial,
          descd.leadingCoeff_toMv]
        exact coeffs
      have low := below_of_cancel desc desc' deg lc
      refine ⟨h.eliminate hs proper cancels desc' ?_ low, ?_⟩
      · rw [sum, product, divisorOf, hd]
      · exact leadBelow_of_forall len (desc.sub desc') low

/-! ## 5. A whole division -/

/-- **A division fails only where an exponent does not fit**, and ends with the invariant and no
    rest. -/
theorem run_answers (hds : ∀ d ∈ divisors, Descending n d)
    (h : Invariant n divisors dividend s) :
    Answers Failure.IsOverflow
      (fun out => Invariant n divisors dividend out ∧ out.rest = []) (run divisors s) := by
  induction hr : s.rest using leadBelow_wf.induction generalizing s with
  | _ rest ih =>
    subst hr
    have one := step_answers hds h
    unfold run
    cases hstep : step divisors s with
    | error e => exact one.of_error hstep
    | ok out =>
      rcases one.of_ok hstep with ⟨rfl, done⟩ | ⟨next, rfl, hnext, lt⟩
      · exact ⟨h, done⟩
      · dsimp only
        rw [if_pos lt]
        exact ih next.rest lt hnext rfl

/-! ## 6. Divisions that eliminate nothing -/

/-- A row that no leading row divides has no divisor. -/
theorem firstDivisor_of_undivided (hds : ∀ d ∈ divisors, Descending n d) {row : Exponents}
    (hrow : row.length = n) (h : Undivided n divisors (row.toFinsupp n)) (i : Nat) :
    firstDivisor row i divisors = none := by
  cases hf : firstDivisor row i divisors with
  | none => rfl
  | some found =>
    obtain ⟨j, lead, d⟩ := found
    obtain ⟨k, -, hd, ⟨more, rfl⟩, hdiv, -⟩ := firstDivisor_eq_some hf
    have ne : divisors.getD k [] ≠ [] := hd ▸ List.cons_ne_nil lead more
    have mem : lead :: more ∈ divisors := hd ▸ getD_mem ne
    have len : lead.exps.length = n := (hds _ mem).length List.mem_cons_self
    exact absurd ((Exponents.divides_iff len hrow).mp hdiv) (h _ mem (List.cons_ne_nil lead more))

/-- Terms that no divisor eliminates move to the remainder one by one. -/
theorem run_of_undivided (hds : ∀ d ∈ divisors, Descending n d) {es : List Elimination} :
    ∀ {rest r : Terms}, Descending n rest →
      (∀ t ∈ rest, Undivided n divisors (t.exps.toFinsupp n)) →
        run divisors ⟨es, r, rest⟩ = .ok ⟨es, rest.reverse ++ r, []⟩
  | [], r, _, _ => by
    unfold run
    rfl
  | t :: rest, r, h, irr => by
    obtain ⟨here, later⟩ := List.forall_mem_cons.mp irr
    obtain ⟨len, -, below, desc⟩ := Descending.cons_iff.mp h
    have one : step divisors ⟨es, r, t :: rest⟩ = .ok (some ⟨es, t :: r, rest⟩) := by
      unfold step
      dsimp only
      rw [firstDivisor_of_undivided hds len here 0]
    have lt : LeadBelow rest (t :: rest) := leadBelow_of_forall len desc below
    unfold run
    rw [one]
    dsimp only
    rw [if_pos lt, run_of_undivided hds desc later, List.reverse_cons, List.append_assoc]
    rfl

end Division

/-! ## 7. Sums that are divided -/

namespace Terms

open Division (Invariant product target)

/-- **Eliminations and remainder of a sum.** -/
theorem divide_answers (hds : ∀ d ∈ divisors, Descending n d) (h : Descending n dividend) :
    Answers Failure.IsOverflow
      (fun out => Invariant n divisors dividend ⟨out.1.reverse, out.2.reverse, []⟩)
      (dividend.divide divisors) := by
  refine (Division.run_answers hds (Division.invariant_start h)).bind fun s hs => ?_
  obtain ⟨inv, done⟩ := hs
  show Invariant n divisors dividend ⟨s.eliminations.reverse.reverse, s.remainder.reverse.reverse, []⟩
  rw [List.reverse_reverse, List.reverse_reverse, ← done]
  exact inv

/-- **A sum of which no divisor eliminates a term is its own remainder.** -/
theorem divide_of_undivided (hds : ∀ d ∈ divisors, Descending n d) (h : Descending n ts)
    (irr : ∀ t ∈ ts, Undivided n divisors (t.exps.toFinsupp n)) : ts.divide divisors = .ok ([], ts) := by
  unfold divide
  rw [Division.run_of_undivided hds h irr]
  show Except.ok ([], (ts.reverse ++ []).reverse) = _
  rw [List.append_nil, List.reverse_reverse]

/-- `r` is left of a dividend by a list of divisors. -/
structure IsRemainder (n : Nat) (divisors : List Terms) (dividend r : Terms) : Prop where
  descending : Descending n r
  sub_mem : toMv n dividend - toMv n r ∈
    combinations lex (system n divisors) (Set.Iic (lex.toSyn (lex.degree (toMv n dividend))))
  irreducible : ∀ e ∈ (toMv n r).support, Undivided n divisors e

theorem product_mem_combinations (hds : ∀ d ∈ divisors, Descending n d) {e : Elimination}
    (h : Division.Proper n divisors e) :
    product n divisors e ∈
      combinations lex (system n divisors) (Set.Iic (lex.toSyn (target n divisors e))) := by
  have desc := hds _ h.mem
  refine mul_mem_combinations (toMv_mem_system h.mem) (desc.toMv_ne_zero h.divisor) fun e' he' => ?_
  have := support_monomial_subset he'
  rw [Finset.mem_singleton.mp this, desc.degree_toMv]
  exact le_refl (lex.toSyn (target n divisors e))

theorem isRemainder_of_invariant
    (hds : ∀ d ∈ divisors, Descending n d) {eliminations : List Elimination} {r : Terms}
    (h : Invariant n divisors dividend ⟨eliminations.reverse, r.reverse, []⟩) :
    IsRemainder n divisors dividend r := by
  have desc : Descending n r := by simpa using h.remainder
  refine ⟨desc, ?_, fun e he => ?_⟩
  · have sum : toMv n dividend - toMv n r = (eliminations.map (product n divisors)).sum := by
      rw [h.dividend_eq, add_sub_cancel_right]
    rw [sum]
    refine list_sum_mem fun f hf => ?_
    obtain ⟨e, he, rfl⟩ := List.mem_map.mp hf
    have mem : e ∈ eliminations.reverse := List.mem_reverse.mpr he
    refine combinations_mono le_rfl (Set.Iic_subset_Iic.mpr (h.target_le e mem)) ?_
    exact product_mem_combinations hds (h.proper e mem)
  · obtain ⟨t, ht, rfl⟩ := desc.mem_support_iff.mp he
    exact h.irreducible t (List.mem_reverse.mpr ht)

/-- **The remainder of a sum.** -/
theorem remainder_answers (hds : ∀ d ∈ divisors, Descending n d) (h : Descending n dividend) :
    Answers Failure.IsOverflow (IsRemainder n divisors dividend) (dividend.remainder divisors) :=
  (divide_answers hds h).bind fun _ inv => isRemainder_of_invariant hds inv

theorem IsRemainder.degree_le {r : Terms} (h : IsRemainder n divisors dividend r) :
    lex.toSyn (lex.degree (toMv n r)) ≤ lex.toSyn (lex.degree (toMv n dividend)) :=
  degree_le_of_sub_mem h.sub_mem

end Terms

end Eliminant
