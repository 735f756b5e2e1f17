import Eliminant.Groebner.Basis
import Eliminant.Proofs.CriticalPair
import Eliminant.Proofs.Ideal.Basis
import Eliminant.Proofs.Reduction

/-!
# Completion is correct

A completion keeps an invariant (`Completion.Invariant`): the basis generates the ideal, and every
pair of its elements is **treated** -- its S-polynomial is a combination below the least common
multiple of the leading monomials, or differs by such a combination from the remainder of a pending
pair. Pending remainders are members of the ideal that are reduced by the part of the basis that they
were divided by.

Every step keeps the invariant and fails only where a limit is met: the guard that asks for a new
leading row never fires (`Completion.step_answers`). When no pair is pending, Buchberger's criterion
applies, so the basis covers the ideal (`Completion.run_answers`); the final reduction keeps that:

* **`Completion.ofSums_answers`**: a completion that meets no limit answers the reduced Groebner
  basis;
* **`Completion.ofSums_unique`**: so two completions of one ideal end with the same basis.
-/

namespace Eliminant

open MvPolynomial
open MonomialOrder (lex)
open Terms (Descending toMv leadRow)

variable {n : Nat} {I : Ideal (MvPolynomial (Fin n) ℚ)} {basis : List Terms} {f g h r : Terms}

/-! ## 1. Effort -/

/-- The settings answer, or name a limit. -/
theorem Settings.permit_answers (settings : Settings) (steps : Nat) :
    Answers Failure.IsLimit (fun _ => True) (settings.permit steps) := by
  unfold permit
  split
  · exact Or.inr (Or.inr rfl)
  · split
    · split
      · exact Or.inr (Or.inl ⟨steps, rfl⟩)
      · trivial
    · trivial

/-! ## 2. Treated pairs -/

/-- The least common multiple of the leading monomials of two sums. -/
noncomputable def lcmDegree (n : Nat) (f g : Terms) : Fin n →₀ ℕ :=
  lex.degree (toMv n f) ⊔ lex.degree (toMv n g)

/-- The combinations of a basis below the least common multiple for two sums. -/
noncomputable def below (n : Nat) (basis : List Terms) (f g : Terms) :
    Submodule ℚ (MvPolynomial (Fin n) ℚ) :=
  combinations lex (system n basis) (Set.Iio (lex.toSyn (lcmDegree n f g)))

/-- A remainder stands for the S-polynomial of two sums. -/
structure Represents (n : Nat) (basis : List Terms) (f g r : Terms) : Prop where
  sub_mem : lex.sPolynomial (toMv n f) (toMv n g) - toMv n r ∈ below n basis f g
  lt : lex.toSyn (lex.degree (toMv n r)) < lex.toSyn (lcmDegree n f g)

/-- The S-polynomial of two sums is a combination below the least common multiple, or a pending pair
    stands for it. -/
def Treated (n : Nat) (basis : List Terms) (pairs : List CriticalPair) (f g : Terms) : Prop :=
  lex.sPolynomial (toMv n f) (toMv n g) ∈ below n basis f g ∨
    ∃ pair ∈ pairs, Represents n basis f g pair.remainder

/-- **What holds of a pending pair.** -/
structure Pending (n : Nat) (I : Ideal (MvPolynomial (Fin n) ℚ)) (basis : List Terms)
    (pair : CriticalPair) : Prop where
  descending : Descending n pair.remainder
  ne_nil : pair.remainder ≠ []
  mem : toMv n pair.remainder ∈ I
  size : pair.reducedAgainst ≤ basis.length
  undivided : ∀ e ∈ (toMv n pair.remainder).support,
    Undivided n (basis.take pair.reducedAgainst) e

/-- A basis of sums that are not zero. -/
structure Generates (n : Nat) (I : Ideal (MvPolynomial (Fin n) ℚ)) (basis : List Terms) : Prop where
  descending : ∀ p ∈ basis, Descending n p
  ne_nil : ∀ p ∈ basis, p ≠ []
  span_eq : Ideal.span (system n basis) = I

/-- The S-polynomials of the basis are members of its ideal. -/
theorem Generates.sPolynomial_mem (hb : Generates n I basis) (hf : f ∈ basis) (hg : g ∈ basis) :
    lex.sPolynomial (toMv n f) (toMv n g) ∈ I := by
  rw [MonomialOrder.sPolynomial, ← hb.span_eq]
  exact sub_mem (Ideal.mul_mem_left _ _ (Ideal.subset_span (toMv_mem_system hf)))
    (Ideal.mul_mem_left _ _ (Ideal.subset_span (toMv_mem_system hg)))

/-- So are the remainders of members. -/
theorem Generates.remainder_mem (hb : Generates n I basis) (hr : toMv n r ∈ I) {r' : Terms}
    (rem : Terms.IsRemainder n basis r r') : toMv n r' ∈ I := by
  rw [← sub_sub_cancel (toMv n r) (toMv n r')]
  refine sub_mem hr ?_
  rw [← hb.span_eq]
  exact mem_span_of_mem_combinations rem.sub_mem

/-- A remainder of a member of the ideal on division by the basis may be pending. -/
theorem Pending.of_remainder {pair : CriticalPair} (hb : Generates n I basis) (hr : toMv n r ∈ I)
    (rem : Terms.IsRemainder n basis r pair.remainder) (ne : ¬ pair.remainder.isEmpty = true)
    (size : pair.reducedAgainst = basis.length) : Pending n I basis pair := by
  refine ⟨rem.descending, fun e => ne (List.isEmpty_iff.mpr e), hb.remainder_mem hr rem, size.le, ?_⟩
  rw [size, List.take_length]
  exact rem.irreducible

theorem system_mono {bs cs : List Terms} (h : bs ⊆ cs) : system n bs ⊆ system n cs := by
  intro f hf
  obtain ⟨p, hp, rfl⟩ := mem_system.mp hf
  exact toMv_mem_system (h hp)

theorem below_mono {bs cs : List Terms} (h : bs ⊆ cs) : below n bs f g ≤ below n cs f g :=
  combinations_mono (system_mono h) le_rfl

theorem Treated.mono_pairs {pairs more : List CriticalPair} (sub : pairs ⊆ more)
    (h : Treated n basis pairs f g) : Treated n basis more f g :=
  h.imp_right fun ⟨pair, hp, rep⟩ => ⟨pair, sub hp, rep⟩

/-- A remainder of what stands for an S-polynomial stands for it too. -/
theorem Represents.remainder (h : Represents n basis f g r) {r' : Terms}
    (rem : Terms.IsRemainder n basis r r') : Represents n basis f g r' := by
  refine ⟨?_, lt_of_le_of_lt rem.degree_le h.lt⟩
  rw [← sub_add_sub_cancel _ (toMv n r)]
  refine add_mem h.sub_mem (combinations_mono le_rfl ?_ rem.sub_mem)
  exact fun d hd => lt_of_le_of_lt hd h.lt

/-- The remainder of an S-polynomial stands for it. -/
theorem Represents.of_sPolynomial {s : Terms}
    (hs : toMv n s = lex.sPolynomial (toMv n f) (toMv n g)) (rem : Terms.IsRemainder n basis s r) :
    lex.sPolynomial (toMv n f) (toMv n g) ∈ below n basis f g ∨ Represents n basis f g r := by
  by_cases zero : lex.sPolynomial (toMv n f) (toMv n g) = 0
  · exact Or.inl (zero ▸ zero_mem _)
  · refine Or.inr (Represents.remainder ⟨?_, ?_⟩ rem)
    · rw [hs, sub_self]
      exact zero_mem _
    · rw [hs]
      exact MonomialOrder.degree_sPolynomial_lt_sup_degree zero

/-- Where nothing is left, the S-polynomial is a combination. -/
theorem Represents.of_nil (h : Represents n basis f g []) :
    lex.sPolynomial (toMv n f) (toMv n g) ∈ below n basis f g := by
  have := h.sub_mem
  rwa [Terms.toMv_nil, sub_zero] at this

/-- A remainder that joins the basis makes the S-polynomial a combination. -/
theorem Represents.adopt (h : Represents n basis f g r) (desc : Descending n r) (ne : r ≠ []) :
    lex.sPolynomial (toMv n f) (toMv n g) ∈ below n (basis ++ [r.monic]) f g := by
  have ne' : r.monic ≠ [] := fun e => ne ((Terms.monic_eq_nil_iff desc).mp e)
  have mem : toMv n r ∈ below n (basis ++ [r.monic]) f g := by
    rw [Terms.toMv_eq_C_mul_monic desc]
    refine mul_mem_combinations (toMv_mem_system (by simp)) (desc.monic.toMv_ne_zero ne')
      fun e he => ?_
    have : e = 0 := by
      by_contra ne
      rw [mem_support_iff, coeff_C, if_neg (Ne.symm ne)] at he
      exact he rfl
    rw [this, zero_add, Terms.degree_toMv_monic desc]
    exact h.lt
  rw [← sub_add_cancel (lex.sPolynomial _ _) (toMv n r)]
  exact add_mem (below_mono (List.subset_append_left _ _) h.sub_mem) mem

/-! ## 3. Considering pairs -/

namespace Queue

variable {settings : Settings} {q : Queue} {i j : Nat}

/-- **A pair that was considered is treated.** -/
theorem addPair_answers (hb : Generates n I basis) (hf : f ∈ basis) (hg : g ∈ basis)
    (hq : ∀ pair ∈ q.pairs, Pending n I basis pair) :
    Answers Failure.IsLimit
      (fun q' => (∀ pair ∈ q'.pairs, Pending n I basis pair) ∧ q.pairs ⊆ q'.pairs ∧
        Treated n basis q'.pairs f g)
      (addPair settings basis j g q (f, i)) := by
  have df := hb.descending f hf
  have dg := hb.descending g hg
  have nf := df.toMv_ne_zero (hb.ne_nil f hf)
  have ng := dg.toMv_ne_zero (hb.ne_nil g hg)
  unfold addPair
  dsimp only
  split
  · rename_i coprime
    refine ⟨hq, fun _ => id, Or.inl ?_⟩
    refine sPolynomial_mem_of_coprime (toMv_mem_system hf) (toMv_mem_system hg) nf ng ?_
    rw [df.degree_toMv, dg.degree_toMv]
    exact (Exponents.coprime_iff (Terms.length_leadRow df (hb.ne_nil f hf))
      (Terms.length_leadRow dg (hb.ne_nil g hg))).mp coprime
  · refine (settings.permit_answers _).bind fun _ _ => ?_
    refine (Terms.sPolynomial_answers df dg (hb.ne_nil f hf) (hb.ne_nil g hg)).isLimit.bind
      fun s hs => ?_
    obtain ⟨ds, hs⟩ := hs
    refine (Terms.remainder_answers hb.descending ds).isLimit.bind fun r rem => ?_
    have mem : toMv n s ∈ I := hs ▸ hb.sPolynomial_mem hf hg
    have treated := Represents.of_sPolynomial hs rem
    split
    · rename_i zero
      cases List.isEmpty_iff.mp zero
      exact ⟨hq, fun _ => id, Or.inl (treated.elim id Represents.of_nil)⟩
    · rename_i zero
      refine ⟨?_, List.subset_append_left _ _, ?_⟩
      · refine List.forall_mem_append.mpr ⟨hq, List.forall_mem_singleton.mpr ?_⟩
        exact .of_remainder hb mem rem zero rfl
      · exact treated.imp_right fun rep => ⟨_, List.mem_append_right _ List.mem_cons_self, rep⟩

/-- **All pairs with the elements before it are treated.** -/
theorem addPairs_answers (hb : Generates n I basis) (hg : g ∈ basis)
    (hq : ∀ pair ∈ q.pairs, Pending n I basis pair) :
    Answers Failure.IsLimit
      (fun q' => (∀ pair ∈ q'.pairs, Pending n I basis pair) ∧ q.pairs ⊆ q'.pairs ∧
        ∀ f ∈ basis.take j, Treated n basis q'.pairs f g)
      (addPairs settings basis q (g, j)) := by
  have mono (x : Terms × Nat) (a b : Queue) (sub : a.pairs ⊆ b.pairs)
      (h : Treated n basis a.pairs x.1 g) : Treated n basis b.pairs x.1 g := h.mono_pairs sub
  have step : ∀ x ∈ (basis.take j).zipIdx, ∀ a : Queue,
      (∀ pair ∈ a.pairs, Pending n I basis pair) → Answers Failure.IsLimit
        (fun b => (∀ pair ∈ b.pairs, Pending n I basis pair) ∧ a.pairs ⊆ b.pairs ∧
          Treated n basis b.pairs x.1 g) (addPair settings basis j g a x) := fun x hx a ha =>
    addPair_answers hb (List.mem_of_mem_take (List.fst_mem_of_mem_zipIdx hx)) hg ha
  unfold addPairs
  refine (Answers.foldlM_forall (R := fun a b : Queue => a.pairs ⊆ b.pairs)
    (fun _ => List.Subset.refl _) (fun _ _ _ => List.Subset.trans) mono hq step).imp fun q' hq' => ?_
  obtain ⟨pending, sub, treated⟩ := hq'
  refine ⟨pending, sub, fun f hf => ?_⟩
  obtain ⟨i, hi, rfl⟩ := List.getElem_of_mem hf
  exact treated ((basis.take j)[i], i)
    (List.mem_zipIdx_iff_getElem?.mpr (List.getElem?_eq_getElem hi))

/-- **All pairs of a basis are treated.** -/
theorem ofBasis_answers (hb : Generates n I basis) :
    Answers Failure.IsLimit
      (fun q => (∀ pair ∈ q.pairs, Pending n I basis pair) ∧
        basis.Pairwise (Treated n basis q.pairs))
      (ofBasis settings basis) := by
  have mono (x : Terms × Nat) (a b : Queue) (sub : a.pairs ⊆ b.pairs)
      (h : ∀ f ∈ basis.take x.2, Treated n basis a.pairs f x.1) :
      ∀ f ∈ basis.take x.2, Treated n basis b.pairs f x.1 := fun f hf => (h f hf).mono_pairs sub
  have step : ∀ x ∈ basis.zipIdx, ∀ a : Queue,
      (∀ pair ∈ a.pairs, Pending n I basis pair) → Answers Failure.IsLimit
        (fun b => (∀ pair ∈ b.pairs, Pending n I basis pair) ∧ a.pairs ⊆ b.pairs ∧
          ∀ f ∈ basis.take x.2, Treated n basis b.pairs f x.1) (addPairs settings basis a x) :=
    fun x hx a ha => addPairs_answers hb (List.fst_mem_of_mem_zipIdx hx) ha
  unfold ofBasis
  refine (Answers.foldlM_forall (R := fun a b : Queue => a.pairs ⊆ b.pairs)
    (fun _ => List.Subset.refl _) (fun _ _ _ => List.Subset.trans) mono nofun step).imp fun q hq => ?_
  obtain ⟨pending, -, treated⟩ := hq
  refine ⟨pending, List.pairwise_iff_getElem.mpr fun i j hi hj hij => ?_⟩
  refine treated (basis[j], j)
    (List.mem_zipIdx_iff_getElem?.mpr (List.getElem?_eq_getElem hj)) _ ?_
  exact List.mem_take_iff_getElem.mpr ⟨i, by omega, rfl⟩

end Queue

/-! ## 4. The invariant and its steps -/

namespace Completion

/-- **The invariant of a completion.** -/
structure Invariant (n : Nat) (I : Ideal (MvPolynomial (Fin n) ℚ)) (s : Completion) : Prop where
  generates : Generates n I s.basis
  pending : ∀ pair ∈ s.queue.pairs, Pending n I s.basis pair
  treated : s.basis.Pairwise (Treated n s.basis s.queue.pairs)

/-- What a completion ends with. -/
structure Complete (n : Nat) (I : Ideal (MvPolynomial (Fin n) ℚ)) (s : Completion) : Prop where
  generates : Generates n I s.basis
  covers : Covers lex I (system n s.basis)

variable {settings : Settings} {strategy : Strategy} {s : Completion} {i : Nat}
  {pair : CriticalPair}

theorem treated_nil {f g : Terms} (h : Treated n basis [] f g) :
    lex.sPolynomial (toMv n f) (toMv n g) ∈ below n basis f g := by
  rcases h with h | ⟨pair, hp, -⟩
  · exact h
  · cases hp

/-- **A basis without pending pairs covers its ideal.** -/
theorem covers_of_treated (hb : Generates n I basis)
    (h : basis.Pairwise (Treated n basis [])) : Covers lex I (system n basis) := by
  rw [← hb.span_eq]
  refine covers_span fun f hf g hg _ _ => ?_
  obtain ⟨p, hp, rfl⟩ := mem_system.mp hf
  obtain ⟨q, hq, rfl⟩ := mem_system.mp hg
  have symm : Std.Symm fun p q : Terms =>
      lex.sPolynomial (toMv n p) (toMv n q) ∈ below n basis p q := by
    refine ⟨fun p q h => ?_⟩
    rw [MonomialOrder.sPolynomial_antisymm, below, lcmDegree, sup_comm]
    exact neg_mem h
  by_cases same : p = q
  · rw [same, MonomialOrder.sPolynomial_self]
    exact zero_mem _
  · exact (h.imp treated_nil).forall hp hq same

theorem Invariant.complete (h : Invariant n I s) (none : s.queue.pairs = []) : Complete n I s :=
  ⟨h.generates, covers_of_treated h.generates (none ▸ h.treated)⟩

/-- Reviewing an outdated pair keeps the invariant. -/
theorem review_answers (h : Invariant n I s) (hi : s.queue.pairs[i]? = some pair) :
    Answers Failure.IsLimit
      (fun out => ∃ t, out = .next t ∧ Invariant n I t) (review settings s i pair) := by
  have hp := h.pending pair (List.mem_of_getElem? hi)
  have others : ∀ p ∈ swapRemove s.queue.pairs i, Pending n I s.basis p := fun p hp =>
    h.pending p (mem_swapRemove hp)
  unfold review
  refine (settings.permit_answers _).bind fun _ _ => ?_
  refine (Terms.remainder_answers h.generates.descending hp.descending).isLimit.bind
    fun r rem => ?_
  dsimp only
  split
  · rename_i zero
    cases List.isEmpty_iff.mp zero
    refine ⟨_, rfl, h.generates, others, h.treated.imp fun {f g} treated => ?_⟩
    rcases treated with done | ⟨p, hp, rep⟩
    · exact Or.inl done
    · rcases mem_or_eq_of_swapRemove hi hp with rfl | hp
      · exact Or.inl (rep.remainder rem).of_nil
      · exact Or.inr ⟨p, hp, rep⟩
  · rename_i zero
    refine ⟨_, rfl, h.generates, ?_, h.treated.imp fun {f g} treated => ?_⟩
    · refine List.forall_mem_append.mpr ⟨others, List.forall_mem_singleton.mpr ?_⟩
      exact .of_remainder h.generates hp.mem rem zero rfl
    · rcases treated with done | ⟨p, hp, rep⟩
      · exact Or.inl done
      · rcases mem_or_eq_of_swapRemove hi hp with rfl | hp
        · exact Or.inr ⟨_, List.mem_append_right _ List.mem_cons_self, rep.remainder rem⟩
        · exact Or.inr ⟨p, List.mem_append_left _ hp, rep⟩

/-- A basis that covers an ideal which holds a constant, or is about to be extended by a new element,
    still generates it. -/
theorem Generates.append (hb : Generates n I basis) (dh : Descending n h) (nh : h ≠ [])
    (mem : toMv n h ∈ I) : Generates n I (basis ++ [h]) := by
  refine ⟨?_, ?_, le_antisymm (Ideal.span_le.mpr fun f hf => ?_) ?_⟩
  · exact List.forall_mem_append.mpr ⟨hb.descending, List.forall_mem_singleton.mpr dh⟩
  · exact List.forall_mem_append.mpr ⟨hb.ne_nil, List.forall_mem_singleton.mpr nh⟩
  · obtain ⟨p, hp, rfl⟩ := mem_system.mp hf
    rcases List.mem_append.mp hp with hp | hp
    · rw [← hb.span_eq]
      exact Ideal.subset_span (toMv_mem_system hp)
    · rw [List.mem_singleton.mp hp]
      exact mem
  · rw [← hb.span_eq]
    exact Ideal.span_mono (system_mono (List.subset_append_left _ _))

/-- A pair that is not outdated has a leading row that no leading row of the basis divides. -/
theorem Pending.isNew (hb : Generates n I basis) (hp : Pending n I basis pair)
    (fresh : ¬ pair.reducedAgainst < basis.length) :
    Dickson.IsNew (basis.map leadRow) (leadRow pair.remainder.monic) := by
  have all : basis.take pair.reducedAgainst = basis :=
    List.take_of_length_le (not_lt.mp fresh)
  have lead := MonomialOrder.degree_mem_support (m := lex) (hp.descending.toMv_ne_zero hp.ne_nil)
  have len := Terms.length_leadRow hp.descending hp.ne_nil
  rw [hp.descending.degree_toMv] at lead
  rw [Terms.leadRow_monic hp.descending]
  intro row hrow
  obtain ⟨p, mem, rfl⟩ := List.mem_map.mp hrow
  have lenp := Terms.length_leadRow (hb.descending p mem) (hb.ne_nil p mem)
  refine ⟨lenp.trans len.symm, fun divides => ?_⟩
  rw [Exponents.rowDivides_iff, Exponents.divides_iff lenp len] at divides
  exact hp.undivided _ lead p (all.symm ▸ mem) (hb.ne_nil p mem) divides

/-- **A remainder that joins the basis has a new leading row**, and joining keeps the invariant. -/
theorem adopt_answers (h : Invariant n I s) (hi : s.queue.pairs[i]? = some pair)
    (fresh : ¬ pair.reducedAgainst < s.basis.length) :
    Answers Failure.IsLimit
      (fun out => (∃ t, out = .finished t ∧ Complete n I t) ∨
        ∃ t, out = .next t ∧ Invariant n I t) (adopt settings s i pair.remainder.monic) := by
  have hp := h.pending pair (List.mem_of_getElem? hi)
  have desc := hp.descending.monic
  have ne : pair.remainder.monic ≠ [] := fun e => hp.ne_nil ((Terms.monic_eq_nil_iff hp.descending).mp e)
  have mem : toMv n pair.remainder.monic ∈ I := by
    rw [Terms.toMv_monic hp.descending]
    exact Ideal.mul_mem_left _ _ hp.mem
  unfold adopt
  split
  · rename_i constant
    refine Or.inl ⟨_, rfl, ?_⟩
    have deg := desc.isConstant_iff.mp constant
    have top : I = ⊤ := eq_top_of_degree_eq_zero mem (desc.toMv_ne_zero ne) deg
    have single := toMv_mem_system (n := n) (List.mem_singleton_self pair.remainder.monic)
    refine ⟨⟨List.forall_mem_singleton.mpr desc, List.forall_mem_singleton.mpr ne, ?_⟩, ?_⟩
    · rw [top]
      exact eq_top_of_degree_eq_zero (Ideal.subset_span single) (desc.toMv_ne_zero ne) deg
    · intro f _ _
      refine ⟨_, single, desc.toMv_ne_zero ne, ?_⟩
      rw [deg]
      exact zero_le
  · rw [if_pos (Pending.isNew h.generates hp fresh)]
    have grown := Generates.append h.generates desc ne mem
    have sub : s.basis ⊆ s.basis ++ [pair.remainder.monic] := List.subset_append_left _ _
    have others : ∀ p ∈ swapRemove s.queue.pairs i,
        Pending n I (s.basis ++ [pair.remainder.monic]) p := by
      intro p mem
      have old := h.pending p (mem_swapRemove mem)
      refine ⟨old.descending, old.ne_nil, old.mem, ?_, ?_⟩
      · exact old.size.trans (by simp)
      · rw [List.take_append_of_le_length old.size]
        exact old.undivided
    refine (Queue.addPairs_answers grown (by simp) others).bind fun queue hq => ?_
    obtain ⟨pending, kept, new⟩ := hq
    refine Or.inr ⟨_, rfl, grown, pending, ?_⟩
    refine List.pairwise_append.mpr ⟨?_, List.pairwise_singleton _ _, fun f hf g hg => ?_⟩
    · refine h.treated.imp fun {f g} treated => ?_
      rcases treated with done | ⟨p, hp', rep⟩
      · exact Or.inl (below_mono sub done)
      · rcases mem_or_eq_of_swapRemove hi hp' with rfl | hp'
        · exact Or.inl (rep.adopt hp.descending hp.ne_nil)
        · exact Or.inr ⟨p, kept hp', below_mono sub rep.sub_mem, rep.lt⟩
    · rw [List.mem_singleton.mp hg]
      exact new f (by simpa using hf)

/-- **A step fails only where a limit is met, and keeps the invariant.** -/
theorem step_answers (h : Invariant n I s) :
    Answers Failure.IsLimit
      (fun out => (∃ t, out = .finished t ∧ Complete n I t) ∨
        ∃ t, out = .next t ∧ Invariant n I t) (step settings strategy s) := by
  unfold step
  cases hleast : firstLeast strategy.compare s.queue.pairs with
  | none => exact Or.inl ⟨s, rfl, h.complete (firstLeast_eq_none hleast)⟩
  | some i =>
    have hi := List.getElem?_eq_getElem (firstLeast_lt hleast)
    dsimp only
    rw [hi]
    dsimp only
    split
    · exact (review_answers h hi).imp fun _ => Or.inr
    · rename_i fresh
      exact adopt_answers h hi fresh

/-- **A completion that meets no limit ends with a basis that covers the ideal.** -/
theorem run_answers (h : Invariant n I s) :
    Answers Failure.IsLimit (Complete n I) (run settings strategy s) := by
  induction s using descends_wf.induction with
  | _ s ih =>
    rw [run_eq]
    refine (step_answers h).with_run.bind fun progress one => ?_
    obtain ⟨hstep, ⟨t, rfl, complete⟩ | ⟨t, rfl, inv⟩⟩ := one
    · exact complete
    · exact ih t (step_descends hstep) inv

/-! ## 5. A whole completion -/

/-- What a completion makes of a list of sums. -/
structure Outcome (n : Nat) (sums basis : List Terms) : Prop where
  span_eq : Ideal.span (system n basis) = Ideal.span (system n sums)
  covers : Covers lex (Ideal.span (system n sums)) (system n basis)
  shape : (basis = [[]] ∧ Ideal.span (system n sums) = ⊥) ∨ Terms.Reduced n basis

theorem Outcome.descending {sums : List Terms} (h : Outcome n sums basis) :
    ∀ p ∈ basis, Descending n p := by
  rcases h.shape with ⟨rfl, -⟩ | reduced
  · simpa using Descending.nil
  · exact reduced.descending

theorem span_eq_bot {sums : List Terms} (zeros : ∀ p ∈ sums, p = []) :
    Ideal.span (system n sums) = ⊥ := by
  refine Ideal.span_eq_bot.mpr fun f hf => ?_
  obtain ⟨p, hp, rfl⟩ := mem_system.mp hf
  rw [zeros p hp, Terms.toMv_nil]

/-- A list of zeros completes to the single member `0`. -/
theorem ofSums_of_zeros {sums : List Terms} (ne : sums ≠ []) (zeros : ∀ p ∈ sums, p = []) :
    ofSums n strategy settings sums = .ok ([[]], {}) := by
  have reduced : Reduction.ofSums n sums = .ok [[]] := Reduction.ofSums_of_zeros ne zeros
  simp [ofSums, reduced, bind, Except.bind, pure, Except.pure]

/-- A system of less than two members covers its ideal. -/
theorem covers_of_length {sums : List Terms} (h : basis.length < 2)
    (span : Ideal.span (system n basis) = Ideal.span (system n sums)) :
    Covers lex (Ideal.span (system n sums)) (system n basis) := by
  rw [← span]
  refine covers_span fun f hf g hg _ _ => ?_
  obtain ⟨p, hp, rfl⟩ := mem_system.mp hf
  obtain ⟨q, hq, rfl⟩ := mem_system.mp hg
  have same : p = q := by
    match basis, h, hp, hq with
    | [_], _, hp, hq => exact (List.mem_singleton.mp hp).trans (List.mem_singleton.mp hq).symm
  rw [same, MonomialOrder.sPolynomial_self]
  exact zero_mem _

/-- **A completion fails only where a limit is met**, and answers `[0]` or the reduced Groebner basis
    of the ideal of the sums. -/
theorem ofSums_answers {sums : List Terms} (h : ∀ p ∈ sums, Descending n p) :
    Answers Failure.IsLimit (fun out => Outcome n sums out.1)
      (ofSums n strategy settings sums) := by
  refine (Reduction.ofSums_answers h).isLimit.bind fun basis first => ?_
  split
  · rename_i small
    refine ⟨first.span_eq, covers_of_length small first.span_eq, ?_⟩
    exact first.shape.imp_left fun ⟨e, zeros⟩ => ⟨e, span_eq_bot zeros⟩
  · rename_i large
    have reduced : Terms.Reduced n basis := by
      rcases first.shape with ⟨rfl, -⟩ | reduced
      · exact absurd (by simp) large
      · exact reduced
    have hb : Generates n (Ideal.span (system n sums)) basis :=
      ⟨reduced.descending, reduced.ne_nil, first.span_eq⟩
    refine (Queue.ofBasis_answers hb).bind fun queue hq => ?_
    have inv : Invariant n (Ideal.span (system n sums)) ⟨basis, queue⟩ := ⟨hb, hq.1, hq.2⟩
    refine (run_answers inv).bind fun s complete => ?_
    refine (Reduction.ofSums_answers complete.generates.descending).isLimit.bind
      fun final last => ?_
    refine ⟨last.span_eq.trans complete.generates.span_eq, last.covers _ complete.covers, ?_⟩
    refine last.shape.imp_left fun ⟨e, zeros⟩ => ⟨e, ?_⟩
    rw [← complete.generates.span_eq]
    exact span_eq_bot zeros

/-- **A completion of an ideal that is not zero is its reduced Groebner basis.** -/
theorem Outcome.isReducedBasis {sums : List Terms} (h : Outcome n sums basis)
    (ne : Ideal.span (system n sums) ≠ ⊥) :
    IsReducedBasis lex (Ideal.span (system n sums)) (basis.map (toMv n)) := by
  have reduced : Terms.Reduced n basis := h.shape.resolve_left fun zero => ne zero.2
  refine ⟨h.span_eq, h.covers, ?_, ?_, ?_⟩
  · intro f hf
    obtain ⟨p, hp, rfl⟩ := List.mem_map.mp hf
    rw [MonomialOrder.Monic, (reduced.descending p hp).leadingCoeff_toMv, reduced.monic p hp]
    exact Coefficient.toRat_one
  · intro f hf g hg other e he
    obtain ⟨p, hp, rfl⟩ := List.mem_map.mp hf
    obtain ⟨q, hq, rfl⟩ := List.mem_map.mp hg
    rw [(reduced.descending q hq).degree_toMv]
    exact reduced.reduced p hp q hq (fun same => other (same ▸ rfl)) e he
  · refine List.pairwise_map.mpr (reduced.sorted.imp_of_mem fun {p q} hp hq lt => ?_)
    have dp := reduced.descending p hp
    have dq := reduced.descending q hq
    rw [dp.degree_toMv, dq.degree_toMv]
    exact (Exponents.compare_lt_iff_lex (Terms.length_leadRow dq (reduced.ne_nil q hq))
      (Terms.length_leadRow dp (reduced.ne_nil p hp))).mp lt

/-- **Two completions of one ideal end with the same basis**, whatever strategy and settings lead to
    it. -/
theorem ofSums_unique {sums sums' : List Terms} {strategy' : Strategy} {settings' : Settings}
    {out out' : List Terms × Statistics} (h : ∀ p ∈ sums, Descending n p)
    (h' : ∀ p ∈ sums', Descending n p) (ne : sums ≠ []) (ne' : sums' ≠ [])
    (same : Ideal.span (system n sums) = Ideal.span (system n sums'))
    (run : ofSums n strategy settings sums = .ok out)
    (run' : ofSums n strategy' settings' sums' = .ok out') : out.1 = out'.1 := by
  have zeros {sums : List Terms} (h : ∀ p ∈ sums, Descending n p)
      (zero : Ideal.span (system n sums) = ⊥) (p : Terms) (hp : p ∈ sums) : p = [] :=
    (h p hp).toMv_eq_zero_iff.mp (Ideal.span_eq_bot.mp zero _ (toMv_mem_system hp))
  by_cases zero : Ideal.span (system n sums) = ⊥
  · rw [ofSums_of_zeros ne (zeros h zero)] at run
    rw [ofSums_of_zeros ne' (zeros h' (same ▸ zero))] at run'
    cases run
    cases run'
    rfl
  · have first : Outcome n sums out.1 := (ofSums_answers h).of_ok run
    have second : Outcome n sums' out'.1 := (ofSums_answers h').of_ok run'
    have basis := first.isReducedBasis zero
    have basis' := second.isReducedBasis (same ▸ zero)
    rw [← same] at basis'
    exact Terms.map_toMv_injective first.descending second.descending (basis.unique basis')

end Completion

end Eliminant
