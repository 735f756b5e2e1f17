import Eliminant.Groebner.Reduction
import Eliminant.Proofs.Division
import Eliminant.Proofs.Ideal.Basis
import Eliminant.Proofs.Ideal.Divisor
import Eliminant.Proofs.Sort

/-!
# Auto-reduction is correct

A turn over a system replaces members by their remainders on division by all the others. It keeps the
ideal and what covers it, and a turn that changes nothing has found a reduced system
(`Reduction.sweep_answers`); every other turn makes the system smaller, so that repeating turns ends
(`Reduction.settle_answers`).

* `Terms.Reduced`: the members are monic, no leading row divides a row of another member, and the
  leading rows descend;
* **`Reduction.ofSums_answers`**: reducing a list of sums fails only where an exponent does not fit,
  and answers `[0]` or a reduced system that generates the same ideal;
* `Reduction.Outcome.ofSums_eq`: what has been reduced stays as it is.
-/

namespace Eliminant

open MvPolynomial
open MonomialOrder (lex)
open Terms (Descending toMv leadRow)

variable {n : Nat} {p r : Terms} {before after sums : List Terms} {changed : Bool}

/-! ## 1. Members of a system -/

namespace Terms

/-- A sum that is neither zero nor constant. -/
structure Proper (n : Nat) (p : Terms) : Prop where
  descending : Descending n p
  ne_nil : p ≠ []
  not_constant : p.isConstant = false

/-- No leading row of another member, or of a member of `before`, divides a row of a member. -/
def Interreduced (n : Nat) (before after : List Terms) : Prop :=
  ∀ front p back, after = front ++ p :: back →
    ∀ e ∈ (toMv n p).support, Undivided n (before ++ (front ++ back)) e

theorem Interreduced.cons
    (hp : ∀ e ∈ (toMv n p).support, Undivided n (before ++ after) e)
    (h : Interreduced n (before ++ [p]) after) : Interreduced n before (p :: after) := by
  intro front q back split
  cases front with
  | nil =>
    cases split
    exact hp
  | cons q' front =>
    cases split
    have := h front q back rfl
    rwa [List.append_assoc] at this

/-- **A reduced system.** -/
structure Reduced (n : Nat) (basis : List Terms) : Prop where
  descending : ∀ p ∈ basis, Descending n p
  ne_nil : ∀ p ∈ basis, p ≠ []
  monic : ∀ p ∈ basis, leadCoeff p = .one
  reduced : ∀ p ∈ basis, ∀ q ∈ basis, q ≠ p → ∀ e ∈ (toMv n p).support,
    ¬ Exponents.toFinsupp n (leadRow q) ≤ e
  sorted : basis.Pairwise fun p q => (leadRow q).compare (leadRow p) = .lt

end Terms

/-- An ideal with a constant is everything. -/
theorem eq_top_of_degree_eq_zero {I : Ideal (MvPolynomial (Fin n) ℚ)}
    {f : MvPolynomial (Fin n) ℚ} (hf : f ∈ I) (ne : f ≠ 0) (deg : lex.degree f = 0) : I = ⊤ :=
  Ideal.eq_top_of_isUnit_mem I hf ((isUnit_iff_degree_eq_zero ne).mpr deg)

/-! ## 2. Systems get smaller -/

theorem SmallerSystem.length_le {us ts : List Terms} (h : SmallerSystem us ts) :
    us.length ≤ ts.length := by
  rcases h with lt | lex
  · simpa using lt.le
  · simpa using lex.length_eq.le

theorem SmallerSystem.cons {us ts : List Terms} (h : SmallerSystem us ts) (p : Terms) :
    SmallerSystem (p :: us) (p :: ts) := by
  rcases h with lt | lex
  · exact Or.inl (Nat.succ_lt_succ lt)
  · exact Or.inr (EvenLex.tail lex)

theorem smallerSystem_of_length {us ts : List Terms} (h : us.length ≤ ts.length) :
    SmallerSystem us (p :: ts) := by
  refine Or.inl ?_
  simpa using Nat.lt_succ_of_le h

theorem smallerSystem_replace {us ts : List Terms} (len : us.length ≤ ts.length)
    (h : DownLex Exponents.Below r.rows p.rows) : SmallerSystem (r :: us) (p :: ts) := by
  rcases len.lt_or_eq with lt | eq
  · refine Or.inl ?_
    simpa using lt
  · exact Or.inr (EvenLex.head h (by simpa using eq))

/-! ## 3. One turn -/

namespace Reduction

/-- What a turn over `after` makes of a system. -/
structure Swept (n : Nat) (before after : List Terms) (changed : Bool) (system' : List Terms)
    (changed' : Bool) : Prop where
  proper : ∀ p ∈ system', Terms.Proper n p
  span_eq : Ideal.span (system n system') = Ideal.span (system n (before ++ after))
  covers : ∀ I, Covers lex I (system n (before ++ after)) → Covers lex I (system n system')
  shape : ∃ after', system' = before ++ after' ∧
    ((after' = after ∧ changed' = changed ∧ Terms.Interreduced n before after) ∨
      (SmallerSystem after' after ∧ changed' = true))

/-- A member may be replaced by its remainder on division by the others. -/
theorem replace_member (h : Terms.IsRemainder n (before ++ after) p r) :
    Ideal.span (system n (before ++ r :: after)) = Ideal.span (system n (before ++ p :: after)) ∧
      ∀ I, Covers lex I (system n (before ++ p :: after)) →
        Covers lex I (system n (before ++ r :: after)) := by
  simp only [system_insert]
  refine ⟨?_, fun I hI => hI.replace h.sub_mem⟩
  exact (span_insert_of_sub_mem (mem_span_of_mem_combinations h.sub_mem)).symm

/-- A member without a term may be dropped. -/
theorem drop_member :
    Ideal.span (system n (before ++ after)) = Ideal.span (system n (before ++ [] :: after)) ∧
      ∀ I, Covers lex I (system n (before ++ [] :: after)) →
        Covers lex I (system n (before ++ after)) := by
  simp only [system_insert, Terms.toMv_nil]
  refine ⟨Ideal.span_insert_zero.symm, fun I hI f hf nf => ?_⟩
  obtain ⟨b, hb, nb, le⟩ := hI f hf nf
  exact ⟨b, (Set.mem_insert_iff.mp hb).resolve_left nb, nb, le⟩

variable {system' : List Terms} {changed' : Bool}

/-- A changed system got smaller, whatever came after. -/
theorem Swept.length_le {after' : List Terms}
    (h : (after' = after ∧ changed' = changed ∧ Terms.Interreduced n before after) ∨
      (SmallerSystem after' after ∧ changed' = true)) : after'.length ≤ after.length := by
  rcases h with ⟨rfl, -⟩ | ⟨smaller, -⟩
  · exact le_rfl
  · exact smaller.length_le

/-- A member that no other divides is kept. -/
theorem Swept.keep (hp : ∀ e ∈ (toMv n p).support, Undivided n (before ++ after) e)
    (h : Swept n (before ++ [p]) after changed system' changed') :
    Swept n before (p :: after) changed system' changed' := by
  have lists : before ++ [p] ++ after = before ++ p :: after := by simp
  refine ⟨h.proper, lists ▸ h.span_eq, lists ▸ h.covers, ?_⟩
  obtain ⟨after', split, cases⟩ := h.shape
  refine ⟨p :: after', by rw [split, List.append_assoc]; rfl, ?_⟩
  rcases cases with ⟨rfl, same, reduced⟩ | ⟨smaller, yes⟩
  · exact Or.inl ⟨rfl, same, reduced.cons hp⟩
  · exact Or.inr ⟨smaller.cons p, yes⟩

/-- A member of which nothing is left is dropped. -/
theorem Swept.drop (rem : Terms.IsRemainder n (before ++ after) p [])
    (h : Swept n before after true system' changed') :
    Swept n before (p :: after) changed system' changed' := by
  obtain ⟨span, covers⟩ := replace_member rem
  refine ⟨h.proper, h.span_eq.trans (drop_member.1.trans span), fun I hI => ?_, ?_⟩
  · exact h.covers I (drop_member.2 I (covers I hI))
  · obtain ⟨after', split, cases⟩ := h.shape
    refine ⟨after', split, Or.inr ⟨smallerSystem_of_length (Swept.length_le cases), ?_⟩⟩
    rcases cases with ⟨-, same, -⟩ | ⟨-, yes⟩
    · exact same
    · exact yes

/-- A member is replaced by what is left of it. -/
theorem Swept.replace (rem : Terms.IsRemainder n (before ++ after) p r)
    (down : DownLex Exponents.Below r.rows p.rows)
    (h : Swept n (before ++ [r]) after true system' changed') :
    Swept n before (p :: after) changed system' changed' := by
  have lists : before ++ [r] ++ after = before ++ r :: after := by simp
  obtain ⟨span, covers⟩ := replace_member rem
  refine ⟨h.proper, (lists ▸ h.span_eq).trans span, fun I hI => ?_, ?_⟩
  · exact h.covers I (lists ▸ covers I hI)
  · obtain ⟨after', split, cases⟩ := h.shape
    refine ⟨r :: after', by rw [split, List.append_assoc]; rfl, Or.inr ⟨?_, ?_⟩⟩
    · exact smallerSystem_replace (Swept.length_le cases) down
    · rcases cases with ⟨-, same, -⟩ | ⟨-, yes⟩
      · exact same
      · exact yes

/-- **A turn keeps the ideal**, and it ends early only where the ideal is everything. -/
theorem sweep_answers : ∀ {before after : List Terms} {changed : Bool},
    (∀ p ∈ before, Terms.Proper n p) → (∀ p ∈ after, Terms.Proper n p) →
    Answers Failure.IsOverflow
      (fun out => (out = .unit ∧ Ideal.span (system n (before ++ after)) = ⊤) ∨
        ∃ system' changed', out = .members system' changed' ∧
          Swept n before after changed system' changed')
      (sweep before changed after)
  | before, [], changed, hb, _ => by
    refine Or.inr ⟨before, changed, rfl, ?_⟩
    refine ⟨hb, by rw [List.append_nil], fun I h => by rwa [List.append_nil] at h, [], ?_⟩
    exact ⟨(List.append_nil _).symm, Or.inl ⟨rfl, rfl, fun front p back h => by simp at h⟩⟩
  | before, p :: after, changed, hb, ha => by
    have hp := ha p List.mem_cons_self
    have hafter : ∀ q ∈ after, Terms.Proper n q := fun q hq => ha q (List.mem_cons_of_mem p hq)
    have others : ∀ d ∈ before ++ after, Descending n d := by
      intro d hd
      rcases List.mem_append.mp hd with hd | hd
      · exact (hb d hd).descending
      · exact (hafter d hd).descending
    unfold sweep
    refine (Terms.divide_answers others hp.descending).bind fun out inv => ?_
    obtain ⟨eliminations, r⟩ := out
    have rem := Terms.isRemainder_of_invariant others inv
    dsimp only
    split
    · rename_i none
      have same : r = p := inv.eq_dividend (List.isEmpty_iff.mp none)
      subst same
      have hb' : ∀ q ∈ before ++ [r], Terms.Proper n q := by
        simpa [or_imp, forall_and] using And.intro hb hp
      refine (sweep_answers hb' hafter).imp fun out hout => ?_
      rcases hout with ⟨rfl, top⟩ | ⟨system', changed', rfl, swept⟩
      · exact Or.inl ⟨rfl, by simpa using top⟩
      · exact Or.inr ⟨system', changed', rfl, swept.keep rem.irreducible⟩
    · rename_i some
      have down := inv.downLex (fun e => some (List.isEmpty_iff.mpr e))
      split
      · rename_i zero
        cases List.isEmpty_iff.mp zero
        refine (sweep_answers hb hafter).imp fun out hout => ?_
        rcases hout with ⟨rfl, top⟩ | ⟨system', changed', rfl, swept⟩
        · exact Or.inl ⟨rfl, (drop_member.1.trans (replace_member rem).1).symm.trans top⟩
        · exact Or.inr ⟨system', changed', rfl, swept.drop rem⟩
      · rename_i zero
        have ne : r ≠ [] := fun e => zero (List.isEmpty_iff.mpr e)
        split
        · rename_i constant
          refine Or.inl ⟨rfl, ?_⟩
          rw [← (replace_member rem).1]
          have mem : toMv n r ∈ system n (before ++ r :: after) := toMv_mem_system (by simp)
          exact eq_top_of_degree_eq_zero (Ideal.subset_span mem) (rem.descending.toMv_ne_zero ne)
            (rem.descending.isConstant_iff.mp constant)
        · rename_i constant
          have hr : Terms.Proper n r := ⟨rem.descending, ne, by simpa using constant⟩
          have hb' : ∀ q ∈ before ++ [r], Terms.Proper n q := by
            simpa [or_imp, forall_and] using And.intro hb hr
          refine (sweep_answers hb' hafter).imp fun out hout => ?_
          rcases hout with ⟨rfl, top⟩ | ⟨system', changed', rfl, swept⟩
          · refine Or.inl ⟨rfl, (replace_member rem).1 ▸ ?_⟩
            simpa using top
          · exact Or.inr ⟨system', changed', rfl, swept.replace rem down⟩

/-! ## 4. Turns until nothing changes -/

/-- What repeated turns make of a system. -/
structure Settled (n : Nat) (system₀ settled : List Terms) : Prop where
  proper : ∀ p ∈ settled, Terms.Proper n p
  span_eq : Ideal.span (system n settled) = Ideal.span (system n system₀)
  covers : ∀ I, Covers lex I (system n system₀) → Covers lex I (system n settled)
  reduced : Terms.Interreduced n [] settled

/-- **Repeating turns ends**, for every turn that changes something makes the system smaller. -/
theorem settle_answers {system₀ : List Terms} (h : ∀ p ∈ system₀, Terms.Proper n p) :
    Answers Failure.IsOverflow
      (fun out => (out = none ∧ Ideal.span (system n system₀) = ⊤) ∨
        ∃ settled, out = some settled ∧ Settled n system₀ settled) (settle system₀) := by
  induction system₀ using smallerSystem_wf.induction with
  | _ system₀ ih =>
    have one : Answers _ _ (sweep [] false system₀) := sweep_answers (by simp) h
    unfold settle
    cases hsweep : sweep [] false system₀ with
    | error e => exact one.of_error hsweep
    | ok out =>
      rcases one.of_ok hsweep with ⟨rfl, top⟩ | ⟨system', changed', rfl, swept⟩
      · exact Or.inl ⟨rfl, top⟩
      · obtain ⟨after', rfl, cases⟩ := swept.shape
        rcases cases with ⟨rfl, rfl, reduced⟩ | ⟨smaller, rfl⟩
        · exact Or.inr ⟨_, rfl, swept.proper, swept.span_eq, swept.covers, reduced⟩
        · dsimp only
          rw [if_pos smaller]
          refine (ih _ smaller swept.proper).imp fun out hout => ?_
          rcases hout with ⟨rfl, top⟩ | ⟨settled, rfl, rest⟩
          · exact Or.inl ⟨rfl, swept.span_eq.symm.trans top⟩
          · refine Or.inr ⟨settled, rfl, rest.proper, rest.span_eq.trans swept.span_eq, ?_,
              rest.reduced⟩
            exact fun I hI => rest.covers I (swept.covers I hI)

/-! ## 5. Reduced systems -/

/-- No leading row of one of two sums divides a row of the other. -/
def Apart (n : Nat) (p q : Terms) : Prop :=
  (∀ e ∈ (toMv n p).support, ¬ Exponents.toFinsupp n (leadRow q) ≤ e) ∧
    ∀ e ∈ (toMv n q).support, ¬ Exponents.toFinsupp n (leadRow p) ≤ e

instance : Std.Symm (Apart n) := ⟨fun _ _ h => And.symm h⟩

/-- Two members of an interreduced system are apart. -/
theorem pairwise_apart {system₀ : List Terms} (hs : ∀ p ∈ system₀, Terms.Proper n p)
    (h : Terms.Interreduced n [] system₀) : system₀.Pairwise (Apart n) := by
  rw [List.pairwise_iff_getElem]
  intro i j hi hj hij
  have ne (k : Nat) (hk : k < system₀.length) : system₀[k] ≠ [] :=
    (hs _ (List.getElem_mem hk)).ne_nil
  have others (k : Nat) (hk : k < system₀.length) :=
    h (system₀.take k) system₀[k] (system₀.drop (k + 1)) (by simp)
  refine ⟨fun e he => others i hi e he _ ?_ (ne j hj), fun e he => others j hj e he _ ?_ (ne i hi)⟩
  · refine List.mem_append_right [] (List.mem_append_right _ ?_)
    exact List.mem_drop_iff_getElem.mpr ⟨j - (i + 1), by omega, by congr 1; omega⟩
  · refine List.mem_append_right [] (List.mem_append_left _ ?_)
    exact List.mem_take_iff_getElem.mpr ⟨i, by omega, rfl⟩

/-- The order in which a reduced system is listed. -/
def byLead (p q : Terms) : Ordering := (leadRow q).compare (leadRow p)

theorem ranks_byLead {ps : List Terms} (h : ∀ p ∈ ps, (leadRow p).length = n) :
    Ranks byLead ps := (Exponents.ranks h).flip

/-- The monic multiples of the members generate the same ideal. -/
theorem span_monic {ps : List Terms} (h : ∀ p ∈ ps, Terms.Proper n p) :
    Ideal.span (system n (ps.map Terms.monic)) = Ideal.span (system n ps) := by
  refine le_antisymm (Ideal.span_le.mpr ?_) (Ideal.span_le.mpr ?_)
  · intro f hf
    obtain ⟨q, hq, rfl⟩ := mem_system.mp hf
    obtain ⟨p, hp, rfl⟩ := List.mem_map.mp hq
    rw [Terms.toMv_monic (h p hp).descending]
    exact Ideal.mul_mem_left _ _ (Ideal.subset_span (toMv_mem_system hp))
  · intro f hf
    obtain ⟨p, hp, rfl⟩ := mem_system.mp hf
    rw [Terms.toMv_eq_C_mul_monic (h p hp).descending]
    exact Ideal.mul_mem_left _ _ (Ideal.subset_span (toMv_mem_system (List.mem_map_of_mem hp)))

theorem covers_monic {ps : List Terms} (h : ∀ p ∈ ps, Terms.Proper n p)
    {I : Ideal (MvPolynomial (Fin n) ℚ)} (hI : Covers lex I (system n ps)) :
    Covers lex I (system n (ps.map Terms.monic)) := by
  intro f hf nf
  obtain ⟨b, hb, -, le⟩ := hI f hf nf
  obtain ⟨p, hp, rfl⟩ := mem_system.mp hb
  have desc := (h p hp).descending
  have ne : p.monic ≠ [] := fun e => (h p hp).ne_nil ((Terms.monic_eq_nil_iff desc).mp e)
  refine ⟨_, toMv_mem_system (List.mem_map_of_mem hp), desc.monic.toMv_ne_zero ne, ?_⟩
  rwa [Terms.degree_toMv_monic desc]

/-- **The listed monic members of an interreduced system are a reduced system.** -/
theorem reduced_sortBy {ps : List Terms} (hs : ∀ p ∈ ps, Terms.Proper n p)
    (h : Terms.Interreduced n [] ps) : Terms.Reduced n (sortBy byLead (ps.map Terms.monic)) := by
  have perm := sortBy_perm byLead (ps.map Terms.monic)
  have origin {q : Terms} (hq : q ∈ sortBy byLead (ps.map Terms.monic)) :
      ∃ p ∈ ps, Terms.monic p = q := List.mem_map.mp (perm.mem_iff.mp hq)
  have apart := pairwise_apart hs h
  have len : ∀ q ∈ ps.map Terms.monic, (leadRow q).length = n := by
    intro q hq
    obtain ⟨p, hp, rfl⟩ := List.mem_map.mp hq
    rw [Terms.leadRow_monic (hs p hp).descending]
    exact Terms.length_leadRow (hs p hp).descending (hs p hp).ne_nil
  refine ⟨fun q hq => ?_, fun q hq => ?_, fun q hq => ?_, fun q hq r hr ne e he => ?_, ?_⟩
  · obtain ⟨p, hp, rfl⟩ := origin hq
    exact (hs p hp).descending.monic
  · obtain ⟨p, hp, rfl⟩ := origin hq
    exact fun e => (hs p hp).ne_nil ((Terms.monic_eq_nil_iff (hs p hp).descending).mp e)
  · obtain ⟨p, hp, rfl⟩ := origin hq
    exact Terms.leadCoeff_monic (hs p hp).descending (hs p hp).ne_nil
  · obtain ⟨p, hp, rfl⟩ := origin hq
    obtain ⟨p', hp', rfl⟩ := origin hr
    have other : p' ≠ p := fun e => ne (e ▸ rfl)
    have := apart.forall hp hp' other.symm
    rw [Terms.leadRow_monic (hs p' hp').descending]
    rw [Terms.toMv_monic (hs p hp).descending, C_mul'] at he
    exact this.1 e (support_smul he)
  · have distinct : (ps.map Terms.monic).Pairwise fun q r => leadRow q ≠ leadRow r := by
      rw [List.pairwise_map]
      refine apart.imp_of_mem fun {p q} hp hq h same => ?_
      have desc := (hs p hp).descending
      rw [Terms.leadRow_monic desc, Terms.leadRow_monic (hs q hq).descending] at same
      have lead := MonomialOrder.degree_mem_support (m := lex)
        (desc.toMv_ne_zero (hs p hp).ne_nil)
      rw [desc.degree_toMv] at lead
      exact h.1 _ lead (same ▸ le_rfl)
    have listed := perm.symm.pairwise distinct fun h => h.symm
    refine ((pairwise_sortBy (ranks_byLead len)).and listed).imp fun {q r} h => ?_
    obtain ⟨not_lt, ne⟩ := h
    unfold byLead at not_lt
    cases hc : (leadRow r).compare (leadRow q) with
    | lt => rfl
    | eq => exact absurd (Exponents.eq_of_compare_eq hc).symm ne
    | gt => exact absurd (Exponents.compare_gt_iff.mp hc) not_lt

/-! ## 6. The reduced system of a list -/

/-- What reducing makes of a list of sums. -/
structure Outcome (n : Nat) (sums basis : List Terms) : Prop where
  span_eq : Ideal.span (system n basis) = Ideal.span (system n sums)
  covers : ∀ I, Covers lex I (system n sums) → Covers lex I (system n basis)
  shape : (basis = [[]] ∧ ∀ p ∈ sums, p = []) ∨ Terms.Reduced n basis

theorem Outcome.descending {basis : List Terms} (h : Outcome n sums basis) :
    ∀ p ∈ basis, Descending n p := by
  rcases h.shape with ⟨rfl, -⟩ | reduced
  · simpa using Descending.nil
  · exact reduced.descending

theorem descending_unit : Descending n (unit n) := by
  refine Descending.cons_iff.mpr ⟨Exponents.length_zeros, rfl, by simp, .nil⟩

@[simp] theorem toMv_unit : toMv n (unit n) = 1 := by
  rw [unit, Terms.toMv_singleton, Term.one, Exponents.toFinsupp_zeros, Coefficient.toRat_one]
  rfl

/-- The single member `1` is a reduced system of everything. -/
theorem outcome_unit (h : Ideal.span (system n sums) = ⊤) : Outcome n sums [unit n] := by
  have one : (1 : MvPolynomial (Fin n) ℚ) ∈ system n [unit n] := by
    simpa using toMv_mem_system (n := n) (List.mem_singleton_self (unit n))
  refine ⟨?_, fun I hI f hf nf => ⟨1, one, one_ne_zero, ?_⟩, Or.inr ?_⟩
  · rw [h]
    exact (Ideal.eq_top_iff_one _).mpr (Ideal.subset_span one)
  · rw [MonomialOrder.degree_one]
    exact zero_le
  · refine ⟨?_, ?_, ?_, ?_, List.pairwise_singleton _ _⟩
    · simpa using descending_unit
    · simp [unit]
    · simp [unit, Terms.leadCoeff, Term.one]
    · intro p hp q hq ne
      rw [List.mem_singleton.mp hp, List.mem_singleton.mp hq] at ne
      exact absurd rfl ne

/-- Members without a term add nothing to a system. -/
theorem filter_zeros (sums : List Terms) :
    Ideal.span (system n (sums.filter (!·.isEmpty))) = Ideal.span (system n sums) ∧
      ∀ I, Covers lex I (system n sums) → Covers lex I (system n (sums.filter (!·.isEmpty))) := by
  have mem {f : MvPolynomial (Fin n) ℚ} (hf : f ∈ system n sums) (nf : f ≠ 0) :
      f ∈ system n (sums.filter (!·.isEmpty)) := by
    obtain ⟨p, hp, rfl⟩ := mem_system.mp hf
    refine toMv_mem_system (List.mem_filter.mpr ⟨hp, ?_⟩)
    cases p with
    | nil => exact absurd rfl nf
    | cons t ts => rfl
  refine ⟨le_antisymm (Ideal.span_mono ?_) (Ideal.span_le.mpr fun f hf => ?_), ?_⟩
  · intro f hf
    obtain ⟨p, hp, rfl⟩ := mem_system.mp hf
    exact toMv_mem_system (List.mem_filter.mp hp).1
  · by_cases nf : f = 0
    · exact nf ▸ zero_mem _
    · exact Ideal.subset_span (mem hf nf)
  · intro I hI f hf nf
    obtain ⟨b, hb, nb, le⟩ := hI f hf nf
    exact ⟨b, mem hb nb, nb, le⟩

theorem system_perm {ps qs : List Terms} (h : ps.Perm qs) : system n ps = system n qs := by
  ext f
  simp only [mem_system, h.mem_iff]

/-- **Reducing a list of sums fails only where an exponent does not fit.** -/
theorem ofSums_answers (h : ∀ p ∈ sums, Descending n p) :
    Answers Failure.IsOverflow (Outcome n sums) (ofSums n sums) := by
  obtain ⟨span, covers⟩ := filter_zeros (n := n) sums
  have mem {p : Terms} (hp : p ∈ sums.filter (!·.isEmpty)) : Descending n p ∧ p ≠ [] := by
    obtain ⟨hp, ne⟩ := List.mem_filter.mp hp
    exact ⟨h p hp, fun e => by simp [e] at ne⟩
  unfold ofSums
  dsimp only
  split
  · rename_i empty
    cases List.isEmpty_iff.mp empty
    refine ⟨rfl, fun I hI => hI, Or.inr ⟨?_, ?_, ?_, ?_, List.Pairwise.nil⟩⟩ <;> simp
  · split
    · rename_i zeros
      have all : ∀ p ∈ sums, p = [] := by simpa using zeros
      rw [List.isEmpty_iff] at zeros
      refine ⟨?_, fun I hI f hf nf => ?_, Or.inl ⟨rfl, all⟩⟩
      · rw [← span, zeros]
        simp [system]
      · obtain ⟨b, hb, -⟩ := covers I hI f hf nf
        rw [zeros] at hb
        simp [system] at hb
    · split
      · rename_i const
        obtain ⟨p, hp, const⟩ := List.any_eq_true.mp const
        obtain ⟨desc, ne⟩ := mem hp
        refine outcome_unit (span ▸ ?_)
        exact eq_top_of_degree_eq_zero (Ideal.subset_span (toMv_mem_system hp))
          (desc.toMv_ne_zero ne) (desc.isConstant_iff.mp const)
      · rename_i const
        have proper : ∀ p ∈ sums.filter (!·.isEmpty), Terms.Proper n p := by
          intro p hp
          refine ⟨(mem hp).1, (mem hp).2, ?_⟩
          by_contra yes
          exact const (List.any_eq_true.mpr ⟨p, hp, by simpa using yes⟩)
        refine (settle_answers proper).bind fun out hout => ?_
        rcases hout with ⟨rfl, top⟩ | ⟨settled, rfl, hs⟩
        · exact outcome_unit (span ▸ top)
        · have perm := sortBy_perm byLead (settled.map Terms.monic)
          refine ⟨?_, fun I hI => ?_, Or.inr (reduced_sortBy hs.proper hs.reduced)⟩
          · refine (congrArg Ideal.span (system_perm perm)).trans ?_
            rw [span_monic hs.proper, hs.span_eq, span]
          · refine (system_perm (n := n) perm).symm ▸ ?_
            exact covers_monic hs.proper (hs.covers I (covers I hI))

/-- A list of zeros reduces to `[0]`. -/
theorem ofSums_of_zeros (ne : sums ≠ []) (zeros : ∀ p ∈ sums, p = []) :
    ofSums n sums = .ok [[]] := by
  have none : sums.filter (!·.isEmpty) = [] := by simpa using zeros
  simp [ofSums, none, ne]

/-- A constant reduces to `[1]`. -/
theorem ofSums_of_constant (ne : p ≠ []) (const : p.isConstant = true) :
    ofSums n [p] = .ok [unit n] := by
  cases p with
  | nil => exact absurd rfl ne
  | cons t ts => simp [ofSums, const]

/-! ## 7. Reduced systems stay as they are -/

/-- A turn over members that no other divides changes nothing. -/
theorem sweep_of_interreduced : ∀ {before after : List Terms} {changed : Bool},
    (∀ p ∈ before ++ after, Descending n p) → Terms.Interreduced n before after →
      sweep before changed after = .ok (.members (before ++ after) changed)
  | before, [], changed, _, _ => by
    rw [List.append_nil]
    rfl
  | before, p :: after, changed, desc, h => by
    have hp : Descending n p := desc p (by simp)
    have others : ∀ d ∈ before ++ after, Descending n d := fun d hd => desc d <| by
      rw [List.mem_append, List.mem_cons]
      exact (List.mem_append.mp hd).imp_right Or.inr
    have alone : p.divide (before ++ after) = .ok ([], p) :=
      Terms.divide_of_undivided others hp fun t ht =>
        h [] p after rfl _ (hp.mem_support_iff.mpr ⟨t, ht, rfl⟩)
    have lists : before ++ [p] ++ after = before ++ p :: after := by simp
    have later : Terms.Interreduced n (before ++ [p]) after := fun front q back split => by
      have := h (p :: front) q back (congrArg (p :: ·) split)
      rwa [List.append_assoc]
    unfold sweep
    rw [alone]
    show sweep (before ++ [p]) changed after = _
    rw [sweep_of_interreduced (lists ▸ desc) later, lists]

theorem settle_of_interreduced {system₀ : List Terms} (desc : ∀ p ∈ system₀, Descending n p)
    (h : Terms.Interreduced n [] system₀) : settle system₀ = .ok (some system₀) := by
  unfold settle
  rw [sweep_of_interreduced desc h]
  rfl

/-- The only monic constant is `1`. -/
theorem eq_unit_of_monic : ∀ {p : Terms}, Descending n p → p ≠ [] → Terms.leadCoeff p = .one →
    Terms.isConstant p = true → p = unit n
  | [], _, ne, _, _ => absurd rfl ne
  | [⟨c, row⟩], desc, _, monic, const => by
    have coeff : c = .one := monic
    have len : row.length = n := desc.length List.mem_cons_self
    have zero : row.toFinsupp n = 0 := (Exponents.isConstant_iff len).mp const
    have zeros : row = Exponents.zeros n :=
      Exponents.toFinsupp_injective len Exponents.length_zeros
        (zero.trans Exponents.toFinsupp_zeros.symm)
    rw [coeff, zeros]
    rfl
  | _ :: _ :: _, _, _, _, const => nomatch const

end Reduction

namespace Terms.Reduced

variable {basis : List Terms} (h : Reduced n basis)
include h

theorem interreduced : Interreduced n [] basis := by
  intro front p back split e he q hq ne
  have hq : q ∈ front ++ back := hq
  have sorted := h.sorted
  rw [split, List.pairwise_append, List.pairwise_cons] at sorted
  obtain ⟨-, ⟨behind, -⟩, across⟩ := sorted
  have self (q : Terms) (lt : (leadRow q).compare (leadRow q) = .lt) : False := by
    rw [Exponents.compare_self] at lt
    cases lt
  -- the leading rows tell `q` from `p`
  have other : q ≠ p := by
    intro same
    subst same
    rcases List.mem_append.mp hq with hq | hq
    · exact self q (across q hq q List.mem_cons_self)
    · exact self q (behind q hq)
  refine h.reduced p (split ▸ by simp) q ?_ other e he
  rw [split, List.mem_append, List.mem_cons]
  exact (List.mem_append.mp hq).imp_right Or.inr

/-- A constant leaves room for nothing else. -/
theorem eq_unit {p : Terms} (hp : p ∈ basis) (const : p.isConstant = true) :
    basis = [Reduction.unit n] := by
  have desc := h.descending p hp
  have zero : Exponents.toFinsupp n (leadRow p) = 0 :=
    desc.degree_toMv.symm.trans (desc.isConstant_iff.mp const)
  have alone : ∀ q ∈ basis, q = p := by
    intro q hq
    by_contra other
    have lead := MonomialOrder.degree_mem_support (m := lex)
      ((h.descending q hq).toMv_ne_zero (h.ne_nil q hq))
    refine h.reduced q hq p hp (Ne.symm other) _ lead ?_
    rw [zero]
    exact zero_le
  have one := Reduction.eq_unit_of_monic desc (h.ne_nil p hp) (h.monic p hp) const
  match basis, alone, h.sorted with
  | [], _, _ => exact absurd hp List.not_mem_nil
  | [q], alone, _ => rw [alone q List.mem_cons_self, one]
  | q :: r :: rest, alone, sorted =>
    have lt := List.rel_of_pairwise_cons sorted List.mem_cons_self
    rw [alone q (by simp), alone r (by simp), Exponents.compare_self] at lt
    cases lt

/-- **A reduced system is its own reduced system.** -/
theorem ofSums_eq : Reduction.ofSums n basis = .ok basis := by
  have keep : basis.filter (!·.isEmpty) = basis := List.filter_eq_self.mpr fun p hp => by
    simpa using h.ne_nil p hp
  unfold Reduction.ofSums
  dsimp only
  rw [keep]
  split
  · rename_i empty
    rw [List.isEmpty_iff.mp empty]
  · split
    · rename_i const
      obtain ⟨p, hp, const⟩ := List.any_eq_true.mp const
      rw [h.eq_unit hp const]
    · have monic : basis.map Terms.monic = basis :=
        (List.map_congr_left fun p hp => monic_of_leadCoeff (h.monic p hp)).trans (List.map_id basis)
      have sorted : sortBy Reduction.byLead basis = basis :=
        sortBy_of_pairwise <| h.sorted.imp fun {p q} lt gt => by
          unfold Reduction.byLead at gt
          rw [Exponents.compare_swap, gt] at lt
          cases lt
      rw [Reduction.settle_of_interreduced h.descending h.interreduced]
      show Except.ok (sortBy Reduction.byLead (basis.map Terms.monic)) = _
      rw [monic, sorted]

end Terms.Reduced

/-- **Reducing what reducing has made changes nothing.** -/
theorem Reduction.Outcome.ofSums_eq {basis : List Terms} (h : Outcome n sums basis) :
    ofSums n basis = .ok basis := by
  rcases h.shape with ⟨rfl, -⟩ | reduced
  · exact ofSums_of_zeros (List.cons_ne_nil _ _) (by simp)
  · exact reduced.ofSums_eq

end Eliminant
