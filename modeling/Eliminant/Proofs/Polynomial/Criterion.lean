import Eliminant.Proofs.Polynomial.Reduction

/-!
# Groebner bases are recognized

`Polynomial.isGroebnerBasis` divides the S-polynomials of all pairs by the system. Where all of them leave
nothing the system covers its ideal, by Buchberger's criterion; a remainder that is not zero is a
member of the ideal that the system does not cover (`Polynomial.reducesAll_answers`).

The polynomials may be over whatever lists of variables, and zeros among them may have variables that no
other polynomial has. A division by the system has those variables too, but they are of no consequence:

* `Polynomial.Leads`: over the variables of the polynomials that are not zero, every leading monomial of
  the ideal is divisible by that of one of them;
* **`Polynomial.isGroebnerBasis_spec`**: that is what is decided, and where it holds, divisions decide
  which polynomials are members of the ideal.
-/

namespace Eliminant

open MonomialOrder (lex)
open Terms (toMv)

variable {n : Nat} {I : Ideal (MvPolynomial (Fin n) ℚ)} {basis : List Terms} {f s r : Terms}

/-! ## 1. Systems of sums -/

/-- A member of the ideal that is its own remainder is not covered. -/
theorem Generates.not_covers (hb : Generates n I basis) (mem : toMv n s ∈ I)
    (rem : Terms.IsRemainder n basis s r) (ne : r ≠ []) : ¬ Covers lex I (system n basis) := by
  intro covers
  have some := rem.descending.toMv_ne_zero ne
  obtain ⟨b, lead, -, le⟩ := covers _ (hb.remainder_mem mem rem) some
  obtain ⟨p, hp, rfl⟩ := mem_system.mp lead
  have lead := MonomialOrder.degree_mem_support (m := lex) some
  refine rem.irreducible _ lead p hp (hb.ne_nil p hp) ?_
  rwa [← (hb.descending p hp).degree_toMv]

namespace Polynomial

/-- **One member with others**: either all their S-polynomials are combinations of smaller monomials, or
    the system does not cover its ideal. -/
theorem reducesWith_answers (hb : Generates n I basis) (hf : f ∈ basis) :
    ∀ {gs : List Terms}, gs ⊆ basis →
      Answers Failure.IsOverflow
        (fun b => (b = true → ∀ g ∈ gs, Treated n basis [] f g) ∧
          (b = false → ¬ Covers lex I (system n basis)))
        (reducesWith basis f gs)
  | [], _ => ⟨fun _ => List.forall_mem_nil _, nofun⟩
  | g :: gs, sub => by
    obtain ⟨hg, sub⟩ := List.cons_subset.mp sub
    have df := hb.descending f hf
    have dg := hb.descending g hg
    unfold reducesWith
    refine (Terms.sPolynomial_answers df dg (hb.ne_nil f hf) (hb.ne_nil g hg)).bind fun s hs => ?_
    obtain ⟨ds, hs⟩ := hs
    refine (Terms.remainder_answers hb.descending ds).bind fun r rem => ?_
    split
    · rename_i zero
      cases List.isEmpty_iff.mp zero
      have here : Treated n basis [] f g :=
        Or.inl ((Represents.of_sPolynomial hs rem).elim id Represents.of_nil)
      refine (reducesWith_answers hb hf sub).imp fun b hb => ⟨fun yes => ?_, hb.2⟩
      exact List.forall_mem_cons.mpr ⟨here, hb.1 yes⟩
    · rename_i some
      refine ⟨nofun, fun _ => hb.not_covers (hs ▸ hb.sPolynomial_mem hf hg) rem fun zero => ?_⟩
      exact some (List.isEmpty_iff.mpr zero)

/-- **All pairs of a list**, by induction on the list. -/
theorem reducesEach_answers (hb : Generates n I basis) :
    ∀ {fs : List Terms}, fs ⊆ basis →
      Answers Failure.IsOverflow
        (fun b => (b = true → fs.Pairwise (Treated n basis [])) ∧
          (b = false → ¬ Covers lex I (system n basis)))
        (reducesAll basis fs)
  | [], _ => ⟨fun _ => List.Pairwise.nil, nofun⟩
  | f :: fs, sub => by
    obtain ⟨hf, sub⟩ := List.cons_subset.mp sub
    unfold reducesAll
    refine (reducesWith_answers hb hf sub).bind fun b here => ?_
    split
    · rename_i yes
      refine (reducesEach_answers hb sub).imp fun b later => ⟨fun all => ?_, later.2⟩
      exact List.pairwise_cons.mpr ⟨here.1 yes, later.1 all⟩
    · rename_i no
      exact ⟨nofun, fun _ => here.2 (Bool.not_eq_true _ ▸ no)⟩

/-- **The S-polynomials decide whether a system covers its ideal.** -/
theorem reducesAll_answers (hb : Generates n I basis) :
    Answers Failure.IsOverflow (fun b => b = true ↔ Covers lex I (system n basis))
      (reducesAll basis basis) := by
  refine (reducesEach_answers hb (List.Subset.refl basis)).imp fun b answer => ⟨fun yes => ?_, ?_⟩
  · exact Completion.covers_of_treated hb (answer.1 yes)
  · intro covers
    by_contra no
    exact answer.2 (Bool.eq_false_iff.mpr no) covers

/-! ## 2. Systems of polynomials -/

variable {vars all : List Variable} {p h q : Polynomial} {ps qs : List Polynomial}

/-- The variables of the polynomials that are not zero, in one list. -/
def activeVars (ps : List Polynomial) : List Variable :=
  sharedVars (alignAll (ps.filter (!·.isZero)))

/-- **Every leading monomial of the ideal is divisible by that of a generator**, zeros apart. -/
structure Leads (vars : List Variable) (ps : List Polynomial) : Prop where
  exists_le : ∀ f ∈ ideal vars ps, f ≠ 0 →
    ∃ p ∈ ps, p.isZero = false ∧ lex.degree (p.reading vars) ≤ lex.degree f

theorem mem_nonzero : p ∈ ps.filter (!·.isZero) ↔ p ∈ ps ∧ p.isZero = false := by
  rw [List.mem_filter, Bool.not_eq_true']

theorem sound_nonzero (hps : ∀ p ∈ ps, p.Sound) : ∀ p ∈ ps.filter (!·.isZero), p.Sound :=
  fun p hp => hps p (mem_nonzero.mp hp).1

theorem reading_of_isZero (hp : p.Sound) (zero : p.isZero = true) : p.reading vars = 0 := by
  rw [reading, hp.toMv_eq_zero_iff.mpr zero, map_zero]

theorem Over.reading_ne_zero (hp : p.Sound) (h : Over vars p q) (some : p.isZero = false) :
    p.reading vars ≠ 0 := by
  rw [h.reading_eq]
  exact h.descending.toMv_ne_zero ((h.terms_ne_nil_iff hp).mpr some)

/-- Zeros add nothing to an ideal. -/
theorem ideal_nonzero (hps : ∀ p ∈ ps, p.Sound) :
    ideal vars (ps.filter (!·.isZero)) = ideal vars ps := by
  refine le_antisymm (Ideal.span_mono fun f hf => ?_) (Ideal.span_le.mpr fun f hf => ?_)
  · obtain ⟨p, hp, same⟩ := hf
    exact ⟨p, (mem_nonzero.mp hp).1, same⟩
  · obtain ⟨p, hp, rfl⟩ := hf
    cases zero : p.isZero with
    | true =>
      rw [reading_of_isZero (hps p hp) zero]
      exact zero_mem _
    | false => exact reading_mem_ideal (mem_nonzero.mpr ⟨hp, zero⟩)

/-- What a system of aligned polynomials covers. -/
theorem covers_iff_leads (nonzero : ∀ p ∈ ps, p.isZero = false)
    (hps : ∀ p ∈ ps, p.Sound) (h : List.Forall₂ (Over vars) ps qs) :
    Covers lex (ideal vars ps) (system vars.length (qs.map (·.terms))) ↔ Leads vars ps := by
  constructor
  · refine fun covers => ⟨fun f hf ne => ?_⟩
    obtain ⟨b, hb, -, le⟩ := covers f hf ne
    obtain ⟨p, hp, rfl⟩ := (mem_system_terms h).mp hb
    exact ⟨p, hp, nonzero p hp, le⟩
  · intro leads f hf ne
    obtain ⟨p, hp, some, le⟩ := leads.exists_le f hf ne
    refine ⟨p.reading vars, (mem_system_terms h).mpr ⟨p, hp, rfl⟩, ?_, le⟩
    obtain ⟨q, -, same⟩ := exists_of_mem_forall₂_left h hp
    exact same.reading_ne_zero (hps p hp) some

/-- Zeros have no part in it. -/
theorem leads_nonzero (hps : ∀ p ∈ ps, p.Sound) :
    Leads vars (ps.filter (!·.isZero)) ↔ Leads vars ps := by
  refine ⟨fun h => ⟨fun f hf ne => ?_⟩, fun h => ⟨fun f hf ne => ?_⟩⟩
  · obtain ⟨p, hp, some, le⟩ := h.exists_le f (ideal_nonzero hps ▸ hf) ne
    exact ⟨p, (mem_nonzero.mp hp).1, some, le⟩
  · obtain ⟨p, hp, some, le⟩ := h.exists_le f (ideal_nonzero hps ▸ hf) ne
    exact ⟨p, mem_nonzero.mpr ⟨hp, some⟩, some, le⟩

/-- **What is decided.** -/
theorem decides_leads (hps : ∀ p ∈ ps, p.Sound) :
    Answers Failure.IsOverflow (fun b => b = true ↔ Leads (activeVars ps) ps)
      (isGroebnerBasis ps) := by
  have sound := sound_nonzero hps
  have nonzero : ∀ p ∈ ps.filter (!·.isZero), p.isZero = false := fun p hp => (mem_nonzero.mp hp).2
  obtain ⟨all, -⟩ := alignAll_spec sound
  have hb : Generates (activeVars ps).length (ideal (activeVars ps) (ps.filter (!·.isZero)))
      ((alignAll (ps.filter (!·.isZero))).map (·.terms)) := by
    refine ⟨descending_of_forall₂ all, List.forall_mem_map.mpr fun q hq => ?_, span_system all⟩
    obtain ⟨p, hp, moved⟩ := exists_of_mem_forall₂ all hq
    exact (moved.terms_ne_nil_iff (sound p hp)).mpr (nonzero p hp)
  refine (reducesAll_answers hb).imp fun b answer => ?_
  exact answer.trans ((covers_iff_leads nonzero sound all).trans (leads_nonzero hps))

/-! ## 3. Divisions by a Groebner basis -/

/-- A list that has the variables of another in their order, and what has its variables in the first. -/
theorem exists_orderEmbedding (sub : vars.Sublist all) (nodup : all.Nodup) :
    ∃ i : Fin vars.length ↪o Fin all.length,
      ∀ p : Polynomial, p.vars ⊆ vars → p.reading all = MvPolynomial.rename i (p.reading vars) := by
  obtain ⟨i, names⟩ := List.sublist_iff_exists_fin_orderEmbedding_get_eq.mp sub
  refine ⟨i, fun p hp => ?_⟩
  have places : place all ∘ vars.get = MvPolynomial.X ∘ i := funext fun k => by
    rw [Function.comp_apply, names, place_get nodup]
    rfl
  rw [reading, ← rename_reading hp, MvPolynomial.aeval_rename, places,
    ← MvPolynomial.aeval_rename, MvPolynomial.aeval_X_left_apply]

/-- The ideal over more variables, of which only zeros have others than the ideal. -/
theorem ideal_map {i : Fin vars.length ↪o Fin all.length}
    (h : ∀ p ∈ ps, p.reading all = MvPolynomial.rename i (p.reading vars)) :
    ideal all ps = (ideal vars ps).map (MvPolynomial.rename i) := by
  unfold ideal
  rw [Ideal.map_span]
  refine congrArg Ideal.span (Set.ext fun f => ⟨fun h' => ?_, fun h' => ?_⟩)
  · obtain ⟨p, hp, rfl⟩ := h'
    exact ⟨_, ⟨p, hp, rfl⟩, (h p hp).symm⟩
  · obtain ⟨_, ⟨p, hp, rfl⟩, rfl⟩ := h'
    exact ⟨p, hp, h p hp⟩

/-- A dividend and its remainder differ by a member of the ideal of the divisors. -/
theorem IsDivision.reading_sub_mem {es : List Elimination} {f r : Polynomial} (h : IsDivision f ps es r)
    (vars : List Variable) : f.reading vars - r.reading vars ∈ ideal vars ps := by
  rw [reading, reading, h.recombines.toMv_eq, map_add, add_sub_cancel_left, map_list_sum, List.map_map,
    List.map_map]
  refine list_sum_mem fun g hg => ?_
  obtain ⟨e, he, rfl⟩ := List.mem_map.mp hg
  obtain ⟨d, here, -⟩ := h.used e he
  have same : divisorOf ps e = d := by
    rw [divisorOf, List.getD_eq_getElem?_getD, here]
    rfl
  show MvPolynomial.aeval (place vars) (toMv ⟨r.vars, [e.2]⟩ * (divisorOf ps e).toMv) ∈ _
  rw [map_mul, same]
  exact Ideal.mul_mem_left _ _ (reading_mem_ideal (List.mem_of_getElem? here))

/-- **Divisions by a Groebner basis leave nothing of the members of its ideal**, and of nothing else. -/
theorem IsDivision.isZero_iff {es : List Elimination} {f r : Polynomial} (hps : ∀ p ∈ ps, p.Sound)
    (sub : ∀ p ∈ ps, p.isZero = false → p.vars ⊆ vars) (leads : Leads vars ps) (same : f.vars = vars)
    (h : IsDivision f ps es r) : r.isZero = true ↔ f.reading vars ∈ ideal vars ps := by
  have nodup := h.sound.nodup
  obtain ⟨i, embedded⟩ := exists_orderEmbedding (same ▸ h.sublist) nodup
  have divisors : ∀ p ∈ ps, p.reading r.vars = MvPolynomial.rename i (p.reading vars) := by
    intro p hp
    cases zero : p.isZero with
    | true =>
      rw [reading_of_isZero (hps p hp) zero, reading_of_isZero (hps p hp) zero, map_zero]
    | false => exact embedded p (sub p hp zero)
  have ideals := ideal_map divisors
  have dividend : f.reading r.vars = MvPolynomial.rename i (f.reading vars) :=
    embedded f (same ▸ List.Subset.refl _)
  have difference := h.reading_sub_mem r.vars
  constructor
  · intro zero
    rw [reading_of_isZero h.sound zero, sub_zero, dividend, ideals] at difference
    exact rename_mem_iff.mp difference
  · intro mem
    by_contra some
    have left : r.reading r.vars ∈ (ideal vars ps).map (MvPolynomial.rename i) := by
      rw [← ideals, ← sub_sub_cancel (f.reading r.vars) (r.reading r.vars)]
      refine sub_mem ?_ difference
      rw [ideals, dividend]
      exact rename_mem_iff.mpr mem
    have ne : r.reading r.vars ≠ 0 := fun zero => some <| by
      rw [← h.sound.toMv_eq_zero_iff, ← rename_reading (List.Subset.refl r.vars), zero, map_zero]
    -- a member of the ideal divides a monomial of the remainder, and a divisor divides that member
    obtain ⟨g, hg, ng, d, hd, le⟩ := exists_degree_le_of_mem_map left ne
    obtain ⟨p, hp, notZero, lead⟩ := leads.exists_le g hg ng
    refine h.irreducible d hd p hp notZero ?_
    rw [divisors p hp, degree_rename]
    exact (Finsupp.mapDomain_mono lead).trans le

/-- **Whether polynomials are a Groebner basis is decided**, unless an exponent does not fit: over the
    variables of those that are not zero, every leading monomial of their ideal is divisible by that of
    one of them. And if so, whatever is divided by them leaves nothing just when it is a member. -/
theorem isGroebnerBasis_spec (hps : ∀ p ∈ ps, p.Sound) :
    (activeVars ps).Nodup ∧
    (∀ v, v ∈ activeVars ps ↔ ∃ p ∈ ps, p.isZero = false ∧ v ∈ p.vars) ∧
    Answers Failure.IsOverflow
      (fun b => (b = true ↔ Leads (activeVars ps) ps) ∧
        (b = true → ∀ h : Polynomial, h.Sound → h.vars = activeVars ps →
          Answers Failure.IsOverflow
            (fun out => out.2.isZero = true ↔
              h.reading (activeVars ps) ∈ ideal (activeVars ps) ps)
            (h.divide ps)))
      (isGroebnerBasis ps) := by
  have sound := sound_nonzero hps
  have mem (v : Variable) : v ∈ activeVars ps ↔ ∃ p ∈ ps, p.isZero = false ∧ v ∈ p.vars := by
    refine ((alignAll_spec sound).2 v).trans ?_
    simp only [mem_nonzero, and_assoc]
  refine ⟨nodup_sharedVars sound, mem, (decides_leads hps).imp fun b decided => ⟨decided, ?_⟩⟩
  intro yes h hh same
  refine (division_spec hh hps).1.imp fun out division => ?_
  exact division.isZero_iff hps (fun p hp some v hv => (mem v).mpr ⟨p, hp, some, hv⟩)
    (decided.mp yes) same

/-- `0`, `x ^ 2 + x` and `x * y + y` are a Groebner basis, and `x ^ 2 * y - y` is a member of their ideal. -/
theorem isGroebnerBasis_spec_at :
    let x := Variable.symbol "x"
    let y := Variable.symbol "y"
    let z := Variable.symbol "z"
    let ps : List Polynomial := [⟨[z], []⟩, ⟨[x], [⟨.one, [2]⟩, ⟨.one, [1]⟩]⟩,
      ⟨[x, y], [⟨.one, [1, 1]⟩, ⟨.one, [0, 1]⟩]⟩]
    let f : Polynomial := ⟨[x, y], [⟨.one, [2, 1]⟩, ⟨-.one, [0, 1]⟩]⟩
    let es : List Elimination := [(1, ⟨.one, [0, 1, 0]⟩), (2, ⟨-.one, [0, 0, 0]⟩)]
    (∀ p ∈ ps, p.Sound) ∧ activeVars ps = [x, y] ∧ isGroebnerBasis ps = .ok true ∧
      Leads (activeVars ps) ps ∧ f.Sound ∧ f.divide ps = .ok (es, zero [x, y, z]) ∧
      f.reading (activeVars ps) ∈ ideal (activeVars ps) ps := by
  intro x y z ps f es
  have sound : ∀ p ∈ ps, p.Sound := by decide
  have vars : activeVars ps = [x, y] := by cbv
  have run : isGroebnerBasis ps = .ok true := by cbv
  have hf : f.Sound := by decide
  have division : f.divide ps = .ok (es, zero [x, y, z]) := by cbv
  obtain ⟨-, -, decided⟩ := isGroebnerBasis_spec sound
  obtain ⟨leads, members⟩ := decided.of_ok run
  have member := (members rfl f hf vars.symm).of_ok division
  exact ⟨sound, vars, run, leads.mp rfl, hf, division, member.mp rfl⟩

end Polynomial

end Eliminant
