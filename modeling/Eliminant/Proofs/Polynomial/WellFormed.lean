import Eliminant.Polynomial.Nested
import Eliminant.Proofs.Gcd
import Eliminant.Proofs.Polynomial.Arithmetic
import Eliminant.Proofs.Polynomial.Rename

/-!
# Every operation keeps polynomials consistent

A polynomial is **well formed** when it is consistent and lists no variable twice. Nothing more is
asked of the variables: two of them may compare equal, and then an alignment lets the one of the right
polynomial give way.

* `align_on`, `alignAll_on`: aligned polynomials are consistent over one list of distinct variables;
* over one list (`Polynomial.On`) the terms alone are computed with: `On.mul`, `On.sPolynomial`,
  `On.quotients`, `On.lcm`, `On.gcd` and others, one for each operation, and `WellFormed.mul` and others
  for operands over two lists;
* `WellFormed.prune`, `WellFormed.rename`, `Nested.toPolynomial_wellFormed`: operations that make a new
  list.
-/

namespace Eliminant

open Terms (Descending)

variable {n : Nat}

/-! ## 1. Terms -/

namespace Exponents

theorem length_sub? : ∀ as bs : Exponents,
    Answers (fun _ => True) (fun cs => cs.length = as.length) (as.sub? bs)
  | [], [] => rfl
  | [], _ :: _ => rfl
  | _ :: _, [] => rfl
  | a :: as, b :: bs => by
    unfold sub?
    split
    · exact (length_sub? as bs).bind fun cs h => congrArg Nat.succ h
    · trivial

end Exponents

theorem Term.length_div (s t : Term) :
    Answers (fun _ => True) (fun q => q.exps.length = s.exps.length) (s.div t) := by
  unfold Term.div
  refine (Exponents.length_sub? s.exps t.exps).bind fun exps h => ?_
  cases s.coeff.div t.coeff with
  | ok c => exact h
  | error e => trivial

namespace Terms

variable {ts us : Terms} {f g : Terms}

/-- The combination in which leading terms cancel, whatever the leading terms are. -/
theorem sPolynomial_descending {lf lg : Term} (lenf : lf.exps.length = n) (leng : lg.exps.length = n)
    (hf : Descending n f) (hg : Descending n g) :
    Answers (fun _ => True) (Descending n) (sPolynomial lf lg f g) := by
  unfold sPolynomial
  refine (Term.length_div lg _).bind fun forF lenF => ?_
  refine (Term.length_div lf _).bind fun forG lenG => ?_
  refine Answers.bind (mulTerm_answers (lenF.trans leng) hf).any fun a ha => ?_
  exact Answers.bind (mulTerm_answers (lenG.trans lenf) hg).any fun b hb => ha.1.sub hb.1

theorem shift_descending {exps : Exponents} (he : exps.length = n) (h : Descending n ts) :
    Answers (fun _ => True) (Descending n) (shift exps ts) :=
  (shift_shifted he h.1).any.imp fun _ hs => h.of_shifted hs

end Terms

/-! ## 2. Alignment -/

namespace Polynomial

variable {vars : List Variable} {p q f g : Polynomial} {ps ds : List Polynomial}

/-- **A consistent polynomial over distinct variables.** -/
structure WellFormed (p : Polynomial) : Prop where
  consistent : p.Consistent
  nodup : p.vars.Nodup

/-- A consistent polynomial over exactly `vars`. -/
structure On (vars : List Variable) (p : Polynomial) : Prop where
  vars_eq : p.vars = vars
  descending : p.terms.Descending vars.length

theorem Sound.wellFormed (h : p.Sound) : p.WellFormed := ⟨h.consistent, h.nodup⟩

theorem WellFormed.on (h : p.WellFormed) : On p.vars p := ⟨rfl, h.consistent⟩

theorem On.wellFormed (h : On vars p) (nodup : vars.Nodup) : p.WellFormed := by
  obtain ⟨rfl, desc⟩ := h
  exact ⟨desc, nodup⟩

/-- Moving looks at the places of variables, not at their names. -/
theorem WellFormed.moveTo {ws vs : List Variable} {places : List Nat} (h : p.WellFormed)
    (twins : Alignment.Twins p.vars ws) (nodup : ws.Nodup) (hws : Places ws vs places) :
    On vs (p.moveTo places vs) := by
  have consistent := h.consistent.with_vars (List.Forall₂.length_eq twins).symm
  exact ⟨rfl, consistent.moveTo nodup hws⟩

/-- What aligning makes of two polynomials, whatever their variables are called. -/
structure AlignedOn (p q : Polynomial) (r : Polynomial × Polynomial) : Prop where
  nodup : r.1.vars.Nodup
  left : On r.1.vars r.1
  right : On r.1.vars r.2
  subset : p.vars ⊆ r.1.vars
  of_subset : q.vars ⊆ p.vars → r.1.vars = p.vars

/-- **Polynomials that are aligned are consistent, over one list of distinct variables.** -/
theorem align_on (hp : p.WellFormed) (hq : q.WellFormed) : AlignedOn p q (align p q) := by
  unfold align
  split
  · rename_i same
    exact ⟨hp.nodup, hp.on, same ▸ hq.on, List.Subset.refl _, fun _ => rfl⟩
  · have a := Alignment.of_joins hp.nodup hq.nodup
    obtain ⟨ws, twins, nodup, right⟩ := a.right
    exact ⟨a.nodup, hp.moveTo (Alignment.Twins.refl _) hp.nodup a.left, hq.moveTo twins nodup right,
      a.left.subset, a.of_subset⟩

/-- What aligning makes of a polynomial and a list. -/
structure AlignedEachOn (first : Polynomial) (ps : List Polynomial)
    (r : Polynomial × List Polynomial) : Prop where
  wellFormed : r.1.WellFormed
  subset : first.vars ⊆ r.1.vars
  rest : ∀ p ∈ r.2, p.WellFormed ∧ p.vars ⊆ r.1.vars
  of_subset : (∀ p ∈ ps, p.vars ⊆ first.vars) →
    r.1.vars = first.vars ∧ ∀ p ∈ r.2, On first.vars p

theorem alignEach_on : ∀ {ps : List Polynomial} {first : Polynomial}, first.WellFormed →
    (∀ p ∈ ps, p.WellFormed) → AlignedEachOn first ps (alignEach first ps)
  | [], first, hf, _ => ⟨hf, List.Subset.refl _, List.forall_mem_nil _,
      fun _ => ⟨rfl, List.forall_mem_nil _⟩⟩
  | p :: ps, first, hf, hps => by
    obtain ⟨hp, hps⟩ := List.forall_mem_cons.mp hps
    have here := align_on hf hp
    have later := alignEach_on (here.left.wellFormed here.nodup) hps
    have both : alignEach first (p :: ps) = ((alignEach (align first p).1 ps).1,
        (align first p).2 :: (alignEach (align first p).1 ps).2) := rfl
    rw [both]
    refine ⟨later.wellFormed, List.Subset.trans here.subset later.subset,
      List.forall_mem_cons.mpr ⟨⟨here.right.wellFormed here.nodup, ?_⟩, later.rest⟩, fun sub => ?_⟩
    · rw [here.right.vars_eq]
      exact later.subset
    · obtain ⟨subp, subps⟩ := List.forall_mem_cons.mp sub
      have same := here.of_subset subp
      obtain ⟨vars, rest⟩ := later.of_subset (same.symm ▸ subps)
      have right := here.right
      rw [same] at vars rest right
      exact ⟨vars, List.forall_mem_cons.mpr ⟨right, rest⟩⟩

/-- **So are all polynomials of a list.** -/
theorem alignAll_on (h : ∀ p ∈ ps, p.WellFormed) :
    (sharedVars (alignAll ps)).Nodup ∧ ∀ p ∈ alignAll ps, On (sharedVars (alignAll ps)) p := by
  cases ps with
  | nil => exact ⟨List.nodup_nil, List.forall_mem_nil _⟩
  | cons first rest =>
    obtain ⟨hf, hrest⟩ := List.forall_mem_cons.mp h
    have one := alignEach_on hf hrest
    have two := alignEach_on one.wellFormed fun q hq => (one.rest q hq).1
    obtain ⟨vars, all⟩ := two.of_subset fun q hq => (one.rest q hq).2
    have shared : sharedVars (alignAll (first :: rest)) = (alignEach first rest).1.vars := vars
    rw [shared]
    refine ⟨one.wellFormed.nodup, List.forall_mem_cons.mpr ⟨⟨vars, ?_⟩, all⟩⟩
    exact vars ▸ two.wellFormed.consistent

/-! ## 3. Operations over one list of variables -/

namespace On

theorem align_eq (hp : On vars p) (hq : On vars q) : align p q = (p, q) :=
  align_of_vars_eq (hp.vars_eq.trans hq.vars_eq.symm)

theorem with_terms (h : On vars p) {ts : Terms} (hts : ts.Descending vars.length) :
    On vars ⟨p.vars, ts⟩ := ⟨h.vars_eq, hts⟩

theorem zero (vars : List Variable) : On vars (zero vars) := ⟨rfl, .nil⟩

theorem constant (vars : List Variable) (c : Coefficient) : On vars (constant vars c) := by
  refine ⟨rfl, ?_⟩
  unfold Polynomial.constant
  dsimp only
  split
  · exact .nil
  · rename_i hc
    exact Descending.cons_iff.mpr ⟨Exponents.length_zeros, Bool.not_eq_true _ ▸ hc, by simp, .nil⟩

theorem add (hp : On vars p) (hq : On vars q) : On vars (p + q) := by
  have : p + q = ⟨(align p q).1.vars, (align p q).1.terms.add (align p q).2.terms⟩ := rfl
  rw [this, hp.align_eq hq]
  exact hp.with_terms (hp.descending.add hq.descending)

theorem neg (hp : On vars p) : On vars (-p) := hp.with_terms hp.descending.neg

theorem scale (hp : On vars p) (c : Coefficient) : On vars (p.scale c) :=
  hp.with_terms (hp.descending.scale c)

theorem monic (hp : On vars p) : On vars p.monic := hp.with_terms hp.descending.monic

theorem divCoeff (hp : On vars p) (c : Coefficient) :
    Answers (fun _ => True) (On vars) (p.divCoeff c) := by
  unfold Polynomial.divCoeff
  cases c.inv with
  | ok i => exact hp.scale i
  | error e => trivial

theorem shift (hp : On vars p) (exps : Exponents) :
    Answers (fun _ => True) (On vars) (p.shift exps) := by
  unfold Polynomial.shift
  split
  · trivial
  · rename_i len
    rw [not_not, hp.vars_eq] at len
    exact (Terms.shift_descending len hp.descending).bind fun _ h => hp.with_terms h

theorem mulTerm (hp : On vars p) (t : Term) : Answers (fun _ => True) (On vars) (p.mulTerm t) :=
  (hp.scale t.coeff).shift t.exps

/-- The product is that of the terms, however many there are. -/
theorem mul_eq (hp : On vars p) (hq : On vars q) :
    p.mul q = do return ⟨p.vars, ← p.terms.mul q.terms⟩ :=
  mul_of_vars_eq (hp.vars_eq.trans hq.vars_eq.symm) hp.descending hq.descending

theorem mul (hp : On vars p) (hq : On vars q) : Answers (fun _ => True) (On vars) (p.mul q) := by
  rw [hp.mul_eq hq]
  exact (Terms.isProduct_mul hp.descending hq.descending).any.bind fun _ h => hp.with_terms h.2.1

theorem pow (hp : On vars p) (n : Nat) : Answers (fun _ => True) (On vars) (p.pow n) := by
  have constant (c : Coefficient) : On vars (Polynomial.constant p.vars c) :=
    hp.vars_eq ▸ On.constant vars c
  exact pow_answers (P := fun _ => On vars) (fun _ => mul) (constant .one) (fun _ => constant _) hp

theorem length_leadTerm (hp : On vars p) : p.leadTerm.exps.length = vars.length := by
  have desc := hp.descending
  unfold leadTerm
  split
  · exact Exponents.length_zeros.trans (congrArg List.length hp.vars_eq)
  · rename_i lead
    rw [lead] at desc
    exact desc.length List.mem_cons_self

theorem sPolynomial (hp : On vars p) (hq : On vars q) :
    Answers (fun _ => True) (On vars) (p.sPolynomial q) := by
  unfold Polynomial.sPolynomial
  rw [hp.align_eq hq]
  refine (Terms.sPolynomial_descending hp.length_leadTerm hq.length_leadTerm hp.descending
    hq.descending).bind fun _ h => ?_
  exact hp.with_terms h

/-- The remainder of a division, and the quotients that the eliminations add up to. -/
theorem divide (hf : On vars f) (hds : ∀ d ∈ ds, On vars d) :
    Answers (fun _ => True)
      (fun out => On vars out.2 ∧ ∀ i, On vars (quotient vars out.1 i)) (f.divide ds) := by
  have all : ∀ d ∈ f :: ds, d.vars = vars :=
    List.forall_mem_cons.mpr ⟨hf.vars_eq, fun d hd => (hds d hd).vars_eq⟩
  have divisors : ∀ ts ∈ ds.map (·.terms), ts.Descending vars.length :=
    List.forall_mem_map.mpr fun d hd => (hds d hd).descending
  unfold Polynomial.divide
  rw [alignAll_of_vars_eq all]
  dsimp only
  refine Answers.bind (Terms.divide_answers divisors hf.descending).any fun out inv => ?_
  have remainder : out.2.Descending vars.length := by
    have := inv.remainder
    rwa [List.reverse_reverse] at this
  refine ⟨hf.with_terms remainder, fun i => ⟨rfl, descending_quotient i fun e he => ?_⟩⟩
  have proper := inv.proper e (List.mem_reverse.mpr he)
  exact ⟨proper.length, proper.coeff⟩

theorem quotients (hf : On vars f) (hds : ∀ d ∈ ds, On vars d) :
    Answers (fun _ => True) (fun out => (∀ q ∈ out.1, On vars q) ∧ On vars out.2)
      (f.quotients ds) := by
  unfold Polynomial.quotients
  refine (hf.divide hds).bind fun out h => ?_
  obtain ⟨remainder, parts⟩ := h
  refine ⟨List.forall_mem_map.mpr fun i _ => ?_, remainder⟩
  rw [remainder.vars_eq]
  exact parts i

/-- **Least common multiples**: the column of the new variable is taken away again. -/
theorem lcm (settings : Settings) (hf : On vars f) (hg : On vars g) :
    Answers (fun _ => True) (On vars) (lcm settings f g) := by
  unfold Polynomial.lcm
  rw [hf.align_eq hg]
  dsimp only
  split
  · exact hf.vars_eq ▸ On.zero vars
  split
  · exact hg.monic
  split
  · exact hf.monic
  rw [hf.vars_eq]
  refine Answers.bind (Completion.ofSums_answers
    (Terms.descending_eliminationSystem hf.descending hg.descending)).any fun out h => ?_
  split
  · rename_i p found
    have first : Terms.degree 0 p = 0 := by simpa using List.find?_some found
    have desc := h.descending p (List.mem_of_find?_eq_some found)
    exact ⟨rfl, Terms.descending_dropFirst desc first⟩
  · trivial

theorem gcd (settings : Settings) (hf : On vars f) (hg : On vars g) :
    Answers (fun _ => True) (On vars) (gcd settings f g) := by
  unfold Polynomial.gcd
  rw [hf.align_eq hg]
  dsimp only
  split
  · exact hg.monic
  split
  · exact hf.monic
  split
  · exact hf.vars_eq ▸ On.constant vars .one
  refine (hf.lcm settings hg).bind fun multiple hm => ?_
  refine (hf.mul hg).bind fun product hp => ?_
  have divisors : ∀ d ∈ [multiple], On vars d := by simpa using hm
  refine (hp.quotients divisors).bind fun out h => ?_
  split
  · trivial
  · obtain ⟨qs, r⟩ := out
    cases qs with
    | nil => exact On.monic (hf.vars_eq ▸ On.zero vars)
    | cons q qs => exact (h.1 q List.mem_cons_self).monic

end On

/-! ## 4. Operations that make a new list of variables -/

/-- The numbers of the variables that occur. -/
def occurring (p : Polynomial) : List Nat :=
  (List.range p.vars.length).filter fun i => 0 < p.degree i

theorem places_filterMap (vs : List Variable) : ∀ {is : List Nat}, (∀ i ∈ is, i < vs.length) →
    Places (is.filterMap fun i => vs[i]?) vs is
  | [], _ => rfl
  | i :: is, h => by
    obtain ⟨hi, his⟩ := List.forall_mem_cons.mp h
    have rest : is.map (fun i => vs[i]?) = (is.filterMap fun i => vs[i]?).map some :=
      places_filterMap vs his
    unfold Places
    rw [List.map_cons, rest, List.filterMap_cons, List.getElem?_eq_getElem hi]
    rfl

/-- A row is its columns of some places, if it is zero at all others. -/
theorem spread_map_getD {row : Exponents} {is : List Nat} (len : row.length = n) (nodup : is.Nodup)
    (zero : ∀ j < n, j ∉ is → row.getD j 0 = 0) :
    Exponents.spread is n (is.map fun i => row.getD i 0) = row := by
  refine Exponents.toFinsupp_injective Exponents.length_spread len (Finsupp.ext fun j => ?_)
  unfold Exponents.spread
  rw [Exponents.toFinsupp_apply, Exponents.toFinsupp_apply, ← List.map_prod_left_eq_zip]
  by_cases hj : (j : Nat) ∈ is
  · refine Exponents.getD_setAll_of_mem ?_ (List.mem_map.mpr ⟨j, hj, rfl⟩) ?_
    · rwa [List.map_map, show Prod.fst ∘ (fun i => (i, row.getD i 0)) = id from rfl, List.map_id]
    · rw [Exponents.length_zeros]
      exact j.2
  · rw [zero j j.2 hj, Exponents.getD_setAll_of_notMem]
    · simp [Exponents.zeros]
    · intro x hx same
      obtain ⟨i, hi, rfl⟩ := List.mem_map.mp hx
      exact hj (same ▸ hi)

theorem places_prune (p : Polynomial) : Places p.prune.vars p.vars p.occurring :=
  places_filterMap p.vars fun _ hi => List.mem_range.mp (List.mem_filter.mp hi).1

theorem pairwise_occurring (p : Polynomial) : p.occurring.Pairwise (· < ·) :=
  List.Pairwise.filter _ List.pairwise_lt_range

theorem nodup_occurring (p : Polynomial) : p.occurring.Nodup := p.pairwise_occurring.imp Nat.ne_of_lt

/-- The columns that are dropped are zero. -/
theorem Consistent.spread_prune (hp : p.Consistent) {t : Term} (ht : t ∈ p.terms) :
    Exponents.spread p.occurring p.vars.length (p.occurring.map fun i => t.exps.getD i 0) = t.exps := by
  refine spread_map_getD (Terms.Descending.length hp ht) p.nodup_occurring fun j hj missing => ?_
  have absent : ¬ 0 < p.degree j := fun some =>
    missing (List.mem_filter.mpr ⟨List.mem_range.mpr hj, by simpa using some⟩)
  exact Nat.le_zero.mp (Terms.degree_le_iff.mp (Nat.not_lt.mp absent) t ht)

/-- **Dropping the variables that do not occur** keeps the order of the terms. -/
theorem WellFormed.prune (hp : p.WellFormed) : p.prune.WellFormed := by
  have places := p.places_prune
  have names := places.nodup_of p.nodup_occurring hp.nodup
  have mono := places.strictMono (isAscending_iff.mpr p.pairwise_occurring)
  have desc : p.terms.Descending p.vars.length := hp.consistent
  have rows : ∀ t : Term, (p.occurring.map fun i => t.exps.getD i 0).length = p.prune.vars.length :=
    fun t => by rw [List.length_map, places.length]
  refine ⟨⟨List.forall_mem_map.mpr fun t _ => rows t, List.forall_mem_map.mpr fun t ht => ?_,
    List.pairwise_map.mpr (desc.2.2.imp_of_mem fun {t u} ht hu below => ?_)⟩, names⟩
  · exact desc.2.1 t ht
  · refine Exponents.compare_of_spread places names mono (rows u) (rows t) ?_
    rw [← hp.consistent.spread_prune ht, ← hp.consistent.spread_prune hu] at below
    exact below

theorem Sound.prune (h : p.Sound) : p.prune.Sound := by
  have pruned := h.wellFormed.prune
  exact ⟨pruned.consistent, pruned.nodup, fun v hv => h.proper v (p.places_prune.subset hv)⟩

/-- Moved back to all variables, the polynomial is what it was. -/
theorem Consistent.prune_moveTo (hp : p.Consistent) : p.prune.moveTo p.occurring p.vars = p := by
  unfold Polynomial.moveTo
  dsimp only
  rw [if_pos (isAscending_iff.mpr p.pairwise_occurring)]
  have rows : (p.prune.terms.map fun t => (⟨t.coeff, t.exps.spread p.occurring p.vars.length⟩ : Term)) =
      p.terms := by
    refine List.map_map.trans ((List.map_congr_left fun t ht => ?_).trans (List.map_id p.terms))
    exact congrArg (Term.mk t.coeff) (hp.spread_prune ht)
  rw [rows]

theorem WellFormed.toMv_prune (hp : p.WellFormed) : p.prune.toMv = p.toMv := by
  have same := toMv_moveTo hp.prune.consistent hp.prune.nodup p.places_prune
  rwa [hp.consistent.prune_moveTo, eq_comm] at same

theorem mem_prune_vars {v : Variable} :
    v ∈ p.prune.vars ↔ ∃ i : Nat, p.vars[i]? = some v ∧ ∃ t ∈ p.terms, 0 < t.exps.getD i 0 := by
  have occurs (i : Nat) : 0 < p.degree i ↔ ∃ t ∈ p.terms, 0 < t.exps.getD i 0 := by
    rw [← not_iff_not, Nat.not_lt, degree, Terms.degree_le_iff]
    simp
  refine List.mem_filterMap.trans (exists_congr fun i => ?_)
  rw [List.mem_filter, List.mem_range, decide_eq_true_iff, occurs i]
  constructor
  · exact fun h => ⟨h.2, h.1.2⟩
  · exact fun h => ⟨⟨(List.getElem?_eq_some_iff.mp h.1).1, h.2⟩, h.1⟩

/-- **Renaming to distinct variables.** -/
theorem WellFormed.rename (hp : p.WellFormed) (nodup : vars.Nodup) :
    Answers (fun _ => True) WellFormed (p.rename vars) := by
  by_cases len : vars.length = p.vars.length
  · obtain ⟨permuted, places, moved, run⟩ := rename_eq_moveTo len
    rw [run]
    exact ⟨(hp.consistent.with_vars len).moveTo nodup moved, permuted.nodup_iff.mpr nodup⟩
  · rw [Polynomial.rename, if_pos len]
    trivial

/-! ## 5. Operands over any two lists -/

namespace WellFormed

theorem align_align (hp : p.WellFormed) (hq : q.WellFormed) :
    align (align p q).1 (align p q).2 = align p q :=
  (align_on hp hq).left.align_eq (align_on hp hq).right

/-- An operation that aligns its operands is one over a single list of variables. -/
theorem of_aligned {f : Polynomial → Polynomial → Except Failure Polynomial} (hp : p.WellFormed)
    (hq : q.WellFormed) (aligned : f p q = f (align p q).1 (align p q).2)
    (keeps : ∀ {vars r s}, On vars r → On vars s → Answers (fun _ => True) (On vars) (f r s)) :
    Answers (fun _ => True) WellFormed (f p q) := by
  have a := align_on hp hq
  rw [aligned]
  exact (keeps a.left a.right).imp fun _ h => h.wellFormed a.nodup

theorem append (hp : p.WellFormed) (c : Coefficient) (exps : Exponents) :
    Answers (fun _ => True) WellFormed (p.append c exps) := by
  have desc : p.terms.Descending p.vars.length := hp.consistent
  unfold Polynomial.append
  split
  · exact hp
  rename_i some
  split
  · trivial
  · rename_i len
    exact ⟨desc.insert (t := ⟨c, exps⟩) (not_not.mp len) (Bool.not_eq_true _ ▸ some), hp.nodup⟩

theorem add (hp : p.WellFormed) (hq : q.WellFormed) : (p + q).WellFormed := by
  have a := align_on hp hq
  exact (a.left.with_terms (a.left.descending.add a.right.descending)).wellFormed a.nodup

theorem neg (hp : p.WellFormed) : (-p).WellFormed := hp.on.neg.wellFormed hp.nodup

theorem sub (hp : p.WellFormed) (hq : q.WellFormed) : (p - q).WellFormed := hp.add hq.neg

theorem mul (hp : p.WellFormed) (hq : q.WellFormed) :
    Answers (fun _ => True) WellFormed (p.mul q) := by
  refine hp.of_aligned hq ?_ On.mul
  unfold Polynomial.mul
  rw [hp.align_align hq]

theorem sPolynomial (hp : p.WellFormed) (hq : q.WellFormed) :
    Answers (fun _ => True) WellFormed (p.sPolynomial q) := by
  refine hp.of_aligned hq ?_ On.sPolynomial
  unfold Polynomial.sPolynomial
  rw [hp.align_align hq]

theorem lcm (settings : Settings) (hp : p.WellFormed) (hq : q.WellFormed) :
    Answers (fun _ => True) WellFormed (lcm settings p q) := by
  refine hp.of_aligned hq ?_ (On.lcm settings)
  unfold Polynomial.lcm
  rw [hp.align_align hq]

theorem gcd (settings : Settings) (hp : p.WellFormed) (hq : q.WellFormed) :
    Answers (fun _ => True) WellFormed (gcd settings p q) := by
  refine hp.of_aligned hq ?_ (On.gcd settings)
  unfold Polynomial.gcd
  rw [hp.align_align hq]

/-- The remainder of a division, and the quotients that the eliminations add up to. -/
theorem divide (hf : f.WellFormed) (hds : ∀ d ∈ ds, d.WellFormed) :
    Answers (fun _ => True)
      (fun out => out.2.WellFormed ∧ ∀ i, (quotient out.2.vars out.1 i).WellFormed) (f.divide ds) := by
  obtain ⟨nodup, all⟩ := alignAll_on (List.forall_mem_cons.mpr ⟨hf, hds⟩)
  obtain ⟨f', ds', aligned⟩ : ∃ f' ds', alignAll (f :: ds) = f' :: ds' := ⟨_, _, rfl⟩
  rw [aligned] at nodup all
  obtain ⟨hf', hds'⟩ := List.forall_mem_cons.mp all
  have same : f.divide ds = f'.divide ds' := by
    unfold Polynomial.divide
    rw [aligned, alignAll_of_vars_eq fun d hd => (all d hd).vars_eq]
  rw [same]
  refine (hf'.divide hds').imp fun out h => ⟨h.1.wellFormed nodup, fun i => ?_⟩
  rw [h.1.vars_eq]
  exact (h.2 i).wellFormed nodup

theorem quotients (hf : f.WellFormed) (hds : ∀ d ∈ ds, d.WellFormed) :
    Answers (fun _ => True) (fun out => ∀ q ∈ out.1, q.WellFormed) (f.quotients ds) := by
  unfold Polynomial.quotients
  exact (hf.divide hds).bind fun out h => List.forall_mem_map.mpr fun i _ => h.2 i

/-- Sums over the common list of a family of polynomials. -/
theorem of_sums {basis : List Terms} (h : ∀ p ∈ ps, p.WellFormed)
    (desc : ∀ ts ∈ basis, ts.Descending (sharedVars (alignAll ps)).length) :
    ∀ q ∈ basis.map (⟨sharedVars (alignAll ps), ·⟩ : Terms → Polynomial), q.WellFormed :=
  List.forall_mem_map.mpr fun ts hts => ⟨desc ts hts, (alignAll_on h).1⟩

theorem sums (h : ∀ p ∈ ps, p.WellFormed) :
    ∀ ts ∈ (alignAll ps).map (·.terms), ts.Descending (sharedVars (alignAll ps)).length :=
  List.forall_mem_map.mpr fun q hq => ((alignAll_on h).2 q hq).descending

theorem reduce (h : ∀ p ∈ ps, p.WellFormed) :
    Answers (fun _ => True) (fun qs => ∀ q ∈ qs, q.WellFormed) (reduce ps) := by
  unfold Polynomial.reduce
  exact Answers.bind (Reduction.ofSums_answers (sums h)).any fun basis out => of_sums h out.descending

theorem groebnerBasis (strategy : Strategy) (settings : Settings) (h : ∀ p ∈ ps, p.WellFormed) :
    Answers (fun _ => True) (fun out => ∀ q ∈ out.1, q.WellFormed)
      (groebnerBasis strategy settings ps) := by
  unfold Polynomial.groebnerBasis
  exact Answers.bind (Completion.ofSums_answers (sums h)).any fun basis out =>
    of_sums h out.descending

end WellFormed

end Polynomial

/-! ## 6. Nested polynomials -/

namespace Nested

mutual
theorem nodup_collect : ∀ (r : Nested) {met : List Variable}, met.Nodup → (collect met r).Nodup
  | constant _, _, h => by
    unfold collect
    exact h
  | level v terms, met, h => by
    unfold collect
    refine nodup_collectTerms terms ?_
    split
    · exact h
    · rename_i new
      exact List.nodup_append.mpr ⟨h, List.nodup_singleton v, fun u hu w hw same => new
        (List.mem_singleton.mp hw ▸ same ▸ hu)⟩

theorem nodup_collectTerms : ∀ (terms : List (Nat × Nested)) {met : List Variable}, met.Nodup →
    (collectTerms met terms).Nodup
  | [], _, h => by
    unfold collectTerms
    exact h
  | (_, c) :: rest, _, h => by
    unfold collectTerms
    exact nodup_collectTerms rest (nodup_collect c h)
end

mutual
/-- Adding the terms of a nested polynomial keeps a sum in order. -/
theorem addTo_descending (vars : List Variable) : ∀ (r : Nested) {exps : Exponents} {sum : Terms},
    exps.length = n → Descending n sum →
      Answers (fun _ => True) (Descending n) (addTo vars exps sum r)
  | constant c, exps, sum, len, h => by
    unfold addTo
    show Descending n (if c.isZero then sum else sum.insert ⟨c, exps⟩)
    split
    · exact h
    · rename_i hc
      exact h.insert len (Bool.not_eq_true _ ▸ hc)
  | level v terms, exps, sum, len, h => by
    unfold addTo
    exact addTermsTo_descending vars _ terms len h

theorem addTermsTo_descending (vars : List Variable) (i : Nat) : ∀ (terms : List (Nat × Nested))
    {exps : Exponents} {sum : Terms}, exps.length = n → Descending n sum →
      Answers (fun _ => True) (Descending n) (addTermsTo vars i exps sum terms)
  | [], exps, sum, len, h => by
    unfold addTermsTo
    exact h
  | (e, c) :: rest, exps, sum, len, h => by
    unfold addTermsTo
    dsimp only
    split
    · trivial
    · exact (addTo_descending vars c (by rwa [List.length_set]) h).bind fun _ h' =>
        addTermsTo_descending vars i rest len h'
end

/-- **Multiplying out** any nested polynomial. -/
theorem toPolynomial_wellFormed (r : Nested) :
    Answers (fun _ => True) Polynomial.WellFormed r.toPolynomial := by
  unfold toPolynomial
  refine (addTo_descending _ r Exponents.length_zeros .nil).bind fun ts h => ⟨h, ?_⟩
  exact (sortBy_perm _ _).nodup_iff.mpr (nodup_collect r List.nodup_nil)

end Nested

end Eliminant
