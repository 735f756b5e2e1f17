import Eliminant.Proofs.Polynomial.Arithmetic
import Eliminant.Proofs.Polynomial.Quotients
import Mathlib.Data.List.GetD

/-!
# Division of polynomials over any lists of variables

Before a polynomial is divided by others all of them are moved to one list of variables, so a division
over whatever lists is one of sums over the variables of the remainder. **`Polynomial.division_spec`**
says what it answers:

* `Polynomial.IsDivision`: the eliminations go down from the leading monomial of the dividend, each with
  the first divisor that can cancel its monomial, and no divisor can cancel anything in the remainder;
* `Polynomial.IsQuotients`: one quotient for each divisor;
* `Polynomial.Recombines`: multiplied and added up again, either gives the dividend. This is said of the
  polynomials in all variables, and of the products and sums that the library itself computes, which
  therefore fit.
-/

namespace Eliminant

open MonomialOrder (lex)

namespace Polynomial

variable {vars : List Variable} {f r p q d : Polynomial} {ds ds' : List Polynomial}
  {es : List Elimination} {e : Elimination}

/-! ## 1. Adding products up -/

/-- Adds the products of pairs of polynomials to `r`. -/
def recombine (r : Polynomial) : List (Polynomial × Polynomial) → Except Failure Polynomial
  | [] => .ok r
  | (q, d) :: pairs => do
    let product ← q.mul d
    recombine (r + product) pairs

/-- **`f` is `r` and the products of pairs**, as polynomials in all variables and as the library
    computes them. -/
structure Recombines (f r : Polynomial) (pairs : List (Polynomial × Polynomial)) : Prop where
  toMv_eq : f.toMv = r.toMv + (pairs.map fun x => x.1.toMv * x.2.toMv).sum
  answer : ∃ s, recombine r pairs = .ok s ∧ s.equal f = true

/-- Products that fit are added up. -/
theorem recombine_answers : ∀ {pairs : List (Polynomial × Polynomial)} {r : Polynomial}, r.Sound →
    (∀ x ∈ pairs, x.1.Sound ∧ x.2.Sound ∧ ¬ Overflows x.1 x.2) →
    ∃ s, recombine r pairs = .ok s ∧ s.Sound ∧
      s.toMv = r.toMv + (pairs.map fun x => x.1.toMv * x.2.toMv).sum
  | [], r, hr, _ => ⟨r, rfl, hr, by simp⟩
  | (q, d) :: pairs, r, hr, h => by
    obtain ⟨⟨hq, hd, fits⟩, rest⟩ := List.forall_mem_cons.mp h
    have one := mul_answers hq hd
    cases run : q.mul d with
    | error e => exact absurd (one.of_error run).2 fits
    | ok product =>
      obtain ⟨-, sound, value⟩ := one.of_ok run
      obtain ⟨s, answer, hs, sum⟩ := recombine_answers (hr.add sound) rest
      refine ⟨s, ?_, hs, ?_⟩
      · rw [recombine, run]
        exact answer
      · rw [sum, toMv_add hr sound, value, List.map_cons, List.sum_cons, add_assoc]

theorem recombines_of_toMv_eq {pairs : List (Polynomial × Polynomial)} (hf : f.Sound) (hr : r.Sound)
    (h : ∀ x ∈ pairs, x.1.Sound ∧ x.2.Sound ∧ ¬ Overflows x.1 x.2)
    (sum : f.toMv = r.toMv + (pairs.map fun x => x.1.toMv * x.2.toMv).sum) : Recombines f r pairs := by
  obtain ⟨s, answer, hs, value⟩ := recombine_answers hr h
  exact ⟨sum, s, answer, (equal_iff hs hf).mpr (value.trans sum.symm)⟩

/-! ## 2. What a division answers -/

/-- The divisor of an elimination. -/
def divisorOf (ds : List Polynomial) (e : Elimination) : Polynomial := ds.getD e.1 (zero [])

/-- The monomial that an elimination cancels: its term times the leading monomial of its divisor. -/
noncomputable def cancelled (vars : List Variable) (ds : List Polynomial) (e : Elimination) :
    Fin vars.length →₀ ℕ :=
  e.2.exps.toFinsupp vars.length + lex.degree ((divisorOf ds e).reading vars)

/-- **What dividing `f` by the polynomials `ds` answers**: eliminations, in the order in which they were
    made, and a remainder. Monomials are those in the variables of the remainder. -/
structure IsDivision (f : Polynomial) (ds : List Polynomial) (es : List Elimination) (r : Polynomial) :
    Prop where
  sound : r.Sound
  /-- the variables are those of the dividend, in their order, and those of the divisors -/
  sublist : f.vars.Sublist r.vars
  mem_vars : ∀ v, v ∈ r.vars ↔ v ∈ f.vars ∨ ∃ d ∈ ds, v ∈ d.vars
  /-- remainder and eliminations make up the dividend -/
  recombines : Recombines f r (es.map fun e => (⟨r.vars, [e.2]⟩, divisorOf ds e))
  /-- no leading monomial of a divisor divides a monomial of the remainder -/
  irreducible : ∀ m ∈ (r.reading r.vars).support, ∀ d ∈ ds, d.isZero = false →
    ¬ lex.degree (d.reading r.vars) ≤ m
  /-- no elimination is with a zero divisor -/
  used : ∀ e ∈ es, ∃ d, ds[e.1]? = some d ∧ d.isZero = false
  /-- every elimination is with the first divisor that can cancel its monomial -/
  first : ∀ e ∈ es, ∀ j < e.1, ∀ d, ds[j]? = some d → d.isZero = false →
    ¬ lex.degree (d.reading r.vars) ≤ cancelled r.vars ds e
  /-- the monomials that are cancelled go down, -/
  descending : es.Pairwise fun e e' =>
    lex.toSyn (cancelled r.vars ds e') < lex.toSyn (cancelled r.vars ds e)
  /-- from the leading monomial of the dividend -/
  cancelled_le : ∀ e ∈ es,
    lex.toSyn (cancelled r.vars ds e) ≤ lex.toSyn (lex.degree (f.reading r.vars))

/-- **What the quotients of `f` by the polynomials `ds` are**: one for each of them. -/
structure IsQuotients (f : Polynomial) (ds qs : List Polynomial) (r : Polynomial) : Prop where
  length_eq : qs.length = ds.length
  sound : ∀ q ∈ qs, q.Sound ∧ q.vars = r.vars
  recombines : Recombines f r (qs.zip ds)

/-! ## 3. Aligned divisors -/

theorem Over.isZero_eq (hp : p.Sound) (h : Over vars p q) : q.isZero = p.isZero := by
  rw [Bool.eq_iff_iff, ← hp.toMv_eq_zero_iff, ← h.sound.toMv_eq_zero_iff, h.toMv_eq]

theorem Over.terms_ne_nil_iff (hp : p.Sound) (h : Over vars p q) :
    q.terms ≠ [] ↔ p.isZero = false := by
  rw [← h.isZero_eq hp, isZero, List.isEmpty_eq_false_iff]

/-- The leading monomial of an aligned polynomial is that of its terms. -/
theorem Over.degree_reading (h : Over vars p q) :
    lex.degree (p.reading vars) = Exponents.toFinsupp vars.length q.terms.leadRow := by
  rw [h.reading_eq, h.descending.degree_toMv]

/-- Whether products with an aligned polynomial fit can be seen from its terms. -/
theorem Over.overflows_iff (hp : p.Sound) (same : p.vars = vars) (hd : d.Sound) (h : Over vars d q) :
    Overflows p d ↔ ∃ t ∈ p.terms, ∃ u ∈ q.terms, Exponents.Exceed vars.length t.exps u.exps := by
  rw [Polynomial.overflows_iff hp hd, ← h.toMv_eq, ← Polynomial.overflows_iff hp h.sound]
  simp only [Overflows, same, h.vars_eq, exceed_iff (same ▸ hp.nodup)]

theorem Over.zero (h : Over vars p q) : Over vars (zero []) (zero vars) := by
  obtain ⟨sound, rfl, -⟩ := h
  refine ⟨sound.with_terms rfl .nil, rfl, ?_⟩
  rw [toMv, toMv, Polynomial.zero, Terms.toMv_nil, map_zero, Polynomial.zero, Terms.toMv_nil, map_zero]

/-- The terms of a number stand for the divisor of that number; beyond the list both are `0`. -/
theorem exists_aligned (none : Over vars (zero []) (zero vars))
    (h : List.Forall₂ (Over vars) ds ds') (k : Nat) :
    ∃ d', Over vars (ds.getD k (zero [])) d' ∧ (ds'.map (·.terms)).getD k [] = d'.terms := by
  induction h generalizing k with
  | nil => exact ⟨_, none, rfl⟩
  | @cons d d' _ _ here _ ih =>
    cases k with
    | zero => exact ⟨d', here, rfl⟩
    | succ k => exact ih k

/-! ## 4. The answer of a division -/

/-- The dividend `f` and the divisors `ds`, aligned to `vars`, are divided with the eliminations `es`, and
    `rs` is left. -/
structure Divides (vars : List Variable) (f : Polynomial) (ds : List Polynomial)
    (es : List Elimination) (f' : Polynomial) (ds' : List Polynomial) (rs : Terms) : Prop where
  sound : f.Sound ∧ ∀ d ∈ ds, d.Sound
  dividend : Over vars f f'
  divisors : List.Forall₂ (Over vars) ds ds'
  sublist : f.vars.Sublist vars
  mem_vars : ∀ v, v ∈ vars ↔ v ∈ f.vars ∨ ∃ d ∈ ds, v ∈ d.vars
  invariant : Division.Invariant vars.length (ds'.map (·.terms)) f'.terms ⟨es.reverse, rs.reverse, []⟩

namespace Divides

variable {f' : Polynomial} {rs : Terms} (h : Divides vars f ds es f' ds' rs)
include h

theorem aligned (k : Nat) :
    ∃ d', Over vars (ds.getD k (zero [])) d' ∧ (ds'.map (·.terms)).getD k [] = d'.terms :=
  exists_aligned h.dividend.zero h.divisors k

theorem proper (he : e ∈ es) : Division.Proper vars.length (ds'.map (·.terms)) e :=
  h.invariant.proper e (List.mem_reverse.mpr he)

/-- Sums over the common variables are sound polynomials. -/
theorem sound_mk {ts : Terms} (hts : ts.Descending vars.length) : Sound ⟨vars, ts⟩ := by
  obtain ⟨sound, rfl, -⟩ := h.dividend
  exact sound.with_terms rfl hts

theorem descending_remainder : rs.Descending vars.length := by simpa using h.invariant.remainder

theorem reading_remainder : reading vars ⟨vars, rs⟩ = Terms.toMv vars.length rs :=
  reading_vars (p := ⟨vars, rs⟩) (h.sound_mk h.descending_remainder).nodup

theorem toMv_getD (k : Nat) : (ds.getD k (zero [])).toMv =
    MvPolynomial.rename vars.get (Terms.toMv vars.length ((ds'.map (·.terms)).getD k [])) := by
  obtain ⟨d', moved, terms⟩ := h.aligned k
  rw [← moved.toMv_eq, terms, toMv_of_vars_eq moved.vars_eq]

theorem cancelled_eq (e : Elimination) :
    cancelled vars ds e = Division.target vars.length (ds'.map (·.terms)) e := by
  obtain ⟨d', moved, terms⟩ := h.aligned e.1
  rw [cancelled, divisorOf, moved.degree_reading, Division.target, Division.divisorOf, terms]

/-- The divisor of an elimination is one of the list, and not zero. -/
theorem divisorOf_spec (he : e ∈ es) :
    ds[e.1]? = some (divisorOf ds e) ∧ (divisorOf ds e).Sound ∧ (divisorOf ds e).isZero = false := by
  have lt : e.1 < ds.length := by
    have := (h.proper he).lt
    rwa [List.length_map, ← h.divisors.length_eq] at this
  have get : divisorOf ds e = ds[e.1] := List.getD_eq_getElem _ _ lt
  have sound : (divisorOf ds e).Sound := get ▸ h.sound.2 _ (List.getElem_mem lt)
  obtain ⟨d', moved, terms⟩ := h.aligned e.1
  refine ⟨get ▸ List.getElem?_eq_getElem lt, sound, (moved.terms_ne_nil_iff sound).mp ?_⟩
  rw [← terms]
  exact (h.proper he).divisor

/-- **The dividend is the remainder and what was eliminated.** -/
theorem toMv_eq : f.toMv = toMv ⟨vars, rs⟩ + MvPolynomial.rename vars.get
    (es.map (Division.product vars.length (ds'.map (·.terms)))).sum := by
  rw [← h.dividend.toMv_eq, toMv_of_vars_eq h.dividend.vars_eq, h.invariant.dividend_eq, map_add,
    add_comm]
  rfl

theorem recombines :
    Recombines f ⟨vars, rs⟩ (es.map fun e => (⟨vars, [e.2]⟩, divisorOf ds e)) := by
  have single {e : Elimination} (he : e ∈ es) : Sound ⟨vars, [e.2]⟩ :=
    h.sound_mk (Terms.Descending.cons_iff.mpr
      ⟨(h.proper he).length, (h.proper he).coeff, by simp, .nil⟩)
  refine recombines_of_toMv_eq h.sound.1 (h.sound_mk h.descending_remainder)
    (List.forall_mem_map.mpr fun e he => ⟨single he, (h.divisorOf_spec he).2.1, ?_⟩) ?_
  · obtain ⟨d', moved, terms⟩ := h.aligned e.1
    rw [moved.overflows_iff (single he) rfl (h.divisorOf_spec he).2.1, ← terms]
    rintro ⟨t, ht, u, hu, exceed⟩
    rw [List.mem_singleton.mp ht] at exceed
    exact (h.proper he).fits u hu exceed
  · have product (e : Elimination) : MvPolynomial.rename vars.get
        (Division.product vars.length (ds'.map (·.terms)) e) =
          toMv ⟨vars, [e.2]⟩ * (divisorOf ds e).toMv := by
      rw [Division.product, map_mul, divisorOf, h.toMv_getD, toMv, Terms.toMv_singleton]
      rfl
    rw [h.toMv_eq, map_list_sum, List.map_map, List.map_map]
    simp only [Function.comp_def, product]

/-- **What a division answers.** -/
theorem isDivision : IsDivision f ds es ⟨vars, rs⟩ where
  sound := h.sound_mk h.descending_remainder
  sublist := h.sublist
  mem_vars := h.mem_vars
  recombines := h.recombines
  irreducible m hm d hd some := by
    obtain ⟨k, lt, rfl⟩ := List.getElem_of_mem hd
    obtain ⟨d', moved, terms⟩ := h.aligned k
    rw [List.getD_eq_getElem _ _ lt] at moved
    rw [h.reading_remainder, h.descending_remainder.mem_support_iff] at hm
    obtain ⟨t, ht, rfl⟩ := hm
    have ne := (moved.terms_ne_nil_iff (h.sound.2 _ hd)).mpr some
    rw [moved.degree_reading, ← terms]
    rw [← terms] at ne
    exact h.invariant.irreducible t (List.mem_reverse.mpr ht) _ (Division.getD_mem ne) ne
  used e he := ⟨_, (h.divisorOf_spec he).1, (h.divisorOf_spec he).2.2⟩
  first e he j lt d hd some := by
    obtain ⟨d', moved, terms⟩ := h.aligned j
    rw [List.getD_eq_getElem?_getD, hd, Option.getD_some] at moved
    have ne := (moved.terms_ne_nil_iff (h.sound.2 d (List.mem_of_getElem? hd))).mpr some
    rw [moved.degree_reading, h.cancelled_eq, ← terms]
    rw [← terms] at ne
    exact (h.proper he).first j lt ne
  descending := by
    simp only [h.cancelled_eq]
    exact List.pairwise_reverse.mp h.invariant.targets
  cancelled_le e he := by
    rw [h.cancelled_eq, h.dividend.reading_eq]
    exact h.invariant.target_le e (List.mem_reverse.mpr he)

/-! ## 5. The quotients -/

theorem sound_quotient (i : Nat) : (quotient vars es i).Sound := by
  have descending : (quotient vars es i).terms.Descending vars.length :=
    descending_quotient i fun _ he => ⟨(h.proper he).length, (h.proper he).coeff⟩
  exact h.sound_mk descending

omit h in
/-- The rows of a quotient are those of the eliminations with its divisor. -/
theorem exists_of_mem_quotient {i : Nat} {t : Term} : ∀ {es : List Elimination},
    t ∈ (quotient vars es i).terms → ∃ e ∈ es, e.1 = i ∧ t.exps = e.2.exps
  | [], ht => nomatch ht
  | e :: es, ht => by
    have later (ht : t ∈ (quotient vars es i).terms) :
        ∃ e' ∈ e :: es, e'.1 = i ∧ t.exps = e'.2.exps := by
      obtain ⟨e', he', rest⟩ := exists_of_mem_quotient ht
      exact ⟨e', List.mem_cons_of_mem e he', rest⟩
    have ht : t ∈ if e.1 = i then Terms.insert e.2 (quotient vars es i).terms
      else (quotient vars es i).terms := ht
    split at ht
    · rename_i here
      rcases Terms.mem_insert ht with same | ⟨u, hu, same⟩
      · exact ⟨e, List.mem_cons_self, here, same⟩
      · obtain ⟨e', he', number, row⟩ := exists_of_mem_quotient hu
        exact ⟨e', List.mem_cons_of_mem e he', number, same.trans row⟩
    · exact later ht

theorem fits_quotient {i : Nat} (lt : i < ds.length) :
    ¬ Overflows (quotient vars es i) (ds.getD i (zero [])) := by
  obtain ⟨d', moved, terms⟩ := h.aligned i
  have sound : (ds.getD i (zero [])).Sound := by
    rw [List.getD_eq_getElem _ _ lt]
    exact h.sound.2 _ (List.getElem_mem lt)
  rw [moved.overflows_iff (h.sound_quotient i) rfl sound, ← terms]
  rintro ⟨t, ht, u, hu, exceed⟩
  obtain ⟨e, he, rfl, row⟩ := exists_of_mem_quotient ht
  rw [row] at exceed
  exact (h.proper he).fits u hu exceed

omit h in
theorem zip_quotients (vars : List Variable) (es : List Elimination) (ds : List Polynomial) :
    ((List.range ds.length).map (quotient vars es)).zip ds =
      (List.range ds.length).map fun i => (quotient vars es i, ds.getD i (zero [])) := by
  refine List.ext_getElem (by simp) fun i _ hi => ?_
  have lt : i < ds.length := by simpa using hi
  simp [List.getElem?_eq_getElem lt]

/-- **What the quotients are.** -/
theorem isQuotients :
    IsQuotients f ds ((List.range ds.length).map (quotient vars es)) ⟨vars, rs⟩ where
  length_eq := by simp
  sound := List.forall_mem_map.mpr fun i _ => ⟨h.sound_quotient i, rfl⟩
  recombines := by
    rw [zip_quotients]
    refine recombines_of_toMv_eq h.sound.1 (h.sound_mk h.descending_remainder)
      (List.forall_mem_map.mpr fun i hi => ?_) ?_
    · have lt : i < ds.length := List.mem_range.mp hi
      refine ⟨h.sound_quotient i, ?_, h.fits_quotient lt⟩
      rw [List.getD_eq_getElem _ _ lt]
      exact h.sound.2 _ (List.getElem_mem lt)
    · have length : (ds'.map (·.terms)).length = ds.length := by
        rw [List.length_map, h.divisors.length_eq]
      rw [h.toMv_eq, ← sum_quotient_mul vars fun e he => (h.proper he).lt, length, map_sum,
        List.map_map]
      refine congrArg (_ + ·) (congrArg List.sum (List.map_congr_left fun i _ => ?_))
      show MvPolynomial.rename vars.get _ = (quotient vars es i).toMv * (ds.getD i (zero [])).toMv
      rw [map_mul, h.toMv_getD]
      rfl

end Divides

/-! ## 6. The division theorem -/

/-- Alignment and division give a division of aligned polynomials. -/
theorem divide_answers (hf : f.Sound) (hds : ∀ d ∈ ds, d.Sound) :
    Answers Failure.IsOverflow
      (fun out => ∃ f' ds', Divides out.2.vars f ds out.1 f' ds' out.2.terms) (f.divide ds) := by
  obtain ⟨all, mem⟩ := alignAll_spec (List.forall_mem_cons.mpr ⟨hf, hds⟩)
  have sublist := sublist_sharedVars (List.forall_mem_cons.mpr ⟨hf, hds⟩)
  obtain ⟨f', ds', aligned⟩ : ∃ f' ds', alignAll (f :: ds) = f' :: ds' := ⟨_, _, rfl⟩
  rw [aligned] at all mem sublist
  obtain ⟨hf', hds'⟩ := List.forall₂_cons.mp all
  have divisors := descending_of_forall₂ hds'
  unfold divide
  rw [aligned]
  refine (Terms.divide_answers divisors hf'.descending).bind fun out inv => ?_
  refine ⟨f', ds', ⟨hf, hds⟩, hf', hds', sublist, fun v => (mem v).trans ?_, inv⟩
  rw [List.exists_mem_cons_iff]

/-- **The division theorem**: a division fails only where an exponent does not fit. Otherwise it ends; its
    remainder, and its eliminations or its quotients, make up the dividend; no divisor can cancel
    anything in the remainder; and every elimination is with the first divisor that can cancel its
    monomial, from the leading monomial of the dividend down. -/
theorem division_spec (hf : f.Sound) (hds : ∀ d ∈ ds, d.Sound) :
    Answers Failure.IsOverflow (fun out => IsDivision f ds out.1 out.2) (f.divide ds) ∧
      Answers Failure.IsOverflow
        (fun out => IsQuotients f ds out.1 out.2 ∧ ∃ es, f.divide ds = .ok (es, out.2))
        (f.quotients ds) := by
  refine ⟨(divide_answers hf hds).imp fun out divides => ?_, ?_⟩
  · obtain ⟨f', ds', divides⟩ := divides
    exact divides.isDivision
  · refine (divide_answers hf hds).with_run.bind fun out divides => ?_
    obtain ⟨run, f', ds', divides⟩ := divides
    exact ⟨divides.isQuotients, out.1, run⟩

/-- `x ^ 2 * y + x * y ^ 2 + y ^ 2` is divided by `0`, by `y * x - 1`, whose variables are listed in the
    other order, and by `y ^ 2 - 1`. -/
theorem division_spec_at :
    let x := Variable.symbol "x"
    let y := Variable.symbol "y"
    let z := Variable.symbol "z"
    let f : Polynomial := ⟨[x, y], [⟨.one, [2, 1]⟩, ⟨.one, [1, 2]⟩, ⟨.one, [0, 2]⟩]⟩
    let ds : List Polynomial := [⟨[z], []⟩, ⟨[y, x], [⟨.one, [1, 1]⟩, ⟨-.one, [0, 0]⟩]⟩,
      ⟨[y], [⟨.one, [2]⟩, ⟨-.one, [0]⟩]⟩]
    let es : List Elimination :=
      [(1, ⟨.one, [1, 0, 0]⟩), (1, ⟨.one, [0, 1, 0]⟩), (2, ⟨.one, [0, 0, 0]⟩)]
    let qs : List Polynomial := [⟨[x, y, z], []⟩,
      ⟨[x, y, z], [⟨.one, [1, 0, 0]⟩, ⟨.one, [0, 1, 0]⟩]⟩, ⟨[x, y, z], [⟨.one, [0, 0, 0]⟩]⟩]
    let r : Polynomial :=
      ⟨[x, y, z], [⟨.one, [1, 0, 0]⟩, ⟨.one, [0, 1, 0]⟩, ⟨.one, [0, 0, 0]⟩]⟩
    f.Sound ∧ (∀ d ∈ ds, d.Sound) ∧ f.divide ds = .ok (es, r) ∧ IsDivision f ds es r ∧
      f.quotients ds = .ok (qs, r) ∧ IsQuotients f ds qs r := by
  intro x y z f ds es qs r
  have hf : f.Sound := by decide
  have hds : ∀ d ∈ ds, d.Sound := by decide
  have run : f.divide ds = .ok (es, r) := by cbv
  have quotients : f.quotients ds = .ok (qs, r) := by cbv
  obtain ⟨division, added⟩ := division_spec hf hds
  exact ⟨hf, hds, run, division.of_ok run, quotients, (added.of_ok quotients).1⟩

end Polynomial

end Eliminant
