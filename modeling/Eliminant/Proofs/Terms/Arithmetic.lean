import Eliminant.Proofs.Folds
import Eliminant.Proofs.Terms.Basic
import Mathlib.Tactic.LinearCombination

/-!
# The arithmetic of sums is that of polynomials

Each operation on sums of terms has two facts: what it does to the polynomial that is read from the
sum, and that it keeps descending sums descending.

* `toMv_insert`, `toMv_add`, `toMv_neg`, `toMv_sub`, `toMv_scale` hold of any lists;
* `mulTerm_answers` says so of multiplying by a term, which fails only where an exponent does not fit, and
  `mulTerm_fits` says that it fails wherever one does not;
* `toMv_monic`: a sum and its monic multiple differ by a unit.
-/

namespace Eliminant

open MvPolynomial
open MonomialOrder (lex)

namespace Terms

variable {n : Nat} {t u : Term} {ts us vs : Terms}

/-! ## 1. Sums -/

theorem toMv_insert (t : Term) : ∀ ts : Terms, toMv n (insert t ts) = toMv n [t] + toMv n ts
  | [] => (add_zero _).symm
  | u :: us => by
    unfold insert
    split
    · rw [toMv_cons, toMv_singleton]
    · rename_i h
      have rows := Exponents.eq_of_compare_eq h
      have sum : toMv n [t] + toMv n (u :: us) =
          monomial (u.exps.toFinsupp n) (u.coeff + t.coeff).toRat + toMv n us := by
        rw [toMv_singleton, toMv_cons, rows, Coefficient.toRat_add, map_add]
        ring
      dsimp only
      split
      · rename_i hz
        rw [sum, (Coefficient.isZero_iff_toRat _).mp hz, map_zero, zero_add]
      · rw [sum, toMv_cons]
    · rw [toMv_cons, toMv_insert t us, toMv_cons u]
      ring

/-- **Merging adds.** -/
theorem toMv_add (ts us : Terms) : toMv n (add ts us) = toMv n ts + toMv n us := by
  fun_induction add ts us with
  | case1 us => rw [toMv_nil, zero_add]
  | case2 ts => rw [toMv_nil, add_zero]
  | case3 t ts u us _ ih =>
    rw [toMv_cons, ih, toMv_cons t ts]
    ring
  | case4 t ts u us _ ih =>
    rw [toMv_cons, ih, toMv_cons u us]
    ring
  | case5 t ts u us h c hz ih =>
    have zero : t.coeff.toRat + u.coeff.toRat = 0 := by
      rw [← Coefficient.toRat_add]
      exact (Coefficient.isZero_iff_toRat _).mp hz
    have cancel : monomial (t.exps.toFinsupp n) t.coeff.toRat +
        monomial (u.exps.toFinsupp n) u.coeff.toRat = (0 : MvPolynomial (Fin n) ℚ) := by
      rw [Exponents.eq_of_compare_eq h, ← map_add, zero, map_zero]
    rw [ih, toMv_cons t ts, toMv_cons u us]
    linear_combination -cancel
  | case6 t ts u us h c _ ih =>
    rw [toMv_cons, ih, toMv_cons t ts, toMv_cons u us]
    show monomial (t.exps.toFinsupp n) (t.coeff + u.coeff).toRat + _ = _
    rw [← Exponents.eq_of_compare_eq h, Coefficient.toRat_add, map_add]
    ring

@[simp] theorem toMv_neg (ts : Terms) : toMv n (neg ts) = -toMv n ts := by
  induction ts with
  | nil => exact neg_zero.symm
  | cons t ts ih =>
    show toMv n (⟨-t.coeff, t.exps⟩ :: neg ts) = _
    rw [toMv_cons, toMv_cons, ih, Coefficient.toRat_neg, map_neg]
    ring

theorem toMv_sub (ts us : Terms) : toMv n (sub ts us) = toMv n ts - toMv n us := by
  unfold sub
  rw [toMv_add, toMv_neg, sub_eq_add_neg]

theorem toMv_map_mul (c : Coefficient) (ts : Terms) :
    toMv n (ts.map fun t => ⟨t.coeff * c, t.exps⟩) = C c.toRat * toMv n ts := by
  induction ts with
  | nil => exact (mul_zero _).symm
  | cons t ts ih =>
    rw [List.map_cons, toMv_cons, ih, toMv_cons, mul_add, C_mul_monomial, Coefficient.toRat_mul,
      mul_comm c.toRat]

theorem toMv_scale (c : Coefficient) (ts : Terms) :
    toMv n (scale c ts) = C c.toRat * toMv n ts := by
  unfold scale
  split
  · rename_i h
    rw [(Coefficient.isZero_iff_toRat c).mp h, C_0, zero_mul, toMv_nil]
  · exact toMv_map_mul c ts

/-! ## 2. Sums stay descending -/

/-- A row of a sum with one more term is that term's or one of the sum's. -/
theorem mem_insert : ∀ {us : Terms}, t ∈ insert u us → t.exps = u.exps ∨ ∃ v ∈ us, t.exps = v.exps
  | [], h => Or.inl (congrArg _ (List.mem_singleton.mp h))
  | v :: us, h => by
    unfold insert at h
    split at h
    · rcases List.mem_cons.mp h with rfl | h
      · exact Or.inl rfl
      · exact Or.inr ⟨t, h, rfl⟩
    · dsimp only at h
      split at h
      · exact Or.inr ⟨t, List.mem_cons_of_mem _ h, rfl⟩
      · rcases List.mem_cons.mp h with rfl | h
        · exact Or.inr ⟨v, List.mem_cons_self, rfl⟩
        · exact Or.inr ⟨t, List.mem_cons_of_mem _ h, rfl⟩
    · rcases List.mem_cons.mp h with rfl | h
      · exact Or.inr ⟨t, List.mem_cons_self, rfl⟩
      · rcases mem_insert h with h | ⟨w, hw, e⟩
        · exact Or.inl h
        · exact Or.inr ⟨w, List.mem_cons_of_mem _ hw, e⟩

/-- A row of a sum is a row of one of its parts. -/
theorem mem_add {ts us : Terms} (h : t ∈ add ts us) :
    (∃ v ∈ ts, t.exps = v.exps) ∨ ∃ v ∈ us, t.exps = v.exps := by
  fun_induction add ts us with
  | case1 us => exact Or.inr ⟨t, h, rfl⟩
  | case2 ts => exact Or.inl ⟨t, h, rfl⟩
  | case3 s ts u us _ ih =>
    rcases List.mem_cons.mp h with rfl | h
    · exact Or.inl ⟨t, List.mem_cons_self, rfl⟩
    · rcases ih h with ⟨v, hv, e⟩ | right
      · exact Or.inl ⟨v, List.mem_cons_of_mem _ hv, e⟩
      · exact Or.inr right
  | case4 s ts u us _ ih =>
    rcases List.mem_cons.mp h with rfl | h
    · exact Or.inr ⟨t, List.mem_cons_self, rfl⟩
    · rcases ih h with left | ⟨v, hv, e⟩
      · exact Or.inl left
      · exact Or.inr ⟨v, List.mem_cons_of_mem _ hv, e⟩
  | case5 s ts u us _ _ _ ih =>
    rcases ih h with ⟨v, hv, e⟩ | ⟨v, hv, e⟩
    · exact Or.inl ⟨v, List.mem_cons_of_mem _ hv, e⟩
    · exact Or.inr ⟨v, List.mem_cons_of_mem _ hv, e⟩
  | case6 s ts u us _ _ _ ih =>
    rcases List.mem_cons.mp h with rfl | h
    · exact Or.inl ⟨s, List.mem_cons_self, rfl⟩
    · rcases ih h with ⟨v, hv, e⟩ | ⟨v, hv, e⟩
      · exact Or.inl ⟨v, List.mem_cons_of_mem _ hv, e⟩
      · exact Or.inr ⟨v, List.mem_cons_of_mem _ hv, e⟩

namespace Descending

theorem insert (hl : t.exps.length = n) (hz : t.coeff.isZero = false) :
    ∀ {us : Terms}, Descending n us → Descending n (insert t us)
  | [], _ => cons_iff.mpr ⟨hl, hz, by simp, nil⟩
  | u :: us, h => by
    obtain ⟨lu, zu, below, hus⟩ := cons_iff.mp h
    unfold Terms.insert
    split
    · rename_i gt
      have lt := Exponents.compare_gt_iff.mp gt
      refine cons_iff.mpr ⟨hl, hz, fun v hv => ?_, h⟩
      rcases List.mem_cons.mp hv with rfl | hv
      · exact lt
      · exact Exponents.compare_trans (hus.length hv) lu hl (below v hv) lt
    · dsimp only
      split
      · exact hus
      · exact cons_iff.mpr ⟨lu, Bool.not_eq_true _ ▸ ‹_›, below, hus⟩
    · rename_i lt
      refine cons_iff.mpr ⟨lu, zu, fun v hv => ?_, insert hl hz hus⟩
      rcases mem_insert hv with e | ⟨w, hw, e⟩
      · exact e ▸ lt
      · exact e ▸ below w hw

theorem add {ts us : Terms} (ht : Descending n ts) (hu : Descending n us) :
    Descending n (add ts us) := by
  fun_induction Terms.add ts us with
  | case1 us => exact hu
  | case2 ts => exact ht
  | case3 t ts u us gt ih =>
    have lt := Exponents.compare_gt_iff.mp gt
    obtain ⟨lt₁, zt, belowt, hts⟩ := cons_iff.mp ht
    refine cons_iff.mpr ⟨lt₁, zt, fun v hv => ?_, ih hts hu⟩
    rcases mem_add hv with ⟨w, hw, e⟩ | ⟨w, hw, e⟩
    · exact e ▸ belowt w hw
    · rw [e]
      rcases List.mem_cons.mp hw with rfl | hw'
      · exact lt
      · exact Exponents.compare_trans (hu.length hw) (hu.length List.mem_cons_self) lt₁
          (hu.below hw') lt
  | case4 t ts u us lt ih =>
    obtain ⟨lu, zu, belowu, hus⟩ := cons_iff.mp hu
    refine cons_iff.mpr ⟨lu, zu, fun v hv => ?_, ih ht hus⟩
    rcases mem_add hv with ⟨w, hw, e⟩ | ⟨w, hw, e⟩
    · rw [e]
      rcases List.mem_cons.mp hw with rfl | hw'
      · exact lt
      · exact Exponents.compare_trans (ht.length hw) (ht.length List.mem_cons_self) lu
          (ht.below hw') lt
    · exact e ▸ belowu w hw
  | case5 t ts u us _ _ _ ih => exact ih ht.tail hu.tail
  | case6 t ts u us eq c hz ih =>
    obtain ⟨lt₁, -, belowt, hts⟩ := cons_iff.mp ht
    obtain ⟨-, -, belowu, hus⟩ := cons_iff.mp hu
    rw [← Exponents.eq_of_compare_eq eq] at belowu
    refine cons_iff.mpr ⟨lt₁, by simpa using hz, fun v hv => ?_, ih hts hus⟩
    rcases mem_add hv with ⟨w, hw, e⟩ | ⟨w, hw, e⟩
    · exact e ▸ belowt w hw
    · exact e ▸ belowu w hw

/-- Changing the coefficients, none of them to `0`, keeps a sum descending. -/
theorem map_coeff {f : Coefficient → Coefficient} (hf : ∀ c, c.isZero = false → (f c).isZero = false)
    (h : Descending n ts) : Descending n (ts.map fun t => ⟨f t.coeff, t.exps⟩) := by
  obtain ⟨len, zero, pairs⟩ := h
  refine ⟨?_, ?_, ?_⟩
  · simpa using len
  · simpa using fun t ht => hf _ (zero t ht)
  · exact List.pairwise_map.mpr pairs

theorem neg (h : Descending n ts) : Descending n (neg ts) :=
  h.map_coeff fun c hc => by
    rw [Coefficient.isZero_eq_false_iff] at hc ⊢
    rwa [Coefficient.toRat_neg, neg_ne_zero]

theorem sub (ht : Descending n ts) (hu : Descending n us) : Descending n (sub ts us) := ht.add hu.neg

theorem scale (c : Coefficient) (h : Descending n ts) : Descending n (scale c ts) := by
  unfold Terms.scale
  split
  · exact nil
  · rename_i hc
    refine h.map_coeff (f := (· * c)) fun d hd => ?_
    rw [Bool.not_eq_true] at hc
    rw [Coefficient.isZero_eq_false_iff] at hc hd ⊢
    rw [Coefficient.toRat_mul]
    exact mul_ne_zero hd hc

end Descending

/-! ## 3. Multiplying by a term -/

/-- `u` is `t` times the monomial `e`. -/
def Shifted (e : Fin n →₀ ℕ) (t u : Term) : Prop :=
  u.coeff = t.coeff ∧ u.exps.length = n ∧ u.exps.toFinsupp n = t.exps.toFinsupp n + e

theorem shift_shifted {exps : Exponents} (he : exps.length = n) :
    ∀ {ts : Terms}, (∀ t ∈ ts, t.exps.length = n) →
      Answers Failure.IsOverflow (fun us => List.Forall₂ (Shifted (exps.toFinsupp n)) ts us)
        (shift exps ts)
  | [], _ => List.Forall₂.nil
  | t :: ts, h => by
    refine (Exponents.add?_answers (h t List.mem_cons_self) he).bind fun e sum => ?_
    refine (shift_shifted he fun u hu => h u (List.mem_cons_of_mem t hu)).bind fun us hus => ?_
    exact List.Forall₂.cons ⟨rfl, sum.1, sum.2⟩ hus

theorem toMv_of_shifted {e : Fin n →₀ ℕ} (h : List.Forall₂ (Shifted e) ts us) :
    toMv n us = monomial e 1 * toMv n ts := by
  induction h with
  | nil => exact (mul_zero _).symm
  | cons hd _ ih =>
    obtain ⟨coeff, -, rows⟩ := hd
    rw [toMv_cons, toMv_cons, ih, coeff, rows, mul_add, monomial_mul, one_mul, add_comm e]

theorem Descending.of_shifted {e : Fin n →₀ ℕ} (hs : List.Forall₂ (Shifted e) ts us)
    (h : Descending n ts) : Descending n us := by
  induction hs with
  | nil => exact nil
  | @cons t u ts us hd tl ih =>
    obtain ⟨lt, zt, below, hts⟩ := cons_iff.mp h
    obtain ⟨coeff, len, rows⟩ := hd
    refine cons_iff.mpr ⟨len, coeff ▸ zt, fun w hw => ?_, ih hts⟩
    obtain ⟨v, hv, -, lenw, roww⟩ := exists_of_mem_forall₂ tl hw
    have lt' := (Exponents.compare_lt_iff_lex (hts.length hv) lt).mp (below v hv)
    rw [Exponents.compare_lt_iff_lex lenw len, roww, rows, map_add, map_add]
    exact add_lt_add_left lt' _

/-- **Multiplying by a term fails only where an exponent does not fit.** -/
theorem mulTerm_answers (ht : t.exps.length = n) (h : Descending n us) :
    Answers Failure.IsOverflow (fun vs => Descending n vs ∧
      toMv n vs = monomial (t.exps.toFinsupp n) t.coeff.toRat * toMv n us) (mulTerm t us) := by
  refine (shift_shifted ht (h.scale t.coeff).1).imp fun vs hvs => ⟨.of_shifted hvs (h.scale _), ?_⟩
  rw [toMv_of_shifted hvs, toMv_scale, ← mul_assoc, mul_comm (monomial _ _), C_mul_monomial, mul_one]

theorem shift_fits {exps : Exponents} (he : exps.length = n) :
    ∀ {ts : Terms}, (∀ t ∈ ts, t.exps.length = n) →
      Answers (fun _ => ∃ t ∈ ts, Exponents.Exceed n t.exps exps)
        (fun _ => ∀ t ∈ ts, ¬ Exponents.Exceed n t.exps exps) (shift exps ts)
  | [], _ => by
    intro t ht
    cases ht
  | t :: ts, h => by
    obtain ⟨ht, hts⟩ := List.forall_mem_cons.mp h
    simp only [List.exists_mem_cons_iff, List.forall_mem_cons]
    refine ((Exponents.add?_fits ht he).mono (fun _ => Or.inl) fun _ => id).bind fun _ first => ?_
    refine ((shift_fits he hts).mono (fun _ => Or.inr) fun _ => id).bind fun _ rest => ?_
    exact ⟨first, rest⟩

/-- **Multiplying by a term fails wherever an exponent does not fit.** -/
theorem mulTerm_fits (ht : t.exps.length = n) (hc : t.coeff.isZero = false) (h : Descending n us) :
    Answers (fun _ => ∃ u ∈ us, Exponents.Exceed n t.exps u.exps)
      (fun _ => ∀ u ∈ us, ¬ Exponents.Exceed n t.exps u.exps) (mulTerm t us) := by
  have rows : scale t.coeff us = us.map fun u => ⟨u.coeff * t.coeff, u.exps⟩ :=
    if_neg (Bool.eq_false_iff.mp hc)
  have := shift_fits ht (h.scale t.coeff).1
  rw [rows] at this
  simp only [List.mem_map, exists_exists_and_eq_and, forall_exists_index, and_imp,
    forall_apply_eq_imp_iff₂, Exponents.exceed_comm _ t.exps] at this
  unfold mulTerm
  rwa [rows]

/-! ## 4. Monic multiples -/

theorem monic_cases (ts : Terms) (h : Descending n ts) :
    (ts = [] ∧ monic ts = []) ∨
      ∃ c : Coefficient, c.isZero = false ∧ c.toRat = (leadCoeff ts).toRat⁻¹ ∧
        monic ts = ts.map fun t => ⟨t.coeff * c, t.exps⟩ := by
  cases ts with
  | nil => exact Or.inl ⟨rfl, rfl⟩
  | cons t ts =>
    have zt : t.coeff.isZero = false := h.2.1 t List.mem_cons_self
    refine Or.inr ?_
    unfold monic
    dsimp only
    split
    · rename_i one
      have := (Coefficient.isOne_iff _).mp one
      refine ⟨.one, rfl, ?_, ?_⟩
      · simp [leadCoeff, this]
      · have same : ∀ u : Term, (⟨u.coeff * .one, u.exps⟩ : Term) = u := fun u => by
          have : u.coeff * .one = u.coeff := Coefficient.toRat_injective (by simp)
          rw [this]
        simp only [same, List.map_id']
    · obtain ⟨i, hi, inv⟩ := Coefficient.exists_inv zt
      have zi : i.isZero = false := by
        rw [Coefficient.isZero_eq_false_iff] at zt ⊢
        rw [inv]
        exact inv_ne_zero zt
      rw [hi]
      refine ⟨i, zi, inv, ?_⟩
      simp [scale, zi]

theorem Descending.monic (h : Descending n ts) : Descending n (monic ts) := by
  rcases monic_cases ts h with ⟨-, e⟩ | ⟨c, hc, -, e⟩
  · rw [e]
    exact nil
  · rw [e]
    refine h.map_coeff (f := (· * c)) fun d hd => ?_
    rw [Coefficient.isZero_eq_false_iff] at hc hd ⊢
    rw [Coefficient.toRat_mul]
    exact mul_ne_zero hd hc

/-- **A sum and its monic multiple differ by a unit.** -/
theorem toMv_monic (h : Descending n ts) :
    toMv n (monic ts) = C (leadCoeff ts).toRat⁻¹ * toMv n ts := by
  rcases monic_cases ts h with ⟨e₁, e₂⟩ | ⟨c, -, inv, e⟩
  · rw [e₂, e₁, toMv_nil, mul_zero]
  · rw [e, toMv_map_mul, inv]

theorem leadRow_monic (h : Descending n ts) : leadRow (monic ts) = leadRow ts := by
  rcases monic_cases ts h with ⟨e₁, e₂⟩ | ⟨c, -, -, e⟩
  · rw [e₂, e₁]
  · rw [e]
    cases ts <;> rfl

theorem monic_eq_nil_iff (h : Descending n ts) : monic ts = [] ↔ ts = [] := by
  rcases monic_cases ts h with ⟨e₁, e₂⟩ | ⟨c, -, -, e⟩
  · exact iff_of_true e₂ e₁
  · rw [e, List.map_eq_nil_iff]

theorem leadCoeff_ne_zero (h : Descending n ts) (ne : ts ≠ []) : (leadCoeff ts).toRat ≠ 0 := by
  cases ts with
  | nil => exact absurd rfl ne
  | cons t ts => exact h.coeff_ne_zero List.mem_cons_self

/-- A sum is its leading coefficient times its monic multiple. -/
theorem toMv_eq_C_mul_monic (h : Descending n ts) :
    toMv n ts = C (leadCoeff ts).toRat * toMv n (monic ts) := by
  by_cases ne : ts = []
  · rw [ne]
    exact (mul_zero _).symm
  · rw [toMv_monic h, ← mul_assoc, ← C_mul, mul_inv_cancel₀ (leadCoeff_ne_zero h ne), C_1, one_mul]

theorem degree_toMv_monic (h : Descending n ts) :
    lex.degree (toMv n (monic ts)) = lex.degree (toMv n ts) := by
  rw [h.monic.degree_toMv, leadRow_monic h, h.degree_toMv]

/-- **The monic multiple of a sum that is not zero has the leading coefficient `1`.** -/
theorem leadCoeff_monic (h : Descending n ts) (ne : ts ≠ []) : leadCoeff (monic ts) = .one := by
  have lead := leadCoeff_ne_zero h ne
  rcases monic_cases ts h with ⟨e₁, -⟩ | ⟨c, -, inv, e⟩
  · exact absurd e₁ ne
  · cases ts with
    | nil => exact absurd rfl ne
    | cons t ts =>
      rw [e]
      refine Coefficient.toRat_injective ?_
      show (t.coeff * c).toRat = 1
      rw [Coefficient.toRat_mul, inv]
      exact mul_inv_cancel₀ lead

theorem monic_of_leadCoeff (h : leadCoeff ts = .one) : monic ts = ts := by
  cases ts with
  | nil => rfl
  | cons t ts =>
    have one : t.coeff = .one := h
    exact if_pos (by rw [one]; rfl)

/-- The monic multiple of terms is never empty, for the inverse of a coefficient is not zero. -/
theorem monic_ne_nil (ne : ts ≠ []) : monic ts ≠ [] := by
  cases ts with
  | nil => exact absurd rfl ne
  | cons t ts =>
    unfold monic
    dsimp only
    split
    · exact ne
    · cases hi : t.coeff.inv with
      | error e => exact ne
      | ok c =>
        have some : c.isZero = false := by
          rw [Coefficient.isZero_eq_false_iff, Coefficient.toRat_inv hi]
          refine inv_ne_zero fun zero => ?_
          have none : t.coeff = .zero := Coefficient.toRat_injective (zero.trans Coefficient.toRat_zero.symm)
          obtain ⟨e, failed⟩ := (Coefficient.inv_eq_error_iff t.coeff).mpr none
          rw [hi] at failed
          cases failed
        dsimp only
        rw [scale, if_neg (Bool.eq_false_iff.mp some)]
        exact List.cons_ne_nil _ _

end Terms

end Eliminant
