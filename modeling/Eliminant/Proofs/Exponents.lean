import Eliminant.Order.Dickson
import Eliminant.Proofs.Outcome
import Eliminant.Proofs.Sort
import Eliminant.Term
import Mathlib.Data.Finsupp.MonomialOrder

/-!
# Rows of exponents as monomials

A row of length `n` is a monomial in `n` variables (`Exponents.toFinsupp`), and every operation on
rows is the operation on monomials of that name:

* `compare_lt_iff`: the order on rows is the lexicographic order on monomials;
* `divides_iff`, `coprime_iff`, `toFinsupp_gcd`, `toFinsupp_lcm`: divisibility;
* `add?_answers`, `add?_fits`, `sub?_of_divides`: sums fail exactly where an exponent does not fit,
  and differences never fail on a divisor.

Each is proved along the two rows, one column at a time.
-/

namespace Eliminant

namespace Exponents

variable {n : Nat} {as bs cs : Exponents}

/-! ## 1. The monomial of a row -/

/-- The monomial in `n` variables that a row stands for. -/
noncomputable def toFinsupp (n : Nat) (as : Exponents) : Fin n →₀ ℕ :=
  Finsupp.equivFunOnFinite.symm fun i => as.getD i 0

@[simp] theorem toFinsupp_apply (i : Fin n) : as.toFinsupp n i = as.getD i 0 := rfl

theorem toFinsupp_cons_zero (a : Nat) : toFinsupp (n + 1) (a :: as) 0 = a := rfl

theorem toFinsupp_cons_succ (a : Nat) (i : Fin n) :
    toFinsupp (n + 1) (a :: as) i.succ = as.toFinsupp n i := rfl

/-- **Rows of one length that are the same monomial are equal.** -/
theorem toFinsupp_injective : ∀ {n : Nat} {as bs : Exponents}, as.length = n → bs.length = n →
    as.toFinsupp n = bs.toFinsupp n → as = bs
  | 0, [], [], _, _, _ => rfl
  | n + 1, a :: as, b :: bs, ha, hb, h => by
    have head : a = b := DFunLike.congr_fun h 0
    have tail : toFinsupp n as = toFinsupp n bs := by
      ext i
      exact DFunLike.congr_fun h i.succ
    rw [head, toFinsupp_injective (Nat.succ.inj ha) (Nat.succ.inj hb) tail]

@[simp] theorem length_zeros : (zeros n).length = n := List.length_replicate

@[simp] theorem toFinsupp_zeros : (zeros n).toFinsupp n = 0 := by
  ext i
  simp [zeros]

theorem isConstant_iff : ∀ {n : Nat} {as : Exponents}, as.length = n →
    (as.isConstant = true ↔ as.toFinsupp n = 0)
  | 0, [], _ => by simp [isConstant, Finsupp.ext_iff]
  | n + 1, a :: as, h => by
    have ih := isConstant_iff (Nat.succ.inj h)
    simp only [Finsupp.ext_iff] at ih ⊢
    rw [Fin.forall_fin_succ]
    simp only [isConstant, List.all_cons, Bool.and_eq_true, beq_iff_eq] at ih ⊢
    rw [ih]
    rfl

/-! ## 2. The order -/

@[simp] theorem compare_self : ∀ as : Exponents, as.compare as = .eq
  | [] => rfl
  | a :: as => by simp [Exponents.compare, compare_self as]

theorem eq_of_compare_eq : ∀ {as bs : Exponents}, as.compare bs = .eq → as = bs
  | [], [], _ => rfl
  | [], _ :: _, h => nomatch h
  | _ :: _, [], h => nomatch h
  | a :: as, b :: bs, h => by
    unfold Exponents.compare at h
    split at h
    · cases h
    · split at h
      · cases h
      · have : a = b := by omega
        rw [this, eq_of_compare_eq h]

theorem compare_swap : ∀ as bs : Exponents, bs.compare as = (as.compare bs).swap
  | [], [] => rfl
  | [], _ :: _ => rfl
  | _ :: _, [] => rfl
  | a :: as, b :: bs => by
    simp only [Exponents.compare]
    split
    · rw [if_neg (by omega)]
      rfl
    · split
      · rfl
      · exact compare_swap as bs

theorem compare_gt_iff : as.compare bs = .gt ↔ bs.compare as = .lt := by
  rw [compare_swap as bs]
  cases as.compare bs <;> simp

/-- **The order on rows is the lexicographic order on monomials.** -/
theorem compare_lt_iff : ∀ {n : Nat} {as bs : Exponents}, as.length = n → bs.length = n →
    (as.compare bs = .lt ↔ toLex (as.toFinsupp n) < toLex (bs.toFinsupp n))
  | 0, [], [], _, _ => by simp [Exponents.compare]
  | n + 1, a :: as, b :: bs, ha, hb => by
    have ih := compare_lt_iff (Nat.succ.inj ha) (Nat.succ.inj hb)
    rw [Finsupp.Lex.lt_iff] at ih ⊢
    rw [Fin.exists_fin_succ]
    have later (i : Fin n) : (∀ j < i.succ, toFinsupp (n + 1) (a :: as) j =
          toFinsupp (n + 1) (b :: bs) j) ↔
        a = b ∧ ∀ j < i, toFinsupp n as j = toFinsupp n bs j := by
      rw [Fin.forall_fin_succ]
      simp only [toFinsupp_cons_zero, toFinsupp_cons_succ, Fin.succ_lt_succ_iff, Fin.succ_pos,
        forall_const]
    simp only [ofLex_toLex, later, toFinsupp_cons_zero, toFinsupp_cons_succ] at ih ⊢
    simp only [Exponents.compare]
    split
    · simp [*]
    · split
      · simp only [reduceCtorEq, false_iff, not_or, not_and]
        exact ⟨fun _ => by omega, fun ⟨i, ⟨hab, _⟩, _⟩ => by omega⟩
      · have hab : a = b := by omega
        simp [ih, hab]

theorem compare_lt_iff_lex (ha : as.length = n) (hb : bs.length = n) :
    as.compare bs = .lt ↔
      (MonomialOrder.lex).toSyn (as.toFinsupp n) < (MonomialOrder.lex).toSyn (bs.toFinsupp n) :=
  compare_lt_iff ha hb

theorem compare_trans (ha : as.length = n) (hb : bs.length = n) (hc : cs.length = n)
    (h₁ : as.compare bs = .lt) (h₂ : bs.compare cs = .lt) : as.compare cs = .lt := by
  rw [compare_lt_iff ha hc]
  exact lt_trans ((compare_lt_iff ha hb).mp h₁) ((compare_lt_iff hb hc).mp h₂)

/-- Rows of one length are ranked, whatever they are rows of. -/
theorem ranks {α : Type} {f : α → Exponents} {xs : List α} (h : ∀ x ∈ xs, (f x).length = n) :
    Ranks (fun x y => (f x).compare (f y)) xs where
  asymm x _ y _ lt := by
    rw [compare_swap (f x) (f y), lt]
    exact nofun
  trans x hx y hy z hz yx zy := by
    rw [Ne, compare_lt_iff_lex (h y hy) (h x hx), not_lt] at yx
    rw [Ne, compare_lt_iff_lex (h z hz) (h y hy), not_lt] at zy
    rw [Ne, compare_lt_iff_lex (h z hz) (h x hx), not_lt]
    exact yx.trans zy

theorem not_compare_self (as : Exponents) : as.compare as ≠ .lt := by
  rw [compare_self]
  exact nofun

/-! ## 3. Divisibility -/

theorem divides_iff : ∀ {n : Nat} {as bs : Exponents}, as.length = n → bs.length = n →
    (as.divides bs = true ↔ as.toFinsupp n ≤ bs.toFinsupp n)
  | 0, [], [], _, _ => by simp [divides]
  | n + 1, a :: as, b :: bs, ha, hb => by
    have ih := divides_iff (Nat.succ.inj ha) (Nat.succ.inj hb)
    rw [Finsupp.le_def] at ih ⊢
    rw [Fin.forall_fin_succ]
    simp only [divides, List.zip_cons_cons, List.all_cons, Bool.and_eq_true,
      decide_eq_true_eq] at ih ⊢
    rw [ih]
    rfl

/-- The test that a completion makes before it goes on is divisibility. -/
theorem rowDivides_iff (as bs : Exponents) : RowDivides as bs ↔ as.divides bs = true := by
  simp [RowDivides, divides]

theorem coprime_iff : ∀ {n : Nat} {as bs : Exponents}, as.length = n → bs.length = n →
    (as.coprime bs = true ↔ ∀ i, as.toFinsupp n i = 0 ∨ bs.toFinsupp n i = 0)
  | 0, [], [], _, _ => by simp [coprime]
  | n + 1, a :: as, b :: bs, ha, hb => by
    have ih := coprime_iff (Nat.succ.inj ha) (Nat.succ.inj hb)
    rw [Fin.forall_fin_succ]
    simp only [coprime, List.zip_cons_cons, List.all_cons, Bool.and_eq_true, Bool.or_eq_true,
      beq_iff_eq] at ih ⊢
    rw [ih]
    rfl

theorem length_gcd (ha : as.length = n) (hb : bs.length = n) : (as.gcd bs).length = n := by
  simp [gcd, ha, hb]

theorem toFinsupp_gcd : ∀ {n : Nat} {as bs : Exponents}, as.length = n → bs.length = n →
    (as.gcd bs).toFinsupp n = as.toFinsupp n ⊓ bs.toFinsupp n
  | 0, [], [], _, _ => by
    ext i
    exact i.elim0
  | n + 1, a :: as, b :: bs, ha, hb => by
    have ih := toFinsupp_gcd (Nat.succ.inj ha) (Nat.succ.inj hb)
    ext i
    refine Fin.cases rfl (fun i => ?_) i
    exact DFunLike.congr_fun ih i

/-- **Sums of rows fail only where an exponent does not fit.** -/
theorem add?_answers : ∀ {n : Nat} {as bs : Exponents}, as.length = n → bs.length = n →
    Answers Failure.IsOverflow
      (fun cs => cs.length = n ∧ cs.toFinsupp n = as.toFinsupp n + bs.toFinsupp n) (as.add? bs)
  | 0, [], [], _, _ => by
    refine ⟨rfl, ?_⟩
    ext i
    exact i.elim0
  | n + 1, a :: as, b :: bs, ha, hb => by
    unfold add?
    split
    · refine (add?_answers (Nat.succ.inj ha) (Nat.succ.inj hb)).bind fun cs hcs => ?_
      refine ⟨congrArg Nat.succ hcs.1, ?_⟩
      ext i
      refine Fin.cases rfl (fun i => ?_) i
      exact DFunLike.congr_fun hcs.2 i
    · rfl

/-- The exponents of some column do not fit together. -/
def Exceed (n : Nat) (as bs : Exponents) : Prop :=
  ∃ i : Fin n, maxExponent < as.toFinsupp n i + bs.toFinsupp n i

theorem exceed_comm (as bs : Exponents) : Exceed n as bs ↔ Exceed n bs as := by
  simp only [Exceed, Nat.add_comm]

/-- **Sums of rows fail wherever an exponent does not fit.** -/
theorem add?_fits : ∀ {n : Nat} {as bs : Exponents}, as.length = n → bs.length = n →
    Answers (fun _ => Exceed n as bs) (fun _ => ¬ Exceed n as bs) (as.add? bs)
  | 0, [], [], _, _ => fun h => h.elim fun i _ => i.elim0
  | n + 1, a :: as, b :: bs, ha, hb => by
    have split_head : Exceed (n + 1) (a :: as) (b :: bs) ↔ maxExponent < a + b ∨ Exceed n as bs := by
      unfold Exceed
      rw [Fin.exists_fin_succ]
      rfl
    rw [split_head]
    unfold add?
    split
    · rename_i fits
      refine ((add?_fits (Nat.succ.inj ha) (Nat.succ.inj hb)).mono (fun _ => Or.inr) fun _ => id).bind
        fun cs rest => ?_
      exact not_or.mpr ⟨Nat.not_lt.mpr fits, rest⟩
    · rename_i large
      exact Or.inl (Nat.not_le.mp large)

/-- **Differences of rows never fail on a divisor.** -/
theorem sub?_of_divides : ∀ {n : Nat} {as bs : Exponents}, as.length = n → bs.length = n →
    bs.divides as = true →
      ∃ cs, as.sub? bs = .ok cs ∧ cs.length = n ∧
        cs.toFinsupp n = as.toFinsupp n - bs.toFinsupp n
  | 0, [], [], _, _, _ => by
    refine ⟨[], rfl, rfl, ?_⟩
    ext i
    exact i.elim0
  | n + 1, a :: as, b :: bs, ha, hb, h => by
    simp only [divides, List.zip_cons_cons, List.all_cons, Bool.and_eq_true,
      decide_eq_true_eq] at h
    obtain ⟨cs, hok, len, hcs⟩ := sub?_of_divides (Nat.succ.inj ha) (Nat.succ.inj hb) h.2
    refine ⟨(a - b) :: cs, ?_, congrArg Nat.succ len, ?_⟩
    · unfold sub?
      rw [if_pos h.1, hok]
      rfl
    · ext i
      refine Fin.cases rfl (fun i => ?_) i
      exact DFunLike.congr_fun hcs i

end Exponents

end Eliminant
