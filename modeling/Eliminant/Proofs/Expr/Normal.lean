import Eliminant.Expr.Normal
import Eliminant.Proofs.Expr.Interpretation
import Eliminant.Proofs.Order
import Eliminant.Proofs.Outcome
import Eliminant.Proofs.Terms.Basic

/-!
# Normalizing keeps values

An expression that has a value keeps it when it is normalized (`Expr.normalize_keeps`), in every
interpretation; and there is only one failure, an exponent that has no absolute value in a word.

The operands of a sum or a product are followed by what they add up or multiply to:

* `folds_flatten`: nodes that are opened contribute their operands;
* `folds_numbers`, `folds_like`: numbers are folded into one, and like terms or factors are collected;
* `eval_sumNormal`, `productWith_keeps`, `powerOf_keeps`, `nodeNormal_keeps`: the nodes.
-/

namespace Eliminant

/-- An exponent has no absolute value in a word. -/
def Failure.IsMagnitude (e : Failure) : Prop := e = .exponentMagnitude

namespace Coefficient

variable {c : Coefficient}

theorem toRat_of_toWord? {n : Int} (h : c.toWord? = some n) : c.toRat = n := (toWord?_iff.mp h).2

theorem exists_int_of_isInteger (h : c.isInteger = true) : ∃ n : ℤ, c.toRat = n := by
  exact ⟨c.toRat.num, (Rat.coe_int_num_of_den_eq_one ((isInteger_iff c).mp h)).symm⟩

theorem cast_of_isZero {K : Type} [Field K] (h : c.isZero = true) : (c.toRat : K) = 0 := by
  rw [(isZero_iff_toRat c).mp h, Rat.cast_zero]

theorem cast_of_isOne {K : Type} [Field K] (h : c.isOne = true) : (c.toRat : K) = 1 := by
  rw [(isOne_iff c).mp h, toRat_one, Rat.cast_one]

end Coefficient

namespace Expr

/-! ## 1. What operands add up or multiply to -/

section Folds

variable {K : Type} {op : K → K → K} {unit x y : K} {R : Expr → K → Prop}
  {S : Expr × Coefficient → K → Prop} {as : List Expr} {tally : Tally} {o : Operator} {a : Expr}
  {c : Coefficient}

/-- Nodes that are opened contribute their operands. -/
theorem folds_flatten [Std.Associative op] [Std.LawfulIdentity op unit]
    (inner : ∀ bs y, R (.op o bs) y → Folds R op unit bs y) (h : Folds R op unit as x) :
    Folds R op unit (flatten o as) x := by
  fun_induction flatten o as generalizing x with
  | case1 => exact h
  | case2 bs rest ih =>
    obtain ⟨y, z, hy, hz, rfl⟩ := h
    exact (inner bs y hy).append (ih hz)
  | case3 p bs rest _ ih =>
    obtain ⟨y, z, hy, hz, rfl⟩ := h
    exact ⟨y, z, hy, ih hz, rfl⟩
  | case4 a rest _ ih =>
    obtain ⟨y, z, hy, hz, rfl⟩ := h
    exact ⟨y, z, hy, ih hz, rfl⟩

variable [Std.Associative op] [Std.Commutative op]

/-- **Numbers are folded into one**, and the operands that are no numbers make up the rest. -/
theorem folds_numbers (fold : Coefficient → Coefficient → Coefficient) (value : Coefficient → K)
    (numbers : ∀ c x, R (num c) x → x = value c)
    (exact : ∀ c d, value (fold c d) = op (value c) (value d)) (h : Folds R op unit as x)
    (c : Coefficient) : ∃ y, Folds R op unit (as.filter (!·.isNumber)) y ∧
      op (value (as.foldl (fun c a => match a with | num n => fold c n | _ => c) c)) y =
        op (value c) x := by
  induction as generalizing x c with
  | nil => exact ⟨x, h, rfl⟩
  | cons a as ih =>
    obtain ⟨y, z, hy, hz, rfl⟩ := h
    by_cases number : a.isNumber = true
    · cases a with
      | num n =>
        cases numbers n y hy
        obtain ⟨w, hw, same⟩ := ih hz (fold c n)
        refine ⟨w, hw, same.trans ?_⟩
        rw [exact]
        exact Std.Associative.assoc _ _ _
      | var _ | call _ _ | op _ _ => cases number
    · obtain ⟨w, hw, same⟩ := ih hz c
      rw [List.filter_cons_of_pos (by simpa using number)]
      refine ⟨op y w, ⟨y, w, hy, hw, rfl⟩, ?_⟩
      have keep : (a :: as).foldl (fun c a => match a with | num n => fold c n | _ => c) c =
          as.foldl (fun c a => match a with | num n => fold c n | _ => c) c := by
        cases a with
        | num n => exact absurd rfl number
        | var _ | call _ _ | op _ _ => rfl
      rw [keep]
      calc op _ (op y w) = op y (op _ w) := by ac_rfl
        _ = op y (op (value c) z) := congrArg (op y) same
        _ = op (value c) (op y z) := by ac_rfl

/-- Adding to the number of an entry. -/
theorem folds_add (merge : ∀ a c d x y, S (a, c) x → S (a, d) y → S (a, c + d) (op x y))
    (h : Folds S op unit tally x) (ha : S (a, c) y) :
    Folds S op unit (tally.add a c) (op x y) := by
  induction tally generalizing x with
  | nil =>
    cases h
    exact ⟨y, unit, ha, rfl, Std.Commutative.comm unit y⟩
  | cons entry rest ih =>
    obtain ⟨b, d⟩ := entry
    obtain ⟨v, w, hv, hw, rfl⟩ := h
    unfold Tally.add
    split
    · exact ⟨v, op w y, hv, ih hw, Std.Associative.assoc v w y⟩
    · rename_i same
      cases eq_of_compare same
      exact ⟨op v y, w, merge _ d c v y hv ha, hw, by ac_rfl⟩
    · exact ⟨y, op v w, ha, ⟨v, w, hv, hw, rfl⟩, Std.Commutative.comm _ y⟩

/-- **Like terms and like factors are collected.** -/
theorem folds_like [Std.LawfulIdentity op unit] (split : Expr → Expr × Coefficient)
    (merge : ∀ a c d x y, S (a, c) x → S (a, d) y → S (a, c + d) (op x y))
    (splits : ∀ a x, R a x → S (split a) x) (h : Folds R op unit (as.filter (!·.isNumber)) x)
    (ht : Folds S op unit tally y) :
    Folds S op unit (as.foldl (fun tally a =>
      match a with
      | num _ => tally
      | a => Tally.add (split a).1 (split a).2 tally) tally) (op y x) := by
  induction as generalizing tally x y with
  | nil =>
    cases h
    have same : op y unit = y := Std.LawfulRightIdentity.right_id y
    rwa [same]
  | cons a as ih =>
    by_cases number : a.isNumber = true
    · cases a with
      | num n => exact ih h ht
      | var _ | call _ _ | op _ _ => cases number
    · rw [List.filter_cons_of_pos (by simpa using number)] at h
      obtain ⟨v, w, hv, hw, rfl⟩ := h
      have next := ih hw (folds_add merge ht (splits a v hv))
      have same : op (op y v) w = op y (op v w) := Std.Associative.assoc y v w
      rw [same] at next
      cases a with
      | num n => exact absurd rfl number
      | var _ | call _ _ | op _ _ => exact next

end Folds

variable {K : Type} [Field K] [LinearOrder K] [IsStrictOrderedRing K] {I : Interpretation K}
  {x y : K} {a b r : Expr} {as bs args : List Expr} {c d e : Coefficient} {o : Operator}

/-- `b` has the value of `a`, if `a` has one. -/
def Keeps (I : Interpretation K) (a b : Expr) : Prop := ∀ x, I.eval a = some x → I.eval b = some x

theorem Keeps.refl (a : Expr) : Keeps I a a := fun _ => id

theorem Keeps.trans (h : Keeps I a b) (h' : Keeps I b r) : Keeps I a r := fun x hx => h' x (h x hx)

theorem eval_zero : I.eval (num .zero) = some 0 := congrArg some Rat.cast_zero

theorem eval_one : I.eval (num .one) = some 1 := congrArg some Rat.cast_one

theorem two_le_length (none : as ≠ []) (one : ∀ a, as ≠ [a]) : 2 ≤ as.length := by
  match as, none, one with
  | [], none, _ => exact absurd rfl none
  | [a], _, one => exact absurd rfl (one a)
  | _ :: _ :: _, _, _ => simp

/-- A single operand needs no node, and no operand is worth a number. -/
theorem eval_operands {fold : K → K → K} {unit : K} [Std.LawfulIdentity fold unit]
    (none : I.eval (num c) = some unit)
    (node : ∀ as x, 2 ≤ as.length → Folds (fun a x => I.eval a = some x) fold unit as x →
      I.eval (op o as) = some x) :
    Folds (fun a x => I.eval a = some x) fold unit as x →
      I.eval (match as with
        | [] => num c
        | [a] => a
        | as => op o as) = some x := by
  intro h
  split
  · cases h
    exact none
  · obtain ⟨y, z, hy, rfl, rfl⟩ := h
    have same : fold y z = y := Std.LawfulRightIdentity.right_id y
    rwa [same]
  · rename_i none one
    exact node _ x (two_le_length none one) h

/-! ## 2. Terms and factors -/

/-- The value of an expression with its coefficient. -/
def TermValue (I : Interpretation K) (p : Expr × Coefficient) (x : K) : Prop :=
  ∃ y, I.eval p.1 = some y ∧ x = p.2.toRat * y

/-- The value of a base with its exponent. -/
def FactorValue (I : Interpretation K) (p : Expr × Coefficient) (x : K) : Prop :=
  I.eval (op .pow [p.1, num p.2]) = some x

theorem termValue_splitCoefficient (h : I.eval a = some x) :
    TermValue I (a.splitCoefficient.2, a.splitCoefficient.1) x := by
  unfold splitCoefficient
  split
  · cases h
    exact ⟨1, eval_one, (mul_one _).symm⟩
  · obtain ⟨-, y, z, hy, ⟨w, -, hw, rfl, rfl⟩, rfl⟩ := Interpretation.eval_mul_iff.mp h
    cases hy
    exact ⟨w, hw, congrArg _ (mul_one w)⟩
  · rename_i n factors several
    obtain ⟨len, y, z, hy, hz, rfl⟩ := Interpretation.eval_mul_iff.mp h
    cases hy
    have many : 2 ≤ factors.length := by
      match factors, several with
      | [], _ => simp at len
      | [b], several => exact absurd rfl (several b)
      | _ :: _ :: _, _ => simp
    exact ⟨z, Interpretation.eval_mul_iff.mpr ⟨many, hz⟩, rfl⟩
  · exact ⟨x, h, by rw [Coefficient.toRat_one, Rat.cast_one, one_mul]⟩

theorem eval_attachCoefficient (h : I.eval a = some x) (c : Coefficient) :
    I.eval (attachCoefficient c a) = some (c.toRat * x) := by
  unfold attachCoefficient
  split
  · rename_i one
    rw [Coefficient.cast_of_isOne one, one_mul]
    exact h
  split
  · obtain ⟨len, hx⟩ := Interpretation.eval_mul_iff.mp h
    exact Interpretation.eval_mul_iff.mpr ⟨Nat.le_succ_of_le len, _, x, rfl, hx, rfl⟩
  · exact Interpretation.eval_mul_iff.mpr ⟨le_rfl, _, x, rfl, Folds.singleton_iff.mpr h, rfl⟩

theorem termValue_merge (a : Expr) (c d : Coefficient) (x y : K) (hx : TermValue I (a, c) x)
    (hy : TermValue I (a, d) y) : TermValue I (a, c + d) (x + y) := by
  obtain ⟨z, hz, rfl⟩ := hx
  obtain ⟨w, hw, rfl⟩ := hy
  cases hz.symm.trans hw
  exact ⟨z, hz, by rw [Coefficient.toRat_add, Rat.cast_add, add_mul]⟩

theorem factorValue_splitExponent (h : I.eval a = some x) : FactorValue I a.splitExponent x := by
  unfold splitExponent
  split
  · exact h
  · exact Interpretation.eval_pow_num_iff.mpr ⟨x, h, I.powers.exponent_one x⟩

theorem factorValue_merge (b : Expr) (c d : Coefficient) (x y : K) (hx : FactorValue I (b, c) x)
    (hy : FactorValue I (b, d) y) : FactorValue I (b, c + d) (x * y) := by
  obtain ⟨z, hz, hx⟩ := Interpretation.eval_pow_num_iff.mp hx
  obtain ⟨w, hw, hy⟩ := Interpretation.eval_pow_num_iff.mp hy
  cases hz.symm.trans hw
  refine Interpretation.eval_pow_num_iff.mpr ⟨z, hz, ?_⟩
  rw [Coefficient.toRat_add]
  exact I.powers.exponent_add hx hy

/-! ## 3. Sums -/

/-- The constant of a sum, and its like terms collected. -/
theorem sumsTo_collect (h : I.SumsTo as x) :
    ∃ y, Folds (TermValue I) (· + ·) 0 (likeTerms as) y ∧ (constantPart as).toRat + y = x := by
  obtain ⟨y, hy, same⟩ := folds_numbers (· + ·) (fun c => (c.toRat : K))
    (fun c x hx => (Option.some.inj hx).symm) (fun c d => by simp) h .zero
  have like := folds_like (fun a => (a.splitCoefficient.2, a.splitCoefficient.1)) termValue_merge
    (fun a x => termValue_splitCoefficient) hy (show Folds _ _ _ [] 0 from rfl)
  simp only [Coefficient.toRat_zero, Rat.cast_zero, zero_add] at like same
  exact ⟨y, like, same⟩

/-- Like terms with coefficients that are not zero. -/
theorem sumsTo_attached {tally : Tally} (h : Folds (TermValue I) (· + ·) 0 tally x) :
    I.SumsTo (tally.filterMap fun (a, c) =>
      if c.isZero then none else some (attachCoefficient c a)) x := by
  refine h.filterMap ?_ ?_
  · rintro ⟨a, c⟩ b x hb ⟨y, hy, rfl⟩
    dsimp only at hb
    split at hb
    · cases hb
    · cases hb
      exact eval_attachCoefficient hy c
  · rintro ⟨a, c⟩ x hb ⟨y, hy, rfl⟩
    dsimp only at hb
    split at hb
    · rename_i zero
      rw [Coefficient.cast_of_isZero zero, zero_mul]
    · cases hb

theorem sort_perm (as : List Expr) : (sort as).Perm as := sortBy_perm Expr.compare as

/-- **The normal form of a sum has the value of the sum.** -/
theorem eval_sumNormal (h : I.SumsTo args x) : I.eval (sumNormal args) = some x := by
  have flat : I.SumsTo (flatten .add args) x :=
    folds_flatten (fun bs y hy => (Interpretation.eval_add_iff.mp hy).2) h
  obtain ⟨y, hy, rfl⟩ := sumsTo_collect flat
  have sum := sumsTo_attached hy
  unfold sumNormal
  dsimp only
  generalize constantPart (flatten .add args) = constant, List.filterMap _ _ = collected at sum ⊢
  have all : I.SumsTo (sort (if constant.isZero then collected else collected ++ [num constant]))
      (constant.toRat + y) := by
    refine Folds.perm ?_ (sort_perm _).symm
    split
    · rename_i zero
      rw [Coefficient.cast_of_isZero zero, zero_add]
      exact sum
    · rw [add_comm]
      exact sum.append (Folds.singleton_iff.mpr rfl)
  exact eval_operands eval_zero
    (fun as x len h => Interpretation.eval_add_iff.mpr ⟨len, h⟩) all

/-! ## 4. Products and powers -/

/-- The product of the numbers of a product, and the rest. -/
theorem multipliesTo_numbers (h : I.MultipliesTo as x) :
    ∃ y, I.MultipliesTo (as.filter (!·.isNumber)) y ∧ (numericPart as).toRat * y = x := by
  obtain ⟨y, hy, same⟩ := folds_numbers (· * ·) (fun c => (c.toRat : K))
    (fun c x hx => (Option.some.inj hx).symm) (fun c d => by simp) h .one
  refine ⟨y, hy, same.trans ?_⟩
  rw [Coefficient.toRat_one, Rat.cast_one, one_mul]

/-- The product of the numbers of a product, and its like factors collected. -/
theorem multipliesTo_collect (h : I.MultipliesTo as x) :
    ∃ y, Folds (FactorValue I) (· * ·) 1 (likeFactors as) y ∧ (numericPart as).toRat * y = x := by
  obtain ⟨y, hy, same⟩ := multipliesTo_numbers h
  have like := folds_like splitExponent factorValue_merge (fun a x => factorValue_splitExponent) hy
    (show Folds _ _ _ [] 1 from rfl)
  rw [one_mul] at like
  exact ⟨y, like, same⟩

theorem multipliesTo_factorsOf (a : Expr) (x : K) (h : I.eval a = some x) :
    I.MultipliesTo (factorsOf a) x := by
  unfold factorsOf
  split
  · exact (Interpretation.eval_mul_iff.mp h).2
  · exact Interpretation.multipliesTo_singleton.mpr h

/-- **The normal form of a product has the value of the product**, if its powers keep theirs. -/
theorem productWith_keeps {power : Expr → Coefficient → Except Failure Expr}
    (keeps : ∀ b e, Answers Failure.IsMagnitude (Keeps I (op .pow [b, num e])) (power b e))
    (args : List Expr) : Answers Failure.IsMagnitude
      (fun r => ∀ x, I.MultipliesTo args x → I.eval r = some x) (productWith power args) := by
  have flat (x : K) (h : I.MultipliesTo args x) : I.MultipliesTo (flatten .mul args) x :=
    folds_flatten (fun bs y hy => (Interpretation.eval_mul_iff.mp hy).2) h
  unfold productWith
  dsimp only
  split
  · rename_i zero
    intro x h
    obtain ⟨y, -, rfl⟩ := multipliesTo_collect (flat x h)
    rw [Coefficient.cast_of_isZero zero, zero_mul]
    exact eval_zero
  refine (Answers.mapM fun p _ => keeps p.1 p.2).bind fun powers hp => ?_
  -- what the factors of the powers multiply to
  have factors (x : K) (h : I.MultipliesTo args x) : ∃ y, I.MultipliesTo (sort
      ((powers.flatMap factorsOf).filter (!·.isNumber))) y ∧ (numericPart (flatten .mul args) *
        numericPart (powers.flatMap factorsOf)).toRat * y = x := by
    obtain ⟨y, hy, rfl⟩ := multipliesTo_collect (flat x h)
    have kept : I.MultipliesTo powers y := hy.forall₂ hp fun p r x keep hx => keep x hx
    obtain ⟨z, hz, rfl⟩ := multipliesTo_numbers (kept.flatMap multipliesTo_factorsOf)
    refine ⟨z, hz.perm (sort_perm _).symm, ?_⟩
    rw [Coefficient.toRat_mul, Rat.cast_mul, mul_assoc]
  split
  · rename_i zero
    intro x h
    obtain ⟨y, -, rfl⟩ := factors x h
    rw [Coefficient.cast_of_isZero zero, zero_mul]
    exact eval_zero
  split
  · rename_i none
    intro x h
    obtain ⟨y, hy, rfl⟩ := factors x h
    rw [none] at hy
    rw [show y = 1 from hy, mul_one]
    rfl
  · rename_i a one
    intro x h
    obtain ⟨y, hy, rfl⟩ := factors x h
    rw [one] at hy
    split
    · rename_i unit
      rw [Coefficient.cast_of_isOne unit, one_mul]
      exact Interpretation.multipliesTo_singleton.mp hy
    · exact Interpretation.eval_mul_iff.mpr ⟨le_rfl, _, y, rfl, hy, rfl⟩
  · rename_i none one
    intro x h
    obtain ⟨y, hy, rfl⟩ := factors x h
    have product := Interpretation.eval_mul_iff.mpr ⟨two_le_length none one, hy⟩
    exact eval_attachCoefficient product _

/-- **A power of two numbers.** -/
theorem numericPower_keeps (b e : Coefficient) :
    Answers Failure.IsMagnitude (Keeps I (op .pow [num b, num e])) (numericPower b e) := by
  unfold numericPower
  split
  · rename_i one
    intro x h
    obtain ⟨y, hy, h⟩ := Interpretation.eval_pow_num_iff.mp h
    cases hy
    rw [Coefficient.cast_of_isOne one] at h
    rw [I.powers.base_one h]
    exact eval_one
  split
  · exact Keeps.refl _
  rename_i n word
  have power {x : K} (h : I.eval (op .pow [num b, num e]) = some x) :
      (((b.toRat : ℚ) : K) ≠ 0 ∨ 0 ≤ n) ∧ x = (b.toRat : K) ^ n := by
    obtain ⟨y, hy, h⟩ := Interpretation.eval_pow_num_iff.mp h
    cases hy
    rw [Coefficient.toRat_of_toWord? word, Rat.cast_intCast, I.powers.int] at h
    split at h
    · rename_i defined
      exact ⟨defined, (Option.some.inj h).symm⟩
    · cases h
  split
  · exact rfl
  split
  · exact Keeps.refl _
  split
  · rename_i pos
    intro x h
    obtain ⟨-, rfl⟩ := power h
    lift n to ℕ using pos.le
    rw [zpow_natCast, ← Rat.cast_pow, ← Coefficient.toRat_pow]
    rfl
  rename_i neg
  split
  · rename_i i inv
    intro x h
    obtain ⟨-, rfl⟩ := power h
    obtain ⟨k, rfl⟩ := Int.exists_eq_neg_ofNat (not_lt.mp neg)
    rw [zpow_neg, zpow_natCast, ← inv_pow, ← Rat.cast_inv, ← Coefficient.toRat_inv inv,
      ← Rat.cast_pow, ← Coefficient.toRat_pow]
    rw [Int.natAbs_neg]
    rfl
  · exact Keeps.refl _

/-- The factors of a base, raised one by one. -/
theorem multipliesTo_powers {n : ℤ} (integer : e.toRat = n) (h : I.MultipliesTo as x)
    (hy : I.powers.pow x (e.toRat : K) = some y) :
    Folds (fun a x => I.eval (op .pow [a, num e]) = some x) (· * ·) 1 as y := by
  rw [integer] at hy
  induction as generalizing x y with
  | nil =>
    cases h
    exact I.powers.base_one hy
  | cons a as ih =>
    obtain ⟨v, w, hv, hw, rfl⟩ := h
    obtain ⟨v', w', hv', hw', rfl⟩ := I.powers.base_mul_int hy
    refine ⟨v', w', Interpretation.eval_pow_num_iff.mpr ⟨v, hv, ?_⟩, ih hw hw', rfl⟩
    rw [integer]
    exact hv'

/-- **A power of a normal base keeps its value**, however many levels are opened. -/
theorem powerOf_keeps (depth : Nat) : ∀ base e, Answers Failure.IsMagnitude
    (Keeps I (op .pow [base, num e])) (powerOf depth base e) := by
  induction depth with
  | zero => exact fun base e => Keeps.refl _
  | succ depth ih =>
    intro base e
    unfold powerOf
    split
    · rename_i zero
      intro x h
      obtain ⟨y, -, h⟩ := Interpretation.eval_pow_num_iff.mp h
      rw [(Coefficient.isZero_iff_toRat e).mp zero, I.powers.exponent_zero] at h
      rw [← Option.some.inj h]
      exact eval_one
    split
    · rename_i one
      intro x h
      obtain ⟨y, hy, h⟩ := Interpretation.eval_pow_num_iff.mp h
      rw [(Coefficient.isOne_iff e).mp one, Coefficient.toRat_one, I.powers.exponent_one] at h
      rwa [← Option.some.inj h]
    split
    · exact numericPower_keeps _ e
    · rename_i b f
      split
      · rename_i integer
        obtain ⟨n, hn⟩ := Coefficient.exists_int_of_isInteger integer
        refine (ih b (f * e)).imp fun r keep x h => keep x ?_
        obtain ⟨y, hy, h⟩ := Interpretation.eval_pow_num_iff.mp h
        obtain ⟨z, hz, hy⟩ := Interpretation.eval_pow_num_iff.mp hy
        refine Interpretation.eval_pow_num_iff.mpr ⟨z, hz, ?_⟩
        rw [Coefficient.toRat_mul, hn]
        rw [hn] at h
        exact I.powers.exponent_mul_int hy h
      · exact Keeps.refl _
    · rename_i factors
      split
      · rename_i integer
        obtain ⟨n, hn⟩ := Coefficient.exists_int_of_isInteger integer
        refine (Answers.mapM fun a _ => ih a e).bind fun powers hp => ?_
        refine (productWith_keeps ih powers).imp fun r keep x h => keep x ?_
        obtain ⟨y, hy, h⟩ := Interpretation.eval_pow_num_iff.mp h
        have raised := multipliesTo_powers hn (Interpretation.eval_mul_iff.mp hy).2 h
        exact raised.forall₂ hp fun a r x keep hx => keep x hx
      · exact Keeps.refl _
    · exact Keeps.refl _

theorem powerNormal_keeps (base exponent : Expr) : Answers Failure.IsMagnitude
    (Keeps I (op .pow [base, exponent])) (powerNormal base exponent) := by
  unfold powerNormal
  split
  · exact powerOf_keeps _ base _
  · intro x h
    split
    · rename_i one
      obtain ⟨y, z, hy, hz, h⟩ := Interpretation.eval_pow_iff.mp h
      cases base with
      | num n =>
        cases hy
        rw [Coefficient.cast_of_isOne one] at h
        rw [I.powers.base_one h]
        exact eval_one
      | var _ | call _ _ | op _ _ => cases one
    · exact h

theorem productNormal_keeps (args : List Expr) : Answers Failure.IsMagnitude
    (fun r => ∀ x, I.MultipliesTo args x → I.eval r = some x) (productNormal args) :=
  productWith_keeps (powerOf_keeps _) args

/-! ## 5. Expressions -/

theorem eval_minusOne : I.eval minusOne = some (-1) := by
  show some ((((Coefficient.ofInt (-1)).toRat : ℚ)) : K) = _
  rw [Coefficient.toRat_ofInt]
  simp

theorem multipliesTo_minusOne (h : I.eval a = some x) : I.MultipliesTo [minusOne, a] (-x) :=
  ⟨-1, x, eval_minusOne, Interpretation.multipliesTo_singleton.mpr h, (neg_one_mul x).symm⟩

/-- **A node keeps its value when it is normalized.** -/
theorem nodeNormal_keeps (o : Operator) (args : List Expr) :
    Answers Failure.IsMagnitude (Keeps I (op o args)) (nodeNormal o args) := by
  unfold nodeNormal
  split
  · exact fun x h => eval_sumNormal (Interpretation.eval_add_iff.mp h).2
  · exact (productNormal_keeps _).imp fun r keep x h => keep x (Interpretation.eval_mul_iff.mp h).2
  · rename_i a b
    refine (productNormal_keeps (I := I) [minusOne, b]).bind fun r keep x h => ?_
    obtain ⟨y, z, hy, hz, h⟩ := Interpretation.eval_two_iff.mp h
    have opposite := keep (-z) (multipliesTo_minusOne hz)
    cases h
    exact eval_sumNormal ⟨y, -z, hy, Interpretation.sumsTo_singleton.mpr opposite, sub_eq_add_neg y z⟩
  · rename_i a
    refine (productNormal_keeps (I := I) [minusOne, a]).imp fun r keep x h => ?_
    obtain ⟨y, hy, h⟩ := Interpretation.eval_one_iff.mp h
    cases h
    exact keep _ (multipliesTo_minusOne hy)
  · rename_i a b
    refine (powerNormal_keeps (I := I) b minusOne).bind fun p keep' => ?_
    refine (productNormal_keeps (I := I) [a, p]).imp fun r keep x h => ?_
    obtain ⟨y, z, hy, hz, h⟩ := Interpretation.eval_two_iff.mp h
    change (if z = 0 then none else some (y / z)) = some x at h
    split at h
    · cases h
    · rename_i nonzero
      have inverse : I.eval (op .pow [b, minusOne]) = some z⁻¹ := by
        refine Interpretation.eval_pow_iff.mpr ⟨z, -1, hz, eval_minusOne, ?_⟩
        have := I.powers.int z (-1)
        rwa [if_pos (Or.inl nonzero), zpow_neg_one, Int.cast_neg, Int.cast_one] at this
      cases h
      refine keep _ ⟨y, z⁻¹, hy, ?_, div_eq_mul_inv y z⟩
      exact Interpretation.multipliesTo_singleton.mpr (keep' _ inverse)
  · exact powerNormal_keeps _ _
  · exact Keeps.refl _

theorem values_keeps {xs : List K} (h : List.Forall₂ (Keeps I) as bs)
    (hxs : List.Forall₂ (fun a x => I.eval a = some x) as xs) :
    List.Forall₂ (fun a x => I.eval a = some x) bs xs := by
  induction h generalizing xs with
  | nil => exact hxs
  | cons keep _ ih =>
    obtain ⟨x, ys, hx, hys, rfl⟩ := List.forall₂_cons_left_iff.mp hxs
    exact .cons (keep x hx) (ih hys)

/-- A node whose operands keep their values keeps its own. -/
theorem keeps_op (o : Operator) (h : List.Forall₂ (Keeps I) as bs) : Keeps I (op o as) (op o bs) := by
  intro x hx
  obtain ⟨xs, hxs, hx⟩ := Interpretation.eval_op_eq_some_iff.mp hx
  exact Interpretation.eval_op_eq_some_iff.mpr ⟨xs, values_keeps h hxs, hx⟩

theorem keeps_call (f : String) (h : List.Forall₂ (Keeps I) as bs) :
    Keeps I (call f as) (call f bs) := by
  intro x hx
  obtain ⟨xs, hxs, hx⟩ := Interpretation.eval_call_eq_some_iff.mp hx
  exact Interpretation.eval_call_eq_some_iff.mpr ⟨xs, values_keeps h hxs, hx⟩

mutual
/-- **Normalizing keeps values**, and nothing but an exponent that is too large makes it fail. -/
theorem normalize_keeps : ∀ a : Expr, Answers Failure.IsMagnitude (Keeps I a) (normalize a)
  | num n => by
    unfold normalize
    exact Keeps.refl _
  | var x => by
    unfold normalize
    exact Keeps.refl _
  | call f args => by
    unfold normalize
    exact (normalizeList_keeps args).bind fun bs h => keeps_call f h
  | op o args => by
    unfold normalize
    refine (normalizeList_keeps args).bind fun bs h => ?_
    split
    · exact (nodeNormal_keeps o bs).imp fun r keep => (keeps_op o h).trans keep
    · exact keeps_op o h

theorem normalizeList_keeps : ∀ as : List Expr,
    Answers Failure.IsMagnitude (List.Forall₂ (Keeps I) as) (normalizeList as)
  | [] => List.Forall₂.nil
  | a :: as => by
    unfold normalizeList
    refine (normalize_keeps a).bind fun b hb => ?_
    exact (normalizeList_keeps as).bind fun bs hbs => .cons hb hbs
end

end Expr

end Eliminant
