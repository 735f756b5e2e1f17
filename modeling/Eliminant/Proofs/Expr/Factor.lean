import Eliminant.Polynomial.OfExpr
import Eliminant.Proofs.Expr.Faithful
import Eliminant.Proofs.Expr.Normal

/-!
# Bases and factors

A product in normal form is made of factors, and a factor is the power of a base to a positive exponent.
`Kept` are the powers that stay together, in the normal form as in the conversion to polynomials: all powers
of expressions into which the conversion does not look, the roots of all others, and powers that are too large
to be multiplied out.

A factor tells its base and its exponent (`Base.splitExponent_factor`), it is its own normal form
(`Factor.normalize_eq`), and its power to an integer is a factor of the same base (`Factor.powerNormal_eq`).
-/

namespace Eliminant

namespace Expr

variable {a b f : Expr} {as : List Expr} {c e : Coefficient} {q : ℚ} {o : Operator} {depth : ℕ}

/-! ## 1. Bases -/

/-- Whether an expression is a name, or a call, a subscript, a prime or a power to a variable exponent. -/
def isBase : Expr → Bool
  | var _ | call .. | op .subscript _ | op .prime _ => true
  | op .pow [_, e] => e.constant?.isNone
  | _ => false

/-- Whether an expression is a number, a sum or a product. -/
def isOpen : Expr → Bool
  | num _ | op .add _ | op .mul _ => true
  | _ => false

theorem isOpen_of_isBase (h : b.isBase = true) : b.isOpen = false := by
  unfold isBase at h
  split at h
  · rfl
  · rfl
  · rfl
  · rfl
  · rfl
  · cases h

theorem splitExponent_of_isBase (h : b.isBase = true) : b.splitExponent = (b, .one) := by
  unfold splitExponent
  split
  · cases h
  · rfl

/-- Bases are not constant. -/
theorem constant?_of_isBase (h : b.isBase = true) : b.constant? = none := by
  unfold isBase at h
  split at h
  · rw [constant?]
  · rw [constant?]
  · simp [constant?]
  · simp [constant?]
  · rename_i base exponent
    rw [constant?, Option.isNone_iff_eq_none.mp h]
    cases base.constant? <;> rfl
  · cases h

theorem size_pos (a : Expr) : 0 < a.size := by cases a <;> simp [size]

/-- A node whose operands have normal forms, in a number that its operator takes. -/
theorem normalize_op {bs : List Expr} (run : normalizeList as = .ok bs)
    (many : o.accepts bs.length = true) : (op o as).normalize = nodeNormal o bs := by
  rw [normalize, run]
  exact if_pos many

/-! ## 2. Powers that are kept together -/

/-- A base to an exponent. -/
def factor (b : Expr) (q : ℚ) : Expr := if q = 1 then b else op .pow [b, num (.ofRat q)]

@[simp] theorem factor_one : factor b 1 = b := if_pos rfl

theorem factor_of_ne_one (h : e.toRat ≠ 1) : factor b e.toRat = op .pow [b, num e] := by
  rw [factor, if_neg h, Coefficient.ofRat_toRat]

/-- **A power that neither the normal form nor the conversion takes apart.** -/
inductive Kept (b : Expr) (q : ℚ) : Prop
  | base (kind : b.isBase = true)
  | root (other : b.isOne = false) (fraction : q.den ≠ 1)
  | large (other : b.isOne = false) (n : ℕ) (value : q = n) (size : maxFoldedExponent < n)
      (operand : b.isNumber = true ∨ ∃ as, b = op .add as) (constant : (factor b q).constant? = none)
      (unfit : maxExponent < n ∨ ∃ p, Polynomial.convert b = .ok p ∧ p.fitsPower n = false)

/-- Of first powers, only those of bases are kept: sums are added and products multiplied. -/
theorem Kept.isBase (h : Kept b 1) : b.isBase = true := by
  cases h with
  | base kind => exact kind
  | root other fraction => exact absurd rfl fraction
  | large other n value size =>
    have one : n = 1 := by exact_mod_cast value.symm
    rw [one] at size
    exact absurd size (by decide)

/-- **The base of a factor**: its power to a positive exponent is kept together. -/
structure Base (b : Expr) (q : ℚ) : Prop where
  pos : 0 < q
  kept : Kept b q
  wellFormed : b.malformed? = none
  normal : b.normalize = .ok b

theorem base_var (x : String) (pos : 0 < q) : Base (var x) q := ⟨pos, .base rfl, rfl, by rw [normalize]⟩

/-- All powers of what is kept as a first power are kept. -/
theorem Base.power (h : Base b 1) (pos : 0 < q) : Base b q := ⟨pos, .base h.kept.isBase, h.wellFormed, h.normal⟩

theorem toWord?_of_fraction (fraction : e.toRat.den ≠ 1) : e.toWord? = none := by
  cases word : e.toWord? with
  | none => rfl
  | some n =>
    have value := Coefficient.toRat_of_toWord? word
    rw [value] at fraction
    exact absurd (Rat.den_intCast n) fraction

/-- A power of a number that is not multiplied out. -/
theorem numericPower_eq (other : c.isOne = false)
    (large : ∀ n, e.toWord? = some n → 0 ≤ n ∧ maxFoldedExponent < n.natAbs) :
    numericPower c e = .ok (op .pow [num c, num e]) := by
  unfold numericPower
  rw [other, if_neg Bool.false_ne_true]
  split
  · rfl
  · rename_i n word
    obtain ⟨natural, size⟩ := large n word
    rw [if_neg (by omega), if_pos size]

namespace Base

/-- A factor tells its base and its exponent. -/
theorem splitExponent_factor (h : Base b q) : (factor b q).splitExponent = (b, .ofRat q) := by
  by_cases one : q = 1
  · rw [one] at h ⊢
    rw [factor_one, splitExponent_of_isBase h.kept.isBase]
    exact congrArg (b, ·) (Coefficient.toRat_injective (by simp))
  · rw [factor, if_neg one]
    rfl

/-- A power that is kept together is not constant. -/
theorem constant?_factor (h : Base b q) : (factor b q).constant? = none := by
  have power (h : b.constant? = none) : (op .pow [b, num (.ofRat q)]).constant? = none := by
    rw [constant?, h]
    rfl
  cases h.kept with
  | base kind =>
    unfold factor
    split
    · exact constant?_of_isBase kind
    · exact power (constant?_of_isBase kind)
  | root other fraction =>
    have one : q ≠ 1 := fun one => fraction (one ▸ rfl)
    rw [factor, if_neg one]
    cases value : b.constant? with
    | none => exact power value
    | some c =>
      have word := toWord?_of_fraction (e := .ofRat q) (by rwa [Coefficient.toRat_ofRat])
      rw [constant?, value, constant?]
      show (Coefficient.ofRat q).toWord?.bind _ = none
      rw [word]
      rfl
  | large other n value size operand constant => exact constant

/-- A power of a base is a factor. -/
theorem powerOf_eq (h : Base b e.toRat) : powerOf (depth + 1) b e = .ok (Expr.factor b e.toRat) := by
  have zero : e.isZero = false := (Coefficient.isZero_eq_false_iff e).mpr h.pos.ne'
  unfold powerOf
  rw [zero, if_neg Bool.false_ne_true]
  by_cases one : e.toRat = 1
  · rw [if_pos (Coefficient.isOne_iff_toRat.mpr one), one, factor_one]
  rw [if_neg (mt Coefficient.isOne_iff_toRat.mp one), factor_of_ne_one one]
  cases h.kept with
  | base kind =>
    split
    · cases kind
    · cases kind
    · cases kind
    · rfl
  | root other fraction =>
    have integer : ¬ e.isInteger = true := by rwa [Coefficient.isInteger_iff]
    split
    · refine numericPower_eq other fun n word => ?_
      rw [toWord?_of_fraction fraction] at word
      cases word
    · rw [if_neg integer]
    · rw [if_neg integer]
    · rfl
  | large other n value size operand =>
    split
    · refine numericPower_eq other fun k word => ?_
      have same : (k : ℚ) = n := (Coefficient.toRat_of_toWord? word).symm.trans value
      have same : k = n := by exact_mod_cast same
      rw [same]
      exact ⟨Int.natCast_nonneg n, by rwa [Int.natAbs_natCast]⟩
    · obtain kind | ⟨as, kind⟩ := operand <;> cases kind
    · obtain kind | ⟨as, kind⟩ := operand <;> cases kind
    · rfl

end Base

/-! ## 3. Factors -/

/-- **A factor**: a power of a base. -/
structure Factor (f : Expr) : Prop where
  base : Base f.splitExponent.1 f.splitExponent.2.toRat
  eq : f = factor f.splitExponent.1 f.splitExponent.2.toRat

theorem Base.factor (h : Base b q) : Factor (factor b q) := by
  have split := h.splitExponent_factor
  exact ⟨by rwa [split, Coefficient.toRat_ofRat], by rw [split, Coefficient.toRat_ofRat]⟩

theorem Base.isFactor (h : Base b 1) : Factor b := by simpa using h.factor

namespace Factor

/-- Every property of factors is one of bases and of powers. -/
theorem cases_on {P : Expr → Prop} (h : Factor f) (base : ∀ b, b.isBase = true → Base b 1 → P b)
    (power : ∀ b (e : Coefficient), Base b e.toRat → e.toRat ≠ 1 → P (op .pow [b, num e])) :
    P f := by
  obtain ⟨hb, eq⟩ := h
  rw [eq]
  by_cases one : f.splitExponent.2.toRat = 1
  · rw [one] at hb ⊢
    rw [factor_one]
    exact base _ hb.kept.isBase hb
  · rw [factor_of_ne_one one]
    exact power _ _ hb one

theorem isOpen_eq (h : Factor f) : f.isOpen = false :=
  h.cases_on (fun _ kind _ => isOpen_of_isBase kind) fun _ _ _ _ => rfl

theorem isNumber_eq (h : Factor f) : f.isNumber = false := by
  have kind := h.isOpen_eq
  cases f with
  | num _ => cases kind
  | var _ | call _ _ | op _ _ => rfl

theorem factorsOf_eq (h : Factor f) : factorsOf f = [f] := by
  have kind := h.isOpen_eq
  unfold factorsOf
  split
  · cases kind
  · rfl

/-- Factors are not constant. -/
theorem constant?_eq (h : Factor f) : f.constant? = none := by
  rw [h.eq]
  exact h.base.constant?_factor

theorem wellFormed (h : Factor f) : f.malformed? = none :=
  h.cases_on (fun _ _ hb => hb.wellFormed) fun b e hb _ =>
    malformed?_op.mpr ⟨rfl, by simp [hb.wellFormed, malformed?]⟩

/-- **The power of a factor to an integer** is a factor of the same base, if it is kept together. -/
theorem powerNormal_eq (h : Factor f) (integer : e.isInteger = true)
    (total : Base f.splitExponent.1 (f.splitExponent.2.toRat * e.toRat)) :
    powerNormal f (num e) =
      .ok (Expr.factor f.splitExponent.1 (f.splitExponent.2.toRat * e.toRat)) := by
  show powerOf f.size f e = _
  revert total
  refine h.cases_on (P := fun f => Base f.splitExponent.1 (f.splitExponent.2.toRat * e.toRat) →
    powerOf f.size f e = .ok (Expr.factor f.splitExponent.1 (f.splitExponent.2.toRat * e.toRat))) ?_ ?_
  · intro b kind hb total
    obtain ⟨k, size⟩ := Nat.exists_eq_add_one.mpr b.size_pos
    rw [splitExponent_of_isBase kind, Coefficient.toRat_one, one_mul] at total ⊢
    rw [size]
    exact total.powerOf_eq
  · intro b d hb other total
    obtain ⟨k, size⟩ : ∃ k, (op .pow [b, num d]).size = k + 2 := ⟨b.size, by simp [size, sizeList]⟩
    have product : Base b (d * e).toRat := by
      rw [Coefficient.toRat_mul]
      exact total
    have nonzero : e.toRat ≠ 0 := fun zero => total.pos.ne' (by rw [zero, mul_zero])
    have zero : e.isZero = false := (Coefficient.isZero_eq_false_iff e).mpr nonzero
    have opened : powerOf (k + 1) b (d * e) = _ := product.powerOf_eq
    rw [Coefficient.toRat_mul] at opened
    rw [size]
    unfold powerOf
    dsimp only [splitExponent]
    rw [zero, if_neg Bool.false_ne_true]
    by_cases one : e.toRat = 1
    · rw [if_pos (Coefficient.isOne_iff_toRat.mpr one), one, mul_one, factor_of_ne_one other]
    · rw [if_neg (mt Coefficient.isOne_iff_toRat.mp one), if_pos integer]
      exact opened

/-- **A factor is its own normal form.** -/
theorem normalize_eq (h : Factor f) : f.normalize = .ok f := by
  refine h.cases_on (fun b _ hb => hb.normal) fun b e hb other => ?_
  obtain ⟨k, size⟩ := Nat.exists_eq_add_one.mpr b.size_pos
  have power : powerOf (k + 1) b e = _ := hb.powerOf_eq
  rw [← size, factor_of_ne_one other] at power
  have operands : normalizeList [b, num e] = .ok [b, num e] := by
    simp only [normalizeList, normalize, hb.normal, bind, Except.bind, pure, Except.pure]
  exact (normalize_op operands rfl).trans power

end Factor

end Expr

end Eliminant
