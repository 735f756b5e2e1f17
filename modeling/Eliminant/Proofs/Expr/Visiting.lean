import Eliminant.Proofs.Expr.Unordered

/-!
# Normal forms do not depend on the order in which like operands are visited

Like terms and like factors are collected in a table, and what the table holds is visited in some order. The
computation of a normal form is stated once more as a relation, in which every table that is met may be visited
in any order, each of them in its own, and in which no number bounds how many powers and products are opened
(`Expr.PowerRuns`, `Expr.ProductRuns`, `Expr.Runs`). Nothing else can come out of it than the normal form:

* `Expr.powerRuns_iff`, `Expr.productRuns_iff`: powers and products, by induction on the levels that are opened;
* **`Expr.normalize_unordered`**: whole expressions, and shuffled ones.
-/

namespace Eliminant

namespace Expr

/-! ## 1. Runs -/

/-- A base that stays under its exponent: no number, and no power or product to an integer exponent. -/
def StaysUnder (e : Coefficient) : Expr → Prop
  | num _ => False
  | op .pow [_, num _] | op .mul _ => e.isInteger = false
  | _ => True

mutual
/-- **What the power of a base may become**, if every table is visited in some order. -/
inductive PowerRuns : Expr → Coefficient → Except Failure Expr → Prop
  | zero {base : Expr} {e : Coefficient} : e.isZero = true → PowerRuns base e (.ok (num .one))
  | one {base : Expr} {e : Coefficient} : e.isZero = false → e.isOne = true → PowerRuns base e (.ok base)
  | number {b e : Coefficient} : e.isZero = false → e.isOne = false → PowerRuns (num b) e (numericPower b e)
  | power {b : Expr} {f e : Coefficient} {r : Except Failure Expr} : e.isZero = false → e.isOne = false →
      e.isInteger = true → PowerRuns b (f * e) r → PowerRuns (op .pow [b, num f]) e r
  | product {factors powers : List Expr} {e : Coefficient} {r : Except Failure Expr} : e.isZero = false →
      e.isOne = false → e.isInteger = true → PowersRun (factors.map (·, e)) (.ok powers) →
        ProductRuns powers r → PowerRuns (op .mul factors) e r
  | productFails {factors : List Expr} {e : Coefficient} {why : Failure} : e.isZero = false →
      e.isOne = false → e.isInteger = true → PowersRun (factors.map (·, e)) (.error why) →
        PowerRuns (op .mul factors) e (.error why)
  | stays {base : Expr} {e : Coefficient} : e.isZero = false → e.isOne = false → StaysUnder e base →
      PowerRuns base e (.ok (op .pow [base, num e]))

/-- What powers become, one after the other. -/
inductive PowersRun : List (Expr × Coefficient) → Except Failure (List Expr) → Prop
  | nil : PowersRun [] (.ok [])
  | cons {b a : Expr} {e : Coefficient} {ps : List (Expr × Coefficient)} {as : List Expr} :
      PowerRuns b e (.ok a) → PowersRun ps (.ok as) → PowersRun ((b, e) :: ps) (.ok (a :: as))
  | fails {b : Expr} {e : Coefficient} {ps : List (Expr × Coefficient)} {why : Failure} :
      PowerRuns b e (.error why) → PowersRun ((b, e) :: ps) (.error why)
  | laterFails {b a : Expr} {e : Coefficient} {ps : List (Expr × Coefficient)} {why : Failure} :
      PowerRuns b e (.ok a) → PowersRun ps (.error why) → PowersRun ((b, e) :: ps) (.error why)

/-- **What a product may become**, if its like factors are visited in some order. -/
inductive ProductRuns : List Expr → Except Failure Expr → Prop
  | zero {args : List Expr} : (numericPart (flatten .mul args)).isZero = true →
      ProductRuns args (.ok (num .zero))
  | powers {args powers : List Expr} {visited : Tally} : (numericPart (flatten .mul args)).isZero = false →
      visited.Perm (likeFactors (flatten .mul args)) → PowersRun visited (.ok powers) →
        ProductRuns args (.ok (productOfPowers (numericPart (flatten .mul args)) powers))
  | fails {args : List Expr} {visited : Tally} {why : Failure} :
      (numericPart (flatten .mul args)).isZero = false → visited.Perm (likeFactors (flatten .mul args)) →
        PowersRun visited (.error why) → ProductRuns args (.error why)
end

/-- **What a sum may become**, if its like terms are visited in some order. -/
inductive SumRuns : List Expr → Expr → Prop
  | visit {args : List Expr} {visited : Tally} : visited.Perm (likeTerms (flatten .add args)) →
      SumRuns args (sumOfTally (constantPart (flatten .add args)) visited)

/-- What a node with normal operands may become. -/
inductive NodeRuns : Operator → List Expr → Except Failure Expr → Prop
  | add {args : List Expr} {r : Expr} : SumRuns args r → NodeRuns .add args (.ok r)
  | mul {args : List Expr} {r : Except Failure Expr} : ProductRuns args r → NodeRuns .mul args r
  | sub {a b c r : Expr} : ProductRuns [minusOne, b] (.ok c) → SumRuns [a, c] r → NodeRuns .sub [a, b] (.ok r)
  | subFails {a b : Expr} {why : Failure} : ProductRuns [minusOne, b] (.error why) →
      NodeRuns .sub [a, b] (.error why)
  | neg {a : Expr} {r : Except Failure Expr} : ProductRuns [minusOne, a] r → NodeRuns .neg [a] r
  | div {a b c : Expr} {r : Except Failure Expr} : PowerRuns b (.ofInt (-1)) (.ok c) →
      ProductRuns [a, c] r → NodeRuns .div [a, b] r
  | divFails {a b : Expr} {why : Failure} : PowerRuns b (.ofInt (-1)) (.error why) →
      NodeRuns .div [a, b] (.error why)
  | pow {b : Expr} {e : Coefficient} {r : Except Failure Expr} : PowerRuns b e r → NodeRuns .pow [b, num e] r
  | opaquePow {b e : Expr} : e.isNumber = false →
      NodeRuns .pow [b, e] (.ok (if b.isOne then num .one else op .pow [b, e]))
  | subscript {args : List Expr} : NodeRuns .subscript args (.ok (op .subscript args))
  | prime {args : List Expr} : NodeRuns .prime args (.ok (op .prime args))

mutual
/-- **What an expression may become**, if every table that is met is visited in some order. -/
inductive Runs : Expr → Except Failure Expr → Prop
  | num {n : Coefficient} : Runs (num n) (.ok (num n))
  | var {x : String} : Runs (var x) (.ok (var x))
  | call {f : String} {args bs : List Expr} : RunsAll args (.ok bs) → Runs (call f args) (.ok (call f bs))
  | callFails {f : String} {args : List Expr} {why : Failure} : RunsAll args (.error why) →
      Runs (call f args) (.error why)
  | node {o : Operator} {args bs : List Expr} {r : Except Failure Expr} : RunsAll args (.ok bs) →
      o.accepts bs.length = true → NodeRuns o bs r → Runs (op o args) r
  | malformed {o : Operator} {args bs : List Expr} : RunsAll args (.ok bs) → o.accepts bs.length = false →
      Runs (op o args) (.ok (op o bs))
  | nodeFails {o : Operator} {args : List Expr} {why : Failure} : RunsAll args (.error why) →
      Runs (op o args) (.error why)

/-- What operands may become. -/
inductive RunsAll : List Expr → Except Failure (List Expr) → Prop
  | nil : RunsAll [] (.ok [])
  | cons {a b : Expr} {as bs : List Expr} : Runs a (.ok b) → RunsAll as (.ok bs) → RunsAll (a :: as) (.ok (b :: bs))
  | fails {a : Expr} {as : List Expr} {why : Failure} : Runs a (.error why) → RunsAll (a :: as) (.error why)
  | laterFails {a b : Expr} {as : List Expr} {why : Failure} : Runs a (.ok b) → RunsAll as (.error why) →
      RunsAll (a :: as) (.error why)
end

variable {base a b : Expr} {as bs args factors : List Expr} {e f c : Coefficient} {depth n : Nat}
  {ps : List (Expr × Coefficient)} {r : Except Failure Expr}

/-! ## 2. Powers, one level at a time -/

theorem powerOf_of_isZero (zero : e.isZero = true) : powerOf (depth + 1) base e = .ok (num .one) := by
  rw [powerOf.eq_def]
  exact if_pos zero

theorem powerOf_of_isOne (zero : e.isZero = false) (one : e.isOne = true) :
    powerOf (depth + 1) base e = .ok base := by
  rw [powerOf.eq_def]
  dsimp only
  rw [zero, if_neg Bool.false_ne_true, if_pos one]

section Proper

variable (zero : e.isZero = false) (one : e.isOne = false)

include zero one

theorem powerOf_num : powerOf (depth + 1) (num c) e = numericPower c e := by
  rw [powerOf, zero, if_neg Bool.false_ne_true, one, if_neg Bool.false_ne_true]

theorem powerOf_pow (integer : e.isInteger = true) :
    powerOf (depth + 1) (op .pow [b, num f]) e = powerOf depth b (f * e) := by
  rw [powerOf, zero, if_neg Bool.false_ne_true, one, if_neg Bool.false_ne_true, if_pos integer]

theorem powerOf_mul (integer : e.isInteger = true) : powerOf (depth + 1) (op .mul factors) e =
    (do productWith (powerOf depth) (← factors.mapM (powerOf depth · e))) := by
  rw [powerOf, zero, if_neg Bool.false_ne_true, one, if_neg Bool.false_ne_true, if_pos integer]

theorem powerOf_of_staysUnder (stays : StaysUnder e base) :
    powerOf (depth + 1) base e = .ok (op .pow [base, num e]) := by
  rw [powerOf.eq_def]
  dsimp only
  rw [zero, if_neg Bool.false_ne_true, one, if_neg Bool.false_ne_true]
  split
  · exact stays.elim
  · exact if_neg (Bool.eq_false_iff.mp stays)
  · exact if_neg (Bool.eq_false_iff.mp stays)
  · rfl

end Proper

/-- How the power of a base is taken. -/
inductive PowerCase : Expr → Coefficient → Prop
  | zero {base : Expr} {e : Coefficient} : e.isZero = true → PowerCase base e
  | one {base : Expr} {e : Coefficient} : e.isZero = false → e.isOne = true → PowerCase base e
  | number {c e : Coefficient} : e.isZero = false → e.isOne = false → PowerCase (num c) e
  | power {b : Expr} {f e : Coefficient} : e.isZero = false → e.isOne = false → e.isInteger = true →
      PowerCase (op .pow [b, num f]) e
  | product {factors : List Expr} {e : Coefficient} : e.isZero = false → e.isOne = false → e.isInteger = true →
      PowerCase (op .mul factors) e
  | stays {base : Expr} {e : Coefficient} : e.isZero = false → e.isOne = false → StaysUnder e base →
      PowerCase base e

theorem powerCase (base : Expr) (e : Coefficient) : PowerCase base e := by
  cases zero : e.isZero with
  | true => exact .zero zero
  | false =>
    cases one : e.isOne with
    | true => exact .one zero one
    | false =>
      by_cases under : StaysUnder e base
      · exact .stays zero one under
      · unfold StaysUnder at under
        split at under
        · exact .number zero one
        · exact .power zero one (Bool.not_eq_false _ ▸ under)
        · exact .product zero one (Bool.not_eq_false _ ▸ under)
        · exact absurd trivial under

/-! ## 3. The bases of what a power becomes -/

/-- An expression whose factors have bases of no more than `n` nodes. -/
def HasBases (n : Nat) (a : Expr) : Prop := ∀ f ∈ factorsOf a, f.splitExponent.1.size ≤ n

theorem size_le_of_mem (h : a ∈ as) : a.size ≤ sizeList as := by
  rw [sizeList_eq_sum]
  exact List.le_sum_of_mem (List.mem_map_of_mem h)

theorem size_splitExponent_le (a : Expr) : a.splitExponent.1.size ≤ a.size := by
  unfold splitExponent
  split
  · simp only [size, sizeList]
    omega
  · exact Nat.le_refl _

theorem HasBases.mono {m : Nat} (h : HasBases n a) (le : n ≤ m) : HasBases m a := fun f hf => (h f hf).trans le

theorem hasBases_of_size (h : a.size ≤ n) : HasBases n a := by
  intro f hf
  refine (size_splitExponent_le f).trans ?_
  unfold factorsOf at hf
  split at hf
  · have := size_le_of_mem hf
    simp only [size] at h
    omega
  · rw [List.mem_singleton.mp hf]
    exact h

/-- A factor of a product is again a product of small bases. -/
theorem hasBases_of_base (h : a.splitExponent.1.size ≤ n) : HasBases n a := by
  unfold splitExponent at h
  split at h
  · intro f hf
    rw [List.mem_singleton.mp hf]
    exact h
  · exact hasBases_of_size h

theorem HasBases.productOfPowers {powers : List Expr} (pos : 0 < n) (h : ∀ a ∈ powers, HasBases n a)
    (c : Coefficient) : HasBases n (productOfPowers c powers) := by
  have number (d : Coefficient) : HasBases n (num d) := hasBases_of_size pos
  have factors : ∀ f ∈ sort ((powers.flatMap factorsOf).filter (!·.isNumber)), f.splitExponent.1.size ≤ n := by
    intro f hf
    obtain ⟨a, ha, mem⟩ := List.mem_flatMap.mp (List.mem_of_mem_filter ((sort_perm _).mem_iff.mp hf))
    exact h a ha f mem
  have product (fs : List Expr) (hfs : ∀ f ∈ fs, f.splitExponent.1.size ≤ n) : HasBases n (op .mul fs) := hfs
  have withNumber (d : Coefficient) (fs : List Expr) (hfs : ∀ f ∈ fs, f.splitExponent.1.size ≤ n) :
      HasBases n (op .mul (num d :: fs)) := product _ (List.forall_mem_cons.mpr ⟨pos, hfs⟩)
  unfold Expr.productOfPowers
  dsimp only
  split
  · exact number _
  generalize sort _ = sorted at factors ⊢
  obtain _ | ⟨a, _ | ⟨b, rest⟩⟩ := sorted
  · exact number _
  · dsimp only
    split
    · exact hasBases_of_base (factors a List.mem_cons_self)
    · exact withNumber _ _ factors
  · dsimp only
    unfold attachCoefficient
    split
    · exact product _ factors
    · exact withNumber _ _ factors

theorem productWith_bases {power : Expr → Coefficient → Except Failure Expr} (pos : 0 < n)
    (powers : ∀ p ∈ likeFactors (flatten .mul args), Answers (fun _ => True) (HasBases n) (power p.1 p.2)) :
    Answers (fun _ => True) (HasBases n) (productWith power args) := by
  rw [productWith_eq_productOfPowers]
  split
  · exact hasBases_of_size pos
  · refine (Answers.mapM (R := fun _ a => HasBases n a) powers).bind fun as h => ?_
    exact HasBases.productOfPowers pos (fun a ha => (exists_of_mem_forall₂ h ha).elim fun _ h => h.2) _

/-- The collected bases of a product are those of its factors. -/
theorem size_le_of_mem_likeFactors (h : ∀ a ∈ args, HasBases n a) :
    ∀ p ∈ likeFactors (flatten .mul args), p.1.size ≤ n := by
  rw [likeFactors_eq, flatten_mul]
  refine Tally.forall_collect (fun _ _ _ h _ => h) (List.forall_mem_nil _) (List.forall_mem_map.mpr ?_)
  intro f hf
  obtain ⟨a, ha, mem⟩ := List.mem_flatMap.mp (List.mem_of_mem_filter hf)
  exact h a ha f mem

theorem numericPower_bases (c e : Coefficient) :
    Answers (fun _ => True) (HasBases (num c).size) (numericPower c e) := by
  have number (d : Coefficient) : HasBases (num c).size (num d) := hasBases_of_size (Nat.le_refl 1)
  have kept : HasBases (num c).size (op .pow [num c, num e]) := hasBases_of_base (Nat.le_refl 1)
  unfold numericPower
  split
  · exact number _
  split
  · exact kept
  split
  · trivial
  split
  · exact kept
  split
  · exact number _
  split
  · exact number _
  · exact kept

/-- The powers of the factors of a product. -/
theorem powers_bases {power : Expr → Except Failure Expr}
    (h : ∀ f ∈ factors, Answers (fun _ => True) (HasBases f.size) (power f)) :
    Answers (fun _ => True) (fun powers => ∀ a ∈ powers, HasBases (sizeList factors) a) (factors.mapM power) := by
  refine (Answers.mapM (R := fun f a => HasBases f.size a) h).imp fun powers each a ha => ?_
  obtain ⟨f, hf, bases⟩ := exists_of_mem_forall₂ each ha
  exact bases.mono (size_le_of_mem hf)

/-- **The bases of a power** have no more nodes than its base. -/
theorem powerOf_bases (depth : Nat) : ∀ (base : Expr) (e : Coefficient),
    Answers (fun _ => True) (HasBases base.size) (powerOf depth base e) := by
  induction depth with
  | zero => exact fun base e => hasBases_of_base (Nat.le_refl base.size)
  | succ depth ih =>
    intro base e
    cases powerCase base e with
    | zero zero =>
      rw [powerOf_of_isZero zero]
      exact hasBases_of_size (size_pos base)
    | one zero one =>
      rw [powerOf_of_isOne zero one]
      exact hasBases_of_size (Nat.le_refl base.size)
    | number zero one =>
      rw [powerOf_num zero one]
      exact numericPower_bases _ e
    | power zero one integer =>
      rw [powerOf_pow zero one integer]
      refine (ih _ _).imp fun r h => h.mono ?_
      simp only [size, sizeList]
      omega
    | product zero one integer =>
      rename_i factors
      rw [powerOf_mul zero one integer]
      refine (powers_bases fun f _ => ih f e).bind fun powers h => ?_
      have small : ∀ a ∈ powers, HasBases (op .mul factors).size a := fun a ha => (h a ha).mono (Nat.le_succ _)
      refine productWith_bases (size_pos _) fun p hp => (ih p.1 p.2).imp fun r h => h.mono ?_
      exact size_le_of_mem_likeFactors small p hp
    | stays zero one stays =>
      rw [powerOf_of_staysUnder zero one stays]
      exact hasBases_of_base (Nat.le_refl base.size)

/-! ## 4. Powers and products -/

section Levels

variable (ih : ∀ (base : Expr) (e : Coefficient) (r : Except Failure Expr), base.size ≤ depth →
  (PowerRuns base e r ↔ powerOf depth base e = r))

include ih

theorem powersRun_iff (small : ∀ p ∈ ps, p.1.size ≤ depth) {rs : Except Failure (List Expr)} :
    PowersRun ps rs ↔ (ps.mapM fun p => powerOf depth p.1 p.2) = rs := by
  induction ps generalizing rs with
  | nil =>
    constructor
    · intro h
      cases h
      rfl
    · rintro rfl
      exact .nil
  | cons p ps ihs =>
    obtain ⟨b, e⟩ := p
    obtain ⟨first, later⟩ := List.forall_mem_cons.mp small
    rw [List.mapM_cons]
    constructor
    · intro h
      cases h with
      | cons run runs =>
        rw [(ih _ _ _ first).mp run, (ihs later).mp runs]
        rfl
      | fails run =>
        rw [(ih _ _ _ first).mp run]
        rfl
      | laterFails run runs =>
        rw [(ih _ _ _ first).mp run, (ihs later).mp runs]
        rfl
    · rintro rfl
      cases power : powerOf depth b e with
      | error why => exact .fails ((ih _ _ _ first).mpr power)
      | ok a =>
        cases powers : ps.mapM fun p => powerOf depth p.1 p.2 with
        | error why => exact .laterFails ((ih _ _ _ first).mpr power) ((ihs later).mpr powers)
        | ok as => exact .cons ((ih _ _ _ first).mpr power) ((ihs later).mpr powers)

/-- **Whatever the order**, a product becomes the same. -/
theorem productRuns_of_powers (small : ∀ a ∈ args, HasBases depth a) :
    ProductRuns args r ↔ productWith (powerOf depth) args = r := by
  have bases := size_le_of_mem_likeFactors small
  rw [productWith_eq_productOfPowers]
  constructor
  · intro h
    -- the powers of the factors in the order in which they are visited
    have visit {visited : Tally} {rs : Except Failure (List Expr)}
        (perm : visited.Perm (likeFactors (flatten .mul args))) (runs : PowersRun visited rs) :
        ((likeFactors (flatten .mul args)).mapM (fun p => powerOf depth p.1 p.2) >>= fun as =>
          Except.ok (productOfPowers (numericPart (flatten .mul args)) as)) =
          (rs >>= fun as => .ok (productOfPowers (numericPart (flatten .mul args)) as)) := by
      rw [← (powersRun_iff ih fun p hp => bases p (perm.mem_iff.mp hp)).mp runs]
      refine (Reordered.mapM (fun p _ => ?_) perm.symm).bind_eq fun as bs same => ?_
      · exact (powerOf_keeps (I := .bare) depth p.1 p.2).imp fun _ _ => trivial
      · exact congrArg Except.ok (productOfPowers_eq_of_perm _ same)
    cases h with
    | zero zero => rw [if_pos zero]
    | powers nonzero perm runs =>
      rw [if_neg (Bool.eq_false_iff.mp nonzero)]
      exact visit perm runs
    | fails nonzero perm runs =>
      rw [if_neg (Bool.eq_false_iff.mp nonzero)]
      exact visit perm runs
  · rintro rfl
    split
    · rename_i zero
      exact .zero zero
    · rename_i nonzero
      have runs := (powersRun_iff ih bases).mpr rfl
      cases powers : (likeFactors (flatten .mul args)).mapM fun p => powerOf depth p.1 p.2 with
      | error why =>
        rw [powers] at runs
        exact .fails (Bool.not_eq_true _ ▸ nonzero) (List.Perm.refl _) runs
      | ok as =>
        rw [powers] at runs
        exact .powers (Bool.not_eq_true _ ▸ nonzero) (List.Perm.refl _) runs

end Levels

/-- **Whatever the order, and however many levels are opened**, the power of a base becomes the same. -/
theorem powerRuns_iff (depth : Nat) : ∀ (base : Expr) (e : Coefficient) (r : Except Failure Expr),
    base.size ≤ depth → (PowerRuns base e r ↔ powerOf depth base e = r) := by
  induction depth with
  | zero =>
    intro base e r small
    exact absurd (size_pos base) (Nat.not_lt.mpr small)
  | succ depth ih =>
    intro base e r small
    -- the factors of a product, raised one by one
    have raised {factors : List Expr} (small : (op .mul factors).size ≤ depth + 1)
        {rs : Except Failure (List Expr)} :
        PowersRun (factors.map (·, e)) rs ↔ factors.mapM (powerOf depth · e) = rs := by
      rw [powersRun_iff ih, List.mapM_map]
      · exact Iff.rfl
      · refine List.forall_mem_map.mpr fun f hf => (size_le_of_mem hf).trans ?_
        simpa [size] using small
    have powers {factors as : List Expr} (small : (op .mul factors).size ≤ depth + 1)
        (run : factors.mapM (powerOf depth · e) = .ok as) : ∀ a ∈ as, HasBases depth a := by
      intro a ha
      refine ((powers_bases fun f _ => powerOf_bases depth f e).of_ok run a ha).mono ?_
      simpa [size] using small
    constructor
    · intro h
      cases h with
      | zero zero => exact powerOf_of_isZero zero
      | one zero one => exact powerOf_of_isOne zero one
      | number zero one => exact powerOf_num zero one
      | power zero one integer run =>
        rw [powerOf_pow zero one integer]
        refine (ih _ _ _ ?_).mp run
        simp only [size, sizeList] at small
        omega
      | product zero one integer runs run =>
        have runs := (raised small).mp runs
        rw [powerOf_mul zero one integer, runs]
        exact (productRuns_of_powers ih (powers small runs)).mp run
      | productFails zero one integer runs =>
        rw [powerOf_mul zero one integer, (raised small).mp runs]
        rfl
      | stays zero one stays => exact powerOf_of_staysUnder zero one stays
    · rintro rfl
      cases powerCase base e with
      | zero zero =>
        rw [powerOf_of_isZero zero]
        exact .zero zero
      | one zero one =>
        rw [powerOf_of_isOne zero one]
        exact .one zero one
      | number zero one =>
        rw [powerOf_num zero one]
        exact .number zero one
      | power zero one integer =>
        rw [powerOf_pow zero one integer]
        refine .power zero one integer ((ih _ _ _ ?_).mpr rfl)
        simp only [size, sizeList] at small
        omega
      | product zero one integer =>
        rename_i factors
        rw [powerOf_mul zero one integer]
        cases run : factors.mapM (powerOf depth · e) with
        | error why => exact .productFails zero one integer ((raised small).mpr run)
        | ok as =>
          refine .product zero one integer ((raised small).mpr run) ?_
          exact (productRuns_of_powers ih (powers small run)).mpr rfl
      | stays zero one stays =>
        rw [powerOf_of_staysUnder zero one stays]
        exact .stays zero one stays

theorem productRuns_iff : ProductRuns args r ↔ productNormal args = r :=
  productRuns_of_powers (powerRuns_iff _) fun _ ha => hasBases_of_size (size_le_of_mem ha)

theorem sumRuns_iff {s : Expr} : SumRuns args s ↔ sumNormal args = s := by
  rw [sumNormal_eq_sumOfTally]
  constructor
  · intro h
    cases h with
    | visit perm => exact (sumOfTally_eq_of_perm _ perm).symm
  · rintro rfl
    exact .visit (List.Perm.refl _)

/-! ## 5. Expressions -/

theorem powerRuns_number {e : Coefficient} : PowerRuns b e r ↔ powerNormal b (num e) = r :=
  powerRuns_iff b.size b e r (Nat.le_refl _)

theorem powerNormal_of_not_number {e : Expr} (other : e.isNumber = false) :
    powerNormal b e = .ok (if b.isOne then num .one else op .pow [b, e]) := by
  cases e with
  | num e => cases other
  | var _ | call _ _ | op _ _ => rfl

theorem eq_of_accepts {o : Operator} {k : Nat} (arity : o.arity = some k) (accepts : o.accepts n = true) :
    n = k := by
  rw [Operator.accepts, arity] at accepts
  exact (beq_iff_eq.mp accepts).symm

theorem nodeRuns_iff {o : Operator} (accepts : o.accepts args.length = true) :
    NodeRuns o args r ↔ nodeNormal o args = r := by
  constructor
  · intro h
    cases h with
    | add run => exact congrArg Except.ok (sumRuns_iff.mp run)
    | mul run => exact productRuns_iff.mp run
    | sub product sum =>
      rw [nodeNormal, productRuns_iff.mp product]
      exact congrArg Except.ok (sumRuns_iff.mp sum)
    | subFails product =>
      rw [nodeNormal, productRuns_iff.mp product]
      rfl
    | neg run => exact productRuns_iff.mp run
    | div power product =>
      rw [nodeNormal, show powerNormal _ minusOne = _ from powerRuns_number.mp power]
      exact productRuns_iff.mp product
    | divFails power =>
      rw [nodeNormal, show powerNormal _ minusOne = _ from powerRuns_number.mp power]
      rfl
    | pow run => exact powerRuns_number.mp run
    | opaquePow other => exact powerNormal_of_not_number other
    | subscript => rfl
    | prime => rfl
  · rintro rfl
    cases o with
    | add => exact .add (sumRuns_iff.mpr rfl)
    | mul => exact .mul (productRuns_iff.mpr rfl)
    | sub =>
      obtain ⟨a, b, rfl⟩ := List.length_eq_two.mp (eq_of_accepts rfl accepts)
      rw [nodeNormal]
      cases product : productNormal [minusOne, b] with
      | error why => exact .subFails (productRuns_iff.mpr product)
      | ok c => exact .sub (productRuns_iff.mpr product) (sumRuns_iff.mpr rfl)
    | neg =>
      obtain ⟨a, rfl⟩ := List.length_eq_one_iff.mp (eq_of_accepts rfl accepts)
      exact .neg (productRuns_iff.mpr rfl)
    | div =>
      obtain ⟨a, b, rfl⟩ := List.length_eq_two.mp (eq_of_accepts rfl accepts)
      rw [nodeNormal]
      cases power : powerNormal b minusOne with
      | error why => exact .divFails (powerRuns_number.mpr power)
      | ok c => exact .div (powerRuns_number.mpr power) (productRuns_iff.mpr rfl)
    | pow =>
      obtain ⟨b, e, rfl⟩ := List.length_eq_two.mp (eq_of_accepts rfl accepts)
      rw [nodeNormal]
      cases number : e.isNumber with
      | false =>
        rw [powerNormal_of_not_number number]
        exact .opaquePow number
      | true =>
        cases e with
        | num e => exact .pow (powerRuns_number.mpr rfl)
        | var _ | call _ _ | op _ _ => cases number
    | subscript => exact .subscript
    | prime => exact .prime

mutual
/-- **Nothing but its normal form** comes out of an expression. -/
theorem runs_iff : ∀ (a : Expr) {r : Except Failure Expr}, Runs a r ↔ normalize a = r
  | num n, r => by
    rw [normalize]
    constructor
    · intro h
      cases h
      rfl
    · rintro rfl
      exact .num
  | var x, r => by
    rw [normalize]
    constructor
    · intro h
      cases h
      rfl
    · rintro rfl
      exact .var
  | call f args, r => by
    rw [normalize]
    constructor
    · intro h
      cases h with
      | call runs => rw [(runsAll_iff args).mp runs]; rfl
      | callFails runs => rw [(runsAll_iff args).mp runs]; rfl
    · rintro rfl
      cases all : normalizeList args with
      | error why => exact .callFails ((runsAll_iff args).mpr all)
      | ok bs => exact .call ((runsAll_iff args).mpr all)
  | op o args, r => by
    rw [normalize]
    constructor
    · intro h
      cases h with
      | node runs accepts run =>
        rw [(runsAll_iff args).mp runs]
        exact (if_pos accepts).trans ((nodeRuns_iff accepts).mp run)
      | malformed runs refuses =>
        rw [(runsAll_iff args).mp runs]
        exact if_neg (Bool.eq_false_iff.mp refuses)
      | nodeFails runs =>
        rw [(runsAll_iff args).mp runs]
        rfl
    · rintro rfl
      cases all : normalizeList args with
      | error why => exact .nodeFails ((runsAll_iff args).mpr all)
      | ok bs =>
        show Runs _ (if o.accepts bs.length then nodeNormal o bs else .ok (op o bs))
        split
        · rename_i accepts
          exact .node ((runsAll_iff args).mpr all) accepts ((nodeRuns_iff accepts).mpr rfl)
        · rename_i refuses
          exact .malformed ((runsAll_iff args).mpr all) (Bool.not_eq_true _ ▸ refuses)

theorem runsAll_iff : ∀ (as : List Expr) {rs : Except Failure (List Expr)},
    RunsAll as rs ↔ normalizeList as = rs
  | [], rs => by
    rw [normalizeList]
    constructor
    · intro h
      cases h
      rfl
    · rintro rfl
      exact .nil
  | a :: as, rs => by
    rw [normalizeList]
    constructor
    · intro h
      cases h with
      | cons run runs => rw [(runs_iff a).mp run, (runsAll_iff as).mp runs]; rfl
      | fails run => rw [(runs_iff a).mp run]; rfl
      | laterFails run runs => rw [(runs_iff a).mp run, (runsAll_iff as).mp runs]; rfl
    · rintro rfl
      cases first : normalize a with
      | error why => exact .fails ((runs_iff a).mpr first)
      | ok b =>
        cases later : normalizeList as with
        | error why => exact .laterFails ((runs_iff a).mpr first) ((runsAll_iff as).mpr later)
        | ok bs => exact .cons ((runs_iff a).mpr first) ((runsAll_iff as).mpr later)
end

/-- **Normal forms do not depend on any order.** Shuffled expressions have the same normal form, or none of them
    has one. Sums and products become the same in whatever order their like terms and factors are visited, and
    so do whole expressions, every table of theirs visited in an order of its own. -/
theorem normalize_unordered : (∀ a b, Shuffled a b → normalize a = normalize b) ∧
    (∀ args r, SumRuns args r ↔ sumNormal args = r) ∧
      (∀ args r, ProductRuns args r ↔ productNormal args = r) ∧ ∀ a r, Runs a r ↔ normalize a = r :=
  ⟨fun _ _ => Shuffled.normalize_eq, fun _ _ => sumRuns_iff, fun _ _ => productRuns_iff, fun a _ => runs_iff a⟩

/-- `f(y*x)+2` is shuffled from `2+f(x*y)`; and the factors of `x*y` may be visited from behind. -/
theorem normalize_unordered_at :
    let x := var "x"
    let y := var "y"
    let a := op .add [int 2, call "f" [op .mul [x, y]]]
    let b := op .add [call "f" [op .mul [y, x]], int 2]
    Shuffled a b ∧ normalize a = normalize b ∧ normalize b = .ok a ∧
      ProductRuns [x, y] (.ok (op .mul [x, y])) ∧ productNormal [x, y] = .ok (op .mul [x, y]) := by
  intro x y a b
  have inner : Shuffled (call "f" [op .mul [x, y]]) (call "f" [op .mul [y, x]]) :=
    .argument "f" [] [] (.product (.swap y x []))
  have shuffled : Shuffled a b := .trans (.operand .add [int 2] [] inner) (.sum (.swap _ _ []))
  have normal : normalize b = .ok a := by cbv
  have table : likeFactors (flatten .mul [x, y]) = [(x, .one), (y, .one)] := by cbv
  have visited : List.Perm [(y, .one), (x, .one)] (likeFactors (flatten .mul [x, y])) := table ▸ .swap _ _ []
  have run : ProductRuns [x, y] (.ok (op .mul [x, y])) :=
    .powers rfl visited (.cons (.one rfl rfl) (.cons (.one rfl rfl) .nil))
  exact ⟨shuffled, normalize_unordered.1 a b shuffled, normal, run, (normalize_unordered.2.2.1 _ _).mp run⟩

end Expr

end Eliminant
