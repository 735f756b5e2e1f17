import Eliminant.Proofs.Polynomial.Degree
import Eliminant.Proofs.Polynomial.WellFormed

/-!
# The list of variables does not matter

A polynomial lists its variables, in some order and possibly more of them than occur. What it stands for is a
map from monomials in named variables to coefficients; of this map

* `Polynomial.Sound.stores_iff`: the terms are exactly the entries that are not zero;
* `Polynomial.Sound.mem_prune_vars_iff`: the variables that occur are those that pruning keeps;
* `Polynomial.equal_equivalence`: equality of maps is an equivalence, so the test for it is one;
* **`Polynomial.listing_spec`**: aligning, aligning a whole list and pruning keep it.
-/

namespace Eliminant

namespace Polynomial

variable {p q : Polynomial} {m : Variable →₀ ℕ} {c : ℚ} {v : Variable}

/-! ## 1. The map from monomials to coefficients -/

/-- One of the terms of `p` is the monomial `m` with the coefficient `c`. -/
def Stores (p : Polynomial) (m : Variable →₀ ℕ) (c : ℚ) : Prop :=
  ∃ t ∈ p.terms, monomialOf p.vars t.exps = m ∧ t.coeff.toRat = c

/-- **The terms are the entries of the map that are not zero.** -/
theorem Sound.stores_iff (h : p.Sound) : p.Stores m c ↔ c ≠ 0 ∧ p.toMv.coeff m = c := by
  have desc : p.terms.Descending p.vars.length := h.consistent
  constructor
  · intro stored
    obtain ⟨t, ht, rfl, rfl⟩ := stored
    exact ⟨desc.coeff_ne_zero ht, h.coeff_toMv ht⟩
  · intro entry
    obtain ⟨some, rfl⟩ := entry
    obtain ⟨t, ht, rfl⟩ := h.mem_support_iff.mp (MvPolynomial.mem_support_iff.mpr some)
    exact ⟨t, ht, rfl, (h.coeff_toMv ht).symm⟩

/-! ## 2. The variables that occur -/

/-- **Pruning keeps the variables that occur.** -/
theorem Sound.mem_prune_vars_iff (h : p.Sound) : v ∈ p.prune.vars ↔ v ∈ p.toMv.vars := by
  rw [MvPolynomial.mem_vars_iff_mem_support]
  constructor
  · intro kept
    obtain ⟨i, here, t, ht, occurs⟩ := mem_prune_vars.mp kept
    obtain ⟨hi, rfl⟩ := List.getElem?_eq_some_iff.mp here
    refine ⟨monomialOf p.vars t.exps, h.mem_support_iff.mpr ⟨t, ht, rfl⟩, Finsupp.mem_support_iff.mpr ?_⟩
    have exponent : monomialOf p.vars t.exps p.vars[i] = t.exps.getD i 0 := monomialOf_get h.nodup _ ⟨i, hi⟩
    rw [exponent]
    exact occurs.ne'
  · intro occurring
    obtain ⟨e, he, occurs⟩ := occurring
    rw [← h.wellFormed.toMv_prune] at he
    exact h.prune.mem_vars he (Finsupp.mem_support_iff.mp occurs)

/-! ## 3. Listings -/

/-- Equality of polynomials, whatever their lists of variables, is an equivalence. -/
theorem equal_equivalence : Equivalence fun p q : {p : Polynomial // p.Sound} => p.1.equal q.1 = true where
  refl p := (equal_iff p.2 p.2).mpr rfl
  symm {p q} h := (equal_iff q.2 p.2).mpr ((equal_iff p.2 q.2).mp h).symm
  trans {p q r} h h' := (equal_iff p.2 r.2).mpr (((equal_iff p.2 q.2).mp h).trans ((equal_iff q.2 r.2).mp h'))

/-- **The list of variables does not matter.** What a polynomial stands for is the map that its terms store.
    Two polynomials are aligned to one list that has exactly their variables, each once, and sorted if theirs
    are; so are all those of a list; pruning leaves the variables that occur. All of this keeps consistency and
    the map, and polynomials are equal exactly if their maps are. -/
theorem listing_spec (hp : p.Sound) (hq : q.Sound) {ps : List Polynomial} (hps : ∀ r ∈ ps, r.Sound) :
    (∀ m c, p.Stores m c ↔ c ≠ 0 ∧ p.toMv.coeff m = c) ∧
      Aligned p q (align p q) ∧
      (∃ vars : List Variable, vars.Nodup ∧ (∀ v, v ∈ vars ↔ ∃ r ∈ ps, v ∈ r.vars) ∧
        List.Forall₂ (Over vars) ps (alignAll ps)) ∧
      (p.prune.Sound ∧ p.prune.toMv = p.toMv ∧ ∀ v, v ∈ p.prune.vars ↔ v ∈ p.toMv.vars) ∧
      (p.equal q = true ↔ p.toMv = q.toMv) ∧
      Equivalence fun r s : {r : Polynomial // r.Sound} => r.1.equal s.1 = true := by
  obtain ⟨all, mem⟩ := alignAll_spec hps
  exact ⟨fun m c => hp.stores_iff, align_spec hp hq, ⟨sharedVars (alignAll ps), nodup_sharedVars hps, mem, all⟩,
    ⟨hp.prune, hp.wellFormed.toMv_prune, fun v => hp.mem_prune_vars_iff⟩, equal_iff hp hq, equal_equivalence⟩

/-- `x+2*y` over two lists, the second neither sorted nor free of variables that do not occur. -/
theorem listing_spec_at :
    let p : Polynomial := ⟨[.symbol "x", .symbol "y"], [⟨.one, [1, 0]⟩, ⟨.ofInt 2, [0, 1]⟩]⟩
    let q : Polynomial :=
      ⟨[.symbol "y", .kernel (.call "f" [.var "x"]), .symbol "x"], [⟨.ofInt 2, [1, 0, 0]⟩, ⟨.one, [0, 0, 1]⟩]⟩
    let ps := [q, p, ofConstant (.ofInt 7)]
    (p.Sound ∧ q.Sound ∧ ∀ r ∈ ps, r.Sound) ∧ Aligned p q (align p q) ∧
      (∃ vars : List Variable, vars.Nodup ∧ (∀ v, v ∈ vars ↔ ∃ r ∈ ps, v ∈ r.vars) ∧
        List.Forall₂ (Over vars) ps (alignAll ps)) ∧
      p.equal q = true ∧ p.toMv = q.toMv := by
  intro p q ps
  have sound : p.Sound ∧ q.Sound ∧ ∀ r ∈ ps, r.Sound := by decide
  have same : p.equal q = true := by decide
  obtain ⟨-, aligned, shared, -, equal, -⟩ := listing_spec sound.1 sound.2.1 sound.2.2
  exact ⟨sound, aligned, shared, same, equal.mp same⟩

end Polynomial

end Eliminant
