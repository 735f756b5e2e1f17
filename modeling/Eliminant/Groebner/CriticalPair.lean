import Eliminant.Division

/-!
# Critical pairs

Two sums whose leading terms share a variable form a critical pair: the combination in which the
leading terms cancel, the **S-polynomial**, may lead to a term that neither of them leads to. A
pending pair keeps what is left of its S-polynomial after division by the basis, and how large the
basis was at that division.

* `Terms.sPolynomial` is `LT(g) / m * f - LT(f) / m * g` with `m` the greatest common divisor of the
  leading terms;
* `Strategy.compare` ranks pending pairs, and the first of the least ranked is treated next;
* `swapRemove` takes an entry out of a list and puts the last one in its place. It keeps the other
  entries (`totalWeight_swapRemove`), but not their order, on which the choice among equals depends.
-/

namespace Eliminant

/-! ## 1. S-polynomials -/

namespace Terms

/-- The S-polynomial of two sums with the given leading terms. -/
def sPolynomial (lf lg : Term) (f g : Terms) : Except Failure Terms := do
  let m := lf.gcd lg
  let forF ← lg.div m
  let forG ← lf.div m
  let a ← f.mulTerm forF
  let b ← g.mulTerm forG
  return a.sub b

end Terms

/-- The S-polynomial of two polynomials. -/
def Polynomial.sPolynomial (f g : Polynomial) : Except Failure Polynomial := do
  let (f, g) := align f g
  return ⟨f.vars, ← Terms.sPolynomial f.leadTerm g.leadTerm f.terms g.terms⟩

/-! ## 2. Pairs and their ranking -/

/-- A pair of basis elements with what is left of their S-polynomial. -/
structure CriticalPair where
  /-- the numbers of the two elements -/
  first : Nat
  second : Nat
  /-- the least common multiple of the leading rows -/
  lcm : Exponents
  /-- the remainder of the S-polynomial, not zero -/
  remainder : Terms
  /-- the size of the basis that the remainder was divided by -/
  reducedAgainst : Nat

/-- The order in which pending pairs are treated. -/
inductive Strategy where
  /-- by the leading row of the remainder, then by the least common multiple -/
  | lowestLead
  /-- by the least common multiple, then by the leading row of the remainder -/
  | normal
  deriving DecidableEq, Repr

/-- The ranking of pending pairs. -/
def Strategy.compare (s : Strategy) (p q : CriticalPair) : Ordering :=
  let byLead := p.remainder.leadRow.compare q.remainder.leadRow
  let byLcm := p.lcm.compare q.lcm
  match s with
  | lowestLead => byLead.then byLcm
  | normal => byLcm.then byLead

/-- The place of the first of the least entries among `best`, which has the place `place`, and the
    entries from the place `next` on. -/
def leastFrom {α : Type} (cmp : α → α → Ordering) (place : Nat) (best : α) (next : Nat) :
    List α → Nat
  | [] => place
  | a :: as =>
    if cmp a best = .lt then leastFrom cmp next a (next + 1) as
    else leastFrom cmp place best (next + 1) as

/-- The place of the first of the least entries. -/
def firstLeast {α : Type} (cmp : α → α → Ordering) : List α → Option Nat
  | [] => none
  | a :: as => some (leastFrom cmp 0 a 1 as)

/-! ## 3. Taking a pair out -/

/-- Takes out the entry at place `i` and puts the last entry in its place. -/
def swapRemove {α : Type} (as : List α) (i : Nat) : List α :=
  match as.getLast? with
  | none => []
  | some z => (as.set i z).dropLast

/-- The sum of the weights of the entries of a list. -/
def totalWeight {α : Type} (w : α → Nat) : List α → Nat
  | [] => 0
  | a :: as => w a + totalWeight w as

theorem totalWeight_append {α : Type} (w : α → Nat) (bs : List α) :
    ∀ as : List α, totalWeight w (as ++ bs) = totalWeight w as + totalWeight w bs
  | [] => (Nat.zero_add _).symm
  | a :: as => by
    have ih := totalWeight_append w bs as
    simp only [List.cons_append, totalWeight]
    omega

theorem totalWeight_set {α : Type} (w : α → Nat) (z : α) : ∀ {as : List α} {i : Nat} {a : α},
    as[i]? = some a → totalWeight w (as.set i z) + w a = totalWeight w as + w z
  | [], i, a, h => by simp at h
  | b :: as, 0, a, h => by
    have : b = a := by simpa using h
    subst this
    simp only [List.set_cons_zero, totalWeight]
    omega
  | b :: as, i + 1, a, h => by
    have here : as[i]? = some a := by simpa using h
    have ih := totalWeight_set w z here
    simp only [List.set_cons_succ, totalWeight]
    omega

/-- **Only the entry at its place is lost.** -/
theorem totalWeight_swapRemove {α : Type} (w : α → Nat) {as : List α} {i : Nat} {a : α}
    (h : as[i]? = some a) : totalWeight w (swapRemove as i) + w a = totalWeight w as := by
  rcases List.eq_nil_or_concat as with rfl | ⟨front, z, rfl⟩
  · simp at h
  · rw [List.concat_eq_append] at h ⊢
    have last : (front ++ [z]).getLast? = some z := by simp
    have removed : swapRemove (front ++ [z]) i = ((front ++ [z]).set i z).dropLast := by
      simp only [swapRemove, last]
    rw [removed, List.set_append]
    by_cases hi : i < front.length
    · rw [if_pos hi, List.dropLast_concat]
      have hf : front[i]? = some a := by
        rw [List.getElem?_append_left hi] at h
        exact h
      have := totalWeight_set w z hf
      simp only [totalWeight_append, totalWeight]
      omega
    · rw [if_neg hi]
      have hz : a = z ∧ i - front.length = 0 := by
        rw [List.getElem?_append_right (by omega)] at h
        cases hj : i - front.length with
        | zero => simp [hj] at h; exact ⟨h.symm, rfl⟩
        | succ j => simp [hj] at h
      rw [hz.1, hz.2]
      simp [totalWeight_append, totalWeight]

end Eliminant
