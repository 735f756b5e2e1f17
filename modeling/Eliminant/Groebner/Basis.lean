import Eliminant.Groebner.CriticalPair
import Eliminant.Groebner.Reduction
import Eliminant.Order.Dickson

/-!
# Groebner bases by completion

A reduced system becomes a Groebner basis by completion: the remainders of the S-polynomials of its
members are added to it until no pair is pending. Pairs whose leading terms share no variable are
skipped, for their S-polynomials always reduce to zero.

* `Settings`: how much effort is allowed. Before each reduction of an S-polynomial the settings are
  asked (`Settings.permit`), first for cancellation and then for the budget.
* `Completion`: basis, pending pairs and statistics; `Completion.step` treats one pair. A pair whose
  remainder is out of date, because the basis has grown since, is divided again and put back;
  otherwise its remainder joins the basis.
* `Completion.run` treats pairs until none is pending, or a constant shows that the system generates
  everything. `Completion.step_descends` is the reason why that ends: the leading rows of the basis
  are extended by a row that none of them divides, or the pending pairs get fewer or less outdated.
* `Polynomial.groebnerBasis`: the reduced Groebner basis of a list of polynomials;
  `Polynomial.isGroebnerBasis`: whether every S-polynomial reduces to zero.
-/

namespace Eliminant

/-! ## 1. Effort -/

/-- How much effort a completion may take. -/
structure Settings where
  /-- the number of reductions of S-polynomials; `none` is no limit -/
  maxSteps : Option Nat := some 100000
  /-- whether the computation is cancelled -/
  abort : Bool := false
  deriving DecidableEq, Repr

/-- Whether one more reduction is admitted after `steps` of them. -/
def Settings.permit (settings : Settings) (steps : Nat) : Except Failure Unit :=
  if settings.abort then .error .aborted
  else
    match settings.maxSteps with
    | some m => if m ≤ steps then .error (.budgetExceeded steps) else .ok ()
    | none => .ok ()

/-- What happened during a completion. -/
structure Statistics where
  pairsComputed : Nat := 0
  pairsSkipped : Nat := 0
  zeroReductions : Nat := 0
  polynomialsAdded : Nat := 0
  steps : Nat := 0
  deriving DecidableEq, Repr

/-! ## 2. Pending pairs -/

/-- The pending pairs and the statistics. -/
structure Queue where
  pairs : List CriticalPair := []
  stats : Statistics := {}

namespace Queue

/-- Considers the pair of `f` and `g`, the elements number `i` and `j` of the basis. -/
def addPair (settings : Settings) (basis : List Terms) (j : Nat) (g : Terms) (q : Queue)
    (numbered : Terms × Nat) : Except Failure Queue :=
  let (f, i) := numbered
  if f.leadRow.coprime g.leadRow then
    .ok { q with stats := { q.stats with pairsSkipped := q.stats.pairsSkipped + 1 } }
  else do
    settings.permit q.stats.steps
    let stats := { q.stats with
      steps := q.stats.steps + 1
      pairsComputed := q.stats.pairsComputed + 1 }
    let s ← Terms.sPolynomial ⟨f.leadCoeff, f.leadRow⟩ ⟨g.leadCoeff, g.leadRow⟩ f g
    let r ← s.remainder basis
    if r.isEmpty then
      return { q with stats := { stats with zeroReductions := stats.zeroReductions + 1 } }
    else
      let pair : CriticalPair := {
        first := i
        second := j
        lcm := f.leadRow.lcm g.leadRow
        remainder := r
        reducedAgainst := basis.length }
      return { pairs := q.pairs ++ [pair], stats := stats }

/-- Considers the pairs of `g`, the element number `j` of the basis, with the elements before it. -/
def addPairs (settings : Settings) (basis : List Terms) (q : Queue) (numbered : Terms × Nat) :
    Except Failure Queue :=
  let (g, j) := numbered
  (basis.take j).zipIdx.foldlM (addPair settings basis j g) q

/-- Considers all pairs of a basis. -/
def ofBasis (settings : Settings) (basis : List Terms) : Except Failure Queue :=
  basis.zipIdx.foldlM (addPairs settings basis) {}

end Queue

/-! ## 3. Completion -/

/-- The state of a completion. -/
structure Completion where
  basis : List Terms
  queue : Queue

/-- What a step of a completion leads to. -/
inductive Progress where
  | finished (state : Completion)
  | next (state : Completion)

namespace Completion

/-- Divides the outdated remainder of the pair at place `i` by the present basis. -/
def review (settings : Settings) (s : Completion) (i : Nat) (pair : CriticalPair) :
    Except Failure Progress := do
  settings.permit s.queue.stats.steps
  let stats := { s.queue.stats with steps := s.queue.stats.steps + 1 }
  let others := swapRemove s.queue.pairs i
  let r ← pair.remainder.remainder s.basis
  if r.isEmpty then
    let stats := { stats with zeroReductions := stats.zeroReductions + 1 }
    return .next ⟨s.basis, ⟨others, stats⟩⟩
  else
    let pair := { pair with remainder := r, reducedAgainst := s.basis.length }
    return .next ⟨s.basis, ⟨others ++ [pair], stats⟩⟩

/-- Adds the remainder of the pair at place `i`, made monic, to the basis. A constant ends the
    completion. -/
def adopt (settings : Settings) (s : Completion) (i : Nat) (h : Terms) : Except Failure Progress :=
  if h.isConstant then .ok (.finished ⟨[h], ⟨[], s.queue.stats⟩⟩)
  else if Dickson.IsNew (s.basis.map Terms.leadRow) h.leadRow then do
    let basis := s.basis ++ [h]
    let stats := { s.queue.stats with polynomialsAdded := s.queue.stats.polynomialsAdded + 1 }
    let queue ← Queue.addPairs settings basis ⟨swapRemove s.queue.pairs i, stats⟩
      (h, s.basis.length)
    return .next ⟨basis, queue⟩
  else .error .unordered

/-- Treats the pending pair that the strategy ranks first. -/
def step (settings : Settings) (strategy : Strategy) (s : Completion) : Except Failure Progress :=
  match firstLeast strategy.compare s.queue.pairs with
  | none => .ok (.finished s)
  | some i =>
    match s.queue.pairs[i]? with
    | none => .ok (.finished s)
    | some pair =>
      if pair.reducedAgainst < s.basis.length then review settings s i pair
      else adopt settings s i pair.remainder.monic

/-! ### Why it ends -/

/-- An outdated pair counts twice, for it may come back once. -/
def weight (size : Nat) (pair : CriticalPair) : Nat := if pair.reducedAgainst < size then 2 else 1

/-- The pending pairs, the outdated ones twice. -/
def load (s : Completion) : Nat := totalWeight (weight s.basis.length) s.queue.pairs

/-- The basis has grown by an element with a new leading row, or less is pending. -/
def Descends (t s : Completion) : Prop :=
  Prod.Lex Dickson.Extends (· < ·) (t.basis.map Terms.leadRow, t.load)
    (s.basis.map Terms.leadRow, s.load)

theorem descends_wf : WellFounded Descends :=
  InvImage.wf (fun s : Completion => (s.basis.map Terms.leadRow, s.load))
    (Prod.lex ⟨_, Dickson.extends_wellFounded⟩ ⟨_, Nat.lt_wfRel.wf⟩).wf

theorem descends_of_load {s t : Completion} (hb : t.basis = s.basis) (h : t.load < s.load) :
    t.Descends s := by
  unfold Descends
  rw [hb]
  exact Prod.Lex.right _ h

theorem review_descends {settings : Settings} {s t : Completion} {i : Nat} {pair : CriticalPair}
    (hi : s.queue.pairs[i]? = some pair) (old : pair.reducedAgainst < s.basis.length)
    (h : review settings s i pair = .ok (.next t)) : t.Descends s := by
  have total := totalWeight_swapRemove (weight s.basis.length) hi
  have two : weight s.basis.length pair = 2 := if_pos old
  unfold review at h
  cases ha : settings.permit s.queue.stats.steps with
  | error e => simp [ha, bind, Except.bind] at h
  | ok _ =>
    cases hr : pair.remainder.remainder s.basis with
    | error e => simp [ha, hr, bind, Except.bind] at h
    | ok r =>
      simp only [ha, hr, bind, Except.bind] at h
      split at h
      · cases h
        refine descends_of_load rfl ?_
        show totalWeight (weight s.basis.length) (swapRemove s.queue.pairs i) < s.load
        unfold load
        omega
      · cases h
        refine descends_of_load rfl ?_
        show totalWeight (weight s.basis.length) (swapRemove s.queue.pairs i ++ [_]) < s.load
        unfold load
        rw [totalWeight_append]
        have one : weight s.basis.length
            { pair with remainder := r, reducedAgainst := s.basis.length } = 1 :=
          if_neg (Nat.lt_irrefl _)
        simp only [totalWeight, one]
        omega

theorem adopt_descends {settings : Settings} {s t : Completion} {i : Nat} {h : Terms}
    (ht : adopt settings s i h = .ok (.next t)) : t.Descends s := by
  unfold adopt at ht
  split at ht
  · cases ht
  · split at ht
    · rename_i new
      simp only [bind, Except.bind] at ht
      split at ht
      · cases ht
      · cases ht
        refine Prod.Lex.left _ _ ⟨h.leadRow, ?_, new⟩
        simp
    · cases ht

/-- **Every step that does not finish descends.** -/
theorem step_descends {settings : Settings} {strategy : Strategy} {s t : Completion}
    (h : step settings strategy s = .ok (.next t)) : t.Descends s := by
  unfold step at h
  split at h
  · cases h
  · split at h
    · cases h
    · rename_i hi
      split at h
      · rename_i old
        exact review_descends hi old h
      · exact adopt_descends h

/-- Treats pending pairs until the completion is finished. -/
def run (settings : Settings) (strategy : Strategy) (s : Completion) :
    Except Failure Completion :=
  match _h : step settings strategy s with
  | .error e => .error e
  | .ok (.finished t) => .ok t
  | .ok (.next t) => run settings strategy t
termination_by descends_wf.wrap s
decreasing_by exact step_descends _h

/-- A run is a step, and the run from where it leads. -/
theorem run_eq (settings : Settings) (strategy : Strategy) (s : Completion) :
    run settings strategy s = step settings strategy s >>= fun
      | .finished t => .ok t
      | .next t => run settings strategy t := by
  rw [run]
  split <;> rename_i h <;> rw [h] <;> rfl

/-- A run whose first `k` steps are written out. These compute, where the recursion of a run does not. -/
def unrolled (settings : Settings) (strategy : Strategy) : (k : Nat) → Completion → Except Failure Completion
  | 0, s => run settings strategy s
  | k + 1, s => step settings strategy s >>= fun
    | .finished t => .ok t
    | .next t => unrolled settings strategy k t

/-- Writing out steps does not change a run. -/
theorem run_eq_unrolled (settings : Settings) (strategy : Strategy) :
    ∀ k, run settings strategy = unrolled settings strategy k
  | 0 => rfl
  | k + 1 => by
    funext s
    rw [run_eq, run_eq_unrolled settings strategy k]
    rfl

/-- Completes a list of sums in `n` variables to the reduced basis. A system of less than two
    members is complete. -/
def ofSums (n : Nat) (strategy : Strategy) (settings : Settings) (sums : List Terms) :
    Except Failure (List Terms × Statistics) := do
  let basis ← Reduction.ofSums n sums
  if basis.length < 2 then return (basis, {})
  else
    let queue ← Queue.ofBasis settings basis
    let s ← run settings strategy ⟨basis, queue⟩
    return (← Reduction.ofSums n s.basis, s.queue.stats)

end Completion

/-! ## 4. Bases of polynomials -/

namespace Polynomial

/-- The reduced Groebner basis of a list of polynomials, and what it took. -/
def groebnerBasis (strategy : Strategy) (settings : Settings) (ps : List Polynomial) :
    Except Failure (List Polynomial × Statistics) := do
  let ps := alignAll ps
  let vars := sharedVars ps
  let (basis, stats) ← Completion.ofSums vars.length strategy settings (ps.map (·.terms))
  return (basis.map (⟨vars, ·⟩), stats)

/-- Whether the S-polynomials of `f` with the members of a list reduce to zero. -/
def reducesWith (system : List Terms) (f : Terms) : List Terms → Except Failure Bool
  | [] => .ok true
  | g :: gs => do
    let s ← Terms.sPolynomial ⟨f.leadCoeff, f.leadRow⟩ ⟨g.leadCoeff, g.leadRow⟩ f g
    if (← s.remainder system).isEmpty then reducesWith system f gs else return false

/-- Whether the S-polynomials of all pairs of a list reduce to zero. -/
def reducesAll (system : List Terms) : List Terms → Except Failure Bool
  | [] => .ok true
  | f :: fs => do
    if ← reducesWith system f fs then reducesAll system fs else return false

/-- Whether a list of polynomials is a Groebner basis; zeros are passed over. -/
def isGroebnerBasis (ps : List Polynomial) : Except Failure Bool :=
  let system := (alignAll (ps.filter (!·.isZero))).map (·.terms)
  reducesAll system system

end Polynomial

end Eliminant
