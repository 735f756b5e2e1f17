import Eliminant.Proofs.Effort
import Eliminant.Proofs.Polynomial.Reduction

/-!
# What the statistics of a completion count

Every pair of elements of the basis is considered once, when the later of the two joins: it is skipped or
its S-polynomial is computed. A pair that was computed is pending until its remainder becomes zero or
joins the basis. This is what the statistics say in every state of a completion
(`Completion.Accounted`), in whatever order pending pairs are picked:

* `Completion.Occurs`: the states that a completion may pass through, any pending pair being treated next;
* `Completion.Ends`: the states that it may end with;
* `Completion.Ready`: the remainders of all pending pairs have leading rows, so that pending pairs can be
  ranked by them;
* **`Polynomial.groebnerBasis_accounts`**: what the statistics of a whole completion say.
-/

namespace Eliminant

variable {settings : Settings} {basis : List Terms} {f g h : Terms} {considered added start i j : Nat}
  {pair : CriticalPair}

/-! ## 1. Rankings that look at leading rows -/

/-- The leading row of what is left of a pair, which zero does not have. -/
def CriticalPair.leadExponents (pair : CriticalPair) : Except Failure Exponents :=
  Polynomial.leadExponents ⟨[], pair.remainder⟩

/-- The ranking of pending pairs, failing where it asks for the leading row of zero. -/
def Strategy.compare? (s : Strategy) (p q : CriticalPair) : Except Failure Ordering :=
  match s with
  | lowestLead => do
    let byLead := (← p.leadExponents).compare (← q.leadExponents)
    return byLead.then (p.lcm.compare q.lcm)
  | normal =>
    match p.lcm.compare q.lcm with
    | .eq => do return (← p.leadExponents).compare (← q.leadExponents)
    | byLcm => .ok byLcm

theorem CriticalPair.leadExponents_eq (ne : pair.remainder ≠ []) :
    pair.leadExponents = .ok pair.remainder.leadRow := by
  unfold CriticalPair.leadExponents Polynomial.leadExponents
  cases hr : pair.remainder with
  | nil => exact absurd hr ne
  | cons t ts => rfl

/-- Pairs with remainders that are not zero are ranked. -/
theorem Strategy.compare?_eq (s : Strategy) {p q : CriticalPair} (hp : p.remainder ≠ [])
    (hq : q.remainder ≠ []) : s.compare? p q = .ok (s.compare p q) := by
  have rowP := CriticalPair.leadExponents_eq hp
  have rowQ := CriticalPair.leadExponents_eq hq
  cases s with
  | lowestLead =>
    simp only [Strategy.compare?, rowP, rowQ]
    rfl
  | normal =>
    simp only [Strategy.compare?, Strategy.compare, rowP, rowQ]
    cases p.lcm.compare q.lcm <;> rfl

/-- What is left of the pending pairs stays other than zero when such a pair joins them. -/
theorem not_zero_append {pairs : List CriticalPair} (h : ∀ p ∈ pairs, p.remainder ≠ [])
    (some : ¬ pair.remainder.isEmpty = true) : ∀ p ∈ pairs ++ [pair], p.remainder ≠ [] := by
  refine List.forall_mem_append.mpr ⟨h, List.forall_mem_singleton.mpr fun zero => ?_⟩
  exact some (List.isEmpty_iff.mpr zero)

/-! ## 2. Considering pairs -/

/-- The number of pairs of `k` elements. -/
def pairCount (k : Nat) : Nat := k * (k - 1) / 2

theorem pairCount_succ (k : Nat) : pairCount (k + 1) = pairCount k + k := Nat.triangle_succ k

/-- A step is taken only below the allowed number. -/
theorem Settings.permit_lt (settings : Settings) (steps : Nat) :
    Answers (fun _ => True) (fun _ => ∀ m, settings.maxSteps = some m → steps < m)
      (settings.permit steps) := by
  unfold permit
  split
  · trivial
  · split
    · rename_i limit
      split
      · trivial
      · rename_i below
        intro m same
        rw [limit] at same
        cases same
        omega
    · rename_i limit
      intro m same
      rw [limit] at same
      cases same

namespace Queue

/-- **What the statistics say** when so many pairs were considered and so many remainders have joined
    the basis. -/
structure Counts (settings : Settings) (considered added : Nat) (q : Queue) : Prop where
  added_eq : q.stats.polynomialsAdded = added
  /-- every pair that was considered is computed or skipped -/
  considered_eq : q.stats.pairsComputed + q.stats.pairsSkipped = considered
  /-- every pair that was computed became zero, joined the basis or is pending -/
  computed_eq : q.stats.pairsComputed =
    q.stats.zeroReductions + q.stats.polynomialsAdded + q.pairs.length
  computed_le : q.stats.pairsComputed ≤ q.stats.steps
  steps_le : ∀ m, settings.maxSteps = some m → q.stats.steps ≤ m
  /-- what is pending is not zero -/
  not_zero : ∀ pair ∈ q.pairs, pair.remainder ≠ []

variable {q : Queue}

theorem counts_start (settings : Settings) : Counts settings 0 0 {} where
  added_eq := rfl
  considered_eq := rfl
  computed_eq := rfl
  computed_le := Nat.le_refl 0
  steps_le m _ := Nat.zero_le m
  not_zero := List.forall_mem_nil _

/-- **A pair is considered.** -/
theorem addPair_counts (basis : List Terms) (j : Nat) (g : Terms) (numbered : Terms × Nat)
    (h : Counts settings considered added q) :
    Answers (fun _ => True) (Counts settings (considered + 1) added)
      (addPair settings basis j g q numbered) := by
  obtain ⟨added_eq, considered_eq, computed_eq, computed_le, steps_le, not_zero⟩ := h
  unfold addPair
  dsimp only
  split
  · refine ⟨added_eq, ?_, computed_eq, computed_le, steps_le, not_zero⟩
    dsimp only
    omega
  · refine (settings.permit_lt q.stats.steps).bind fun _ admitted => ?_
    refine (Answers.all _).bind fun s _ => (Answers.all _).bind fun r _ => ?_
    split
    · refine ⟨added_eq, ?_, ?_, Nat.succ_le_succ computed_le, admitted, not_zero⟩ <;> dsimp only <;>
        omega
    · rename_i some
      refine ⟨added_eq, ?_, ?_, Nat.succ_le_succ computed_le, admitted, not_zero_append not_zero some⟩
      · dsimp only
        omega
      · rw [List.length_append, List.length_singleton]
        dsimp only
        omega

/-- The pairs of an element with all before it are considered. -/
theorem addPairs_counts (g : Terms) (le : j ≤ basis.length) (h : Counts settings considered added q) :
    Answers (fun _ => True) (Counts settings (considered + j) added)
      (addPairs settings basis q (g, j)) := by
  have length : ((basis.take j).zipIdx).length = j := by
    rw [List.length_zipIdx, List.length_take, Nat.min_eq_left le]
  have all : Answers (fun _ => True) (Counts settings (considered + ((basis.take j).zipIdx).length) added)
      (addPairs settings basis q (g, j)) :=
    Answers.foldlM (I := fun n => Counts settings n added) h
      fun _ _ _ counts => addPair_counts basis j g _ counts
  rwa [length] at all

/-- **All pairs of a basis are considered.** -/
theorem ofBasis_counts (settings : Settings) (basis : List Terms) :
    Answers (fun _ => True) (Counts settings (pairCount basis.length) 0)
      (ofBasis settings basis) := by
  have all : Answers (fun _ => True) (Counts settings (pairCount (0 + basis.zipIdx.length)) 0)
      (ofBasis settings basis) :=
    Answers.foldlM (I := fun n => Counts settings (pairCount n) 0) (counts_start settings)
      fun j hj q counts => by
        rw [List.length_zipIdx] at hj
        rw [Nat.zero_add] at counts ⊢
        rw [List.getElem_zipIdx, Nat.zero_add, pairCount_succ]
        exact addPairs_counts _ hj.le counts
  rwa [Nat.zero_add, List.length_zipIdx] at all

end Queue

/-! ## 3. Completions in any order -/

namespace Completion

variable {strategy : Strategy} {s t : Completion}

/-- Treats the pending pair at place `i`. -/
def treat (settings : Settings) (s : Completion) (i : Nat) (pair : CriticalPair) :
    Except Failure Progress :=
  if pair.reducedAgainst < s.basis.length then review settings s i pair
  else adopt settings s i pair.remainder.monic

/-- **The states that a completion may pass through** when any pending pair may be treated next. -/
inductive Occurs (settings : Settings) (basis : List Terms) : Completion → Prop where
  | start {queue : Queue} (made : Queue.ofBasis settings basis = .ok queue) :
      Occurs settings basis ⟨basis, queue⟩
  | next {s t : Completion} {i : Nat} {pair : CriticalPair} (here : Occurs settings basis s)
      (pending : s.queue.pairs[i]? = some pair) (treated : treat settings s i pair = .ok (.next t)) :
      Occurs settings basis t

/-- **The states that it may end with**: nothing is pending, or a constant was met. -/
inductive Ends (settings : Settings) (basis : List Terms) : Completion → Prop where
  | exhausted {s : Completion} (here : Occurs settings basis s) (none : s.queue.pairs = []) :
      Ends settings basis s
  | constant {s t : Completion} {i : Nat} {pair : CriticalPair} (here : Occurs settings basis s)
      (pending : s.queue.pairs[i]? = some pair)
      (treated : treat settings s i pair = .ok (.finished t)) : Ends settings basis t

/-- Whatever the strategy, a step treats a pending pair, if there is one. -/
theorem step_cases {progress : Progress} (run : step settings strategy s = .ok progress) :
    (s.queue.pairs = [] ∧ progress = .finished s) ∨
      ∃ i pair, s.queue.pairs[i]? = some pair ∧ treat settings s i pair = .ok progress := by
  unfold step at run
  cases hleast : firstLeast strategy.compare s.queue.pairs with
  | none =>
    rw [hleast] at run
    cases run
    exact Or.inl ⟨firstLeast_eq_none hleast, rfl⟩
  | some i =>
    have hi := List.getElem?_eq_getElem (firstLeast_lt hleast)
    simp only [hleast, hi] at run
    exact Or.inr ⟨i, _, hi, run⟩

/-- **Every strategy is one of the orders**: a run passes through such states and ends with one. -/
theorem Occurs.ends_of_run (here : Occurs settings basis s) (run : run settings strategy s = .ok t) :
    Ends settings basis t := by
  induction s using descends_wf.induction with
  | _ s ih =>
    rw [run_eq] at run
    cases one : step settings strategy s with
    | error e =>
      rw [one] at run
      cases run
    | ok progress =>
      rw [one] at run
      cases progress with
      | finished t' =>
        cases run
        rcases step_cases one with ⟨none, same⟩ | ⟨i, pair, pending, treated⟩
        · cases same
          exact .exhausted here none
        · exact .constant here pending treated
      | next s' =>
        rcases step_cases one with ⟨-, same⟩ | ⟨i, pair, pending, treated⟩
        · cases same
        · exact ih s' (step_descends one) (.next here pending treated) run

/-! ## 4. What the statistics say on the way -/

/-- **What the statistics say in a state** of a completion of `start` elements. -/
structure Accounted (settings : Settings) (start : Nat) (s : Completion) : Prop where
  size : s.basis.length = start + s.queue.stats.polynomialsAdded
  counts : s.queue.Counts settings (pairCount s.basis.length) s.queue.stats.polynomialsAdded

/-- Reviewing a pair keeps the account: it stays pending, or counts as a zero. -/
theorem Accounted.review (h : Accounted settings start s) (hi : s.queue.pairs[i]? = some pair) :
    Answers (fun _ => True) (fun out => ∃ t, out = .next t ∧ Accounted settings start t)
      (review settings s i pair) := by
  obtain ⟨size, -, considered_eq, computed_eq, computed_le, steps_le, not_zero⟩ := h
  have others : ∀ p ∈ swapRemove s.queue.pairs i, p.remainder ≠ [] := fun p hp =>
    not_zero p (mem_swapRemove hp)
  have length := length_swapRemove hi
  unfold Completion.review
  refine (settings.permit_lt _).bind fun _ admitted => (Answers.all _).bind fun r _ => ?_
  dsimp only
  split
  · refine ⟨_, rfl, size, rfl, considered_eq, ?_, Nat.le_succ_of_le computed_le, admitted, others⟩
    dsimp only
    omega
  · rename_i some
    refine ⟨_, rfl, size, rfl, considered_eq, ?_, Nat.le_succ_of_le computed_le, admitted,
      not_zero_append others some⟩
    rw [List.length_append, List.length_singleton]
    dsimp only
    omega

/-- Adopting a remainder keeps the account: the pairs of the new element are considered, and the pair
    that it comes from counts as added. A constant keeps the statistics. -/
theorem Accounted.adopt (h : Accounted settings start s) (hi : s.queue.pairs[i]? = some pair)
    (p : Terms) :
    Answers (fun _ => True)
      (fun out => (p.isConstant = true ∧ out = .finished ⟨[p], ⟨[], s.queue.stats⟩⟩) ∨
        ∃ t, out = .next t ∧ Accounted settings start t)
      (adopt settings s i p) := by
  obtain ⟨size, -, considered_eq, computed_eq, computed_le, steps_le, not_zero⟩ := h
  have length := length_swapRemove hi
  unfold Completion.adopt
  split
  · rename_i constant
    exact Or.inl ⟨constant, rfl⟩
  · split
    · have grown : (s.basis ++ [p]).length = s.basis.length + 1 := by simp
      have before : Queue.Counts settings (pairCount s.basis.length)
          (s.queue.stats.polynomialsAdded + 1) ⟨swapRemove s.queue.pairs i,
            { s.queue.stats with polynomialsAdded := s.queue.stats.polynomialsAdded + 1 }⟩ := by
        refine ⟨rfl, considered_eq, ?_, computed_le, steps_le, fun q hq => ?_⟩
        · dsimp only
          omega
        · exact not_zero q (mem_swapRemove hq)
      have le : s.basis.length ≤ (s.basis ++ [p]).length := grown ▸ Nat.le_succ _
      refine (Queue.addPairs_counts p le before).bind fun queue counts => Or.inr ⟨_, rfl, ?_⟩
      have added := counts.added_eq
      rw [← pairCount_succ, ← grown, ← added] at counts
      refine ⟨?_, counts⟩
      dsimp only
      omega
    · trivial

/-- **Treating a pair keeps the account**, whichever pair it is. -/
theorem Accounted.treat (h : Accounted settings start s) (hi : s.queue.pairs[i]? = some pair) :
    Answers (fun _ => True)
      (fun out => (∃ p : Terms, p ≠ [] ∧ p.isConstant = true ∧
          out = .finished ⟨[p], ⟨[], s.queue.stats⟩⟩) ∨
        ∃ t, out = .next t ∧ Accounted settings start t)
      (treat settings s i pair) := by
  unfold Completion.treat
  split
  · exact (h.review hi).imp fun _ => Or.inr
  · refine (h.adopt hi pair.remainder.monic).imp fun out answer => answer.imp_left fun constant => ?_
    have ne := Terms.monic_ne_nil (h.counts.not_zero pair (List.mem_of_getElem? hi))
    exact ⟨_, ne, constant⟩

/-- **Every state that occurs is accounted for**, by induction on the way to it. -/
theorem Occurs.accounted (here : Occurs settings basis s) : Accounted settings basis.length s := by
  induction here with
  | start made =>
    have counts := (Queue.ofBasis_counts settings basis).of_ok made
    have added := counts.added_eq
    refine ⟨?_, added.symm ▸ counts⟩
    dsimp only
    omega
  | next _ pending treated ih =>
    rcases (ih.treat pending).of_ok treated with ⟨_, -, -, same⟩ | ⟨t, same, accounted⟩
    · cases same
    · cases same
      exact accounted

/-- **What the statistics say at an end**: they are those of a last state, and unless a constant was met
    nothing is pending there. -/
theorem Ends.accounted (h : Ends settings basis t) :
    ∃ s, Accounted settings basis.length s ∧ t.queue.stats = s.queue.stats ∧
      (s.queue.pairs = [] ∨ ∃ p : Terms, p ≠ [] ∧ p.isConstant = true ∧ t.basis = [p]) := by
  cases h with
  | exhausted here none => exact ⟨_, here.accounted, rfl, Or.inl none⟩
  | constant here pending treated =>
    rcases (here.accounted.treat pending).of_ok treated with ⟨p, ne, constant, same⟩ | ⟨t', same, -⟩
    · cases same
      exact ⟨_, here.accounted, rfl, Or.inr ⟨p, ne, constant, rfl⟩⟩
    · cases same

/-- A whole completion of sums ends in such a state, unless it is complete from the start. -/
theorem ofSums_ends (n : Nat) (strategy : Strategy) (settings : Settings) (sums : List Terms) :
    Answers (fun _ => True)
      (fun out => ∃ basis, Reduction.ofSums n sums = .ok basis ∧
        ((basis.length < 2 ∧ out = (basis, {})) ∨ (¬ basis.length < 2 ∧ ∃ t, Ends settings basis t ∧
          Reduction.ofSums n t.basis = .ok out.1 ∧ out.2 = t.queue.stats)))
      (ofSums n strategy settings sums) := by
  unfold ofSums
  refine (Answers.all (Reduction.ofSums n sums)).with_run.bind fun basis first => ?_
  split
  · rename_i few
    exact ⟨basis, first.1, Or.inl ⟨few, rfl⟩⟩
  · rename_i many
    refine (Answers.all (Queue.ofBasis settings basis)).with_run.bind fun queue made => ?_
    refine (Answers.all (run settings strategy ⟨basis, queue⟩)).with_run.bind fun t ended => ?_
    refine (Answers.all (Reduction.ofSums n t.basis)).with_run.bind fun final last => ?_
    have ends := Occurs.ends_of_run (.start made.1) ended.1
    exact ⟨basis, first.1, Or.inr ⟨many, t, ends, last.1, rfl⟩⟩

/-- **All pending pairs can be ranked**: their remainders are not zero, so they have leading rows and no
    strategy fails on them. -/
structure Ready (s : Completion) : Prop where
  not_zero : ∀ pair ∈ s.queue.pairs, pair.remainder ≠ []
  rows : ∀ pair ∈ s.queue.pairs, pair.leadExponents = .ok pair.remainder.leadRow
  ranked : ∀ strategy : Strategy, ∀ p ∈ s.queue.pairs, ∀ q ∈ s.queue.pairs,
    strategy.compare? p q = .ok (strategy.compare p q)

theorem Accounted.ready (h : Accounted settings start s) : s.Ready := by
  have not_zero := h.counts.not_zero
  exact ⟨not_zero, fun pair hp => CriticalPair.leadExponents_eq (not_zero pair hp),
    fun strategy p hp q hq => strategy.compare?_eq (not_zero p hp) (not_zero q hq)⟩

end Completion

/-! ## 5. Completions of polynomials -/

namespace Polynomial

variable {ps reduced system : List Polynomial} {stats : Statistics} {strategy : Strategy}

/-- **What a completion answers in whatever order pairs are treated.** -/
inductive Completes (settings : Settings) (ps : List Polynomial) :
    List Polynomial → Statistics → Prop where
  /-- a system of less than two elements is complete -/
  | small {reduced : List Polynomial} (first : reduce ps = .ok reduced) (few : reduced.length < 2) :
      Completes settings ps reduced {}
  | large {reduced system : List Polynomial} {t : Completion} (first : reduce ps = .ok reduced)
      (many : ¬ reduced.length < 2) (ends : Completion.Ends settings (reduced.map (·.terms)) t)
      (last : reduce (t.basis.map (⟨sharedVars (alignAll ps), ·⟩)) = .ok system) :
      Completes settings ps system t.queue.stats

/-- **What the statistics of a completion say** that began with `start` elements and answered a system
    over `vars`. -/
structure IsAccount (settings : Settings) (start : Nat) (vars : List Variable)
    (system : List Polynomial) (stats : Statistics) : Prop where
  /-- every pair of elements was computed or skipped, and none of them twice -/
  considered : stats.pairsComputed + stats.pairsSkipped =
    (start + stats.polynomialsAdded) * (start + stats.polynomialsAdded - 1) / 2
  /-- every pair that was computed became zero or joined the basis, if all of them were treated -/
  treated : system ≠ [one vars] →
    stats.pairsComputed = stats.zeroReductions + stats.polynomialsAdded
  computed_le : stats.pairsComputed ≤ stats.steps
  steps_le : ∀ m, settings.maxSteps = some m → stats.steps ≤ m

/-- A strategy completes in one of the orders. -/
theorem groebnerBasis_completes (strategy : Strategy) (settings : Settings) (ps : List Polynomial) :
    Answers (fun _ => True) (fun out => Completes settings ps out.1 out.2)
      (groebnerBasis strategy settings ps) := by
  unfold groebnerBasis
  dsimp only
  refine (Completion.ofSums_ends _ strategy settings _).bind fun out ended => ?_
  obtain ⟨basis, first, answer⟩ := ended
  have reduced : reduce ps = .ok (basis.map (⟨sharedVars (alignAll ps), ·⟩)) := by
    unfold reduce
    dsimp only
    rw [first]
    rfl
  rcases answer with ⟨few, rfl⟩ | ⟨many, t, ends, last, same⟩
  · exact .small reduced (by rwa [List.length_map])
  · show Completes settings ps (out.1.map (⟨sharedVars (alignAll ps), ·⟩)) out.2
    rw [same]
    refine .large reduced (by rwa [List.length_map]) ((map_terms basis).symm ▸ ends) ?_
    rw [reduce_map, last]
    rfl

/-- **What is reported of a completion that answers.** -/
theorem Completes.isAccount (h : Completes settings ps system stats) :
    ∃ reduced, reduce ps = .ok reduced ∧
      IsAccount settings reduced.length (sharedVars (alignAll ps)) system stats := by
  cases h with
  | small first few =>
    refine ⟨system, first, ?_, fun _ => rfl, Nat.le_refl 0, fun m _ => Nat.zero_le m⟩
    match system.length, few with
    | 0, _ => rfl
    | 1, _ => rfl
  | @large reduced _ t first many ends last =>
    obtain ⟨s, ⟨size, counts⟩, same, last_state⟩ := ends.accounted
    rw [List.length_map] at size
    rw [same]
    refine ⟨reduced, first, ?_, fun other => ?_, counts.computed_le, counts.steps_le⟩
    · rw [← size]
      exact counts.considered_eq
    · rcases last_state with none | ⟨p, ne, constant, single⟩
      · have computed := counts.computed_eq
        rw [none] at computed
        exact computed
      · rw [single, reduce_map, Reduction.ofSums_of_constant ne constant] at last
        cases last
        exact absurd rfl other

/-- **No critical pair is lost or treated twice.** Whatever strategy leads to an answer, and in whatever
    other order the pending pairs are treated, the statistics account for all pairs of elements, and
    for the steps that were taken; and in every state on the way, answer or not, every strategy can
    rank the pending pairs. -/
theorem groebnerBasis_accounts (settings : Settings) (ps : List Polynomial) :
    (∀ strategy system stats, groebnerBasis strategy settings ps = .ok (system, stats) →
      Completes settings ps system stats) ∧
    (∀ system stats, Completes settings ps system stats → ∃ reduced, reduce ps = .ok reduced ∧
      IsAccount settings reduced.length (sharedVars (alignAll ps)) system stats) ∧
    ∀ reduced, reduce ps = .ok reduced →
      ∀ s, Completion.Occurs settings (reduced.map (·.terms)) s → s.Ready :=
  ⟨fun strategy _ _ run => (groebnerBasis_completes strategy settings ps).of_ok run,
    fun _ _ => Completes.isAccount, fun _ _ _ here => here.accounted.ready⟩

/-- The completion of `x ^ 2 + y ^ 2` and `x * y` adds `y ^ 3`, whose pair with the one is skipped and
    whose pair with the other becomes zero. -/
theorem groebnerBasis_accounts_at :
    let vars := [Variable.symbol "x", Variable.symbol "y"]
    let settings : Settings := { maxSteps := some 2 }
    let f : Terms := [⟨.one, [2, 0]⟩, ⟨.one, [0, 2]⟩]
    let g : Terms := [⟨.one, [1, 1]⟩]
    let h : Terms := [⟨.one, [0, 3]⟩]
    let ps : List Polynomial := [⟨vars, f⟩, ⟨vars, g⟩]
    let system : List Polynomial := [⟨vars, f⟩, ⟨vars, g⟩, ⟨vars, h⟩]
    let pending : Completion :=
      ⟨[f, g], ⟨[⟨0, 1, [2, 1], h, 2⟩], { pairsComputed := 1, steps := 1 }⟩⟩
    let stats : Statistics :=
      { pairsComputed := 2, pairsSkipped := 1, zeroReductions := 1, polynomialsAdded := 1, steps := 2 }
    groebnerBasis .normal settings ps = .ok (system, stats) ∧ reduce ps = .ok ps ∧
      IsAccount settings ps.length (sharedVars (alignAll ps)) system stats ∧
      Completion.Occurs settings [f, g] pending ∧ pending.Ready := by
  intro vars settings f g h ps system pending stats
  have made : Queue.ofBasis settings [f, g] = .ok pending.queue := by cbv
  have run : groebnerBasis .normal settings ps = .ok (system, stats) := by
    unfold groebnerBasis Completion.ofSums
    rw [Completion.run_eq_unrolled _ _ 2]
    cbv
  have reduced : reduce ps = .ok ps := by cbv
  obtain ⟨strategies, accounts, ready⟩ := groebnerBasis_accounts settings ps
  obtain ⟨reduced', same, account⟩ := accounts system stats (strategies .normal system stats run)
  rw [reduced] at same
  cases same
  have here : Completion.Occurs settings [f, g] pending := .start made
  exact ⟨run, reduced, account, here, ready ps reduced pending here⟩

end Polynomial

end Eliminant
