/-!
# Dickson's lemma

A row of natural numbers **divides** another of the same length when it is nowhere larger. In every
infinite sequence of rows of one length an earlier row divides a later one (`exists_divides`), so a
list of rows cannot be extended forever by rows that no row of the list divides
(`extends_wellFounded`). It is the reason why the completion of a basis ends: every element that is
added has a leading row that no leading row before it divides.

The proof finds, for one column at a time, a subsequence along which that column never decreases.
-/

namespace Eliminant

/-- Whether a row is nowhere larger than another, on the part that both have. -/
def RowDivides (as bs : List Nat) : Prop := ∀ p ∈ as.zip bs, p.1 ≤ p.2

instance (as bs : List Nat) : Decidable (RowDivides as bs) :=
  inferInstanceAs (Decidable (∀ p ∈ as.zip bs, p.1 ≤ p.2))

namespace Dickson

/-! ## 1. Subsequences -/

/-- A strictly increasing sequence of numbers, which picks a subsequence. -/
def Increasing (g : Nat → Nat) : Prop := ∀ i j, i < j → g i < g j

theorem increasing_of_step {g : Nat → Nat} (h : ∀ i, g i < g (i + 1)) : Increasing g := by
  intro i j hij
  induction hij with
  | refl => exact h i
  | step _ ih => exact Nat.lt_trans ih (h _)

theorem Increasing.monotone {g : Nat → Nat} (hg : Increasing g) {i j : Nat} (h : i ≤ j) :
    g i ≤ g j := by
  rcases Nat.lt_or_eq_of_le h with h | h
  · exact Nat.le_of_lt (hg i j h)
  · exact Nat.le_of_eq (congrArg g h)

/-- From any place on there is a value that no later one undercuts. -/
theorem exists_least_from (f : Nat → Nat) :
    ∀ v m : Nat, f m = v → ∃ i, m ≤ i ∧ ∀ j, i ≤ j → f i ≤ f j := by
  intro v
  induction v using Nat.strongRecOn with
  | _ v ih =>
    intro m hm
    by_cases h : ∀ j, m ≤ j → f m ≤ f j
    · exact ⟨m, Nat.le_refl m, h⟩
    · obtain ⟨j, hj⟩ := Classical.not_forall.mp h
      obtain ⟨hmj, hlt⟩ := Classical.not_imp.mp hj
      obtain ⟨i, hji, hi⟩ := ih (f j) (by omega) j rfl
      exact ⟨i, Nat.le_trans hmj hji, hi⟩

/-- Every sequence of numbers has a subsequence that never decreases. -/
theorem exists_monotone (f : Nat → Nat) :
    ∃ g, Increasing g ∧ ∀ i j, i ≤ j → f (g i) ≤ f (g j) := by
  have least : ∀ m, ∃ i, m ≤ i ∧ ∀ j, i ≤ j → f i ≤ f j := fun m => exists_least_from f _ m rfl
  let next : Nat → Nat := fun m => Classical.choose (least m)
  have next_ge : ∀ m, m ≤ next m := fun m => (Classical.choose_spec (least m)).1
  have next_least : ∀ m j, next m ≤ j → f (next m) ≤ f j :=
    fun m => (Classical.choose_spec (least m)).2
  let g : Nat → Nat := fun n => Nat.rec (next 0) (fun _ i => next (i + 1)) n
  have step : ∀ i, g i < g (i + 1) := fun i => next_ge (g i + 1)
  have inc : Increasing g := increasing_of_step step
  have least_at : ∀ i j, g i ≤ j → f (g i) ≤ f j := by
    intro i
    cases i with
    | zero => exact next_least 0
    | succ i => exact next_least (g i + 1)
  exact ⟨g, inc, fun i j hij => least_at i (g j) (inc.monotone hij)⟩

/-! ## 2. Rows -/

theorem rowDivides_cons {a b : Nat} {as bs : List Nat} (h : a ≤ b) (hs : RowDivides as bs) :
    RowDivides (a :: as) (b :: bs) := by
  intro p hp
  rw [List.zip_cons_cons, List.mem_cons] at hp
  cases hp with
  | inl hp =>
    rw [hp]
    exact h
  | inr hp => exact hs p hp

/-- Every sequence of rows of one length has a subsequence along which every row divides the later
    ones. -/
theorem exists_dividing : ∀ (n : Nat) (f : Nat → List Nat), (∀ i, (f i).length = n) →
    ∃ g, Increasing g ∧ ∀ i j, i ≤ j → RowDivides (f (g i)) (f (g j))
  | 0, f, len => by
    refine ⟨id, fun _ _ h => h, fun i j _ => ?_⟩
    rw [List.eq_nil_of_length_eq_zero (len (id i))]
    intro p hp
    cases hp
  | n + 1, f, len => by
    obtain ⟨g, hg, hhead⟩ := exists_monotone fun i => (f i).headD 0
    obtain ⟨k, hk, htail⟩ := exists_dividing n (fun i => (f (g i)).tail) fun i => by
      rw [List.length_tail, len, Nat.add_sub_cancel]
    have split : ∀ i, f i = (f i).headD 0 :: (f i).tail := by
      intro i
      have := len i
      cases h : f i with
      | nil => simp [h] at this
      | cons a as => rfl
    refine ⟨fun i => g (k i), fun i j h => hg _ _ (hk i j h), fun i j hij => ?_⟩
    rw [split (g (k i)), split (g (k j))]
    exact rowDivides_cons (hhead _ _ (hk.monotone hij)) (htail i j hij)

/-- **Dickson's lemma**: in a sequence of rows of one length an earlier row divides a later one. -/
theorem exists_divides (n : Nat) (f : Nat → List Nat) (len : ∀ i, (f i).length = n) :
    ∃ i j, i < j ∧ RowDivides (f i) (f j) := by
  obtain ⟨g, hg, h⟩ := exists_dividing n f len
  exact ⟨g 0, g 1, hg 0 1 Nat.zero_lt_one, h 0 1 (Nat.zero_le 1)⟩

/-! ## 3. Extending a list of rows -/

/-- A relation without an infinite descent is well-founded. -/
theorem wellFounded_of_no_descent {α : Type} {r : α → α → Prop}
    (h : ∀ f : Nat → α, ¬ ∀ n, r (f (n + 1)) (f n)) : WellFounded r := by
  refine ⟨fun a => Classical.byContradiction fun ha => ?_⟩
  have step : ∀ x : { x // ¬ Acc r x }, ∃ y : { y // ¬ Acc r y }, r y.1 x.1 := by
    intro ⟨x, hx⟩
    refine Classical.byContradiction fun none => hx (Acc.intro x fun y hy => ?_)
    exact Classical.byContradiction fun hy' => none ⟨⟨y, hy'⟩, hy⟩
  let next : { x // ¬ Acc r x } → { x // ¬ Acc r x } := fun x => Classical.choose (step x)
  have next_lt : ∀ x, r (next x).1 x.1 := fun x => Classical.choose_spec (step x)
  let f : Nat → { x // ¬ Acc r x } := fun n => Nat.rec ⟨a, ha⟩ (fun _ x => next x) n
  exact h (fun n => (f n).1) fun n => next_lt (f n)

/-- A row of the length of all `rows` that none of them divides. -/
def IsNew (rows : List (List Nat)) (e : List Nat) : Prop :=
  ∀ a ∈ rows, a.length = e.length ∧ ¬ RowDivides a e

instance (rows : List (List Nat)) (e : List Nat) : Decidable (IsNew rows e) :=
  inferInstanceAs (Decidable (∀ a ∈ rows, a.length = e.length ∧ ¬ RowDivides a e))

/-- `more` is `rows` with one new row added at the end. -/
def Extends (more rows : List (List Nat)) : Prop := ∃ e, more = rows ++ [e] ∧ IsNew rows e

/-- **A list of rows cannot be extended forever.** -/
theorem extends_wellFounded : WellFounded Extends := by
  refine wellFounded_of_no_descent fun f hf => ?_
  let e : Nat → List Nat := fun n => Classical.choose (hf n)
  have he : ∀ n, f (n + 1) = f n ++ [e n] := fun n => (Classical.choose_spec (hf n)).1
  have hnew : ∀ n, ∀ a ∈ f n, a.length = (e n).length ∧ ¬ RowDivides a (e n) :=
    fun n => (Classical.choose_spec (hf n)).2
  have mem : ∀ i j, i < j → e i ∈ f j := by
    intro i j hij
    induction hij with
    | refl =>
      rw [he]
      simp
    | step _ ih =>
      rw [he]
      exact List.mem_append_left _ ih
  have len : ∀ i, (e i).length = (e 0).length := by
    intro i
    cases i with
    | zero => rfl
    | succ i => exact ((hnew (i + 1) (e 0) (mem 0 (i + 1) (Nat.succ_pos i))).1).symm
  obtain ⟨i, j, hij, hdiv⟩ := exists_divides _ e len
  exact (hnew j (e i) (mem i j hij)).2 hdiv

end Dickson

end Eliminant
