import Eliminant.Proofs.Polynomial.Append

/-!
# Sums of tables

Two tables are added by merging them into a third one, which has been allotted room for all their terms. A
term is not copied there but moved: its coefficient changes places with the zero that stands where it goes.
Terms of one row are added up in the left table first, and are moved from there unless they cancel. What is
left of the third table is cut off in the end.

* `Table.Merge.step`: one step, which moves the smallest term that is left;
* `Table.Merging`: the invariant, about what has been written and what is still to come;
* **`Table.merge_ofTerms`**: every entry that is looked up is there, and the result is the table of the sum.
-/

namespace Eliminant

open MvPolynomial (monomial)

variable {n : Nat} {exps : Exponents} {t u : Term} {ts us ws : Terms}

namespace Table

/-! ## 1. Merging -/

/-- Moves the term number `i` of a table to the place number `k` of another one: the coefficients change
    places, the row is written there. -/
def move (n : Nat) (source target : Table) (i k : Nat) : Except Failure (Table × Table) :=
  match source.coeffs[i]?, target.coeffs[k]? with
  | some c, some d => do
    let exps ← source.row n i
    if target.exps.length < (k + 1) * n then .error .noSuchIndex
    else return ({ source with coeffs := source.coeffs.set i d },
      ⟨target.coeffs.set k c, target.exps.take (k * n) ++ exps ++ target.exps.drop ((k + 1) * n)⟩)
  | _, _ => .error .noSuchIndex

/-- Two tables that are being merged: the terms before number `i` of the left one and before number `j` of
    the right one are done with, and `count` terms have been written. -/
structure Merge where
  left : Table
  right : Table
  written : Table
  i : Nat
  j : Nat
  count : Nat

namespace Merge

/-- Moves the next term of the left table. -/
def takeLeft (n : Nat) (m : Merge) : Except Failure Merge := do
  let (left, written) ← m.left.move n m.written m.i m.count
  return { m with left, written, i := m.i + 1, count := m.count + 1 }

/-- Moves the next term of the right table. -/
def takeRight (n : Nat) (m : Merge) : Except Failure Merge := do
  let (right, written) ← m.right.move n m.written m.j m.count
  return { m with right, written, j := m.j + 1, count := m.count + 1 }

/-- Adds the next coefficient of the right table to that of the left one, whose term is moved unless it has
    become zero. -/
def takeBoth (n : Nat) (m : Merge) : Except Failure Merge :=
  match m.left.coeffs[m.i]?, m.right.coeffs[m.j]? with
  | some c, some d =>
    let m := { m with left := { m.left with coeffs := m.left.coeffs.set m.i (c + d) }, j := m.j + 1 }
    if (c + d).isZero then .ok { m with i := m.i + 1 } else m.takeLeft n
  | _, _ => .error .noSuchIndex

/-- How many terms are still to be merged. -/
def remaining (m : Merge) : Nat := (m.left.coeffs.length - m.i) + (m.right.coeffs.length - m.j)

/-- Treats the smallest row that is left; where a table has come to its end, the rest of the other one is
    moved. -/
def step (n : Nat) (m : Merge) : Except Failure Merge :=
  if m.j < m.right.coeffs.length then
    if m.i < m.left.coeffs.length then do
      match (← m.left.row n m.i).compare (← m.right.row n m.j) with
      | .lt => m.takeLeft n
      | .gt => m.takeRight n
      | .eq => m.takeBoth n
    else m.takeRight n
  else m.takeLeft n

end Merge

/-! ## 2. Merging comes to an end -/

theorem length_move {source target source' target' : Table} {i k : Nat}
    (h : source.move n target i k = .ok (source', target')) :
    i < source.coeffs.length ∧ source'.coeffs.length = source.coeffs.length := by
  unfold move at h
  split at h
  · rename_i here _
    simp only [bind, Except.bind] at h
    split at h
    · cases h
    · split at h
      · cases h
      · cases h
        exact ⟨(List.getElem?_eq_some_iff.mp here).1, List.length_set⟩
  · cases h

namespace Merge

variable {m m' : Merge}

theorem takeLeft_descends (h : m.takeLeft n = .ok m') : m'.remaining < m.remaining := by
  unfold takeLeft at h
  simp only [bind, Except.bind] at h
  split at h
  · cases h
  · rename_i moved
    obtain ⟨inside, same⟩ := length_move moved
    cases h
    unfold remaining
    simp only
    omega

/-- The same two tables, the other one to the left. -/
def flip (m : Merge) : Merge := ⟨m.right, m.left, m.written, m.j, m.i, m.count⟩

theorem takeRight_eq (n : Nat) (m : Merge) : m.takeRight n = (m.flip.takeLeft n).map flip := by
  unfold takeRight takeLeft flip
  dsimp only
  cases m.right.move n m.written m.j m.count <;> rfl

theorem remaining_flip (m : Merge) : m.flip.remaining = m.remaining := Nat.add_comm _ _

theorem takeRight_descends (h : m.takeRight n = .ok m') : m'.remaining < m.remaining := by
  rw [takeRight_eq] at h
  cases run : m.flip.takeLeft n with
  | error e =>
    rw [run] at h
    cases h
  | ok taken =>
    rw [run] at h
    cases h
    rw [remaining_flip, ← remaining_flip m]
    exact takeLeft_descends run

theorem takeBoth_descends (h : m.takeBoth n = .ok m') : m'.remaining < m.remaining := by
  unfold takeBoth at h
  split at h
  · rename_i c d left right
    have insideLeft := (List.getElem?_eq_some_iff.mp left).1
    have insideRight := (List.getElem?_eq_some_iff.mp right).1
    dsimp only at h
    split at h
    · cases h
      unfold remaining
      simp only [List.length_set]
      omega
    · have less := takeLeft_descends h
      unfold remaining at less ⊢
      simp only [List.length_set] at less
      omega
  · cases h

/-- **Every step leaves fewer terms to be merged.** -/
theorem step_descends (h : m.step n = .ok m') : m'.remaining < m.remaining := by
  unfold step at h
  split at h
  · split at h
    · simp only [bind, Except.bind] at h
      split at h
      · cases h
      · split at h
        · cases h
        · split at h
          · exact takeLeft_descends h
          · exact takeRight_descends h
          · exact takeBoth_descends h
    · exact takeRight_descends h
  · exact takeLeft_descends h

/-- Merges until nothing is left. -/
def run (n : Nat) (m : Merge) : Except Failure Merge :=
  if m.remaining = 0 then .ok m
  else
    match _h : m.step n with
    | .error e => .error e
    | .ok m' => run n m'
termination_by m.remaining
decreasing_by exact step_descends _h

/-- A merge that has not begun, with room for all terms. -/
def start (n : Nat) (left right : Table) : Merge :=
  let room := left.coeffs.length + right.coeffs.length
  ⟨left, right, ⟨List.replicate room .zero, List.replicate (n * room) 0⟩, 0, 0, 0⟩

/-- What has been written, without the room that is left. -/
def result (n : Nat) (m : Merge) : Table :=
  ⟨m.written.coeffs.take m.count, m.written.exps.take (n * m.count)⟩

end Merge

/-- The sum of two tables with rows of length `n`. -/
def merge (n : Nat) (left right : Table) : Except Failure Table :=
  if left.coeffs.isEmpty then .ok right
  else if right.coeffs.isEmpty then .ok left
  else do return (← (Merge.start n left right).run n).result n

/-! ## 3. What has been written, and what is to come -/

/-- The terms of a table from number `i` on. -/
structure From (n : Nat) (table : Table) (i : Nat) (ts : Terms) : Prop where
  coeffs : table.coeffs.drop i = ts.map (·.coeff)
  exps : table.exps.drop (i * n) = ts.flatMap (·.exps)

/-- The terms of a table before number `k`, in a table that has a row for every coefficient. -/
structure UpTo (n : Nat) (table : Table) (k : Nat) (ws : Terms) : Prop where
  coeffs : table.coeffs.take k = ws.map (·.coeff)
  exps : table.exps.take (k * n) = ws.flatMap (·.exps)
  rows : table.exps.length = table.coeffs.length * n

section

variable {table source target : Table} {i k : Nat}

theorem From.ofTerms (ts : Terms) : (ofTerms ts).From n 0 ts where
  coeffs := rfl
  exps := by
    rw [Nat.zero_mul]
    rfl

theorem From.length (h : table.From n i ts) : table.coeffs.length - i = ts.length := by
  rw [← List.length_drop, h.coeffs, List.length_map]

theorem From.lt_iff (h : table.From n i ts) : i < table.coeffs.length ↔ ts ≠ [] := by
  rw [← List.length_pos_iff, ← h.length, Nat.sub_pos_iff_lt]

theorem From.getElem? (h : table.From n i (t :: ts)) : table.coeffs[i]? = some t.coeff := by
  have first := congrArg List.head? h.coeffs
  rwa [List.head?_drop] at first

theorem From.row (h : table.From n i (t :: ts)) (len : t.exps.length = n) : table.row n i = .ok t.exps := by
  have here : table.exps.drop (i * n) = t.exps ++ ts.flatMap (·.exps) := h.exps
  have inside : (i + 1) * n ≤ table.exps.length := by
    have length := congrArg List.length here
    rw [List.length_drop, List.length_append, len] at length
    -- without variables there is room for a row anywhere
    rcases Nat.eq_zero_or_pos n with rfl | pos
    · exact Nat.zero_le _
    · rw [Nat.succ_mul]
      omega
  unfold Table.row
  rw [if_pos inside, here, List.take_left' len]

theorem From.tail (h : table.From n i (t :: ts)) (len : t.exps.length = n) : table.From n (i + 1) ts where
  coeffs := by
    rw [← List.drop_drop (i := 1), h.coeffs]
    rfl
  exps := by
    rw [Nat.succ_mul, ← List.drop_drop, h.exps]
    exact List.drop_left' len

/-- A term whose coefficient is replaced. -/
theorem From.set (h : table.From n i (t :: ts)) (c : Coefficient) :
    Table.From n ⟨table.coeffs.set i c, table.exps⟩ i (⟨c, t.exps⟩ :: ts) where
  coeffs := by
    show (table.coeffs.set i c).drop i = _
    rw [List.drop_set, if_neg (Nat.lt_irrefl i), Nat.sub_self, h.coeffs]
    rfl
  exps := h.exps

/-- What is written at the end of what has been written. -/
theorem UpTo.write (h : table.UpTo n k ws) (room : k < table.coeffs.length) (len : t.exps.length = n) :
    Table.UpTo n ⟨table.coeffs.set k t.coeff,
      table.exps.take (k * n) ++ t.exps ++ table.exps.drop ((k + 1) * n)⟩ (k + 1) (ws ++ [t]) := by
  have inside : (k + 1) * n ≤ table.exps.length := h.rows ▸ Nat.mul_le_mul_right n room
  have here : (table.exps.take (k * n) ++ t.exps).length = (k + 1) * n := by
    rw [List.length_append, List.length_take, len, Nat.succ_mul]
    rw [Nat.succ_mul] at inside
    omega
  constructor
  · show (table.coeffs.set k t.coeff).take (k + 1) = _
    rw [List.set_eq_take_append_cons_drop, if_pos room, List.append_cons, List.take_left' (by simp; omega),
      h.coeffs, List.map_append]
    rfl
  · show List.take ((k + 1) * n) (_ ++ _) = _
    rw [List.take_left' here, h.exps, List.flatMap_append]
    simp
  · show List.length (_ ++ _) = (table.coeffs.set k t.coeff).length * n
    rw [List.length_append, here, List.length_drop, List.length_set, ← h.rows]
    omega

/-- **Moving a term** takes it from what is to come to what has been written. -/
theorem move_spec (hs : source.From n i (t :: ts)) (ht : target.UpTo n k ws) (room : k < target.coeffs.length)
    (len : t.exps.length = n) :
    ∃ source' target', source.move n target i k = .ok (source', target') ∧ source'.From n (i + 1) ts ∧
      target'.UpTo n (k + 1) (ws ++ [t]) ∧ target'.coeffs.length = target.coeffs.length := by
  have inside : ¬ target.exps.length < (k + 1) * n := by
    rw [ht.rows, not_lt]
    exact Nat.mul_le_mul_right n room
  refine ⟨_, _, ?_, (hs.set target.coeffs[k]).tail len, ht.write room len, List.length_set⟩
  unfold move
  rw [hs.getElem?, List.getElem?_eq_getElem room]
  dsimp only
  rw [hs.row len]
  exact if_neg inside

end

end Table

/-! ## 4. The invariant -/

namespace Terms.Descending

/-- What a term in the midst of ascending terms is to the others. -/
theorem middle_iff : Descending n (ws ++ t :: ts).reverse ↔
    Descending n (ws ++ ts).reverse ∧ t.exps.length = n ∧ t.coeff.isZero = false ∧
      (∀ w ∈ ws, w.exps.compare t.exps = .lt) ∧ ∀ u ∈ ts, t.exps.compare u.exps = .lt := by
  have middle : (ws ++ t :: ts).reverse = ts.reverse ++ t :: ws.reverse := by simp
  rw [middle, List.reverse_append, append_iff, append_iff, cons_iff]
  simp only [List.mem_reverse, List.forall_mem_cons]
  constructor
  · rintro ⟨hts, ⟨len, some, above, hws⟩, between⟩
    exact ⟨⟨hts, hws, fun u hu => (between u hu).2⟩, len, some, above, fun u hu => (between u hu).1⟩
  · rintro ⟨⟨hts, hws, between⟩, len, some, above, below⟩
    exact ⟨hts, ⟨len, some, above, hws⟩, fun u hu => ⟨below u hu, between u hu⟩⟩

/-- What is below a term is below all that come after it. -/
theorem below_of_lt (h : Descending n (ws ++ t :: ts).reverse) (len : exps.length = n)
    (lt : exps.compare t.exps = .lt) : ∀ u ∈ t :: ts, exps.compare u.exps = .lt := by
  obtain ⟨-, lenT, -, -, below⟩ := middle_iff.mp h
  refine List.forall_mem_cons.mpr ⟨lt, fun u hu => ?_⟩
  exact Exponents.compare_trans len lenT (h.length (by simp [hu])) lt (below u hu)

end Terms.Descending

namespace Table

/-- **The invariant of a merge**: `ws` has been written, `ts` and `us` are still to come, which are above it,
    and all of them add up to `f`. -/
structure Merging (n : Nat) (f : MvPolynomial (Fin n) ℚ) (m : Merge) (ws ts us : Terms) : Prop where
  left : m.left.From n m.i ts
  right : m.right.From n m.j us
  written : m.written.UpTo n m.count ws
  room : m.count + ts.length + us.length ≤ m.written.coeffs.length
  descLeft : Terms.Descending n (ws ++ ts).reverse
  descRight : Terms.Descending n (ws ++ us).reverse
  sum : Terms.toMv n ws + Terms.toMv n ts + Terms.toMv n us = f

namespace Merging

variable {f : MvPolynomial (Fin n) ℚ} {m : Merge}

/-- Taking from the left table what is below all that is to come of the right one. -/
theorem takeLeft (h : Merging n f m ws (t :: ts) us) (below : ∀ u ∈ us, t.exps.compare u.exps = .lt) :
    ∃ m', m.takeLeft n = .ok m' ∧ Merging n f m' (ws ++ [t]) ts us := by
  obtain ⟨-, len, some, above, -⟩ := Terms.Descending.middle_iff.mp h.descLeft
  have room := h.room
  rw [List.length_cons] at room
  obtain ⟨left, written, run, next, wrote, same⟩ := move_spec h.left h.written (by omega) len
  have taken : m.takeLeft n = .ok { m with left, written, i := m.i + 1, count := m.count + 1 } := by
    unfold Merge.takeLeft
    rw [run]
    rfl
  refine ⟨_, taken, next, h.right, wrote, ?_, ?_, ?_, ?_⟩
  · show m.count + 1 + ts.length + us.length ≤ written.coeffs.length
    omega
  · rw [← List.append_cons]
    exact h.descLeft
  · rw [← List.append_cons]
    exact Terms.Descending.middle_iff.mpr ⟨h.descRight, len, some, above, below⟩
  · rw [← h.sum, Terms.toMv_append, Terms.toMv_singleton, Terms.toMv_cons]
    ring

theorem flip (h : Merging n f m ws ts us) : Merging n f m.flip ws us ts where
  left := h.right
  right := h.left
  written := h.written
  room := by
    have room := h.room
    show m.count + us.length + ts.length ≤ m.written.coeffs.length
    omega
  descLeft := h.descRight
  descRight := h.descLeft
  sum := by
    rw [← h.sum]
    ring

/-- Taking from the right table what is below all that is to come of the left one. -/
theorem takeRight (h : Merging n f m ws ts (u :: us)) (below : ∀ t ∈ ts, u.exps.compare t.exps = .lt) :
    ∃ m', m.takeRight n = .ok m' ∧ Merging n f m' (ws ++ [u]) ts us := by
  obtain ⟨m', run, inv⟩ := h.flip.takeLeft below
  refine ⟨m'.flip, ?_, inv.flip⟩
  rw [Merge.takeRight_eq, run]
  rfl

/-- Adding up two terms of one row, which are below all that is to come after them. -/
theorem takeBoth (h : Merging n f m ws (t :: ts) (u :: us)) (same : t.exps = u.exps) :
    ∃ m' ws', m.takeBoth n = .ok m' ∧ Merging n f m' ws' ts us := by
  obtain ⟨descLeft, len, -, above, below'⟩ := Terms.Descending.middle_iff.mp h.descLeft
  obtain ⟨descRight, len', -, -, below⟩ := Terms.Descending.middle_iff.mp h.descRight
  have sum : Terms.toMv n ws + monomial (t.exps.toFinsupp n) (t.coeff + u.coeff).toRat + Terms.toMv n ts +
      Terms.toMv n us = f := by
    rw [← h.sum, Terms.toMv_cons, Terms.toMv_cons, Coefficient.toRat_add, map_add, same]
    ring
  have room := h.room
  rw [List.length_cons, List.length_cons] at room
  unfold Merge.takeBoth
  rw [h.left.getElem?, h.right.getElem?]
  dsimp only
  split
  · rename_i zero
    rw [(Coefficient.isZero_iff_toRat _).mp zero, map_zero, add_zero] at sum
    refine ⟨_, ws, rfl, (h.left.set _).tail len, h.right.tail len', h.written, ?_, descLeft, descRight, sum⟩
    show m.count + ts.length + us.length ≤ m.written.coeffs.length
    omega
  · rename_i some
    -- the sum stands in the left table now, and is taken from there
    have merged : Merging n f
        { m with left := { m.left with coeffs := m.left.coeffs.set m.i (t.coeff + u.coeff) }, j := m.j + 1 }
        ws (⟨t.coeff + u.coeff, t.exps⟩ :: ts) us := {
      left := h.left.set _
      right := h.right.tail len'
      written := h.written
      room := by
        show m.count + (ts.length + 1) + us.length ≤ m.written.coeffs.length
        omega
      descLeft := Terms.Descending.middle_iff.mpr ⟨descLeft, len, Bool.eq_false_iff.mpr some, above, below'⟩
      descRight := descRight
      sum := by
        rw [← sum, Terms.toMv_cons]
        ring }
    obtain ⟨m', run, inv⟩ := merged.takeLeft (same ▸ below)
    exact ⟨m', _, run, inv⟩

theorem remaining_eq (h : Merging n f m ws ts us) : m.remaining = ts.length + us.length := by
  rw [← h.left.length, ← h.right.length]
  rfl

/-- **Every step treats the smallest row that is still to come**, and fails nowhere. -/
theorem step (h : Merging n f m ws ts us) (more : m.remaining ≠ 0) :
    ∃ m' ws' ts' us', m.step n = .ok m' ∧ Merging n f m' ws' ts' us' := by
  rw [h.remaining_eq] at more
  unfold Merge.step
  simp only [h.left.lt_iff, h.right.lt_iff]
  cases us with
  | nil =>
    obtain ⟨t, ts, rfl⟩ : ∃ t ts', ts = t :: ts' := List.exists_cons_of_length_pos (Nat.pos_of_ne_zero more)
    obtain ⟨m', run, inv⟩ := h.takeLeft (by simp)
    exact ⟨m', _, _, _, run, inv⟩
  | cons u us =>
    rw [if_pos (List.cons_ne_nil u us)]
    cases ts with
    | nil =>
      obtain ⟨m', run, inv⟩ := h.takeRight (by simp)
      exact ⟨m', _, _, _, run, inv⟩
    | cons t ts =>
      obtain ⟨-, lenT, -, -, -⟩ := Terms.Descending.middle_iff.mp h.descLeft
      obtain ⟨-, lenU, -, -, -⟩ := Terms.Descending.middle_iff.mp h.descRight
      rw [if_pos (List.cons_ne_nil t ts), h.left.row lenT, h.right.row lenU]
      show ∃ m' ws' ts' us', (match t.exps.compare u.exps with
        | .lt => m.takeLeft n
        | .gt => m.takeRight n
        | .eq => m.takeBoth n) = .ok m' ∧ _
      split
      · rename_i lt
        obtain ⟨m', run, inv⟩ := h.takeLeft (h.descRight.below_of_lt lenT lt)
        exact ⟨m', _, _, _, run, inv⟩
      · rename_i gt
        have lt := Exponents.compare_gt_iff.mp gt
        obtain ⟨m', run, inv⟩ := h.takeRight (h.descLeft.below_of_lt lenU lt)
        exact ⟨m', _, _, _, run, inv⟩
      · rename_i same
        obtain ⟨m', ws', run, inv⟩ := h.takeBoth (Exponents.eq_of_compare_eq same)
        exact ⟨m', ws', _, _, run, inv⟩

/-- **A merge writes everything there is to come**, and ends with nothing left. -/
theorem run {m : Merge} {ws ts us : Terms} (h : Merging n f m ws ts us) :
    ∃ m' ws', m.run n = .ok m' ∧ Merging n f m' ws' [] [] := by
  induction count : m.remaining using Nat.strongRecOn generalizing m ws ts us with
  | _ count' ih =>
    unfold Merge.run
    split
    · rename_i none
      rw [h.remaining_eq] at none
      obtain rfl : ts = [] := List.length_eq_zero_iff.mp (by omega)
      obtain rfl : us = [] := List.length_eq_zero_iff.mp (by omega)
      exact ⟨m, ws, rfl, h⟩
    · rename_i more
      obtain ⟨m', ws', ts', us', step, inv⟩ := h.step more
      obtain ⟨m'', ws'', run, done⟩ := ih _ (count ▸ Merge.step_descends step) inv rfl
      refine ⟨m'', ws'', ?_, done⟩
      split
      · rename_i fails
        cases step.symm.trans fails
      · rename_i steps
        cases step.symm.trans steps
        exact run

end Merging

/-! ## 5. Sums -/

/-- A merge begins with nothing written. -/
theorem Merging.start (ht : ts.Descending n) (hu : us.Descending n) :
    Merging n (Terms.toMv n ts + Terms.toMv n us) (.start n (ofTerms ts.reverse) (ofTerms us.reverse))
      [] ts.reverse us.reverse where
  left := From.ofTerms _
  right := From.ofTerms _
  written := {
    coeffs := rfl
    exps := by
      show List.take (0 * n) _ = []
      rw [Nat.zero_mul]
      rfl
    rows := by simp [Merge.start, Nat.mul_comm] }
  room := by simp [Merge.start]
  descLeft := by simpa using ht
  descRight := by simpa using hu
  sum := by rw [Terms.toMv_reverse, Terms.toMv_reverse, Terms.toMv_nil, zero_add]

/-- A merge that has ended has written the sum. -/
theorem Merging.result_eq {m : Merge} (ht : ts.Descending n) (hu : us.Descending n)
    (h : Merging n (Terms.toMv n ts + Terms.toMv n us) m ws [] []) :
    m.result n = ofTerms (ts.add us).reverse := by
  have written : ws = (ts.add us).reverse := by
    rw [← List.reverse_eq_iff]
    refine Terms.toMv_injective (by simpa using h.descLeft) (ht.add hu) ?_
    rw [Terms.toMv_add, ← h.sum, Terms.toMv_reverse, Terms.toMv_nil, add_zero, add_zero]
  unfold Merge.result
  rw [Nat.mul_comm, h.written.coeffs, h.written.exps, written]
  rfl

/-- **Merging the tables of two sums** gives the table of their sum. -/
theorem merge_ofTerms (ht : ts.Descending n) (hu : us.Descending n) :
    (ofTerms ts.reverse).merge n (ofTerms us.reverse) = .ok (ofTerms (ts.add us).reverse) := by
  have isEmpty (vs : Terms) : (ofTerms vs.reverse).coeffs.isEmpty = vs.isEmpty := by simp [ofTerms]
  unfold merge
  rw [isEmpty, isEmpty]
  cases ts with
  | nil =>
    rw [Terms.add]
    rfl
  | cons t ts =>
    cases us with
    | nil =>
      rw [Terms.add.eq_2 _ (List.cons_ne_nil t ts)]
      rfl
    | cons u us =>
      obtain ⟨m, ws, run, done⟩ := (Merging.start ht hu).run
      rw [List.isEmpty_cons, List.isEmpty_cons, run, ← done.result_eq ht hu]
      rfl

end Table

namespace Polynomial

variable {p q : Polynomial}

/-- The sum of two polynomials, computed on their tables. -/
def mergeTables (p q : Polynomial) : Except Failure Table :=
  let (p, q) := align p q
  p.table.merge p.vars.length q.table

/-- **Adding the tables** of two polynomials is adding the polynomials. -/
theorem mergeTables_eq (hp : p.Sound) (hq : q.Sound) : p.mergeTables q = .ok (p + q).table := by
  have a := align_spec hp hq
  exact Table.merge_ofTerms a.left.consistent (a.vars_eq ▸ a.right.consistent)

end Polynomial

end Eliminant
