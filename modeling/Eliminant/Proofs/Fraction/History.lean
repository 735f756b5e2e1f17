import Eliminant.Proofs.Fraction.Arithmetic

/-!
# Placeholders over a history of replacements

One pair of maps serves any number of polynomials, and it grows with each of them. Whatever has been
replaced (`Placeholders.History`), the map from kernels to numbers and the map from numbers to kernels are
inverse to each other (`Placeholders.Faithful`), and what has been handed out is never taken back
(`Placeholders.Extends`):

* **`Placeholders.Faithful.number?_iff_kernelOf?`**: the two maps are inverse to each other, and so
  `Placeholders.Faithful.standsFor_standIn`: a kernel is found again from its temporary;
* `Placeholders.exists_replace`: replacing never fails, and it maps the variables by `standIn`;
* **`Placeholders.History.reversible`**: two polynomials that have been replaced at any time are put back,
  and so are their sum and their product.
-/

namespace Eliminant

open Eliminant.Polynomial (Mapped Plain Overflows)

variable {v : Variable} {n : Nat} {m m' m'' : Placeholders} {p q p' q' r : Polynomial}
  {log : List (Polynomial × Polynomial)}

/-- A map whose keys are distinct finds all of its entries. -/
theorem lookup_eq_some_iff_mem {α β : Type} [DecidableEq α] {a : α} {b : β} : ∀ {entries : List (α × β)},
    (entries.map (·.1)).Nodup → (entries.lookup a = some b ↔ (a, b) ∈ entries)
  | [], _ => by simp
  | (key, value) :: entries, nodup => by
    rw [List.map_cons, List.nodup_cons] at nodup
    rw [List.lookup_cons]
    by_cases same : a = key
    · subst same
      have elsewhere : (a, b) ∉ entries := fun mem => nodup.1 (List.mem_map.mpr ⟨_, mem, rfl⟩)
      simp [elsewhere, eq_comm]
    · rw [beq_false_of_ne same]
      refine (lookup_eq_some_iff_mem nodup.2).trans ?_
      simp [same]

/-- A product is over the variables of both factors. -/
theorem Polynomial.mul_aligned (hp : p.Sound) (hq : q.Sound) :
    Answers Failure.IsOverflow (fun r => r.vars = (align p q).1.vars) (p.mul q) := by
  have a := align_spec hp hq
  rw [mul_align hp hq]
  exact (a.reads_left.mul_answers a.reads_right).imp fun r hr => hr.vars_eq

namespace Placeholders

/-! ## 1. What the two maps know -/

/-- **The two maps are inverse to each other**, every kernel has a number of its own, and the next number
    is a new one. -/
structure Faithful (m : Placeholders) : Prop where
  isKernel : ∀ x ∈ m.numbers, x.1.isKernel = true
  below : ∀ x ∈ m.kernels, x.1 < m.next
  numbers : (m.numbers.map (·.1)).Nodup
  kernels : (m.kernels.map (·.1)).Nodup
  inverse : ∀ v n, (v, n) ∈ m.numbers ↔ (n, v) ∈ m.kernels

/-- What `m` knows, `m'` knows as well. -/
def Extends (m m' : Placeholders) : Prop := m.numbers ⊆ m'.numbers

theorem Extends.refl (m : Placeholders) : m.Extends m := List.Subset.refl _

theorem Extends.trans (h : m.Extends m') (h' : m'.Extends m'') : m.Extends m'' :=
  List.Subset.trans h h'

/-- The kernels among these variables are known. -/
def Knows (m : Placeholders) (vs : List Variable) : Prop :=
  ∀ v ∈ vs, v.isKernel = true → ∃ n, (v, n) ∈ m.numbers

theorem Knows.mono {vs : List Variable} (h : m.Knows vs) (ext : m.Extends m') : m'.Knows vs :=
  fun v hv kernel => (h v hv kernel).imp fun _ mem => ext mem

/-- The temporary of a kernel that is known; any other variable stays. -/
def standIn (m : Placeholders) (v : Variable) : Variable := ((m.number? v).map .temporary).getD v

theorem standsFor_of_permanent (h : v.Permanent) : m.standsFor v = v := by
  cases v with
  | temporary n => exact absurd rfl (h n)
  | symbol _ | kernel _ => rfl

theorem standIn_proper (h : v.Proper) : (m.standIn v).Proper := by
  unfold standIn
  cases m.number? v with
  | none => exact h
  | some n => trivial

namespace Faithful

theorem number?_eq_some_iff (h : m.Faithful) : m.number? v = some n ↔ (v, n) ∈ m.numbers :=
  lookup_eq_some_iff_mem h.numbers

/-- **A variable has the number of a temporary if and only if the temporary has the variable as its
    kernel.** -/
theorem number?_iff_kernelOf? (h : m.Faithful) (v : Variable) (n : Nat) :
    m.number? v = some n ↔ m.kernelOf? (.temporary n) = some v := by
  rw [h.number?_eq_some_iff, h.inverse]
  exact (lookup_eq_some_iff_mem h.kernels).symm

theorem standIn_of_mem (h : m.Faithful) (mem : (v, n) ∈ m.numbers) : m.standIn v = .temporary n := by
  unfold standIn
  rw [h.number?_eq_some_iff.mpr mem]
  rfl

theorem standIn_of_not_isKernel (h : m.Faithful) (name : v.isKernel = false) : m.standIn v = v := by
  unfold standIn
  cases found : m.number? v with
  | none => rfl
  | some n =>
    rw [h.isKernel _ (h.number?_eq_some_iff.mp found)] at name
    cases name

/-- **A variable is found again from what stands in for it.** -/
theorem standsFor_standIn (h : m.Faithful) (perm : v.Permanent) : m.standsFor (m.standIn v) = v := by
  unfold standIn
  cases found : m.number? v with
  | none => exact standsFor_of_permanent perm
  | some n =>
    show (m.kernelOf? (.temporary n)).getD _ = v
    rw [(h.number?_iff_kernelOf? v n).mp found]
    rfl

/-- Different variables have different stand-ins. -/
theorem standIn_inj (h : m.Faithful) {u v : Variable} (hu : u.Permanent) (hv : v.Permanent) :
    m.standIn u = m.standIn v ↔ u = v := by
  refine ⟨fun same => ?_, congrArg _⟩
  rw [← h.standsFor_standIn hu, same, h.standsFor_standIn hv]

/-- Maps that know more agree on what is known. -/
theorem standIn_eq (h : m.Faithful) (h' : m'.Faithful) (ext : m.Extends m')
    (known : v.isKernel = true → ∃ n, (v, n) ∈ m.numbers) : m'.standIn v = m.standIn v := by
  cases kernel : v.isKernel with
  | false => rw [h.standIn_of_not_isKernel kernel, h'.standIn_of_not_isKernel kernel]
  | true =>
    obtain ⟨n, mem⟩ := known kernel
    rw [h.standIn_of_mem mem, h'.standIn_of_mem (ext mem)]

theorem new (n : Nat) : Faithful ⟨n, [], []⟩ := ⟨by simp, by simp, by simp, by simp, by simp⟩

/-- Numbers that are used up elsewhere. -/
theorem skip (h : m.Faithful) {n : Nat} (le : m.next ≤ n) : Faithful { m with next := n } :=
  { h with below := fun x hx => (h.below x hx).trans_le le }

/-- A kernel that is not known goes into both maps, under the next number. -/
theorem insert (h : m.Faithful) (kernel : v.isKernel = true) (unknown : m.number? v = none) :
    Faithful ⟨m.next + 1, (v, m.next) :: m.numbers, (m.next, v) :: m.kernels⟩ where
  isKernel := List.forall_mem_cons.mpr ⟨kernel, h.isKernel⟩
  below := List.forall_mem_cons.mpr ⟨Nat.lt_succ_self _, fun x hx => (h.below x hx).trans (Nat.lt_succ_self _)⟩
  numbers := by
    refine List.nodup_cons.mpr ⟨fun mem => ?_, h.numbers⟩
    obtain ⟨x, hx, rfl⟩ := List.mem_map.mp mem
    rw [h.number?_eq_some_iff.mpr hx] at unknown
    cases unknown
  kernels := by
    refine List.nodup_cons.mpr ⟨fun mem => ?_, h.kernels⟩
    obtain ⟨x, hx, same⟩ := List.mem_map.mp mem
    exact absurd (h.below x hx) (same ▸ lt_irrefl _)
  inverse u n := by
    rw [List.mem_cons, List.mem_cons, h.inverse, Prod.mk.injEq, Prod.mk.injEq, and_comm]

end Faithful

/-! ## 2. Replacing -/

/-- A kernel is entered, unless it is known. -/
theorem enter_spec (h : m.Faithful) (kernel : v.isKernel = true) :
    (m.enter v).1.Faithful ∧ m.Extends (m.enter v).1 ∧ (v, (m.enter v).2) ∈ (m.enter v).1.numbers := by
  unfold enter
  cases found : m.number? v with
  | some n => exact ⟨h, .refl m, h.number?_eq_some_iff.mp found⟩
  | none => exact ⟨h.insert kernel found, List.subset_cons_self _ _, List.mem_cons_self⟩

/-- **Replacing a list of variables**: all of its kernels are known afterwards, and what is known then
    says what the variables become. -/
theorem replaceVars_spec : ∀ (vs : List Variable) {m : Placeholders}, m.Faithful →
    (m.replaceVars vs).1.Faithful ∧ m.Extends (m.replaceVars vs).1 ∧ (m.replaceVars vs).1.Knows vs ∧
      (m.replaceVars vs).2 = vs.map (m.replaceVars vs).1.standIn
  | [], m, h => ⟨h, .refl m, by simp [Knows], rfl⟩
  | v :: vs, m, h => by
    unfold replaceVars
    cases kernel : v.isKernel with
    | false =>
      obtain ⟨later, ext, known, images⟩ := replaceVars_spec vs h
      refine ⟨later, ext, List.forall_mem_cons.mpr ⟨fun e => by simp [kernel] at e, known⟩, ?_⟩
      show v :: (m.replaceVars vs).2 = (v :: vs).map (m.replaceVars vs).1.standIn
      rw [List.map_cons, later.standIn_of_not_isKernel kernel, ← images]
    | true =>
      obtain ⟨faithful, entered, mem⟩ := enter_spec h kernel
      obtain ⟨later, ext, known, images⟩ := replaceVars_spec vs faithful
      refine ⟨later, entered.trans ext, List.forall_mem_cons.mpr ⟨fun _ => ⟨_, ext mem⟩, known⟩, ?_⟩
      show .temporary (m.enter v).2 :: ((m.enter v).1.replaceVars vs).2 =
        (v :: vs).map ((m.enter v).1.replaceVars vs).1.standIn
      rw [List.map_cons, later.standIn_of_mem (ext mem), ← images]

theorem nodup_standIn (h : m.Faithful) (hp : p.Plain) : (p.vars.map m.standIn).Nodup :=
  hp.sound.nodup.map_on fun u hu v hv same =>
    (h.standIn_inj (hp.permanent u hu) (hp.permanent v hv)).mp same

/-- **Replacing the kernels of a polynomial** always has an answer. -/
theorem exists_replace (h : m.Faithful) (p : Polynomial) :
    ∃ m' q, m.replace p = .ok (m', q) ∧ m'.Faithful ∧ m.Extends m' ∧ m'.Knows p.vars ∧
      (p.Plain → Mapped m'.standIn p q) := by
  unfold replace
  split
  · obtain ⟨later, ext, known, images⟩ := replaceVars_spec p.vars h
    have len : (m.replaceVars p.vars).2.length = p.vars.length := by
      rw [images, List.length_map]
    obtain ⟨-, _, -, run⟩ := Polynomial.rename_eq_moveTo len
    dsimp only
    rw [run]
    refine ⟨_, _, rfl, later, ext, known, fun hp => ?_⟩
    obtain ⟨q, run', renamed⟩ := Polynomial.exists_renamed (m.replaceVars p.vars).1.standIn hp.sound
      (nodup_standIn later hp) fun v hv => standIn_proper (hp.sound.proper v hv)
    rw [← images, run] at run'
    cases run'
    exact renamed.mapped
  · rename_i none
    have names : ∀ v ∈ p.vars, v.isKernel = false := by simpa using none
    refine ⟨m, p, rfl, h, .refl m, fun v hv kernel => by simp [names v hv] at kernel, fun hp => ?_⟩
    exact .refl hp.sound fun v hv => h.standIn_of_not_isKernel (names v hv)

/-! ## 3. Histories -/

/-- **The polynomials that have been replaced since a map was new**, each with what it became, the latest
    first. Numbers may be used up elsewhere at any time, also before the map is made. -/
inductive History : List (Polynomial × Polynomial) → Placeholders → Prop
  | new (n : Nat) : History [] ⟨n, [], []⟩
  | elsewhere {log : List (Polynomial × Polynomial)} {m : Placeholders} {n : Nat}
      (h : History log m) (le : m.next ≤ n) : History log { m with next := n }
  | replace {log : List (Polynomial × Polynomial)} {m m' : Placeholders} {p q : Polynomial}
      (h : History log m) (run : m.replace p = .ok (m', q)) : History ((p, q) :: log) m'

/-- **What has been replaced is known from then on**, and the map says what it became. -/
theorem History.mapped (h : History log m) :
    m.Faithful ∧ ∀ x ∈ log, m.Knows x.1.vars ∧ (x.1.Plain → Mapped m.standIn x.1 x.2) := by
  induction h with
  | new n => exact ⟨.new n, by simp⟩
  | elsewhere _ le ih => exact ⟨ih.1.skip le, ih.2⟩
  | replace _ run ih =>
    obtain ⟨faithful, before⟩ := ih
    obtain ⟨m', q, run', later, ext, here⟩ := exists_replace faithful _
    rw [run] at run'
    cases run'
    refine ⟨later, List.forall_mem_cons.mpr ⟨here, fun x hx => ?_⟩⟩
    obtain ⟨known, mapped⟩ := before x hx
    exact ⟨known.mono ext, fun hp => (mapped hp).congr fun v hv =>
      (faithful.standIn_eq later ext (known v hv)).symm⟩

/-! ## 4. Putting back -/

/-- Restoring undoes replacing, whatever a map knows. -/
theorem rename_standsFor (h : m.Faithful) (hp : p.Plain) (mapped : Mapped m.standIn p p') :
    MvPolynomial.rename m.standsFor p'.toMv = p.toMv := by
  rw [mapped.rename_toMv]
  unfold Polynomial.toMv
  rw [MvPolynomial.rename_rename, MvPolynomial.rename_rename]
  congr 2
  exact funext fun i => h.standsFor_standIn (hp.permanent _ (List.get_mem _ i))

/-- A polynomial in stand-ins of permanent variables. -/
def OverStandIns (m : Placeholders) (p : Polynomial) : Prop :=
  ∀ v ∈ p.vars, ∃ u : Variable, u.Permanent ∧ u.Proper ∧ m.standIn u = v

theorem overStandIns_of_mapped (hp : p.Plain) (mapped : Mapped m.standIn p p') :
    m.OverStandIns p' := by
  intro v hv
  obtain ⟨u, hu, same⟩ := List.mem_map.mp ((mapped.mem v).mp hv)
  exact ⟨u, hp.permanent u hu, hp.sound.proper u hu, same⟩

/-- **A polynomial in stand-ins is put back**, and it is equal to what it stands for. -/
theorem restore_equal (h : m.Faithful) (hp : p.Sound) (known : m.OverStandIns p) (hr : r.Sound)
    (value : r.toMv = MvPolynomial.rename m.standsFor p.toMv) :
    ∃ s, m.restore p = .ok s ∧ s.equal r = true := by
  have nodup : (p.vars.map m.standsFor).Nodup := by
    refine hp.nodup.map_on fun v hv w hw same => ?_
    obtain ⟨u, pu, -, rfl⟩ := known v hv
    obtain ⟨t, pt, -, rfl⟩ := known w hw
    rw [h.standsFor_standIn pu, h.standsFor_standIn pt] at same
    rw [same]
  have proper : ∀ v ∈ p.vars, (m.standsFor v).Proper := by
    intro v hv
    obtain ⟨u, pu, proper, rfl⟩ := known v hv
    rwa [h.standsFor_standIn pu]
  obtain ⟨s, run, mapped⟩ := exists_restore hp nodup proper
  refine ⟨s, run, (Polynomial.equal_iff mapped.sound hr).mpr ?_⟩
  rw [mapped.rename_toMv, value]

/-! ## 5. Sums and products -/

/-- Renaming along an injection neither makes nor mends exponents that exceed a bound together. -/
theorem exceed_rename_iff {σ τ : Type} {g : σ → τ} (inj : Function.Injective g)
    {P Q : MvPolynomial σ ℚ} {B : ℕ} :
    (∃ d ∈ (MvPolynomial.rename g P).support, ∃ e ∈ (MvPolynomial.rename g Q).support,
        ∃ v, B < d v + e v) ↔
      ∃ d ∈ P.support, ∃ e ∈ Q.support, ∃ i, B < d i + e i := by
  classical
  simp only [MvPolynomial.support_rename_of_injective inj, Finset.exists_mem_image]
  refine exists_congr fun d => and_congr_right fun _ => exists_congr fun e => and_congr_right fun _ => ?_
  constructor
  · intro h
    obtain ⟨v, hv⟩ := h
    by_cases range : v ∈ Set.range g
    · obtain ⟨i, rfl⟩ := range
      rw [Finsupp.mapDomain_apply inj, Finsupp.mapDomain_apply inj] at hv
      exact ⟨i, hv⟩
    · rw [Finsupp.mapDomain_of_notMem_range _ _ range, Finsupp.mapDomain_of_notMem_range _ _ range] at hv
      exact absurd hv (Nat.not_lt_zero B)
  · intro h
    obtain ⟨i, hi⟩ := h
    refine ⟨g i, ?_⟩
    rwa [Finsupp.mapDomain_apply inj, Finsupp.mapDomain_apply inj]

/-- Exponents fit together with placeholders if and only if they do without. -/
theorem overflows_iff_of_mapped (h : m.Faithful) (hp : p.Plain) (hq : q.Plain)
    (mp : Mapped m.standIn p p') (mq : Mapped m.standIn q q') : Overflows p' q' ↔ Overflows p q := by
  have a := Polynomial.align_spec hp.sound hq.sound
  let vars := (Polynomial.align p q).1.vars
  have get := a.left.get_injective
  have inj : Function.Injective (m.standIn ∘ vars.get) := fun i j same =>
    get ((h.standIn_inj (hp.permanent_align hq _ (List.get_mem _ i))
      (hp.permanent_align hq _ (List.get_mem _ j))).mp same)
  have left : MvPolynomial.rename vars.get (p.reading vars) = p.toMv :=
    Polynomial.rename_reading fun v hv => (a.mem v).mpr (.inl hv)
  have right : MvPolynomial.rename vars.get (q.reading vars) = q.toMv :=
    Polynomial.rename_reading fun v hv => (a.mem v).mpr (.inr hv)
  rw [Polynomial.overflows_iff mp.sound mq.sound, Polynomial.overflows_iff hp.sound hq.sound,
    mp.rename_toMv, mq.rename_toMv, ← left, ← right, MvPolynomial.rename_rename,
    MvPolynomial.rename_rename, exceed_rename_iff inj, exceed_rename_iff get]

/-- The variables of two polynomials that have been replaced. -/
theorem OverStandIns.align (hp : p.Sound) (hq : q.Sound) (op : m.OverStandIns p)
    (oq : m.OverStandIns q) (vars : r.vars = (Polynomial.align p q).1.vars) : m.OverStandIns r :=
  fun v hv => (((Polynomial.align_spec hp hq).mem v).mp (vars ▸ hv)).elim (op v) (oq v)

/-- Products of what stands for two polynomials fail with theirs, or are put back to theirs. -/
theorem mul_of_mapped (h : m.Faithful) (hp : p.Plain) (hq : q.Plain) (mp : Mapped m.standIn p p')
    (mq : Mapped m.standIn q q') (op : m.OverStandIns p') (oq : m.OverStandIns q') :
    (Overflows p q ∧ p.mul q = .error .exponentOverflow ∧ p'.mul q' = .error .exponentOverflow) ∨
      ∃ s s' r, p.mul q = .ok s ∧ p'.mul q' = .ok s' ∧ m.restore s' = .ok r ∧ r.equal s = true := by
  have left := Polynomial.mul_answers hp.sound hq.sound
  have right := Polynomial.mul_answers mp.sound mq.sound
  have same := overflows_iff_of_mapped h hp hq mp mq
  cases run : p.mul q with
  | error e =>
    rw [run] at left
    cases run' : p'.mul q' with
    | error e' =>
      rw [run'] at right
      exact .inl ⟨left.2, congrArg _ left.1, congrArg _ right.1⟩
    | ok s' =>
      rw [run'] at right
      exact absurd (same.mpr left.2) right.1
  | ok s =>
    rw [run] at left
    cases run' : p'.mul q' with
    | error e' =>
      rw [run'] at right
      exact absurd (same.mp right.2) left.1
    | ok s' =>
      rw [run'] at right
      obtain ⟨-, ss, value⟩ := left
      obtain ⟨-, ss', value'⟩ := right
      have vars := (Polynomial.mul_aligned mp.sound mq.sound).of_ok run'
      have back : s.toMv = MvPolynomial.rename m.standsFor s'.toMv := by
        rw [value, value', map_mul, rename_standsFor h hp mp, rename_standsFor h hq mq]
      obtain ⟨r, put, equal⟩ := restore_equal h ss' (op.align mp.sound mq.sound oq vars) ss back
      exact .inr ⟨s, s', r, rfl, rfl, put, equal⟩

/-- **Polynomials `p'` and `q'` that stand for `p` and `q`.** -/
structure Reversible (m : Placeholders) (p p' q q' : Polynomial) : Prop where
  /-- what `p'` is: `p` with a stand-in for each variable -/
  mapped : Mapped m.standIn p p'
  no_kernel : ∀ v ∈ p'.vars, v.isKernel = false
  temporary : ∀ v ∈ p.vars, v.isKernel = true → ∃ n, m.standIn v = .temporary n
  stays : ∀ v ∈ p.vars, v.isKernel = false → m.standIn v = v
  /-- equal variables have equal stand-ins, and different ones different ones -/
  apart : ∀ u ∈ p.vars, ∀ v ∈ q.vars, m.standIn u = m.standIn v ↔ u = v
  restore : ∃ r, m.restore p' = .ok r ∧ r.equal p = true
  restore_add : ∃ r, m.restore (p' + q') = .ok r ∧ r.equal (p + q) = true
  /-- products fail alike, or they stand for each other -/
  restore_mul : (Overflows p q ∧ p.mul q = .error .exponentOverflow ∧
      p'.mul q' = .error .exponentOverflow) ∨
    ∃ s s' r, p.mul q = .ok s ∧ p'.mul q' = .ok s' ∧ m.restore s' = .ok r ∧ r.equal s = true

/-- **Any polynomial can be replaced at any time, and what has been replaced is put back later on**,
    itself as well as its sums and products with whatever else has been replaced. The two maps are inverse
    to each other all along. -/
theorem History.reversible (h : History log m) (hp : p.Plain) (hq : q.Plain) (logp : (p, p') ∈ log)
    (logq : (q, q') ∈ log) :
    (∀ r, ∃ m' r', m.replace r = .ok (m', r')) ∧
      (∀ v n, m.number? v = some n ↔ m.kernelOf? (.temporary n) = some v) ∧ Reversible m p p' q q' := by
  obtain ⟨faithful, replaced⟩ := h.mapped
  obtain ⟨known, mp⟩ := replaced _ logp
  have mp := mp hp
  have mq := (replaced _ logq).2 hq
  have op := overStandIns_of_mapped hp mp
  have oq := overStandIns_of_mapped hq mq
  have back := rename_standsFor faithful hp mp
  have back' := rename_standsFor faithful hq mq
  have temporary (v : Variable) (hv : v ∈ p.vars) (kernel : v.isKernel = true) :
      ∃ n, m.standIn v = .temporary n :=
    (known v hv kernel).imp fun _ mem => faithful.standIn_of_mem mem
  have stays (v : Variable) (name : v.isKernel = false) := faithful.standIn_of_not_isKernel name
  refine ⟨fun r => ?_, faithful.number?_iff_kernelOf?, mp, fun v hv => ?_, temporary, fun v _ => stays v,
    fun u hu v hv => ?_, ?_, ?_, ?_⟩
  · obtain ⟨m', r', run, -⟩ := exists_replace faithful r
    exact ⟨m', r', run⟩
  · obtain ⟨u, hu, rfl⟩ := List.mem_map.mp ((mp.mem v).mp hv)
    cases kernel : u.isKernel with
    | false => rwa [stays u kernel]
    | true =>
      obtain ⟨n, same⟩ := temporary u hu kernel
      rw [same]
      rfl
  · exact faithful.standIn_inj (hp.permanent u hu) (hq.permanent v hv)
  · exact restore_equal faithful mp.sound op hp.sound back.symm
  · refine restore_equal faithful (mp.sound.add mq.sound) (op.align mp.sound mq.sound oq rfl)
      (hp.sound.add hq.sound) ?_
    rw [Polynomial.toMv_add hp.sound hq.sound, Polynomial.toMv_add mp.sound mq.sound, map_add, back,
      back']
  · exact mul_of_mapped faithful hp hq mp mq op oq

/-- `y + f(x)` and later `g(x) - f(x)`, listed in descending order, where numbers have been used up in
    between: `f(x)` keeps its temporary, and the one of `g(x)` comes behind it. -/
theorem History.reversible_at :
    let y := Variable.symbol "y"
    let f := Variable.kernel (.call "f" [.var "x"])
    let g := Variable.kernel (.call "g" [.var "x"])
    let p : Polynomial := ⟨[y, f], [⟨.one, [1, 0]⟩, ⟨.one, [0, 1]⟩]⟩
    let p' : Polynomial := ⟨[y, .temporary 3], [⟨.one, [1, 0]⟩, ⟨.one, [0, 1]⟩]⟩
    let q : Polynomial := ⟨[g, f], [⟨.one, [1, 0]⟩, ⟨-.one, [0, 1]⟩]⟩
    let q' : Polynomial := ⟨[.temporary 3, .temporary 7], [⟨-.one, [1, 0]⟩, ⟨.one, [0, 1]⟩]⟩
    let m : Placeholders := ⟨8, [(g, 7), (f, 3)], [(7, g), (3, f)]⟩
    History [(q, q'), (p, p')] m ∧ p.Plain ∧ q.Plain ∧ Reversible m p p' q q' ∧
      Reversible m q q' p p' ∧ m.number? g = some 7 ∧ m.kernelOf? (.temporary 7) = some g ∧
      m.restore p' = .ok p ∧ (q'.vars.map m.standsFor) = [f, g] := by
  intro y f g p p' q q' m
  have first : Placeholders.replace ⟨3, [], []⟩ p = .ok (⟨4, [(f, 3)], [(3, f)]⟩, p') := by cbv
  have second : Placeholders.replace ⟨7, [(f, 3)], [(3, f)]⟩ q = .ok (m, q') := by cbv
  have history : History [(q, q'), (p, p')] m :=
    .replace (.elsewhere (.replace (.new 3) first) (by decide)) second
  have hp : p.Plain := ⟨by decide, by simp [p, y, f, Variable.Permanent]⟩
  have hq : q.Plain := ⟨by decide, by simp [q, f, g, Variable.Permanent]⟩
  have earlier : (p, p') ∈ [(q, q'), (p, p')] := List.mem_cons_of_mem _ List.mem_cons_self
  have later : (q, q') ∈ [(q, q'), (p, p')] := List.mem_cons_self
  have number : m.number? g = some 7 := by cbv
  obtain ⟨-, inverse, reversible⟩ := history.reversible hp hq earlier later
  exact ⟨history, hp, hq, reversible, (history.reversible hq hp later earlier).2.2, number,
    (inverse g 7).mp number, by cbv, by cbv⟩

end Placeholders

end Eliminant
