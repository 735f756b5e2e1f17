import Eliminant.Fraction.Placeholder
import Eliminant.Proofs.Polynomial.Ordinary
import Eliminant.Proofs.Polynomial.Rename

/-!
# Placeholders stand for kernels

The placeholders that replacements lead to are those of a list of kernels, numbered in the order in
which they were met (`Placeholders.ofKernels`). Replacing maps the variables by `image`, restoring by
`original`, and `original` undoes `image` on everything but temporaries:

* `Placeholders.replaceVars_ofKernels`: which kernels have been met after a list of variables;
* **`Placeholders.replace_spec`**, **`Placeholders.restore_spec`**: what polynomials become.
-/

namespace Eliminant

variable {ks vs : List Variable} {v k : Variable}

open Eliminant.Polynomial (Mapped exists_renamed)

namespace Placeholders

/-! ## 1. Kernels in the order in which they were met -/

/-- The placeholders of a list of kernels. -/
def ofKernels (ks : List Variable) : Placeholders :=
  ⟨ks.length, ks.zipIdx.reverse, (ks.zipIdx.map Prod.swap).reverse⟩

/-- The kernels that have been met after a list of variables. -/
def met (ks vs : List Variable) : List Variable := ks ++ vs.filter fun v => v.isKernel && v ∉ ks

/-- Distinct kernels. -/
structure Kernels (ks : List Variable) : Prop where
  nodup : ks.Nodup
  isKernel : ∀ k ∈ ks, k.isKernel = true

theorem ofKernels_append (ks : List Variable) (k : Variable) :
    ofKernels (ks ++ [k]) =
      ⟨ks.length + 1, (k, ks.length) :: (ofKernels ks).numbers, (ks.length, k) :: (ofKernels ks).kernels⟩ := by
  simp [ofKernels, List.zipIdx_append]

theorem number?_ofKernels (nodup : ks.Nodup) (v : Variable) :
    (ofKernels ks).number? v = if v ∈ ks then some (ks.idxOf v) else none := by
  induction ks using List.reverseRecOn with
  | nil => rfl
  | append_singleton ks k ih =>
    obtain ⟨nodup, -, apart⟩ := List.nodup_append.mp nodup
    rw [ofKernels_append, number?, List.lookup_cons]
    by_cases same : v = k
    · subst same
      have missing : v ∉ ks := fun hv => apart v hv v (List.mem_singleton_self v) rfl
      simp [List.idxOf_append, missing]
    · rw [beq_false_of_ne same, if_congr (show v ∈ ks ++ [k] ↔ v ∈ ks by simp [same]) rfl rfl]
      refine (ih nodup).trans ?_
      split
      · rename_i hv
        rw [List.idxOf_append_of_mem hv]
      · rfl

theorem enter_of_mem (nodup : ks.Nodup) (h : v ∈ ks) :
    (ofKernels ks).enter v = (ofKernels ks, ks.idxOf v) := by
  unfold enter
  rw [number?_ofKernels nodup, if_pos h]

theorem enter_of_notMem (nodup : ks.Nodup) (h : v ∉ ks) :
    (ofKernels ks).enter v = (ofKernels (ks ++ [v]), ks.length) := by
  unfold enter
  rw [number?_ofKernels nodup, if_neg h, ofKernels_append]
  rfl

/-! ## 2. Images and originals -/

/-- What replacing makes of a variable. -/
def image (ks : List Variable) (v : Variable) : Variable :=
  if v ∈ ks then .temporary (ks.idxOf v) else v

/-- What restoring makes of a variable. -/
def original (ks : List Variable) (v : Variable) : Variable := ((ofKernels ks).kernelOf? v).getD v

theorem kernelOf?_ofKernels (ks : List Variable) (n : Nat) :
    (ofKernels ks).kernelOf? (.temporary n) = ks[n]? := by
  induction ks using List.reverseRecOn with
  | nil => rfl
  | append_singleton ks k ih =>
    rw [ofKernels_append, kernelOf?, List.lookup_cons]
    by_cases same : n = ks.length
    · subst same
      simp
    · rw [beq_false_of_ne same]
      refine ih.trans ?_
      by_cases before : n < ks.length
      · rw [List.getElem?_append_left before]
      · have behind : (ks ++ [k]).length ≤ n := by
          rw [List.length_append, List.length_singleton]
          omega
        rw [List.getElem?_eq_none behind, List.getElem?_eq_none (not_lt.mp before)]

theorem original_temporary (ks : List Variable) (n : Nat) :
    original ks (.temporary n) = (ks[n]?).getD (.temporary n) := by
  unfold original
  rw [kernelOf?_ofKernels]

theorem original_of_permanent (h : v.Permanent) : original ks v = v := by
  cases v with
  | temporary n => exact absurd rfl (h n)
  | symbol _ | kernel _ => rfl

/-- **Restoring undoes replacing.** -/
theorem original_image (h : v.Permanent) : original ks (image ks v) = v := by
  unfold image
  split
  · rename_i mem
    rw [original_temporary, List.getElem?_eq_getElem (List.idxOf_lt_length_iff.mpr mem),
      List.getElem_idxOf]
    rfl
  · exact original_of_permanent h

theorem image_proper (h : v.Proper) : (image ks v).Proper := by
  unfold image
  split
  · trivial
  · exact h

/-! ## 3. Replacing -/

theorem met_cons_of_mem (h : v ∈ ks) : met ks (v :: vs) = met ks vs := by
  simp [met, h]

theorem met_cons_of_isKernel (kernel : v.isKernel = true) (h : v ∉ ks) (hvs : v ∉ vs) :
    met ks (v :: vs) = met (ks ++ [v]) vs := by
  have same : vs.filter (fun w => w.isKernel && w ∉ ks) =
      vs.filter fun w => w.isKernel && w ∉ ks ++ [v] := by
    refine List.filter_congr fun w hw => ?_
    have ne : w ≠ v := fun e => hvs (e ▸ hw)
    simp [ne]
  unfold met
  rw [← same, List.filter_cons_of_pos (by simp [kernel, h]), List.append_assoc]
  rfl

theorem met_cons_of_not_isKernel (h : v.isKernel = false) : met ks (v :: vs) = met ks vs := by
  simp [met, h]

theorem mem_met : k ∈ met ks vs ↔ k ∈ ks ∨ (k ∈ vs ∧ k.isKernel = true) := by
  simp only [met, List.mem_append, List.mem_filter, Bool.and_eq_true, decide_eq_true_eq]
  tauto

theorem Kernels.nil : Kernels [] := ⟨List.nodup_nil, by simp⟩

theorem Kernels.met (h : Kernels ks) (nodup : vs.Nodup) : Kernels (met ks vs) := by
  refine ⟨List.nodup_append.mpr ⟨h.nodup, nodup.filter _, ?_⟩, fun k hk => ?_⟩
  · rintro k hk w hw rfl
    simp [hk] at hw
  · exact (mem_met.mp hk).elim (h.isKernel k) And.right

/-- Kernels that are met later do not change the image of one that has been met. -/
theorem image_of_append (more : List Variable) (h : v ∈ ks) :
    image (ks ++ more) v = .temporary (ks.idxOf v) := by
  unfold image
  rw [if_pos (List.mem_append_left more h), List.idxOf_append_of_mem h]

/-- **Replacing the kernels of a list of variables.** -/
theorem replaceVars_ofKernels : ∀ {vs ks : List Variable}, Kernels ks → vs.Nodup →
    (ofKernels ks).replaceVars vs = (ofKernels (met ks vs), vs.map (image (met ks vs)))
  | [], ks, _, _ => by simp [replaceVars, met]
  | v :: vs, ks, hks, nodup => by
    obtain ⟨hv, nodup⟩ := List.nodup_cons.mp nodup
    unfold replaceVars
    cases kernel : v.isKernel with
    | false =>
      have missing : v ∉ met ks vs := fun mem =>
        (mem_met.mp mem).elim (fun h => by simp [hks.isKernel v h] at kernel)
          fun h => by simp [h.2] at kernel
      have same : image (met ks vs) v = v := if_neg missing
      simp [replaceVars_ofKernels hks nodup, met_cons_of_not_isKernel kernel, same]
    | true =>
      by_cases mem : v ∈ ks
      · have here : image (met ks vs) v = .temporary (ks.idxOf v) := image_of_append _ mem
        simp [enter_of_mem hks.nodup mem, replaceVars_ofKernels hks nodup, met_cons_of_mem mem, here]
      · have hks' : Kernels (ks ++ [v]) := by
          refine ⟨List.nodup_append.mpr ⟨hks.nodup, List.nodup_singleton v, ?_⟩, ?_⟩
          · rintro k hk w hw rfl
            exact mem (List.mem_singleton.mp hw ▸ hk)
          · simpa [or_imp, forall_and, kernel] using hks.isKernel
        have here : image (met (ks ++ [v]) vs) v = .temporary ks.length := by
          refine (image_of_append _ (by simp)).trans ?_
          simp [List.idxOf_append, mem]
        simp [enter_of_notMem hks.nodup mem, replaceVars_ofKernels hks' nodup,
          met_cons_of_isKernel kernel mem hv, here]

/-! ## 4. Polynomials -/

variable {p : Polynomial}

/-- **Restoring undoes replacing** in polynomials. -/
theorem rename_original_image (ks : List Variable) (hp : ∀ v ∈ p.vars, v.Permanent) :
    MvPolynomial.rename (original ks) (MvPolynomial.rename (image ks) p.toMv) = p.toMv := by
  unfold Polynomial.toMv
  rw [MvPolynomial.rename_rename, MvPolynomial.rename_rename]
  congr 2
  exact funext fun i => original_image (hp _ (List.get_mem _ i))

theorem nodup_image (nodup : p.vars.Nodup) (hp : ∀ v ∈ p.vars, v.Permanent) :
    (p.vars.map (image ks)).Nodup := by
  refine nodup.map_on fun u hu v hv same => ?_
  rw [← original_image (hp u hu), same, original_image (hp v hv)]

/-- **Replacing the kernels of a polynomial.** -/
theorem replace_spec (hks : Kernels ks) (hp : p.Sound) (perm : ∀ v ∈ p.vars, v.Permanent) :
    ∃ q, (ofKernels ks).replace p = .ok (ofKernels (met ks p.vars), q) ∧
      Mapped (image (met ks p.vars)) p q := by
  unfold replace
  split
  · rw [replaceVars_ofKernels hks hp.nodup]
    obtain ⟨q, run, renamed⟩ := exists_renamed (image (met ks p.vars)) hp (nodup_image hp.nodup perm)
      fun v hv => image_proper (hp.proper v hv)
    refine ⟨q, ?_, renamed.mapped⟩
    dsimp only
    rw [run]
    rfl
  · rename_i none
    have names : ∀ v ∈ p.vars, v.isKernel = false := by simpa using none
    have same : met ks p.vars = ks := by
      unfold met
      rw [List.filter_eq_nil_iff.mpr fun v hv => by simp [names v hv], List.append_nil]
    rw [same]
    refine ⟨p, rfl, .refl hp fun v hv => if_neg fun mem => ?_⟩
    have := names v hv
    rw [hks.isKernel v mem] at this
    cases this

/-- The variable that a variable stands for, itself if it is no temporary of a kernel. -/
def standsFor (m : Placeholders) (v : Variable) : Variable := (m.kernelOf? v).getD v

/-- What any placeholders put back. -/
theorem exists_restore {m : Placeholders} (hp : p.Sound) (nodup : (p.vars.map m.standsFor).Nodup)
    (proper : ∀ v ∈ p.vars, (m.standsFor v).Proper) :
    ∃ q, m.restore p = .ok q ∧ Mapped m.standsFor p q := by
  unfold restore
  split
  · obtain ⟨q, run, renamed⟩ := exists_renamed m.standsFor hp nodup proper
    exact ⟨q, run, renamed.mapped⟩
  · rename_i none
    refine ⟨p, rfl, .refl hp fun v hv => ?_⟩
    have unknown : m.kernelOf? v = Option.none := by
      have := List.any_eq_false.mp (Bool.not_eq_true _ ▸ none) v hv
      rwa [Option.not_isSome_iff_eq_none] at this
    unfold standsFor
    rw [unknown]
    rfl

/-- **Putting the kernels of a polynomial back.** -/
theorem restore_spec (hp : p.Sound) (nodup : (p.vars.map (original ks)).Nodup)
    (proper : ∀ v ∈ p.vars, (original ks v).Proper) :
    ∃ q, (ofKernels ks).restore p = .ok q ∧ Mapped (original ks) p q :=
  exists_restore hp nodup proper

end Placeholders

end Eliminant
