import Eliminant.Order.Lexicographic
import Eliminant.Polynomial.Terms

/-!
# Descents: why division and reduction end

Division and reduction have no bound that could be read off their input. They end because something
gets smaller in an order that cannot descend forever:

* `Terms.LeadBelow`: the leading row of what is left of a dividend;
* `SmallerSystem`: a system of sums, of which some were replaced by smaller ones or dropped.

Both relations are decidable. A computation asks for them before it goes on, so that it ends on any
input; on sums in descending order the answer is always yes.
-/

namespace Eliminant

/-! ## 1. Rows -/

/-- A row below another of its length. -/
def Exponents.Below (as bs : Exponents) : Prop :=
  as.length = bs.length ∧ Exponents.compare as bs = .lt

instance (as bs : Exponents) : Decidable (as.Below bs) := inferInstanceAs (Decidable (_ ∧ _))

theorem Exponents.Below.evenLex : ∀ {as bs : Exponents}, as.Below bs → EvenLex (· < ·) as bs
  | [], [], ⟨_, h⟩ => nomatch h
  | [], _ :: _, ⟨h, _⟩ => nomatch h
  | _ :: _, [], ⟨h, _⟩ => nomatch h
  | a :: as, b :: bs, ⟨len, h⟩ => by
    have even : as.length = bs.length := by simpa using len
    unfold Exponents.compare at h
    split at h
    · exact .head ‹a < b› even
    · split at h
      · cases h
      · have : a = b := by omega
        subst this
        exact .tail (Below.evenLex ⟨even, h⟩)

/-- **Rows cannot descend forever.** -/
theorem Exponents.below_wf : WellFounded Exponents.Below :=
  Subrelation.wf Below.evenLex (EvenLex.wf Nat.lt_wfRel.wf)

/-! ## 2. The leading row of a sum -/

namespace Terms

/-- The leading row of `us` is below the one of `ts`, or only `us` is empty. -/
def LeadBelow : (us ts : Terms) → Prop
  | _, [] => False
  | [], _ :: _ => True
  | u :: _, t :: _ => u.exps.Below t.exps

instance : (us ts : Terms) → Decidable (LeadBelow us ts)
  | _, [] => isFalse id
  | [], _ :: _ => isTrue trivial
  | u :: _, t :: _ => inferInstanceAs (Decidable (u.exps.Below t.exps))

theorem acc_nil : Acc LeadBelow [] := Acc.intro _ fun us h => by cases us <;> exact h.elim

/-- **The leading row of a sum cannot descend forever.** -/
theorem leadBelow_wf : WellFounded LeadBelow := by
  have all : ∀ (e : Exponents) (t : Term) (ts : Terms), t.exps = e → Acc LeadBelow (t :: ts) := by
    intro e
    induction e using Exponents.below_wf.induction with
    | _ e below =>
      intro t ts he
      refine Acc.intro _ fun us h => ?_
      cases us with
      | nil => exact acc_nil
      | cons u us => exact below u.exps (he ▸ h) u us rfl
  refine ⟨fun ts => ?_⟩
  cases ts with
  | nil => exact acc_nil
  | cons t ts => exact all _ t ts rfl

/-- The rows of a sum. -/
def rows (ts : Terms) : List Exponents := ts.map (·.exps)

end Terms

/-! ## 3. Systems of sums -/

/-- A system of which some members were dropped, or replaced by members with smaller rows. -/
def SmallerSystem (us ts : List Terms) : Prop :=
  ShorterLex (DownLex Exponents.Below) (us.map Terms.rows) (ts.map Terms.rows)

instance (us ts : List Terms) : Decidable (SmallerSystem us ts) :=
  inferInstanceAs (Decidable (ShorterLex _ _ _))

/-- **Systems cannot descend forever.** -/
theorem smallerSystem_wf : WellFounded SmallerSystem :=
  InvImage.wf (List.map Terms.rows) (ShorterLex.wf (DownLex.wf Exponents.below_wf))

end Eliminant
