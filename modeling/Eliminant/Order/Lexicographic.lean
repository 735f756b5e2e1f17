/-!
# Lexicographic orders that cannot descend forever

Three orders on lists over a well-founded relation `r`:

* `EvenLex r`: lists of one length, compared at the first place where they differ;
* `DownLex r`: descending lists, compared at the first place where they differ, a list that ends
  first being smaller. The lengths are free -- descending is what keeps the order well-founded;
* `ShorterLex r`: shorter lists first, and lists of one length by `EvenLex`.

`EvenLex.wf`, `DownLex.wf` and `ShorterLex.wf` are the main facts.
-/

namespace Eliminant

variable {α : Type}

/-! ## 1. Lists of one length -/

/-- The lexicographic order on lists of one length. -/
inductive EvenLex (r : α → α → Prop) : List α → List α → Prop
  | head {a b : α} {as bs : List α} : r a b → as.length = bs.length → EvenLex r (a :: as) (b :: bs)
  | tail {a : α} {as bs : List α} : EvenLex r as bs → EvenLex r (a :: as) (a :: bs)

namespace EvenLex

variable {r : α → α → Prop}

theorem length_eq {as bs : List α} (h : EvenLex r as bs) : as.length = bs.length := by
  induction h with
  | head _ h => simp [h]
  | tail _ ih => simp [ih]

theorem acc_cons (hr : WellFounded r) {n : Nat}
    (shorter : ∀ as : List α, as.length = n → Acc (EvenLex r) as) (a : α) :
    ∀ as : List α, as.length = n → Acc (EvenLex r) (a :: as) := by
  induction a using hr.induction with
  | _ a below =>
    intro as len
    have acc := shorter as len
    induction acc with
    | intro as _ ih =>
      refine Acc.intro _ fun y hy => ?_
      cases hy with
      | head hab hlen => exact below _ hab _ (hlen.trans len)
      | tail h => exact ih _ h (h.length_eq.trans len)

/-- **Lists of one length cannot descend forever.** -/
theorem wf (hr : WellFounded r) : WellFounded (EvenLex r) := by
  have all : ∀ n : Nat, ∀ as : List α, as.length = n → Acc (EvenLex r) as := by
    intro n
    induction n with
    | zero =>
      intro as len
      cases List.eq_nil_of_length_eq_zero len
      exact Acc.intro _ fun y hy => nomatch hy
    | succ n ih =>
      intro as len
      cases as with
      | nil => cases len
      | cons a as => exact acc_cons hr ih a as (Nat.succ.inj len)
  exact ⟨fun as => all as.length as rfl⟩

theorem cons_iff {a b : α} {as bs : List α} : EvenLex r (a :: as) (b :: bs) ↔
    (r a b ∧ as.length = bs.length) ∨ (a = b ∧ EvenLex r as bs) := by
  constructor
  · intro h
    cases h with
    | head h len => exact .inl ⟨h, len⟩
    | tail h => exact .inr ⟨rfl, h⟩
  · rintro (⟨h, len⟩ | ⟨rfl, h⟩)
    · exact .head h len
    · exact .tail h

instance decidable [DecidableEq α] [DecidableRel r] :
    (as bs : List α) → Decidable (EvenLex r as bs)
  | [], _ => isFalse nofun
  | _ :: _, [] => isFalse nofun
  | _ :: as, _ :: bs =>
    have := decidable as bs
    decidable_of_iff' _ cons_iff

end EvenLex

/-! ## 2. Descending lists -/

/-- Whether every entry of a list is `r`-above the next. -/
def IsDown (r : α → α → Prop) : List α → Prop
  | a :: b :: rest => r b a ∧ IsDown r (b :: rest)
  | _ => True

theorem IsDown.tail {r : α → α → Prop} {a : α} : ∀ {as : List α}, IsDown r (a :: as) → IsDown r as
  | [], _ => trivial
  | _ :: _, h => h.2

instance IsDown.decidable {r : α → α → Prop} [DecidableRel r] :
    (as : List α) → Decidable (IsDown r as)
  | a :: b :: rest =>
    have := IsDown.decidable (r := r) (b :: rest)
    inferInstanceAs (Decidable (r b a ∧ IsDown r (b :: rest)))
  | [_] | [] => isTrue trivial

/-- The lexicographic order on descending lists. -/
def DownLex (r : α → α → Prop) (as bs : List α) : Prop := IsDown r as ∧ List.Lex r as bs

namespace DownLex

variable {r : α → α → Prop}

instance decidable [DecidableEq α] [DecidableRel r] (as bs : List α) :
    Decidable (DownLex r as bs) := inferInstanceAs (Decidable (_ ∧ _))

theorem acc_nil : Acc (DownLex r) [] := Acc.intro _ fun _ h => nomatch h.2

theorem acc_cons (hr : WellFounded r) (a : α) :
    ∀ as : List α, IsDown r (a :: as) → Acc (DownLex r) (a :: as) := by
  induction a using hr.induction with
  | _ a below =>
    intro as down
    have acc : Acc (DownLex r) as := by
      cases as with
      | nil => exact acc_nil
      | cons b bs => exact below b down.1 bs down.2
    induction acc with
    | intro as _ ih =>
      refine Acc.intro _ fun y hy => ?_
      cases y with
      | nil => exact acc_nil
      | cons b bs =>
        obtain ⟨hdown, hlex⟩ := hy
        cases hlex with
        | rel hba => exact below b hba bs hdown
        | cons h => exact ih bs ⟨hdown.tail, h⟩ hdown

/-- **Descending lists cannot descend forever.** -/
theorem wf (hr : WellFounded r) : WellFounded (DownLex r) := by
  refine ⟨fun bs => Acc.intro _ fun y hy => ?_⟩
  cases y with
  | nil => exact acc_nil
  | cons a as => exact acc_cons hr a as hy.1

end DownLex

/-! ## 3. Shorter lists first -/

/-- Shorter lists first, and lists of one length by `EvenLex`. -/
def ShorterLex (r : α → α → Prop) (as bs : List α) : Prop :=
  as.length < bs.length ∨ EvenLex r as bs

instance ShorterLex.decidable {r : α → α → Prop} [DecidableEq α] [DecidableRel r]
    (as bs : List α) : Decidable (ShorterLex r as bs) := inferInstanceAs (Decidable (_ ∨ _))

/-- **Lists that get shorter, or smaller at one length, cannot descend forever.** -/
theorem ShorterLex.wf {r : α → α → Prop} (hr : WellFounded r) : WellFounded (ShorterLex r) := by
  have lex : WellFounded (Prod.Lex (· < · : Nat → Nat → Prop) (EvenLex r)) :=
    (Prod.lex ⟨_, Nat.lt_wfRel.wf⟩ ⟨_, EvenLex.wf hr⟩).wf
  refine Subrelation.wf ?_ (InvImage.wf (fun as : List α => (as.length, as)) lex)
  intro as bs h
  show Prod.Lex _ _ (as.length, as) (bs.length, bs)
  cases h with
  | inl h => exact Prod.Lex.left _ _ h
  | inr h =>
    rw [h.length_eq]
    exact Prod.Lex.right _ h

end Eliminant
