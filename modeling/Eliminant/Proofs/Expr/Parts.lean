import Eliminant.Proofs.Expr.Faithful

/-!
# Parts of an expression

A part of an expression is the expression itself, or a part of an operand or of an argument. An expression is
malformed as soon as one of its parts is a node whose operator does not take as many operands
(**`Expr.malformed?_eq_none_iff`**), and it is such a node that is named (`Expr.malformed?_eq_some`).
-/

namespace Eliminant

namespace Expr

variable {p a : Expr} {o : Operator} {n : Nat}

/-- **A part of an expression**, the arguments of calls included. -/
inductive IsPart (p : Expr) : Expr → Prop
  | self : IsPart p p
  | argument {f : String} {as : List Expr} {a : Expr} : a ∈ as → IsPart p a → IsPart p (call f as)
  | operand {o : Operator} {as : List Expr} {a : Expr} : a ∈ as → IsPart p a → IsPart p (op o as)

mutual
/-- **What is named is a malformed part**, with its number of operands. -/
theorem malformed?_eq_some : ∀ (a : Expr), a.malformed? = some (o, n) →
    ∃ as, IsPart (op o as) a ∧ n = as.length ∧ o.accepts as.length = false
  | num _, h => by cases h
  | var _, h => by cases h
  | call f as, h => by
    obtain ⟨b, hb, bs, part, bad⟩ := malformedList?_eq_some as h
    exact ⟨bs, .argument hb part, bad⟩
  | op p as, h => by
    unfold malformed? at h
    split at h
    · obtain ⟨b, hb, bs, part, bad⟩ := malformedList?_eq_some as h
      exact ⟨bs, .operand hb part, bad⟩
    · rename_i refuses
      cases h
      exact ⟨as, .self, rfl, Bool.not_eq_true _ ▸ refuses⟩

theorem malformedList?_eq_some : ∀ (as : List Expr), malformedList? as = some (o, n) →
    ∃ a ∈ as, ∃ bs, IsPart (op o bs) a ∧ n = bs.length ∧ o.accepts bs.length = false
  | [], h => by cases h
  | a :: as, h => by
    obtain first | ⟨-, later⟩ := Option.or_eq_some_iff.mp h
    · exact ⟨a, List.mem_cons_self, malformed?_eq_some a first⟩
    · obtain ⟨b, hb, bad⟩ := malformedList?_eq_some as later
      exact ⟨b, List.mem_cons_of_mem a hb, bad⟩
end

/-- The parts of a well-formed expression are well formed. -/
theorem IsPart.malformed? (h : IsPart p a) (wellFormed : a.malformed? = none) : p.malformed? = none := by
  induction h with
  | self => exact wellFormed
  | argument mem _ ih => exact ih (malformed?_call.mp wellFormed _ mem)
  | operand mem _ ih => exact ih ((malformed?_op.mp wellFormed).2 _ mem)

/-- **An expression is well formed if and only if all of its nodes are.** -/
theorem malformed?_eq_none_iff : a.malformed? = none ↔
    ∀ o as, IsPart (op o as) a → o.accepts as.length = true := by
  constructor
  · exact fun wellFormed o as part => (malformed?_op.mp (part.malformed? wellFormed)).1
  · intro accepts
    cases h : a.malformed? with
    | none => rfl
    | some r =>
      obtain ⟨as, part, -, refuses⟩ := malformed?_eq_some a h
      cases (accepts _ as part).symm.trans refuses

end Expr

end Eliminant
