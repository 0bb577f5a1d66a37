import Lox.Proofs.Grammar.Shape
import Lox.Run.Value

/-!
# Causes that blame the tree

Some runtime errors are about the tree and not about the values that the program computes: a slot
without a distance or with a wrong one, an operator that is none, a `return` outside of functions.
-/

set_option autoImplicit false

namespace Lox

/-- The causes that blame the tree. -/
def RuntimeCause.blamesTree : RuntimeCause → Bool
  | .invalidUnaryOperator => true
  | .invalidBinaryOperator => true
  | .noScope _ _ => true
  | .superUnresolved => true
  | .superclassUnbound => true
  | .thisUnbound => true
  | .returnAtTopLevel => true
  | _ => false

/-! ## Operators -/

theorem Value.unary_error {operator : Token} {right : Value} {e : RuntimeError}
    (hop : operator.kind = .punct .bang ∨ operator.kind = .punct .minus)
    (h : Value.unary operator right = .error e) : e.cause.blamesTree = false := by
  unfold Value.unary at h
  rcases hop with hop | hop
  · rw [hop] at h
    cases h
  · rw [hop] at h
    cases right <;> cases h <;> rfl

/-- An operator on numbers is invalid only where it is none of the grammar's. -/
theorem Value.arithmetic_ok {operator : Token} (hop : operator.IsInfix)
    (hplus : operator.kind ≠ .punct .plus) (heq : operator.kind ≠ .punct .equalEqual)
    (hne : operator.kind ≠ .punct .bangEqual) (a b : Float) :
    ∃ v, Value.arithmetic operator a b = .ok v := by
  obtain ⟨l, hor, hand, hjoins⟩ := hop
  unfold Value.arithmetic
  generalize operator.kind = kind at hplus heq hne hjoins
  cases hjoins with
  | or => exact absurd rfl hor
  | and => exact absurd rfl hand
  | _ => first | exact ⟨_, rfl⟩ | contradiction

theorem Value.binary_error {operator : Token} (hop : operator.IsInfix) {left right : Value}
    {e : RuntimeError} (h : Value.binary operator left right = .error e) :
    e.cause.blamesTree = false := by
  unfold Value.binary at h
  split at h
  · cases h
  · cases h
  · split at h <;> cases h
    rfl
  · rename_i heq hne hplus
    split at h
    · obtain ⟨v, hv⟩ := Value.arithmetic_ok hop hplus heq hne _ _
      rw [hv] at h
      cases h
    · cases h
      rfl

end Lox
