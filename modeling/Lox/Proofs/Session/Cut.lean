import Lox.Proofs.Run.Cut
import Lox.Session

/-!
# Sessions with a narrower output

A text that runs in a session with an output that accepts less has the same outcome and prints the
same, or it ends at a write that is refused and has printed the beginning (`Session.run_cut`).
-/

set_option autoImplicit false

namespace Lox.Session

/-- The session with this output in place of its own. -/
def withOutput (s : Session) (o : Output) : Session :=
  ⟨s.machine.withOutput o⟩

/-- What a text does in the session with the output `o`, if it does the first of these in `s`. -/
inductive Cut (s : Session) (o : Output) :
    Option (Outcome × Session) → Option (Outcome × Session) → Prop
  | same (outcome : Outcome) {s₁ s' : Session} {bytes : ByteArray}
      (hsame : s' = s₁.withOutput s'.machine.output)
      (hs : s.machine.output.Took bytes s₁.machine.output) (ho : o.Took bytes s'.machine.output) :
      Cut s o (some (outcome, s₁)) (some (outcome, s'))
  /-- A write is refused that may have been made in `s`. -/
  | refused {r : Option (Outcome × Session)} (keyword : Token) {s' : Session} {bytes : ByteArray}
      (hclosed : s'.machine.output.IsClosed)
      (ho : o.Took bytes s'.machine.output)
      (hr : ∀ outcome s₁, r = some (outcome, s₁) →
        ∃ rest, s.machine.output.Took (bytes ++ rest) s₁.machine.output) :
      Cut s o r (some (.failed (keyword.fault (.outputFailed o.reason)), s'))
  | outOfFuel : Cut s o none none

variable {s : Session} {o : Output}

theorem interpret_cut (h : o.Narrows s.machine.output) (fuel : Nat) (program : List Stmt) :
    Cut s o (s.interpret fuel program) ((s.withOutput o).interpret fuel program) := by
  have hcut := interpret_cuts fuel program s.machine o h
  unfold Session.interpret
  change Result.Cut _ _ _ _ (Lox.interpret fuel program (s.withOutput o).machine) _ at hcut
  generalize Lox.interpret fuel program s.machine = r at hcut ⊢
  generalize Lox.interpret fuel program (s.withOutput o).machine = r' at hcut ⊢
  cases hcut with
  | ok a hsame hm ho _ => exact .same .success (congrArg Session.mk hsame) hm ho
  | error e hsame hm ho _ => exact .same (.failed e) (congrArg Session.mk hsame) hm ho
  | @refused _ keyword _ _ _ _ _ he hclosed ho hr _ _ =>
    subst he
    refine .refused keyword hclosed ho fun outcome s₁ hs₁ => ?_
    cases r with
    | ok a m₁ =>
      cases hs₁
      exact hr m₁ rfl
    | error e m₁ =>
      cases hs₁
      exact hr m₁ rfl
    | outOfFuel => cases hs₁
  | outOfFuel _ => exact .outOfFuel

/-- **A narrower output only cuts a text short.** -/
theorem run_cut (h : o.Narrows s.machine.output) (fuel : Nat) (source : String) :
    Cut s o (s.run fuel source) ((s.withOutput o).run fuel source) := by
  have hcompile : (s.withOutput o).compile source = s.compile source := rfl
  unfold Session.run
  rw [hcompile]
  cases s.compile source with
  | ok program => exact interpret_cut h fuel program
  | error errors => exact .same (.rejected errors) rfl (.nothing _) (.nothing o)

theorem Cut.took {r : Option (Outcome × Session)} {outcome : Outcome} {s' : Session}
    (h : Cut s o r (some (outcome, s'))) : ∃ bytes, o.Took bytes s'.machine.output := by
  cases h with
  | same _ _ _ ho => exact ⟨_, ho⟩
  | refused _ _ ho _ => exact ⟨_, ho⟩

end Lox.Session
