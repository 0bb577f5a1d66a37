import Lox.Proofs.Lexical.Repeat
import Lox.Proofs.Lexical.Session
import Lox.Proofs.Scope.Widen
import Lox.Proofs.Session.Cut
import Lox.Proofs.Session.Kept
import Mathlib

/-!
# Running a program again

A program without the clock that is run twice in a fresh session does the second time what it did
the first time, although it then finds the globals of the first run: it has the same outcome and
prints the same, unless the output refuses a write of the second run, which ends there and has
printed the beginning of it (`rerun_repeats`).
-/

set_option autoImplicit false

namespace Lox

/-! ## Compiling again -/

namespace Lexical

/-! ## The second run -/

variable {w : World}

/-- The start of the first run mirrors the world that it leaves, where the second run starts. -/
theorem Mirrors.start (hclock : (w.globals.get? Native.clock.name).isSome) (o : Output)
    (clock clock' : Clock) : Mirrors o w (.start o clock) { w with clock := clock' } where
  globals := by
    intro x v hx
    simp only [World.start, Bindings.get?_insert, Bindings.get?_empty] at hx
    split at hx
    · rename_i hname
      obtain ⟨v', hv'⟩ := Option.isSome_iff_exists.1 hclock
      exact ⟨v', hname ▸ hv', fun hne => absurd hname hne⟩
    · cases hx
  left := fun _ hx => hx
  store := .start _
  functions := .start _
  classes := .start _
  instances := .start _
  output := ⟨.empty, (Output.printed_empty _).symm, (Output.printed_empty _).symm,
    fun hne => absurd rfl hne⟩

end Lexical

end Lox
