import Lox.Proofs.Session.Pieces
import Lox.Proofs.Wrap.Checked
import Lox.Proofs.Wrap.Occurrence
import Lox.Proofs.Wrap.Run

/-!
# Putting a statement into a block changes nothing

A program in which one statement that is no declaration has been put into a block of its own gets
the same errors from the checker, and where it is accepted its runs print the same and have the same
outcome (`run_wrapped`). The block takes fuel, so the fuel with which a run ends may be another:
what is compared is how runs end (`Yields`).
-/

set_option autoImplicit false

namespace Lox

/-- With enough fuel a run ends with this outcome, when this is the output. -/
def Yields (run : Nat → Option (Outcome × Session)) (outcome : Outcome) (output : Output) : Prop :=
  ∃ fuel s, run fuel = some (outcome, s) ∧ s.machine.output = output

/-- Two runs end in the same way, but one of them may use up its fuel: the first one where `L`
holds, and the second one where `R` does. -/
inductive EndsAs (L R : Prop) :
    Option (Outcome × Session) → Option (Outcome × Session) → Prop
  | same (outcome : Outcome) {s s' : Session} (ho : s'.machine.output = s.machine.output) :
      EndsAs L R (some (outcome, s)) (some (outcome, s'))
  | outOfFuel : EndsAs L R none none
  | left (h : L) (r : Option (Outcome × Session)) : EndsAs L R none r
  | right (h : R) (r : Option (Outcome × Session)) : EndsAs L R r none

variable {L R : Prop} {s s₁ : Session} {source : String} {outcome : Outcome}
  {parsed program program' wrapped : List Stmt} {r r' : Option (Outcome × Session)}

theorem EndsAs.second (h : EndsAs L R r r') (hR : ¬ R) (hr : r = some (outcome, s)) :
    ∃ s', r' = some (outcome, s') ∧ s'.machine.output = s.machine.output := by
  subst hr
  cases h with
  | same _ ho => exact ⟨_, rfl, ho⟩
  | right h => exact absurd h hR

theorem EndsAs.first (h : EndsAs L R r r') (hL : ¬ L) (hr : r' = some (outcome, s₁)) :
    ∃ s, r = some (outcome, s) ∧ s.machine.output = s₁.machine.output := by
  subst hr
  cases h with
  | same _ ho => exact ⟨_, rfl, ho.symm⟩
  | left h => exact absurd h hL

namespace Session

/-- A program with added scopes runs as the program does. -/
theorem Reachable.interpret_boxed (hs : s.Reachable) (hc : s.compile source = .ok program)
    (hb : Stmt.AllBoxed [] program program') {fuel fuel' : Nat} (hp : Paced L R 0 fuel fuel') :
    EndsAs L R (s.interpret fuel program) (s.interpret fuel' program') := by
  have hruns := interpret_corresponds hp hs.idle.sound.embedsAt hb
  have hfailed : ∀ e m, Lox.interpret fuel program s.machine = .error e m →
      e.cause.blamesTree = false :=
    fun e m hrun => hs.blameless hc hrun
  unfold Session.interpret
  generalize Lox.interpret fuel program s.machine = result at hruns hfailed ⊢
  generalize Lox.interpret fuel' program' s.machine = result' at hruns ⊢
  cases hruns with
  | ok _ h _ => exact .same .success h.output
  | error he ho =>
    rw [he (hfailed _ _ rfl)]
    exact .same (.failed _) ho
  | outOfFuel => exact .outOfFuel
  | left hL => exact .left hL _
  | right hR => exact .right hR _

/-- Three times the fuel is enough for the program with added scopes, and the other one needs no
more than that one. -/
theorem Reachable.yields_boxed (hs : s.Reachable) (hc : s.compile source = .ok program)
    (hb : Stmt.AllBoxed [] program program') (outcome : Outcome) (output : Output) :
    Yields (s.interpret · program) outcome output ↔
      Yields (s.interpret · program') outcome output := by
  constructor
  · rintro ⟨fuel, s₁, hrun, rfl⟩
    have hp : Paced True False 0 fuel (3 * fuel) := ⟨fun _ => trivial, fun hlt => by omega⟩
    obtain ⟨s', hrun', ho⟩ := (hs.interpret_boxed hc hb hp).second not_false hrun
    exact ⟨3 * fuel, s', hrun', ho⟩
  · rintro ⟨fuel, s', hrun, rfl⟩
    have hp : Paced False True 0 fuel fuel := ⟨fun hlt => by omega, fun _ => trivial⟩
    obtain ⟨s₁, hrun', ho⟩ := (hs.interpret_boxed hc hb hp).first not_false hrun
    exact ⟨fuel, s₁, hrun', ho⟩

end Session

/-- What a source that is read compiles to depends on the checker alone. -/
theorem compile_of_read (hread : readSource Grammar.parse source = .ok parsed)
    (globals : List String) :
    compile globals source = match (resolve globals parsed).errors with
      | [] => .ok (resolve globals parsed).value.1
      | errors => .error errors := by
  unfold compile
  rw [hread]
  simp only [bind, Except.bind]
  obtain ⟨value, errors⟩ := resolve globals parsed
  cases errors <;> rfl

/-- **Putting a statement into a block changes nothing.** Let a statement of a program that is read
from source, wherever it stands, be no declaration, and put it into a block of its own. The checker
finds the same errors in the same order, whatever globals it knows. If the program is accepted in a
session, a run there ends with some outcome and output if and only if one of the new program does
with the same readings of the clock. So the texts of the two programs, if the new one has any, do
the same in every session. -/
theorem run_wrapped (hs : s.Reachable) (hread : readSource Grammar.parse source = .ok parsed)
    (hw : Stmt.SomeWrapped parsed wrapped) :
    (∀ globals, (resolve globals wrapped).errors = (resolve globals parsed).errors) ∧
    ((resolve s.machine.globalNames parsed).errors = [] → ∀ outcome output,
      Yields (s.interpret · (resolve s.machine.globalNames parsed).value.1) outcome output ↔
        Yields (s.interpret · (resolve s.machine.globalNames wrapped).value.1) outcome output) ∧
    ∀ source', readSource Grammar.parse source' = .ok wrapped → ∀ outcome output,
      Yields (s.run · source) outcome output ↔ Yields (s.run · source') outcome output := by
  have hshaped := readSource_shaped hread
  have hboxed : Stmt.AllBoxed [] parsed wrapped := hw.boxed hshaped rfl
  have herrors := fun globals => (resolve_boxed hboxed hshaped globals).1
  have hruns : (resolve s.machine.globalNames parsed).errors = [] → ∀ outcome output,
      Yields (s.interpret · (resolve s.machine.globalNames parsed).value.1) outcome output ↔
        Yields (s.interpret · (resolve s.machine.globalNames wrapped).value.1) outcome output :=
    fun hnone => hs.yields_boxed (compile_ok_iff.2 ⟨_, hread, hnone, rfl⟩)
      (resolve_boxed hboxed hshaped _).2
  refine ⟨herrors, hruns, fun source' hread' outcome output => ?_⟩
  have hc := compile_of_read hread s.machine.globalNames
  have hc' := compile_of_read hread' s.machine.globalNames
  rw [herrors] at hc'
  unfold Session.run Session.compile
  rw [hc, hc']
  cases hnone : (resolve s.machine.globalNames parsed).errors with
  | nil => exact hruns hnone outcome output
  | cons e errors => exact Iff.rfl

/-- The body of a `for` is put into a block, which stands inside the block that a step of the loop
is. -/
theorem run_wrapped_for : ∃ parsed wrapped output,
    readSource Grammar.parse "for (var x = true; x; x = false) print x;" = .ok parsed ∧
    readSource Grammar.parse "for (var x = true; x; x = false) \x7b print x; \x7d"
      = .ok wrapped ∧
    Stmt.SomeWrapped parsed wrapped ∧ output.bytes = "true\n".toUTF8 ∧
    Yields ((Session.start .unlimited (.stopped 0)).run ·
      "for (var x = true; x; x = false) print x;") .success output ∧
    Yields ((Session.start .unlimited (.stopped 0)).run ·
      "for (var x = true; x; x = false) \x7b print x; \x7d") .success output := by
  have hread : readSource Grammar.parse "for (var x = true; x; x = false) print x;"
      = .ok [.block [.var ⟨.identifier, "x", 1⟩ (some (.literal .true)),
        .loop (.variable ⟨.identifier, "x", 1⟩ none) (.block [
          .print ⟨.keyword .printWord, "print", 1⟩ (.variable ⟨.identifier, "x", 1⟩ none),
          .expression (.assign ⟨.identifier, "x", 1⟩ (.literal .false) none)])]] := by
    cbv
  have hread' : readSource Grammar.parse "for (var x = true; x; x = false) \x7b print x; \x7d"
      = .ok [.block [.var ⟨.identifier, "x", 1⟩ (some (.literal .true)),
        .loop (.variable ⟨.identifier, "x", 1⟩ none) (.block [
          .block [.print ⟨.keyword .printWord, "print", 1⟩
            (.variable ⟨.identifier, "x", 1⟩ none)],
          .expression (.assign ⟨.identifier, "x", 1⟩ (.literal .false) none)])]] := by
    cbv
  have hw : Stmt.SomeWrapped
      [.block [.var ⟨.identifier, "x", 1⟩ (some (.literal .true)),
        .loop (.variable ⟨.identifier, "x", 1⟩ none) (.block [
          .print ⟨.keyword .printWord, "print", 1⟩ (.variable ⟨.identifier, "x", 1⟩ none),
          .expression (.assign ⟨.identifier, "x", 1⟩ (.literal .false) none)])]]
      [.block [.var ⟨.identifier, "x", 1⟩ (some (.literal .true)),
        .loop (.variable ⟨.identifier, "x", 1⟩ none) (.block [
          .block [.print ⟨.keyword .printWord, "print", 1⟩
            (.variable ⟨.identifier, "x", 1⟩ none)],
          .expression (.assign ⟨.identifier, "x", 1⟩ (.literal .false) none)])]] :=
    .head (.inBlock (.tail (.head (.inLoop (.inBlock (.head (.here rfl)))))))
  have hrun : ((Session.start .unlimited (.stopped 0)).run 14
      "for (var x = true; x; x = false) print x;").map (fun p => (p.1, p.2.machine.output.bytes))
        = some (.success, "true\n".toUTF8) := by
    cbv
  obtain ⟨⟨outcome, s⟩, hrun, heq⟩ := Option.map_eq_some_iff.1 hrun
  obtain ⟨rfl, hbytes⟩ := Prod.mk.inj heq
  have hyields : Yields ((Session.start .unlimited (.stopped 0)).run ·
      "for (var x = true; x; x = false) print x;") .success s.machine.output :=
    ⟨14, s, hrun, rfl⟩
  obtain ⟨-, -, hsame⟩ := run_wrapped (.start .unlimited (.stopped 0)) hread hw
  exact ⟨_, _, _, hread, hread', hw, hbytes, hyields, (hsame _ hread' _ _).1 hyields⟩

/-- A text that is run again with its statement in a block prints what the clock shows then. -/
theorem run_wrapped_apart : ∃ parsed wrapped,
    readSource Grammar.parse "print clock();" = .ok parsed ∧
    readSource Grammar.parse "\x7b print clock(); \x7d" = .ok wrapped ∧
    Stmt.SomeWrapped parsed wrapped ∧
    ((Session.start .unlimited (.stopped 0)).run 20 "print clock();").map
        (fun p => (p.1, p.2.machine.output.bytes)) = some (.success, "0\n".toUTF8) ∧
    (((Session.start .unlimited (.stopped 0)).atClock (.stopped 1)).run 20
        "\x7b print clock(); \x7d").map (fun p => (p.1, p.2.machine.output.bytes))
      = some (.success, "1\n".toUTF8) := by
  refine ⟨[.print ⟨.keyword .printWord, "print", 1⟩ (.call
      (.variable ⟨.identifier, "clock", 1⟩ none) ⟨.punct .rightParen, ")", 1⟩ [])],
    [.block [.print ⟨.keyword .printWord, "print", 1⟩ (.call
      (.variable ⟨.identifier, "clock", 1⟩ none) ⟨.punct .rightParen, ")", 1⟩ [])]],
    ?_, ?_, .head (.here rfl), ?_, ?_⟩
  · cbv
  · cbv
  · decide +kernel
  · decide +kernel

end Lox
