import Lox.Proofs.Rename.Local
import Lox.Proofs.Rename.Run
import Lox.Proofs.Session.Pieces

/-!
# Renaming a local variable changes nothing

An accepted program in which one local variable or parameter gets a name that the program does not
mention is accepted again with the same slots, and its run prints the same and ends in the same way
(`run_local_renamed`). The one thing that shows is the new name in the message for an undefined
variable, which a local variable can be in its own initializer only.
-/

set_option autoImplicit false

namespace Lox

/-- The same outcome, but for the name of an undefined variable. -/
inductive Outcome.Alike (r : Renaming) : Outcome → Outcome → Prop
  | success : Outcome.Alike r .success .success
  | failed (e : RuntimeError) : Outcome.Alike r (.failed e) (.failed e)
  | undefinedVariable (line : Nat) :
      Outcome.Alike r (.failed ⟨line, .undefinedVariable r.old⟩)
        (.failed ⟨line, .undefinedVariable r.new⟩)

/-- Two ends of runs that show the same. -/
def EndsAlike (r : Renaming) (a b : Outcome × Session) : Prop :=
  a.1.Alike r b.1 ∧ b.2.machine.output = a.2.machine.output

variable {r : Renaming} {s : Session} {source : String} {program program' : List Stmt}

/-- A variable out of reach would blame the tree. -/
theorem RuntimeError.Alike.outcome {e e' : RuntimeError} (h : e.Alike r e')
    (hblame : e.cause.blamesTree = false) : Outcome.Alike r (.failed e) (.failed e') := by
  obtain ⟨line, cause⟩ := e
  obtain ⟨line', cause'⟩ := e'
  obtain ⟨hline, hcause⟩ := h
  cases hline
  cases hcause with
  | same => exact .failed _
  | undefinedVariable => exact .undefinedVariable line
  | noScope d => cases hblame

namespace Session

/-- Between two texts both runs are in the same place, with nothing marked. -/
theorem Reachable.here (h : s.Reachable) (r : Renaming) :
    Here r (fun _ => false) [] s.machine s.machine :=
  ⟨.self r s.machine, h.idle.sound, .clear (fun _ => rfl) _⟩

/-- A renamed program runs as the program does. -/
theorem Reachable.interpret_alike (hs : s.Reachable) (hc : s.compile source = .ok program)
    (hr : Stmt.AllRenamed r [] program program') (fuel : Nat) :
    Option.Rel (EndsAlike r) (s.interpret fuel program) (s.interpret fuel program') := by
  have hagrees := interpret_agrees (hs.here r) hr fuel
  have hfailed : ∀ e m, Lox.interpret fuel program s.machine = .error e m →
      e.cause.blamesTree = false :=
    fun e m hrun => hs.blameless hc hrun
  unfold Session.interpret
  generalize Lox.interpret fuel program s.machine = result at hagrees hfailed ⊢
  generalize Lox.interpret fuel program' s.machine = result' at hagrees ⊢
  cases hagrees with
  | ok _ halike _ => exact .some ⟨.success, halike.output⟩
  | error he halike => exact .some ⟨he.outcome (hfailed _ _ rfl), halike.output⟩
  | outOfFuel => exact .none

end Session

/-- **Renaming a local variable changes nothing.** Let one `var` declaration in a block or function,
or one parameter, of an accepted program get a name that the program does not mention, and so the
nodes whose slots lead to it. Without its slots the new program is accepted where the old one was,
and gets the same slots. With the same readings of the clock the runs print the same and end alike,
with one exception: the message for an undefined variable has the new name in place of the old
one. -/
theorem run_local_renamed (hs : s.Reachable) (hc : s.compile source = .ok program)
    (hr : Stmt.SomeLocalRenamed r program program') (hnew : r.new ∉ Stmt.mentionsAll program) :
    ((resolve s.machine.globalNames (Stmt.bareAll program')).errors = [] ∧
      (resolve s.machine.globalNames (Stmt.bareAll program')).value.1 = program') ∧
    (Stmt.referencesAll program').map Reference.slot
      = (Stmt.referencesAll program).map Reference.slot ∧
    (∀ fuel, Option.Rel (EndsAlike r) (s.interpret fuel program) (s.interpret fuel program')) ∧
    ∀ source', readSource Grammar.parse source' = .ok (Stmt.bareAll program') →
      s.compile source' = .ok program' ∧
        ∀ fuel, Option.Rel (EndsAlike r) (s.run fuel source) (s.run fuel source') := by
  have hrenamed := hr.renamed Marks.Clear.nil (compile_scoped hc) hnew
  obtain ⟨parsed, hread, herrors, rfl⟩ := compile_ok_iff.1 hc
  have hshaped := readSource_shaped hread
  have hmentions : r.new ∉ Stmt.mentionsAll parsed := by
    rwa [← Stmt.mentionsAll_bare, resolve_bare hshaped] at hnew
  have hresolve := resolve_renamed hshaped hmentions herrors hrenamed
  have hruns := fun fuel => hs.interpret_alike hc hrenamed fuel
  refine ⟨hresolve, hrenamed.slots, hruns, fun source' hread' => ?_⟩
  have hc' : s.compile source' = .ok program' := compile_ok_iff.2 ⟨_, hread', hresolve⟩
  refine ⟨hc', fun fuel => ?_⟩
  rw [Session.run_of_compile hc, Session.run_of_compile hc']
  exact hruns fuel

private theorem read_renamed_own :
    readSource Grammar.parse "\x7b var x; print x; \x7b var y = y = nil; \x7d \x7d"
      = .ok [.block [.var ⟨.identifier, "x", 1⟩ none,
        .print ⟨.keyword .printWord, "print", 1⟩ (.variable ⟨.identifier, "x", 1⟩ none),
        .block [.var ⟨.identifier, "y", 1⟩
          (some (.assign ⟨.identifier, "y", 1⟩ (.literal .nil) none))]]] := by
  cbv

/-- The inner variable is renamed, which fails in its own initializer under either name. The outer
variable of its name keeps it. -/
theorem run_local_renamed_own : ∃ (r : Renaming) (program program' : List Stmt),
    (r.old = "x" ∧ r.new = "y") ∧
    (Session.start .unlimited (.stopped 0)).compile
      "\x7b var x; print x; \x7b var x = x = nil; \x7d \x7d" = .ok program ∧
    Stmt.SomeLocalRenamed r program program' ∧ r.new ∉ Stmt.mentionsAll program ∧
    (Session.start .unlimited (.stopped 0)).compile
      "\x7b var x; print x; \x7b var y = y = nil; \x7d \x7d" = .ok program' ∧
    (∀ fuel, Option.Rel (EndsAlike r)
      ((Session.start .unlimited (.stopped 0)).run fuel
        "\x7b var x; print x; \x7b var x = x = nil; \x7d \x7d")
      ((Session.start .unlimited (.stopped 0)).run fuel
        "\x7b var x; print x; \x7b var y = y = nil; \x7d \x7d")) ∧
    ((Session.start .unlimited (.stopped 0)).run 20
        "\x7b var x; print x; \x7b var x = x = nil; \x7d \x7d").map
          (fun p => (p.1, p.2.machine.output.bytes))
      = some (.failed ⟨1, .undefinedVariable "x"⟩, "nil\n".toUTF8) ∧
    ((Session.start .unlimited (.stopped 0)).run 20
        "\x7b var x; print x; \x7b var y = y = nil; \x7d \x7d").map
          (fun p => (p.1, p.2.machine.output.bytes))
      = some (.failed ⟨1, .undefinedVariable "y"⟩, "nil\n".toUTF8) := by
  have hc : (Session.start .unlimited (.stopped 0)).compile
      "\x7b var x; print x; \x7b var x = x = nil; \x7d \x7d" = .ok
      [.block [.var ⟨.identifier, "x", 1⟩ none,
        .print ⟨.keyword .printWord, "print", 1⟩ (.variable ⟨.identifier, "x", 1⟩ (some 0)),
        .block [.var ⟨.identifier, "x", 1⟩
          (some (.assign ⟨.identifier, "x", 1⟩ (.literal .nil) (some 0)))]]] := by
    cbv
  have hnew : "y" ∉ Stmt.mentionsAll [.block [.var ⟨.identifier, "x", 1⟩ none,
        .print ⟨.keyword .printWord, "print", 1⟩ (.variable ⟨.identifier, "x", 1⟩ (some 0)),
        .block [.var ⟨.identifier, "x", 1⟩
          (some (.assign ⟨.identifier, "x", 1⟩ (.literal .nil) (some 0)))]]] := by
    decide
  have hr : Stmt.SomeLocalRenamed ⟨"x", "y", by decide, by decide⟩
      [.block [.var ⟨.identifier, "x", 1⟩ none,
        .print ⟨.keyword .printWord, "print", 1⟩ (.variable ⟨.identifier, "x", 1⟩ (some 0)),
        .block [.var ⟨.identifier, "x", 1⟩
          (some (.assign ⟨.identifier, "x", 1⟩ (.literal .nil) (some 0)))]]]
      [.block [.var ⟨.identifier, "x", 1⟩ none,
        .print ⟨.keyword .printWord, "print", 1⟩ (.variable ⟨.identifier, "x", 1⟩ (some 0)),
        .block [.var ⟨.identifier, "y", 1⟩
          (some (.assign ⟨.identifier, "y", 1⟩ (.literal .nil) (some 0)))]]] :=
    .head (.inBlock (.tail (.tail (.head (.block ⟨_, _, List.mem_singleton_self _, rfl⟩)))))
  obtain ⟨-, -, -, hsource⟩ := run_local_renamed (.start .unlimited (.stopped 0)) hc hr hnew
  obtain ⟨hc', hruns⟩ := hsource _ read_renamed_own
  refine ⟨_, _, _, ⟨rfl, rfl⟩, hc, hr, hnew, hc', hruns, ?_, ?_⟩
  · cbv
  · cbv

/-- A text that is run again under a new name prints what the clock shows then. -/
theorem run_local_renamed_apart : ∃ (r : Renaming) (program program' : List Stmt),
    (r.old = "x" ∧ r.new = "y") ∧
    (Session.start .unlimited (.stopped 0)).compile "\x7b var x = clock(); print x; \x7d"
      = .ok program ∧
    Stmt.SomeLocalRenamed r program program' ∧ r.new ∉ Stmt.mentionsAll program ∧
    (Session.start .unlimited (.stopped 0)).compile "\x7b var y = clock(); print y; \x7d"
      = .ok program' ∧
    ((Session.start .unlimited (.stopped 0)).run 20 "\x7b var x = clock(); print x; \x7d").map
        (fun p => (p.1, p.2.machine.output.bytes)) = some (.success, "0\n".toUTF8) ∧
    (((Session.start .unlimited (.stopped 0)).atClock (.stopped 1)).run 20
        "\x7b var y = clock(); print y; \x7d").map (fun p => (p.1, p.2.machine.output.bytes))
      = some (.success, "1\n".toUTF8) := by
  refine ⟨⟨"x", "y", by decide, by decide⟩,
    [.block [.var ⟨.identifier, "x", 1⟩ (some (.call
        (.variable ⟨.identifier, "clock", 1⟩ none) ⟨.punct .rightParen, ")", 1⟩ [])),
      .print ⟨.keyword .printWord, "print", 1⟩ (.variable ⟨.identifier, "x", 1⟩ (some 0))]],
    [.block [.var ⟨.identifier, "y", 1⟩ (some (.call
        (.variable ⟨.identifier, "clock", 1⟩ none) ⟨.punct .rightParen, ")", 1⟩ [])),
      .print ⟨.keyword .printWord, "print", 1⟩ (.variable ⟨.identifier, "y", 1⟩ (some 0))]],
    ⟨rfl, rfl⟩, ?_, ?_, ?_, ?_, ?_, ?_⟩
  · cbv
  · exact .head (.block ⟨_, _, List.mem_cons_self, rfl⟩)
  · decide
  · cbv
  · decide +kernel
  · decide +kernel

end Lox
