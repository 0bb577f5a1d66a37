import Lox.Proofs.Lines.Run
import Lox.Proofs.Run.Fuel
import Lox.Proofs.Session.Join
import Lox.Proofs.Session.Kept
import Lox.Proofs.Session.Safety
import Mathlib

/-!
# Running a text in pieces

A text that runs after another one does what the two do when they run as one text, apart from the
lines of its own tokens (`run_pieces`). To tell whose token an error is at, a program runs with
marked lines: odd numbers are lines of its own, even ones lines of what ran before it. The marks
are then read off (`interpret_own_lines`), because lines have no part in a run.
-/

set_option autoImplicit false

namespace Lox

/-! ## Whose line it is -/

/-- A line of an earlier text, marked. -/
def markOld (line : Nat) : Nat := 2 * line

/-- A line of the text that runs, marked. -/
def markOwn (line : Nat) : Nat := 2 * line + 1

/-- What a map on the lines of the text that runs does to marked lines. -/
def unmark (σ : Nat → Nat) (mark : Nat) : Nat :=
  if mark % 2 = 1 then σ (mark / 2) else mark / 2

theorem unmark_markOld (σ : Nat → Nat) : unmark σ ∘ markOld = id := by
  funext line
  simp [unmark, markOld]

theorem unmark_markOwn (σ : Nat → Nat) : unmark σ ∘ markOwn = σ := by
  funext line
  have hdiv : (2 * line + 1) / 2 = line := by omega
  have hmod : (2 * line + 1) % 2 = 1 := by omega
  simp only [unmark, markOwn, Function.comp_apply, hdiv, hmod, if_true]

/-- The run of a program on a machine, both with marked lines. -/
def markedRun (fuel : Nat) (program : List Stmt) (m : Machine) : Result Unit :=
  interpret fuel (Stmt.relabelAll markOwn program) (m.relabel markOld)

/-- Whether a program that runs on a machine stops at a token of its own, not at one of a function
that was there before. -/
def stopsAtOwn (fuel : Nat) (program : List Stmt) (m : Machine) : Bool :=
  match markedRun fuel program m with
  | .error e _ => e.line % 2 == 1
  | _ => false

/-- A program with its own lines changed runs as the marked one does. -/
theorem interpret_own_lines (σ : Nat → Nat) (fuel : Nat) (program : List Stmt) (m : Machine) :
    interpret fuel (Stmt.relabelAll σ program) m
      = (markedRun fuel program m).relabel (unmark σ) id := by
  have hrun := interpret_relabel (unmark σ) fuel (Stmt.relabelAll markOwn program)
    (m.relabel markOld)
  rw [Stmt.relabelAll_relabelAll, Machine.relabel_relabel, unmark_markOwn, unmark_markOld,
    Machine.relabel_id] at hrun
  exact hrun

/-- The outcome when the lines of the text that runs are later. -/
def Outcome.later (own : Bool) (n : Nat) : Outcome → Outcome
  | .failed e => .failed (if own then { e with line := e.line + n } else e)
  | outcome => outcome

namespace Session

variable {s s₁ s₂ : Session} {program : List Stmt} {outcome : Outcome} {fuel : Nat}

/-- A program on later lines has the outcome on those lines, and leaves the same output and the
same variables. -/
theorem interpret_later (hr : s.interpret fuel program = some (outcome, s₂)) (n : Nat) :
    ∃ s', s.interpret fuel (laterBy n program)
        = some (outcome.later (stopsAtOwn fuel program s.machine) n, s') ∧
      s'.machine.output = s₂.machine.output ∧ s'.machine.frames = s₂.machine.frames := by
  have hplain := interpret_own_lines id fuel program s.machine
  have hlater := interpret_own_lines (· + n) fuel program s.machine
  rw [Stmt.relabelAll_id] at hplain
  unfold Session.interpret at hr ⊢
  rw [hplain] at hr
  rw [hlater]
  unfold stopsAtOwn
  generalize markedRun fuel program s.machine = r at hr ⊢
  cases r with
  | ok _ m =>
    cases hr
    exact ⟨_, rfl, rfl, rfl⟩
  | error e m =>
    cases hr
    refine ⟨_, congrArg (fun e => some (Outcome.failed e, _)) ?_, rfl, rfl⟩
    by_cases hown : e.line % 2 = 1
    · simp [RuntimeError.relabel, unmark, hown]
    · simp [RuntimeError.relabel, unmark, hown]
  | outOfFuel => cases hr

/-- A text that runs has been accepted. -/
theorem exists_program {source : String} (hr : s.run fuel source = some (outcome, s₁))
    (hne : ∀ errors, outcome ≠ .rejected errors) :
    ∃ program, s.compile source = .ok program ∧ s.interpret fuel program = some (outcome, s₁) := by
  cases hc : s.compile source with
  | ok program =>
    rw [run_of_compile hc] at hr
    exact ⟨program, rfl, hr⟩
  | error errors =>
    rw [run_of_rejected hc] at hr
    cases hr
    exact absurd rfl (hne errors)

/-- A program that goes on after one that ends well. -/
theorem interpret_append_success (ha : s.interpret fuel program = some (.success, s₁))
    {more : Nat} (hfuel : fuel ≤ more + program.length) (rest : List Stmt) :
    s.interpret (more + program.length) (program ++ rest) = s₁.interpret more rest := by
  unfold Session.interpret at ha ⊢
  cases hrun : Lox.interpret fuel program s.machine with
  | ok _ m =>
    rw [hrun] at ha
    cases ha
    rw [interpret_append (by rw [hrun]; nofun) hfuel, hrun]
  | error e m =>
    rw [hrun] at ha
    cases ha
  | outOfFuel =>
    rw [hrun] at ha
    cases ha

/-- What follows a program that fails does not run. -/
theorem interpret_append_failed {e : RuntimeError}
    (ha : s.interpret fuel program = some (.failed e, s₁)) {more : Nat}
    (hfuel : fuel ≤ more + program.length) (rest : List Stmt) :
    s.interpret (more + program.length) (program ++ rest) = some (.failed e, s₁) := by
  unfold Session.interpret at ha ⊢
  cases hrun : Lox.interpret fuel program s.machine with
  | ok _ m =>
    rw [hrun] at ha
    cases ha
  | error e m =>
    rw [hrun] at ha
    rw [interpret_append (by rw [hrun]; nofun) hfuel, hrun]
    exact ha
  | outOfFuel =>
    rw [hrun] at ha
    cases ha

theorem interpret_of_le (hr : s.interpret fuel program = some (outcome, s₁)) {fuel' : Nat}
    (hfuel : fuel ≤ fuel') : s.interpret fuel' program = some (outcome, s₁) := by
  unfold Session.interpret at hr ⊢
  rcases interpret_lasts hfuel program s.machine with hout | hsame
  · rw [hout] at hr
    cases hr
  · rw [hsame]
    exact hr

/-- A text whose run ends does the same with more fuel. -/
theorem run_of_le {source : String} (hr : s.run fuel source = some (outcome, s₁)) {fuel' : Nat}
    (hfuel : fuel ≤ fuel') : s.run fuel' source = some (outcome, s₁) := by
  cases hc : s.compile source with
  | ok program =>
    rw [run_of_compile hc] at hr ⊢
    exact interpret_of_le hr hfuel
  | error errors =>
    rw [run_of_rejected hc] at hr ⊢
    exact hr

/-- The sessions that two texts lead to. -/
theorem exists_runs {a b : String} {fuel' : Nat} {outcome' : Outcome} {own : Bool}
    {checked : Except (List CompileError) (List Stmt)}
    (h : ((s.run fuel a).bind fun r => (r.2.run fuel' b).map fun r' =>
      (r.1, r.2.compile b, r'.1, stopsAtOwn fuel' program r.2.machine))
        = some (outcome, checked, outcome', own)) :
    ∃ s₁ s₂, s.run fuel a = some (outcome, s₁) ∧ s₁.compile b = checked ∧
      s₁.run fuel' b = some (outcome', s₂) ∧ stopsAtOwn fuel' program s₁.machine = own := by
  obtain ⟨⟨_, s₁⟩, ha, hrest⟩ := Option.bind_eq_some_iff.1 h
  obtain ⟨⟨_, s₂⟩, hb, hends⟩ := Option.map_eq_some_iff.1 hrest
  simp only [Prod.mk.injEq] at hends
  obtain ⟨rfl, hc, rfl, hown⟩ := hends
  exact ⟨s₁, s₂, ha, hc, hb, hown⟩

end Session

/-- **Running a text in pieces is running it whole**, with the same readings of the clock. After a
text `a` that ends well, another text `b` that is accepted then does what it does as the end of the
whole text, which is accepted too; an error at a token of `b` is later by the lines before `b`. If
`a` fails, then so does the whole text, if it is accepted and `b` does not begin with an `else`. -/
theorem run_pieces {s : Session} (hs : s.Reachable) (a b : String) :
    (∀ fuel s₁ program, s.run fuel a = some (.success, s₁) → s₁.compile b = .ok program →
      (∃ whole, s.compile (joinLines a b) = .ok whole) ∧
      ∀ fuel' outcome s₂, s₁.run fuel' b = some (outcome, s₂) →
        ∃ s' enough, (∀ fuel ≥ enough, s.run fuel (joinLines a b) = some
            (outcome.later (stopsAtOwn fuel' program s₁.machine) (linesBefore a), s')) ∧
          s'.machine.output = s₂.machine.output ∧
          s'.machine.globalNames = s₂.machine.globalNames) ∧
    (∀ fuel e s₁ whole, s.run fuel a = some (.failed e, s₁) → StartsWithoutElse b →
      s.compile (joinLines a b) = .ok whole →
      ∃ enough, ∀ fuel ≥ enough, s.run fuel (joinLines a b) = some (.failed e, s₁)) := by
  constructor
  · intro fuel s₁ program ha hcb
    obtain ⟨first, hca, hfirst⟩ := Session.exists_program ha (by simp)
    have hkeeps := (hs.idle.interpret hfirst).1
    have hwhole : s.compile (joinLines a b) = .ok (first ++ laterBy (linesBefore a) program) :=
      compile_join hca hcb fun x hx =>
        (Session.globalNames_of_keeps hkeeps hs.idle.sound x).2 hx
    refine ⟨⟨_, hwhole⟩, fun fuel' outcome s₂ hb => ?_⟩
    rw [Session.run_of_compile hcb] at hb
    obtain ⟨s', hlater, houtput, hframes⟩ := Session.interpret_later hb (linesBefore a)
    refine ⟨s', fuel + fuel' + first.length, fun fuel₁ hfuel => ?_, houtput, ?_⟩
    · obtain ⟨more, rfl⟩ : ∃ more, fuel₁ = more + first.length := ⟨fuel₁ - first.length, by omega⟩
      rw [Session.run_of_compile hwhole,
        Session.interpret_append_success hfirst (by omega)]
      exact Session.interpret_of_le hlater (by omega)
    · rw [Machine.globalNames, hframes]
      rfl
  · intro fuel e s₁ whole ha hb hcab
    obtain ⟨first, hca, hfirst⟩ := Session.exists_program ha (by simp)
    obtain ⟨rest, rfl⟩ := compile_join_split hca hb hcab
    refine ⟨fuel + first.length, fun fuel₁ hfuel => ?_⟩
    obtain ⟨more, rfl⟩ : ∃ more, fuel₁ = more + first.length := ⟨fuel₁ - first.length, by omega⟩
    rw [Session.run_of_compile hcab, Session.interpret_append_failed hfirst (by omega)]

/-- An error in a function of the first text stays on its line, one in the second text comes later,
and after an error in the first text the second does not run. -/
theorem run_pieces_lines :
    (∃ s' enough, ∀ fuel ≥ enough, (Session.start .unlimited (.stopped 0)).run fuel
        (joinLines "fun f() \x7b nil(); \x7d" "f();") = some (.failed ⟨1, .notCallable⟩, s')) ∧
      (∃ s' enough, ∀ fuel ≥ enough, (Session.start .unlimited (.stopped 0)).run fuel
        (joinLines "fun f() \x7b nil(); \x7d" "nil();") = some (.failed ⟨2, .notCallable⟩, s')) ∧
      ∃ s' enough, ∀ fuel ≥ enough, (Session.start .unlimited (.stopped 0)).run fuel
        (joinLines "nil();" "fun f() \x7b\x7d") = some (.failed ⟨1, .notCallable⟩, s') := by
  have hstart := Session.Reachable.start .unlimited (.stopped 0)
  refine ⟨?_, ?_, ?_⟩
  · have hrun : (((Session.start .unlimited (.stopped 0)).run 20
        "fun f() \x7b nil(); \x7d").bind fun r =>
        (r.2.run 20 "f();").map fun r' => (r.1, r.2.compile "f();", r'.1, stopsAtOwn 20
          [.expression (.call (.variable ⟨.identifier, "f", 1⟩ none)
            ⟨.punct .rightParen, ")", 1⟩ [])] r.2.machine))
        = some (.success, .ok [.expression (.call (.variable ⟨.identifier, "f", 1⟩ none)
          ⟨.punct .rightParen, ")", 1⟩ [])], .failed ⟨1, .notCallable⟩, false) := by
      cbv
    obtain ⟨s₁, s₂, ha, hc, hb, hown⟩ := Session.exists_runs hrun
    obtain ⟨s', enough, hjoin, -⟩ := ((run_pieces hstart _ _).1 20 s₁ _ ha hc).2 20 _ s₂ hb
    rw [hown] at hjoin
    exact ⟨s', enough, hjoin⟩
  · have hrun : (((Session.start .unlimited (.stopped 0)).run 20
        "fun f() \x7b nil(); \x7d").bind fun r =>
        (r.2.run 20 "nil();").map fun r' => (r.1, r.2.compile "nil();", r'.1, stopsAtOwn 20
          [.expression (.call (.literal .nil) ⟨.punct .rightParen, ")", 1⟩ [])] r.2.machine))
        = some (.success, .ok [.expression (.call (.literal .nil) ⟨.punct .rightParen, ")", 1⟩ [])],
          .failed ⟨1, .notCallable⟩, true) := by
      cbv
    obtain ⟨s₁, s₂, ha, hc, hb, hown⟩ := Session.exists_runs hrun
    obtain ⟨s', enough, hjoin, -⟩ := ((run_pieces hstart _ _).1 20 s₁ _ ha hc).2 20 _ s₂ hb
    rw [hown] at hjoin
    exact ⟨s', enough, hjoin⟩
  · have hrun : ((Session.start .unlimited (.stopped 0)).run 20 "nil();").map (·.1)
        = some (.failed ⟨1, .notCallable⟩) := by
      cbv
    obtain ⟨⟨_, s₁⟩, ha, rfl⟩ := Option.map_eq_some_iff.1 hrun
    have hfirst : (Lexer.tokens (Lexer.scan "fun f() \x7b\x7d")).head?
        = some ⟨.keyword .funWord, "fun", 1⟩ := by
      cbv
    have helse : StartsWithoutElse "fun f() \x7b\x7d" := by
      intro t ht
      rw [hfirst] at ht
      cases ht
      decide
    have hcompile : ((Session.start .unlimited (.stopped 0)).compile
        (joinLines "nil();" "fun f() \x7b\x7d")).isOk = true := by
      cbv
    cases hwhole : (Session.start .unlimited (.stopped 0)).compile
        (joinLines "nil();" "fun f() \x7b\x7d") with
    | error errors =>
      rw [hwhole] at hcompile
      cases hcompile
    | ok whole => exact ⟨s₁, (run_pieces hstart _ _).2 20 _ s₁ whole ha helse hwhole⟩

/-- An `else` that follows goes with the last `if` of a text that fails later. A text that is run
again, with more after it, prints what the clock shows then. -/
theorem run_pieces_apart :
    ((Session.start .unlimited (.stopped 0)).run 40
        "class A \x7b\x7d while (A = A()) if (nil) A;").map
          (fun r => (r.1, r.2.machine.output.bytes))
      = some (.failed ⟨1, .notCallable⟩, .empty) ∧
    ((Session.start .unlimited (.stopped 0)).run 40
        (joinLines "class A \x7b\x7d while (A = A()) if (nil) A;" "else print nil;")).map
          (fun r => (r.1, r.2.machine.output.bytes))
      = some (.failed ⟨1, .notCallable⟩, "nil\n".toUTF8) ∧
    (((Session.start .unlimited (.stopped 0)).run 20 "print clock();").bind fun r =>
        (r.2.run 20 "print nil;").map fun r' => (r.1, r'.1, r'.2.machine.output.bytes))
      = some (.success, .success, "0\nnil\n".toUTF8) ∧
    (((Session.start .unlimited (.stopped 0)).atClock (.stopped 1)).run 20
        (joinLines "print clock();" "print nil;")).map (fun r => (r.1, r.2.machine.output.bytes))
      = some (.success, "1\nnil\n".toUTF8) := by
  refine ⟨?_, ?_, ?_, ?_⟩
  · cbv
  · cbv
  · decide +kernel
  · decide +kernel

end Lox
