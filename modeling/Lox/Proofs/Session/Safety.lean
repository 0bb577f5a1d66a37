import Lox.Proofs.Lexical.Ready
import Lox.Proofs.Lexical.Session
import Lox.Proofs.Session.Kept
import Mathlib

/-!
# What accepted programs cannot do

In a session that any source texts have led to, an accepted program does not stop at an error that
blames its tree, and whatever it reads at a distance is bound there (`accepted_safe`). Assignments
at a distance are different: they succeed everywhere but in the initializer of a local variable of
the name that they assign to, where they always fail (`assignment_result`).
-/

set_option autoImplicit false

namespace Lox

open Lexical

/-- The sessions that source texts lead to, with any time between two of them. -/
inductive Session.Reachable : Session → Prop
  | start (output : Output) (clock : Clock) : Reachable (.start output clock)
  | run {s s' : Session} {fuel : Nat} {source : String} {outcome : Outcome} (h : Reachable s)
      (hr : s.run fuel source = some (outcome, s')) : Reachable s'
  | later {s : Session} (h : Reachable s) (clock : Clock) : Reachable (s.atClock clock)

variable {s : Session} {source : String} {program : List Stmt}

theorem Session.Reachable.matches (h : s.Reachable) : ∃ w, Matches s w := by
  induction h with
  | start output clock => exact ⟨_, .start output clock⟩
  | @run s s' fuel source outcome _ hr ih =>
    obtain ⟨w, hmatches⟩ := ih
    obtain ⟨w', -, hmatches'⟩ := hmatches.exists_world hr
    exact ⟨w', hmatches'⟩
  | later _ clock ih =>
    obtain ⟨w, hmatches⟩ := ih
    exact ⟨_, hmatches.atClock clock⟩

theorem Session.Reachable.idle (h : s.Reachable) : s.Idle := by
  induction h with
  | start output clock => exact .start output clock
  | @run s s' fuel source outcome _ hr ih =>
    cases hc : s.compile source with
    | ok program => exact (ih.run hc hr).2
    | error errors =>
      rw [Session.run_of_rejected hc] at hr
      cases hr
      exact ih
  | later _ clock ih => exact ⟨(ih.sound.outside _ clock).2, ih.current⟩

/-- An accepted program is ready to run. -/
theorem Session.Reachable.ready (h : s.Reachable) (hc : s.compile source = .ok program) :
    Ready s.machine (.stmts program) := by
  obtain ⟨w, cells, hagree, hcurrent⟩ := h.matches
  exact .stmts (hagree.top hcurrent) (compile_scoped hc)

/-- The error of an accepted program does not blame its tree. -/
theorem Session.Reachable.blameless (h : s.Reachable) (hc : s.compile source = .ok program)
    {fuel : Nat} {e : RuntimeError} {m : Machine}
    (hrun : Lox.interpret fuel program s.machine = .error e m) : e.cause.blamesTree = false := by
  obtain ⟨w, cells, hagree, hcurrent⟩ := h.matches
  have htracks := (hagree.top hcurrent).interpret (compile_scoped hc) fuel
  exact htracks.of_error (by rw [hrun, Eval.error?_error])

/-- The error of an accepted program does not blame its tree. It is raised by a task that the run
visits. -/
theorem Session.Reachable.failed (h : s.Reachable) (hc : s.compile source = .ok program)
    {s' : Session} {fuel : Nat} {e : RuntimeError}
    (hr : s.run fuel source = some (.failed e, s')) : e.cause.blamesTree = false ∧
      ∃ m t, Visits s.machine (.stmts program) m t ∧ Raises m t e := by
  obtain ⟨m, hrun⟩ : ∃ m, Lox.interpret fuel program s.machine = .error e m := by
    rw [Session.run_of_compile hc, Session.interpret] at hr
    split at hr <;> cases hr
    exact ⟨_, ‹_›⟩
  have hblame := h.blameless hc hrun
  have herror : (Lox.interpret fuel program s.machine).error? = some e := by
    rw [hrun, Eval.error?_error]
  refine ⟨hblame, ?_⟩
  unfold Lox.interpret at herror
  rcases Eval.error?_bind.1 herror with hrun | ⟨flow, m, -, hend⟩
  · exact Task.error_visited fuel hrun
  · -- a `return` that reaches the end would blame the tree
    cases flow with
    | next => cases hend
    | returned value keyword =>
      cases hend
      cases hblame

/-- **Accepted programs are safe** in every session: no error blames the tree, and each name that is
read at a distance is bound there when it is read. -/
theorem accepted_safe (hs : s.Reachable) (hc : s.compile source = .ok program) :
    (∀ fuel e s', s.run fuel source = some (.failed e, s') → e.cause.blamesTree = false ∧
      ∃ m t, Visits s.machine (.stmts program) m t ∧ Raises m t e) ∧
    ∀ m t, Visits s.machine (.stmts program) m t →
      (∀ fuel e, t.error? fuel m = some e → e.cause.blamesTree = false) ∧
      ∀ p e name d, t = .expr p e → ReadsAt e name d →
        ∃ f v, m.frames.ancestor? m.current d = some f ∧ m.frames.here? f name.lexeme = some v ∧
          ∀ fuel, evaluate (fuel + 1) e m = .ok v m := by
  refine ⟨fun fuel e s' hr => hs.failed hc hr, fun m t hv => ?_⟩
  have hready := (hs.ready hc).visits hv
  refine ⟨fun fuel e he => hready.error he, ?_⟩
  rintro p e name d rfl he
  obtain ⟨f, v, hf, hv⟩ := hready.reads he
  refine ⟨f, v, hf, hv, fun fuel => ?_⟩
  have hget := Frames.getAt_of_here? hf hv
  cases he <;> simp only [Lox.evaluate, Eval.readVariable, hget]

/-- A declaration without an initializer goes on. -/
private theorem execute_var (name : Token) (m : Machine) : execute 1 (.var name none) m
    = .ok .next { m with frames := m.frames.define m.current name.lexeme .nil } := rfl

/-- In this block the variable is read at distance 0, where it is bound. -/
theorem accepted_safe_block : ∃ program m e f v,
    (Session.start .unlimited (.stopped 0)).compile "\x7b var x; print x; \x7d" = .ok program ∧
    Visits (Session.start .unlimited (.stopped 0)).machine (.stmts program) m (.expr none e) ∧
    ReadsAt e ⟨.identifier, "x", 1⟩ 0 ∧
    m.frames.ancestor? m.current 0 = some f ∧ m.frames.here? f "x" = some v := by
  have hc : (Session.start .unlimited (.stopped 0)).compile "\x7b var x; print x; \x7d" = .ok
      [.block [.var ⟨.identifier, "x", 1⟩ none,
        .print ⟨.keyword .printWord, "print", 1⟩ (.variable ⟨.identifier, "x", 1⟩ (some 0))]] := by
    cbv
  obtain ⟨m, hv⟩ : ∃ m, Visits (Session.start .unlimited (.stopped 0)).machine
      (.stmts [.block [.var ⟨.identifier, "x", 1⟩ none,
        .print ⟨.keyword .printWord, "print", 1⟩ (.variable ⟨.identifier, "x", 1⟩ (some 0))]])
      m (.expr none (.variable ⟨.identifier, "x", 1⟩ (some 0))) :=
    ⟨_, .tail (.tail (.tail (.tail (.tail .refl .stmtsHead) (.block rfl))
      (.stmtsTail (execute_var ..))) .stmtsHead) .printed⟩
  obtain ⟨f, v, hf, hx, -⟩ :=
    ((accepted_safe (.start .unlimited (.stopped 0)) hc).2 _ _ hv).2 _ _ _ _ rfl (.name _ 0)
  exact ⟨_, m, _, f, v, hc, hv, .name _ 0, hf, hx⟩

/-- **Assignments at a distance** fail exactly in the initializer of the variable they assign to. -/
theorem assignment_result (hs : s.Reachable) (hc : s.compile source = .ok program)
    {m m' : Machine} {p : Option String} {name : Token} {value : Expr} {d fuel : Nat} {v : Value}
    (ht : Visits s.machine (.stmts program) m (.expr p (.assign name value (some d))))
    (hv : evaluate fuel value m = .ok v m') :
    if p = some name.lexeme then
      evaluate (fuel + 1) (.assign name value (some d)) m
        = .error (name.fault (.undefinedVariable name.lexeme)) m'
    else
      ∃ frames, m'.frames.assignAt m'.current d name.lexeme v = .ok frames ∧
        evaluate (fuel + 1) (.assign name value (some d)) m = .ok v { m' with frames } := by
  obtain ⟨f, hf, hbound⟩ := ((hs.ready hc).visits ht).assigns hv
  have hrun : evaluate (fuel + 1) (.assign name value (some d)) m
      = Eval.bind (Eval.writeVariable name (some d) v) (fun _ => Eval.pure v) m' := by
    rw [Lox.evaluate]
    show Eval.bind _ _ m = _
    unfold Eval.bind
    rw [hv]
    rfl
  rw [hrun]
  unfold Eval.bind Eval.writeVariable
  split
  · rename_i hp
    have hnone : m'.frames.here? f name.lexeme = none := by
      simpa [hp] using hbound
    simp only [Frames.assignAt_of_unbound hf hnone, Eval.accessCause]
  · rename_i hp
    obtain ⟨old, hold⟩ := Option.isSome_iff_exists.1 (hbound.2 hp)
    simp only [Frames.assignAt_of_here? hf hold]
    exact ⟨_, rfl, rfl⟩

/-- In the initializer of the inner variable the assignment fails, although there is an outer
variable of the name. -/
theorem assignment_result_own : ∃ program m value,
    (Session.start .unlimited (.stopped 0)).compile "\x7b var x; \x7b var x = x = nil; \x7d \x7d"
      = .ok program ∧
    Visits (Session.start .unlimited (.stopped 0)).machine (.stmts program) m
      (.expr (some "x") (.assign ⟨.identifier, "x", 1⟩ value (some 0))) ∧
    evaluate 2 (.assign ⟨.identifier, "x", 1⟩ value (some 0)) m
      = .error ⟨1, .undefinedVariable "x"⟩ m := by
  have hc : (Session.start .unlimited (.stopped 0)).compile
      "\x7b var x; \x7b var x = x = nil; \x7d \x7d"
      = .ok [.block [.var ⟨.identifier, "x", 1⟩ none, .block [.var ⟨.identifier, "x", 1⟩
        (some (.assign ⟨.identifier, "x", 1⟩ (.literal .nil) (some 0)))]]] := by
    cbv
  obtain ⟨m, ht⟩ : ∃ m, Visits (Session.start .unlimited (.stopped 0)).machine
      (.stmts [.block [.var ⟨.identifier, "x", 1⟩ none, .block [.var ⟨.identifier, "x", 1⟩
        (some (.assign ⟨.identifier, "x", 1⟩ (.literal .nil) (some 0)))]]])
      m (.expr (some "x") (.assign ⟨.identifier, "x", 1⟩ (.literal .nil) (some 0))) :=
    ⟨_, .tail (.tail (.tail (.tail (.tail (.tail (.tail .refl .stmtsHead) (.block rfl))
      (.stmtsTail (execute_var ..))) .stmtsHead) (.block rfl)) .stmtsHead) .initializer⟩
  have hv : evaluate 1 (.literal .nil) m = .ok .nil m := rfl
  exact ⟨_, m, _, hc, ht, assignment_result (.start .unlimited (.stopped 0)) hc ht hv⟩

/-- A whole run that fails so. -/
theorem own_initializer_fails :
    ((Session.start .unlimited (.stopped 0)).run 10
        "\x7b var x = nil; \x7b var x = (x = true); print x; \x7d print x; \x7d").map (·.1)
      = some (.failed ⟨1, .undefinedVariable "x"⟩) := by
  cbv

end Lox
