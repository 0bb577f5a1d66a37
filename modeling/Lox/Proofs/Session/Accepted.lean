import Lox.Proofs.Grammar.Complete
import Lox.Proofs.Scope.Resolved
import Lox.Session

/-!
# Accepted sources

When a source text is accepted (`readSource_ok_iff`, `compile_ok_iff`), and what is known of the
program that it then compiles to: it is scoped (`compile_scoped`).
-/

set_option autoImplicit false

namespace Lox

/-- A source is read when it has no lexical errors and its tokens are a phrase. -/
theorem readSource_ok_iff {α : Type} {parse : List Token → Except (List CompileError) α}
    {source : String} {a : α} :
    readSource parse source = .ok a ↔
      parse (Lexer.tokens (Lexer.scan source)) = .ok a ∧
        Lexer.errors (Lexer.scan source) = [] := by
  unfold readSource
  dsimp only
  split
  · rename_i hparse herrors
    simp [hparse, herrors]
  · rename_i hparse hne
    exact ⟨nofun, fun h => absurd h.2 hne⟩
  · rename_i hparse
    simp [hparse]

theorem readSource_ok {α : Type} {parse : List Token → Except (List CompileError) α}
    {source : String} {a : α} (h : readSource parse source = .ok a) :
    parse (Lexer.tokens (Lexer.scan source)) = .ok a :=
  (readSource_ok_iff.1 h).1

theorem parse_shaped {source : String} {program : List Stmt}
    (h : Grammar.parse (Lexer.tokens (Lexer.scan source)) = .ok program) :
    Stmt.AllShaped program := by
  refine Grammar.Forms.shaped (Grammar.parse_ok_iff.1 h) fun t ht => ?_
  exact Lexer.scan_spelled source t (List.takeWhile_sublist _ |>.subset ht)

theorem readSource_shaped {source : String} {program : List Stmt}
    (h : readSource Grammar.parse source = .ok program) : Stmt.AllShaped program :=
  parse_shaped (readSource_ok h)

/-- A source is accepted when it is read as a program in which the checker finds no errors. -/
theorem compile_ok_iff {globals : List String} {source : String} {program : List Stmt} :
    compile globals source = .ok program ↔
      ∃ parsed, readSource Grammar.parse source = .ok parsed ∧
        (resolve globals parsed).errors = [] ∧ (resolve globals parsed).value.1 = program := by
  unfold compile
  cases hread : readSource Grammar.parse source with
  | error errors => simp [bind, Except.bind]
  | ok parsed =>
    simp only [bind, Except.bind, Except.ok.injEq, exists_eq_left']
    split
    · rename_i hresolve
      simp [hresolve]
    · rename_i hne hresolve
      rw [hresolve]
      exact ⟨nofun, fun h => absurd h.1 (hne _ _ rfl)⟩

/-- An accepted source is a scoped program. -/
theorem compile_scoped {globals : List String} {source : String} {program : List Stmt}
    (h : compile globals source = .ok program) : Stmt.AllScoped false [] program := by
  obtain ⟨parsed, hread, herrors, rfl⟩ := compile_ok_iff.1 h
  exact resolve_scoped (readSource_shaped hread) herrors

end Lox
