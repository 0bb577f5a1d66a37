import Lox.Proofs.Run.Growth
import Lox.Proofs.Scope.Resolved
import Mathlib.Logic.Basic

/-!
# The globals that the checker knows

At the top of a program the checker knows, after a statement, the global names from before and those
that the statement binds (`Stmt.resolve_declares`). A program is checked part by part.
-/

set_option autoImplicit false

namespace Lox

/-- At the top, with these names added to the globals. -/
structure Scopes.Adds (names : List String) (s s' : Scopes) : Prop where
  top : s'.locals = []
  globals : ∀ x, x ∈ s'.globals ↔ x ∈ s.globals ∨ x ∈ names

namespace Scopes.Adds

variable {s s' s'' : Scopes} {names names' : List String}

theorem refl (h : s.locals = []) : Adds [] s s :=
  ⟨h, fun x => by simp⟩

theorem trans (h : Adds names s s') (h' : Adds names' s' s'') : Adds (names ++ names') s s'' :=
  ⟨h'.top, fun x => by rw [h'.globals, h.globals, List.mem_append, or_assoc]⟩

theorem define (h : Adds names s s') (name : Token) : Adds names s (s'.define name) := by
  obtain ⟨locals, globals⟩ := s'
  obtain ⟨rfl, hglobals⟩ := h
  exact ⟨rfl, hglobals⟩

theorem declare (h : s.locals = []) (name : Token) :
    Adds [name.lexeme] s (s.declare name).value := by
  obtain ⟨locals, globals⟩ := s
  cases h
  refine ⟨rfl, fun x => ?_⟩
  show x ∈ globals.insert name.lexeme ↔ _
  rw [List.mem_insert_iff, List.mem_singleton, or_comm]

end Scopes.Adds

/-- A statement at the top adds the names that it binds. -/
theorem Stmt.resolve_adds : ∀ (x : Stmt) (c : Context) {s : Scopes}, s.locals = [] →
    Scopes.Adds x.binds s (x.resolve c s).value.2
  | .expression _, _, _, h | .print _ _, _, _, h | .block _, _, _, h => .refl h
  | .var name _, _, _, h => (Scopes.Adds.declare h name).define name
  | .conditional _ thenBranch none, c, _, h => Stmt.resolve_adds thenBranch c h
  | .conditional _ thenBranch (some elseBranch), c, _, h => by
    have hthen := Stmt.resolve_adds thenBranch c h
    exact hthen.trans (Stmt.resolve_adds elseBranch c hthen.top)
  | .loop _ body, c, _, h => Stmt.resolve_adds body c h
  | .function decl, _, _, h => (Scopes.Adds.declare h decl.name).define decl.name
  | .ret _ _, c, _, h => by
    by_cases hc : c.insideFunction = true <;>
      simp only [Stmt.resolve, hc, not_true_eq_false, Bool.false_eq_true, not_false_eq_true,
        if_true, if_false] <;>
      exact .refl h
  | .classDecl name none _, _, _, h => (Scopes.Adds.declare h name).define name
  | .classDecl name (some _) _, _, _, h => (Scopes.Adds.declare h name).define name

theorem Stmt.resolveAll_adds : ∀ (xs : List Stmt) (c : Context) {s : Scopes}, s.locals = [] →
    Scopes.Adds (Stmt.bindsAll xs) s (Stmt.resolveAll c s xs).value.2
  | [], _, _, h => .refl h
  | x :: xs, c, _, h => by
    have hx := Stmt.resolve_adds x c h
    exact hx.trans (Stmt.resolveAll_adds xs c hx.top)

/-- Filling slots does not change what a statement binds. -/
theorem Stmt.binds_resolve : ∀ (x : Stmt) (c : Context) (s : Scopes),
    (x.resolve c s).value.1.binds = x.binds
  | .expression _, _, _ | .print _ _, _, _ | .var _ _, _, _ | .block _, _, _ => rfl
  | .conditional _ thenBranch none, c, s => Stmt.binds_resolve thenBranch c s
  | .conditional _ thenBranch (some elseBranch), c, s =>
    congrArg₂ (· ++ ·) (Stmt.binds_resolve thenBranch c s) (Stmt.binds_resolve elseBranch c _)
  | .loop _ body, c, s => Stmt.binds_resolve body c s
  | .function ⟨_, _, _⟩, _, _ => rfl
  | .ret _ _, c, _ => by
    by_cases hc : c.insideFunction = true <;> simp [Stmt.resolve, hc, Stmt.binds]
  | .classDecl _ none _, _, _ | .classDecl _ (some _) _, _, _ => rfl

theorem Stmt.bindsAll_resolveAll : ∀ (xs : List Stmt) (c : Context) (s : Scopes),
    Stmt.bindsAll (Stmt.resolveAll c s xs).value.1 = Stmt.bindsAll xs
  | [], _, _ => rfl
  | x :: xs, c, s =>
    congrArg₂ (· ++ ·) (Stmt.binds_resolve x c s) (Stmt.bindsAll_resolveAll xs c _)

/-- Statements are checked one after another, each where those before it leave off. -/
theorem Stmt.resolveAll_append (c : Context) (ys : List Stmt) : ∀ (xs : List Stmt) (s : Scopes),
    (Stmt.resolveAll c s (xs ++ ys)).value.1 = (Stmt.resolveAll c s xs).value.1
        ++ (Stmt.resolveAll c (Stmt.resolveAll c s xs).value.2 ys).value.1 ∧
      (Stmt.resolveAll c s (xs ++ ys)).errors = (Stmt.resolveAll c s xs).errors
        ++ (Stmt.resolveAll c (Stmt.resolveAll c s xs).value.2 ys).errors
  | [], _ => ⟨rfl, rfl⟩
  | x :: xs, s => by
    obtain ⟨hvalue, herrors⟩ := Stmt.resolveAll_append c ys xs (x.resolve c s).value.2
    simp only [List.cons_append, Stmt.resolveAll, Checked.value_bind, Checked.errors_bind,
      Checked.value_pure, Checked.errors_pure, List.append_nil, List.append_assoc, hvalue, herrors,
      and_self]

end Lox
