import Lox.Proofs.Wrap.Moved

/-!
# Putting one statement into a block

`Stmt.SomeWrapped` relates a program to every one that comes of putting one of its statements into a
block of its own, at any place where a statement stands: in a list, a branch, the body of a loop or
that of a function or method. The statement must not be a declaration. Read from source such a
program has no slots yet, so the other one has scopes added and nothing else changed
(`SomeWrapped.boxed`).
-/

set_option autoImplicit false

namespace Lox

mutual

/-- One statement within this one, or this one itself, is put into a block. -/
inductive Stmt.Wrapped : Stmt → Stmt → Prop
  | here {s : Stmt} (hd : s.declared = none) : Stmt.Wrapped s (.block [s])
  | inBlock {body body' : List Stmt} (h : Stmt.SomeWrapped body body') :
      Stmt.Wrapped (.block body) (.block body')
  | inThen {condition : Expr} {thenBranch thenBranch' : Stmt} {elseBranch : Option Stmt}
      (h : Stmt.Wrapped thenBranch thenBranch') :
      Stmt.Wrapped (.conditional condition thenBranch elseBranch)
        (.conditional condition thenBranch' elseBranch)
  | inElse {condition : Expr} {thenBranch elseBranch elseBranch' : Stmt}
      (h : Stmt.Wrapped elseBranch elseBranch') :
      Stmt.Wrapped (.conditional condition thenBranch (some elseBranch))
        (.conditional condition thenBranch (some elseBranch'))
  | inLoop {condition : Expr} {body body' : Stmt} (h : Stmt.Wrapped body body') :
      Stmt.Wrapped (.loop condition body) (.loop condition body')
  | inFunction {decl decl' : FunctionDecl} (h : FunctionDecl.Wrapped decl decl') :
      Stmt.Wrapped (.function decl) (.function decl')
  | inClass {name : Token} {superclass : Option Expr} {methods methods' : List FunctionDecl}
      (h : FunctionDecl.SomeWrapped methods methods') :
      Stmt.Wrapped (.classDecl name superclass methods) (.classDecl name superclass methods')

/-- One statement within the body of the function is put into a block. -/
inductive FunctionDecl.Wrapped : FunctionDecl → FunctionDecl → Prop
  | inBody {name : Token} {params : List Token} {body body' : List Stmt}
      (h : Stmt.SomeWrapped body body') :
      FunctionDecl.Wrapped ⟨name, params, body⟩ ⟨name, params, body'⟩

/-- One of the statements, or one within them, is put into a block. -/
inductive Stmt.SomeWrapped : List Stmt → List Stmt → Prop
  | head {s s' : Stmt} {ss : List Stmt} (h : Stmt.Wrapped s s') :
      Stmt.SomeWrapped (s :: ss) (s' :: ss)
  | tail {s : Stmt} {ss ss' : List Stmt} (h : Stmt.SomeWrapped ss ss') :
      Stmt.SomeWrapped (s :: ss) (s :: ss')

inductive FunctionDecl.SomeWrapped : List FunctionDecl → List FunctionDecl → Prop
  | head {f f' : FunctionDecl} {fs : List FunctionDecl} (h : FunctionDecl.Wrapped f f') :
      FunctionDecl.SomeWrapped (f :: fs) (f' :: fs)
  | tail {f : FunctionDecl} {fs fs' : List FunctionDecl}
      (h : FunctionDecl.SomeWrapped fs fs') :
      FunctionDecl.SomeWrapped (f :: fs) (f :: fs')

end

mutual

/-- The statement without its slots, in a place where it may stand. -/
theorem Stmt.Wrapped.boxed : ∀ {s s' : Stmt} {marks : Marks}, s.Wrapped s' → s.Shaped →
    s.declared = none ∨ marks.place 0 = 0 → s.Boxed marks s'
  | _, _, _, .here hd, hs, _ => .box hd (Stmt.moved_self (.inr ⟨hs, .inl hd⟩))
  | _, _, _, .inBlock h, hs, _ => by
    simp only [Stmt.Shaped] at hs
    exact .bare (.block (h.boxed hs rfl))
  | .conditional condition thenBranch none, _, _, .inThen h, hs, _ => by
    simp only [Stmt.Shaped] at hs
    exact .bare (.conditional (Expr.moved_self (.inr hs.1)) (h.boxed hs.2.1 (.inl hs.2.2)))
  | .conditional condition thenBranch (some elseBranch), _, _, .inThen h, hs, _ => by
    simp only [Stmt.Shaped] at hs
    exact .bare (.conditionalElse (Expr.moved_self (.inr hs.1)) (h.boxed hs.2.1.1 (.inl hs.2.1.2))
      (.bare (Stmt.moved_self (.inr ⟨hs.2.2.1, .inl hs.2.2.2⟩))))
  | _, _, _, .inElse h, hs, _ => by
    simp only [Stmt.Shaped] at hs
    exact .bare (.conditionalElse (Expr.moved_self (.inr hs.1))
      (.bare (Stmt.moved_self (.inr ⟨hs.2.1.1, .inl hs.2.1.2⟩)))
      (h.boxed hs.2.2.1 (.inl hs.2.2.2)))
  | _, _, _, .inLoop h, hs, _ => by
    simp only [Stmt.Shaped] at hs
    exact .bare (.loop (Expr.moved_self (.inr hs.1)) (h.boxed hs.2.1 (.inl hs.2.2)))
  | _, _, _, .inFunction h, hs, hinner => by
    simp only [Stmt.Shaped] at hs
    exact .bare (.function (hinner.resolve_left nofun) (h.moved hs))
  | .classDecl name none methods, _, _, .inClass h, hs, hinner => by
    simp only [Stmt.Shaped] at hs
    exact .bare (.classDecl (hinner.resolve_left nofun) name .none (h.moved hs.2))
  | .classDecl name (some superclass) methods, _, _, .inClass h, hs, hinner => by
    simp only [Stmt.Shaped] at hs
    obtain ⟨-, ⟨above, rfl, habove⟩, hmethods⟩ := hs
    exact .bare (.classDecl (hinner.resolve_left nofun) name
      (.some (Expr.moved_self (.inr ⟨habove, rfl⟩))) (h.moved hmethods))

theorem FunctionDecl.Wrapped.moved : ∀ {f f' : FunctionDecl} {marks : Marks}, f.Wrapped f' →
    f.Shaped → f.Moved marks f'
  | _, _, _, .inBody h, hf => by
    simp only [FunctionDecl.Shaped] at hf
    exact .mk _ _ (h.boxed hf.2.2 rfl)

theorem Stmt.SomeWrapped.boxed : ∀ {ss ss' : List Stmt} {marks : Marks},
    Stmt.SomeWrapped ss ss' → Stmt.AllShaped ss → marks.place 0 = 0 → Stmt.AllBoxed marks ss ss'
  | _, _, _, .head h, hs, hinner => by
    simp only [Stmt.AllShaped] at hs
    exact .cons (h.boxed hs.1 (.inr hinner)) (Stmt.allBoxed_self (.inr ⟨hs.2, hinner⟩))
  | _, _, _, .tail h, hs, hinner => by
    simp only [Stmt.AllShaped] at hs
    exact .cons (.bare (Stmt.moved_self (.inr ⟨hs.1, .inr hinner⟩))) (h.boxed hs.2 hinner)

theorem FunctionDecl.SomeWrapped.moved : ∀ {fs fs' : List FunctionDecl} {marks : Marks},
    FunctionDecl.SomeWrapped fs fs' → FunctionDecl.AllShaped fs →
      FunctionDecl.AllMoved marks fs fs'
  | _, _, _, .head h, hf => by
    simp only [FunctionDecl.AllShaped] at hf
    exact .cons (h.moved hf.1) (FunctionDecl.allMoved_self (.inr hf.2))
  | _, _, _, .tail h, hf => by
    simp only [FunctionDecl.AllShaped] at hf
    exact .cons (FunctionDecl.moved_self (.inr hf.1)) (h.moved hf.2)

end

end Lox
