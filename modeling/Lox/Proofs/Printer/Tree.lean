import Lox.Proofs.Printer.Form
import Lox.Syntax.Printer

/-!
# The prefix forms of trees

`Expr.form` and `Stmt.form` give the form that the text of a tree is written in (`Expr.chars_form`,
`Stmt.chars_form`).
-/

set_option autoImplicit false

namespace Lox

mutual

/-- The form of an expression. -/
def Expr.form : Expr → Form
  | .literal value => .word value.text
  | .grouping inner => .list "group" [inner.form]
  | .unary operator right => .list operator.lexeme [right.form]
  | .binary left operator right => .list operator.lexeme [left.form, right.form]
  | .logical left operator right => .list operator.lexeme [left.form, right.form]
  | .variable name _ => .word name.lexeme
  | .assign name value _ => .list "=" [.word name.lexeme, value.form]
  | .call callee _ arguments => .list "call" (callee.form :: Expr.forms arguments)
  | .get object name => .list "." [object.form, .word name.lexeme]
  | .set object name value => .list "=" [.list "." [object.form, .word name.lexeme], value.form]
  | .this _ _ => .word "this"
  | .super _ method _ => .list "super" [.word method.lexeme]

def Expr.forms : List Expr → List Form
  | [] => []
  | e :: es => e.form :: Expr.forms es

end

mutual

/-- The form of a statement. -/
def Stmt.form : Stmt → Form
  | .expression value => .list ";" [value.form]
  | .print _ value => .list "print" [value.form]
  | .var name none => .list "var" [.word name.lexeme]
  | .var name (some initializer) => .list "var" [.word name.lexeme, initializer.form]
  | .block body => .list "block" (Stmt.forms body)
  | .conditional condition thenBranch none => .list "if" [condition.form, thenBranch.form]
  | .conditional condition thenBranch (some elseBranch) =>
    .list "if-else" [condition.form, thenBranch.form, elseBranch.form]
  | .loop condition body => .list "while" [condition.form, body.form]
  | .function decl => decl.form
  | .ret _ none => .list "return" []
  | .ret _ (some value) => .list "return" [value.form]
  | .classDecl name none methods =>
    .list "class" (.word name.lexeme :: FunctionDecl.forms methods)
  | .classDecl name (some superclass) methods =>
    .list "class" (.word name.lexeme :: .word "<" :: superclass.form :: FunctionDecl.forms methods)

/-- The form of a function. -/
def FunctionDecl.form : FunctionDecl → Form
  | ⟨name, params, body⟩ =>
    .list "fun" (.applied name.lexeme (params.map (·.lexeme)) :: Stmt.forms body)

def Stmt.forms : List Stmt → List Form
  | [] => []
  | s :: ss => s.form :: Stmt.forms ss

def FunctionDecl.forms : List FunctionDecl → List Form
  | [] => []
  | f :: fs => f.form :: FunctionDecl.forms fs

end

open Form (chars charsAll)

mutual

/-- The text of an expression is its form as it is written. -/
theorem Expr.chars_form : ∀ e : Expr, e.form.chars = e.text.toList
  | .literal value => rfl
  | .grouping inner => by simp [Expr.form, Expr.text, chars, charsAll, inner.chars_form]
  | .unary operator right => by simp [Expr.form, Expr.text, chars, charsAll, right.chars_form]
  | .binary left operator right | .logical left operator right => by
    simp [Expr.form, Expr.text, chars, charsAll, left.chars_form, right.chars_form]
  | .variable name depth => rfl
  | .assign name value depth => by simp [Expr.form, Expr.text, chars, charsAll, value.chars_form]
  | .call callee paren arguments => by
    simp [Expr.form, Expr.text, chars, charsAll, callee.chars_form, Expr.charsAll_forms arguments]
  | .get object name => by simp [Expr.form, Expr.text, chars, charsAll, object.chars_form]
  | .set object name value => by
    simp [Expr.form, Expr.text, chars, charsAll, object.chars_form, value.chars_form]
  | .this keyword depth => rfl
  | .super keyword method depth => by simp [Expr.form, Expr.text, chars, charsAll]

theorem Expr.charsAll_forms : ∀ es : List Expr, charsAll (Expr.forms es) = (Expr.textAll es).toList
  | [] => rfl
  | e :: es => by
    simp [Expr.forms, Expr.textAll, charsAll, e.chars_form, Expr.charsAll_forms es]

end

mutual

/-- The text of a statement is its form as it is written. -/
theorem Stmt.chars_form : ∀ s : Stmt, s.form.chars = s.text.toList
  | .expression value | .print _ value | .ret _ (some value) | .var _ (some value) => by
    simp [Stmt.form, Stmt.text, chars, charsAll, value.chars_form]
  | .var name none | .ret _ none => by simp [Stmt.form, Stmt.text, chars, charsAll]
  | .block body => by simp [Stmt.form, Stmt.text, chars, Stmt.charsAll_forms body]
  | .conditional condition thenBranch none => by
    simp [Stmt.form, Stmt.text, chars, charsAll, condition.chars_form, thenBranch.chars_form]
  | .conditional condition thenBranch (some elseBranch) => by
    simp [Stmt.form, Stmt.text, chars, charsAll, condition.chars_form, thenBranch.chars_form,
      elseBranch.chars_form]
  | .loop condition body => by
    simp [Stmt.form, Stmt.text, chars, charsAll, condition.chars_form, body.chars_form]
  | .function decl => by rw [Stmt.form, Stmt.text, decl.chars_form]
  | .classDecl name none methods => by
    simp [Stmt.form, Stmt.text, chars, charsAll, FunctionDecl.charsAll_forms methods]
  | .classDecl name (some superclass) methods => by
    simp [Stmt.form, Stmt.text, chars, charsAll, superclass.chars_form,
      FunctionDecl.charsAll_forms methods]

theorem FunctionDecl.chars_form : ∀ f : FunctionDecl, f.form.chars = f.text.toList
  | ⟨name, params, body⟩ => by
    simp [FunctionDecl.form, FunctionDecl.text, chars, charsAll, Stmt.charsAll_forms body]

theorem Stmt.charsAll_forms : ∀ ss : List Stmt, charsAll (Stmt.forms ss) = (Stmt.textAll ss).toList
  | [] => rfl
  | s :: ss => by
    simp [Stmt.forms, Stmt.textAll, charsAll, s.chars_form, Stmt.charsAll_forms ss]

theorem FunctionDecl.charsAll_forms : ∀ fs : List FunctionDecl,
    charsAll (FunctionDecl.forms fs) = (FunctionDecl.textAll fs).toList
  | [] => rfl
  | f :: fs => by
    simp [FunctionDecl.forms, FunctionDecl.textAll, charsAll, f.chars_form,
      FunctionDecl.charsAll_forms fs]

end

end Lox
