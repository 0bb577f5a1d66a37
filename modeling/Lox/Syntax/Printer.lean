import Lox.Syntax

/-!
# Trees as text

`Expr.text` and `Stmt.text` write a tree in prefix form, every node in parentheses with its operator
first: `(* (- 123.0) (group 45.67))`. Names and operators are written as they are spelled, string
literals without quotes.
-/

set_option autoImplicit false

namespace Lox

/-- A constant as it is listed in a tree. -/
def Literal.text : Literal → String
  | .number value => Number.literal value
  | .string contents => contents
  | .true => "true"
  | .false => "false"
  | .nil => "nil"

mutual

/-- An expression in prefix form. -/
def Expr.text : Expr → String
  | .literal value => value.text
  | .grouping inner => "(group " ++ inner.text ++ ")"
  | .unary operator right => "(" ++ operator.lexeme ++ " " ++ right.text ++ ")"
  | .binary left operator right =>
    "(" ++ operator.lexeme ++ " " ++ left.text ++ " " ++ right.text ++ ")"
  | .logical left operator right =>
    "(" ++ operator.lexeme ++ " " ++ left.text ++ " " ++ right.text ++ ")"
  | .variable name _ => name.lexeme
  | .assign name value _ => "(= " ++ name.lexeme ++ " " ++ value.text ++ ")"
  | .call callee _ arguments => "(call " ++ callee.text ++ Expr.textAll arguments ++ ")"
  | .get object name => "(. " ++ object.text ++ " " ++ name.lexeme ++ ")"
  | .set object name value =>
    "(= (. " ++ object.text ++ " " ++ name.lexeme ++ ") " ++ value.text ++ ")"
  | .this _ _ => "this"
  | .super _ method _ => "(super " ++ method.lexeme ++ ")"

/-- Expressions in prefix form, each after a space. -/
def Expr.textAll : List Expr → String
  | [] => ""
  | e :: es => " " ++ e.text ++ Expr.textAll es

end

mutual

/-- A statement in prefix form. -/
def Stmt.text : Stmt → String
  | .expression value => "(; " ++ value.text ++ ")"
  | .print _ value => "(print " ++ value.text ++ ")"
  | .var name none => "(var " ++ name.lexeme ++ ")"
  | .var name (some initializer) => "(var " ++ name.lexeme ++ " " ++ initializer.text ++ ")"
  | .block body => "(block" ++ Stmt.textAll body ++ ")"
  | .conditional condition thenBranch none =>
    "(if " ++ condition.text ++ " " ++ thenBranch.text ++ ")"
  | .conditional condition thenBranch (some elseBranch) =>
    "(if-else " ++ condition.text ++ " " ++ thenBranch.text ++ " " ++ elseBranch.text ++ ")"
  | .loop condition body => "(while " ++ condition.text ++ " " ++ body.text ++ ")"
  | .function decl => decl.text
  | .ret _ none => "(return)"
  | .ret _ (some value) => "(return " ++ value.text ++ ")"
  | .classDecl name none methods => "(class " ++ name.lexeme ++ FunctionDecl.textAll methods ++ ")"
  | .classDecl name (some superclass) methods =>
    "(class " ++ name.lexeme ++ " < " ++ superclass.text ++ FunctionDecl.textAll methods ++ ")"

/-- A function declaration in prefix form, its parameters in parentheses after its name. -/
def FunctionDecl.text : FunctionDecl → String
  | ⟨name, params, body⟩ =>
    "(fun " ++ name.lexeme ++ "(" ++ " ".intercalate (params.map (·.lexeme)) ++ ")"
      ++ Stmt.textAll body ++ ")"

/-- Statements in prefix form, each after a space. -/
def Stmt.textAll : List Stmt → String
  | [] => ""
  | s :: ss => " " ++ s.text ++ Stmt.textAll ss

/-- Declarations in prefix form, each after a space. -/
def FunctionDecl.textAll : List FunctionDecl → String
  | [] => ""
  | f :: fs => " " ++ f.text ++ FunctionDecl.textAll fs

end

end Lox
