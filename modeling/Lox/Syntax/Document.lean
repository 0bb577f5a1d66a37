import Lox.Syntax
import Lox.Text.Json

/-!
# Tokens and trees as JSON

A node is an object with its kind as the only key; a kind without parts is a string. Parts come in
the order in which the node is declared.
-/

set_option autoImplicit false

namespace Lox

/-- A double as a JSON number; infinities and NaN are `null`. -/
def Json.double (x : Float) : Json :=
  Json.opt .number (Number.json? x)

/-- A token kind, with its value if it has one. -/
def TokenKind.json : TokenKind → Json
  | .string contents => .tagged "STRING" (.string contents)
  | .number value => .tagged "NUMBER" (.double value)
  | kind => .string kind.name

def Token.json (t : Token) : Json :=
  .object [("token_type", t.kind.json), ("lexeme", .string t.lexeme), ("line", .nat t.line)]

def Literal.json : Literal → Json
  | .number value => .tagged "Number" (.double value)
  | .string contents => .tagged "Str" (.string contents)
  | .true => .string "True"
  | .false => .string "False"
  | .nil => .string "Nil"

/-- The content of a slot. -/
def slotJson (depth : Option Nat) : Json :=
  Json.opt .nat depth

mutual

def Expr.json : Expr → Json
  | .literal value => .tagged "Literal" value.json
  | .grouping inner => .tagged "Grouping" inner.json
  | .unary operator right =>
    .tagged "Unary" (.object [("operator", operator.json), ("right", right.json)])
  | .binary left operator right =>
    .tagged "Binary" (.object
      [("left", left.json), ("operator", operator.json), ("right", right.json)])
  | .logical left operator right =>
    .tagged "Logical" (.object
      [("left", left.json), ("operator", operator.json), ("right", right.json)])
  | .variable name depth =>
    .tagged "Variable" (.object [("name", name.json), ("depth", slotJson depth)])
  | .assign name value depth =>
    .tagged "Assign" (.object
      [("name", name.json), ("value", value.json), ("depth", slotJson depth)])
  | .call callee paren arguments =>
    .tagged "Call" (.object
      [("callee", callee.json), ("paren", paren.json),
        ("arguments", .array (Expr.jsonAll arguments))])
  | .get object name =>
    .tagged "Get" (.object [("object", object.json), ("name", name.json)])
  | .set object name value =>
    .tagged "Set" (.object
      [("object", object.json), ("name", name.json), ("value", value.json)])
  | .this keyword depth =>
    .tagged "This" (.object [("keyword", keyword.json), ("depth", slotJson depth)])
  | .super keyword method depth =>
    .tagged "Super" (.object
      [("keyword", keyword.json), ("method", method.json), ("depth", slotJson depth)])

def Expr.jsonAll : List Expr → List Json
  | [] => []
  | e :: es => e.json :: Expr.jsonAll es

end

mutual

def Stmt.json : Stmt → Json
  | .expression value => .tagged "Expression" value.json
  | .print keyword value =>
    .tagged "Print" (.object [("keyword", keyword.json), ("value", value.json)])
  | .var name initializer =>
    .tagged "Var" (.object
      [("name", name.json), ("initializer", Json.opt Expr.json initializer)])
  | .block body => .tagged "Block" (.array (Stmt.jsonAll body))
  | .conditional condition thenBranch none =>
    .tagged "If" (.object
      [("condition", condition.json), ("then_branch", thenBranch.json), ("else_branch", .null)])
  | .conditional condition thenBranch (some elseBranch) =>
    .tagged "If" (.object
      [("condition", condition.json), ("then_branch", thenBranch.json),
        ("else_branch", elseBranch.json)])
  | .loop condition body =>
    .tagged "While" (.object [("condition", condition.json), ("body", body.json)])
  | .function decl => .tagged "Function" decl.json
  | .ret keyword value =>
    .tagged "Return" (.object
      [("keyword", keyword.json), ("value", Json.opt Expr.json value)])
  | .classDecl name superclass methods =>
    .tagged "Class" (.object
      [("name", name.json), ("superclass", Json.opt Expr.json superclass),
        ("methods", .array (FunctionDecl.jsonAll methods))])

def FunctionDecl.json : FunctionDecl → Json
  | ⟨name, params, body⟩ =>
    .object
      [("name", name.json), ("params", .array (params.map Token.json)),
        ("body", .array (Stmt.jsonAll body))]

def Stmt.jsonAll : List Stmt → List Json
  | [] => []
  | s :: ss => s.json :: Stmt.jsonAll ss

def FunctionDecl.jsonAll : List FunctionDecl → List Json
  | [] => []
  | f :: fs => f.json :: FunctionDecl.jsonAll fs

end

end Lox
