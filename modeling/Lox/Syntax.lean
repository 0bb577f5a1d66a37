import Lox.Token

/-!
# Syntax trees

Expressions, statements and function declarations. Every node that names a variable has a slot for
its binding distance: `some d` says that the variable lives `d` frames out from the current one,
`none` that it is global. `for` loops have no node of their own; they are written with `block` and
`loop`. `references` lists the slots of a program in the order in which they stand in the tree.
-/

set_option autoImplicit false

namespace Lox

/-- A constant written in the source. -/
inductive Literal where
  | number (value : Float)
  | string (contents : String)
  | true
  | false
  | nil
  deriving DecidableEq, Repr

/-- Expressions. -/
inductive Expr where
  | literal (value : Literal)
  | grouping (inner : Expr)
  | unary (operator : Token) (right : Expr)
  | binary (left : Expr) (operator : Token) (right : Expr)
  /-- `or` and `and`, which may leave the right operand alone. -/
  | logical (left : Expr) (operator : Token) (right : Expr)
  | variable (name : Token) (depth : Option Nat)
  | assign (name : Token) (value : Expr) (depth : Option Nat)
  /-- A call; `paren` is its closing parenthesis. -/
  | call (callee : Expr) (paren : Token) (arguments : List Expr)
  | get (object : Expr) (name : Token)
  | set (object : Expr) (name : Token) (value : Expr)
  | this (keyword : Token) (depth : Option Nat)
  | super (keyword : Token) (method : Token) (depth : Option Nat)
  deriving Repr

mutual

/-- Statements. -/
inductive Stmt where
  | expression (value : Expr)
  | print (keyword : Token) (value : Expr)
  | var (name : Token) (initializer : Option Expr)
  | block (body : List Stmt)
  | conditional (condition : Expr) (thenBranch : Stmt) (elseBranch : Option Stmt)
  | loop (condition : Expr) (body : Stmt)
  | function (decl : FunctionDecl)
  | ret (keyword : Token) (value : Option Expr)
  | classDecl (name : Token) (superclass : Option Expr) (methods : List FunctionDecl)

/-- The declaration of a function or a method. -/
structure FunctionDecl where
  name : Token
  params : List Token
  body : List Stmt

end

/-! ## Slots -/

/-- The kinds of nodes with a slot. -/
inductive ReferenceKind where
  | variable
  | assign
  | this
  | super
  deriving DecidableEq, Repr

/-- A slot: the kind of its node, the token that names the variable, and the distance in it. -/
structure Reference where
  kind : ReferenceKind
  token : Token
  depth : Option Nat
  deriving DecidableEq, Repr

mutual

/-- The slots of an expression, a node before its parts. -/
def Expr.references : Expr → List Reference
  | .literal _ => []
  | .grouping inner => inner.references
  | .unary _ right => right.references
  | .binary left _ right => left.references ++ right.references
  | .logical left _ right => left.references ++ right.references
  | .variable name depth => [⟨.variable, name, depth⟩]
  | .assign name value depth => ⟨.assign, name, depth⟩ :: value.references
  | .call callee _ arguments => callee.references ++ Expr.referencesAll arguments
  | .get object _ => object.references
  | .set object _ value => object.references ++ value.references
  | .this keyword depth => [⟨.this, keyword, depth⟩]
  | .super keyword _ depth => [⟨.super, keyword, depth⟩]

def Expr.referencesAll : List Expr → List Reference
  | [] => []
  | e :: es => e.references ++ Expr.referencesAll es

end

/-- The slots of an expression that may be absent. -/
def Expr.referencesOpt : Option Expr → List Reference
  | none => []
  | some e => e.references

mutual

/-- The slots of a statement, in order. -/
def Stmt.references : Stmt → List Reference
  | .expression value => value.references
  | .print _ value => value.references
  | .var _ initializer => Expr.referencesOpt initializer
  | .block body => Stmt.referencesAll body
  | .conditional condition thenBranch none => condition.references ++ thenBranch.references
  | .conditional condition thenBranch (some elseBranch) =>
    condition.references ++ thenBranch.references ++ elseBranch.references
  | .loop condition body => condition.references ++ body.references
  | .function decl => decl.references
  | .ret _ value => Expr.referencesOpt value
  | .classDecl _ superclass methods =>
    Expr.referencesOpt superclass ++ FunctionDecl.referencesAll methods

/-- The slots in a function's body. -/
def FunctionDecl.references : FunctionDecl → List Reference
  | ⟨_, _, body⟩ => Stmt.referencesAll body

/-- The slots of a program. -/
def Stmt.referencesAll : List Stmt → List Reference
  | [] => []
  | s :: ss => s.references ++ Stmt.referencesAll ss

def FunctionDecl.referencesAll : List FunctionDecl → List Reference
  | [] => []
  | f :: fs => f.references ++ FunctionDecl.referencesAll fs

end

end Lox
