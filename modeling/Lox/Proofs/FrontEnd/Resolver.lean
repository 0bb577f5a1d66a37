import Lox.Scope.Resolve

/-!
# The resolver as one state

The resolver as a walk over the tree that changes one state in place. Scopes are pushed on a stack
and popped from it, the kinds of the function and of the class around a place are set for a part of
the walk and then set back, and errors are collected. The walk gives the tree with its slots filled.
-/

set_option autoImplicit false

namespace Lox

/-- The kind of the function around a place. -/
inductive FunctionKind where
  | none
  | function
  | initializer
  | method
  deriving DecidableEq, Repr

/-- The state of the resolver. -/
structure Resolver where
  /-- The local scopes, innermost first. -/
  scopes : List Scope
  /-- The global names known so far. -/
  globals : List String
  function : FunctionKind
  enclosingClass : ClassContext
  errors : List CompileError

/-- Outside of everything, where some global names are known. -/
def Resolver.start (globals : List String) : Resolver :=
  ⟨[], globals, .none, .outside, []⟩

/-- A part of the walk. -/
abbrev Visit (α : Type) := StateM Resolver α

namespace Resolver

/-! ## Steps -/

/-- The names that can be seen. -/
def visible (r : Resolver) : Scopes := ⟨r.scopes, r.globals⟩

def error (token : Token) (cause : ScopeCause) : Visit Unit :=
  modify fun r => { r with errors := r.errors ++ [.scoping token cause] }

def beginScope : Visit Unit :=
  modify fun r => { r with scopes := .empty :: r.scopes }

def endScope : Visit Unit :=
  modify fun r => { r with scopes := r.scopes.tail }

/-- Declares a name in the innermost scope, where it must be new; global names may be declared
again. -/
def declare (name : Token) : Visit Unit := do
  match (← get).scopes with
  | [] => modify fun r => { r with globals := r.globals.insert name.lexeme }
  | scope :: outer =>
    if scope.contains name.lexeme then error name .alreadyDeclared
    else modify fun r => { r with scopes := scope.insert name.lexeme .pending :: outer }

/-- Makes a name of the innermost scope ready. -/
def bind (name : String) : Visit Unit := do
  match (← get).scopes with
  | [] => pure ()
  | scope :: outer => modify fun r => { r with scopes := scope.insert name .ready :: outer }

def define (name : Token) : Visit Unit :=
  bind name.lexeme

def setFunction (kind : FunctionKind) : Visit Unit :=
  modify fun r => { r with function := kind }

def setClass (context : ClassContext) : Visit Unit :=
  modify fun r => { r with enclosingClass := context }

/-- The slot of a name, which is left as it is if no scope declares the name. -/
def resolveLocal (name : Token) (slot : Option Nat) : Visit (Option Nat) := do
  match (← get).visible.distance? name.lexeme with
  | some distance => pure (some distance)
  | none => pure slot

/-- The slot of a name beyond the innermost scope, and whether the name is bound there. -/
def resolveEnclosing (name : Token) (slot : Option Nat) : Visit (Option Nat × Bool) := do
  match (← get).visible.outerDistance? name.lexeme with
  | some distance => pure (some distance, true)
  | none => pure (slot, decide (name.lexeme ∈ (← get).globals))

/-- The slot of a name that is read as a variable. -/
def resolveRead (name : Token) (slot : Option Nat) : Visit (Option Nat) := do
  if (← get).visible.isPending name.lexeme then
    let (slot, found) ← resolveEnclosing name slot
    if found then pure ()
    else error name .readInOwnInitializer
    pure slot
  else resolveLocal name slot

/-- The slot of `this`, which stands in a class only. -/
def resolveThis (keyword : Token) (slot : Option Nat) : Visit (Option Nat) := do
  match (← get).enclosingClass with
  | .outside =>
    error keyword .thisOutsideClass
    pure slot
  | _ => resolveLocal keyword slot

/-- The slot of `super`, which stands in a subclass only. -/
def resolveSuper (keyword : Token) (slot : Option Nat) : Visit (Option Nat) := do
  match (← get).enclosingClass with
  | .outside =>
    error keyword .superOutsideClass
    pure slot
  | .plain =>
    error keyword .superWithoutSuperclass
    pure slot
  | .subclass => resolveLocal keyword slot

end Resolver

open Resolver

/-! ## Expressions -/

mutual

/-- Walks over an expression. -/
def Expr.visit : Expr → Visit Expr
  | .literal value => pure (.literal value)
  | .grouping inner => return .grouping (← inner.visit)
  | .unary operator right => return .unary operator (← right.visit)
  | .binary left operator right => return .binary (← left.visit) operator (← right.visit)
  | .logical left operator right => return .logical (← left.visit) operator (← right.visit)
  | .variable name slot => return .variable name (← resolveRead name slot)
  | .assign name value slot => return .assign name (← value.visit) (← resolveLocal name slot)
  | .call callee paren arguments =>
    return .call (← callee.visit) paren (← Expr.visitAll arguments)
  | .get object name => return .get (← object.visit) name
  | .set object name value => do
    let value ← value.visit
    return .set (← object.visit) name value
  | .this keyword slot => return .this keyword (← resolveThis keyword slot)
  | .super keyword method slot => return .super keyword method (← resolveSuper keyword slot)

def Expr.visitAll : List Expr → Visit (List Expr)
  | [] => pure []
  | e :: es => return (← e.visit) :: (← Expr.visitAll es)

end

/-- Walks over an expression that may be absent. -/
def Expr.visitOpt : Option Expr → Visit (Option Expr)
  | none => pure none
  | some e => return some (← e.visit)

/-! ## Statements -/

/-- Declares parameters, each ready at once. -/
def Resolver.declareParams : List Token → Visit Unit
  | [] => pure ()
  | p :: ps => do
    declare p
    define p
    declareParams ps

/-- A class must not name itself as its superclass. -/
def Resolver.checkInheritance (className : Token) : Expr → Visit Unit
  | .variable name _ =>
    if name.lexeme = className.lexeme then error name .inheritsFromItself else pure ()
  | _ => pure ()

/-- Walks over a superclass, and enters the scope that holds `super`. -/
def Resolver.enterSuperclass (className : Token) : Option Expr → Visit (Option Expr)
  | none => pure none
  | some superclass => do
    checkInheritance className superclass
    setClass .subclass
    let superclass ← superclass.visit
    beginScope
    bind "super"
    pure (some superclass)

/-- Leaves the scope that holds `super`. -/
def Resolver.leaveSuperclass : Option Expr → Visit Unit
  | none => pure ()
  | some _ => endScope

/-- What a method is, by its name. -/
def FunctionDecl.methodKind (f : FunctionDecl) : FunctionKind :=
  if f.name.lexeme = initializerName then .initializer else .method

mutual

/-- Walks over a statement. -/
def Stmt.visit : Stmt → Visit Stmt
  | .expression value => return .expression (← value.visit)
  | .print keyword value => return .print keyword (← value.visit)
  | .var name initializer => do
    declare name
    let initializer ← Expr.visitOpt initializer
    define name
    pure (.var name initializer)
  | .block body => do
    beginScope
    let body ← Stmt.visitAll body
    endScope
    pure (.block body)
  | .conditional condition thenBranch none => do
    let condition ← condition.visit
    let thenBranch ← thenBranch.visit
    pure (.conditional condition thenBranch none)
  | .conditional condition thenBranch (some elseBranch) => do
    let condition ← condition.visit
    let thenBranch ← thenBranch.visit
    let elseBranch ← elseBranch.visit
    pure (.conditional condition thenBranch (some elseBranch))
  | .loop condition body => return .loop (← condition.visit) (← body.visit)
  | .function decl => do
    declare decl.name
    define decl.name
    return .function (← decl.visit .function)
  | .ret keyword value => do
    if (← get).function = .none then error keyword .returnAtTopLevel
    return .ret keyword (← Expr.visitOpt value)
  | .classDecl name superclass methods => do
    let enclosing := (← get).enclosingClass
    setClass .plain
    declare name
    define name
    let superclass ← enterSuperclass name superclass
    beginScope
    bind "this"
    let methods ← FunctionDecl.visitMethods methods
    endScope
    leaveSuperclass superclass
    setClass enclosing
    pure (.classDecl name superclass methods)

/-- Walks over a function's body, which shares one scope with the parameters. -/
def FunctionDecl.visit (kind : FunctionKind) : FunctionDecl → Visit FunctionDecl
  | ⟨name, params, body⟩ => do
    let enclosing := (← get).function
    setFunction kind
    beginScope
    declareParams params
    let body ← Stmt.visitAll body
    endScope
    setFunction enclosing
    pure ⟨name, params, body⟩

def Stmt.visitAll : List Stmt → Visit (List Stmt)
  | [] => pure []
  | x :: xs => return (← x.visit) :: (← Stmt.visitAll xs)

def FunctionDecl.visitMethods : List FunctionDecl → Visit (List FunctionDecl)
  | [] => pure []
  | f :: fs => return (← f.visit f.methodKind) :: (← FunctionDecl.visitMethods fs)

end

end Lox
