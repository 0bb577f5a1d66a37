import Lox.Scope.Scopes
import Lox.Syntax

/-!
# Binding distances

`resolve` walks a program once with the visible names, writes the binding distance of every local
name into its slot, and reports what is not well scoped. A slot whose name is in no local scope is
left as it is: the name is global. Errors do not stop the walk.
-/

set_option autoImplicit false

namespace Lox

/-- The class body around a place. -/
inductive ClassContext where
  | outside
  | plain
  | subclass
  deriving DecidableEq, Repr

/-- What surrounds a place in the program. -/
structure Context where
  insideFunction : Bool
  enclosingClass : ClassContext
  deriving DecidableEq, Repr

/-- Outside of every function and class. -/
def Context.top : Context := ⟨false, .outside⟩

/-- The name of the method that is run when a class is called. -/
def initializerName : String := "init"

/-! ## Expressions -/

/-- The slot of a name that is read. In a local variable's own initializer its name means an outer
variable, and there has to be one. -/
def Scopes.readSlot (s : Scopes) (name : Token) (slot : Option Nat) : Checked (Option Nat) :=
  if s.isPending name.lexeme then
    match s.outerDistance? name.lexeme with
    | some d => pure (some d)
    | none => do
      if name.lexeme ∉ s.globals then Checked.report name .readInOwnInitializer
      pure slot
  else pure ((s.distance? name.lexeme).or slot)

/-- The slot of a name that is not read as a variable. -/
def Scopes.slot (s : Scopes) (name : Token) (slot : Option Nat) : Option Nat :=
  (s.distance? name.lexeme).or slot

mutual

/-- Fills the slots of an expression. -/
def Expr.resolve (s : Scopes) (c : ClassContext) : Expr → Checked Expr
  | .literal value => pure (.literal value)
  | .grouping inner => return .grouping (← inner.resolve s c)
  | .unary operator right => return .unary operator (← right.resolve s c)
  | .binary left operator right =>
    return .binary (← left.resolve s c) operator (← right.resolve s c)
  | .logical left operator right =>
    return .logical (← left.resolve s c) operator (← right.resolve s c)
  | .variable name depth => return .variable name (← s.readSlot name depth)
  | .assign name value depth => return .assign name (← value.resolve s c) (s.slot name depth)
  | .call callee paren arguments =>
    return .call (← callee.resolve s c) paren (← Expr.resolveAll s c arguments)
  | .get object name => return .get (← object.resolve s c) name
  | .set object name value => do
    let value ← value.resolve s c
    return .set (← object.resolve s c) name value
  | .this keyword depth =>
    match c with
    | .outside => do
      Checked.report keyword .thisOutsideClass
      pure (.this keyword depth)
    | _ => pure (.this keyword (s.slot keyword depth))
  | .super keyword method depth =>
    match c with
    | .outside => do
      Checked.report keyword .superOutsideClass
      pure (.super keyword method depth)
    | .plain => do
      Checked.report keyword .superWithoutSuperclass
      pure (.super keyword method depth)
    | .subclass => pure (.super keyword method (s.slot keyword depth))

def Expr.resolveAll (s : Scopes) (c : ClassContext) : List Expr → Checked (List Expr)
  | [] => pure []
  | e :: es => return (← e.resolve s c) :: (← Expr.resolveAll s c es)

end

/-- Fills the slots of an expression that may be absent. -/
def Expr.resolveOpt (s : Scopes) (c : ClassContext) : Option Expr → Checked (Option Expr)
  | none => pure none
  | some e => return some (← e.resolve s c)

/-! ## Statements -/

/-- Declares parameters, each ready at once. -/
def Scopes.declareParams (s : Scopes) : List Token → Checked Scopes
  | [] => pure s
  | p :: ps => do
    let s ← s.declare p
    (s.define p).declareParams ps

/-- A class must not name itself as its superclass. -/
def checkSuperclass (className : Token) : Expr → Checked Unit
  | .variable name _ =>
    if name.lexeme = className.lexeme then Checked.report name .inheritsFromItself else pure ()
  | _ => pure ()

/-- The scope around a subclass's methods that holds `super`. -/
def superScope : Scope := .ofList [("super", .ready)]

/-- The scope around a class's methods that holds `this`. -/
def thisScope : Scope := .ofList [("this", .ready)]

mutual

/-- Fills the slots of a statement; the names that it declares are visible afterwards. -/
def Stmt.resolve (c : Context) (s : Scopes) : Stmt → Checked (Stmt × Scopes)
  | .expression value => return (.expression (← value.resolve s c.enclosingClass), s)
  | .print keyword value => return (.print keyword (← value.resolve s c.enclosingClass), s)
  | .var name initializer => do
    let s ← s.declare name
    let initializer ← Expr.resolveOpt s c.enclosingClass initializer
    return (.var name initializer, s.define name)
  | .block body => do
    let (body, _) ← Stmt.resolveAll c (s.push .empty) body
    return (.block body, s)
  | .conditional condition thenBranch none => do
    let condition ← condition.resolve s c.enclosingClass
    let (thenBranch, s) ← thenBranch.resolve c s
    return (.conditional condition thenBranch none, s)
  | .conditional condition thenBranch (some elseBranch) => do
    let condition ← condition.resolve s c.enclosingClass
    let (thenBranch, s) ← thenBranch.resolve c s
    let (elseBranch, s) ← elseBranch.resolve c s
    return (.conditional condition thenBranch (some elseBranch), s)
  | .loop condition body => do
    let condition ← condition.resolve s c.enclosingClass
    let (body, s) ← body.resolve c s
    return (.loop condition body, s)
  | .function decl => do
    let s ← s.declare decl.name
    let s := s.define decl.name
    return (.function (← decl.resolve c s), s)
  | .ret keyword value => do
    if ¬ c.insideFunction then Checked.report keyword .returnAtTopLevel
    return (.ret keyword (← Expr.resolveOpt s c.enclosingClass value), s)
  | .classDecl name none methods => do
    let s ← s.declare name
    let s := s.define name
    let methods ←
      FunctionDecl.resolveAll { c with enclosingClass := .plain } (s.push thisScope) methods
    return (.classDecl name none methods, s)
  | .classDecl name (some superclass) methods => do
    let s ← s.declare name
    let s := s.define name
    checkSuperclass name superclass
    let superclass ← superclass.resolve s .subclass
    let methods ← FunctionDecl.resolveAll { c with enclosingClass := .subclass }
      ((s.push superScope).push thisScope) methods
    return (.classDecl name (some superclass) methods, s)

/-- Fills the slots of a function's body, which shares one scope with the parameters. -/
def FunctionDecl.resolve (c : Context) (s : Scopes) : FunctionDecl → Checked FunctionDecl
  | ⟨name, params, body⟩ => do
    let s ← (s.push .empty).declareParams params
    let (body, _) ← Stmt.resolveAll { c with insideFunction := true } s body
    return ⟨name, params, body⟩

def Stmt.resolveAll (c : Context) (s : Scopes) : List Stmt → Checked (List Stmt × Scopes)
  | [] => pure ([], s)
  | x :: xs => do
    let (x, s) ← x.resolve c s
    let (xs, s) ← Stmt.resolveAll c s xs
    return (x :: xs, s)

def FunctionDecl.resolveAll (c : Context) (s : Scopes) :
    List FunctionDecl → Checked (List FunctionDecl)
  | [] => pure []
  | f :: fs => return (← f.resolve c s) :: (← FunctionDecl.resolveAll c s fs)

end

/-- Fills the slots of a program that is run where these global names are known; also gives the
scopes that are left, which hold all global names known at the end. -/
def resolve (globals : List String) (program : List Stmt) : Checked (List Stmt × Scopes) :=
  Stmt.resolveAll .top (.top globals) program

end Lox
