import Lox.Syntax.Grammar

/-!
# The parser by token indices

The parser as a machine over a list of tokens that holds its end token: `current` is the index of
the next token, every token is looked up by index, and a look-up outside of the list ends the run as
`outOfRange`. A failure is passed on until a declaration takes it into the list of errors and skips
to the next statement.

`Rule` lists the rules and the loops within them, by the type of what they read, `Rule.body` is what
each of them does, given how to call the others, and `run` ties them together with a depth to which
calls may nest.
-/

set_option autoImplicit false

namespace Lox.Indexed

open Grammar

/-! ## Steps -/

/-- The state of the parser. -/
structure State where
  /-- The index of the next token. -/
  current : Nat
  /-- The errors found so far. -/
  errors : List CompileError

/-- How a step ends. -/
inductive Outcome (α : Type) where
  | parsed (value : α) (state : State)
  | failed (error : CompileError) (state : State)
  /-- A token was looked up outside of the list. -/
  | outOfRange
  | exhausted

/-- A step of the parser over a list of tokens. -/
def Step (α : Type) := List Token → State → Outcome α

namespace Step

variable {α β : Type}

protected def pure (a : α) : Step α :=
  fun _ s => .parsed a s

/-- One step and then, unless it fails, the next. -/
protected def bind (p : Step α) (f : α → Step β) : Step β := fun ts s =>
  match p ts s with
  | .parsed a s => f a ts s
  | .failed e s => .failed e s
  | .outOfRange => .outOfRange
  | .exhausted => .exhausted

instance : Monad Step where
  pure := Step.pure
  bind := Step.bind

def exhausted : Step α :=
  fun _ _ => .exhausted

/-- Fails with an error at a token. -/
def fail (token : Token) (cause : SyntaxCause) : Step α :=
  fun _ s => .failed (.syntactic token cause) s

/-- Records an error at a token and goes on. -/
def record (token : Token) (cause : SyntaxCause) : Step Unit :=
  fun _ s => .parsed () { s with errors := s.errors ++ [.syntactic token cause] }

/-- The next token, which stays. -/
def peek : Step Token := fun ts s =>
  match ts[s.current]? with
  | some t => .parsed t s
  | none => .outOfRange

/-- The token taken last, or the first one if none was taken. -/
def previous : Step Token := fun ts s =>
  match ts[s.current - 1]? with
  | some t => .parsed t s
  | none => .outOfRange

def isAtEnd : Step Bool := do
  let t ← peek
  pure (t.kind = .eof)

def moveOn : Step Unit :=
  fun _ s => .parsed () { s with current := s.current + 1 }

/-- Takes the next token, unless it is the end. -/
def advance : Step Token := do
  if ← isAtEnd then previous
  else
    moveOn
    previous

/-- Whether the next token is of a kind. -/
def check (kind : TokenKind) : Step Bool := do
  if ← isAtEnd then pure false
  else
    let t ← peek
    pure (t.kind = kind)

def checkAny : List TokenKind → Step Bool
  | [] => pure false
  | kind :: kinds => do if ← check kind then pure true else checkAny kinds

/-- Takes the next token if it is of a kind. -/
def accepts (kind : TokenKind) : Step Bool := do
  if ← check kind then
    let _ ← advance
    pure true
  else pure false

/-- Takes the next token if it stands before an operand. -/
def acceptsSign : Step Bool := do
  if ← accepts (.punct .bang) then pure true else accepts (.punct .minus)

/-- Takes the next token, which has to be of a kind. -/
def consume (kind : TokenKind) (cause : SyntaxCause) : Step Token := do
  if ← check kind then advance
  else
    let t ← peek
    fail t cause

/-- Records a failure and goes on after it. -/
def recover (p : Step α) (synchronize : Step Unit) : Step (Option α) := fun ts s =>
  match p ts s with
  | .parsed a s => .parsed (some a) s
  | .failed e s =>
    (do
      synchronize
      pure none : Step (Option α)) ts { s with errors := s.errors ++ [e] }
  | .outOfRange => .outOfRange
  | .exhausted => .exhausted

end Step

/-! ## Rules -/

/-- The rules of the grammar and the loops within them. -/
inductive Rule : Type → Type where
  | program : Rule (List Stmt)
  | wholeExpression : Rule Expr
  | declaration : Rule (Option Stmt)
  | synchronize : Rule Unit
  /-- The loop of `synchronize`. -/
  | skip : Rule Unit
  | classDeclaration : Rule Stmt
  /-- The loop of a class body. -/
  | methods : Rule (List FunctionDecl)
  | function (role : FunctionRole) : Rule FunctionDecl
  /-- The loop over parameters, after `count` of them. -/
  | parameters (count : Nat) : Rule (List Token)
  | varDeclaration : Rule Stmt
  | statement : Rule Stmt
  | forStatement : Rule Stmt
  | ifStatement : Rule Stmt
  | whileStatement : Rule Stmt
  | printStatement : Rule Stmt
  | returnStatement : Rule Stmt
  | expressionStatement : Rule Stmt
  /-- The loop of a block, and the brace behind it. -/
  | block : Rule (List Stmt)
  | expression : Rule Expr
  | assignment : Rule Expr
  | level (level : Level) : Rule Expr
  /-- The loop over the operators of a level. -/
  | operations (level : Level) (left : Expr) : Rule Expr
  | unary : Rule Expr
  | call : Rule Expr
  /-- The loop over calls and property accesses. -/
  | suffixes (callee : Expr) : Rule Expr
  | finishCall (callee : Expr) : Rule Expr
  /-- The loop over arguments, after `count` of them. -/
  | arguments (count : Nat) : Rule (List Expr)
  | primary : Rule Expr

open Step

/-- The rule for an operand of a level. -/
def operandRule (level : Level) : Rule Expr :=
  match level.tighter with
  | some tighter => .level tighter
  | none => .unary

section

variable (read : {α : Type} → Rule α → Step α)

def expressionUnless (kind : TokenKind) : Step (Option Expr) := do
  if ← check kind then pure none
  else
    let value ← read .expression
    pure (some value)

def forInitializer : Step (Option Stmt) := do
  if ← accepts (.punct .semicolon) then pure none
  else if ← accepts (.keyword .varWord) then some <$> read .varDeclaration
  else some <$> read .expressionStatement

def declarationOrFail : Step Stmt := do
  if ← accepts (.keyword .classWord) then read .classDeclaration
  else if ← accepts (.keyword .funWord) then .function <$> read (.function .function)
  else if ← accepts (.keyword .varWord) then read .varDeclaration
  else read .statement

/-! ### Declarations -/

/-- Declarations up to the end. -/
def program : Step (List Stmt) := do
  if ← isAtEnd then pure []
  else
    let first ← read .declaration
    let others ← read .program
    pure (first.toList ++ others)

/-- An expression and nothing after it. -/
def wholeExpression : Step Expr := do
  let value ← read .expression
  if ← isAtEnd then pure value
  else
    let t ← peek
    fail t .endOfExpression

/-- A declaration; a syntax error in it is recorded and the rest of it skipped. -/
def declaration : Step (Option Stmt) :=
  recover (declarationOrFail read) (read .synchronize)

/-- Skips the token at fault and then up to a statement boundary. -/
def synchronize : Step Unit := do
  let _ ← advance
  read .skip

/-- Skips up to a statement boundary: behind a semicolon, or in front of a word that starts a
statement. -/
def skip : Step Unit := do
  if ← isAtEnd then pure ()
  else if (← previous).kind = .punct .semicolon then pure ()
  else if Parse.startsStatement (← peek) then pure ()
  else
    let _ ← advance
    read .skip

/-- A class declaration, from its name on. -/
def classDeclaration : Step Stmt := do
  let name ← consume .identifier .className
  let superclass ← if ← accepts (.punct .less) then
      let superclass ← consume .identifier .superclassName
      pure (some (Expr.variable superclass none))
    else pure none
  let _ ← consume (.punct .leftBrace) .classBodyStart
  let methods ← read .methods
  let _ ← consume (.punct .rightBrace) .classBodyEnd
  pure (.classDecl name superclass methods)

/-- The methods up to the end of a class body. -/
def methods : Step (List FunctionDecl) := do
  if ← check (.punct .rightBrace) then pure []
  else if ← isAtEnd then pure []
  else
    let method ← read (.function .method)
    let others ← read .methods
    pure (method :: others)

/-- A function, from its name on. -/
def function (role : FunctionRole) : Step FunctionDecl := do
  let name ← consume .identifier (.functionName role)
  let _ ← consume (.punct .leftParen) (.parametersStart role)
  let params ← if ← check (.punct .rightParen) then pure [] else read (.parameters 0)
  let _ ← consume (.punct .rightParen) .parametersEnd
  let _ ← consume (.punct .leftBrace) (.functionBodyStart role)
  let body ← read .block
  pure ⟨name, params, body⟩

/-- One or more parameters, after `count` others. -/
def parameters (count : Nat) : Step (List Token) := do
  if maxArguments ≤ count then record (← peek) .tooManyParameters
  let parameter ← consume .identifier .parameterName
  if ← accepts (.punct .comma) then
    let others ← read (.parameters (count + 1))
    pure (parameter :: others)
  else pure [parameter]

/-! ### Statements -/

/-- A variable declaration, from its name on. -/
def varDeclaration : Step Stmt := do
  let name ← consume .identifier .variableName
  let initializer ← if ← accepts (.punct .equal) then some <$> read .expression else pure none
  let _ ← consume (.punct .semicolon) .variableEnd
  pure (.var name initializer)

def statement : Step Stmt := do
  if ← accepts (.keyword .forWord) then read .forStatement
  else if ← accepts (.keyword .ifWord) then read .ifStatement
  else if ← accepts (.keyword .whileWord) then read .whileStatement
  else if ← accepts (.keyword .returnWord) then read .returnStatement
  else if ← accepts (.punct .leftBrace) then .block <$> read .block
  else if ← accepts (.keyword .printWord) then read .printStatement
  else read .expressionStatement

/-- A `for` statement, from its clauses on. -/
def forStatement : Step Stmt := do
  let _ ← consume (.punct .leftParen) .forStart
  let initializer ← forInitializer read
  let condition ← expressionUnless read (.punct .semicolon)
  let _ ← consume (.punct .semicolon) .loopConditionEnd
  let increment ← expressionUnless read (.punct .rightParen)
  let _ ← consume (.punct .rightParen) .forClausesEnd
  let body ← read .statement
  pure (forLoop initializer condition increment body)

def ifStatement : Step Stmt := do
  let _ ← consume (.punct .leftParen) .ifStart
  let condition ← read .expression
  let _ ← consume (.punct .rightParen) .ifConditionEnd
  let thenBranch ← read .statement
  if ← accepts (.keyword .elseWord) then
    let elseBranch ← read .statement
    pure (.conditional condition thenBranch (some elseBranch))
  else pure (.conditional condition thenBranch none)

def whileStatement : Step Stmt := do
  let _ ← consume (.punct .leftParen) .whileStart
  let condition ← read .expression
  let _ ← consume (.punct .rightParen) .conditionEnd
  let body ← read .statement
  pure (.loop condition body)

def printStatement : Step Stmt := do
  let keyword ← previous
  let value ← read .expression
  let _ ← consume (.punct .semicolon) .printEnd
  pure (.print keyword value)

def returnStatement : Step Stmt := do
  let keyword ← previous
  let value ← expressionUnless read (.punct .semicolon)
  let _ ← consume (.punct .semicolon) .returnEnd
  pure (.ret keyword value)

def expressionStatement : Step Stmt := do
  let value ← read .expression
  let _ ← consume (.punct .semicolon) .expressionEnd
  pure (.expression value)

/-- The declarations of a block and its closing brace. -/
def block : Step (List Stmt) := do
  if ← check (.punct .rightBrace) then
    let _ ← consume (.punct .rightBrace) .blockEnd
    pure []
  else if ← isAtEnd then
    let _ ← consume (.punct .rightBrace) .blockEnd
    pure []
  else
    let first ← read .declaration
    let others ← read .block
    pure (first.toList ++ others)

/-! ### Expressions -/

def expression : Step Expr := read .assignment

def assignment : Step Expr := do
  let left ← read (.level .or)
  if ← accepts (.punct .equal) then
    let equal ← previous
    let value ← read .assignment
    match assignment? left value with
    | some assigned => pure assigned
    | none =>
      record equal .invalidAssignmentTarget
      pure left
  else pure left

/-- A chain of operators of one level. -/
def level (l : Level) : Step Expr := do
  let left ← read (operandRule l)
  read (.operations l left)

/-- What follows the first operand of a chain. -/
def operations (l : Level) (left : Expr) : Step Expr := do
  if ← checkAny l.operators then
    let operator ← advance
    let right ← read (operandRule l)
    read (.operations l (l.node left operator right))
  else pure left

def unary : Step Expr := do
  if ← acceptsSign then
    let operator ← previous
    let right ← read .unary
    pure (.unary operator right)
  else read .call

def call : Step Expr := do
  let callee ← read .primary
  read (.suffixes callee)

/-- Calls and property accesses that follow an expression. -/
def suffixes (callee : Expr) : Step Expr := do
  if ← accepts (.punct .leftParen) then
    let callee ← read (.finishCall callee)
    read (.suffixes callee)
  else if ← accepts (.punct .dot) then
    let name ← consume .identifier .propertyName
    read (.suffixes (.get callee name))
  else pure callee

/-- The arguments of a call and its closing parenthesis. -/
def finishCall (callee : Expr) : Step Expr := do
  let arguments ← if ← check (.punct .rightParen) then pure [] else read (.arguments 0)
  let paren ← consume (.punct .rightParen) .argumentsEnd
  pure (.call callee paren arguments)

/-- One or more arguments, after `count` others. -/
def arguments (count : Nat) : Step (List Expr) := do
  if maxArguments ≤ count then record (← peek) .tooManyArguments
  let argument ← read .expression
  if ← accepts (.punct .comma) then
    let others ← read (.arguments (count + 1))
    pure (argument :: others)
  else pure [argument]

def primary : Step Expr := do
  let t ← peek
  match leaf? t with
  | some e =>
    let _ ← advance
    pure e
  | none =>
    if t.kind = .keyword .superWord then
      let _ ← advance
      let _ ← consume (.punct .dot) .superDot
      let method ← consume .identifier .superMethodName
      pure (.super t method none)
    else if t.kind = .punct .leftParen then
      let _ ← advance
      let inner ← read .expression
      let _ ← consume (.punct .rightParen) .groupingEnd
      pure (.grouping inner)
    else fail t .expression

/-- What a rule does; `read` reads the rules within it. -/
def Rule.body : {α : Type} → Rule α → Step α
  | _, .program => Indexed.program read
  | _, .wholeExpression => Indexed.wholeExpression read
  | _, .declaration => Indexed.declaration read
  | _, .synchronize => Indexed.synchronize read
  | _, .skip => Indexed.skip read
  | _, .classDeclaration => Indexed.classDeclaration read
  | _, .methods => Indexed.methods read
  | _, .function role => Indexed.function read role
  | _, .parameters count => Indexed.parameters read count
  | _, .varDeclaration => Indexed.varDeclaration read
  | _, .statement => Indexed.statement read
  | _, .forStatement => Indexed.forStatement read
  | _, .ifStatement => Indexed.ifStatement read
  | _, .whileStatement => Indexed.whileStatement read
  | _, .printStatement => Indexed.printStatement read
  | _, .returnStatement => Indexed.returnStatement read
  | _, .expressionStatement => Indexed.expressionStatement read
  | _, .block => Indexed.block read
  | _, .expression => Indexed.expression read
  | _, .assignment => Indexed.assignment read
  | _, .level l => Indexed.level read l
  | _, .operations l left => Indexed.operations read l left
  | _, .unary => Indexed.unary read
  | _, .call => Indexed.call read
  | _, .suffixes callee => Indexed.suffixes read callee
  | _, .finishCall callee => Indexed.finishCall read callee
  | _, .arguments count => Indexed.arguments read count
  | _, .primary => Indexed.primary read

end

/-- A rule whose calls may nest to a depth. -/
def run : Nat → {α : Type} → Rule α → Step α
  | 0, _, _ => exhausted
  | depth + 1, _, rule => Rule.body (run depth) rule

/-! ## Whole inputs -/

/-- The tokens with an end token, which is added if the last one is none. -/
def withEnd (ts : List Token) : List Token :=
  if ts.getLast?.any (fun t => t.kind = .eof) then ts
  else ts ++ [⟨.eof, "", (ts.getLast?.map (·.line)).getD 1⟩]

/-- Reads a whole input: the value, or every syntax error in it. Gives nothing when a token was
looked up outside of the list, or when the depth has run out. -/
def readAll {α : Type} (rule : Rule α) (depth : Nat) (ts : List Token) :
    Option (Except (List CompileError) α) :=
  match run depth rule (withEnd ts) ⟨0, []⟩ with
  | .parsed value s => some (if s.errors.isEmpty then .ok value else .error s.errors)
  | .failed e s => some (.error (s.errors ++ [e]))
  | .outOfRange => none
  | .exhausted => none

end Lox.Indexed
