import Lox.Syntax.Parse

/-!
# The grammar

One reader per rule, by recursive descent:

```text
program        → declaration* EOF ;
declaration    → classDecl | funDecl | varDecl | statement ;
classDecl      → "class" IDENT ( "<" IDENT )? "{" function* "}" ;
funDecl        → "fun" function ;
function       → IDENT "(" parameters? ")" block ;
varDecl        → "var" IDENT ( "=" expression )? ";" ;
statement      → exprStmt | forStmt | ifStmt | printStmt | returnStmt | whileStmt | block ;
forStmt        → "for" "(" ( varDecl | exprStmt | ";" ) expression? ";" expression? ")" statement ;
block          → "{" declaration* "}" ;
expression     → ( call "." )? IDENT "=" expression | level or ;
level          → next ( operator next )* ;     or, and, equality, comparison, term, factor
unary          → ( "!" | "-" ) unary | call ;
call           → primary ( "(" arguments? ")" | "." IDENT )* ;
primary        → NUMBER | STRING | "true" | "false" | "nil" | "this" | IDENT
               | "(" expression ")" | "super" "." IDENT ;
```

Every reader takes the depth to which rules may nest. `parse` and `parseExpression` give one that
the number of tokens cannot exhaust, since at most `rulesPerToken` rules nest between two tokens.
After a syntax error the rest of the declaration is dropped and reading goes on, so that one pass
finds every independent mistake.
-/

set_option autoImplicit false

namespace Lox.Grammar

open Parse

/-- The most parameters a function and the most arguments a call may have. -/
def maxArguments : Nat := 255

/-! ## Operator levels -/

/-- The levels of binary operators, loosest first. -/
inductive Level where
  | or
  | and
  | equality
  | comparison
  | term
  | factor
  deriving DecidableEq, Repr

namespace Level

/-- The next tighter level. -/
def tighter : Level → Option Level
  | .or => some .and
  | .and => some .equality
  | .equality => some .comparison
  | .comparison => some .term
  | .term => some .factor
  | .factor => none

/-- The operators of a level. -/
def operators : Level → List TokenKind
  | .or => [.keyword .orWord]
  | .and => [.keyword .andWord]
  | .equality => [.punct .bangEqual, .punct .equalEqual]
  | .comparison => [.punct .greater, .punct .greaterEqual, .punct .less, .punct .lessEqual]
  | .term => [.punct .minus, .punct .plus]
  | .factor => [.punct .star, .punct .slash]

/-- Whether a token is an operator of a level. -/
def has (level : Level) (t : Token) : Bool :=
  level.operators.contains t.kind

/-- The node for an operator of a level. -/
def node (level : Level) (left : Expr) (operator : Token) (right : Expr) : Expr :=
  match level with
  | .or | .and => .logical left operator right
  | _ => .binary left operator right

end Level

/-- The operators that stand before their operand. -/
def isUnary (t : Token) : Bool :=
  t.kind = .punct .bang || t.kind = .punct .minus

/-- The assignment of `value` to what `target` reads; only variables and properties can be
assigned. -/
def assignment? (target value : Expr) : Option Expr :=
  match target with
  | .variable name _ => some (.assign name value none)
  | .get object name => some (.set object name value)
  | _ => none

/-- The expression that a single token is. -/
def leaf? (t : Token) : Option Expr :=
  match t.kind with
  | .keyword .falseWord => some (.literal .false)
  | .keyword .trueWord => some (.literal .true)
  | .keyword .nilWord => some (.literal .nil)
  | .keyword .thisWord => some (.this t none)
  | .number value => some (.literal (.number value))
  | .string contents => some (.literal (.string contents))
  | .identifier => some (.variable t none)
  | _ => none

/-! ## Expressions -/

mutual

def expression : Nat → Parse Expr
  | 0 => exhausted
  | depth + 1 => do
    let left ← binary depth .or
    match ← accept (.punct .equal) with
    | none => pure left
    | some equal =>
      let value ← expression depth
      match assignment? left value with
      | some assigned => pure assigned
      | none =>
        noteAt equal .invalidAssignmentTarget
        pure left

/-- A chain of operators of one level, grouped to the left. -/
def binary : Nat → Level → Parse Expr
  | 0, _ => exhausted
  | depth + 1, level => do
    let left ← operand depth level
    binaryTail depth level left

/-- What follows the first operand of a chain. -/
def binaryTail : Nat → Level → Expr → Parse Expr
  | 0, _, _ => exhausted
  | depth + 1, level, left => do
    match ← acceptIf level.has with
    | none => pure left
    | some operator =>
      let right ← operand depth level
      binaryTail depth level (level.node left operator right)

/-- An operand of a level: a chain of the next tighter one. -/
def operand : Nat → Level → Parse Expr
  | 0, _ => exhausted
  | depth + 1, level =>
    match level.tighter with
    | some tighter => binary depth tighter
    | none => unary depth

def unary : Nat → Parse Expr
  | 0 => exhausted
  | depth + 1 => do
    match ← acceptIf isUnary with
    | some operator => return .unary operator (← unary depth)
    | none =>
      let callee ← primary depth
      callTail depth callee

/-- Calls and property accesses that follow an expression. -/
def callTail : Nat → Expr → Parse Expr
  | 0, _ => exhausted
  | depth + 1, callee => do
    match ← accept (.punct .leftParen) with
    | some _ =>
      let arguments ← if ← sees (.punct .rightParen) then pure [] else argumentList depth 0
      let paren ← expect (.punct .rightParen) .argumentsEnd
      callTail depth (.call callee paren arguments)
    | none =>
      match ← accept (.punct .dot) with
      | some _ =>
        let name ← expect .identifier .propertyName
        callTail depth (.get callee name)
      | none => pure callee

/-- One or more arguments, after `count` others. -/
def argumentList : Nat → Nat → Parse (List Expr)
  | 0, _ => exhausted
  | depth + 1, count => do
    if maxArguments ≤ count then noteAt (← peek) .tooManyArguments
    let argument ← expression depth
    match ← accept (.punct .comma) with
    | none => pure [argument]
    | some _ => return argument :: (← argumentList depth (count + 1))

def primary : Nat → Parse Expr
  | 0 => exhausted
  | depth + 1 => do
    match ← peek with
    | none => fail .expression
    | some t =>
      match leaf? t with
      | some e =>
        advance
        pure e
      | none =>
        if t.kind = .keyword .superWord then
          advance
          let _ ← expect (.punct .dot) .superDot
          let method ← expect .identifier .superMethodName
          pure (.super t method none)
        else if t.kind = .punct .leftParen then
          advance
          let inner ← expression depth
          let _ ← expect (.punct .rightParen) .groupingEnd
          pure (.grouping inner)
        else fail .expression

end

/-! ## Parts of statements -/

/-- An expression, unless a token of this kind comes first. -/
def expressionUnless (depth : Nat) (kind : TokenKind) : Parse (Option Expr) := do
  if ← sees kind then pure none else return some (← expression depth)

/-- One or more parameters, after `count` others. -/
def parameterList : Nat → Nat → Parse (List Token)
  | 0, _ => exhausted
  | depth + 1, count => do
    if maxArguments ≤ count then noteAt (← peek) .tooManyParameters
    let parameter ← expect .identifier .parameterName
    match ← accept (.punct .comma) with
    | none => pure [parameter]
    | some _ => return parameter :: (← parameterList depth (count + 1))

/-- A variable declaration, from its name on. -/
def varDeclaration (depth : Nat) : Parse Stmt := do
  let name ← expect .identifier .variableName
  let initializer ← match ← accept (.punct .equal) with
    | some _ => some <$> expression depth
    | none => pure none
  let _ ← expect (.punct .semicolon) .variableEnd
  pure (.var name initializer)

def expressionStatement (depth : Nat) : Parse Stmt := do
  let value ← expression depth
  let _ ← expect (.punct .semicolon) .expressionEnd
  pure (.expression value)

/-- A print statement, from its value on. -/
def printStatement (depth : Nat) (keyword : Token) : Parse Stmt := do
  let value ← expression depth
  let _ ← expect (.punct .semicolon) .printEnd
  pure (.print keyword value)

/-- A return statement, from its value on. -/
def returnStatement (depth : Nat) (keyword : Token) : Parse Stmt := do
  let value ← expressionUnless depth (.punct .semicolon)
  let _ ← expect (.punct .semicolon) .returnEnd
  pure (.ret keyword value)

/-- The first clause of a `for` statement. -/
def forInitializer (depth : Nat) : Parse (Option Stmt) := do
  match ← accept (.punct .semicolon) with
  | some _ => pure none
  | none =>
    match ← accept (.keyword .varWord) with
    | some _ => some <$> varDeclaration depth
    | none => some <$> expressionStatement depth

/-- A `for` statement as a block around a loop: the initializer runs first and the increment after
each round of the body; a missing condition is true. -/
def forLoop (initializer : Option Stmt) (condition increment : Option Expr) (body : Stmt) : Stmt :=
  let round := match increment with
    | some increment => .block [body, .expression increment]
    | none => body
  let loop := .loop (condition.getD (.literal .true)) round
  match initializer with
  | some initializer => .block [initializer, loop]
  | none => loop

/-! ## Declarations and statements -/

mutual

/-- A declaration; a syntax error in it is noted and the rest of it dropped. -/
def declaration : Nat → Parse (Option Stmt)
  | 0 => exhausted
  | depth + 1 => recover (declarationOrFail depth)

def declarationOrFail : Nat → Parse Stmt
  | 0 => exhausted
  | depth + 1 => do
    match ← accept (.keyword .classWord) with
    | some _ => classDeclaration depth
    | none =>
      match ← accept (.keyword .funWord) with
      | some _ => .function <$> function depth .function
      | none =>
        match ← accept (.keyword .varWord) with
        | some _ => varDeclaration depth
        | none => statement depth

/-- A class declaration, from its name on. -/
def classDeclaration : Nat → Parse Stmt
  | 0 => exhausted
  | depth + 1 => do
    let name ← expect .identifier .className
    let superclass ← match ← accept (.punct .less) with
      | some _ =>
        let superclass ← expect .identifier .superclassName
        pure (some (Expr.variable superclass none))
      | none => pure none
    let _ ← expect (.punct .leftBrace) .classBodyStart
    let methods ← methodList depth
    let _ ← expect (.punct .rightBrace) .classBodyEnd
    pure (.classDecl name superclass methods)

/-- The methods up to the end of a class body. -/
def methodList : Nat → Parse (List FunctionDecl)
  | 0 => exhausted
  | depth + 1 => do
    match ← peek with
    | none => pure []
    | some t =>
      if t.kind = .punct .rightBrace then pure []
      else
        let method ← function depth .method
        return method :: (← methodList depth)

/-- A function, from its name on. -/
def function : Nat → FunctionRole → Parse FunctionDecl
  | 0, _ => exhausted
  | depth + 1, role => do
    let name ← expect .identifier (.functionName role)
    let _ ← expect (.punct .leftParen) (.parametersStart role)
    let params ← if ← sees (.punct .rightParen) then pure [] else parameterList depth 0
    let _ ← expect (.punct .rightParen) .parametersEnd
    let _ ← expect (.punct .leftBrace) (.functionBodyStart role)
    let body ← block depth
    pure ⟨name, params, body⟩

def statement : Nat → Parse Stmt
  | 0 => exhausted
  | depth + 1 => do
    match ← peek with
    | none => expressionStatement depth
    | some t =>
      match t.kind with
      | .keyword .forWord =>
        advance
        forStatement depth
      | .keyword .ifWord =>
        advance
        ifStatement depth
      | .keyword .whileWord =>
        advance
        whileStatement depth
      | .keyword .returnWord =>
        advance
        returnStatement depth t
      | .punct .leftBrace =>
        advance
        .block <$> block depth
      | .keyword .printWord =>
        advance
        printStatement depth t
      | _ => expressionStatement depth

/-- A `for` statement, from its clauses on. -/
def forStatement : Nat → Parse Stmt
  | 0 => exhausted
  | depth + 1 => do
    let _ ← expect (.punct .leftParen) .forStart
    let initializer ← forInitializer depth
    let condition ← expressionUnless depth (.punct .semicolon)
    let _ ← expect (.punct .semicolon) .loopConditionEnd
    let increment ← expressionUnless depth (.punct .rightParen)
    let _ ← expect (.punct .rightParen) .forClausesEnd
    let body ← statement depth
    pure (forLoop initializer condition increment body)

/-- An `if` statement, from its condition on; an `else` belongs to the nearest `if`. -/
def ifStatement : Nat → Parse Stmt
  | 0 => exhausted
  | depth + 1 => do
    let _ ← expect (.punct .leftParen) .ifStart
    let condition ← expression depth
    let _ ← expect (.punct .rightParen) .ifConditionEnd
    let thenBranch ← statement depth
    match ← accept (.keyword .elseWord) with
    | some _ => return .conditional condition thenBranch (some (← statement depth))
    | none => pure (.conditional condition thenBranch none)

/-- A `while` statement, from its condition on. -/
def whileStatement : Nat → Parse Stmt
  | 0 => exhausted
  | depth + 1 => do
    let _ ← expect (.punct .leftParen) .whileStart
    let condition ← expression depth
    let _ ← expect (.punct .rightParen) .conditionEnd
    return .loop condition (← statement depth)

/-- The declarations of a block and its closing brace. -/
def block : Nat → Parse (List Stmt)
  | 0 => exhausted
  | depth + 1 => do
    match ← peek with
    | none => fail .blockEnd
    | some t =>
      if t.kind = .punct .rightBrace then
        advance
        pure []
      else
        let first ← declaration depth
        let others ← block depth
        pure (first.toList ++ others)

end

/-- Declarations up to the end. -/
def program : Nat → Parse (List Stmt)
  | 0 => exhausted
  | depth + 1 => do
    match ← peek with
    | none => pure []
    | some _ =>
      let first ← declaration depth
      let others ← program depth
      pure (first.toList ++ others)

/-- An expression and nothing after it. -/
def wholeExpression (depth : Nat) : Parse Expr := do
  let value ← expression depth
  match ← peek with
  | none => pure value
  | some _ => fail .endOfExpression

/-! ## Whole inputs -/

/-- How many rules may nest before a token is taken. -/
def rulesPerToken : Nat := 32

/-- A depth that reading these tokens does not exhaust. -/
def depthFor (ts : List Token) : Nat :=
  rulesPerToken * (ts.length + 1)

/-- The tokens before the first end token. -/
def beforeEnd (ts : List Token) : List Token :=
  ts.takeWhile fun t => t.kind ≠ .eof

/-- The token at which errors at the end are reported: the first end token, or one on the line of
the last token. -/
def endToken (ts : List Token) : Token :=
  match ts.find? fun t => t.kind = .eof with
  | some t => t
  | none => ⟨.eof, "", (ts.getLast?.map (·.line)).getD 1⟩

/-- The error that a fault is, if the input ends with this token. -/
def Fault.error (atEnd : Token) (f : Fault) : CompileError :=
  .syntactic (f.token.getD atEnd) f.cause

/-- Reads a whole input: the value, or every syntax error in it. -/
def readAll {α : Type} (p : Nat → Parse α) (ts : List Token) : Except (List CompileError) α :=
  let before := beforeEnd ts
  let report (faults : List Fault) := faults.map (Fault.error (endToken ts))
  match p (depthFor before) before with
  | .parsed value _ [] => .ok value
  | .parsed _ _ faults => .error (report faults)
  | .failed cause rest faults => .error (report (faults ++ [⟨rest.head?, cause⟩]))
  | .exhausted => .error []

/-- The statements of a program, or every syntax error in it. -/
def parse (ts : List Token) : Except (List CompileError) (List Stmt) :=
  readAll program ts

/-- A single expression, or every syntax error in it. -/
def parseExpression (ts : List Token) : Except (List CompileError) Expr :=
  readAll wholeExpression ts

end Lox.Grammar
