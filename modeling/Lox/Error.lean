import Lox.Token

/-!
# Errors

Each error is a cause and a place; the wording of a cause is one function. Compile errors come from
reading tokens, from the grammar or from scoping, and a program may have many; execution stops at
its first runtime error.
-/

set_option autoImplicit false

namespace Lox

/-! ## Causes -/

/-- Why characters form no token. -/
inductive LexCause where
  | unexpectedCharacter (c : Char)
  | unterminatedString
  deriving DecidableEq, Repr

/-- Whether a function declaration stands on its own or in a class body. -/
inductive FunctionRole where
  | function
  | method
  deriving DecidableEq, Repr

/-- Why tokens form no program. All but the last three name what the grammar asks for. -/
inductive SyntaxCause where
  | className
  | superclassName
  | classBodyStart
  | classBodyEnd
  | functionName (role : FunctionRole)
  | parametersStart (role : FunctionRole)
  | parameterName
  | parametersEnd
  | functionBodyStart (role : FunctionRole)
  | variableName
  | variableEnd
  | forStart
  | loopConditionEnd
  | forClausesEnd
  | printEnd
  | expressionEnd
  | ifStart
  | ifConditionEnd
  | whileStart
  | conditionEnd
  | returnEnd
  | blockEnd
  | propertyName
  | argumentsEnd
  | expression
  | superDot
  | superMethodName
  | groupingEnd
  | endOfExpression
  | tooManyParameters
  | tooManyArguments
  | invalidAssignmentTarget
  deriving DecidableEq, Repr

/-- Why a program is not well scoped. -/
inductive ScopeCause where
  | alreadyDeclared
  | readInOwnInitializer
  | returnAtTopLevel
  | inheritsFromItself
  | thisOutsideClass
  | superOutsideClass
  | superWithoutSuperclass
  deriving DecidableEq, Repr

/-- Why execution stopped. -/
inductive RuntimeCause where
  | operandNotNumber
  | operandsNotNumbers
  | operandsNotAddable
  | invalidUnaryOperator
  | invalidBinaryOperator
  | notAnInstance
  | noFields
  | notCallable
  | wrongArgumentCount (expected got : Nat)
  | undefinedProperty (name : String)
  | undefinedVariable (name : String)
  | noScope (distance : Nat) (name : String)
  | superclassNotClass
  | superUnresolved
  | superclassUnbound
  | thisUnbound
  | returnAtTopLevel
  | outputFailed (reason : String)
  deriving DecidableEq, Repr

/-! ## Wording -/

def LexCause.message : LexCause → String
  | .unexpectedCharacter c => "Unexpected character: " ++ String.singleton c
  | .unterminatedString => "Unterminated string."

def FunctionRole.noun : FunctionRole → String
  | .function => "function"
  | .method => "method"

def SyntaxCause.message : SyntaxCause → String
  | .className => "Expected class name"
  | .superclassName => "Expected superclass name"
  | .classBodyStart => "Expected '\x7b' before class body"
  | .classBodyEnd => "Expected '\x7d' after class body"
  | .functionName role => "Expected " ++ role.noun ++ " name"
  | .parametersStart role => "Expected '(' after " ++ role.noun ++ " name"
  | .parameterName => "Expected parameter name"
  | .parametersEnd => "Expected ')' after parameters"
  | .functionBodyStart role => "Expected '\x7b' before " ++ role.noun ++ " body"
  | .variableName => "Expected variable name"
  | .variableEnd => "Expected ';' after variable declaration"
  | .forStart => "Expected '(' after 'for'"
  | .loopConditionEnd => "Expected ';' after loop condition"
  | .forClausesEnd => "Expected ')' after for clauses"
  | .printEnd => "Expected ';' after value"
  | .expressionEnd => "Expected ';' after expression"
  | .ifStart => "Expected '(' after 'if'"
  | .ifConditionEnd => "Expected ')' after if condition"
  | .whileStart => "Expected '(' after 'while'"
  | .conditionEnd => "Expected ')' after condition"
  | .returnEnd => "Expected ';' after return value"
  | .blockEnd => "Expected '\x7d' after block"
  | .propertyName => "Expected property name after '.'"
  | .argumentsEnd => "Expected ')' after arguments"
  | .expression => "Expected expression"
  | .superDot => "Expected '.' after 'super'"
  | .superMethodName => "Expected superclass method name"
  | .groupingEnd => "Expected ')' after expression"
  | .endOfExpression => "Expected end of expression"
  | .tooManyParameters => "Can't have more than 255 parameters"
  | .tooManyArguments => "Can't have more than 255 arguments"
  | .invalidAssignmentTarget => "Invalid assignment target"

def ScopeCause.message : ScopeCause → String
  | .alreadyDeclared => "Already a variable with this name in this scope."
  | .readInOwnInitializer => "Can't read local variable in its own initializer."
  | .returnAtTopLevel => "Can't return from top-level code."
  | .inheritsFromItself => "A class can't inherit from itself."
  | .thisOutsideClass => "Can't use 'this' outside of a class."
  | .superOutsideClass => "Can't use 'super' outside of a class."
  | .superWithoutSuperclass => "Can't use 'super' in a class with no superclass."

def RuntimeCause.message : RuntimeCause → String
  | .operandNotNumber => "Operand must be a number."
  | .operandsNotNumbers => "Operands must be numbers."
  | .operandsNotAddable => "Operands must be two numbers or two strings."
  | .invalidUnaryOperator => "Invalid unary operator."
  | .invalidBinaryOperator => "Invalid binary operator."
  | .notAnInstance => "Only instances have properties."
  | .noFields => "Only instances have fields."
  | .notCallable => "Can only call functions and classes."
  | .wrongArgumentCount expected got =>
    "Expected " ++ expected.repr ++ " arguments but got " ++ got.repr ++ "."
  | .undefinedProperty name => "Undefined property '" ++ name ++ "'."
  | .undefinedVariable name => "Undefined variable '" ++ name ++ "'."
  | .noScope distance name =>
    "No scope " ++ distance.repr ++ " level(s) out for variable '" ++ name ++ "'."
  | .superclassNotClass => "Superclass must be a class."
  | .superUnresolved => "Can't use 'super' here."
  | .superclassUnbound => "Superclass is not bound."
  | .thisUnbound => "'this' is not bound."
  | .returnAtTopLevel => "Can't return from top-level code."
  | .outputFailed reason => "Failed to write output: " ++ reason

/-! ## Errors with their place -/

/-- An error found before execution. -/
inductive CompileError where
  | lexical (line : Nat) (cause : LexCause)
  | syntactic (token : Token) (cause : SyntaxCause)
  | scoping (token : Token) (cause : ScopeCause)
  deriving DecidableEq, Repr

/-- Where an error at a token is. -/
def Token.place (t : Token) : String :=
  if t.kind = .eof then " at end" else " at '" ++ t.lexeme ++ "'"

/-- A compile error in full. -/
def CompileError.text : CompileError → String
  | .lexical line cause => "[line " ++ line.repr ++ "] Error: " ++ cause.message
  | .syntactic t cause => "[line " ++ t.line.repr ++ "] Error" ++ t.place ++ ": " ++ cause.message
  | .scoping t cause => "[line " ++ t.line.repr ++ "] Error" ++ t.place ++ ": " ++ cause.message

/-- An error that stopped execution, at a line of the source. -/
structure RuntimeError where
  line : Nat
  cause : RuntimeCause
  deriving DecidableEq, Repr

/-- The error with this cause at a token. -/
def Token.fault (t : Token) (cause : RuntimeCause) : RuntimeError :=
  ⟨t.line, cause⟩

/-- A runtime error in full. -/
def RuntimeError.text (e : RuntimeError) : String :=
  e.cause.message ++ "\n[line " ++ e.line.repr ++ "]"

end Lox
