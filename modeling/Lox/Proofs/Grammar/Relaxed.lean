import Lox.Proofs.Grammar.Derivation

/-!
# The relaxed grammar

The EBNF as a relation on token lists alone, relaxed in two places: any `logic_or` may stand to the
left of `=`, and parameter and argument lists have no cap. These are the faults that the readers
note without stopping, so what stops a reader is a token that the relaxed grammar has no place for.

`Relaxed.Derives p ts`: the tokens `ts` are the phrase `p` of an expression. `Relaxed.Forms c ts`:
the same for declarations and statements. Nothing here says to which `if` an `else` belongs.
-/

set_option autoImplicit false

namespace Lox

/-- The faults that are noted without stopping. -/
def SyntaxCause.isNote : SyntaxCause → Bool
  | .invalidAssignmentTarget | .tooManyParameters | .tooManyArguments => true
  | _ => false

def CompileError.isNote : CompileError → Bool
  | .syntactic _ cause => cause.isNote
  | _ => false

end Lox

namespace Lox.Grammar.Relaxed

/-! ## Expressions -/

/-- The nonterminals of expressions. -/
inductive Phrase where
  | expression
  /-- Operands joined by the operators of one level. -/
  | level (l : Level)
  /-- `( operator operand )*`, on one level. -/
  | operations (l : Level)
  /-- What the operators of a level join. -/
  | operand (l : Level)
  | unary
  | call
  /-- `( "(" arguments? ")" | "." IDENT )*` -/
  | suffixes
  | primary
  /-- One or more arguments. -/
  | arguments
  deriving DecidableEq

/-- The tokens that are an expression on their own. -/
def IsLeaf : TokenKind → Prop
  | .number _ | .string _ | .identifier => True
  | .keyword k => k = .trueWord ∨ k = .falseWord ∨ k = .nilWord ∨ k = .thisWord
  | .punct _ | .eof => False

/-- `Derives p ts`: the tokens `ts` are a phrase `p`. -/
inductive Derives : Phrase → List Token → Prop
  -- expression → logic_or ( "=" expression )?
  | value {ts : List Token} (h : Derives (.level .or) ts) : Derives .expression ts
  | assignment {us ts : List Token} {equal : Token} (h₁ : Derives (.level .or) us)
      (he : equal.kind = .punct .equal) (h₂ : Derives .expression ts) :
      Derives .expression (us ++ equal :: ts)
  -- level → operand ( operator operand )*
  | level {l : Level} {us ts : List Token} (h : Derives (.operand l) us)
      (hs : Derives (.operations l) ts) : Derives (.level l) (us ++ ts)
  | operationsNil {l : Level} : Derives (.operations l) []
  | operationsCons {l : Level} {op : Token} {us ts : List Token} (hop : Joins l op.kind)
      (h : Derives (.operand l) us) (hs : Derives (.operations l) ts) :
      Derives (.operations l) (op :: (us ++ ts))
  -- the operands, from the loosest level to the tightest
  | tighter {l l' : Level} {ts : List Token} (hl : l.tighter = some l')
      (h : Derives (.level l') ts) : Derives (.operand l) ts
  | tightest {l : Level} {ts : List Token} (hl : l.tighter = none) (h : Derives .unary ts) :
      Derives (.operand l) ts
  -- unary → ( "!" | "-" ) unary | call
  | unary {op : Token} {ts : List Token}
      (hop : op.kind = .punct .bang ∨ op.kind = .punct .minus) (h : Derives .unary ts) :
      Derives .unary (op :: ts)
  | unaryCall {ts : List Token} (h : Derives .call ts) : Derives .unary ts
  -- call → primary ( "(" arguments? ")" | "." IDENT )*
  | call {us ts : List Token} (h : Derives .primary us) (hs : Derives .suffixes ts) :
      Derives .call (us ++ ts)
  | suffixesNil : Derives .suffixes []
  | callEmpty {lparen rparen : Token} {ts : List Token} (hl : lparen.kind = .punct .leftParen)
      (hr : rparen.kind = .punct .rightParen) (hs : Derives .suffixes ts) :
      Derives .suffixes (lparen :: rparen :: ts)
  | callWith {lparen rparen : Token} {us ts : List Token} (hl : lparen.kind = .punct .leftParen)
      (ha : Derives .arguments us) (hr : rparen.kind = .punct .rightParen)
      (hs : Derives .suffixes ts) : Derives .suffixes (lparen :: (us ++ rparen :: ts))
  | get {dot name : Token} {ts : List Token} (hd : dot.kind = .punct .dot)
      (hn : name.kind = .identifier) (hs : Derives .suffixes ts) :
      Derives .suffixes (dot :: name :: ts)
  -- arguments → expression ( "," expression )*
  | argument {ts : List Token} (h : Derives .expression ts) : Derives .arguments ts
  | argumentsCons {us ts : List Token} {comma : Token} (h : Derives .expression us)
      (hc : comma.kind = .punct .comma) (hs : Derives .arguments ts) :
      Derives .arguments (us ++ comma :: ts)
  -- primary → NUMBER | … | IDENT | "(" expression ")" | "super" "." IDENT
  | leaf {t : Token} (h : IsLeaf t.kind) : Derives .primary [t]
  | grouping {lparen rparen : Token} {ts : List Token} (hl : lparen.kind = .punct .leftParen)
      (h : Derives .expression ts) (hr : rparen.kind = .punct .rightParen) :
      Derives .primary (lparen :: (ts ++ [rparen]))
  | super {keyword dot method : Token} (hk : keyword.kind = .keyword .superWord)
      (hd : dot.kind = .punct .dot) (hm : method.kind = .identifier) :
      Derives .primary [keyword, dot, method]

/-- `expression?` -/
inductive DerivesOption : List Token → Prop
  | none : DerivesOption []
  | some {ts : List Token} (h : Derives .expression ts) : DerivesOption ts

/-! ## Parts of declarations -/

/-- `parameters?` -/
inductive ParameterClause : List Token → Prop
  | none : ParameterClause []
  | some {ts ps : List Token} (h : Parameters ts ps) : ParameterClause ts

/-- varDecl → "var" IDENT ( "=" expression )? ";" -/
inductive VarDeclaration : List Token → Prop
  | bare {word name semicolon : Token} (hw : word.kind = .keyword .varWord)
      (hn : name.kind = .identifier) (hs : semicolon.kind = .punct .semicolon) :
      VarDeclaration [word, name, semicolon]
  | initialized {word name equal semicolon : Token} {ts : List Token}
      (hw : word.kind = .keyword .varWord) (hn : name.kind = .identifier)
      (he : equal.kind = .punct .equal) (hv : Derives .expression ts)
      (hs : semicolon.kind = .punct .semicolon) :
      VarDeclaration (word :: name :: equal :: (ts ++ [semicolon]))

/-- exprStmt → expression ";" -/
inductive ExpressionStatement : List Token → Prop
  | mk {ts : List Token} {semicolon : Token} (hv : Derives .expression ts)
      (hs : semicolon.kind = .punct .semicolon) : ExpressionStatement (ts ++ [semicolon])

/-- `varDecl | exprStmt | ";"`, the first clause of a `for` -/
inductive ForInitializer : List Token → Prop
  | none {semicolon : Token} (hs : semicolon.kind = .punct .semicolon) : ForInitializer [semicolon]
  | var {ts : List Token} (h : VarDeclaration ts) : ForInitializer ts
  | expression {ts : List Token} (h : ExpressionStatement ts) : ForInitializer ts

/-! ## Declarations and statements -/

/-- What stands before the body of a loop. -/
inductive LoopHead : List Token → Prop
  | whileHead {word lparen rparen : Token} {us : List Token} (hw : word.kind = .keyword .whileWord)
      (hl : lparen.kind = .punct .leftParen) (hc : Derives .expression us)
      (hr : rparen.kind = .punct .rightParen) : LoopHead (word :: lparen :: (us ++ [rparen]))
  | forHead {word lparen semicolon rparen : Token} {us vs ws : List Token}
      (hw : word.kind = .keyword .forWord) (hl : lparen.kind = .punct .leftParen)
      (hi : ForInitializer us) (hc : DerivesOption vs) (hs : semicolon.kind = .punct .semicolon)
      (hn : DerivesOption ws) (hr : rparen.kind = .punct .rightParen) :
      LoopHead (word :: lparen :: (us ++ (vs ++ semicolon :: (ws ++ [rparen]))))

/-- What stands before the branches of an `if`. -/
inductive IfHead : List Token → Prop
  | mk {word lparen rparen : Token} {us : List Token} (hw : word.kind = .keyword .ifWord)
      (hl : lparen.kind = .punct .leftParen) (hc : Derives .expression us)
      (hr : rparen.kind = .punct .rightParen) : IfHead (word :: lparen :: (us ++ [rparen]))

/-- The nonterminals of declarations and statements. -/
inductive Clause where
  | declaration
  | statement
  | function
  | block
  /-- Any number of declarations. -/
  | declarations
  /-- Any number of methods. -/
  | methods
  deriving DecidableEq

/-- `Forms c ts`: the tokens `ts` are a clause `c`. -/
inductive Forms : Clause → List Token → Prop
  -- declaration → classDecl | funDecl | varDecl | statement
  | classDecl {word name lbrace rbrace : Token} {us ts : List Token} {superclass : Option Expr}
      (hw : word.kind = .keyword .classWord) (hn : name.kind = .identifier)
      (hs : SuperclassClause us superclass) (hl : lbrace.kind = .punct .leftBrace)
      (hm : Forms .methods ts) (hr : rbrace.kind = .punct .rightBrace) :
      Forms .declaration (word :: name :: (us ++ lbrace :: (ts ++ [rbrace])))
  | funDecl {word : Token} {ts : List Token} (hw : word.kind = .keyword .funWord)
      (h : Forms .function ts) : Forms .declaration (word :: ts)
  | varDecl {ts : List Token} (h : VarDeclaration ts) : Forms .declaration ts
  | statement {ts : List Token} (h : Forms .statement ts) : Forms .declaration ts
  -- function → IDENT "(" parameters? ")" block
  | function {name lparen rparen : Token} {us ts : List Token} (hn : name.kind = .identifier)
      (hl : lparen.kind = .punct .leftParen) (hp : ParameterClause us)
      (hr : rparen.kind = .punct .rightParen) (hb : Forms .block ts) :
      Forms .function (name :: lparen :: (us ++ rparen :: ts))
  -- block → "{" declaration* "}"
  | block {lbrace rbrace : Token} {ts : List Token} (hl : lbrace.kind = .punct .leftBrace)
      (h : Forms .declarations ts) (hr : rbrace.kind = .punct .rightBrace) :
      Forms .block (lbrace :: (ts ++ [rbrace]))
  | declarationsNil : Forms .declarations []
  | declarationsCons {us ts : List Token} (h : Forms .declaration us)
      (hs : Forms .declarations ts) : Forms .declarations (us ++ ts)
  | methodsNil : Forms .methods []
  | methodsCons {us ts : List Token} (h : Forms .function us) (hs : Forms .methods ts) :
      Forms .methods (us ++ ts)
  -- statement → exprStmt | printStmt | returnStmt | block | whileStmt | forStmt | ifStmt
  | expression {ts : List Token} (h : ExpressionStatement ts) : Forms .statement ts
  | print {word semicolon : Token} {ts : List Token} (hw : word.kind = .keyword .printWord)
      (hv : Derives .expression ts) (hs : semicolon.kind = .punct .semicolon) :
      Forms .statement (word :: (ts ++ [semicolon]))
  | ret {word semicolon : Token} {ts : List Token} (hw : word.kind = .keyword .returnWord)
      (hv : DerivesOption ts) (hs : semicolon.kind = .punct .semicolon) :
      Forms .statement (word :: (ts ++ [semicolon]))
  | blockStatement {ts : List Token} (h : Forms .block ts) : Forms .statement ts
  | loop {us ts : List Token} (h : LoopHead us) (hb : Forms .statement ts) :
      Forms .statement (us ++ ts)
  | ifThen {us ts : List Token} (h : IfHead us) (ht : Forms .statement ts) :
      Forms .statement (us ++ ts)
  | ifElse {us ts vs : List Token} {elseWord : Token} (h : IfHead us) (ht : Forms .statement ts)
      (he : elseWord.kind = .keyword .elseWord) (hs : Forms .statement vs) :
      Forms .statement (us ++ (ts ++ elseWord :: vs))

/-- program → declaration* EOF; `ts` are the tokens before the end. -/
def IsProgram (ts : List Token) : Prop :=
  Forms .declarations ts

/-! ## Every rule has phrases -/

theorem Derives.level_of_unary {ts : List Token} (h : Derives .unary ts) (l : Level) :
    Derives (.level l) ts := by
  have single : ∀ {l : Level}, Derives (.operand l) ts → Derives (.level l) ts := by
    intro l h
    have := Derives.level h .operationsNil
    rwa [List.append_nil] at this
  have factor : Derives (.level .factor) ts := single (.tightest rfl h)
  have term : Derives (.level .term) ts := single (.tighter rfl factor)
  have comparison : Derives (.level .comparison) ts := single (.tighter rfl term)
  have equality : Derives (.level .equality) ts := single (.tighter rfl comparison)
  have and : Derives (.level .and) ts := single (.tighter rfl equality)
  cases l with
  | or => exact single (.tighter rfl and)
  | and => exact and
  | equality => exact equality
  | comparison => exact comparison
  | term => exact term
  | factor => exact factor

/-- A token of a kind. -/
def sample (kind : TokenKind) : Token :=
  ⟨kind, "", 1⟩

theorem Derives.inhabited (p : Phrase) : ∃ ts, Derives p ts := by
  have primary : Derives .primary [sample .identifier] := .leaf trivial
  have call : Derives .call [sample .identifier] := .call primary .suffixesNil
  have expression : Derives .expression [sample .identifier] :=
    .value (call.unaryCall.level_of_unary .or)
  cases p with
  | expression => exact ⟨_, expression⟩
  | level l => exact ⟨_, call.unaryCall.level_of_unary l⟩
  | operations => exact ⟨[], .operationsNil⟩
  | operand l =>
    cases hl : l.tighter with
    | some l' => exact ⟨_, .tighter hl (call.unaryCall.level_of_unary l')⟩
    | none => exact ⟨_, .tightest hl call.unaryCall⟩
  | unary => exact ⟨_, call.unaryCall⟩
  | call => exact ⟨_, call⟩
  | suffixes => exact ⟨[], .suffixesNil⟩
  | primary => exact ⟨_, primary⟩
  | arguments => exact ⟨_, .argument expression⟩

theorem exists_whileHead {word : Token} (hw : word.kind = .keyword .whileWord) :
    ∃ us, LoopHead (word :: us) := by
  obtain ⟨condition, hc⟩ := Derives.inhabited .expression
  exact ⟨sample (.punct .leftParen) :: (condition ++ [sample (.punct .rightParen)]),
    .whileHead hw rfl hc rfl⟩

theorem exists_forHead {word : Token} (hw : word.kind = .keyword .forWord) :
    ∃ us, LoopHead (word :: us) :=
  ⟨sample (.punct .leftParen) :: ([sample (.punct .semicolon)] ++ ([] ++
    sample (.punct .semicolon) :: ([] ++ [sample (.punct .rightParen)]))),
    .forHead hw rfl (.none rfl) .none rfl .none rfl⟩

theorem exists_ifHead {word : Token} (hw : word.kind = .keyword .ifWord) :
    ∃ us, IfHead (word :: us) := by
  obtain ⟨condition, hc⟩ := Derives.inhabited .expression
  exact ⟨sample (.punct .leftParen) :: (condition ++ [sample (.punct .rightParen)]),
    .mk hw rfl hc rfl⟩

theorem Forms.inhabited (c : Clause) : ∃ ts, Forms c ts := by
  have block : Forms .block (sample (.punct .leftBrace) :: ([] ++ [sample (.punct .rightBrace)])) :=
    .block rfl .declarationsNil rfl
  cases c with
  | declaration => exact ⟨_, .statement (.blockStatement block)⟩
  | statement => exact ⟨_, .blockStatement block⟩
  | function =>
    exact ⟨sample .identifier :: sample (.punct .leftParen) ::
      ([] ++ sample (.punct .rightParen) :: _), .function rfl rfl .none rfl block⟩
  | block => exact ⟨_, block⟩
  | declarations => exact ⟨[], .declarationsNil⟩
  | methods => exact ⟨[], .methodsNil⟩

end Lox.Grammar.Relaxed
