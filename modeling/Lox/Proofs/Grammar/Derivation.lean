import Lox.Syntax.Grammar

/-!
# Derivations

The grammar as a relation between token lists and trees, with one rule for each alternative of the
EBNF. `Derives p ts e`: the tokens `ts` are the phrase `p` of an expression, and `e` is their tree.
`Forms c ts s`: the same for declarations and statements. `DerivesProgram ts ss` is the start rule.

Two rules are sharper than the EBNF. A statement carries whether it is *dangling*, that is, whether
it ends with an `if` that an `else` could still join, and the branch before an `else` must not be;
so an `else` belongs to the nearest `if`. Parameter and argument lists have at most 255 entries.
-/

set_option autoImplicit false

namespace Lox.Grammar

/-! ## Expressions -/

/-- The nonterminals of expressions. -/
inductive Phrase where
  | expression
  /-- Operands joined by the operators of one level. -/
  | level (l : Level)
  /-- What the operators of a level join. -/
  | operand (l : Level)
  | unary
  | call
  | primary
  /-- One or more arguments. -/
  | arguments
  deriving DecidableEq

/-- The trees that a phrase has. -/
abbrev Phrase.Tree : Phrase → Type
  | .arguments => List Expr
  | _ => Expr

/-- `Joins l k`: the level `l` has the operator `k`. -/
inductive Joins : Level → TokenKind → Prop
  | or : Joins .or (.keyword .orWord)
  | and : Joins .and (.keyword .andWord)
  | bangEqual : Joins .equality (.punct .bangEqual)
  | equalEqual : Joins .equality (.punct .equalEqual)
  | greater : Joins .comparison (.punct .greater)
  | greaterEqual : Joins .comparison (.punct .greaterEqual)
  | less : Joins .comparison (.punct .less)
  | lessEqual : Joins .comparison (.punct .lessEqual)
  | minus : Joins .term (.punct .minus)
  | plus : Joins .term (.punct .plus)
  | slash : Joins .factor (.punct .slash)
  | star : Joins .factor (.punct .star)

/-- `Derives p ts e`: the tokens `ts` are a phrase `p` with the tree `e`. -/
inductive Derives : (p : Phrase) → List Token → p.Tree → Prop
  -- expression → ( call "." )? IDENT "=" expression | logic_or
  | assign {name equal : Token} {ts : List Token} {value : Expr}
      (hn : name.kind = .identifier) (he : equal.kind = .punct .equal)
      (hv : Derives .expression ts value) :
      Derives .expression (name :: equal :: ts) (.assign name value none)
  | set {us ts : List Token} {dot name equal : Token} {object value : Expr}
      (ho : Derives .call us object) (hd : dot.kind = .punct .dot) (hn : name.kind = .identifier)
      (he : equal.kind = .punct .equal) (hv : Derives .expression ts value) :
      Derives .expression (us ++ dot :: name :: equal :: ts) (.set object name value)
  | disjunction {ts : List Token} {e : Expr} (h : Derives (.level .or) ts e) :
      Derives .expression ts e
  -- level → operand ( operator operand )*, grouped to the left
  | single {l : Level} {ts : List Token} {e : Expr} (h : Derives (.operand l) ts e) :
      Derives (.level l) ts e
  | logical {l : Level} {us ts : List Token} {op : Token} {left right : Expr}
      (hl : l = .or ∨ l = .and) (h₁ : Derives (.level l) us left) (hop : Joins l op.kind)
      (h₂ : Derives (.operand l) ts right) :
      Derives (.level l) (us ++ op :: ts) (.logical left op right)
  | binary {l : Level} {us ts : List Token} {op : Token} {left right : Expr}
      (hl : l ≠ .or ∧ l ≠ .and) (h₁ : Derives (.level l) us left) (hop : Joins l op.kind)
      (h₂ : Derives (.operand l) ts right) :
      Derives (.level l) (us ++ op :: ts) (.binary left op right)
  -- the operands, from the loosest level to the tightest
  | orOperand {ts : List Token} {e : Expr} (h : Derives (.level .and) ts e) :
      Derives (.operand .or) ts e
  | andOperand {ts : List Token} {e : Expr} (h : Derives (.level .equality) ts e) :
      Derives (.operand .and) ts e
  | equalityOperand {ts : List Token} {e : Expr} (h : Derives (.level .comparison) ts e) :
      Derives (.operand .equality) ts e
  | comparisonOperand {ts : List Token} {e : Expr} (h : Derives (.level .term) ts e) :
      Derives (.operand .comparison) ts e
  | termOperand {ts : List Token} {e : Expr} (h : Derives (.level .factor) ts e) :
      Derives (.operand .term) ts e
  | factorOperand {ts : List Token} {e : Expr} (h : Derives .unary ts e) :
      Derives (.operand .factor) ts e
  -- unary → ( "!" | "-" ) unary | call
  | unary {op : Token} {ts : List Token} {right : Expr}
      (hop : op.kind = .punct .bang ∨ op.kind = .punct .minus) (h : Derives .unary ts right) :
      Derives .unary (op :: ts) (.unary op right)
  | unaryCall {ts : List Token} {e : Expr} (h : Derives .call ts e) : Derives .unary ts e
  -- call → primary ( "(" arguments? ")" | "." IDENT )*
  | callPrimary {ts : List Token} {e : Expr} (h : Derives .primary ts e) : Derives .call ts e
  | callEmpty {ts : List Token} {callee : Expr} {lparen rparen : Token}
      (h : Derives .call ts callee) (hl : lparen.kind = .punct .leftParen)
      (hr : rparen.kind = .punct .rightParen) :
      Derives .call (ts ++ [lparen, rparen]) (.call callee rparen [])
  | call {us ts : List Token} {callee : Expr} {arguments : List Expr} {lparen rparen : Token}
      (h : Derives .call us callee) (hl : lparen.kind = .punct .leftParen)
      (ha : Derives .arguments ts arguments) (hn : arguments.length ≤ 255)
      (hr : rparen.kind = .punct .rightParen) :
      Derives .call (us ++ lparen :: (ts ++ [rparen])) (.call callee rparen arguments)
  | get {ts : List Token} {object : Expr} {dot name : Token}
      (h : Derives .call ts object) (hd : dot.kind = .punct .dot) (hn : name.kind = .identifier) :
      Derives .call (ts ++ [dot, name]) (.get object name)
  -- arguments → expression ( "," expression )*
  | argument {ts : List Token} {e : Expr} (h : Derives .expression ts e) : Derives .arguments ts [e]
  | argumentCons {us ts : List Token} {comma : Token} {e : Expr} {es : List Expr}
      (h : Derives .expression us e) (hc : comma.kind = .punct .comma)
      (hs : Derives .arguments ts es) : Derives .arguments (us ++ comma :: ts) (e :: es)
  -- primary
  | number {t : Token} {value : Float} (h : t.kind = .number value) :
      Derives .primary [t] (.literal (.number value))
  | string {t : Token} {contents : String} (h : t.kind = .string contents) :
      Derives .primary [t] (.literal (.string contents))
  | true {t : Token} (h : t.kind = .keyword .trueWord) : Derives .primary [t] (.literal .true)
  | false {t : Token} (h : t.kind = .keyword .falseWord) : Derives .primary [t] (.literal .false)
  | nil {t : Token} (h : t.kind = .keyword .nilWord) : Derives .primary [t] (.literal .nil)
  | this {t : Token} (h : t.kind = .keyword .thisWord) : Derives .primary [t] (.this t none)
  | identifier {t : Token} (h : t.kind = .identifier) : Derives .primary [t] (.variable t none)
  | grouping {lparen rparen : Token} {ts : List Token} {inner : Expr}
      (hl : lparen.kind = .punct .leftParen) (h : Derives .expression ts inner)
      (hr : rparen.kind = .punct .rightParen) :
      Derives .primary (lparen :: (ts ++ [rparen])) (.grouping inner)
  | super {keyword dot method : Token} (hk : keyword.kind = .keyword .superWord)
      (hd : dot.kind = .punct .dot) (hm : method.kind = .identifier) :
      Derives .primary [keyword, dot, method] (.super keyword method none)

/-- `expression?` -/
inductive DerivesOption : List Token → Option Expr → Prop
  | none : DerivesOption [] none
  | some {ts : List Token} {e : Expr} (h : Derives .expression ts e) : DerivesOption ts (some e)

/-! ## Parts of declarations -/

/-- parameters → IDENT ( "," IDENT )* -/
inductive Parameters : List Token → List Token → Prop
  | one {p : Token} (h : p.kind = .identifier) : Parameters [p] [p]
  | cons {p comma : Token} {ts ps : List Token} (h : p.kind = .identifier)
      (hc : comma.kind = .punct .comma) (hs : Parameters ts ps) :
      Parameters (p :: comma :: ts) (p :: ps)

/-- `parameters?`, with at most 255 of them -/
inductive ParameterClause : List Token → List Token → Prop
  | none : ParameterClause [] []
  | some {ts ps : List Token} (h : Parameters ts ps) (hn : ps.length ≤ 255) : ParameterClause ts ps

/-- `( "<" IDENT )?` -/
inductive SuperclassClause : List Token → Option Expr → Prop
  | none : SuperclassClause [] none
  | some {less name : Token} (hl : less.kind = .punct .less) (hn : name.kind = .identifier) :
      SuperclassClause [less, name] (some (.variable name none))

/-- varDecl → "var" IDENT ( "=" expression )? ";" -/
inductive VarDeclaration : List Token → Stmt → Prop
  | bare {word name semicolon : Token} (hw : word.kind = .keyword .varWord)
      (hn : name.kind = .identifier) (hs : semicolon.kind = .punct .semicolon) :
      VarDeclaration [word, name, semicolon] (.var name none)
  | initialized {word name equal semicolon : Token} {ts : List Token} {value : Expr}
      (hw : word.kind = .keyword .varWord) (hn : name.kind = .identifier)
      (he : equal.kind = .punct .equal) (hv : Derives .expression ts value)
      (hs : semicolon.kind = .punct .semicolon) :
      VarDeclaration (word :: name :: equal :: (ts ++ [semicolon])) (.var name (some value))

/-- exprStmt → expression ";" -/
inductive ExpressionStatement : List Token → Stmt → Prop
  | mk {ts : List Token} {value : Expr} {semicolon : Token} (hv : Derives .expression ts value)
      (hs : semicolon.kind = .punct .semicolon) :
      ExpressionStatement (ts ++ [semicolon]) (.expression value)

/-- `varDecl | exprStmt | ";"`, the first clause of a `for` -/
inductive ForInitializer : List Token → Option Stmt → Prop
  | none {semicolon : Token} (hs : semicolon.kind = .punct .semicolon) :
      ForInitializer [semicolon] none
  | var {ts : List Token} {s : Stmt} (h : VarDeclaration ts s) : ForInitializer ts (some s)
  | expression {ts : List Token} {s : Stmt} (h : ExpressionStatement ts s) :
      ForInitializer ts (some s)

/-- A loop's body, followed by the increment when there is one. -/
def withIncrement (body : Stmt) : Option Expr → Stmt
  | none => body
  | some increment => .block [body, .expression increment]

/-- A loop, after the initializer when there is one. -/
def withInitializer (loop : Stmt) : Option Stmt → Stmt
  | none => loop
  | some initializer => .block [initializer, loop]

/-! ## Declarations and statements -/

/-- The nonterminals of declarations and statements. -/
inductive Clause where
  | declaration
  /-- A statement; `dangling` says whether an `else` after it would belong to it. -/
  | statement (dangling : Bool)
  | function
  | block
  /-- Any number of declarations. -/
  | declarations
  /-- Any number of methods. -/
  | methods
  deriving DecidableEq

/-- The trees that a clause has. -/
abbrev Clause.Tree : Clause → Type
  | .declaration | .statement _ => Stmt
  | .function => FunctionDecl
  | .block | .declarations => List Stmt
  | .methods => List FunctionDecl

/-- `Forms c ts s`: the tokens `ts` are a clause `c` with the tree `s`. -/
inductive Forms : (c : Clause) → List Token → c.Tree → Prop
  -- declaration → classDecl | funDecl | varDecl | statement
  | classDecl {word name lbrace rbrace : Token} {us ts : List Token} {superclass : Option Expr}
      {methods : List FunctionDecl} (hw : word.kind = .keyword .classWord)
      (hn : name.kind = .identifier) (hs : SuperclassClause us superclass)
      (hl : lbrace.kind = .punct .leftBrace) (hm : Forms .methods ts methods)
      (hr : rbrace.kind = .punct .rightBrace) :
      Forms .declaration (word :: name :: (us ++ lbrace :: (ts ++ [rbrace])))
        (.classDecl name superclass methods)
  | funDecl {word : Token} {ts : List Token} {decl : FunctionDecl}
      (hw : word.kind = .keyword .funWord) (h : Forms .function ts decl) :
      Forms .declaration (word :: ts) (.function decl)
  | varDecl {ts : List Token} {s : Stmt} (h : VarDeclaration ts s) : Forms .declaration ts s
  | statement {dangling : Bool} {ts : List Token} {s : Stmt}
      (h : Forms (.statement dangling) ts s) : Forms .declaration ts s
  -- function → IDENT "(" parameters? ")" block
  | function {name lparen rparen : Token} {us ts params : List Token} {body : List Stmt}
      (hn : name.kind = .identifier) (hl : lparen.kind = .punct .leftParen)
      (hp : ParameterClause us params) (hr : rparen.kind = .punct .rightParen)
      (hb : Forms .block ts body) :
      Forms .function (name :: lparen :: (us ++ rparen :: ts)) ⟨name, params, body⟩
  -- block → "{" declaration* "}"
  | block {lbrace rbrace : Token} {ts : List Token} {body : List Stmt}
      (hl : lbrace.kind = .punct .leftBrace) (h : Forms .declarations ts body)
      (hr : rbrace.kind = .punct .rightBrace) : Forms .block (lbrace :: (ts ++ [rbrace])) body
  | declarationsNil : Forms .declarations [] []
  | declarationsCons {us ts : List Token} {s : Stmt} {ss : List Stmt}
      (h : Forms .declaration us s) (hs : Forms .declarations ts ss) :
      Forms .declarations (us ++ ts) (s :: ss)
  | methodsNil : Forms .methods [] []
  | methodsCons {us ts : List Token} {m : FunctionDecl} {ms : List FunctionDecl}
      (h : Forms .function us m) (hs : Forms .methods ts ms) : Forms .methods (us ++ ts) (m :: ms)
  -- statement → exprStmt | printStmt | returnStmt | block | whileStmt | ifStmt | forStmt
  | expression {ts : List Token} {s : Stmt} (h : ExpressionStatement ts s) :
      Forms (.statement false) ts s
  | print {word semicolon : Token} {ts : List Token} {value : Expr}
      (hw : word.kind = .keyword .printWord) (hv : Derives .expression ts value)
      (hs : semicolon.kind = .punct .semicolon) :
      Forms (.statement false) (word :: (ts ++ [semicolon])) (.print word value)
  | ret {word semicolon : Token} {ts : List Token} {value : Option Expr}
      (hw : word.kind = .keyword .returnWord) (hv : DerivesOption ts value)
      (hs : semicolon.kind = .punct .semicolon) :
      Forms (.statement false) (word :: (ts ++ [semicolon])) (.ret word value)
  | blockStatement {ts : List Token} {body : List Stmt} (h : Forms .block ts body) :
      Forms (.statement false) ts (.block body)
  | loop {word lparen rparen : Token} {us ts : List Token} {condition : Expr} {body : Stmt}
      {dangling : Bool} (hw : word.kind = .keyword .whileWord)
      (hl : lparen.kind = .punct .leftParen) (hc : Derives .expression us condition)
      (hr : rparen.kind = .punct .rightParen) (hb : Forms (.statement dangling) ts body) :
      Forms (.statement dangling) (word :: lparen :: (us ++ rparen :: ts)) (.loop condition body)
  | ifThen {word lparen rparen : Token} {us ts : List Token} {condition : Expr} {thenBranch : Stmt}
      {dangling : Bool} (hw : word.kind = .keyword .ifWord) (hl : lparen.kind = .punct .leftParen)
      (hc : Derives .expression us condition) (hr : rparen.kind = .punct .rightParen)
      (ht : Forms (.statement dangling) ts thenBranch) :
      Forms (.statement true) (word :: lparen :: (us ++ rparen :: ts))
        (.conditional condition thenBranch none)
  | ifElse {word lparen rparen elseWord : Token} {us ts vs : List Token} {condition : Expr}
      {thenBranch elseBranch : Stmt} {dangling : Bool} (hw : word.kind = .keyword .ifWord)
      (hl : lparen.kind = .punct .leftParen) (hc : Derives .expression us condition)
      (hr : rparen.kind = .punct .rightParen) (ht : Forms (.statement false) ts thenBranch)
      (he : elseWord.kind = .keyword .elseWord) (hs : Forms (.statement dangling) vs elseBranch) :
      Forms (.statement dangling) (word :: lparen :: (us ++ rparen :: (ts ++ elseWord :: vs)))
        (.conditional condition thenBranch (some elseBranch))
  | forLoop {word lparen semicolon rparen : Token} {us vs ws ts : List Token}
      {initializer : Option Stmt} {condition increment : Option Expr} {body : Stmt}
      {dangling : Bool} (hw : word.kind = .keyword .forWord)
      (hl : lparen.kind = .punct .leftParen) (hi : ForInitializer us initializer)
      (hc : DerivesOption vs condition) (hs : semicolon.kind = .punct .semicolon)
      (hn : DerivesOption ws increment) (hr : rparen.kind = .punct .rightParen)
      (hb : Forms (.statement dangling) ts body) :
      Forms (.statement dangling)
        (word :: lparen :: (us ++ (vs ++ semicolon :: (ws ++ rparen :: ts))))
        (withInitializer (.loop (condition.getD (.literal .true)) (withIncrement body increment))
          initializer)

/-- program → declaration* EOF; `ts` are the tokens before the end. -/
def DerivesProgram (ts : List Token) (program : List Stmt) : Prop :=
  Forms .declarations ts program

end Lox.Grammar
