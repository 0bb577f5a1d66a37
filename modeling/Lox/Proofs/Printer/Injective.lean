import Lox.Proofs.Grammar.Complete
import Lox.Proofs.Printer.Reading
import Lox.Proofs.Printer.Tree

/-!
# The text of a program determines it

A program without string literals is read back from its text, up to lines (`Forms.reads`). So two
programs are written in the same way, statement by statement, only if they are the same
(`parsed_eq_of_text_eq`). The induction is on the derivations: a tree by itself may have any tokens
as its names and operators, and need not be read back.
-/

set_option autoImplicit false

namespace Lox

open Form
open Lexer (Lexeme)

/-- A token that is read back: it is a lexeme, no string, and one of these numbers if it is any. -/
structure Token.Plain (numbers : List Float) (t : Token) : Prop where
  lexeme : Lexeme (.token t.kind) t.lexeme.toList
  string : ∀ contents, t.kind ≠ .string contents
  number : ∀ x, t.kind = .number x → x ∈ numbers

section

variable (numbers : List Float)

/-- The expression is read back from its form, up to lines. -/
structure Expr.Reads (e : Expr) : Prop where
  proper : e.form.Proper
  read : expr numbers e.form = e.relabel fun _ => 0

/-- The expressions are read back from their forms. -/
structure Expr.AllRead (es : List Expr) : Prop where
  proper : AllProper (Expr.forms es)
  read : exprs numbers (Expr.forms es) = Expr.relabelAll (fun _ => 0) es

/-- The statement is read back from its form, up to lines. -/
structure Stmt.Reads (s : Stmt) : Prop where
  proper : s.form.Proper
  read : stmt numbers s.form = s.relabel fun _ => 0

/-- The function is read back from its form, up to lines. -/
structure FunctionDecl.Reads (f : FunctionDecl) : Prop where
  proper : f.form.Proper
  read : stmt numbers f.form = .function (f.relabel fun _ => 0)

/-- The statements are read back from their forms. -/
structure Stmt.AllRead (ss : List Stmt) : Prop where
  proper : AllProper (Stmt.forms ss)
  read : stmts numbers (Stmt.forms ss) = Stmt.relabelAll (fun _ => 0) ss

/-- The functions are read back from their forms. -/
structure FunctionDecl.AllRead (fs : List FunctionDecl) : Prop where
  proper : AllProper (FunctionDecl.forms fs)
  read : stmts numbers (FunctionDecl.forms fs)
    = (FunctionDecl.relabelAll (fun _ => 0) fs).map .function

end

variable {numbers : List Float}

theorem Stmt.AllRead.nil : Stmt.AllRead numbers [] :=
  ⟨trivial, rfl⟩

theorem Stmt.AllRead.cons {s : Stmt} {ss : List Stmt} (h : s.Reads numbers)
    (hs : Stmt.AllRead numbers ss) : Stmt.AllRead numbers (s :: ss) := by
  refine ⟨⟨h.proper, hs.proper⟩, ?_⟩
  show stmt numbers s.form :: stmts numbers (Stmt.forms ss) = _
  rw [h.read, hs.read]
  rfl

theorem Expr.Reads.statement {e : Expr} (h : e.Reads numbers) :
    (Stmt.expression e).Reads numbers := by
  refine ⟨⟨isWord_punct (p := .semicolon) (by decide), h.proper, trivial⟩, ?_⟩
  show Stmt.expression (expr numbers e.form) = _
  rw [h.read]
  rfl

theorem Stmt.AllRead.block {ss : List Stmt} (h : Stmt.AllRead numbers ss) :
    (Stmt.block ss).Reads numbers := by
  refine ⟨⟨by simp [IsWord, isWordChar], h.proper⟩, ?_⟩
  show Stmt.block (stmts numbers (Stmt.forms ss)) = _
  rw [h.read]
  rfl

theorem Expr.Reads.loop {condition : Expr} {body : Stmt} (hc : condition.Reads numbers)
    (hb : body.Reads numbers) : (Stmt.loop condition body).Reads numbers := by
  refine ⟨⟨isWord_keyword .whileWord, hc.proper, hb.proper, trivial⟩, ?_⟩
  show Stmt.loop (expr numbers condition.form) (stmt numbers body.form) = _
  rw [hc.read, hb.read]
  rfl

namespace Grammar

/-- All these tokens are read back. -/
def AllPlain (numbers : List Float) (ts : List Token) : Prop :=
  ∀ t ∈ ts, t.Plain numbers

variable {ts : List Token}

@[simp] theorem allPlain_cons {t : Token} :
    AllPlain numbers (t :: ts) ↔ t.Plain numbers ∧ AllPlain numbers ts := by
  simp [AllPlain]

@[simp] theorem allPlain_append {us : List Token} :
    AllPlain numbers (us ++ ts) ↔ AllPlain numbers us ∧ AllPlain numbers ts := by
  simp [AllPlain, or_imp, forall_and]

/-! ## Expressions -/

/-- The tree of a phrase is read back. -/
def Phrase.Reads (numbers : List Float) : (p : Phrase) → p.Tree → Prop
  | .arguments, es => Expr.AllRead numbers es
  | .expression, e | .level _, e | .operand _, e | .unary, e | .call, e | .primary, e =>
    e.Reads numbers

/-- An operator between two operands that are both evaluated. -/
theorem compound_binary {l : Level} {op : Token} (hl : l ≠ .or ∧ l ≠ .and)
    (hop : Joins l op.kind) (h : Lexeme (.token op.kind) op.lexeme.toList) (left right : Expr) :
    IsWord op.lexeme ∧
      compound op.lexeme [left, right] = .binary left (op.relabel fun _ => 0) right := by
  rw [← token_lexeme h]
  have hlexeme {p : Punct} (hp : op.kind = .punct p) := lexeme_punct h hp
  generalize hk : op.kind = kind at hop
  cases hop with
  | or => exact absurd rfl hl.1
  | and => exact absurd rfl hl.2
  | _ =>
    rw [hlexeme hk]
    exact ⟨isWord_punct (by decide), rfl⟩

/-- A prefix operator. -/
theorem compound_unary {op : Token} (hop : op.kind = .punct .bang ∨ op.kind = .punct .minus)
    (h : Lexeme (.token op.kind) op.lexeme.toList) (right : Expr) :
    IsWord op.lexeme ∧ compound op.lexeme [right] = .unary (op.relabel fun _ => 0) right := by
  rw [← token_lexeme h]
  rcases hop with hop | hop <;> rw [lexeme_punct h hop] <;> exact ⟨isWord_punct (by decide), rfl⟩

/-- `or` and `and`. -/
theorem compound_logical {l : Level} {op : Token} (hl : l = .or ∨ l = .and)
    (hop : Joins l op.kind) (h : Lexeme (.token op.kind) op.lexeme.toList) (left right : Expr) :
    IsWord op.lexeme ∧
      compound op.lexeme [left, right] = .logical left (op.relabel fun _ => 0) right := by
  have hk : op.kind = .keyword .orWord ∨ op.kind = .keyword .andWord := by
    generalize op.kind = kind at hop
    rcases hl with rfl | rfl <;> cases hop
    · exact .inl rfl
    · exact .inr rfl
  rw [← token_lexeme h]
  rcases hk with hk | hk <;> rw [lexeme_keyword h hk] <;> exact ⟨isWord_keyword _, rfl⟩

/-- A constant that is a reserved word, or `this`. -/
theorem reads_word (hnumbers : Distinct numbers) {t : Token} {k : Keyword} {e : Expr}
    (ht : t.Plain numbers) (hk : t.kind = .keyword k) (hform : e.form = .word k.spelling)
    (hleaf : leaf (t.relabel fun _ => 0) (.keyword k) = e.relabel fun _ => 0) :
    e.Reads numbers := by
  have hlexeme := lexeme_keyword ht.lexeme hk
  constructor
  · rw [hform, ← hlexeme]
    exact isWord_name ht.lexeme (.inr ⟨k, hk⟩)
  · rw [hform, ← hlexeme, ← hleaf, ← hk]
    exact atom_name hnumbers ht.lexeme (.inr ⟨k, hk⟩)

/-- The condition that a `for` without one has. -/
theorem reads_true (hnumbers : Distinct numbers) : (Expr.literal .true).Reads numbers := by
  refine reads_word hnumbers (t := ⟨.keyword .trueWord, "true", 0⟩) ⟨.keyword .trueWord, ?_, ?_⟩
    rfl rfl rfl
  · intro contents hk
    cases hk
  · intro x hk
    cases hk

theorem isWord_equal : IsWord "=" :=
  isWord_punct (p := .equal) (by decide)

theorem isWord_dot : IsWord "." :=
  isWord_punct (p := .dot) (by decide)

theorem isWord_call : IsWord "call" := by
  simp [IsWord, isWordChar]

theorem isWord_group : IsWord "group" := by
  simp [IsWord, isWordChar]

theorem Derives.reads (hnumbers : Distinct numbers) {p : Phrase} {e : p.Tree} (h : Derives p ts e)
    (hts : AllPlain numbers ts) : p.Reads numbers e := by
  induction h with
  | @assign name _ _ value hn _ _ ih =>
    simp only [allPlain_cons] at hts
    have hname := hts.1.lexeme
    have hvalue := ih hts.2.2
    refine ⟨⟨isWord_equal, isWord_name hname (.inl hn), hvalue.proper, trivial⟩, ?_⟩
    show compound "=" [atom numbers name.lexeme, expr numbers value.form] = _
    rw [atom_identifier hnumbers hname hn, hvalue.read]
    rfl
  | @set _ _ _ name _ object value _ _ hn _ _ iho ihv =>
    simp only [allPlain_append, allPlain_cons] at hts
    obtain ⟨hobject, -, hname, -, hvalue⟩ := hts
    have hobject := iho hobject
    have hvalue := ihv hvalue
    have hword := isWord_name hname.lexeme (.inl hn)
    refine ⟨⟨isWord_equal, ⟨isWord_dot, hobject.proper, hword, trivial⟩, hvalue.proper, trivial⟩,
      ?_⟩
    show compound "=" [compound "." [expr numbers object.form, atom numbers name.lexeme],
      expr numbers value.form] = _
    rw [atom_identifier hnumbers hname.lexeme hn, hobject.read, hvalue.read]
    rfl
  | disjunction _ ih | single _ ih | orOperand _ ih | andOperand _ ih | equalityOperand _ ih
  | comparisonOperand _ ih | termOperand _ ih | factorOperand _ ih | unaryCall _ ih
  | callPrimary _ ih => exact ih hts
  | @logical _ _ _ op left right hl _ hop _ ih₁ ih₂ =>
    simp only [allPlain_append, allPlain_cons] at hts
    have hleft := ih₁ hts.1
    have hright := ih₂ hts.2.2
    obtain ⟨hword, hread⟩ := compound_logical hl hop hts.2.1.lexeme
      (left.relabel fun _ => 0) (right.relabel fun _ => 0)
    refine ⟨⟨hword, hleft.proper, hright.proper, trivial⟩, ?_⟩
    show compound op.lexeme [expr numbers left.form, expr numbers right.form] = _
    rw [hleft.read, hright.read, hread]
    rfl
  | @binary _ _ _ op left right hl _ hop _ ih₁ ih₂ =>
    simp only [allPlain_append, allPlain_cons] at hts
    have hleft := ih₁ hts.1
    have hright := ih₂ hts.2.2
    obtain ⟨hword, hread⟩ := compound_binary hl hop hts.2.1.lexeme
      (left.relabel fun _ => 0) (right.relabel fun _ => 0)
    refine ⟨⟨hword, hleft.proper, hright.proper, trivial⟩, ?_⟩
    show compound op.lexeme [expr numbers left.form, expr numbers right.form] = _
    rw [hleft.read, hright.read, hread]
    rfl
  | @unary op _ right hop _ ih =>
    simp only [allPlain_cons] at hts
    have hright := ih hts.2
    obtain ⟨hword, hread⟩ := compound_unary hop hts.1.lexeme (right.relabel fun _ => 0)
    refine ⟨⟨hword, hright.proper, trivial⟩, ?_⟩
    show compound op.lexeme [expr numbers right.form] = _
    rw [hright.read, hread]
    rfl
  | @callEmpty _ callee _ rparen _ _ hr ih =>
    simp only [allPlain_append, allPlain_cons] at hts
    have hcallee := ih hts.1
    refine ⟨⟨isWord_call, hcallee.proper, trivial⟩, ?_⟩
    show Expr.call (expr numbers callee.form) (token ")") [] = _
    rw [hcallee.read, show token ")" = _ from token_punct hts.2.2.1.lexeme hr]
    rfl
  | @call _ _ callee arguments _ rparen _ _ _ _ hr ih iha =>
    simp only [allPlain_append, allPlain_cons] at hts
    obtain ⟨hcallee, -, harguments, hparen, -⟩ := hts
    have hcallee := ih hcallee
    have harguments := iha harguments
    refine ⟨⟨isWord_call, hcallee.proper, harguments.proper⟩, ?_⟩
    show Expr.call (expr numbers callee.form) (token ")") (exprs numbers (Expr.forms arguments)) = _
    rw [hcallee.read, harguments.read, show token ")" = _ from token_punct hparen.lexeme hr]
    rfl
  | @get _ object _ name _ _ hn ih =>
    simp only [allPlain_append, allPlain_cons] at hts
    obtain ⟨hobject, -, hname, -⟩ := hts
    have hobject := ih hobject
    refine ⟨⟨isWord_dot, hobject.proper, isWord_name hname.lexeme (.inl hn), trivial⟩, ?_⟩
    show compound "." [expr numbers object.form, atom numbers name.lexeme] = _
    rw [hobject.read, atom_identifier hnumbers hname.lexeme hn]
    rfl
  | @argument _ e _ ih =>
    have he := ih hts
    refine ⟨⟨he.proper, trivial⟩, ?_⟩
    show [expr numbers e.form] = _
    rw [he.read]
    rfl
  | @argumentCons _ _ _ e es _ _ _ ih ihs =>
    simp only [allPlain_append, allPlain_cons] at hts
    have he := ih hts.1
    have hes := ihs hts.2.2
    refine ⟨⟨he.proper, hes.proper⟩, ?_⟩
    show expr numbers e.form :: exprs numbers (Expr.forms es) = _
    rw [he.read, hes.read]
    rfl
  | @number t x hk =>
    simp only [allPlain_cons] at hts
    have hx := hts.1.number x hk
    exact ⟨isWord_literal (hnumbers.finite x hx), atom_literal hnumbers hx⟩
  | string hk =>
    simp only [allPlain_cons] at hts
    exact absurd hk (hts.1.string _)
  | true hk | false hk | nil hk | this hk =>
    simp only [allPlain_cons] at hts
    exact reads_word hnumbers hts.1 hk rfl rfl
  | identifier hk =>
    simp only [allPlain_cons] at hts
    exact ⟨isWord_name hts.1.lexeme (.inl hk), atom_identifier hnumbers hts.1.lexeme hk⟩
  | @grouping _ _ _ inner _ _ _ ih =>
    simp only [allPlain_append, allPlain_cons] at hts
    have hinner := ih hts.2.1
    refine ⟨⟨isWord_group, hinner.proper, trivial⟩, ?_⟩
    show Expr.grouping (expr numbers inner.form) = _
    rw [hinner.read]
    rfl
  | @super keyword _ method hk _ hm =>
    simp only [allPlain_cons] at hts
    obtain ⟨hkeyword, -, hmethod, -⟩ := hts
    refine ⟨⟨isWord_keyword .superWord, isWord_name hmethod.lexeme (.inl hm), trivial⟩, ?_⟩
    show compound "super" [atom numbers method.lexeme] = _
    rw [atom_identifier hnumbers hmethod.lexeme hm]
    show Expr.super (token "super") (method.relabel fun _ => 0) none = _
    rw [show token "super" = _ from token_keyword hkeyword.lexeme hk]
    rfl

variable {e : Expr} {s : Stmt}

theorem Derives.expression_reads (hnumbers : Distinct numbers) (h : Derives .expression ts e)
    (hts : AllPlain numbers ts) : e.Reads numbers :=
  h.reads hnumbers hts

theorem DerivesOption.reads (hnumbers : Distinct numbers) {o : Option Expr}
    (h : DerivesOption ts o) (hts : AllPlain numbers ts) : ∀ e ∈ o, e.Reads numbers := by
  cases h with
  | none => nofun
  | some h =>
    rintro e ⟨⟩
    exact h.expression_reads hnumbers hts

/-! ## Statements -/

theorem VarDeclaration.reads (hnumbers : Distinct numbers) (h : VarDeclaration ts s)
    (hts : AllPlain numbers ts) : s.Reads numbers := by
  cases h with
  | @bare _ name _ _ hn _ =>
    simp only [allPlain_cons] at hts
    have hname := hts.2.1.lexeme
    refine ⟨⟨isWord_keyword .varWord, isWord_name hname (.inl hn), trivial⟩, ?_⟩
    show Stmt.var (token name.lexeme) none = _
    rw [token_lexeme hname]
    rfl
  | @initialized _ name _ _ _ value _ hn _ hv _ =>
    simp only [allPlain_append, allPlain_cons] at hts
    obtain ⟨-, hname, -, hvalue, -⟩ := hts
    have hvalue := hv.expression_reads hnumbers hvalue
    refine ⟨⟨isWord_keyword .varWord, isWord_name hname.lexeme (.inl hn), hvalue.proper, trivial⟩,
      ?_⟩
    show Stmt.var (token name.lexeme) (some (expr numbers value.form)) = _
    rw [token_lexeme hname.lexeme, hvalue.read]
    rfl

theorem ExpressionStatement.reads (hnumbers : Distinct numbers) (h : ExpressionStatement ts s)
    (hts : AllPlain numbers ts) : s.Reads numbers := by
  cases h with
  | @mk _ value _ hv _ =>
    simp only [allPlain_append] at hts
    exact (hv.expression_reads hnumbers hts.1).statement

theorem ForInitializer.reads (hnumbers : Distinct numbers) (h : ForInitializer ts (some s))
    (hts : AllPlain numbers ts) : s.Reads numbers := by
  cases h with
  | var h => exact h.reads hnumbers hts
  | expression h => exact h.reads hnumbers hts

theorem Parameters.kind_eq {ps : List Token} (h : Parameters ts ps) :
    ∀ p ∈ ps, p ∈ ts ∧ p.kind = .identifier := by
  induction h with
  | one hp => simpa using hp
  | cons hp _ _ ih =>
    refine List.forall_mem_cons.2 ⟨⟨List.mem_cons_self, hp⟩, fun p hmem => ?_⟩
    obtain ⟨hin, hk⟩ := ih p hmem
    exact ⟨List.mem_cons_of_mem _ (List.mem_cons_of_mem _ hin), hk⟩

theorem ParameterClause.kind_eq {ps : List Token} (h : ParameterClause ts ps) :
    ∀ p ∈ ps, p ∈ ts ∧ p.kind = .identifier := by
  cases h with
  | none => nofun
  | some h _ => exact h.kind_eq

/-- The tree of a clause is read back. -/
def Clause.Reads (numbers : List Float) : (c : Clause) → c.Tree → Prop
  | .declaration, s | .statement _, s => s.Reads numbers
  | .function, f => f.Reads numbers
  | .block, ss | .declarations, ss => Stmt.AllRead numbers ss
  | .methods, fs => FunctionDecl.AllRead numbers fs

theorem withIncrement_reads {body : Stmt} {increment : Option Expr} (hb : body.Reads numbers)
    (hi : ∀ e ∈ increment, e.Reads numbers) : (withIncrement body increment).Reads numbers := by
  cases increment with
  | none => exact hb
  | some increment => exact (Stmt.AllRead.cons hb (.cons (hi increment rfl).statement .nil)).block

/-- **What is derived from lexemes is read back**, where no token is a string. -/
theorem Forms.reads (hnumbers : Distinct numbers) {c : Clause} {x : c.Tree} (h : Forms c ts x)
    (hts : AllPlain numbers ts) : c.Reads numbers x := by
  induction h with
  | @classDecl _ name _ _ us _ superclass methods _ hn hs _ _ _ ih =>
    simp only [allPlain_append, allPlain_cons] at hts
    obtain ⟨-, hname, hus, -, hmethods, -⟩ := hts
    have hmethods := ih hmethods
    have hword := isWord_name hname.lexeme (.inl hn)
    cases hs with
    | none =>
      refine ⟨⟨isWord_keyword .classWord, hword, hmethods.proper⟩, ?_⟩
      have hread : stmt numbers (Stmt.classDecl name none methods).form = .classDecl
          (token name.lexeme) none (Form.methods (stmts numbers (FunctionDecl.forms methods))) := by
        -- what comes after the name is a method and not a superclass
        rcases methods with _ | ⟨⟨_, _, _⟩, _⟩ <;> rfl
      rw [hread, token_lexeme hname.lexeme, hmethods.read, methods_map]
      rfl
    | @some _ above _ habove =>
      simp only [allPlain_cons] at hus
      have habove' := hus.2.1.lexeme
      refine ⟨⟨isWord_keyword .classWord, hword, isWord_punct (p := .less) (by decide),
        isWord_name habove' (.inl habove), hmethods.proper⟩, ?_⟩
      show Stmt.classDecl (token name.lexeme) (some (atom numbers above.lexeme))
        (Form.methods (stmts numbers (FunctionDecl.forms methods))) = _
      rw [token_lexeme hname.lexeme, atom_identifier hnumbers habove' habove, hmethods.read,
        methods_map]
      rfl
  | funDecl _ _ ih =>
    simp only [allPlain_cons] at hts
    exact ⟨(ih hts.2).proper, (ih hts.2).read⟩
  | varDecl h => exact h.reads hnumbers hts
  | statement _ ih => exact ih hts
  | @function name _ _ us _ params body hn _ hp _ _ ih =>
    simp only [allPlain_append, allPlain_cons] at hts
    obtain ⟨hname, -, hus, -, hbody⟩ := hts
    have hbody := ih hbody
    have hparams : ∀ p ∈ params, Lexeme (.token p.kind) p.lexeme.toList ∧ p.kind = .identifier :=
      fun p hmem => ⟨(hus p (hp.kind_eq p hmem).1).lexeme, (hp.kind_eq p hmem).2⟩
    refine ⟨⟨isWord_keyword .funWord, ⟨isWord_name hname.lexeme (.inl hn), ?_⟩, hbody.proper⟩, ?_⟩
    · rw [List.forall_mem_map]
      exact fun p hmem => isWord_name (hparams p hmem).1 (.inl (hparams p hmem).2)
    · have hread : (params.map (·.lexeme)).map token = params.map (Token.relabel fun _ => 0) := by
        rw [List.map_map]
        exact List.map_congr_left fun p hmem => token_lexeme (hparams p hmem).1
      show Stmt.function ⟨token name.lexeme, (params.map (·.lexeme)).map token,
        stmts numbers (Stmt.forms body)⟩ = _
      rw [token_lexeme hname.lexeme, hread, hbody.read]
      rfl
  | block _ _ _ ih =>
    simp only [allPlain_append, allPlain_cons] at hts
    exact ih hts.2.1
  | declarationsNil => exact .nil
  | declarationsCons _ _ ih ihs =>
    simp only [allPlain_append] at hts
    exact .cons (ih hts.1) (ihs hts.2)
  | methodsNil => exact ⟨trivial, rfl⟩
  | @methodsCons _ _ f fs _ _ ih ihs =>
    simp only [allPlain_append] at hts
    have hf := ih hts.1
    have hfs := ihs hts.2
    refine ⟨⟨hf.proper, hfs.proper⟩, ?_⟩
    show stmt numbers f.form :: stmts numbers (FunctionDecl.forms fs) = _
    rw [hf.read, hfs.read]
    rfl
  | expression h => exact h.reads hnumbers hts
  | @print word _ _ value hw hv _ =>
    simp only [allPlain_append, allPlain_cons] at hts
    have hvalue := hv.expression_reads hnumbers hts.2.1
    refine ⟨⟨isWord_keyword .printWord, hvalue.proper, trivial⟩, ?_⟩
    show Stmt.print (token "print") (expr numbers value.form) = _
    rw [hvalue.read, show token "print" = _ from token_keyword hts.1.lexeme hw]
    rfl
  | @ret word _ _ value hw hv _ =>
    simp only [allPlain_append, allPlain_cons] at hts
    have hvalue := hv.reads hnumbers hts.2.1
    have hword : token "return" = word.relabel fun _ => 0 := token_keyword hts.1.lexeme hw
    cases value with
    | none =>
      refine ⟨⟨isWord_keyword .returnWord, trivial⟩, ?_⟩
      show Stmt.ret (token "return") none = _
      rw [hword]
      rfl
    | some value =>
      have hvalue := hvalue value rfl
      refine ⟨⟨isWord_keyword .returnWord, hvalue.proper, trivial⟩, ?_⟩
      show Stmt.ret (token "return") (some (expr numbers value.form)) = _
      rw [hword, hvalue.read]
      rfl
  | blockStatement _ ih => exact (ih hts).block
  | loop _ _ hc _ _ ih =>
    simp only [allPlain_append, allPlain_cons] at hts
    exact (hc.expression_reads hnumbers hts.2.2.1).loop (ih hts.2.2.2.2)
  | @ifThen _ _ _ _ _ condition thenBranch _ _ _ hc _ _ ih =>
    simp only [allPlain_append, allPlain_cons] at hts
    have hcondition := hc.expression_reads hnumbers hts.2.2.1
    have hthen := ih hts.2.2.2.2
    refine ⟨⟨isWord_keyword .ifWord, hcondition.proper, hthen.proper, trivial⟩, ?_⟩
    show Stmt.conditional (expr numbers condition.form) (stmt numbers thenBranch.form) none = _
    rw [hcondition.read, hthen.read]
    rfl
  | @ifElse _ _ _ _ _ _ _ condition thenBranch elseBranch _ _ _ hc _ _ _ _ iht ihe =>
    simp only [allPlain_append, allPlain_cons] at hts
    obtain ⟨-, -, hcondition, -, hthen, -, helse⟩ := hts
    have hcondition := hc.expression_reads hnumbers hcondition
    have hthen := iht hthen
    have helse := ihe helse
    refine ⟨⟨by simp [IsWord, isWordChar], hcondition.proper, hthen.proper, helse.proper, trivial⟩,
      ?_⟩
    show Stmt.conditional (expr numbers condition.form) (stmt numbers thenBranch.form)
      (some (stmt numbers elseBranch.form)) = _
    rw [hcondition.read, hthen.read, helse.read]
    rfl
  | @forLoop _ _ _ _ _ _ _ _ initializer condition _ _ _ _ _ hi hc _ hn _ _ ih =>
    simp only [allPlain_append, allPlain_cons] at hts
    obtain ⟨-, -, hinit, hcond, -, hincr, -, hbody⟩ := hts
    have hround := withIncrement_reads (ih hbody) (hn.reads hnumbers hincr)
    have hcondition : (condition.getD (.literal .true)).Reads numbers := by
      cases condition with
      | none =>
        exact reads_true hnumbers
      | some condition => exact hc.reads hnumbers hcond condition rfl
    have hloop := hcondition.loop hround
    cases initializer with
    | none => exact hloop
    | some initializer =>
      exact (Stmt.AllRead.cons (hi.reads hnumbers hinit) (.cons hloop .nil)).block

end Grammar

/-! ## Programs -/

/-- The numbers among the tokens of a source text. -/
def Lexer.numbersIn (source : String) : List Float :=
  (tokens (scan source)).filterMap fun t =>
    match t.kind with
    | .number x => some x
    | _ => none

/-- A program is read back if its source text has no string and the numbers are told apart. -/
theorem parsed_reads (hnumbers : Distinct numbers) {source : String} {program : List Stmt}
    (hparse : Grammar.parse (Lexer.tokens (Lexer.scan source)) = .ok program)
    (hstrings : ∀ t ∈ Lexer.tokens (Lexer.scan source), ∀ contents, t.kind ≠ .string contents)
    (hsub : Lexer.numbersIn source ⊆ numbers) : Stmt.AllRead numbers program := by
  refine Grammar.Forms.reads hnumbers (Grammar.parse_ok_iff.1 hparse) fun t ht => ?_
  have hmem := (List.takeWhile_sublist _).subset ht
  have hend : t.kind ≠ .eof := by simpa using List.mem_takeWhile_imp ht
  refine ⟨Lexer.scan_lexeme hmem hend, hstrings t hmem, fun x hx => hsub ?_⟩
  exact List.mem_filterMap.2 ⟨t, hmem, by rw [hx]⟩

/-- Statements that are written in the same way have the same forms. -/
theorem Stmt.forms_eq {p q : List Stmt} (hp : AllProper (Stmt.forms p))
    (hq : AllProper (Stmt.forms q)) (h : p.map Stmt.text = q.map Stmt.text) :
    Stmt.forms p = Stmt.forms q := by
  induction p generalizing q with
  | nil =>
    cases q with
    | nil => rfl
    | cons t q => cases h
  | cons s p ih =>
    cases q with
    | nil => cases h
    | cons t q =>
      obtain ⟨htext, hrest⟩ := List.cons.inj h
      have hform : s.form = t.form :=
        eq_of_chars_eq hp.1 hq.1 (by rw [s.chars_form, t.chars_form, htext])
      rw [Stmt.forms, Stmt.forms, hform, ih hp.2 hq.2 hrest]

/-- **The text of a program determines it.** Two source texts without strings, whose numbers are
finite and told apart by what is printed for them, are written in the same way, statement by
statement, only if they are the same program, up to the lines of their tokens. (The slots of a
parsed program are empty.) -/
theorem parsed_eq_of_text_eq {a b : String} {p q : List Stmt}
    (hp : Grammar.parse (Lexer.tokens (Lexer.scan a)) = .ok p)
    (hq : Grammar.parse (Lexer.tokens (Lexer.scan b)) = .ok q)
    (hstrings : ∀ t ∈ Lexer.tokens (Lexer.scan a) ++ Lexer.tokens (Lexer.scan b),
      ∀ contents, t.kind ≠ .string contents)
    (hfinite : ∀ x ∈ Lexer.numbersIn a ++ Lexer.numbersIn b, Number.IsFinite x)
    (hprinted : ∀ x ∈ Lexer.numbersIn a ++ Lexer.numbersIn b,
      ∀ y ∈ Lexer.numbersIn a ++ Lexer.numbersIn b, Number.text x = Number.text y → x = y)
    (htext : p.map Stmt.text = q.map Stmt.text) :
    Stmt.relabelAll (fun _ => 0) p = Stmt.relabelAll (fun _ => 0) q := by
  have hnumbers : Distinct (Lexer.numbersIn a ++ Lexer.numbersIn b) := ⟨hfinite, hprinted⟩
  have hreadp := parsed_reads hnumbers hp (fun t ht => hstrings t (List.mem_append_left _ ht))
    (List.subset_append_left ..)
  have hreadq := parsed_reads hnumbers hq (fun t ht => hstrings t (List.mem_append_right _ ht))
    (List.subset_append_right ..)
  rw [← hreadp.read, ← hreadq.read, Stmt.forms_eq hreadp.proper hreadq.proper htext]

theorem exists_parsed {source : String} {texts : List String}
    (h : (Grammar.parse (Lexer.tokens (Lexer.scan source))).toOption.map (List.map Stmt.text)
      = some texts) :
    ∃ p, Grammar.parse (Lexer.tokens (Lexer.scan source)) = .ok p ∧ p.map Stmt.text = texts := by
  cases hparse : Grammar.parse (Lexer.tokens (Lexer.scan source)) with
  | error errors =>
    rw [hparse] at h
    cases h
  | ok p =>
    rw [hparse] at h
    exact ⟨p, rfl, Option.some.inj h⟩

/-- Numbers with more digits than they need, and other lines. -/
theorem parsed_eq_spellings : ∃ p q,
    Grammar.parse (Lexer.tokens (Lexer.scan "a.b = -1.50(c) + 2;")) = .ok p ∧
    Grammar.parse (Lexer.tokens (Lexer.scan "a.b\n= -1.5(c) +\n2.0;")) = .ok q ∧
    p.map Stmt.text = ["(; (= (. a b) (+ (- (call 1.5 c)) 2.0)))"] ∧
    q.map Stmt.text = ["(; (= (. a b) (+ (- (call 1.5 c)) 2.0)))"] ∧
    Stmt.relabelAll (fun _ => 0) p = Stmt.relabelAll (fun _ => 0) q := by
  have hp : ∃ p, Grammar.parse (Lexer.tokens (Lexer.scan "a.b = -1.50(c) + 2;")) = .ok p ∧
      p.map Stmt.text = ["(; (= (. a b) (+ (- (call 1.5 c)) 2.0)))"] :=
    exists_parsed (by decide +kernel)
  have hq : ∃ q, Grammar.parse (Lexer.tokens (Lexer.scan "a.b\n= -1.5(c) +\n2.0;")) = .ok q ∧
      q.map Stmt.text = ["(; (= (. a b) (+ (- (call 1.5 c)) 2.0)))"] :=
    exists_parsed (by decide +kernel)
  obtain ⟨p, hparse, hp⟩ := hp
  obtain ⟨q, hparse', hq⟩ := hq
  have hstrings : (Lexer.tokens (Lexer.scan "a.b = -1.50(c) + 2;") ++
      Lexer.tokens (Lexer.scan "a.b\n= -1.5(c) +\n2.0;")).all
        (fun t => t.kind.name != "STRING") = true := by
    decide +kernel
  refine ⟨p, q, hparse, hparse', hp, hq, parsed_eq_of_text_eq hparse hparse'
    (fun t ht contents hk => ?_) (by decide +kernel) (by decide +kernel) (hp.trans hq.symm)⟩
  have hname := List.all_eq_true.1 hstrings t ht
  rw [hk] at hname
  cases hname

end Lox
