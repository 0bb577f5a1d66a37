import Lox.Proofs.Grammar.Derivation
import Lox.Proofs.Token.Spelling

/-!
# The shape of parsed programs

What every tree of the grammar has, beyond being a tree: operators of the right kind, empty slots,
variables that are not called `this` or `super`, branches and loop bodies that declare nothing, and
a variable as superclass. `Forms.shaped` reads it off a derivation from well-spelled tokens.
-/

set_option autoImplicit false

namespace Lox

/-- A name that a program can give to a variable, a function or a class. -/
def Token.IsName (t : Token) : Prop :=
  t.lexeme ≠ "this" ∧ t.lexeme ≠ "super"

theorem Token.Spelled.isName {t : Token} (h : t.Spelled) (hk : t.kind = .identifier) : t.IsName :=
  ⟨h.identifier hk .thisWord, h.identifier hk .superWord⟩

/-- An operator between two operands that are both evaluated. -/
def Token.IsInfix (t : Token) : Prop :=
  ∃ l : Grammar.Level, l ≠ .or ∧ l ≠ .and ∧ Grammar.Joins l t.kind

/-- The name that a statement declares in the scope around it. -/
def Stmt.declared : Stmt → Option Token
  | .var name _ => some name
  | .function decl => some decl.name
  | .classDecl name _ _ => some name
  | _ => none

/-! ## Expressions -/

mutual

/-- An expression as the grammar makes it. -/
def Expr.Shaped : Expr → Prop
  | .literal _ => True
  | .grouping inner => inner.Shaped
  | .unary operator right =>
    (operator.kind = .punct .bang ∨ operator.kind = .punct .minus) ∧ right.Shaped
  | .binary left operator right => left.Shaped ∧ operator.IsInfix ∧ right.Shaped
  | .logical left operator right =>
    left.Shaped ∧ (operator.kind = .keyword .orWord ∨ operator.kind = .keyword .andWord) ∧
      right.Shaped
  | .variable name depth => name.IsName ∧ depth = none
  | .assign name value depth => name.IsName ∧ value.Shaped ∧ depth = none
  | .call callee _ arguments => callee.Shaped ∧ Expr.AllShaped arguments
  | .get object _ => object.Shaped
  | .set object _ value => object.Shaped ∧ value.Shaped
  | .this keyword depth => keyword.lexeme = "this" ∧ depth = none
  | .super keyword _ depth => keyword.lexeme = "super" ∧ depth = none

def Expr.AllShaped : List Expr → Prop
  | [] => True
  | e :: es => e.Shaped ∧ Expr.AllShaped es

end

/-- An expression that may be absent. -/
def Expr.OptShaped : Option Expr → Prop
  | none => True
  | some e => e.Shaped

/-! ## Statements -/

mutual

/-- A statement as the grammar makes it. -/
def Stmt.Shaped : Stmt → Prop
  | .expression value => value.Shaped
  | .print _ value => value.Shaped
  | .var name initializer => name.IsName ∧ Expr.OptShaped initializer
  | .block body => Stmt.AllShaped body
  | .conditional condition thenBranch none =>
    condition.Shaped ∧ thenBranch.Shaped ∧ thenBranch.declared = none
  | .conditional condition thenBranch (some elseBranch) =>
    condition.Shaped ∧ (thenBranch.Shaped ∧ thenBranch.declared = none) ∧
      elseBranch.Shaped ∧ elseBranch.declared = none
  | .loop condition body => condition.Shaped ∧ body.Shaped ∧ body.declared = none
  | .function decl => decl.Shaped
  | .ret _ value => Expr.OptShaped value
  | .classDecl name none methods => name.IsName ∧ FunctionDecl.AllShaped methods
  | .classDecl name (some superclass) methods =>
    name.IsName ∧ (∃ above : Token, superclass = .variable above none ∧ above.IsName) ∧
      FunctionDecl.AllShaped methods

/-- A function as the grammar makes it. -/
def FunctionDecl.Shaped : FunctionDecl → Prop
  | ⟨name, params, body⟩ => name.IsName ∧ (∀ p ∈ params, p.IsName) ∧ Stmt.AllShaped body

def Stmt.AllShaped : List Stmt → Prop
  | [] => True
  | s :: ss => s.Shaped ∧ Stmt.AllShaped ss

def FunctionDecl.AllShaped : List FunctionDecl → Prop
  | [] => True
  | f :: fs => f.Shaped ∧ FunctionDecl.AllShaped fs

end

theorem Stmt.allShaped_iff {ss : List Stmt} : Stmt.AllShaped ss ↔ ∀ s ∈ ss, s.Shaped := by
  induction ss with
  | nil => simp [Stmt.AllShaped]
  | cons s ss ih => simp [Stmt.AllShaped, ih]

theorem FunctionDecl.allShaped_iff {fs : List FunctionDecl} :
    FunctionDecl.AllShaped fs ↔ ∀ f ∈ fs, f.Shaped := by
  induction fs with
  | nil => simp [FunctionDecl.AllShaped]
  | cons f fs ih => simp [FunctionDecl.AllShaped, ih]

theorem Stmt.Shaped.methods {name : Token} {superclass : Option Expr} {methods : List FunctionDecl}
    (h : (Stmt.classDecl name superclass methods).Shaped) : ∀ f ∈ methods, f.Shaped := by
  cases superclass with
  | none =>
    simp only [Stmt.Shaped] at h
    exact FunctionDecl.allShaped_iff.1 h.2
  | some e =>
    simp only [Stmt.Shaped] at h
    exact FunctionDecl.allShaped_iff.1 h.2.2

namespace Grammar

/-! ## Derivations -/

/-- All these tokens are well spelled. -/
def AllSpelled (ts : List Token) : Prop :=
  ∀ t ∈ ts, t.Spelled

@[simp] theorem allSpelled_cons {t : Token} {ts : List Token} :
    AllSpelled (t :: ts) ↔ t.Spelled ∧ AllSpelled ts := by
  simp [AllSpelled]

@[simp] theorem allSpelled_append {us ts : List Token} :
    AllSpelled (us ++ ts) ↔ AllSpelled us ∧ AllSpelled ts := by
  simp [AllSpelled, or_imp, forall_and]

/-- The shape of a phrase's tree. -/
def Phrase.Shaped : (p : Phrase) → p.Tree → Prop
  | .arguments, es => Expr.AllShaped es
  | .expression, e | .level _, e | .operand _, e | .unary, e | .call, e | .primary, e => e.Shaped

theorem Derives.shaped {p : Phrase} {ts : List Token} {e : p.Tree} (h : Derives p ts e)
    (hts : AllSpelled ts) : p.Shaped e := by
  induction h with
  | assign hn _ _ ih =>
    simp only [allSpelled_cons] at hts
    exact ⟨hts.1.isName hn, ih hts.2.2, rfl⟩
  | set _ _ _ _ _ iho ihv =>
    simp only [allSpelled_append, allSpelled_cons] at hts
    exact ⟨iho hts.1, ihv hts.2.2.2.2⟩
  | disjunction _ ih | single _ ih | orOperand _ ih | andOperand _ ih | equalityOperand _ ih
  | comparisonOperand _ ih | termOperand _ ih | factorOperand _ ih | unaryCall _ ih
  | callPrimary _ ih => exact ih hts
  | logical hl _ hop _ ih₁ ih₂ =>
    simp only [allSpelled_append, allSpelled_cons] at hts
    refine ⟨ih₁ hts.1, ?_, ih₂ hts.2.2⟩
    rcases hl with rfl | rfl
    · left; generalize Token.kind _ = k at hop ⊢; cases hop; rfl
    · right; generalize Token.kind _ = k at hop ⊢; cases hop; rfl
  | binary hl _ hop _ ih₁ ih₂ =>
    simp only [allSpelled_append, allSpelled_cons] at hts
    exact ⟨ih₁ hts.1, ⟨_, hl.1, hl.2, hop⟩, ih₂ hts.2.2⟩
  | unary hop _ ih =>
    simp only [allSpelled_cons] at hts
    exact ⟨hop, ih hts.2⟩
  | callEmpty _ _ _ ih =>
    simp only [allSpelled_append] at hts
    exact ⟨ih hts.1, trivial⟩
  | call _ _ _ _ _ ih iha =>
    simp only [allSpelled_append, allSpelled_cons] at hts
    exact ⟨ih hts.1, iha hts.2.2.1⟩
  | get _ _ _ ih =>
    simp only [allSpelled_append] at hts
    exact ih hts.1
  | argument _ ih => exact ⟨ih hts, trivial⟩
  | argumentCons _ _ _ ih ihs =>
    simp only [allSpelled_append, allSpelled_cons] at hts
    exact ⟨ih hts.1, ihs hts.2.2⟩
  | number | string | true | false | nil => trivial
  | this hk =>
    simp only [allSpelled_cons] at hts
    exact ⟨hts.1.keyword hk, rfl⟩
  | identifier hk =>
    simp only [allSpelled_cons] at hts
    exact ⟨hts.1.isName hk, rfl⟩
  | grouping _ _ _ ih =>
    simp only [allSpelled_append, allSpelled_cons] at hts
    exact ih hts.2.1
  | super hk =>
    simp only [allSpelled_cons] at hts
    exact ⟨hts.1.keyword hk, rfl⟩

variable {ts : List Token}

theorem Derives.expression_shaped {e : Expr} (h : Derives .expression ts e)
    (hts : AllSpelled ts) : e.Shaped :=
  h.shaped hts

theorem DerivesOption.shaped {o : Option Expr} (h : DerivesOption ts o) (hts : AllSpelled ts) :
    Expr.OptShaped o := by
  cases h with
  | none => trivial
  | some h => exact h.expression_shaped hts

theorem Parameters.isName {ps : List Token} (h : Parameters ts ps) (hts : AllSpelled ts) :
    ∀ p ∈ ps, p.IsName := by
  induction h with
  | one hp =>
    simp only [allSpelled_cons] at hts
    simpa using hts.1.isName hp
  | cons hp _ _ ih =>
    simp only [allSpelled_cons] at hts
    simp only [List.forall_mem_cons]
    exact ⟨hts.1.isName hp, ih hts.2.2⟩

theorem ParameterClause.isName {ps : List Token} (h : ParameterClause ts ps)
    (hts : AllSpelled ts) : ∀ p ∈ ps, p.IsName := by
  cases h with
  | none => exact nofun
  | some h => exact h.isName hts

theorem VarDeclaration.shaped {s : Stmt} (h : VarDeclaration ts s) (hts : AllSpelled ts) :
    s.Shaped := by
  cases h with
  | bare _ hn =>
    simp only [allSpelled_cons] at hts
    exact ⟨hts.2.1.isName hn, trivial⟩
  | initialized _ hn _ hv =>
    simp only [allSpelled_append, allSpelled_cons] at hts
    exact ⟨hts.2.1.isName hn, hv.expression_shaped hts.2.2.2.1⟩

theorem ExpressionStatement.shaped {s : Stmt} (h : ExpressionStatement ts s)
    (hts : AllSpelled ts) : s.Shaped ∧ s.declared = none := by
  cases h with
  | mk hv =>
    simp only [allSpelled_append] at hts
    exact ⟨hv.expression_shaped hts.1, rfl⟩

theorem ForInitializer.shaped {s : Stmt} (h : ForInitializer ts (some s)) (hts : AllSpelled ts) :
    s.Shaped := by
  cases h with
  | var h => exact h.shaped hts
  | expression h => exact (h.shaped hts).1

/-- The shape of a clause's tree. -/
def Clause.Shaped : (c : Clause) → c.Tree → Prop
  | .declaration, s => s.Shaped
  | .statement _, s => s.Shaped ∧ s.declared = none
  | .function, f => f.Shaped
  | .block, ss | .declarations, ss => Stmt.AllShaped ss
  | .methods, fs => FunctionDecl.AllShaped fs

theorem withIncrement_shaped {body : Stmt} {increment : Option Expr} (hb : body.Shaped)
    (hd : body.declared = none) (hi : Expr.OptShaped increment) :
    (withIncrement body increment).Shaped ∧ (withIncrement body increment).declared = none := by
  cases increment with
  | none => exact ⟨hb, hd⟩
  | some increment => exact ⟨⟨hb, hi, trivial⟩, rfl⟩

theorem Forms.shaped {c : Clause} {x : c.Tree} (h : Forms c ts x) (hts : AllSpelled ts) :
    c.Shaped x := by
  induction h with
  | @classDecl _ name _ _ us _ superclass methods _ hn hs _ _ _ ih =>
    simp only [allSpelled_append, allSpelled_cons] at hts
    obtain ⟨-, hname, hus, -, hmethods, -⟩ := hts
    cases hs with
    | none => exact ⟨hname.isName hn, ih hmethods⟩
    | some _ habove =>
      simp only [allSpelled_cons] at hus
      exact ⟨hname.isName hn, ⟨_, rfl, hus.2.1.isName habove⟩, ih hmethods⟩
  | funDecl _ _ ih =>
    simp only [allSpelled_cons] at hts
    exact ih hts.2
  | varDecl h => exact h.shaped hts
  | statement _ ih => exact (ih hts).1
  | function hn _ hp _ _ ih =>
    simp only [allSpelled_append, allSpelled_cons] at hts
    exact ⟨hts.1.isName hn, hp.isName hts.2.2.1, ih hts.2.2.2.2⟩
  | block _ _ _ ih =>
    simp only [allSpelled_append, allSpelled_cons] at hts
    exact ih hts.2.1
  | declarationsNil => trivial
  | declarationsCons _ _ ih ihs =>
    simp only [allSpelled_append] at hts
    exact ⟨ih hts.1, ihs hts.2⟩
  | methodsNil => trivial
  | methodsCons _ _ ih ihs =>
    simp only [allSpelled_append] at hts
    exact ⟨ih hts.1, ihs hts.2⟩
  | expression h => exact h.shaped hts
  | print _ hv =>
    simp only [allSpelled_append, allSpelled_cons] at hts
    exact ⟨hv.expression_shaped hts.2.1, rfl⟩
  | ret _ hv =>
    simp only [allSpelled_append, allSpelled_cons] at hts
    exact ⟨hv.shaped hts.2.1, rfl⟩
  | blockStatement _ ih => exact ⟨ih hts, rfl⟩
  | loop _ _ hc _ _ ih =>
    simp only [allSpelled_append, allSpelled_cons] at hts
    exact ⟨⟨hc.expression_shaped hts.2.2.1, ih hts.2.2.2.2⟩, rfl⟩
  | ifThen _ _ hc _ _ ih =>
    simp only [allSpelled_append, allSpelled_cons] at hts
    exact ⟨⟨hc.expression_shaped hts.2.2.1, ih hts.2.2.2.2⟩, rfl⟩
  | ifElse _ _ hc _ _ _ _ iht ihe =>
    simp only [allSpelled_append, allSpelled_cons] at hts
    obtain ⟨-, -, hcondition, -, hthen, -, helse⟩ := hts
    exact ⟨⟨hc.expression_shaped hcondition, iht hthen, ihe helse⟩, rfl⟩
  | @forLoop _ _ _ _ _ _ _ _ initializer condition _ _ _ _ _ hi hc _ hn _ _ ih =>
    simp only [allSpelled_append, allSpelled_cons] at hts
    obtain ⟨-, -, hinit, hcond, -, hincr, -, hbody⟩ := hts
    obtain ⟨hb, hd⟩ := ih hbody
    have hround := withIncrement_shaped hb hd (hn.shaped hincr)
    have hcondition : (condition.getD (.literal .true)).Shaped := by
      have := hc.shaped hcond
      cases condition with
      | none => trivial
      | some e => exact this
    cases initializer with
    | none => exact ⟨⟨hcondition, hround⟩, rfl⟩
    | some initializer =>
      exact ⟨⟨hi.shaped hinit, ⟨hcondition, hround⟩, trivial⟩, rfl⟩

end Grammar
end Lox
