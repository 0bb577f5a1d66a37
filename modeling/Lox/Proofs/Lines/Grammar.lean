import Lox.Proofs.Grammar.Complete
import Lox.Proofs.Lines.Relabel

/-!
# Programs side by side

The grammar does not look at lines, so tokens on other lines have the tree with those lines
(`Forms.relabel`). Two programs side by side are a program, and a program that starts with another
one is that program and a rest, unless the rest starts with an `else` (`Forms.split`).
-/

set_option autoImplicit false

namespace Lox.Grammar

open Parse

/-! ## Other lines -/

section Relabel

variable (ρ : Nat → Nat) {us ts : List Token}

/-- The tokens on other lines. -/
abbrev relabelTokens (ts : List Token) : List Token :=
  ts.map (Token.relabel ρ)

/-- The tree of a phrase with other lines. -/
def Phrase.relabel : (p : Phrase) → p.Tree → p.Tree
  | .arguments, es => Expr.relabelAll ρ es
  | .expression, e | .level _, e | .operand _, e | .unary, e | .call, e | .primary, e =>
    e.relabel ρ

theorem Derives.relabel {p : Phrase} {e : p.Tree} (h : Derives p ts e) :
    Derives p (relabelTokens ρ ts) (p.relabel ρ e) := by
  induction h with
  | assign hn he _ ih => exact .assign hn he ih
  | set _ hd hn he _ iho ihv =>
    rw [relabelTokens, List.map_append]
    exact .set iho hd hn he ihv
  | disjunction _ ih => exact .disjunction ih
  | single _ ih => exact .single ih
  | logical hl _ hop _ ihl ihr =>
    rw [relabelTokens, List.map_append]
    exact .logical hl ihl hop ihr
  | binary hl _ hop _ ihl ihr =>
    rw [relabelTokens, List.map_append]
    exact .binary hl ihl hop ihr
  | orOperand _ ih => exact .orOperand ih
  | andOperand _ ih => exact .andOperand ih
  | equalityOperand _ ih => exact .equalityOperand ih
  | comparisonOperand _ ih => exact .comparisonOperand ih
  | termOperand _ ih => exact .termOperand ih
  | factorOperand _ ih => exact .factorOperand ih
  | unary hop _ ih => exact .unary hop ih
  | unaryCall _ ih => exact .unaryCall ih
  | callPrimary _ ih => exact .callPrimary ih
  | callEmpty _ hl hr ih =>
    rw [relabelTokens, List.map_append]
    exact .callEmpty ih hl hr
  | call _ hl _ hn hr ih iha =>
    rw [relabelTokens, List.map_append, List.map_cons, List.map_append]
    refine .call ih hl iha ?_ hr
    show (Expr.relabelAll ρ _).length ≤ 255
    rwa [Expr.relabelAll_eq_map, List.length_map]
  | get _ hd hn ih =>
    rw [relabelTokens, List.map_append]
    exact .get ih hd hn
  | argument _ ih => exact .argument ih
  | argumentCons _ hc _ ih ihs =>
    rw [relabelTokens, List.map_append]
    exact .argumentCons ih hc ihs
  | number h => exact .number h
  | string h => exact .string h
  | true h => exact .true h
  | false h => exact .false h
  | nil h => exact .nil h
  | this h => exact .this h
  | identifier h => exact .identifier h
  | grouping hl _ hr ih =>
    rw [relabelTokens, List.map_cons, List.map_append]
    exact .grouping hl ih hr
  | super hk hd hm => exact .super hk hd hm

theorem DerivesOption.relabel {o : Option Expr} (h : DerivesOption ts o) :
    DerivesOption (relabelTokens ρ ts) (Expr.relabelOpt ρ o) := by
  cases h with
  | none => exact .none
  | some h => exact .some (h.relabel ρ)

theorem Parameters.relabel {ps : List Token} (h : Parameters ts ps) :
    Parameters (relabelTokens ρ ts) (relabelTokens ρ ps) := by
  induction h with
  | one h => exact .one h
  | cons h hc _ ih => exact .cons h hc ih

theorem ParameterClause.relabel {ps : List Token} (h : ParameterClause ts ps) :
    ParameterClause (relabelTokens ρ ts) (relabelTokens ρ ps) := by
  cases h with
  | none => exact .none
  | some h hn => exact .some (h.relabel ρ) (by rwa [List.length_map])

theorem SuperclassClause.relabel {o : Option Expr} (h : SuperclassClause ts o) :
    SuperclassClause (relabelTokens ρ ts) (Expr.relabelOpt ρ o) := by
  cases h with
  | none => exact .none
  | some hl hn => exact .some hl hn

theorem VarDeclaration.relabel {s : Stmt} (h : VarDeclaration ts s) :
    VarDeclaration (relabelTokens ρ ts) (s.relabel ρ) := by
  cases h with
  | bare hw hn hs => exact .bare hw hn hs
  | initialized hw hn he hv hs =>
    simp only [relabelTokens, List.map_cons, List.map_append]
    exact .initialized hw hn he (hv.relabel ρ) hs

theorem ExpressionStatement.relabel {s : Stmt} (h : ExpressionStatement ts s) :
    ExpressionStatement (relabelTokens ρ ts) (s.relabel ρ) := by
  cases h with
  | mk hv hs =>
    rw [relabelTokens, List.map_append]
    exact .mk (hv.relabel ρ) hs

theorem ForInitializer.relabel {o : Option Stmt} (h : ForInitializer ts o) :
    ForInitializer (relabelTokens ρ ts) (o.map (Stmt.relabel ρ)) := by
  cases h with
  | none hs => exact .none hs
  | var h => exact .var (h.relabel ρ)
  | expression h => exact .expression (h.relabel ρ)

theorem withIncrement_relabel (body : Stmt) (increment : Option Expr) :
    (withIncrement body increment).relabel ρ
      = withIncrement (body.relabel ρ) (Expr.relabelOpt ρ increment) := by
  cases increment <;> rfl

theorem withInitializer_relabel (loop : Stmt) (initializer : Option Stmt) :
    (withInitializer loop initializer).relabel ρ
      = withInitializer (loop.relabel ρ) (initializer.map (Stmt.relabel ρ)) := by
  cases initializer <;> rfl

/-- The tree of a clause with other lines. -/
def Clause.relabel : (c : Clause) → c.Tree → c.Tree
  | .declaration, s | .statement _, s => s.relabel ρ
  | .function, f => f.relabel ρ
  | .block, ss | .declarations, ss => Stmt.relabelAll ρ ss
  | .methods, fs => FunctionDecl.relabelAll ρ fs

/-- Tokens on other lines have the tree with those lines. -/
theorem Forms.relabel {c : Clause} {x : c.Tree} (h : Forms c ts x) :
    Forms c (relabelTokens ρ ts) (c.relabel ρ x) := by
  induction h with
  | classDecl hw hn hs hl _ hr ih =>
    simp only [relabelTokens, List.map_cons, List.map_append]
    exact .classDecl hw hn (hs.relabel ρ) hl ih hr
  | funDecl hw _ ih => exact .funDecl hw ih
  | varDecl h => exact .varDecl (h.relabel ρ)
  | statement _ ih => exact .statement ih
  | function hn hl hp hr _ ih =>
    simp only [relabelTokens, List.map_cons, List.map_append]
    exact .function hn hl (hp.relabel ρ) hr ih
  | block hl _ hr ih =>
    simp only [relabelTokens, List.map_cons, List.map_append]
    exact .block hl ih hr
  | declarationsNil => exact .declarationsNil
  | declarationsCons _ _ ih ihs =>
    rw [relabelTokens, List.map_append]
    exact .declarationsCons ih ihs
  | methodsNil => exact .methodsNil
  | methodsCons _ _ ih ihs =>
    rw [relabelTokens, List.map_append]
    exact .methodsCons ih ihs
  | expression h => exact .expression (h.relabel ρ)
  | print hw hv hs =>
    simp only [relabelTokens, List.map_cons, List.map_append]
    exact .print hw (hv.relabel ρ) hs
  | ret hw hv hs =>
    simp only [relabelTokens, List.map_cons, List.map_append]
    exact .ret hw (hv.relabel ρ) hs
  | blockStatement _ ih => exact .blockStatement ih
  | loop hw hl hc hr _ ih =>
    simp only [relabelTokens, List.map_cons, List.map_append]
    exact .loop hw hl (hc.relabel ρ) hr ih
  | ifThen hw hl hc hr _ ih =>
    simp only [relabelTokens, List.map_cons, List.map_append]
    exact .ifThen hw hl (hc.relabel ρ) hr ih
  | ifElse hw hl hc hr _ he _ iht ihe =>
    simp only [relabelTokens, List.map_cons, List.map_append]
    exact .ifElse hw hl (hc.relabel ρ) hr iht he ihe
  | @forLoop _ _ _ _ _ _ _ _ _ condition _ _ _ hw hl hi hc hs hn hr _ ih =>
    have hcondition : (condition.getD (.literal .true)).relabel ρ
        = (Expr.relabelOpt ρ condition).getD (.literal .true) := by
      cases condition <;> rfl
    simp only [relabelTokens, List.map_cons, List.map_append]
    show Forms (.statement _) _ ((withInitializer _ _).relabel ρ)
    rw [withInitializer_relabel, Stmt.relabel, withIncrement_relabel, hcondition]
    exact .forLoop hw hl (hi.relabel ρ) (hc.relabel ρ) hs (hn.relabel ρ) hr ih

end Relabel

/-! ## Side by side -/

theorem Forms.append {ts : List Token} {ss' : List Stmt} (h' : Forms .declarations ts ss') :
    ∀ {us : List Token} {ss : List Stmt}, Forms .declarations us ss →
      Forms .declarations (us ++ ts) (ss ++ ss')
  | _, _, .declarationsNil => h'
  | _, _, .declarationsCons h hs => by
    rw [List.append_assoc]
    exact .declarationsCons h (Forms.append h' hs)

/-- A program that begins with a declaration goes on after it, if no `else` follows there. -/
theorem Forms.after_declaration {us ts : List Token} {s : Stmt} {program : List Stmt}
    (h : Forms .declaration us s) (hts : NoElse ts)
    (h' : Forms .declarations (us ++ ts) program) :
    ∃ rest, program = s :: rest ∧ Forms .declarations ts rest := by
  -- the parser reads the declaration first, and finds the same program
  have hread : Reads (Grammar.program (depthFor (us ++ ts))) (us ++ ts) program [] :=
    ((Forms.completes h').1 _).resolve_left (program_depthFor _)
  obtain ⟨t, us, rfl, -⟩ := h.declaration_head
  cases hd : depthFor (t :: us ++ ts) with
  | zero =>
    rw [hd] at hread
    exact absurd hread not_reads_exhausted
  | succ d =>
    rw [hd, Grammar.program, reads_bind] at hread
    obtain ⟨o, mid, ho, hread⟩ := hread
    obtain ⟨rfl, rfl⟩ := reads_peek.1 ho
    simp only [List.cons_append, List.head?_cons] at hread
    obtain ⟨first, mid, hfirst, hread⟩ := reads_bind.1 hread
    obtain ⟨others, mid', hothers, hread⟩ := reads_bind.1 hread
    obtain ⟨rfl, rfl⟩ := reads_pure.1 hread
    have hs := (Forms.Completes.declaration h.completes hts d).resolve_left fun he => by
      unfold Reads at hfirst
      rw [List.cons_append, hfirst] at he
      cases he
    unfold Reads at hfirst
    rw [List.cons_append, hfirst] at hs
    cases hs
    exact ⟨others, rfl, (program_sound d hothers).2⟩

/-- A program that begins with another one is that program and a rest, if the rest does not begin
with an `else`. -/
theorem Forms.split {ts : List Token} (hts : NoElse ts) : ∀ {us : List Token}
    {ss program : List Stmt}, Forms .declarations us ss → Forms .declarations (us ++ ts) program →
      ∃ rest, program = ss ++ rest ∧ Forms .declarations ts rest
  | _, _, program, .declarationsNil, h' => ⟨program, rfl, h'⟩
  | _, _, program, .declarationsCons h hs, h' => by
    rw [List.append_assoc] at h'
    obtain ⟨others, rfl, hothers⟩ := h.after_declaration (hs.declarations_noElse hts) h'
    obtain ⟨rest, rfl, hrest⟩ := Forms.split hts hs hothers
    exact ⟨rest, rfl, hrest⟩

end Lox.Grammar
