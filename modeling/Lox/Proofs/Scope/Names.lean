import Lox.Proofs.Grammar.Derivation
import Lox.Proofs.Scope.Resolved

/-!
# The names of a program

The slots of a parsed program are those of tokens of its source, and filling them does not change
for which tokens they are.
-/

set_option autoImplicit false

namespace Lox

/-! ## Parsing -/

namespace Grammar

/-- The slots of a phrase's tree. -/
def Phrase.references : (p : Phrase) → p.Tree → List Reference
  | .arguments, es => Expr.referencesAll es
  | .expression, e | .level _, e | .operand _, e | .unary, e | .call, e | .primary, e =>
    e.references

/-- The tokens that have slots. -/
def IsName (t : Token) : Prop :=
  t.kind = .identifier ∨ t.kind = .keyword .thisWord ∨ t.kind = .keyword .superWord

/-- Every slot is that of a token. -/
def Named (ts : List Token) (references : List Reference) : Prop :=
  ∀ r ∈ references, r.token ∈ ts ∧ IsName r.token

variable {us ts : List Token} {rs rs' : List Reference}

theorem Named.nil : Named ts [] :=
  nofun

theorem Named.mono (h : Named us rs) (hts : ∀ t ∈ us, t ∈ ts) : Named ts rs :=
  fun r hr => ⟨hts _ (h r hr).1, (h r hr).2⟩

theorem Named.append (h : Named ts rs) (h' : Named ts rs') : Named ts (rs ++ rs') := by
  intro r hr
  rcases List.mem_append.1 hr with hr | hr
  · exact h r hr
  · exact h' r hr

theorem Named.cons {r : Reference} (hr : r.token ∈ ts) (hn : IsName r.token) (h : Named ts rs) :
    Named ts (r :: rs) :=
  List.forall_mem_cons.2 ⟨⟨hr, hn⟩, h⟩

theorem Named.left (h : Named us rs) : Named (us ++ ts) rs :=
  h.mono fun _ => List.mem_append_left _

theorem Named.right (h : Named ts rs) : Named (us ++ ts) rs :=
  h.mono fun _ => List.mem_append_right _

theorem Named.after (h : Named ts rs) (t : Token) : Named (t :: ts) rs :=
  h.mono fun _ => List.mem_cons_of_mem _

theorem Derives.named {p : Phrase} {e : p.Tree} (h : Derives p ts e) :
    Named ts (p.references e) := by
  induction h with
  | assign hn _ _ ih => exact .cons (List.mem_cons_self ..) (.inl hn) ((ih.after _).after _)
  | set _ _ _ _ _ iho ihv => exact .append iho.left (((ihv.after _).after _).after _).right
  | disjunction _ ih | single _ ih | orOperand _ ih | andOperand _ ih | equalityOperand _ ih
  | comparisonOperand _ ih | termOperand _ ih | factorOperand _ ih | unaryCall _ ih
  | callPrimary _ ih => exact ih
  | logical _ _ _ _ ihl ihr | binary _ _ _ _ ihl ihr => exact .append ihl.left (ihr.after _).right
  | unary _ _ ih => exact ih.after _
  | callEmpty _ _ _ ih => exact .append ih.left .nil
  | call _ _ _ _ _ ih iha => exact .append ih.left (iha.left.after _).right
  | get _ _ _ ih => exact ih.left
  | argument _ ih => exact .append ih .nil
  | argumentCons _ _ _ ih ihs => exact .append ih.left (ihs.after _).right
  | number | string | true | false | nil => exact .nil
  | this h => exact .cons (List.mem_singleton_self _) (.inr (.inl h)) .nil
  | identifier h => exact .cons (List.mem_singleton_self _) (.inl h) .nil
  | grouping _ _ _ ih => exact ih.left.after _
  | super hk => exact .cons (List.mem_cons_self ..) (.inr (.inr hk)) .nil

theorem Derives.expression_named {e : Expr} (h : Derives .expression ts e) :
    Named ts e.references :=
  h.named

theorem DerivesOption.named {o : Option Expr} (h : DerivesOption ts o) :
    Named ts (Expr.referencesOpt o) := by
  cases h with
  | none => exact .nil
  | some h => exact h.expression_named

theorem VarDeclaration.named {s : Stmt} (h : VarDeclaration ts s) : Named ts s.references := by
  cases h with
  | bare => exact .nil
  | initialized _ _ _ hv => exact ((hv.expression_named.left.after _).after _).after _

theorem ExpressionStatement.named {s : Stmt} (h : ExpressionStatement ts s) :
    Named ts s.references := by
  cases h with
  | mk hv => exact hv.expression_named.left

/-- The slots of a clause's tree. -/
def Clause.references : (c : Clause) → c.Tree → List Reference
  | .declaration, s | .statement _, s => s.references
  | .function, f => f.references
  | .block, ss | .declarations, ss => Stmt.referencesAll ss
  | .methods, fs => FunctionDecl.referencesAll fs

theorem withIncrement_references (body : Stmt) (increment : Option Expr) :
    (withIncrement body increment).references
      = body.references ++ Expr.referencesOpt increment := by
  cases increment with
  | none => simp [withIncrement, Expr.referencesOpt]
  | some e => simp [withIncrement, Stmt.references, Stmt.referencesAll, Expr.referencesOpt]

theorem withInitializer_references (loop : Stmt) (initializer : Option Stmt) :
    (withInitializer loop initializer).references
      = (initializer.map Stmt.references).getD [] ++ loop.references := by
  cases initializer with
  | none => rfl
  | some s => simp [withInitializer, Stmt.references, Stmt.referencesAll]

theorem ForInitializer.named {o : Option Stmt} (h : ForInitializer ts o) :
    Named ts ((o.map Stmt.references).getD []) := by
  cases h with
  | none => exact .nil
  | var h => exact h.named
  | expression h => exact h.named

theorem Forms.named {c : Clause} {x : c.Tree} (h : Forms c ts x) :
    Named ts (c.references x) := by
  induction h with
  | classDecl _ _ hs _ _ _ ih =>
    refine .append ?_ (((ih.left.after _).right.after _).after _)
    cases hs with
    | none => exact .nil
    | some _ hn => exact .cons (by simp) (.inl hn) .nil
  | funDecl _ _ ih => exact ih.after _
  | varDecl h => exact h.named
  | statement _ ih => exact ih
  | function _ _ _ _ _ ih => exact (((ih.after _).right).after _).after _
  | block _ _ _ ih => exact ih.left.after _
  | declarationsNil | methodsNil => exact .nil
  | declarationsCons _ _ ih ihs | methodsCons _ _ ih ihs => exact .append ih.left ihs.right
  | expression h => exact h.named
  | print _ hv => exact hv.expression_named.left.after _
  | ret _ hv => exact hv.named.left.after _
  | blockStatement _ ih => exact ih
  | loop _ _ hc _ _ ih | ifThen _ _ hc _ _ ih =>
    refine .append ((hc.expression_named.left.after _).after _) ?_
    exact ((ih.after _).right.after _).after _
  | ifElse _ _ hc _ _ _ _ iht ihe =>
    refine .append (.append ((hc.expression_named.left.after _).after _) ?_) ?_
    · exact ((iht.left.after _).right.after _).after _
    · exact ((((ihe.after _).right.after _).right).after _).after _
  | @forLoop _ _ _ _ _ vs _ _ initializer condition increment _ _ _ _ hi hc _ hn _ _ ih =>
    have hcondition : Named vs (condition.getD (.literal .true)).references := by
      cases condition with
      | none => exact .nil
      | some e => exact hc.named
    show Named _ (withInitializer _ initializer).references
    rw [withInitializer_references]
    refine .append ((hi.named.left.after _).after _) ?_
    rw [Stmt.references, withIncrement_references]
    refine .append (((hcondition.left.right).after _).after _) (.append ?_ ?_)
    · exact (((((ih.after _).right).after _).right.right).after _).after _
    · exact ((((hn.named.left).after _).right.right).after _).after _

end Grammar

/-! ## Filling slots -/

/-- The tokens whose slots these are. -/
def tokensOf (references : List Reference) : List Token :=
  references.map (·.token)

theorem tokensOf_append (rs rs' : List Reference) :
    tokensOf (rs ++ rs') = tokensOf rs ++ tokensOf rs' :=
  List.map_append

mutual

theorem Expr.resolve_tokens (s : Scopes) (c : ClassContext) : ∀ e : Expr,
    tokensOf (e.resolve s c).value.references = tokensOf e.references
  | .literal _ => rfl
  | .grouping inner => Expr.resolve_tokens s c inner
  | .unary operator right => Expr.resolve_tokens s c right
  | .binary left operator right | .logical left operator right => by
    simp only [Expr.resolve, Checked.value_bind, Checked.value_pure, Expr.references,
      tokensOf_append, Expr.resolve_tokens s c left, Expr.resolve_tokens s c right]
  | .variable name depth => rfl
  | .assign name value depth =>
    congrArg (name :: ·) (Expr.resolve_tokens s c value)
  | .call callee paren arguments => by
    simp only [Expr.resolve, Checked.value_bind, Checked.value_pure, Expr.references,
      tokensOf_append, Expr.resolve_tokens s c callee, Expr.resolveAll_tokens s c arguments]
  | .get object name => Expr.resolve_tokens s c object
  | .set object name value => by
    simp only [Expr.resolve, Checked.value_bind, Checked.value_pure, Expr.references,
      tokensOf_append, Expr.resolve_tokens s c object, Expr.resolve_tokens s c value]
  | .this keyword depth => by cases c <;> rfl
  | .super keyword method depth => by cases c <;> rfl

theorem Expr.resolveAll_tokens (s : Scopes) (c : ClassContext) : ∀ es : List Expr,
    tokensOf (Expr.referencesAll (Expr.resolveAll s c es).value)
      = tokensOf (Expr.referencesAll es)
  | [] => rfl
  | e :: es => by
    simp only [Expr.resolveAll, Checked.value_bind, Checked.value_pure, Expr.referencesAll,
      tokensOf_append, Expr.resolve_tokens s c e, Expr.resolveAll_tokens s c es]

end

theorem Expr.resolveOpt_tokens (s : Scopes) (c : ClassContext) (o : Option Expr) :
    tokensOf (Expr.referencesOpt (Expr.resolveOpt s c o).value)
      = tokensOf (Expr.referencesOpt o) := by
  cases o with
  | none => rfl
  | some e => exact Expr.resolve_tokens s c e

mutual

theorem Stmt.resolve_tokens : ∀ (x : Stmt) (c : Context) (s : Scopes),
    tokensOf (x.resolve c s).value.1.references = tokensOf x.references
  | .expression value, c, s | .print _ value, c, s => Expr.resolve_tokens s _ value
  | .var name initializer, c, s => Expr.resolveOpt_tokens _ _ initializer
  | .block body, c, s => Stmt.resolveAll_tokens body c _
  | .conditional condition thenBranch none, c, s => by
    simp only [Stmt.resolve, Checked.value_bind, Checked.value_pure, Stmt.references,
      tokensOf_append, Expr.resolve_tokens, Stmt.resolve_tokens thenBranch]
  | .conditional condition thenBranch (some elseBranch), c, s => by
    simp only [Stmt.resolve, Checked.value_bind, Checked.value_pure, Stmt.references,
      tokensOf_append, Expr.resolve_tokens, Stmt.resolve_tokens thenBranch,
      Stmt.resolve_tokens elseBranch]
  | .loop condition body, c, s => by
    simp only [Stmt.resolve, Checked.value_bind, Checked.value_pure, Stmt.references,
      tokensOf_append, Expr.resolve_tokens, Stmt.resolve_tokens body]
  | .function decl, c, s => FunctionDecl.resolve_tokens decl c _
  | .ret keyword value, c, s => by
    by_cases h : c.insideFunction = true <;>
      simp only [Stmt.resolve, h, Bool.false_eq_true, not_true_eq_false, not_false_eq_true,
        if_true, if_false, Checked.value_bind, Checked.value_pure, Stmt.references,
        Expr.resolveOpt_tokens]
  | .classDecl name none methods, c, s => FunctionDecl.resolveAll_tokens methods _ _
  | .classDecl name (some superclass) methods, c, s => by
    simp only [Stmt.resolve, Checked.value_bind, Checked.value_pure, Stmt.references,
      Expr.referencesOpt, tokensOf_append, Expr.resolve_tokens,
      FunctionDecl.resolveAll_tokens methods]

theorem FunctionDecl.resolve_tokens : ∀ (f : FunctionDecl) (c : Context) (s : Scopes),
    tokensOf (f.resolve c s).value.references = tokensOf f.references
  | ⟨_, _, body⟩, _, _ => Stmt.resolveAll_tokens body _ _

theorem Stmt.resolveAll_tokens : ∀ (xs : List Stmt) (c : Context) (s : Scopes),
    tokensOf (Stmt.referencesAll (Stmt.resolveAll c s xs).value.1)
      = tokensOf (Stmt.referencesAll xs)
  | [], _, _ => rfl
  | x :: xs, c, s => by
    simp only [Stmt.resolveAll, Checked.value_bind, Checked.value_pure, Stmt.referencesAll,
      tokensOf_append, Stmt.resolve_tokens x, Stmt.resolveAll_tokens xs]

theorem FunctionDecl.resolveAll_tokens : ∀ (fs : List FunctionDecl) (c : Context) (s : Scopes),
    tokensOf (FunctionDecl.referencesAll (FunctionDecl.resolveAll c s fs).value)
      = tokensOf (FunctionDecl.referencesAll fs)
  | [], _, _ => rfl
  | f :: fs, c, s => by
    simp only [FunctionDecl.resolveAll, Checked.value_bind, Checked.value_pure,
      FunctionDecl.referencesAll, tokensOf_append, FunctionDecl.resolve_tokens f,
      FunctionDecl.resolveAll_tokens fs]

end

end Lox
