import Lox.Run.Value

/-!
# Other line numbers

A map on line numbers acts on tokens, trees and errors. It leaves everything but the lines as it is,
so it changes nothing that a program does apart from the line of its runtime error.
-/

set_option autoImplicit false

namespace Lox

variable (ρ σ : Nat → Nat)

/-- The token at another line. -/
def Token.relabel (t : Token) : Token :=
  { t with line := ρ t.line }

/-- The error at another line. -/
def RuntimeError.relabel (e : RuntimeError) : RuntimeError :=
  { e with line := ρ e.line }

mutual

/-- The expression with other lines. -/
def Expr.relabel : Expr → Expr
  | .literal value => .literal value
  | .grouping inner => .grouping inner.relabel
  | .unary operator right => .unary (operator.relabel ρ) right.relabel
  | .binary left operator right => .binary left.relabel (operator.relabel ρ) right.relabel
  | .logical left operator right => .logical left.relabel (operator.relabel ρ) right.relabel
  | .variable name depth => .variable (name.relabel ρ) depth
  | .assign name value depth => .assign (name.relabel ρ) value.relabel depth
  | .call callee paren arguments =>
    .call callee.relabel (paren.relabel ρ) (Expr.relabelAll arguments)
  | .get object name => .get object.relabel (name.relabel ρ)
  | .set object name value => .set object.relabel (name.relabel ρ) value.relabel
  | .this keyword depth => .this (keyword.relabel ρ) depth
  | .super keyword method depth => .super (keyword.relabel ρ) (method.relabel ρ) depth

def Expr.relabelAll : List Expr → List Expr
  | [] => []
  | e :: es => e.relabel :: Expr.relabelAll es

end

/-- An expression that may be absent. -/
def Expr.relabelOpt : Option Expr → Option Expr
  | none => none
  | some e => some (e.relabel ρ)

mutual

/-- The statement with other lines. -/
def Stmt.relabel : Stmt → Stmt
  | .expression value => .expression (value.relabel ρ)
  | .print keyword value => .print (keyword.relabel ρ) (value.relabel ρ)
  | .var name initializer => .var (name.relabel ρ) (Expr.relabelOpt ρ initializer)
  | .block body => .block (Stmt.relabelAll body)
  | .conditional condition thenBranch none =>
    .conditional (condition.relabel ρ) thenBranch.relabel none
  | .conditional condition thenBranch (some elseBranch) =>
    .conditional (condition.relabel ρ) thenBranch.relabel (some elseBranch.relabel)
  | .loop condition body => .loop (condition.relabel ρ) body.relabel
  | .function decl => .function decl.relabel
  | .ret keyword value => .ret (keyword.relabel ρ) (Expr.relabelOpt ρ value)
  | .classDecl name superclass methods =>
    .classDecl (name.relabel ρ) (Expr.relabelOpt ρ superclass) (FunctionDecl.relabelAll methods)

/-- The function with other lines. -/
def FunctionDecl.relabel : FunctionDecl → FunctionDecl
  | ⟨name, params, body⟩ =>
    ⟨name.relabel ρ, params.map (Token.relabel ρ), Stmt.relabelAll body⟩

def Stmt.relabelAll : List Stmt → List Stmt
  | [] => []
  | s :: ss => s.relabel :: Stmt.relabelAll ss

def FunctionDecl.relabelAll : List FunctionDecl → List FunctionDecl
  | [] => []
  | f :: fs => f.relabel :: FunctionDecl.relabelAll fs

end

/-! ## What stays -/

@[simp] theorem Token.relabel_kind (t : Token) : (t.relabel ρ).kind = t.kind := rfl

@[simp] theorem Token.relabel_lexeme (t : Token) : (t.relabel ρ).lexeme = t.lexeme := rfl

@[simp] theorem Token.relabel_line (t : Token) : (t.relabel ρ).line = ρ t.line := rfl

@[simp] theorem FunctionDecl.relabel_name (f : FunctionDecl) :
    (f.relabel ρ).name = f.name.relabel ρ := by
  cases f
  rfl

@[simp] theorem FunctionDecl.relabel_params (f : FunctionDecl) :
    (f.relabel ρ).params = f.params.map (Token.relabel ρ) := by
  cases f
  rfl

@[simp] theorem FunctionDecl.relabel_body (f : FunctionDecl) :
    (f.relabel ρ).body = Stmt.relabelAll ρ f.body := by
  cases f
  rfl

theorem map_relabel_lexeme (ts : List Token) :
    (ts.map (Token.relabel ρ)).map (·.lexeme) = ts.map (·.lexeme) := by
  rw [List.map_map]
  rfl

theorem Expr.relabelAll_eq_map (es : List Expr) :
    Expr.relabelAll ρ es = es.map (Expr.relabel ρ) := by
  induction es with
  | nil => rfl
  | cons e es ih => rw [Expr.relabelAll, ih, List.map_cons]

theorem FunctionDecl.relabelAll_eq_map (fs : List FunctionDecl) :
    FunctionDecl.relabelAll ρ fs = fs.map (FunctionDecl.relabel ρ) := by
  induction fs with
  | nil => rfl
  | cons f fs ih => rw [FunctionDecl.relabelAll, ih, List.map_cons]

/-! ## One map after another, and no map at all -/

theorem Token.relabel_relabel (t : Token) : (t.relabel ρ).relabel σ = t.relabel (σ ∘ ρ) := rfl

theorem Token.map_relabel_relabel (ts : List Token) :
    (ts.map (Token.relabel ρ)).map (Token.relabel σ) = ts.map (Token.relabel (σ ∘ ρ)) :=
  List.map_map

mutual

theorem Expr.relabel_relabel : ∀ e : Expr, (e.relabel ρ).relabel σ = e.relabel (σ ∘ ρ)
  | .literal _ => rfl
  | .grouping inner => by
    simp only [Expr.relabel, Expr.relabel_relabel inner]
  | .unary operator right => by
    simp only [Expr.relabel, Token.relabel_relabel, Expr.relabel_relabel right]
  | .binary left operator right => by
    simp only [Expr.relabel, Token.relabel_relabel, Expr.relabel_relabel left,
      Expr.relabel_relabel right]
  | .logical left operator right => by
    simp only [Expr.relabel, Token.relabel_relabel, Expr.relabel_relabel left,
      Expr.relabel_relabel right]
  | .variable name depth => by
    simp only [Expr.relabel, Token.relabel_relabel]
  | .assign name value depth => by
    simp only [Expr.relabel, Token.relabel_relabel, Expr.relabel_relabel value]
  | .call callee paren arguments => by
    simp only [Expr.relabel, Token.relabel_relabel, Expr.relabel_relabel callee,
      Expr.relabelAll_relabelAll arguments]
  | .get object name => by
    simp only [Expr.relabel, Token.relabel_relabel, Expr.relabel_relabel object]
  | .set object name value => by
    simp only [Expr.relabel, Token.relabel_relabel, Expr.relabel_relabel object,
      Expr.relabel_relabel value]
  | .this keyword depth => by
    simp only [Expr.relabel, Token.relabel_relabel]
  | .super keyword method depth => by
    simp only [Expr.relabel, Token.relabel_relabel]

theorem Expr.relabelAll_relabelAll :
    ∀ es : List Expr, Expr.relabelAll σ (Expr.relabelAll ρ es) = Expr.relabelAll (σ ∘ ρ) es
  | [] => rfl
  | e :: es => by
    simp only [Expr.relabelAll, Expr.relabel_relabel e, Expr.relabelAll_relabelAll es]

end

theorem Expr.relabelOpt_relabelOpt (o : Option Expr) :
    Expr.relabelOpt σ (Expr.relabelOpt ρ o) = Expr.relabelOpt (σ ∘ ρ) o := by
  cases o with
  | none => rfl
  | some e => simp only [Expr.relabelOpt, Expr.relabel_relabel]

mutual

theorem Stmt.relabel_relabel : ∀ s : Stmt, (s.relabel ρ).relabel σ = s.relabel (σ ∘ ρ)
  | .expression value => by
    simp only [Stmt.relabel, Expr.relabel_relabel]
  | .print keyword value => by
    simp only [Stmt.relabel, Token.relabel_relabel, Expr.relabel_relabel]
  | .var name initializer => by
    simp only [Stmt.relabel, Token.relabel_relabel, Expr.relabelOpt_relabelOpt]
  | .block body => by
    simp only [Stmt.relabel, Stmt.relabelAll_relabelAll body]
  | .conditional condition thenBranch none => by
    simp only [Stmt.relabel, Expr.relabel_relabel, Stmt.relabel_relabel thenBranch]
  | .conditional condition thenBranch (some elseBranch) => by
    simp only [Stmt.relabel, Expr.relabel_relabel, Stmt.relabel_relabel thenBranch,
      Stmt.relabel_relabel elseBranch]
  | .loop condition body => by
    simp only [Stmt.relabel, Expr.relabel_relabel, Stmt.relabel_relabel body]
  | .function decl => by
    simp only [Stmt.relabel, FunctionDecl.relabel_relabel decl]
  | .ret keyword value => by
    simp only [Stmt.relabel, Token.relabel_relabel, Expr.relabelOpt_relabelOpt]
  | .classDecl name superclass methods => by
    simp only [Stmt.relabel, Token.relabel_relabel, Expr.relabelOpt_relabelOpt,
      FunctionDecl.relabelAll_relabelAll methods]

theorem FunctionDecl.relabel_relabel :
    ∀ f : FunctionDecl, (f.relabel ρ).relabel σ = f.relabel (σ ∘ ρ)
  | ⟨name, params, body⟩ => by
    simp only [FunctionDecl.relabel, Token.relabel_relabel, Token.map_relabel_relabel,
      Stmt.relabelAll_relabelAll body]

theorem Stmt.relabelAll_relabelAll :
    ∀ ss : List Stmt, Stmt.relabelAll σ (Stmt.relabelAll ρ ss) = Stmt.relabelAll (σ ∘ ρ) ss
  | [] => rfl
  | s :: ss => by
    simp only [Stmt.relabelAll, Stmt.relabel_relabel s, Stmt.relabelAll_relabelAll ss]

theorem FunctionDecl.relabelAll_relabelAll : ∀ fs : List FunctionDecl,
    FunctionDecl.relabelAll σ (FunctionDecl.relabelAll ρ fs) = FunctionDecl.relabelAll (σ ∘ ρ) fs
  | [] => rfl
  | f :: fs => by
    simp only [FunctionDecl.relabelAll, FunctionDecl.relabel_relabel f,
      FunctionDecl.relabelAll_relabelAll fs]

end

@[simp] theorem Token.relabel_id (t : Token) : t.relabel id = t := rfl

@[simp] theorem Token.map_relabel_id (ts : List Token) : ts.map (Token.relabel id) = ts :=
  List.map_id ts

mutual

@[simp] theorem Expr.relabel_id : ∀ e : Expr, e.relabel id = e
  | .literal _ => rfl
  | .grouping inner => by simp only [Expr.relabel, Expr.relabel_id inner]
  | .unary operator right => by
    simp only [Expr.relabel, Token.relabel_id, Expr.relabel_id right]
  | .binary left operator right => by
    simp only [Expr.relabel, Token.relabel_id, Expr.relabel_id left, Expr.relabel_id right]
  | .logical left operator right => by
    simp only [Expr.relabel, Token.relabel_id, Expr.relabel_id left, Expr.relabel_id right]
  | .variable name depth => rfl
  | .assign name value depth => by
    simp only [Expr.relabel, Token.relabel_id, Expr.relabel_id value]
  | .call callee paren arguments => by
    simp only [Expr.relabel, Token.relabel_id, Expr.relabel_id callee,
      Expr.relabelAll_id arguments]
  | .get object name => by simp only [Expr.relabel, Token.relabel_id, Expr.relabel_id object]
  | .set object name value => by
    simp only [Expr.relabel, Token.relabel_id, Expr.relabel_id object, Expr.relabel_id value]
  | .this keyword depth => rfl
  | .super keyword method depth => rfl

theorem Expr.relabelAll_id : ∀ es : List Expr, Expr.relabelAll id es = es
  | [] => rfl
  | e :: es => by simp only [Expr.relabelAll, Expr.relabel_id e, Expr.relabelAll_id es]

end

@[simp] theorem Expr.relabelOpt_id (o : Option Expr) : Expr.relabelOpt id o = o := by
  cases o with
  | none => rfl
  | some e => simp only [Expr.relabelOpt, Expr.relabel_id]

mutual

@[simp] theorem Stmt.relabel_id : ∀ s : Stmt, s.relabel id = s
  | .expression value => by simp only [Stmt.relabel, Expr.relabel_id]
  | .print keyword value => by simp only [Stmt.relabel, Token.relabel_id, Expr.relabel_id]
  | .var name initializer => by simp only [Stmt.relabel, Token.relabel_id, Expr.relabelOpt_id]
  | .block body => by simp only [Stmt.relabel, Stmt.relabelAll_id body]
  | .conditional condition thenBranch none => by
    simp only [Stmt.relabel, Expr.relabel_id, Stmt.relabel_id thenBranch]
  | .conditional condition thenBranch (some elseBranch) => by
    simp only [Stmt.relabel, Expr.relabel_id, Stmt.relabel_id thenBranch,
      Stmt.relabel_id elseBranch]
  | .loop condition body => by
    simp only [Stmt.relabel, Expr.relabel_id, Stmt.relabel_id body]
  | .function decl => by simp only [Stmt.relabel, FunctionDecl.relabel_id decl]
  | .ret keyword value => by simp only [Stmt.relabel, Token.relabel_id, Expr.relabelOpt_id]
  | .classDecl name superclass methods => by
    simp only [Stmt.relabel, Token.relabel_id, Expr.relabelOpt_id,
      FunctionDecl.relabelAll_id methods]

@[simp] theorem FunctionDecl.relabel_id : ∀ f : FunctionDecl, f.relabel id = f
  | ⟨name, params, body⟩ => by
    simp only [FunctionDecl.relabel, Token.relabel_id, Token.map_relabel_id,
      Stmt.relabelAll_id body]

@[simp] theorem Stmt.relabelAll_id : ∀ ss : List Stmt, Stmt.relabelAll id ss = ss
  | [] => rfl
  | s :: ss => by simp only [Stmt.relabelAll, Stmt.relabel_id s, Stmt.relabelAll_id ss]

theorem FunctionDecl.relabelAll_id :
    ∀ fs : List FunctionDecl, FunctionDecl.relabelAll id fs = fs
  | [] => rfl
  | f :: fs => by
    simp only [FunctionDecl.relabelAll, FunctionDecl.relabel_id f, FunctionDecl.relabelAll_id fs]

end

end Lox
