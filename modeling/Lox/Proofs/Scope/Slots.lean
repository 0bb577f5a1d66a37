import Lox.Proofs.Scope.Resolved

/-!
# Filled and empty slots

Filling slots changes nothing else in a program: with its slots empty again, what `resolve` gives is
what it was given (`resolve_bare`).
-/

set_option autoImplicit false

namespace Lox

/-! ## Trees with empty slots -/

mutual

/-- The expression with its slots empty. -/
def Expr.bare : Expr → Expr
  | .literal value => .literal value
  | .grouping inner => .grouping inner.bare
  | .unary operator right => .unary operator right.bare
  | .binary left operator right => .binary left.bare operator right.bare
  | .logical left operator right => .logical left.bare operator right.bare
  | .variable name _ => .variable name none
  | .assign name value _ => .assign name value.bare none
  | .call callee paren arguments => .call callee.bare paren (Expr.bareAll arguments)
  | .get object name => .get object.bare name
  | .set object name value => .set object.bare name value.bare
  | .this keyword _ => .this keyword none
  | .super keyword method _ => .super keyword method none

def Expr.bareAll : List Expr → List Expr
  | [] => []
  | e :: es => e.bare :: Expr.bareAll es

end

/-- An expression that may be absent. -/
def Expr.bareOpt : Option Expr → Option Expr
  | none => none
  | some e => some e.bare

mutual

/-- The statement with its slots empty. -/
def Stmt.bare : Stmt → Stmt
  | .expression value => .expression value.bare
  | .print keyword value => .print keyword value.bare
  | .var name initializer => .var name (Expr.bareOpt initializer)
  | .block body => .block (Stmt.bareAll body)
  | .conditional condition thenBranch none => .conditional condition.bare thenBranch.bare none
  | .conditional condition thenBranch (some elseBranch) =>
    .conditional condition.bare thenBranch.bare (some elseBranch.bare)
  | .loop condition body => .loop condition.bare body.bare
  | .function decl => .function decl.bare
  | .ret keyword value => .ret keyword (Expr.bareOpt value)
  | .classDecl name superclass methods =>
    .classDecl name (Expr.bareOpt superclass) (FunctionDecl.bareAll methods)

/-- The function with its slots empty. -/
def FunctionDecl.bare : FunctionDecl → FunctionDecl
  | ⟨name, params, body⟩ => ⟨name, params, Stmt.bareAll body⟩

def Stmt.bareAll : List Stmt → List Stmt
  | [] => []
  | s :: ss => s.bare :: Stmt.bareAll ss

def FunctionDecl.bareAll : List FunctionDecl → List FunctionDecl
  | [] => []
  | f :: fs => f.bare :: FunctionDecl.bareAll fs

end

theorem FunctionDecl.bare_name (f : FunctionDecl) : f.bare.name = f.name := by
  cases f
  rfl

theorem FunctionDecl.bare_params (f : FunctionDecl) : f.bare.params = f.params := by
  cases f
  rfl

theorem FunctionDecl.bare_body (f : FunctionDecl) : f.bare.body = Stmt.bareAll f.body := by
  cases f
  rfl

theorem FunctionDecl.bareAll_eq_map (fs : List FunctionDecl) :
    FunctionDecl.bareAll fs = fs.map FunctionDecl.bare := by
  induction fs with
  | nil => rfl
  | cons f fs ih => rw [FunctionDecl.bareAll, ih, List.map_cons]

/-! ## Parsed trees -/

mutual

/-- The slots of a parsed tree are empty. -/
theorem Expr.Shaped.bare_eq : ∀ {e : Expr}, e.Shaped → e.bare = e
  | .literal _, _ => rfl
  | .grouping inner, h => by
    simp only [Expr.Shaped] at h
    rw [Expr.bare, h.bare_eq]
  | .unary _ right, h => by
    simp only [Expr.Shaped] at h
    rw [Expr.bare, h.2.bare_eq]
  | .binary left _ right, h => by
    simp only [Expr.Shaped] at h
    rw [Expr.bare, h.1.bare_eq, h.2.2.bare_eq]
  | .logical left _ right, h => by
    simp only [Expr.Shaped] at h
    rw [Expr.bare, h.1.bare_eq, h.2.2.bare_eq]
  | .variable _ _, h => by
    simp only [Expr.Shaped] at h
    rw [Expr.bare, h.2]
  | .assign _ value _, h => by
    simp only [Expr.Shaped] at h
    rw [Expr.bare, h.2.1.bare_eq, h.2.2]
  | .call callee _ arguments, h => by
    simp only [Expr.Shaped] at h
    rw [Expr.bare, h.1.bare_eq, h.2.bareAll_eq]
  | .get object _, h => by
    simp only [Expr.Shaped] at h
    rw [Expr.bare, h.bare_eq]
  | .set object _ value, h => by
    simp only [Expr.Shaped] at h
    rw [Expr.bare, h.1.bare_eq, h.2.bare_eq]
  | .this _ _, h => by
    simp only [Expr.Shaped] at h
    rw [Expr.bare, h.2]
  | .super _ _ _, h => by
    simp only [Expr.Shaped] at h
    rw [Expr.bare, h.2]

theorem Expr.AllShaped.bareAll_eq : ∀ {es : List Expr}, Expr.AllShaped es → Expr.bareAll es = es
  | [], _ => rfl
  | e :: es, h => by
    simp only [Expr.AllShaped] at h
    rw [Expr.bareAll, h.1.bare_eq, h.2.bareAll_eq]

end

theorem Expr.OptShaped.bareOpt_eq : ∀ {o : Option Expr}, Expr.OptShaped o → Expr.bareOpt o = o
  | none, _ => rfl
  | some _, h => congrArg some (Expr.Shaped.bare_eq h)

mutual

theorem Stmt.Shaped.bare_eq : ∀ {s : Stmt}, s.Shaped → s.bare = s
  | .expression value, h | .print _ value, h => by
    simp only [Stmt.Shaped] at h
    rw [Stmt.bare, h.bare_eq]
  | .var _ initializer, h => by
    simp only [Stmt.Shaped] at h
    rw [Stmt.bare, h.2.bareOpt_eq]
  | .block body, h => by
    simp only [Stmt.Shaped] at h
    rw [Stmt.bare, h.bareAll_eq]
  | .conditional condition thenBranch none, h => by
    simp only [Stmt.Shaped] at h
    rw [Stmt.bare, h.1.bare_eq, h.2.1.bare_eq]
  | .conditional condition thenBranch (some elseBranch), h => by
    simp only [Stmt.Shaped] at h
    rw [Stmt.bare, h.1.bare_eq, h.2.1.1.bare_eq, h.2.2.1.bare_eq]
  | .loop condition body, h => by
    simp only [Stmt.Shaped] at h
    rw [Stmt.bare, h.1.bare_eq, h.2.1.bare_eq]
  | .function decl, h => by
    simp only [Stmt.Shaped] at h
    rw [Stmt.bare, h.bare_eq]
  | .ret _ value, h => by
    simp only [Stmt.Shaped] at h
    rw [Stmt.bare, h.bareOpt_eq]
  | .classDecl _ none methods, h => by
    simp only [Stmt.Shaped] at h
    rw [Stmt.bare, h.2.bareAll_eq, Expr.bareOpt]
  | .classDecl _ (some superclass) methods, h => by
    simp only [Stmt.Shaped] at h
    obtain ⟨-, ⟨above, rfl, -⟩, hmethods⟩ := h
    rw [Stmt.bare, hmethods.bareAll_eq]
    rfl

theorem FunctionDecl.Shaped.bare_eq : ∀ {f : FunctionDecl}, f.Shaped → f.bare = f
  | ⟨_, _, body⟩, h => by
    simp only [FunctionDecl.Shaped] at h
    rw [FunctionDecl.bare, h.2.2.bareAll_eq]

theorem Stmt.AllShaped.bareAll_eq : ∀ {ss : List Stmt}, Stmt.AllShaped ss → Stmt.bareAll ss = ss
  | [], _ => rfl
  | s :: ss, h => by
    simp only [Stmt.AllShaped] at h
    rw [Stmt.bareAll, h.1.bare_eq, h.2.bareAll_eq]

theorem FunctionDecl.AllShaped.bareAll_eq : ∀ {fs : List FunctionDecl},
    FunctionDecl.AllShaped fs → FunctionDecl.bareAll fs = fs
  | [], _ => rfl
  | f :: fs, h => by
    simp only [FunctionDecl.AllShaped] at h
    rw [FunctionDecl.bareAll, h.1.bare_eq, h.2.bareAll_eq]

end

/-! ## Checked trees -/

mutual

theorem Expr.bare_resolve (s : Scopes) (c : ClassContext) : ∀ e : Expr,
    (e.resolve s c).value.bare = e.bare
  | .literal _ => by simp only [Expr.resolve, Checked.value_pure]
  | .grouping inner => by
    simp only [Expr.resolve, Checked.value_bind, Checked.value_pure, Expr.bare,
      Expr.bare_resolve s c inner]
  | .unary _ right => by
    simp only [Expr.resolve, Checked.value_bind, Checked.value_pure, Expr.bare,
      Expr.bare_resolve s c right]
  | .binary left _ right | .logical left _ right => by
    simp only [Expr.resolve, Checked.value_bind, Checked.value_pure, Expr.bare,
      Expr.bare_resolve s c left, Expr.bare_resolve s c right]
  | .variable _ _ => by
    simp only [Expr.resolve, Checked.value_bind, Checked.value_pure, Expr.bare]
  | .assign _ value _ => by
    simp only [Expr.resolve, Checked.value_bind, Checked.value_pure, Expr.bare,
      Expr.bare_resolve s c value]
  | .call callee _ arguments => by
    simp only [Expr.resolve, Checked.value_bind, Checked.value_pure, Expr.bare,
      Expr.bare_resolve s c callee, Expr.bareAll_resolve s c arguments]
  | .get object _ => by
    simp only [Expr.resolve, Checked.value_bind, Checked.value_pure, Expr.bare,
      Expr.bare_resolve s c object]
  | .set object _ value => by
    simp only [Expr.resolve, Checked.value_bind, Checked.value_pure, Expr.bare,
      Expr.bare_resolve s c object, Expr.bare_resolve s c value]
  | .this _ _ => by
    cases c <;> simp only [Expr.resolve, Checked.value_bind, Checked.value_pure, Expr.bare]
  | .super _ _ _ => by
    cases c <;> simp only [Expr.resolve, Checked.value_bind, Checked.value_pure, Expr.bare]

theorem Expr.bareAll_resolve (s : Scopes) (c : ClassContext) : ∀ es : List Expr,
    Expr.bareAll (Expr.resolveAll s c es).value = Expr.bareAll es
  | [] => rfl
  | e :: es => by
    simp only [Expr.resolveAll, Checked.value_bind, Checked.value_pure, Expr.bareAll,
      Expr.bare_resolve s c e, Expr.bareAll_resolve s c es]

end

theorem Expr.bareOpt_resolve (s : Scopes) (c : ClassContext) (o : Option Expr) :
    Expr.bareOpt (Expr.resolveOpt s c o).value = Expr.bareOpt o := by
  cases o with
  | none => rfl
  | some e => exact congrArg some (Expr.bare_resolve s c e)

mutual

theorem Stmt.bare_resolve : ∀ (x : Stmt) (c : Context) (s : Scopes),
    (x.resolve c s).value.1.bare = x.bare
  | .expression value, c, s | .print _ value, c, s => by
    simp only [Stmt.resolve, Checked.value_bind, Checked.value_pure, Stmt.bare, Expr.bare_resolve]
  | .var _ initializer, c, s => by
    simp only [Stmt.resolve, Checked.value_bind, Checked.value_pure, Stmt.bare,
      Expr.bareOpt_resolve]
  | .block body, c, s => by
    simp only [Stmt.resolve, Checked.value_bind, Checked.value_pure, Stmt.bare,
      Stmt.bareAll_resolve body]
  | .conditional condition thenBranch none, c, s => by
    simp only [Stmt.resolve, Checked.value_bind, Checked.value_pure, Stmt.bare, Expr.bare_resolve,
      Stmt.bare_resolve thenBranch]
  | .conditional condition thenBranch (some elseBranch), c, s => by
    simp only [Stmt.resolve, Checked.value_bind, Checked.value_pure, Stmt.bare, Expr.bare_resolve,
      Stmt.bare_resolve thenBranch, Stmt.bare_resolve elseBranch]
  | .loop condition body, c, s => by
    simp only [Stmt.resolve, Checked.value_bind, Checked.value_pure, Stmt.bare, Expr.bare_resolve,
      Stmt.bare_resolve body]
  | .function decl, c, s => by
    simp only [Stmt.resolve, Checked.value_bind, Checked.value_pure, Stmt.bare,
      FunctionDecl.bare_resolve decl]
  | .ret _ value, c, s => by
    by_cases h : c.insideFunction = true <;>
      simp only [Stmt.resolve, h, Bool.false_eq_true, not_true_eq_false, not_false_eq_true,
        if_true, if_false, Checked.value_bind, Checked.value_pure, Stmt.bare, Expr.bareOpt_resolve]
  | .classDecl _ none methods, c, s => by
    simp only [Stmt.resolve, Checked.value_bind, Checked.value_pure, Stmt.bare,
      FunctionDecl.bareAll_resolve methods]
  | .classDecl _ (some superclass) methods, c, s => by
    simp only [Stmt.resolve, Checked.value_bind, Checked.value_pure, Stmt.bare, Expr.bareOpt,
      Expr.bare_resolve, FunctionDecl.bareAll_resolve methods]

theorem FunctionDecl.bare_resolve : ∀ (f : FunctionDecl) (c : Context) (s : Scopes),
    (f.resolve c s).value.bare = f.bare
  | ⟨_, _, body⟩, c, s => by
    simp only [FunctionDecl.resolve, Checked.value_bind, Checked.value_pure, FunctionDecl.bare,
      Stmt.bareAll_resolve body]

theorem Stmt.bareAll_resolve : ∀ (xs : List Stmt) (c : Context) (s : Scopes),
    Stmt.bareAll (Stmt.resolveAll c s xs).value.1 = Stmt.bareAll xs
  | [], _, _ => rfl
  | x :: xs, c, s => by
    simp only [Stmt.resolveAll, Checked.value_bind, Checked.value_pure, Stmt.bareAll,
      Stmt.bare_resolve x, Stmt.bareAll_resolve xs]

theorem FunctionDecl.bareAll_resolve : ∀ (fs : List FunctionDecl) (c : Context) (s : Scopes),
    FunctionDecl.bareAll (FunctionDecl.resolveAll c s fs).value = FunctionDecl.bareAll fs
  | [], _, _ => rfl
  | f :: fs, c, s => by
    simp only [FunctionDecl.resolveAll, Checked.value_bind, Checked.value_pure,
      FunctionDecl.bareAll, FunctionDecl.bare_resolve f, FunctionDecl.bareAll_resolve fs]

end

/-- Emptied again, the slots that were filled are all that differs from the parsed program. -/
theorem resolve_bare {globals : List String} {parsed : List Stmt} (h : Stmt.AllShaped parsed) :
    Stmt.bareAll (resolve globals parsed).value.1 = parsed := by
  rw [resolve, Stmt.bareAll_resolve, h.bareAll_eq]

end Lox
