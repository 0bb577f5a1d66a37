import Lox.Proofs.Lines.Relabel
import Lox.Proofs.Scope.Resolved

/-!
# Checking with more global names

A program that is checked without errors is checked without errors where more global names are
known, and gets the same slots: global names only excuse a read in a local variable's own
initializer. The lines of its tokens have no part in this either.
-/

set_option autoImplicit false

namespace Lox

/-! ## Checked values -/

/-- If the first check finds no error then neither does the second, and the values are related. -/
def Checked.Carries {α β : Type} (R : α → β → Prop) (x : Checked α) (y : Checked β) : Prop :=
  x.errors = [] → y.errors = [] ∧ R x.value y.value

namespace Checked.Carries

variable {α β γ δ : Type} {R : α → β → Prop} {R' : γ → δ → Prop}

theorem pure {a : α} {b : β} (h : R a b) : Carries R (pure a) (pure b) :=
  fun _ => ⟨rfl, h⟩

theorem bind {x : Checked α} {y : Checked β} {f : α → Checked γ} {g : β → Checked δ}
    (h : Carries R x y) (hf : ∀ {a b}, R a b → Carries R' (f a) (g b)) :
    Carries R' (x >>= f) (y >>= g) := by
  intro he
  rw [errors_bind, List.append_eq_nil_iff] at he
  obtain ⟨hy, hvalue⟩ := h he.1
  obtain ⟨hg, hvalue'⟩ := hf hvalue he.2
  exact ⟨by rw [errors_bind, hy, hg, List.append_nil], hvalue'⟩

/-- An error is never excused. -/
theorem report {token : Token} {cause : ScopeCause} {f : Unit → Checked α} {y : Checked β} :
    Carries R (Checked.report token cause >>= f) y := by
  intro he
  rw [errors_bind, errors_report] at he
  cases he

end Checked.Carries

/-! ## Scopes -/

/-- The same local scopes, and no fewer global names. -/
structure Scopes.Within (s s' : Scopes) : Prop where
  locals : s'.locals = s.locals
  globals : ∀ x ∈ s.globals, x ∈ s'.globals

namespace Scopes.Within

variable {s s' : Scopes} (ρ : Nat → Nat)

theorem push (h : s.Within s') (scope : Scope) : (s.push scope).Within (s'.push scope) :=
  ⟨congrArg (scope :: ·) h.locals, h.globals⟩

theorem define (h : s.Within s') (name : Token) :
    (s.define name).Within (s'.define (name.relabel ρ)) := by
  obtain ⟨locals, globals⟩ := s
  obtain ⟨locals', globals'⟩ := s'
  obtain ⟨hlocals, hglobals⟩ := h
  cases hlocals
  cases locals with
  | nil => exact ⟨rfl, hglobals⟩
  | cons scope outer => exact ⟨rfl, hglobals⟩

theorem declare (h : s.Within s') (name : Token) :
    Checked.Carries Within (s.declare name) (s'.declare (name.relabel ρ)) := by
  obtain ⟨locals, globals⟩ := s
  obtain ⟨locals', globals'⟩ := s'
  obtain ⟨hlocals, hglobals⟩ := h
  cases hlocals
  cases locals with
  | nil =>
    refine .pure ⟨rfl, fun x hx => ?_⟩
    rcases List.mem_insert_iff.1 hx with rfl | hx
    · exact List.mem_insert_self
    · exact List.mem_insert_of_mem (hglobals x hx)
  | cons scope outer =>
    simp only [Scopes.declare, Token.relabel_lexeme]
    by_cases hc : scope.contains name.lexeme = true
    · simp only [hc, if_true]
      exact .report
    · simp only [hc, Bool.false_eq_true, if_false]
      exact .pure ⟨rfl, hglobals⟩

theorem slot (h : s.Within s') (name : Token) (depth : Option Nat) :
    s'.slot (name.relabel ρ) depth = s.slot name depth := by
  unfold Scopes.slot Scopes.distance?
  rw [h.locals]
  rfl

theorem readSlot (h : s.Within s') (name : Token) (depth : Option Nat) :
    Checked.Carries (fun d d' => d' = d) (s.readSlot name depth)
      (s'.readSlot (name.relabel ρ) depth) := by
  have hpending : s'.isPending name.lexeme = s.isPending name.lexeme := by
    rw [Scopes.isPending, h.locals, Scopes.isPending]
  have houter : s'.outerDistance? name.lexeme = s.outerDistance? name.lexeme := by
    rw [Scopes.outerDistance?, h.locals, Scopes.outerDistance?]
  have hdistance : s'.distance? name.lexeme = s.distance? name.lexeme := by
    rw [Scopes.distance?, h.locals, Scopes.distance?]
  simp only [Scopes.readSlot, Token.relabel_lexeme, hpending, houter, hdistance]
  by_cases hp : s.isPending name.lexeme = true
  · simp only [hp, if_true]
    cases s.outerDistance? name.lexeme with
    | some d => exact .pure rfl
    | none =>
      dsimp only
      by_cases hg : name.lexeme ∈ s.globals
      · simp only [hg, h.globals _ hg, not_true_eq_false, if_false]
        exact .pure rfl
      · simp only [hg, not_false_eq_true, if_true]
        exact .report
  · simp only [hp, Bool.false_eq_true, if_false]
    exact .pure rfl

theorem declareParams : ∀ (ps : List Token) {s s' : Scopes}, s.Within s' →
    Checked.Carries Within (s.declareParams ps)
      (s'.declareParams (ps.map (Token.relabel ρ)))
  | [], _, _, h => .pure h
  | p :: ps, _, _, h => (h.declare ρ p).bind fun h => declareParams ps (h.define ρ p)

end Scopes.Within

/-! ## Trees -/

variable (ρ : Nat → Nat)

mutual

theorem Expr.resolve_carries {s s' : Scopes} (h : s.Within s') (c : ClassContext) :
    ∀ e : Expr, Checked.Carries (fun e e' => e' = e.relabel ρ) (e.resolve s c)
      ((e.relabel ρ).resolve s' c)
  | .literal _ => .pure rfl
  | .grouping inner => by
    simp only [Expr.relabel, Expr.resolve]
    exact (Expr.resolve_carries h c inner).bind fun hi => .pure (by rw [hi, Expr.relabel])
  | .unary operator right => by
    simp only [Expr.relabel, Expr.resolve]
    exact (Expr.resolve_carries h c right).bind fun hr => .pure (by rw [hr, Expr.relabel])
  | .binary left operator right => by
    simp only [Expr.relabel, Expr.resolve]
    refine (Expr.resolve_carries h c left).bind fun hl => ?_
    exact (Expr.resolve_carries h c right).bind fun hr => .pure (by rw [hl, hr, Expr.relabel])
  | .logical left operator right => by
    simp only [Expr.relabel, Expr.resolve]
    refine (Expr.resolve_carries h c left).bind fun hl => ?_
    exact (Expr.resolve_carries h c right).bind fun hr => .pure (by rw [hl, hr, Expr.relabel])
  | .variable name depth => by
    simp only [Expr.relabel, Expr.resolve]
    exact (h.readSlot ρ name depth).bind fun hd => .pure (by rw [hd, Expr.relabel])
  | .assign name value depth => by
    simp only [Expr.relabel, Expr.resolve, h.slot ρ]
    exact (Expr.resolve_carries h c value).bind fun hv => .pure (by rw [hv, Expr.relabel])
  | .call callee paren arguments => by
    simp only [Expr.relabel, Expr.resolve]
    refine (Expr.resolve_carries h c callee).bind fun hf => ?_
    exact (Expr.resolveAll_carries h c arguments).bind fun ha =>
      .pure (by rw [hf, ha, Expr.relabel])
  | .get object name => by
    simp only [Expr.relabel, Expr.resolve]
    exact (Expr.resolve_carries h c object).bind fun ho => .pure (by rw [ho, Expr.relabel])
  | .set object name value => by
    simp only [Expr.relabel, Expr.resolve]
    refine (Expr.resolve_carries h c value).bind fun hv => ?_
    exact (Expr.resolve_carries h c object).bind fun ho => .pure (by rw [ho, hv, Expr.relabel])
  | .this keyword depth => by
    simp only [Expr.relabel, Expr.resolve, h.slot ρ]
    cases c with
    | outside => exact .report
    | plain | subclass => exact .pure rfl
  | .super keyword method depth => by
    simp only [Expr.relabel, Expr.resolve, h.slot ρ]
    cases c with
    | outside | plain => exact .report
    | subclass => exact .pure rfl

theorem Expr.resolveAll_carries {s s' : Scopes} (h : s.Within s') (c : ClassContext) :
    ∀ es : List Expr, Checked.Carries (fun es es' => es' = Expr.relabelAll ρ es)
      (Expr.resolveAll s c es) (Expr.resolveAll s' c (Expr.relabelAll ρ es))
  | [] => .pure rfl
  | e :: es => by
    simp only [Expr.relabelAll, Expr.resolveAll]
    refine (Expr.resolve_carries h c e).bind fun he => ?_
    exact (Expr.resolveAll_carries h c es).bind fun hes =>
      .pure (by rw [he, hes, Expr.relabelAll])

end

theorem Expr.resolveOpt_carries {s s' : Scopes} (h : s.Within s') (c : ClassContext)
    (o : Option Expr) : Checked.Carries (fun o o' => o' = Expr.relabelOpt ρ o)
      (Expr.resolveOpt s c o) (Expr.resolveOpt s' c (Expr.relabelOpt ρ o)) := by
  cases o with
  | none => exact .pure rfl
  | some e => exact (Expr.resolve_carries ρ h c e).bind fun he => .pure (by rw [he, relabelOpt])

theorem checkSuperclass_carries (className : Token) (superclass : Expr) :
    Checked.Carries (fun _ _ => True) (checkSuperclass className superclass)
      (checkSuperclass (className.relabel ρ) (superclass.relabel ρ)) := by
  cases superclass with
  | «variable» name depth =>
    simp only [Expr.relabel, checkSuperclass, Token.relabel_lexeme]
    by_cases hself : name.lexeme = className.lexeme
    · rw [if_pos hself]
      exact fun he => by cases he
    · simp only [hself, if_false]
      exact fun _ => ⟨rfl, trivial⟩
  | _ => exact fun _ => ⟨rfl, trivial⟩

/-- A statement and the scopes it leaves. -/
private abbrev Carried (a b : Stmt × Scopes) : Prop :=
  b.1 = a.1.relabel ρ ∧ a.2.Within b.2

mutual

theorem Stmt.resolve_carries : ∀ (x : Stmt) (c : Context) {s s' : Scopes}, s.Within s' →
    Checked.Carries (Carried ρ) (x.resolve c s) ((x.relabel ρ).resolve c s')
  | .expression value, c, s, s', h => by
    simp only [Stmt.relabel, Stmt.resolve]
    exact (Expr.resolve_carries ρ h _ value).bind fun hv => .pure ⟨by rw [hv, Stmt.relabel], h⟩
  | .print keyword value, c, s, s', h => by
    simp only [Stmt.relabel, Stmt.resolve]
    exact (Expr.resolve_carries ρ h _ value).bind fun hv => .pure ⟨by rw [hv, Stmt.relabel], h⟩
  | .var name initializer, c, s, s', h => by
    simp only [Stmt.relabel, Stmt.resolve]
    refine (h.declare ρ name).bind fun h => ?_
    exact (Expr.resolveOpt_carries ρ h _ initializer).bind fun hi =>
      .pure ⟨by rw [hi, Stmt.relabel], h.define ρ name⟩
  | .block body, c, s, s', h => by
    simp only [Stmt.relabel, Stmt.resolve]
    exact (Stmt.resolveAll_carries body c (h.push .empty)).bind fun hb =>
      .pure ⟨by rw [hb.1, Stmt.relabel], h⟩
  | .conditional condition thenBranch none, c, s, s', h => by
    simp only [Stmt.relabel, Stmt.resolve]
    refine (Expr.resolve_carries ρ h _ condition).bind fun hc => ?_
    exact (Stmt.resolve_carries thenBranch c h).bind fun ht =>
      .pure ⟨by rw [hc, ht.1, Stmt.relabel], ht.2⟩
  | .conditional condition thenBranch (some elseBranch), c, s, s', h => by
    simp only [Stmt.relabel, Stmt.resolve]
    refine (Expr.resolve_carries ρ h _ condition).bind fun hc => ?_
    refine (Stmt.resolve_carries thenBranch c h).bind fun ht => ?_
    exact (Stmt.resolve_carries elseBranch c ht.2).bind fun he =>
      .pure ⟨by rw [hc, ht.1, he.1, Stmt.relabel], he.2⟩
  | .loop condition body, c, s, s', h => by
    simp only [Stmt.relabel, Stmt.resolve]
    refine (Expr.resolve_carries ρ h _ condition).bind fun hc => ?_
    exact (Stmt.resolve_carries body c h).bind fun hb =>
      .pure ⟨by rw [hc, hb.1, Stmt.relabel], hb.2⟩
  | .function decl, c, s, s', h => by
    simp only [Stmt.relabel, Stmt.resolve, FunctionDecl.relabel_name]
    refine (h.declare ρ decl.name).bind fun h => ?_
    have h := h.define ρ decl.name
    exact (FunctionDecl.resolve_carries decl c h).bind fun hf =>
      .pure ⟨by rw [hf, Stmt.relabel], h⟩
  | .ret keyword value, c, s, s', h => by
    simp only [Stmt.relabel, Stmt.resolve]
    by_cases hc : c.insideFunction = true
    · simp only [hc, not_true_eq_false, if_false]
      exact (Expr.resolveOpt_carries ρ h _ value).bind fun hv => .pure ⟨by rw [hv, Stmt.relabel], h⟩
    · rw [if_pos hc]
      exact .report
  | .classDecl name none methods, c, s, s', h => by
    simp only [Stmt.relabel, Expr.relabelOpt, Stmt.resolve]
    refine (h.declare ρ name).bind fun h => ?_
    have h := h.define ρ name
    exact (FunctionDecl.resolveAll_carries methods _ (h.push thisScope)).bind fun hm =>
      .pure ⟨by rw [hm, Stmt.relabel, Expr.relabelOpt], h⟩
  | .classDecl name (some superclass) methods, c, s, s', h => by
    simp only [Stmt.relabel, Expr.relabelOpt, Stmt.resolve]
    refine (h.declare ρ name).bind fun h => ?_
    have h := h.define ρ name
    refine (checkSuperclass_carries ρ name superclass).bind fun _ => ?_
    refine (Expr.resolve_carries ρ h _ superclass).bind fun hs => ?_
    have hinner := (h.push superScope).push thisScope
    exact (FunctionDecl.resolveAll_carries methods _ hinner).bind fun hm =>
      .pure ⟨by rw [hs, hm, Stmt.relabel, Expr.relabelOpt], h⟩

theorem FunctionDecl.resolve_carries : ∀ (f : FunctionDecl) (c : Context) {s s' : Scopes},
    s.Within s' → Checked.Carries (fun f f' => f' = f.relabel ρ) (f.resolve c s)
      ((f.relabel ρ).resolve c s')
  | ⟨name, params, body⟩, c, s, s', h => by
    simp only [FunctionDecl.relabel, FunctionDecl.resolve]
    refine (Scopes.Within.declareParams ρ params (h.push .empty)).bind fun h => ?_
    exact (Stmt.resolveAll_carries body _ h).bind fun hb =>
      .pure (by rw [hb.1, FunctionDecl.relabel])

theorem Stmt.resolveAll_carries : ∀ (xs : List Stmt) (c : Context) {s s' : Scopes}, s.Within s' →
    Checked.Carries (fun a b => b.1 = Stmt.relabelAll ρ a.1 ∧ a.2.Within b.2)
      (Stmt.resolveAll c s xs) (Stmt.resolveAll c s' (Stmt.relabelAll ρ xs))
  | [], c, s, s', h => .pure ⟨rfl, h⟩
  | x :: xs, c, s, s', h => by
    simp only [Stmt.relabelAll, Stmt.resolveAll]
    refine (Stmt.resolve_carries x c h).bind fun hx => ?_
    exact (Stmt.resolveAll_carries xs c hx.2).bind fun hxs =>
      .pure ⟨by rw [hx.1, hxs.1, Stmt.relabelAll], hxs.2⟩

theorem FunctionDecl.resolveAll_carries : ∀ (fs : List FunctionDecl) (c : Context)
    {s s' : Scopes}, s.Within s' →
      Checked.Carries (fun fs fs' => fs' = FunctionDecl.relabelAll ρ fs)
        (FunctionDecl.resolveAll c s fs)
        (FunctionDecl.resolveAll c s' (FunctionDecl.relabelAll ρ fs))
  | [], c, s, s', _ => .pure rfl
  | f :: fs, c, s, s', h => by
    simp only [FunctionDecl.relabelAll, FunctionDecl.resolveAll]
    refine (FunctionDecl.resolve_carries f c h).bind fun hf => ?_
    exact (FunctionDecl.resolveAll_carries fs c h).bind fun hfs =>
      .pure (by rw [hf, hfs, FunctionDecl.relabelAll])

end

end Lox
