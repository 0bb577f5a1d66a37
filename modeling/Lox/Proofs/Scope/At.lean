import Lox.Proofs.Scope.Globals
import Lox.Proofs.Scope.Rules

/-!
# The checker at a place

`Scopes.At` says that the scopes and the context of the checker are those of a place. Every
statement keeps that, whatever the walk has entered and left before (`Scopes.At.resolve`), and what
is an error at a node or a declaration is then a question about the place alone.
-/

set_option autoImplicit false

namespace Lox

/-! ## Expressions -/

/-- The checker reports no error at this node. -/
def Reference.Admitted (s : Scopes) (c : ClassContext) (r : Reference) : Prop :=
  match r.kind with
  | .variable => s.isPending r.token.lexeme = true →
    (s.outerDistance? r.token.lexeme).isSome ∨ r.token.lexeme ∈ s.globals
  | .assign => True
  | .this => c ≠ .outside
  | .super => c = .subclass

theorem Scopes.readSlot_errors_iff (s : Scopes) (name : Token) (slot : Option Nat) :
    (s.readSlot name slot).errors = [] ↔ (s.isPending name.lexeme = true →
      (s.outerDistance? name.lexeme).isSome ∨ name.lexeme ∈ s.globals) := by
  unfold Scopes.readSlot
  by_cases hpending : s.isPending name.lexeme = true
  · simp only [hpending, if_true, forall_const]
    cases houter : s.outerDistance? name.lexeme with
    | some d => simp
    | none => by_cases hglobal : name.lexeme ∈ s.globals <;> simp [hglobal]
  · simp [hpending]

section

variable {s : Scopes} {c : ClassContext}

mutual

/-- An expression has no errors when none of its nodes has one. -/
theorem Expr.resolve_errors_iff : ∀ e : Expr,
    (e.resolve s c).errors = [] ↔ ∀ r ∈ e.references, r.Admitted s c
  | .literal _ => by simp [Expr.resolve, Expr.references]
  | .grouping inner => by simp [Expr.resolve, Expr.references, Expr.resolve_errors_iff inner]
  | .unary _ right => by simp [Expr.resolve, Expr.references, Expr.resolve_errors_iff right]
  | .binary left _ right | .logical left _ right => by
    simp [Expr.resolve, Expr.references, Expr.resolve_errors_iff left,
      Expr.resolve_errors_iff right, or_imp, forall_and]
  | .variable name depth => by
    simp [Expr.resolve, Expr.references, Reference.Admitted, Scopes.readSlot_errors_iff]
  | .assign name value depth => by
    simp [Expr.resolve, Expr.references, Reference.Admitted, Expr.resolve_errors_iff value]
  | .call callee _ arguments => by
    simp [Expr.resolve, Expr.references, Expr.resolve_errors_iff callee,
      Expr.resolveAll_errors_iff arguments, or_imp, forall_and]
  | .get object _ => by simp [Expr.resolve, Expr.references, Expr.resolve_errors_iff object]
  | .set object _ value => by
    simp only [Expr.resolve, Expr.references, Checked.errors_bind, Checked.errors_pure,
      List.append_nil, List.append_eq_nil_iff, Expr.resolve_errors_iff object,
      Expr.resolve_errors_iff value, List.mem_append, or_imp, forall_and]
    exact and_comm
  | .this _ _ => by cases c <;> simp [Expr.resolve, Expr.references, Reference.Admitted]
  | .super _ _ _ => by cases c <;> simp [Expr.resolve, Expr.references, Reference.Admitted]

theorem Expr.resolveAll_errors_iff : ∀ es : List Expr,
    (Expr.resolveAll s c es).errors = [] ↔ ∀ r ∈ Expr.referencesAll es, r.Admitted s c
  | [] => by simp [Expr.resolveAll, Expr.referencesAll]
  | e :: es => by
    simp [Expr.resolveAll, Expr.referencesAll, Expr.resolve_errors_iff e,
      Expr.resolveAll_errors_iff es, or_imp, forall_and]

end

end

/-! ## Places -/

/-- The checker's scopes and context are those of a place. -/
structure Scopes.At (s : Scopes) (c : Context) (known : List String) (p : Site) : Prop where
  locals : s.Shows p.nest
  globals : ∀ x, x ∈ s.globals ↔ x ∈ known ∨ x ∈ p.globals
  function : c.insideFunction = true ↔ p.InFunction
  context : c.enclosingClass = p.context

namespace Scopes

/-- A name that is new in its scope is declared without an error. -/
theorem Shows.declare_errors {s : Scopes} {n : Nest} {name : Token} (h : s.Shows n)
    (hfresh : n.Fresh name.lexeme) : (s.declare name).errors = [] := by
  obtain ⟨locals, globals⟩ := s
  cases h with
  | nil => rfl
  | @cons scope names scopes n' hscope hrest =>
    have hname : name.lexeme ∉ names := hfresh names rfl
    simp [Scopes.declare, hscope.contains, hname]

theorem declareParams_errors : ∀ {ps : List Token} {s : Scopes} {names : List String} {n : Nest},
    s.Shows (names :: n) → (ps.map (·.lexeme)).Nodup → (∀ x ∈ ps.map (·.lexeme), x ∉ names) →
      (s.declareParams ps).errors = []
  | [], _, _, _, _, _, _ => rfl
  | p :: ps, s, names, n, hs, hnodup, hnew => by
    rw [List.map_cons, List.nodup_cons] at hnodup
    have hp : p.lexeme ∉ names := hnew _ (List.mem_cons_self ..)
    have herrors : (s.declare p).errors = [] := by
      apply hs.declare_errors
      rintro _ ⟨⟩
      exact hp
    have hrest : ((s.declare p).value.define p |>.declareParams ps).errors = [] := by
      apply declareParams_errors (hs.declare herrors).2 hnodup.2
      intro x hx
      rw [List.mem_cons, not_or]
      refine ⟨?_, hnew x (List.mem_cons_of_mem _ hx)⟩
      rintro rfl
      exact hnodup.1 hx
    simp only [Scopes.declareParams, Checked.errors_bind, herrors, hrest, List.append_nil]

/-- In a local scope a declaration changes that scope only. -/
theorem local_declare {s : Scopes} (h : s.locals ≠ []) (name : Token) :
    (s.declare name).value.locals ≠ [] ∧ (s.declare name).value.globals = s.globals := by
  obtain ⟨locals, globals⟩ := s
  cases locals with
  | nil => exact absurd rfl h
  | cons scope outer =>
    by_cases hmem : scope.contains name.lexeme = true <;> simp [Scopes.declare, hmem]

theorem local_define {s : Scopes} (h : s.locals ≠ []) (name : Token) :
    (s.define name).locals ≠ [] ∧ (s.define name).globals = s.globals := by
  obtain ⟨locals, globals⟩ := s
  cases locals with
  | nil => exact absurd rfl h
  | cons scope outer => exact ⟨List.cons_ne_nil _ _, rfl⟩

theorem local_declareParams : ∀ (ps : List Token) {s : Scopes}, s.locals ≠ [] →
    (s.declareParams ps).value.locals ≠ [] ∧ (s.declareParams ps).value.globals = s.globals
  | [], _, h => ⟨h, rfl⟩
  | p :: ps, s, h => by
    obtain ⟨hdeclare, hglobals⟩ := local_declare h p
    obtain ⟨hdefine, hglobals'⟩ := local_define hdeclare p
    obtain ⟨hrest, hglobals''⟩ := local_declareParams ps hdefine
    exact ⟨hrest, hglobals''.trans (hglobals'.trans hglobals)⟩

/-- In its initializer a local variable is pending, and nothing else is. -/
theorem Shows.isPending_declare {s : Scopes} {n : Nest} {name : Token} (h : s.Shows n)
    (he : (s.declare name).errors = []) {x : String} :
    (s.declare name).value.isPending x = true ↔ n ≠ [] ∧ x = name.lexeme := by
  obtain ⟨locals, globals⟩ := s
  cases h with
  | nil => simp [Scopes.declare, Scopes.isPending]
  | @cons scope names scopes n' hscope hrest =>
    have hget := hscope x
    by_cases hmem : name.lexeme ∈ names
    · simp [Scopes.declare, hscope.contains, hmem] at he
    · by_cases hx : x = name.lexeme
      · simp [Scopes.declare, hscope.contains, hmem, Scopes.isPending, Bindings.get?_insert, hx]
      · by_cases hin : x ∈ names <;>
          simp [Scopes.declare, hscope.contains, hmem, Scopes.isPending, Bindings.get?_insert, hx,
            hget, hin]

/-- The initializer of a local variable looks in the scopes around that of the variable. -/
theorem Shows.outerDistance?_declare {s : Scopes} {n : Nest} {name : Token} (h : s.Shows n)
    (hlocal : n ≠ []) {x : String} :
    ((s.declare name).value.outerDistance? x).isSome ↔ ∃ names ∈ n.tail, x ∈ names := by
  obtain ⟨locals, globals⟩ := s
  cases h with
  | nil => exact absurd rfl hlocal
  | @cons scope names scopes n' hscope hrest =>
    have houter : (Scopes.declare ⟨scope :: scopes, globals⟩ name).value.outerDistance? x =
        (Nest.distance? n' x).map (· + 1) := by
      by_cases hmem : name.lexeme ∈ names <;>
        simp [Scopes.declare, hscope.contains, hmem, Scopes.outerDistance?,
          findIdx?_shows hrest]
    rw [houter, Option.isSome_map, Nest.distance?, List.findIdx?_isSome]
    simp

namespace At

variable {s : Scopes} {c : Context} {known : List String} {p : Site}

/-- At the beginning of a program. -/
theorem start : (Scopes.top known).At .top known .start where
  locals := .nil
  globals := fun x => by simp [Scopes.top, Site.start]
  function := by simp [Context.top, Site.InFunction, Site.start]
  context := rfl

theorem locals_eq_nil (h : s.At c known p) : s.locals = [] ↔ p.layers = [] := by
  have hlength := h.locals.length_eq
  rw [← Site.nest_eq_nil, ← List.length_eq_zero_iff, ← List.length_eq_zero_iff, hlength]

theorem declare (h : s.At c known p) {name : Token} (he : (s.declare name).errors = []) :
    p.Fresh name.lexeme ∧
      ((s.declare name).value.define name).At c known (p.declare name.lexeme) := by
  obtain ⟨hfresh, hshows⟩ := h.locals.declare he
  rw [← Site.nest_declare] at hshows
  refine ⟨Site.fresh_nest.1 hfresh, hshows, fun x => ?_, ?_, ?_⟩
  · obtain ⟨locals, globals⟩ := s
    obtain ⟨layers, tops⟩ := p
    have hnil := h.locals_eq_nil
    have hglobals := h.globals x
    cases layers with
    | nil =>
      obtain rfl : locals = [] := hnil.2 rfl
      simp only [Scopes.declare, Checked.value_pure, Scopes.define, Site.declare,
        List.mem_insert_iff, List.mem_cons] at hglobals ⊢
      rw [hglobals]
      tauto
    | cons l outer =>
      cases locals with
      | nil => exact absurd (hnil.1 rfl) (List.cons_ne_nil _ _)
      | cons scope scopes =>
        by_cases hmem : scope.contains name.lexeme = true <;>
          simpa [Scopes.declare, hmem, Scopes.define, Site.declare] using hglobals
  · rw [h.function, Site.inFunction_declare]
  · rw [h.context, Site.context, Site.context, Site.clause?_declare]

theorem declare_errors (h : s.At c known p) {name : Token} (hfresh : p.Fresh name.lexeme) :
    (s.declare name).errors = [] :=
  h.locals.declare_errors (Site.fresh_nest.2 hfresh)

theorem enterBlock (h : s.At c known p) : (s.push .empty).At c known (p.enter .block []) where
  locals := h.locals.push Scope.Shows.empty
  globals := h.globals
  function := by simp [h.function, Site.InFunction, Site.enter]
  context := h.context

/-- At the beginning of a function's body. -/
theorem enterFunction (h : s.At c known p) {params : List Token}
    (he : ((s.push .empty).declareParams params).errors = []) :
    ((s.push .empty).declareParams params).value.At { c with insideFunction := true } known
      (p.enter .function params) where
  locals := (h.locals.declareParams he).2
  globals := by
    rw [(local_declareParams params (List.cons_ne_nil _ _)).2]
    exact h.globals
  function := by simp [Site.InFunction, Site.enter]
  context := h.context

/-- Outside of initializers nothing is pending. -/
theorem admitted_iff (h : s.At c known p) {r : Reference} :
    r.Admitted s c.enclosingClass ↔ (r.kind = .this → p.InMethod) ∧
      (r.kind = .super → ∃ superclass, p.clause? = some (some superclass)) := by
  rw [Site.inMethod_iff, ← Site.context_eq_subclass, ← h.context]
  unfold Reference.Admitted
  split <;> rename_i hkind <;> simp [hkind, h.locals.isPending]

/-- In the initializer of a variable, its own name needs a declaration outside, or a global name. -/
theorem initializer_iff (h : s.At c known p) {name : Token} (hname : name.IsName)
    (he : (s.declare name).errors = []) {r : Reference} :
    r.Admitted (s.declare name).value c.enclosingClass ↔ (r.kind = .this → p.InMethod) ∧
      (r.kind = .super → ∃ superclass, p.clause? = some (some superclass)) ∧
      (p.layers ≠ [] → r.kind = .variable → r.token.lexeme = name.lexeme →
        p.DeclaredOutside name.lexeme ∨ name.lexeme ∈ known ∨ name.lexeme ∈ p.globals) := by
  have hread : ((s.declare name).value.isPending r.token.lexeme = true →
      ((s.declare name).value.outerDistance? r.token.lexeme).isSome ∨
        r.token.lexeme ∈ (s.declare name).value.globals) ↔
      (p.layers ≠ [] → r.token.lexeme = name.lexeme →
        p.DeclaredOutside name.lexeme ∨ name.lexeme ∈ known ∨ name.lexeme ∈ p.globals) := by
    rw [ne_eq, ← Site.nest_eq_nil, h.locals.isPending_declare he, and_imp]
    refine forall_congr' fun hlocal => forall_congr' fun heq => ?_
    have hlocals : s.locals ≠ [] := fun h' => hlocal (Site.nest_eq_nil.2 (h.locals_eq_nil.1 h'))
    rw [heq, h.locals.outerDistance?_declare hlocal, Site.declaredOutside_iff hname,
      (local_declare hlocals name).2, h.globals]
  rw [Site.inMethod_iff, ← Site.context_eq_subclass, ← h.context]
  unfold Reference.Admitted
  split <;> rename_i hkind <;> simp only [hkind, reduceCtorEq, false_implies, true_and, and_true,
    implies_true, forall_const, ne_eq]
  exact hread

end At
end Scopes

/-! ## One statement -/

/-- A statement leaves what its declaration leaves, with or without errors. -/
theorem Stmt.resolve_state (c : Context) : ∀ {x : Stmt} {s : Scopes}, x.Shaped →
    (x.resolve c s).value.2 = match x.declared with
      | some name => (s.declare name).value.define name
      | none => s
  | .expression _, _, _ | .print _ _, _, _ | .var _ _, _, _ | .block _, _, _
  | .function _, _, _ | .classDecl _ none _, _, _ | .classDecl _ (some _) _, _, _ => rfl
  | .conditional _ thenBranch none, s, h => by
    simp only [Stmt.Shaped] at h
    have hthen := Stmt.resolve_state c (s := s) h.2.1
    rw [h.2.2] at hthen
    exact hthen
  | .conditional _ thenBranch (some elseBranch), s, h => by
    simp only [Stmt.Shaped] at h
    obtain ⟨-, ⟨hthen, hthenNone⟩, helse, helseNone⟩ := h
    have hthenState := Stmt.resolve_state c (s := s) hthen
    have helseState := Stmt.resolve_state c (s := (thenBranch.resolve c s).value.2) helse
    simp only [hthenNone] at hthenState
    simp only [helseNone, hthenState] at helseState
    simp only [Stmt.resolve, Checked.value_bind, Checked.value_pure, hthenState]
    exact helseState
  | .loop _ body, s, h => by
    simp only [Stmt.Shaped] at h
    have hbody := Stmt.resolve_state c (s := s) h.2.1
    rw [h.2.2] at hbody
    exact hbody
  | .ret _ _, s, _ => by
    by_cases hinside : c.insideFunction = true <;> simp [Stmt.resolve, hinside, Stmt.declared]

/-- A statement begins with its declaration. -/
theorem Stmt.declare_errors {x : Stmt} {c : Context} {s : Scopes} {name : Token}
    (hx : x.declared = some name) (he : (x.resolve c s).errors = []) :
    (s.declare name).errors = [] := by
  cases x with
  | var | function =>
    cases hx
    exact (List.append_eq_nil_iff.1 he).1
  | classDecl _ superclass =>
    cases hx
    cases superclass <;> exact (List.append_eq_nil_iff.1 he).1
  | _ => cases hx

namespace Scopes.At

variable {s : Scopes} {c : Context} {known : List String} {p : Site}

/-- After a statement without errors the checker is at the place after it, and what the statement
declares was new. -/
theorem resolve (h : s.At c known p) {x : Stmt} (hx : x.Shaped)
    (he : (x.resolve c s).errors = []) :
    (∀ name, x.declared = some name → p.Fresh name.lexeme) ∧
      (x.resolve c s).value.2.At c known (p.after x) := by
  rw [Stmt.resolve_state c hx, Site.after]
  cases hd : x.declared with
  | none => exact ⟨nofun, h⟩
  | some name =>
    obtain ⟨hfresh, hafter⟩ := h.declare (Stmt.declare_errors hd he)
    refine ⟨?_, hafter⟩
    rintro _ ⟨⟩
    exact hfresh

theorem resolveAll (h : s.At c known p) : ∀ {xs : List Stmt}, Stmt.AllShaped xs →
    (Stmt.resolveAll c s xs).errors = [] →
      (Stmt.resolveAll c s xs).value.2.At c known (p.afterAll xs) := by
  intro xs
  induction xs generalizing s p with
  | nil =>
    intro _ _
    exact h
  | cons x xs ih =>
    intro hshaped he
    simp only [Stmt.AllShaped] at hshaped
    simp only [Stmt.resolveAll, Checked.errors_bind, Checked.errors_pure, List.append_nil,
      List.append_eq_nil_iff] at he
    exact ih (h.resolve hshaped.1 he.1).2 hshaped.2 he.2

/-- Every statement of a list without errors is checked at its place. -/
theorem inside (h : s.At c known p) {before after : List Stmt} {x : Stmt}
    (hshaped : Stmt.AllShaped (before ++ x :: after))
    (he : (Stmt.resolveAll c s (before ++ x :: after)).errors = []) :
    ∃ s', s'.At c known (p.afterAll before) ∧ x.Shaped ∧ (x.resolve c s').errors = [] := by
  rw [Stmt.allShaped_iff] at hshaped
  rw [(Stmt.resolveAll_append c (x :: after) before s).2, List.append_eq_nil_iff] at he
  obtain ⟨hbefore, hrest⟩ := he
  simp only [Stmt.resolveAll, Checked.errors_bind, List.append_eq_nil_iff] at hrest
  have hat := h.resolveAll (Stmt.allShaped_iff.2 fun y hy => hshaped y (by simp [hy])) hbefore
  exact ⟨_, hat, hshaped x (by simp), hrest.1⟩

end Scopes.At

theorem FunctionDecl.resolveAll_errors_iff {c : Context} {s : Scopes} {fs : List FunctionDecl} :
    (FunctionDecl.resolveAll c s fs).errors = [] ↔ ∀ f ∈ fs, (f.resolve c s).errors = [] := by
  induction fs with
  | nil => simp [FunctionDecl.resolveAll]
  | cons f fs ih => simp [FunctionDecl.resolveAll, ih]

theorem FunctionDecl.resolve_errors_iff {c : Context} {s : Scopes} {f : FunctionDecl} :
    (f.resolve c s).errors = [] ↔ ((s.push .empty).declareParams f.params).errors = [] ∧
      (Stmt.resolveAll { c with insideFunction := true }
        ((s.push .empty).declareParams f.params).value f.body).errors = [] := by
  obtain ⟨name, params, body⟩ := f
  simp [FunctionDecl.resolve]

/-! ## Declarations in order -/

namespace Site

/-- The innermost scope can take these declarations, in this order. -/
def Takes (p : Site) (names : List String) : Prop :=
  ∀ l ∈ p.layers.head?, (names ++ l.names).Nodup

theorem takes_cons {p : Site} {name : String} {names : List String} :
    p.Takes (name :: names) ↔ (p.declare name).Takes names := by
  obtain ⟨layers, globals⟩ := p
  cases layers with
  | nil => simp [Takes, declare]
  | cons l outer =>
    simp only [Takes, declare, List.head?_cons, Option.mem_some_iff, forall_eq', List.cons_append]
    exact List.nodup_middle.symm

theorem Takes.fresh {p : Site} {name : String} {names : List String} (h : p.Takes (name :: names)) :
    p.Fresh name := by
  intro l hl hmem
  have hnodup := h l hl
  rw [List.cons_append, List.nodup_cons, List.mem_append] at hnodup
  exact hnodup.1 (.inr hmem)

theorem takes_singleton {p : Site} {name : String} (h : p.Takes []) (hfresh : p.Fresh name) :
    p.Takes [name] := fun l hl => List.nodup_cons.2 ⟨hfresh l hl, h l hl⟩

theorem takes_after {p : Site} {x : Stmt} {names : List String} :
    (p.after x).Takes names ↔ p.Takes (Stmt.declaredNames [x] ++ names) := by
  unfold Site.after
  cases hd : x.declared with
  | none => rw [Stmt.declaredNames_singleton_of_none hd, List.nil_append]
  | some name =>
    have hsingle : Stmt.declaredNames [x] = [name.lexeme] := by
      simp [Stmt.declaredNames, hd]
    rw [hsingle, List.singleton_append, takes_cons]

theorem takes_block {p : Site} {body : List Stmt} :
    (p.enter .block []).Takes (Stmt.declaredNames body) ↔ (Stmt.declaredNames body).Nodup := by
  simp [Takes, enter]

theorem takes_function {p : Site} {b : Body} {f : FunctionDecl} :
    (p.enter b f.params).Takes (Stmt.declaredNames f.body) ↔ f.DeclaresOnce := by
  simp only [Takes, enter, List.head?_cons, Option.mem_some_iff, forall_eq',
    FunctionDecl.DeclaresOnce]
  exact List.nodup_append_comm

end Site

/-- Statements without errors declare new names only. -/
theorem Scopes.At.takes {known : List String} {c : Context} : ∀ {xs : List Stmt} {s : Scopes}
    {p : Site}, s.At c known p → p.Takes [] → Stmt.AllShaped xs →
      (Stmt.resolveAll c s xs).errors = [] → p.Takes (Stmt.declaredNames xs)
  | [], _, _, _, hp, _, _ => hp
  | x :: xs, s, p, h, hp, hshaped, he => by
    simp only [Stmt.AllShaped] at hshaped
    simp only [Stmt.resolveAll, Checked.errors_bind, Checked.errors_pure, List.append_nil,
      List.append_eq_nil_iff] at he
    obtain ⟨hfresh, hafter⟩ := h.resolve hshaped.1 he.1
    rw [Stmt.declaredNames_cons, ← Site.takes_after]
    apply hafter.takes ?_ hshaped.2 he.2
    unfold Site.after
    cases hd : x.declared with
    | none => exact hp
    | some name => exact Site.takes_cons.1 (Site.takes_singleton hp (hfresh name hd))

/-! ## Classes -/

/-- The scopes in which a class has its methods. -/
def Scopes.ofClass (s : Scopes) : Option Expr → Scopes
  | none => s.push thisScope
  | some _ => (s.push superScope).push thisScope

/-- The context in which a class has its methods. -/
def Context.ofClass (c : Context) : Option Expr → Context
  | none => { c with enclosingClass := .plain }
  | some _ => { c with enclosingClass := .subclass }

theorem Scopes.Shows.ofClass {s : Scopes} {n : Nest} (h : s.Shows n) (superclass : Option Expr) :
    (s.ofClass superclass).Shows (methodNest n superclass) := by
  cases superclass with
  | none => exact h.push thisScope_shows
  | some e => exact (h.push superScope_shows).push thisScope_shows

namespace Scopes.At

variable {s : Scopes} {c : Context} {known : List String} {p : Site}

/-- At the beginning of a method's body. -/
theorem enterMethod (h : s.At c known p) {params : List Token} {superclass : Option Expr}
    (he : (((s.ofClass superclass).push .empty).declareParams params).errors = []) :
    (((s.ofClass superclass).push .empty).declareParams params).value.At
      { c.ofClass superclass with insideFunction := true } known
      (p.enter (.method superclass) params) where
  locals := by
    have hshows := ((h.locals.ofClass superclass).declareParams he).2
    cases superclass <;> exact hshows
  globals := by
    rw [(local_declareParams params (List.cons_ne_nil _ _)).2]
    cases superclass <;> exact h.globals
  function := by simp [Site.InFunction, Site.enter]
  context := by cases superclass <;> rfl

/-- A class has no errors when it is not its own superclass and its methods have none. -/
theorem classDecl_errors_iff (h : s.At c known p) {name : Token} {superclass : Option Expr}
    {methods : List FunctionDecl} (hx : (Stmt.classDecl name superclass methods).Shaped) :
    ((Stmt.classDecl name superclass methods).resolve c s).errors = [] ↔
      (s.declare name).errors = [] ∧
      (∀ above depth, superclass = some (.variable above depth) → above.lexeme ≠ name.lexeme) ∧
      ∀ f ∈ methods, (f.resolve (c.ofClass superclass)
        (((s.declare name).value.define name).ofClass superclass)).errors = [] := by
  cases superclass with
  | none => simp [Stmt.resolve, FunctionDecl.resolveAll_errors_iff, ofClass, Context.ofClass]
  | some e =>
    simp only [Stmt.Shaped] at hx
    obtain ⟨-, ⟨above, rfl, -⟩, -⟩ := hx
    have hcheck : (checkSuperclass name (.variable above none)).errors = [] ↔
        above.lexeme ≠ name.lexeme := by
      by_cases heq : above.lexeme = name.lexeme <;> simp [checkSuperclass, heq]
    simp only [Stmt.resolve, Checked.errors_bind, Checked.errors_pure, List.append_nil,
      List.append_eq_nil_iff, hcheck, FunctionDecl.resolveAll_errors_iff, Option.some.injEq,
      Expr.variable.injEq, and_imp, ofClass, Context.ofClass]
    refine and_congr_right fun hdeclare => ?_
    -- the name of the class is ready by the time its superclass is read
    have hread : ((Expr.variable above none).resolve ((s.declare name).value.define name)
        .subclass).errors = [] := by
      rw [Expr.resolve_errors_iff]
      intro r hr
      rw [List.mem_singleton.1 hr]
      intro hpending
      rw [(h.declare hdeclare).2.locals.isPending] at hpending
      exact absurd hpending Bool.false_ne_true
    simp only [hread, true_and]
    refine and_congr_left fun _ => ⟨?_, fun hne => hne above none rfl rfl⟩
    rintro hne _ _ rfl -
    exact hne

end Scopes.At

end Lox
