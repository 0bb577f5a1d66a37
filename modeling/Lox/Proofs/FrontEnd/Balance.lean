import Lox.Proofs.FrontEnd.Resolver
import Lox.Proofs.Run.Growth
import Lox.Proofs.Scope.Globals

/-!
# The resolver leaves what it found

Walking over a statement by one state gives what `Stmt.resolve` gives for the visible names
(`Stmt.visit_eq`). After a statement every scope that was pushed has been popped again and the kinds
of the function and of the class are set back; the stack of scopes is the same as before, but for
the names that the statement itself binds in the innermost scope (`Stmt.resolve_leaves`).
-/

set_option autoImplicit false

namespace Lox

/-! ## The stack of scopes -/

/-- The same scopes, but for these names in the innermost one. -/
def SameStack (names : List String) : List Scope → List Scope → Prop
  | [], [] => True
  | scope :: outer, scope' :: outer' =>
    outer' = outer ∧ ∀ y, y ∉ names → scope'.get? y = scope.get? y
  | _, _ => False

theorem SameStack.refl (names : List String) (scopes : List Scope) :
    SameStack names scopes scopes := by
  cases scopes with
  | nil => exact trivial
  | cons scope outer => exact ⟨rfl, fun _ _ => rfl⟩

theorem SameStack.trans {names names' : List String} : ∀ {a b c : List Scope},
    SameStack names a b → SameStack names' b c → SameStack (names ++ names') a c
  | [], [], [], _, _ => trivial
  | _ :: _, _ :: _, _ :: _, ⟨houter, h⟩, ⟨houter', h'⟩ =>
    ⟨houter'.trans houter, fun y hy => by
      rw [List.mem_append, not_or] at hy
      rw [h' y hy.2, h y hy.1]⟩

/-- The stack is left as it was, but for these names in the innermost scope; in a local scope the
global names are, too. -/
structure Scopes.Leaves (names : List String) (s s' : Scopes) : Prop where
  locals : SameStack names s.locals s'.locals
  globals : s.locals ≠ [] → s'.globals = s.globals

namespace Scopes.Leaves

variable {names names' : List String} {s s' s'' : Scopes}

theorem refl (names : List String) (s : Scopes) : Leaves names s s :=
  ⟨.refl names s.locals, fun _ => rfl⟩

theorem trans (h : Leaves names s s') (h' : Leaves names' s' s'') :
    Leaves (names ++ names') s s'' := by
  refine ⟨h.locals.trans h'.locals, fun hlocal => ?_⟩
  have hlocals := h.locals
  have hlocal' : s'.locals ≠ [] := by
    intro hnil
    rw [hnil] at hlocals
    cases hs : s.locals with
    | nil => exact hlocal hs
    | cons scope outer =>
      rw [hs] at hlocals
      exact hlocals
  rw [h'.globals hlocal', h.globals hlocal]

theorem define (h : Leaves names s s') (name : Token) (hname : name.lexeme ∈ names) :
    Leaves names s (s'.define name) := by
  obtain ⟨locals, globals⟩ := s'
  cases locals with
  | nil => exact h
  | cons scope outer =>
    refine ⟨?_, h.globals⟩
    obtain ⟨hlocals, -⟩ := h
    cases hs : s.locals with
    | nil =>
      rw [hs] at hlocals
      exact hlocals.elim
    | cons scope₀ outer₀ =>
      rw [hs] at hlocals
      refine ⟨hlocals.1, fun y hy => ?_⟩
      have hne : y ≠ name.lexeme := fun heq => hy (heq ▸ hname)
      rw [Bindings.get?_insert, if_neg hne, hlocals.2 y hy]

theorem declare (s : Scopes) (name : Token) : Leaves [name.lexeme] s (s.declare name).value := by
  obtain ⟨locals, globals⟩ := s
  cases locals with
  | nil => exact ⟨trivial, fun h => absurd rfl h⟩
  | cons scope outer =>
    by_cases hmem : scope.contains name.lexeme = true
    · simp only [Scopes.declare, hmem, if_true]
      exact .refl _ _
    · simp only [Scopes.declare, hmem]
      refine ⟨⟨rfl, fun y hy => ?_⟩, fun _ => rfl⟩
      rw [Bindings.get?_insert, if_neg (by simpa using hy)]

/-- What is done in a scope that was pushed is gone when it is popped. -/
theorem pop {scope : Scope} (h : Leaves names (s.push scope) s') :
    s'.locals.tail = s.locals ∧ s'.globals = s.globals := by
  refine ⟨?_, h.globals (List.cons_ne_nil _ _)⟩
  obtain ⟨locals, globals⟩ := s'
  cases locals with
  | nil => exact h.locals.elim
  | cons scope' outer => exact h.locals.1

end Scopes.Leaves

theorem Scopes.declareParams_leaves : ∀ (params : List Token) (s : Scopes),
    Scopes.Leaves (params.map (·.lexeme)) s (s.declareParams params).value
  | [], s => .refl _ s
  | p :: ps, s => by
    have hp := (Scopes.Leaves.declare s p).define p (List.mem_singleton_self _)
    exact hp.trans (Scopes.declareParams_leaves ps _)

/-- A statement leaves the stack of scopes as it was, but for the names that it binds. -/
theorem Stmt.resolve_leaves : ∀ (x : Stmt) (c : Context) (s : Scopes),
    Scopes.Leaves x.binds s (x.resolve c s).value.2
  | .expression _, _, s | .print _ _, _, s | .block _, _, s => .refl _ s
  | .var name _, _, s => (Scopes.Leaves.declare s name).define name (List.mem_singleton_self _)
  | .conditional _ thenBranch none, c, s => Stmt.resolve_leaves thenBranch c s
  | .conditional _ thenBranch (some elseBranch), c, s =>
    (Stmt.resolve_leaves thenBranch c s).trans (Stmt.resolve_leaves elseBranch c _)
  | .loop _ body, c, s => Stmt.resolve_leaves body c s
  | .function decl, _, s =>
    (Scopes.Leaves.declare s decl.name).define decl.name (List.mem_singleton_self _)
  | .ret _ _, c, s => by
    by_cases hc : c.insideFunction = true <;>
      simp only [Stmt.resolve, hc, not_true_eq_false, Bool.false_eq_true, not_false_eq_true,
        if_true, if_false] <;>
      exact .refl _ s
  | .classDecl name none _, _, s | .classDecl name (some _) _, _, s =>
    (Scopes.Leaves.declare s name).define name (List.mem_singleton_self _)

theorem Stmt.resolveAll_leaves : ∀ (xs : List Stmt) (c : Context) (s : Scopes),
    Scopes.Leaves (Stmt.bindsAll xs) s (Stmt.resolveAll c s xs).value.2
  | [], _, s => .refl _ s
  | x :: xs, c, s => (Stmt.resolve_leaves x c s).trans (Stmt.resolveAll_leaves xs c _)

/-! ## Steps of the walk -/

namespace Resolver

variable {α β : Type} {r r' : Resolver} {a : α}

/-- With these errors after the others. -/
def reporting (r : Resolver) (errors : List CompileError) : Resolver :=
  { r with errors := r.errors ++ errors }

/-- With these names visible. -/
def seeing (r : Resolver) (s : Scopes) : Resolver :=
  { r with scopes := s.locals, globals := s.globals }

/-- Inside a function of a kind. -/
def inside (r : Resolver) (kind : FunctionKind) : Resolver :=
  { r with function := kind }

/-- Inside a class. -/
def inClass (r : Resolver) (context : ClassContext) : Resolver :=
  { r with enclosingClass := context }

/-- What surrounds the place. -/
def context (r : Resolver) : Context :=
  ⟨decide (r.function ≠ .none), r.enclosingClass⟩

@[simp] theorem visible_inside (kind : FunctionKind) : (r.inside kind).visible = r.visible := rfl

@[simp] theorem reporting_nil : r.reporting [] = r := by
  rw [reporting, List.append_nil]

@[simp] theorem reporting_reporting (errors errors' : List CompileError) :
    (r.reporting errors).reporting errors' = r.reporting (errors ++ errors') := by
  simp only [reporting, List.append_assoc]

@[simp] theorem seeing_seeing (s s' : Scopes) : (r.seeing s).seeing s' = r.seeing s' := rfl

@[simp] theorem seeing_reporting (errors : List CompileError) (s : Scopes) :
    (r.reporting errors).seeing s = (r.seeing s).reporting errors := rfl

theorem bind_apply {p : Visit α} {f : α → Visit β} (h : p r = (a, r')) :
    (p >>= f) r = f a r' := by
  show (match p r with | (a, r') => f a r') = _
  rw [h]

theorem get_bind (f : Resolver → Visit β) : ((get : Visit Resolver) >>= f) r = f r r := rfl

theorem setFunction_eq (kind : FunctionKind) : setFunction kind r = ((), r.inside kind) := rfl

theorem setClass_eq (context : ClassContext) : setClass context r = ((), r.inClass context) := rfl

theorem beginScope_eq : beginScope r = ((), r.seeing (r.visible.push .empty)) := rfl

theorem declare_eq (name : Token) (r : Resolver) :
    declare name r = ((), (r.seeing (r.visible.declare name).value).reporting
      (r.visible.declare name).errors) := by
  rw [declare, get_bind, Scopes.declare]
  obtain ⟨scopes, globals, kind, context, errors⟩ := r
  cases scopes with
  | nil =>
    simp only [visible, Checked.errors_pure, reporting_nil]
    rfl
  | cons scope outer =>
    simp only [visible]
    split
    · rfl
    · rw [Checked.errors_pure, reporting_nil]
      rfl

theorem define_eq (name : Token) (r : Resolver) :
    define name r = ((), r.seeing (r.visible.define name)) := by
  obtain ⟨scopes, globals, kind, context, errors⟩ := r
  cases scopes <;> rfl

theorem declareParams_eq : ∀ (params : List Token) (r : Resolver),
    declareParams params r = ((), (r.seeing (r.visible.declareParams params).value).reporting
      (r.visible.declareParams params).errors)
  | [], r => by
    rw [show (r.visible.declareParams []).errors = [] from rfl, reporting_nil]
    rfl
  | p :: ps, r => by
    rw [declareParams, bind_apply (declare_eq p r), bind_apply (define_eq p _),
      declareParams_eq ps]
    simp only [seeing_reporting, seeing_seeing, reporting_reporting]
    rfl

/-! ## Expressions -/

/-- A part of the walk gives what was checked, and reports the errors found; nothing else in the
state changes. -/
def Checks (r : Resolver) (p : Visit α) (c : Checked α) : Prop :=
  p r = (c.value, r.reporting c.errors)

namespace Checks

variable {p : Visit α} {c : Checked α}

protected theorem pure (a : α) : Checks r (pure a) (pure a) := by
  unfold Checks
  rw [Checked.errors_pure, reporting_nil]
  rfl

protected theorem bind {f : α → Visit β} {g : α → Checked β} (hp : Checks r p c)
    (hf : Checks (r.reporting c.errors) (f c.value) (g c.value)) :
    Checks r (p >>= f) (c >>= g) := by
  unfold Checks at hp hf ⊢
  rw [bind_apply hp, hf, reporting_reporting]
  rfl

theorem error (token : Token) (cause : ScopeCause) :
    Checks r (Resolver.error token cause) (Checked.report token cause) :=
  rfl

end Checks

theorem resolveLocal_eq (name : Token) (slot : Option Nat) (r : Resolver) :
    resolveLocal name slot r = (r.visible.slot name slot, r) := by
  rw [resolveLocal, get_bind, Scopes.slot]
  cases r.visible.distance? name.lexeme <;> rfl

theorem resolveLocal_checks (name : Token) (slot : Option Nat) (f : Option Nat → β)
    (r : Resolver) :
    Checks r (resolveLocal name slot >>= fun slot => pure (f slot))
      (pure (f (r.visible.slot name slot))) := by
  unfold Checks
  rw [bind_apply (resolveLocal_eq name slot r), Checked.errors_pure, reporting_nil]
  rfl

theorem resolveRead_checks (name : Token) (slot : Option Nat) (r : Resolver) :
    Checks r (resolveRead name slot) (r.visible.readSlot name slot) := by
  unfold Checks Scopes.readSlot
  rw [resolveRead, get_bind]
  split
  · cases houter : r.visible.outerDistance? name.lexeme with
    | some distance =>
      have hfound : resolveEnclosing name slot r = ((some distance, true), r) := by
        rw [resolveEnclosing, get_bind, houter]
        rfl
      rw [bind_apply hfound, Checked.errors_pure, reporting_nil]
      rfl
    | none =>
      have hfound : resolveEnclosing name slot r
          = ((slot, decide (name.lexeme ∈ r.visible.globals)), r) := by
        rw [resolveEnclosing, get_bind, houter]
        rfl
      rw [bind_apply hfound]
      by_cases hglobal : name.lexeme ∈ r.visible.globals
      · simp only [hglobal, decide_true, not_true_eq_false, if_false]
        exact Checks.pure slot
      · simp only [hglobal, decide_false, not_false_eq_true, if_true]
        exact (Checks.error name .readInOwnInitializer).bind (.pure slot)
  · rw [Checked.errors_pure, reporting_nil]
    exact resolveLocal_eq name slot r

theorem this_checks (keyword : Token) (slot : Option Nat) (r : Resolver) :
    Checks r (Expr.this keyword slot).visit
      ((Expr.this keyword slot).resolve r.visible r.enclosingClass) := by
  have hlocal := resolveLocal_checks keyword slot (Expr.this keyword) r
  obtain ⟨scopes, globals, kind, context, errors⟩ := r
  cases context with
  | outside => rfl
  | plain => exact hlocal
  | subclass => exact hlocal

theorem super_checks (keyword method : Token) (slot : Option Nat) (r : Resolver) :
    Checks r (Expr.super keyword method slot).visit
      ((Expr.super keyword method slot).resolve r.visible r.enclosingClass) := by
  have hlocal := resolveLocal_checks keyword slot (Expr.super keyword method) r
  obtain ⟨scopes, globals, kind, context, errors⟩ := r
  cases context with
  | outside => rfl
  | plain => rfl
  | subclass => exact hlocal

end Resolver

open Resolver

mutual

theorem Expr.visit_checks : ∀ (e : Expr) (r : Resolver),
    Checks r e.visit (e.resolve r.visible r.enclosingClass)
  | .literal _, _ => .pure _
  | .grouping inner, r => (Expr.visit_checks inner r).bind (.pure _)
  | .unary _ right, r => (Expr.visit_checks right r).bind (.pure _)
  | .binary left _ right, r | .logical left _ right, r =>
    (Expr.visit_checks left r).bind ((Expr.visit_checks right _).bind (.pure _))
  | .variable name slot, r => (resolveRead_checks name slot r).bind (.pure _)
  | .assign name value slot, r =>
    (Expr.visit_checks value r).bind (resolveLocal_checks name slot (Expr.assign name _) _)
  | .call callee _ arguments, r =>
    (Expr.visit_checks callee r).bind ((Expr.visitAll_checks arguments _).bind (.pure _))
  | .get object _, r => (Expr.visit_checks object r).bind (.pure _)
  | .set object _ value, r =>
    (Expr.visit_checks value r).bind ((Expr.visit_checks object _).bind (.pure _))
  | .this keyword slot, r => this_checks keyword slot r
  | .super keyword method slot, r => super_checks keyword method slot r

theorem Expr.visitAll_checks : ∀ (es : List Expr) (r : Resolver),
    Checks r (Expr.visitAll es) (Expr.resolveAll r.visible r.enclosingClass es)
  | [], _ => .pure _
  | e :: es, r => (Expr.visit_checks e r).bind ((Expr.visitAll_checks es _).bind (.pure _))

end

theorem Expr.visitOpt_checks : ∀ (e : Option Expr) (r : Resolver),
    Checks r (Expr.visitOpt e) (Expr.resolveOpt r.visible r.enclosingClass e)
  | none, _ => .pure _
  | some e, r => (Expr.visit_checks e r).bind (.pure _)

/-! ## Statements -/

namespace Resolver

variable {α β : Type} {r : Resolver}

/-- A part of the walk gives what was checked, reports the errors found, and leaves the names that
are visible afterwards; nothing else in the state changes. -/
def Walks (r : Resolver) (p : Visit α) (c : Checked (α × Scopes)) : Prop :=
  p r = (c.value.1, (r.seeing c.value.2).reporting c.errors)

namespace Walks

protected theorem pure (a : α) : Walks r (pure a) (pure (a, r.visible)) := by
  unfold Walks
  rw [Checked.errors_pure, reporting_nil]
  rfl

/-- First a part that changes no names. -/
theorem check {p : Visit α} {c : Checked α} {f : α → Visit β} {g : α → Checked (β × Scopes)}
    (hp : Checks r p c) (hf : Walks (r.reporting c.errors) (f c.value) (g c.value)) :
    Walks r (p >>= f) (c >>= g) := by
  unfold Checks at hp
  unfold Walks at hf ⊢
  rw [bind_apply hp, hf, seeing_reporting, reporting_reporting]
  rfl

protected theorem bind {p : Visit α} {c : Checked (α × Scopes)} {f : α → Visit β}
    {g : α × Scopes → Checked (β × Scopes)} (hp : Walks r p c)
    (hf : Walks ((r.seeing c.value.2).reporting c.errors) (f c.value.1) (g c.value)) :
    Walks r (p >>= f) (c >>= g) := by
  unfold Walks at hp hf ⊢
  rw [bind_apply hp, hf, seeing_reporting, reporting_reporting, seeing_seeing]
  rfl

/-- First a part that declares names. -/
theorem names {p : Visit Unit} {c : Checked Scopes} {q : Visit β}
    {g : Scopes → Checked (β × Scopes)} (hp : p r = ((), (r.seeing c.value).reporting c.errors))
    (hq : Walks ((r.seeing c.value).reporting c.errors) q (g c.value)) :
    Walks r (p >>= fun _ => q) (c >>= g) := by
  unfold Walks at hq ⊢
  rw [bind_apply hp, hq, seeing_reporting, reporting_reporting, seeing_seeing]
  rfl

theorem define {name : Token} {p : Visit β} {c : Checked (β × Scopes)}
    (hp : Walks (r.seeing (r.visible.define name)) p c) :
    Walks r (Resolver.define name >>= fun _ => p) c := by
  unfold Walks at hp ⊢
  rw [bind_apply (define_eq name r), hp, seeing_seeing]

end Walks

theorem endScope_eq {names : List String} {s s' : Scopes} {scope : Scope}
    (h : Scopes.Leaves names (s.push scope) s') (r : Resolver) (errors : List CompileError) :
    endScope ((r.seeing s').reporting errors) = ((), (r.seeing s).reporting errors) := by
  obtain ⟨hlocals, hglobals⟩ := h.pop
  show ((), { (r.reporting errors) with scopes := s'.locals.tail, globals := s'.globals }) = _
  rw [hlocals, hglobals]
  rfl

/-- A part of the walk in a scope of its own. -/
theorem Walks.scoped {names : List String} {s : Scopes} {scope : Scope} {p : Visit α}
    {c : Checked (α × Scopes)} {f : α → Visit β} (hp : Walks (r.seeing (s.push scope)) p c)
    (h : Scopes.Leaves names (s.push scope) c.value.2) :
    (p >>= fun a => endScope >>= fun _ => f a) (r.seeing (s.push scope)) =
      f c.value.1 ((r.seeing s).reporting c.errors) := by
  rw [bind_apply hp, seeing_seeing, bind_apply (endScope_eq h r c.errors)]

end Resolver

/-- A method is a function of some kind. -/
theorem FunctionDecl.methodKind_ne (f : FunctionDecl) : f.methodKind ≠ .none := by
  unfold methodKind
  split <;> exact nofun

section

variable {r : Resolver}

/-- A function, whose body is walked over with another kind of function around it. -/
theorem FunctionDecl.visit_of_body {name : Token} {params : List Token} {body : List Stmt}
    {kind : FunctionKind} (hkind : kind ≠ .none)
    (hbody : ∀ r', Walks r' (Stmt.visitAll body) (Stmt.resolveAll r'.context r'.visible body)) :
    Checks r (FunctionDecl.visit kind ⟨name, params, body⟩)
      (FunctionDecl.resolve r.context r.visible ⟨name, params, body⟩) := by
  have hcontext : (r.inside kind).context = { r.context with insideFunction := true } := by
    rw [Resolver.context, Resolver.context, inside, decide_eq_true hkind]
  have hleaves := (Scopes.declareParams_leaves params (r.visible.push .empty)).trans
    (Stmt.resolveAll_leaves body { r.context with insideFunction := true } _)
  have hwalks : Walks ((r.inside kind).seeing (r.visible.push .empty))
      (declareParams params >>= fun _ => Stmt.visitAll body)
      ((r.visible.push .empty).declareParams params >>= fun s =>
        Stmt.resolveAll { r.context with insideFunction := true } s body) := by
    rw [← hcontext]
    exact .names (declareParams_eq params _) (hbody _)
  unfold Checks
  rw [FunctionDecl.visit, get_bind, bind_apply (setFunction_eq kind), bind_apply beginScope_eq,
    visible_inside]
  show ((declareParams params >>= fun _ => Stmt.visitAll body) >>= fun body =>
    endScope >>= fun _ => setFunction r.function >>= fun _ =>
      pure (FunctionDecl.mk name params body)) _ = _
  rw [hwalks.scoped hleaves, FunctionDecl.resolve]
  simp only [Checked.errors_bind, Checked.errors_pure, List.append_nil]
  rfl

/-- A block, whose statements are walked over in a scope of their own. -/
theorem Stmt.visit_of_block {body : List Stmt}
    (hbody : ∀ r', Walks r' (Stmt.visitAll body) (Stmt.resolveAll r'.context r'.visible body)) :
    Walks r (Stmt.block body).visit ((Stmt.block body).resolve r.context r.visible) := by
  have hleaves := Stmt.resolveAll_leaves body r.context (r.visible.push .empty)
  unfold Walks
  rw [Stmt.visit, bind_apply beginScope_eq, (hbody _).scoped hleaves, Stmt.resolve,
    Checked.errors_bind, Checked.errors_pure, List.append_nil]
  rfl

theorem bindThis_eq (s : Scopes) :
    Resolver.bind "this" (r.seeing (s.push .empty)) = ((), r.seeing (s.push thisScope)) := rfl

theorem bindSuper_eq (s : Scopes) :
    Resolver.bind "super" (r.seeing (s.push .empty)) = ((), r.seeing (s.push superScope)) := rfl

theorem checkInheritance_checks (className : Token) : ∀ superclass : Expr,
    Checks r (checkInheritance className superclass) (checkSuperclass className superclass)
  | .variable name _ => by
    show Checks r (if _ then _ else _) (if _ then _ else _)
    split
    · exact .error name .inheritsFromItself
    · exact .pure ()
  | .literal _ | .grouping _ | .unary _ _ | .binary _ _ _ | .logical _ _ _ | .assign _ _ _
  | .call _ _ _ | .get _ _ | .set _ _ _ | .this _ _ | .super _ _ _ => .pure ()

theorem enterSuperclass_eq (className : Token) (superclass : Expr) (r : Resolver) :
    enterSuperclass className (some superclass) r =
      (some (superclass.resolve r.visible .subclass).value,
        (((r.inClass .subclass).seeing (r.visible.push superScope)).reporting
          ((checkSuperclass className superclass).errors ++
            (superclass.resolve r.visible .subclass).errors))) := by
  rw [enterSuperclass, bind_apply (checkInheritance_checks className superclass),
    bind_apply (setClass_eq .subclass), bind_apply (Expr.visit_checks superclass _),
    bind_apply beginScope_eq, bind_apply (bindSuper_eq _), ← reporting_reporting]
  rfl

section

variable {methods : List FunctionDecl}
  (hmethods : ∀ r', Checks r' (FunctionDecl.visitMethods methods)
    (FunctionDecl.resolveAll r'.context r'.visible methods))
include hmethods

/-- The methods of a class, which are walked over in the scope that holds `this`. -/
theorem visitMethods_scoped {α : Type} (f : List FunctionDecl → Visit α) (r : Resolver) :
    (beginScope >>= fun _ => Resolver.bind "this" >>= fun _ =>
        FunctionDecl.visitMethods methods >>= fun methods => endScope >>= fun _ => f methods) r =
      f (FunctionDecl.resolveAll r.context (r.visible.push thisScope) methods).value
        (r.reporting
          (FunctionDecl.resolveAll r.context (r.visible.push thisScope) methods).errors) := by
  rw [bind_apply beginScope_eq, bind_apply (bindThis_eq _), bind_apply (hmethods _),
    bind_apply (endScope_eq (.refl [] _) _ _)]
  rfl

/-- The methods of a subclass, around which there is also the scope that holds `super`. -/
theorem visitMethods_subclass {α : Type} (f : Option Expr → List FunctionDecl → Visit α)
    (className : Token) (superclass : Expr) (r : Resolver) :
    (enterSuperclass className (some superclass) >>= fun above => beginScope >>= fun _ =>
        Resolver.bind "this" >>= fun _ => FunctionDecl.visitMethods methods >>= fun methods =>
          endScope >>= fun _ => leaveSuperclass above >>= fun _ => f above methods) r =
      f (some (superclass.resolve r.visible .subclass).value)
        (FunctionDecl.resolveAll { r.context with enclosingClass := .subclass }
          ((r.visible.push superScope).push thisScope) methods).value
        ((r.inClass .subclass).reporting ((checkSuperclass className superclass).errors ++
          ((superclass.resolve r.visible .subclass).errors ++
            (FunctionDecl.resolveAll { r.context with enclosingClass := .subclass }
              ((r.visible.push superScope).push thisScope) methods).errors))) := by
  rw [bind_apply (enterSuperclass_eq className superclass r), visitMethods_scoped hmethods,
    leaveSuperclass, reporting_reporting, bind_apply (endScope_eq (.refl [] _) _ _),
    List.append_assoc]
  rfl

/-- A class, whose methods are walked over in the scopes of the class. -/
theorem Stmt.visit_of_methods (name : Token) (superclass : Option Expr) :
    Walks r (Stmt.classDecl name superclass methods).visit
      ((Stmt.classDecl name superclass methods).resolve r.context r.visible) := by
  unfold Walks
  rw [Stmt.visit, get_bind, bind_apply (setClass_eq .plain), bind_apply (declare_eq name _),
    bind_apply (define_eq name _)]
  cases superclass with
  | none =>
    rw [enterSuperclass, bind_apply (rfl : (pure none : Visit (Option Expr)) _ = (none, _)),
      visitMethods_scoped hmethods, seeing_reporting, reporting_reporting, seeing_seeing,
      Stmt.resolve]
    simp only [Checked.errors_bind, Checked.errors_pure, List.append_nil]
    rfl
  | some superclass =>
    rw [visitMethods_subclass hmethods (fun superclass methods => setClass r.enclosingClass >>=
      fun _ => pure (Stmt.classDecl name superclass methods)) name superclass, Stmt.resolve]
    simp only [Checked.errors_bind, Checked.errors_pure, List.append_nil]
    exact Prod.ext rfl (reporting_reporting (r := r.seeing _) (r.visible.declare name).errors _)

end

theorem Stmt.visit_of_ret (keyword : Token) (value : Option Expr) :
    Walks r (Stmt.ret keyword value).visit
      ((Stmt.ret keyword value).resolve r.context r.visible) := by
  have hvalue : ∀ r' : Resolver, Walks r'
      (Expr.visitOpt value >>= fun value => pure (Stmt.ret keyword value))
      (Expr.resolveOpt r'.visible r'.enclosingClass value >>= fun value =>
        pure (Stmt.ret keyword value, r'.visible)) :=
    fun r' => .check (Expr.visitOpt_checks value r') (.pure _)
  obtain ⟨scopes, globals, kind, context, errors⟩ := r
  cases kind with
  | none =>
    have hreport := Checks.error (r := ⟨scopes, globals, .none, context, errors⟩) keyword
      .returnAtTopLevel
    exact Walks.check (f := fun _ => _) (g := fun _ => _) hreport (hvalue _)
  | function => exact hvalue _
  | initializer => exact hvalue _
  | method => exact hvalue _

end

mutual

/-- Walking over a statement gives what resolving it gives; the kinds of the function and of the
class are as before. -/
theorem Stmt.visit_walks : ∀ (x : Stmt) (r : Resolver),
    Walks r x.visit (x.resolve r.context r.visible)
  | .expression value, r => .check (Expr.visit_checks value r) (.pure _)
  | .print _ value, r => .check (Expr.visit_checks value r) (.pure _)
  | .var name initializer, r =>
    .names (declare_eq name r) (.check (Expr.visitOpt_checks initializer _) (.define (.pure _)))
  | .block body, _ => Stmt.visit_of_block (Stmt.visitAll_walks body)
  | .conditional condition thenBranch none, r =>
    .check (Expr.visit_checks condition r) (.bind (Stmt.visit_walks thenBranch _) (.pure _))
  | .conditional condition thenBranch (some elseBranch), r =>
    .check (Expr.visit_checks condition r) (.bind (Stmt.visit_walks thenBranch _)
      (.bind (Stmt.visit_walks elseBranch _) (.pure _)))
  | .loop condition body, r =>
    .check (Expr.visit_checks condition r) (.bind (Stmt.visit_walks body _) (.pure _))
  | .function decl, r =>
    .names (declare_eq decl.name r)
      (.define (.check (FunctionDecl.visit_checks decl .function nofun _) (.pure _)))
  | .ret keyword value, _ => Stmt.visit_of_ret keyword value
  | .classDecl name superclass methods, _ =>
    Stmt.visit_of_methods (FunctionDecl.visitMethods_checks methods) name superclass

theorem FunctionDecl.visit_checks : ∀ (f : FunctionDecl) (kind : FunctionKind), kind ≠ .none →
    ∀ r : Resolver, Checks r (f.visit kind) (f.resolve r.context r.visible)
  | ⟨_, _, body⟩, _, hkind, _ => FunctionDecl.visit_of_body hkind (Stmt.visitAll_walks body)

theorem Stmt.visitAll_walks : ∀ (xs : List Stmt) (r : Resolver),
    Walks r (Stmt.visitAll xs) (Stmt.resolveAll r.context r.visible xs)
  | [], _ => .pure _
  | x :: xs, r => .bind (Stmt.visit_walks x r) (.bind (Stmt.visitAll_walks xs _) (.pure _))

theorem FunctionDecl.visitMethods_checks : ∀ (fs : List FunctionDecl) (r : Resolver),
    Checks r (FunctionDecl.visitMethods fs) (FunctionDecl.resolveAll r.context r.visible fs)
  | [], _ => .pure _
  | f :: fs, r =>
    .bind (FunctionDecl.visit_checks f f.methodKind f.methodKind_ne r)
      (.bind (FunctionDecl.visitMethods_checks fs _) (.pure _))

end

/-! ## Whole walks -/

/-- A statement is walked over with what it found around it: the kinds of the function and of the
class are the same afterwards, and so is the stack of scopes, but for the names that the statement
itself binds in the innermost one. -/
theorem Stmt.visit_balanced (x : Stmt) (r : Resolver) :
    ∃ r', x.visit r = ((x.resolve r.context r.visible).value.1, r') ∧
      r'.function = r.function ∧ r'.enclosingClass = r.enclosingClass ∧
      SameStack x.binds r.scopes r'.scopes :=
  ⟨_, x.visit_walks r, rfl, rfl, (x.resolve_leaves r.context r.visible).locals⟩

/-- A program is resolved by walking over it from the start; no scope is left. -/
theorem visitAll_eq_resolve (globals : List String) (program : List Stmt) :
    Stmt.visitAll program (.start globals) = ((resolve globals program).value.1,
      { Resolver.start (resolve globals program).value.2.globals with
        errors := (resolve globals program).errors }) := by
  have hlocals := (Stmt.resolveAll_leaves program .top (.top globals)).locals
  have hnil : (Stmt.resolveAll .top (.top globals) program).value.2.locals = [] := by
    cases h : (Stmt.resolveAll .top (.top globals) program).value.2.locals with
    | nil => rfl
    | cons scope outer => rw [h] at hlocals; exact hlocals.elim
  rw [Stmt.visitAll_walks program (.start globals)]
  show (_, (⟨(Stmt.resolveAll .top (.top globals) program).value.2.locals, _, _, _, _⟩ :
    Resolver)) = _
  rw [hnil]
  rfl

end Lox
