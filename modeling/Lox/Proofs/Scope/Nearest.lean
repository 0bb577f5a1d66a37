import Lox.Proofs.Scope.Slots
import Lox.Proofs.Session.Accepted
import Mathlib

/-!
# Slots against the program text

What a slot should hold can be read off the text of a program, without a walk. `Stands` tells where
a statement stands: in which local scopes, and which names are declared in each of them textually
before it. `Occurs` does the same for the nodes that have slots. Where `resolve` finds no errors,
every slot holds the distance to the nearest of those scopes that declares the name, or nothing when
none does (`slots_nearest`).
-/

set_option autoImplicit false

namespace Lox

/-! ## The nearest scope -/

/-- Of these scopes the one at this distance is the nearest that declares the name; without a
distance, none of them declares it. -/
def Nest.Nearest (n : Nest) (x : String) : Option Nat → Prop
  | some d => (∃ names, n[d]? = some names ∧ x ∈ names) ∧
      ∀ i < d, ∀ names, n[i]? = some names → x ∉ names
  | none => ∀ names ∈ n, x ∉ names

/-- The nearest scope is found by searching. -/
theorem Nest.nearest_distance? (x : String) : ∀ n : Nest, n.Nearest x (n.distance? x)
  | [] => nofun
  | names :: n => by
    have ih := Nest.nearest_distance? x n
    rw [Nest.distance?_cons]
    by_cases hx : x ∈ names
    · rw [if_pos hx]
      exact ⟨⟨names, rfl, hx⟩, fun i hi => absurd hi (Nat.not_lt_zero i)⟩
    · rw [if_neg hx]
      cases hd : Nest.distance? n x with
      | none =>
        rw [hd] at ih
        exact List.forall_mem_cons.2 ⟨hx, ih⟩
      | some d =>
        rw [hd] at ih
        obtain ⟨hfound, hnearer⟩ := ih
        refine ⟨hfound, fun i hi names' hnames' => ?_⟩
        cases i with
        | zero =>
          cases hnames'
          exact hx
        | succ i => exact hnearer i (Nat.lt_of_succ_lt_succ hi) names' hnames'

/-- The scopes declare the same names, in whatever order. -/
def Nest.Same (n n' : Nest) : Prop :=
  List.Forall₂ (fun names names' => ∀ x, x ∈ names ↔ x ∈ names') n n'

namespace Nest.Same

variable {n n' : Nest}

theorem distance? (h : n.Same n') (x : String) : n.distance? x = n'.distance? x := by
  induction h with
  | nil => rfl
  | cons hnames _ ih => simp only [distance?_cons, hnames x, ih]

theorem declare (h : n.Same n') (name : String) : (n.declare name).Same (n'.declare name) := by
  cases h with
  | nil => exact .nil
  | cons hnames h =>
    refine .cons (fun x => ?_) h
    rw [List.mem_cons, List.mem_cons, hnames]

theorem methodNest (h : n.Same n') (superclass : Option Expr) :
    (Lox.methodNest n superclass).Same (Lox.methodNest n' superclass) := by
  cases superclass with
  | none => exact .cons (fun _ => Iff.rfl) h
  | some e => exact .cons (fun _ => Iff.rfl) (.cons (fun _ => Iff.rfl) h)

/-- Inside a scope, after some of its statements. -/
theorem enter (h : n.Same n') (names : List String) (before : List Stmt) :
    Nest.Same ((names ++ Stmt.declaredNames before) :: n)
      (before.foldl Nest.after (names :: n')) := by
  obtain ⟨names', hfold, hnames'⟩ := Nest.foldl_after_cons n' before names
  rw [hfold]
  refine .cons (fun x => ?_) h
  rw [List.mem_append, hnames']

end Nest.Same

/-! ## Places in the text -/

/-- A statement of a program, and the local scopes in which it stands, innermost first, each with
the names that are declared in it before the statement. A function and a class have declared their
own names before their bodies begin. -/
inductive Stands (program : List Stmt) : Nest → Stmt → Prop
  | top {before after : List Stmt} {s : Stmt} (h : program = before ++ s :: after) :
      Stands program [] s
  | block {n : Nest} {before after : List Stmt} {s : Stmt}
      (h : Stands program n (.block (before ++ s :: after))) :
      Stands program (Stmt.declaredNames before :: n) s
  | thenBranch {n : Nest} {condition : Expr} {s : Stmt} {elseBranch : Option Stmt}
      (h : Stands program n (.conditional condition s elseBranch)) : Stands program n s
  | elseBranch {n : Nest} {condition : Expr} {thenBranch s : Stmt}
      (h : Stands program n (.conditional condition thenBranch (some s))) : Stands program n s
  | loopBody {n : Nest} {condition : Expr} {s : Stmt}
      (h : Stands program n (.loop condition s)) : Stands program n s
  | function {n : Nest} {name : Token} {params : List Token} {before after : List Stmt} {s : Stmt}
      (h : Stands program n (.function ⟨name, params, before ++ s :: after⟩)) :
      Stands program ((params.map (·.lexeme) ++ Stmt.declaredNames before) ::
        n.declare name.lexeme) s
  | method {n : Nest} {name methodName : Token} {superclass : Option Expr}
      {methods : List FunctionDecl} {params : List Token} {before after : List Stmt} {s : Stmt}
      (h : Stands program n (.classDecl name superclass methods))
      (hm : ⟨methodName, params, before ++ s :: after⟩ ∈ methods) :
      Stands program ((params.map (·.lexeme) ++ Stmt.declaredNames before) ::
        methodNest (n.declare name.lexeme) superclass) s

/-- An expression of a statement; with an initializer goes the name that it initializes. A class is
not its own superclass, so it does not matter whether its name counts as declared there. -/
inductive Stmt.Evaluates : Stmt → Option Token → Expr → Prop
  | expression (value : Expr) : Evaluates (.expression value) none value
  | print (keyword : Token) (value : Expr) : Evaluates (.print keyword value) none value
  | initializer (name : Token) (value : Expr) : Evaluates (.var name (some value)) (some name) value
  | condition (condition : Expr) (thenBranch : Stmt) (elseBranch : Option Stmt) :
      Evaluates (.conditional condition thenBranch elseBranch) none condition
  | loop (condition : Expr) (body : Stmt) : Evaluates (.loop condition body) none condition
  | ret (keyword : Token) (value : Expr) : Evaluates (.ret keyword (some value)) none value
  | superclass (name : Token) (superclass : Expr) (methods : List FunctionDecl) :
      Evaluates (.classDecl name (some superclass) methods) none superclass

/-- A node with a slot in a program, the local scopes around it, and the name that is being
initialized. -/
inductive Occurs (program : List Stmt) : Nest → Option Token → Reference → Prop
  | mk {n : Nest} {s : Stmt} {own : Option Token} {e : Expr} {r : Reference}
      (hs : Stands program n s) (he : s.Evaluates own e) (hr : r ∈ e.references) :
      Occurs program n own r

namespace Reference

/-- The name that a node looks for. -/
def name (r : Reference) : String :=
  match r.kind with
  | .variable | .assign => r.token.lexeme
  | .this => "this"
  | .super => "super"

/-- The scopes in which a node looks for its name. In the initializer of a variable its declaration
counts for an assignment, and for nothing else. -/
def scopes (r : Reference) (n : Nest) (own : Option Token) : Nest :=
  match r.kind, own with
  | .assign, some name => n.declare name.lexeme
  | _, _ => n

end Reference

/-! ## Slots of scoped trees -/

/-- The name that is pending while a statement in these scopes evaluates its expression. -/
def Nest.pendingOf (n : Nest) (own : Option Token) : Option String :=
  own.bind fun name => n.pending name.lexeme

/-- An assignment to the variable that is being initialized finds it in its own scope. -/
theorem Nest.target?_pendingOf (n : Nest) (own : Option Token) (x : String) :
    n.target? (n.pendingOf own) x = (match own with
      | some name => n.declare name.lexeme
      | none => n).distance? x := by
  cases own with
  | none => rfl
  | some name =>
    by_cases hn : n = []
    · subst hn
      rfl
    · have hpending : n.pendingOf (some name) = some name.lexeme := by
        simp [Nest.pendingOf, Nest.pending, hn]
      rw [hpending, Nest.target?, Nest.distance?_declare _ _ _ hn]
      simp only [Option.some.injEq, eq_comm]

section

variable {n : Nest} {own : Option Token} {r : Reference}

mutual

theorem Expr.Scoped.references : ∀ {e : Expr}, e.Scoped n (n.pendingOf own) → r ∈ e.references →
    r.depth = (r.scopes n own).distance? r.name
  | .literal _, _, hr => absurd hr List.not_mem_nil
  | .grouping inner, h, hr => by
    simp only [Expr.Scoped] at h
    exact h.references hr
  | .unary _ right, h, hr => by
    simp only [Expr.Scoped] at h
    exact h.2.references hr
  | .binary left _ right, h, hr => by
    simp only [Expr.Scoped] at h
    rcases List.mem_append.1 hr with hr | hr
    · exact h.1.references hr
    · exact h.2.2.references hr
  | .logical left _ right, h, hr => by
    simp only [Expr.Scoped] at h
    rcases List.mem_append.1 hr with hr | hr
    · exact h.1.references hr
    · exact h.2.references hr
  | .variable name depth, h, hr => by
    simp only [Expr.Scoped] at h
    rw [List.mem_singleton.1 hr]
    exact h
  | .assign name value depth, h, hr => by
    simp only [Expr.Scoped] at h
    rcases List.mem_cons.1 hr with rfl | hr
    · have hslot := h.2.2
      rw [Nest.target?_pendingOf] at hslot
      cases own <;> exact hslot
    · exact h.2.1.references hr
  | .call callee _ arguments, h, hr => by
    simp only [Expr.Scoped] at h
    rcases List.mem_append.1 hr with hr | hr
    · exact h.1.references hr
    · exact h.2.referencesAll hr
  | .get object _, h, hr => by
    simp only [Expr.Scoped] at h
    exact h.references hr
  | .set object _ value, h, hr => by
    simp only [Expr.Scoped] at h
    rcases List.mem_append.1 hr with hr | hr
    · exact h.1.references hr
    · exact h.2.references hr
  | .this keyword depth, h, hr => by
    simp only [Expr.Scoped] at h
    obtain ⟨-, d, rfl, hd⟩ := h
    rw [List.mem_singleton.1 hr]
    exact hd.symm
  | .super keyword method depth, h, hr => by
    simp only [Expr.Scoped] at h
    obtain ⟨d, rfl, hd, -⟩ := h
    rw [List.mem_singleton.1 hr]
    exact hd.symm

theorem Expr.AllScoped.referencesAll : ∀ {es : List Expr},
    Expr.AllScoped n (n.pendingOf own) es → r ∈ Expr.referencesAll es →
      r.depth = (r.scopes n own).distance? r.name
  | [], _, hr => absurd hr List.not_mem_nil
  | e :: es, h, hr => by
    simp only [Expr.AllScoped] at h
    rcases List.mem_append.1 hr with hr | hr
    · exact h.1.references hr
    · exact h.2.referencesAll hr

end

/-- The expression of a scoped statement is scoped. -/
theorem Stmt.Scoped.evaluates {s : Stmt} {insideFunction : Bool} {e : Expr}
    (h : s.Scoped insideFunction n) (he : s.Evaluates own e) : e.Scoped n (n.pendingOf own) := by
  cases he with
  | expression | print =>
    simp only [Stmt.Scoped] at h
    exact h
  | initializer | ret =>
    simp only [Stmt.Scoped, Expr.OptScoped] at h
    exact h.2
  | superclass =>
    simp only [Stmt.Scoped, Expr.OptScoped] at h
    exact h.2.1
  | condition condition thenBranch elseBranch =>
    cases elseBranch <;> simp only [Stmt.Scoped] at h <;> exact h.1
  | loop =>
    simp only [Stmt.Scoped] at h
    exact h.1

end

/-! ## Places in scoped programs -/

section

variable {program : List Stmt} {n : Nest}

/-- Every statement of a scoped program is scoped in the scopes in which it stands. -/
theorem Stands.scoped (hp : Stmt.AllScoped false [] program) {s : Stmt}
    (h : Stands program n s) : ∃ n' insideFunction, n.Same n' ∧ s.Scoped insideFunction n' := by
  induction h with
  | top h =>
    rw [h] at hp
    refine ⟨_, _, ?_, hp.of_append.2⟩
    rw [Nest.foldl_after_nil]
    exact .nil
  | @block _ before _ _ _ ih =>
    obtain ⟨n', insideFunction, hsame, hscoped⟩ := ih
    simp only [Stmt.Scoped] at hscoped
    exact ⟨_, _, hsame.enter [] before, hscoped.of_append.2⟩
  | @thenBranch _ _ _ elseBranch _ ih =>
    obtain ⟨n', insideFunction, hsame, hscoped⟩ := ih
    cases elseBranch with
    | none =>
      simp only [Stmt.Scoped] at hscoped
      exact ⟨n', insideFunction, hsame, hscoped.2.1⟩
    | some elseBranch =>
      simp only [Stmt.Scoped] at hscoped
      exact ⟨n', insideFunction, hsame, hscoped.2.1.1⟩
  | elseBranch _ ih =>
    obtain ⟨n', insideFunction, hsame, hscoped⟩ := ih
    simp only [Stmt.Scoped] at hscoped
    exact ⟨n', insideFunction, hsame, hscoped.2.2.1⟩
  | loopBody _ ih =>
    obtain ⟨n', insideFunction, hsame, hscoped⟩ := ih
    simp only [Stmt.Scoped] at hscoped
    exact ⟨n', insideFunction, hsame, hscoped.2.1⟩
  | @function _ name params before _ _ _ ih =>
    obtain ⟨n', insideFunction, hsame, hscoped⟩ := ih
    simp only [Stmt.Scoped, FunctionDecl.Scoped] at hscoped
    obtain ⟨-, -, -, hbody⟩ := hscoped
    exact ⟨_, _, (hsame.declare name.lexeme).enter _ before, hbody.of_append.2⟩
  | @method _ name _ superclass _ params before _ _ _ hm ih =>
    obtain ⟨n', insideFunction, hsame, hscoped⟩ := ih
    simp only [Stmt.Scoped, FunctionDecl.allScoped_iff] at hscoped
    have hmethod := hscoped.2.2 _ hm
    simp only [FunctionDecl.Scoped] at hmethod
    have hclass := (hsame.declare name.lexeme).methodNest superclass
    exact ⟨_, _, hclass.enter _ before, hmethod.2.2.of_append.2⟩

/-- The scopes in which a node looks for its name, with the names in another order. -/
theorem Nest.Same.scopes {n' : Nest} (h : n.Same n') (r : Reference) (own : Option Token) :
    (r.scopes n own).Same (r.scopes n' own) := by
  unfold Reference.scopes
  split
  · exact h.declare _
  · exact h

/-- The slots of a scoped program hold the distances. -/
theorem Occurs.nearest (hp : Stmt.AllScoped false [] program) {own : Option Token} {r : Reference}
    (h : Occurs program n own r) : (r.scopes n own).Nearest r.name r.depth := by
  obtain ⟨hs, he, hr⟩ := h
  obtain ⟨n', insideFunction, hsame, hscoped⟩ := hs.scoped hp
  have hdepth := (hscoped.evaluates he).references hr
  rw [hdepth, ← (hsame.scopes r own).distance?]
  exact Nest.nearest_distance? ..

end

/-! ## All nodes have a place -/

section

variable {program : List Stmt} {r : Reference}

/-- The node is somewhere in the program. -/
def Reference.IsPlaced (program : List Stmt) (r : Reference) : Prop :=
  ∃ n own, Occurs program n own r

theorem Stands.placed {n : Nest} {s : Stmt} {own : Option Token} {e : Expr}
    (hs : Stands program n s) (he : s.Evaluates own e) (hr : r ∈ e.references) :
    r.IsPlaced program :=
  ⟨n, own, .mk hs he hr⟩

mutual

theorem Stmt.placed : ∀ (s : Stmt) {n : Nest}, Stands program n s → r ∈ s.references →
    r.IsPlaced program
  | .expression value, _, h, hr => h.placed (.expression value) hr
  | .print keyword value, _, h, hr => h.placed (.print keyword value) hr
  | .var _ none, _, _, hr => absurd hr List.not_mem_nil
  | .var name (some value), _, h, hr => h.placed (.initializer name value) hr
  | .block body, _, h, hr => by
    refine Stmt.placedAll body (fun s hs => ?_) hr
    obtain ⟨before, after, rfl⟩ := List.append_of_mem hs
    exact ⟨_, .block h⟩
  | .conditional condition thenBranch none, _, h, hr => by
    rcases List.mem_append.1 hr with hr | hr
    · exact h.placed (.condition ..) hr
    · exact Stmt.placed thenBranch (.thenBranch h) hr
  | .conditional condition thenBranch (some elseBranch), _, h, hr => by
    rcases List.mem_append.1 hr with hr | hr
    · rcases List.mem_append.1 hr with hr | hr
      · exact h.placed (.condition ..) hr
      · exact Stmt.placed thenBranch (.thenBranch h) hr
    · exact Stmt.placed elseBranch (.elseBranch h) hr
  | .loop condition body, _, h, hr => by
    rcases List.mem_append.1 hr with hr | hr
    · exact h.placed (.loop ..) hr
    · exact Stmt.placed body (.loopBody h) hr
  | .function ⟨name, params, body⟩, _, h, hr => by
    refine Stmt.placedAll body (fun s hs => ?_) hr
    obtain ⟨before, after, rfl⟩ := List.append_of_mem hs
    exact ⟨_, .function h⟩
  | .ret _ none, _, _, hr => absurd hr List.not_mem_nil
  | .ret keyword (some value), _, h, hr => h.placed (.ret keyword value) hr
  | .classDecl name superclass methods, _, h, hr => by
    rcases List.mem_append.1 hr with hr | hr
    · cases superclass with
      | none => exact absurd hr List.not_mem_nil
      | some superclass => exact h.placed (.superclass ..) hr
    · refine FunctionDecl.placedAll methods (fun f hf s hs => ?_) hr
      obtain ⟨methodName, params, body⟩ := f
      obtain ⟨before, after, rfl⟩ := List.append_of_mem hs
      exact ⟨_, .method h hf⟩

theorem Stmt.placedAll : ∀ (ss : List Stmt), (∀ s ∈ ss, ∃ n, Stands program n s) →
    r ∈ Stmt.referencesAll ss → r.IsPlaced program
  | [], _, hr => absurd hr List.not_mem_nil
  | s :: ss, h, hr => by
    obtain ⟨⟨n, hs⟩, hss⟩ := List.forall_mem_cons.1 h
    rcases List.mem_append.1 hr with hr | hr
    · exact Stmt.placed s hs hr
    · exact Stmt.placedAll ss hss hr

theorem FunctionDecl.placedAll : ∀ (fs : List FunctionDecl),
    (∀ f ∈ fs, ∀ s ∈ f.body, ∃ n, Stands program n s) → r ∈ FunctionDecl.referencesAll fs →
      r.IsPlaced program
  | [], _, hr => absurd hr List.not_mem_nil
  | ⟨name, params, body⟩ :: fs, h, hr => by
    obtain ⟨hf, hfs⟩ := List.forall_mem_cons.1 h
    rcases List.mem_append.1 hr with hr | hr
    · exact Stmt.placedAll body hf hr
    · exact FunctionDecl.placedAll fs hfs hr

end

end

/-! ## Checked programs -/

/-- **Slots hold binding distances.** Where the checker finds no errors in a parsed program, it
changes nothing but the slots, every node with a slot stands in known scopes, and wherever one
stands, its slot holds the distance to the nearest scope that declares its name before it, or
nothing when no scope does. -/
theorem slots_nearest {source : String} {parsed : List Stmt} {globals : List String}
    (hparse : Grammar.parse (Lexer.tokens (Lexer.scan source)) = .ok parsed)
    (hok : (resolve globals parsed).errors = []) :
    Stmt.bareAll (resolve globals parsed).value.1 = parsed ∧
      (∀ r ∈ Stmt.referencesAll (resolve globals parsed).value.1,
        ∃ n own, Occurs (resolve globals parsed).value.1 n own r) ∧
      ∀ n own r, Occurs (resolve globals parsed).value.1 n own r →
        (r.scopes n own).Nearest r.name r.depth := by
  have hshaped := parse_shaped hparse
  have hscoped := resolve_scoped hshaped hok
  refine ⟨resolve_bare hshaped, fun r hr => ?_, fun n own r h => h.nearest hscoped⟩
  refine Stmt.placedAll _ (fun s hs => ?_) hr
  obtain ⟨before, after, h⟩ := List.append_of_mem hs
  exact ⟨[], .top h⟩

/-- In the initializer of the inner variable a read goes past it and an assignment does not. -/
theorem slots_nearest_own : ∃ parsed,
    Grammar.parse (Lexer.tokens (Lexer.scan "\x7b var a; \x7b var a = a = a; \x7d \x7d"))
      = .ok parsed ∧
    (resolve [] parsed).errors = [] ∧
    Stmt.referencesAll (resolve [] parsed).value.1 =
      [⟨.assign, ⟨.identifier, "a", 1⟩, some 0⟩, ⟨.variable, ⟨.identifier, "a", 1⟩, some 1⟩] ∧
    ∀ n own r, Occurs (resolve [] parsed).value.1 n own r →
      (r.scopes n own).Nearest r.name r.depth := by
  have hparse : Grammar.parse (Lexer.tokens (Lexer.scan
      "\x7b var a; \x7b var a = a = a; \x7d \x7d")) = .ok [.block [.var ⟨.identifier, "a", 1⟩ none,
        .block [.var ⟨.identifier, "a", 1⟩ (some (.assign ⟨.identifier, "a", 1⟩
          (.variable ⟨.identifier, "a", 1⟩ none) none))]]] := by
    cbv
  have hok : (resolve [] [.block [.var ⟨.identifier, "a", 1⟩ none,
      .block [.var ⟨.identifier, "a", 1⟩ (some (.assign ⟨.identifier, "a", 1⟩
        (.variable ⟨.identifier, "a", 1⟩ none) none))]]]).errors = [] := by
    cbv
  refine ⟨_, hparse, hok, ?_, (slots_nearest hparse hok).2.2⟩
  cbv

end Lox
