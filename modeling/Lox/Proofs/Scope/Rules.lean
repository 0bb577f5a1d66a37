import Lox.Proofs.Scope.Nearest

/-!
# The rules of scope

What makes a program statically ill formed, read off its text. `Lies` tells what is around a
statement: the blocks, functions and methods, with the names that are declared in each of them
before it. `WellScoped` lists the rules in these terms, without the checker: no walk, no flags,
nothing to be saved and restored. At the end, what the checker keeps at a place.
-/

set_option autoImplicit false

namespace Lox

/-! ## Places -/

/-- What the statements of a local scope are the body of. -/
inductive Body where
  | block
  | function
  /-- A method of a class with this superclass clause. -/
  | method (superclass : Option Expr)

/-- A local scope around a place, with the names that are declared in it before the place. -/
structure Layer where
  body : Body
  names : List String

/-- What is around a place in a program: the local scopes, innermost first, and the names that are
declared at the top of the program up to there. -/
structure Site where
  layers : List Layer
  globals : List String

namespace Site

/-- The beginning of a program. -/
def start : Site := ⟨[], []⟩

/-- After a declaration. -/
def declare (p : Site) (name : String) : Site :=
  match p.layers with
  | [] => { p with globals := name :: p.globals }
  | l :: outer => { p with layers := { l with names := name :: l.names } :: outer }

/-- After a statement. -/
def after (p : Site) (s : Stmt) : Site :=
  match s.declared with
  | some name => p.declare name.lexeme
  | none => p

/-- After some statements. -/
def afterAll (p : Site) (ss : List Stmt) : Site :=
  ss.foldl Site.after p

/-- At the beginning of a body, which has declared its parameters. -/
def enter (p : Site) (body : Body) (params : List Token) : Site :=
  { p with layers := ⟨body, params.map (·.lexeme)⟩ :: p.layers }

/-- In the body of a function or a method. -/
def InFunction (p : Site) : Prop :=
  ∃ l ∈ p.layers, l.body ≠ .block

/-- In a method of a class. -/
def InMethod (p : Site) : Prop :=
  ∃ l ∈ p.layers, ∃ superclass, l.body = .method superclass

/-- The superclass clause of the innermost class around. -/
def clause? (p : Site) : Option (Option Expr) :=
  p.layers.findSome? fun l => match l.body with
    | .method superclass => some superclass
    | _ => none

/-- A scope further out than the innermost one declares the name. -/
def DeclaredOutside (p : Site) (name : String) : Prop :=
  ∃ l ∈ p.layers.tail, name ∈ l.names

end Site

/-- A statement of a program, and what is around it. A function and a class have declared their own
names before their bodies begin. -/
inductive Lies (program : List Stmt) : Site → Stmt → Prop
  | top {before after : List Stmt} {s : Stmt} (h : program = before ++ s :: after) :
      Lies program (Site.start.afterAll before) s
  | block {p : Site} {before after : List Stmt} {s : Stmt}
      (h : Lies program p (.block (before ++ s :: after))) :
      Lies program ((p.enter .block []).afterAll before) s
  | thenBranch {p : Site} {condition : Expr} {s : Stmt} {elseBranch : Option Stmt}
      (h : Lies program p (.conditional condition s elseBranch)) : Lies program p s
  | elseBranch {p : Site} {condition : Expr} {thenBranch s : Stmt}
      (h : Lies program p (.conditional condition thenBranch (some s))) : Lies program p s
  | loopBody {p : Site} {condition : Expr} {s : Stmt} (h : Lies program p (.loop condition s)) :
      Lies program p s
  | function {p : Site} {name : Token} {params : List Token} {before after : List Stmt} {s : Stmt}
      (h : Lies program p (.function ⟨name, params, before ++ s :: after⟩)) :
      Lies program (((p.declare name.lexeme).enter .function params).afterAll before) s
  | method {p : Site} {name methodName : Token} {superclass : Option Expr}
      {methods : List FunctionDecl} {params : List Token} {before after : List Stmt} {s : Stmt}
      (h : Lies program p (.classDecl name superclass methods))
      (hm : ⟨methodName, params, before ++ s :: after⟩ ∈ methods) :
      Lies program (((p.declare name.lexeme).enter (.method superclass) params).afterAll before) s

/-! ## The rules -/

/-- A function declares no name twice, counting its parameters together with its body. -/
def FunctionDecl.DeclaresOnce (f : FunctionDecl) : Prop :=
  (f.params.map (·.lexeme) ++ Stmt.declaredNames f.body).Nodup

/-- A program without static errors, where these global names are known beforehand. -/
structure WellScoped (known : List String) (program : List Stmt) : Prop where
  /-- No block declares a name twice. -/
  blocks : ∀ p body, Lies program p (.block body) → (Stmt.declaredNames body).Nodup
  /-- No function declares a name twice. -/
  functions : ∀ p f, Lies program p (.function f) → f.DeclaresOnce
  /-- No method declares a name twice. -/
  methods : ∀ p name superclass methods, Lies program p (.classDecl name superclass methods) →
    ∀ f ∈ methods, f.DeclaresOnce
  /-- Every `return` is in a function or a method. -/
  returns : ∀ p keyword value, Lies program p (.ret keyword value) → p.InFunction
  /-- Every `this` is in a method of some class. -/
  this : ∀ p s own e r, Lies program p s → s.Evaluates own e → r ∈ e.references →
    r.kind = .this → p.InMethod
  /-- For every `super` the innermost class around has a superclass clause. -/
  super : ∀ p s own e r, Lies program p s → s.Evaluates own e → r ∈ e.references →
    r.kind = .super → ∃ superclass, p.clause? = some (some superclass)
  /-- No class names itself as its superclass. -/
  superclasses : ∀ p name above depth methods,
    Lies program p (.classDecl name (some (.variable above depth)) methods) →
      above.lexeme ≠ name.lexeme
  /-- Where a local variable's initializer reads its name, a scope around that of the variable has
  declared the name before, or it is a global name that is known beforehand or declared up to
  there. -/
  initializers : ∀ p name e r, Lies program p (.var name (some e)) → p.layers ≠ [] →
    r ∈ e.references → r.kind = .variable → r.token.lexeme = name.lexeme →
      p.DeclaredOutside name.lexeme ∨ name.lexeme ∈ known ∨ name.lexeme ∈ p.globals

/-! ## The checker at a place -/

/-- The scopes that the checker keeps for a layer: a class has its own around its methods. -/
def Layer.nest (l : Layer) : Nest :=
  match l.body with
  | .method none => [l.names, ["this"]]
  | .method (some _) => [l.names, ["this"], ["super"]]
  | _ => [l.names]

namespace Site

/-- The scopes that the checker keeps at a place. -/
def nest (p : Site) : Nest :=
  p.layers.flatMap Layer.nest

/-- The class around a place. -/
def context (p : Site) : ClassContext :=
  match p.clause? with
  | none => .outside
  | some none => .plain
  | some (some _) => .subclass

/-- The name is new in the innermost scope. -/
def Fresh (p : Site) (name : String) : Prop :=
  ∀ l ∈ p.layers.head?, name ∉ l.names

theorem nest_eq_nil {p : Site} : p.nest = [] ↔ p.layers = [] := by
  obtain ⟨layers, globals⟩ := p
  cases layers with
  | nil => simp [nest]
  | cons l outer =>
    obtain ⟨body, names⟩ := l
    rcases body with _ | _ | _ | superclass <;> simp [nest, Layer.nest]

theorem nest_declare (p : Site) (name : String) :
    (p.declare name).nest = p.nest.declare name := by
  obtain ⟨layers, globals⟩ := p
  cases layers with
  | nil => rfl
  | cons l outer =>
    obtain ⟨body, names⟩ := l
    rcases body with _ | _ | _ | superclass <;> rfl

theorem fresh_nest {p : Site} {name : String} : p.nest.Fresh name ↔ p.Fresh name := by
  obtain ⟨layers, globals⟩ := p
  cases layers with
  | nil => simp [nest, Fresh, Nest.Fresh]
  | cons l outer =>
    obtain ⟨body, names⟩ := l
    rcases body with _ | _ | _ | superclass <;> simp [nest, Layer.nest, Fresh, Nest.Fresh]

theorem clause?_declare (p : Site) (name : String) : (p.declare name).clause? = p.clause? := by
  obtain ⟨layers, globals⟩ := p
  cases layers <;> rfl

theorem inFunction_declare (p : Site) (name : String) :
    (p.declare name).InFunction ↔ p.InFunction := by
  obtain ⟨layers, globals⟩ := p
  cases layers with
  | nil => exact Iff.rfl
  | cons l outer => simp [declare, InFunction]

theorem inMethod_iff {p : Site} : p.InMethod ↔ p.context ≠ .outside := by
  have hclause : p.InMethod ↔ p.clause? ≠ none := by
    unfold InMethod clause?
    rw [ne_eq, List.findSome?_eq_none_iff]
    constructor
    · rintro ⟨l, hl, superclass, hbody⟩ h
      have hnone := h l hl
      rw [hbody] at hnone
      cases hnone
    · intro h
      by_contra hno
      refine h fun l hl => ?_
      split
      · exact absurd ⟨l, hl, _, ‹_›⟩ hno
      · rfl
  rw [hclause, context]
  rcases p.clause? with _ | _ | superclass <;> simp

theorem context_eq_subclass {p : Site} :
    p.context = .subclass ↔ ∃ superclass, p.clause? = some (some superclass) := by
  unfold context
  rcases p.clause? with _ | _ | superclass <;> simp

/-- Beyond the innermost scope, a name that a program can declare is where the text declares it. -/
theorem declaredOutside_iff {p : Site} {name : Token} (hname : name.IsName) :
    p.DeclaredOutside name.lexeme ↔ ∃ names ∈ p.nest.tail, name.lexeme ∈ names := by
  obtain ⟨hthis, hsuper⟩ := hname
  have hlayer : ∀ l : Layer, (∃ names ∈ l.nest, name.lexeme ∈ names) ↔ name.lexeme ∈ l.names := by
    rintro ⟨body, names⟩
    rcases body with _ | _ | _ | superclass <;> simp [Layer.nest, hthis, hsuper]
  obtain ⟨layers, globals⟩ := p
  cases layers with
  | nil => simp [DeclaredOutside, nest]
  | cons l outer =>
    have houter : (∃ names ∈ outer.flatMap Layer.nest, name.lexeme ∈ names) ↔
        ∃ l ∈ outer, name.lexeme ∈ l.names := by
      constructor
      · rintro ⟨names, hnames, hmem⟩
        obtain ⟨l, hl, hin⟩ := List.mem_flatMap.1 hnames
        exact ⟨l, hl, (hlayer l).1 ⟨names, hin, hmem⟩⟩
      · rintro ⟨l, hl, hmem⟩
        obtain ⟨names, hin, hmem'⟩ := (hlayer l).2 hmem
        exact ⟨names, List.mem_flatMap.2 ⟨l, hl, hin⟩, hmem'⟩
    obtain ⟨body, names⟩ := l
    rcases body with _ | _ | _ | superclass <;>
      simpa [DeclaredOutside, nest, Layer.nest, hthis, hsuper] using houter.symm

end Site

end Lox
