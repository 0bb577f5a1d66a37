import Lox.Proofs.Grammar.Shape
import Lox.Scope.Resolve
import Mathlib.Tactic.Tauto

/-!
# Scoped programs

What the slots of a checked program say, without the checker. A `Nest` lists the names declared so
far in the local scopes around a place. A tree is `Scoped` in a nest when every slot holds the
number of scopes between the node and the nearest one that declares the name, or nothing for a
global name, and every declaration is the first of its name in its scope.

One rule breaks the symmetry of reading and writing. In the initializer of a local variable, which
is not declared yet, reads of its name go to an outer variable; an assignment goes to the variable
itself. `pending` is the name of that variable.
-/

set_option autoImplicit false

namespace Lox

/-! ## Nests -/

/-- The names declared in the local scopes around a place, innermost scope first. -/
abbrev Nest := List (List String)

namespace Nest

/-- The distance to the nearest scope that declares a name. -/
def distance? (n : Nest) (name : String) : Option Nat :=
  n.findIdx? fun names => decide (name ∈ names)

/-- The distance at which an assignment looks for a name. -/
def target? (n : Nest) (pending : Option String) (name : String) : Option Nat :=
  if pending = some name then some 0 else n.distance? name

/-- Declares a name in the innermost scope; without local scopes the name is global. -/
def declare (n : Nest) (name : String) : Nest :=
  match n with
  | [] => []
  | names :: outer => (name :: names) :: outer

/-- The innermost scope does not declare the name. -/
def Fresh (n : Nest) (name : String) : Prop :=
  ∀ names ∈ n.head?, name ∉ names

/-- The scopes after a statement. -/
def after (n : Nest) (s : Stmt) : Nest :=
  match s.declared with
  | some name => n.declare name.lexeme
  | none => n

/-- The variable whose initializer is around, if it is a local one. -/
def pending (n : Nest) (name : String) : Option String :=
  if n = [] then none else some name

@[simp] theorem distance?_nil (name : String) : distance? [] name = none := rfl

theorem distance?_cons (names : List String) (n : Nest) (name : String) :
    distance? (names :: n) name =
      if name ∈ names then some 0 else (distance? n name).map (· + 1) := by
  simp [distance?, List.findIdx?_cons]

@[simp] theorem target?_none (n : Nest) (name : String) : n.target? none name = n.distance? name :=
  rfl

theorem distance?_declare (n : Nest) (name other : String) (h : n ≠ []) :
    (n.declare name).distance? other = if other = name then some 0 else n.distance? other := by
  cases n with
  | nil => exact absurd rfl h
  | cons names outer =>
    by_cases hname : other = name
    · simp [declare, distance?_cons, hname]
    · simp [declare, distance?_cons, hname]

theorem distance?_declare_ne (n : Nest) {name other : String} (h : other ≠ name) :
    (n.declare name).distance? other = n.distance? other := by
  cases n with
  | nil => rfl
  | cons names outer => rw [distance?_declare _ _ _ (List.cons_ne_nil _ _), if_neg h]

@[simp] theorem declare_eq_nil {n : Nest} {name : String} : n.declare name = [] ↔ n = [] := by
  cases n <;> simp [declare]

theorem after_of_none {n : Nest} {s : Stmt} (h : s.declared = none) : n.after s = n := by
  rw [after, h]

theorem isEmpty_after (n : Nest) (s : Stmt) : (n.after s).isEmpty = n.isEmpty := by
  unfold after
  cases s.declared with
  | none => rfl
  | some name => cases n <;> rfl

/-- A name can be declared here. -/
def Declares (n : Nest) (name : Token) : Prop :=
  name.IsName ∧ n.Fresh name.lexeme

end Nest

/-! ## Scoped trees -/

mutual

/-- An expression whose slots are right in a nest. -/
def Expr.Scoped (n : Nest) (pending : Option String) : Expr → Prop
  | .literal _ => True
  | .grouping inner => inner.Scoped n pending
  | .unary operator right =>
    (operator.kind = .punct .bang ∨ operator.kind = .punct .minus) ∧ right.Scoped n pending
  | .binary left operator right =>
    left.Scoped n pending ∧ operator.IsInfix ∧ right.Scoped n pending
  | .logical left _ right => left.Scoped n pending ∧ right.Scoped n pending
  | .variable name depth => depth = n.distance? name.lexeme
  | .assign name value depth =>
    name.IsName ∧ value.Scoped n pending ∧ depth = n.target? pending name.lexeme
  | .call callee _ arguments => callee.Scoped n pending ∧ Expr.AllScoped n pending arguments
  | .get object _ => object.Scoped n pending
  | .set object _ value => object.Scoped n pending ∧ value.Scoped n pending
  | .this keyword depth =>
    keyword.lexeme = "this" ∧ ∃ d, depth = some d ∧ n.distance? "this" = some d
  | .super _ _ depth =>
    ∃ d, depth = some (d + 1) ∧ n.distance? "super" = some (d + 1) ∧ n.distance? "this" = some d

def Expr.AllScoped (n : Nest) (pending : Option String) : List Expr → Prop
  | [] => True
  | e :: es => e.Scoped n pending ∧ Expr.AllScoped n pending es

end

/-- An expression that may be absent. -/
def Expr.OptScoped (n : Nest) (pending : Option String) : Option Expr → Prop
  | none => True
  | some e => e.Scoped n pending

/-- The scopes around the methods of a class declared in a nest. -/
def methodNest (n : Nest) : Option Expr → Nest
  | none => ["this"] :: n
  | some _ => ["this"] :: ["super"] :: n

mutual

/-- A statement whose slots are right in a nest. A `return` needs a function around it. -/
def Stmt.Scoped (insideFunction : Bool) (n : Nest) : Stmt → Prop
  | .expression value => value.Scoped n none
  | .print _ value => value.Scoped n none
  | .var name initializer =>
    n.Declares name ∧ Expr.OptScoped n (n.pending name.lexeme) initializer
  | .block body => Stmt.AllScoped insideFunction ([] :: n) body
  | .conditional condition thenBranch none =>
    condition.Scoped n none ∧ thenBranch.Scoped insideFunction n ∧ thenBranch.declared = none
  | .conditional condition thenBranch (some elseBranch) =>
    condition.Scoped n none ∧
      (thenBranch.Scoped insideFunction n ∧ thenBranch.declared = none) ∧
      elseBranch.Scoped insideFunction n ∧ elseBranch.declared = none
  | .loop condition body =>
    condition.Scoped n none ∧ body.Scoped insideFunction n ∧ body.declared = none
  | .function decl => n.Declares decl.name ∧ decl.Scoped (n.declare decl.name.lexeme)
  | .ret _ value => insideFunction = true ∧ Expr.OptScoped n none value
  | .classDecl name superclass methods =>
    n.Declares name ∧ Expr.OptScoped n none superclass ∧
      FunctionDecl.AllScoped (methodNest (n.declare name.lexeme) superclass) methods

/-- A function whose slots are right in a nest; the parameters share a scope with the body. -/
def FunctionDecl.Scoped (n : Nest) : FunctionDecl → Prop
  | ⟨_, params, body⟩ =>
    (∀ p ∈ params, p.IsName) ∧ (params.map (·.lexeme)).Nodup ∧
      Stmt.AllScoped true (params.map (·.lexeme) :: n) body

def Stmt.AllScoped (insideFunction : Bool) (n : Nest) : List Stmt → Prop
  | [] => True
  | s :: ss => s.Scoped insideFunction n ∧ Stmt.AllScoped insideFunction (n.after s) ss

def FunctionDecl.AllScoped (n : Nest) : List FunctionDecl → Prop
  | [] => True
  | f :: fs => f.Scoped n ∧ FunctionDecl.AllScoped n fs

end

theorem FunctionDecl.allScoped_iff {n : Nest} {fs : List FunctionDecl} :
    FunctionDecl.AllScoped n fs ↔ ∀ f ∈ fs, f.Scoped n := by
  induction fs with
  | nil => simp [FunctionDecl.AllScoped]
  | cons f fs ih => simp [FunctionDecl.AllScoped, ih]

/-! ## Statements in order -/

/-- The names that statements declare in the scope in which they stand. -/
def Stmt.declaredNames (ss : List Stmt) : List String :=
  ss.filterMap fun s => s.declared.map (·.lexeme)

@[simp] theorem Stmt.declaredNames_nil : Stmt.declaredNames [] = [] := rfl

theorem Stmt.declaredNames_cons (s : Stmt) (ss : List Stmt) :
    Stmt.declaredNames (s :: ss) = Stmt.declaredNames [s] ++ Stmt.declaredNames ss :=
  List.filterMap_append (l := [s])

theorem Stmt.declaredNames_singleton_of_none {s : Stmt} (h : s.declared = none) :
    Stmt.declaredNames [s] = [] := by
  simp [declaredNames, h]

/-- A statement in a scoped list is scoped where those before it lead. -/
theorem Stmt.AllScoped.of_append : ∀ {before after : List Stmt} {s : Stmt} {insideFunction : Bool}
    {n : Nest}, Stmt.AllScoped insideFunction n (before ++ s :: after) →
      Stmt.AllScoped insideFunction n before ∧ s.Scoped insideFunction (before.foldl Nest.after n)
  | [], _, _, _, n, h => by
    simp only [List.nil_append, Stmt.AllScoped] at h
    exact ⟨trivial, h.1⟩
  | _ :: _, _, _, _, _, h => by
    simp only [List.cons_append, Stmt.AllScoped] at h ⊢
    obtain ⟨hbefore, hs⟩ := h.2.of_append
    exact ⟨⟨h.1, hbefore⟩, hs⟩

namespace Nest

/-- At the top statements declare nothing local. -/
theorem foldl_after_nil (ss : List Stmt) : ss.foldl Nest.after [] = [] := by
  induction ss with
  | nil => rfl
  | cons s ss ih =>
    have hafter : Nest.after [] s = [] := by
      unfold Nest.after
      cases s.declared <;> rfl
    rw [List.foldl_cons, hafter, ih]

/-- In a local scope they add their names to it. -/
theorem foldl_after_cons (outer : Nest) : ∀ (ss : List Stmt) (names : List String),
    ∃ names', ss.foldl Nest.after (names :: outer) = names' :: outer ∧
      ∀ x, x ∈ names' ↔ x ∈ names ∨ x ∈ Stmt.declaredNames ss
  | [], names => ⟨names, rfl, fun x => by simp⟩
  | s :: ss, names => by
    rw [List.foldl_cons, Stmt.declaredNames_cons]
    cases hd : s.declared with
    | none =>
      obtain ⟨names', hfold, hnames⟩ := foldl_after_cons outer ss names
      refine ⟨names', by rw [after_of_none hd, hfold], fun x => ?_⟩
      rw [hnames, Stmt.declaredNames_singleton_of_none hd, List.nil_append]
    | some name =>
      obtain ⟨names', hfold, hnames⟩ := foldl_after_cons outer ss (name.lexeme :: names)
      have hafter : Nest.after (names :: outer) s = (name.lexeme :: names) :: outer := by
        rw [Nest.after, hd]
        rfl
      have hsingle : Stmt.declaredNames [s] = [name.lexeme] := by
        simp [Stmt.declaredNames, hd]
      refine ⟨names', by rw [hafter, hfold], fun x => ?_⟩
      rw [hnames, hsingle]
      simp only [List.mem_cons, List.mem_append, List.not_mem_nil, or_false]
      tauto

end Nest
end Lox
