import Lox.Proofs.Grammar.Shape
import Lox.Proofs.Rename.Renamed

/-!
# Programs with added scopes

When statements of a program are put into blocks of their own, scopes are added around them. A list
of marks says which of the scopes around a place in the new program are added, innermost scope
first, and a distance that counts the other ones only becomes a distance that counts all of them
(`Marks.place`). `Moved` relates a node of the program to the one in its place, with its slots moved
so, and `Boxed` a statement to one that may have been put into a block.

Nothing is declared in an added scope, since only statements that declare nothing are put into
blocks; and no scope is added between the scope of `this` and that of `super`.
-/

set_option autoImplicit false

namespace Lox

/-! ## Distances -/

namespace Marks

/-- Where a scope is found when the marked scopes, too, are counted. -/
def place : Marks → Nat → Nat
  | [], d => d
  | true :: marks, d => place marks d + 1
  | false :: _, 0 => 0
  | false :: marks, d + 1 => place marks d + 1

@[simp] theorem place_nil (d : Nat) : place [] d = d := rfl

@[simp] theorem place_added (marks : Marks) (d : Nat) :
    place (true :: marks) d = marks.place d + 1 := by
  cases d <;> rfl

@[simp] theorem place_kept_zero (marks : Marks) : place (false :: marks) 0 = 0 := rfl

@[simp] theorem place_kept_succ (marks : Marks) (d : Nat) :
    place (false :: marks) (d + 1) = marks.place d + 1 := rfl

/-- Distances stay as they are. -/
def Still (marks : Marks) : Prop :=
  ∀ d, marks.place d = d

theorem Still.nil : Still [] :=
  fun _ => rfl

theorem Still.kept {marks : Marks} (h : marks.Still) : Still (false :: marks) := by
  intro d
  cases d with
  | zero => rfl
  | succ d => rw [place_kept_succ, h d]

theorem Still.methods {marks : Marks} (h : marks.Still) (superclass : Option Expr) :
    (methodMarks marks superclass).Still := by
  cases superclass with
  | none => exact h.kept
  | some _ => exact h.kept.kept

/-- The scope at a distance comes directly after the one inside it. -/
def Joined (marks : Marks) : Nat → Prop
  | 0 => marks.place 0 = 0
  | d + 1 => marks.place (d + 1) = marks.place d + 1

theorem Still.joined {marks : Marks} (h : marks.Still) (d : Nat) : marks.Joined d := by
  cases d with
  | zero => exact h 0
  | succ d => rw [Joined, h, h]

end Marks

/-! ## Trees -/

mutual

/-- An expression and the one in its place, where some of the scopes around it are added. -/
inductive Expr.Moved (marks : Marks) : Expr → Expr → Prop
  | literal (value : Literal) : Expr.Moved marks (.literal value) (.literal value)
  | grouping {inner inner' : Expr} (h : Expr.Moved marks inner inner') :
      Expr.Moved marks (.grouping inner) (.grouping inner')
  | unary (operator : Token) {right right' : Expr} (h : Expr.Moved marks right right') :
      Expr.Moved marks (.unary operator right) (.unary operator right')
  | binary {left left' right right' : Expr} (operator : Token)
      (hl : Expr.Moved marks left left') (hr : Expr.Moved marks right right') :
      Expr.Moved marks (.binary left operator right) (.binary left' operator right')
  | logical {left left' right right' : Expr} (operator : Token)
      (hl : Expr.Moved marks left left') (hr : Expr.Moved marks right right') :
      Expr.Moved marks (.logical left operator right) (.logical left' operator right')
  | variable (name : Token) (depth : Option Nat) :
      Expr.Moved marks (.variable name depth) (.variable name (depth.map marks.place))
  | assign (name : Token) {value value' : Expr} (depth : Option Nat)
      (hv : Expr.Moved marks value value') :
      Expr.Moved marks (.assign name value depth) (.assign name value' (depth.map marks.place))
  | call {callee callee' : Expr} {arguments arguments' : List Expr} (paren : Token)
      (hf : Expr.Moved marks callee callee') (ha : Expr.AllMoved marks arguments arguments') :
      Expr.Moved marks (.call callee paren arguments) (.call callee' paren arguments')
  | get {object object' : Expr} (name : Token) (h : Expr.Moved marks object object') :
      Expr.Moved marks (.get object name) (.get object' name)
  | set {object object' value value' : Expr} (name : Token)
      (ho : Expr.Moved marks object object') (hv : Expr.Moved marks value value') :
      Expr.Moved marks (.set object name value) (.set object' name value')
  | this (keyword : Token) (depth : Option Nat) :
      Expr.Moved marks (.this keyword depth) (.this keyword (depth.map marks.place))
  | super (keyword method : Token) {depth : Option Nat} (h : ∀ d, depth = some d → marks.Joined d) :
      Expr.Moved marks (.super keyword method depth)
        (.super keyword method (depth.map marks.place))

inductive Expr.AllMoved (marks : Marks) : List Expr → List Expr → Prop
  | nil : Expr.AllMoved marks [] []
  | cons {e e' : Expr} {es es' : List Expr} (h : Expr.Moved marks e e')
      (hs : Expr.AllMoved marks es es') : Expr.AllMoved marks (e :: es) (e' :: es')

end

/-- An expression that may be absent. -/
inductive Expr.OptMoved (marks : Marks) : Option Expr → Option Expr → Prop
  | none : Expr.OptMoved marks none none
  | some {e e' : Expr} (h : e.Moved marks e') : Expr.OptMoved marks (some e) (some e')

mutual

/-- A statement and the one in its place, within which statements may have been put into blocks.
Where it declares a name the innermost scope is not an added one. -/
inductive Stmt.Moved : Marks → Stmt → Stmt → Prop
  | expression {marks : Marks} {value value' : Expr} (h : value.Moved marks value') :
      Stmt.Moved marks (.expression value) (.expression value')
  | print {marks : Marks} (keyword : Token) {value value' : Expr} (h : value.Moved marks value') :
      Stmt.Moved marks (.print keyword value) (.print keyword value')
  | var {marks : Marks} (hinner : marks.place 0 = 0) (name : Token)
      {initializer initializer' : Option Expr} (h : Expr.OptMoved marks initializer initializer') :
      Stmt.Moved marks (.var name initializer) (.var name initializer')
  | block {marks : Marks} {body body' : List Stmt}
      (h : Stmt.AllBoxed (false :: marks) body body') :
      Stmt.Moved marks (.block body) (.block body')
  | conditional {marks : Marks} {condition condition' : Expr} {thenBranch thenBranch' : Stmt}
      (hc : condition.Moved marks condition') (ht : Stmt.Boxed marks thenBranch thenBranch') :
      Stmt.Moved marks (.conditional condition thenBranch none)
        (.conditional condition' thenBranch' none)
  | conditionalElse {marks : Marks} {condition condition' : Expr}
      {thenBranch thenBranch' elseBranch elseBranch' : Stmt}
      (hc : condition.Moved marks condition') (ht : Stmt.Boxed marks thenBranch thenBranch')
      (he : Stmt.Boxed marks elseBranch elseBranch') :
      Stmt.Moved marks (.conditional condition thenBranch (some elseBranch))
        (.conditional condition' thenBranch' (some elseBranch'))
  | loop {marks : Marks} {condition condition' : Expr} {body body' : Stmt}
      (hc : condition.Moved marks condition') (hb : Stmt.Boxed marks body body') :
      Stmt.Moved marks (.loop condition body) (.loop condition' body')
  | function {marks : Marks} (hinner : marks.place 0 = 0) {decl decl' : FunctionDecl}
      (h : FunctionDecl.Moved marks decl decl') :
      Stmt.Moved marks (.function decl) (.function decl')
  | ret {marks : Marks} (keyword : Token) {value value' : Option Expr}
      (h : Expr.OptMoved marks value value') :
      Stmt.Moved marks (.ret keyword value) (.ret keyword value')
  | classDecl {marks : Marks} (hinner : marks.place 0 = 0) (name : Token)
      {superclass superclass' : Option Expr} {methods methods' : List FunctionDecl}
      (hs : Expr.OptMoved marks superclass superclass')
      (hm : FunctionDecl.AllMoved (methodMarks marks superclass) methods methods') :
      Stmt.Moved marks (.classDecl name superclass methods)
        (.classDecl name superclass' methods')

/-- The statement in the place of another one may be a block that holds the moved statement. -/
inductive Stmt.Boxed : Marks → Stmt → Stmt → Prop
  | bare {marks : Marks} {s s' : Stmt} (h : Stmt.Moved marks s s') : Stmt.Boxed marks s s'
  | box {marks : Marks} {s s' : Stmt} (hd : s.declared = none)
      (h : Stmt.Moved (true :: marks) s s') : Stmt.Boxed marks s (.block [s'])

/-- A function, whose parameters share a scope with the body. -/
inductive FunctionDecl.Moved : Marks → FunctionDecl → FunctionDecl → Prop
  | mk {marks : Marks} (name : Token) (params : List Token) {body body' : List Stmt}
      (h : Stmt.AllBoxed (false :: marks) body body') :
      FunctionDecl.Moved marks ⟨name, params, body⟩ ⟨name, params, body'⟩

inductive Stmt.AllBoxed : Marks → List Stmt → List Stmt → Prop
  | nil {marks : Marks} : Stmt.AllBoxed marks [] []
  | cons {marks : Marks} {s s' : Stmt} {ss ss' : List Stmt} (h : Stmt.Boxed marks s s')
      (hs : Stmt.AllBoxed marks ss ss') : Stmt.AllBoxed marks (s :: ss) (s' :: ss')

inductive FunctionDecl.AllMoved : Marks → List FunctionDecl → List FunctionDecl → Prop
  | nil {marks : Marks} : FunctionDecl.AllMoved marks [] []
  | cons {marks : Marks} {f f' : FunctionDecl} {fs fs' : List FunctionDecl}
      (h : FunctionDecl.Moved marks f f') (hs : FunctionDecl.AllMoved marks fs fs') :
      FunctionDecl.AllMoved marks (f :: fs) (f' :: fs')

end

variable {marks : Marks}

theorem FunctionDecl.Moved.name {f f' : FunctionDecl} (h : f.Moved marks f') :
    f'.name = f.name := by
  cases h
  rfl

theorem FunctionDecl.Moved.params {f f' : FunctionDecl} (h : f.Moved marks f') :
    f'.params = f.params := by
  cases h
  rfl

theorem FunctionDecl.Moved.body {f f' : FunctionDecl} (h : f.Moved marks f') :
    Stmt.AllBoxed (false :: marks) f.body f'.body := by
  cases h with
  | mk _ _ h => exact h

/-! ## Nothing added -/

/-- A slot stays where distances do, and where it is empty. -/
theorem Marks.map_place {depth : Option Nat} (h : marks.Still ∨ depth = none) :
    depth.map marks.place = depth := by
  cases depth with
  | none => rfl
  | some d => exact congrArg some ((h.resolve_right nofun) d)

mutual

/-- An expression stays where distances do, and where its slots are empty. -/
theorem Expr.moved_self : ∀ {e : Expr}, marks.Still ∨ e.Shaped → e.Moved marks e
  | .literal value, _ => .literal value
  | .grouping inner, h => .grouping (Expr.moved_self (h.imp_right fun h => by
      simpa only [Expr.Shaped] using h))
  | .unary operator right, h => .unary operator (Expr.moved_self (h.imp_right fun h => by
      simp only [Expr.Shaped] at h
      exact h.2))
  | .binary left operator right, h => by
    simp only [Expr.Shaped] at h
    exact .binary operator (Expr.moved_self (h.imp_right And.left))
      (Expr.moved_self (h.imp_right fun h => h.2.2))
  | .logical left operator right, h => by
    simp only [Expr.Shaped] at h
    exact .logical operator (Expr.moved_self (h.imp_right And.left))
      (Expr.moved_self (h.imp_right fun h => h.2.2))
  | .variable name depth, h => by
    simp only [Expr.Shaped] at h
    have hv : Expr.Moved marks (.variable name depth) _ := .variable name depth
    rwa [Marks.map_place (h.imp_right And.right)] at hv
  | .assign name value depth, h => by
    simp only [Expr.Shaped] at h
    have ha : Expr.Moved marks (.assign name value depth) _ :=
      .assign name depth (Expr.moved_self (h.imp_right fun h => h.2.1))
    rwa [Marks.map_place (h.imp_right fun h => h.2.2)] at ha
  | .call callee paren arguments, h => by
    simp only [Expr.Shaped] at h
    exact .call paren (Expr.moved_self (h.imp_right And.left))
      (Expr.allMoved_self (h.imp_right And.right))
  | .get object name, h => .get name (Expr.moved_self (h.imp_right fun h => by
      simpa only [Expr.Shaped] using h))
  | .set object name value, h => by
    simp only [Expr.Shaped] at h
    exact .set name (Expr.moved_self (h.imp_right And.left))
      (Expr.moved_self (h.imp_right And.right))
  | .this keyword depth, h => by
    simp only [Expr.Shaped] at h
    have ht : Expr.Moved marks (.this keyword depth) _ := .this keyword depth
    rwa [Marks.map_place (h.imp_right And.right)] at ht
  | .super keyword method depth, h => by
    simp only [Expr.Shaped] at h
    have hjoined : ∀ d, depth = some d → marks.Joined d := by
      rintro d rfl
      exact (h.resolve_right fun h => nomatch h.2).joined d
    have hs : Expr.Moved marks (.super keyword method depth) _ := .super keyword method hjoined
    rwa [Marks.map_place (h.imp_right And.right)] at hs

theorem Expr.allMoved_self : ∀ {es : List Expr}, marks.Still ∨ Expr.AllShaped es →
    Expr.AllMoved marks es es
  | [], _ => .nil
  | e :: es, h => by
    simp only [Expr.AllShaped] at h
    exact .cons (Expr.moved_self (h.imp_right And.left))
      (Expr.allMoved_self (h.imp_right And.right))

end

theorem Expr.optMoved_self {o : Option Expr} (h : marks.Still ∨ Expr.OptShaped o) :
    Expr.OptMoved marks o o := by
  cases o with
  | none => exact .none
  | some e => exact .some (Expr.moved_self h)

mutual

/-- A statement stays where distances do, and where its slots are empty. -/
theorem Stmt.moved_self : ∀ {s : Stmt} {marks : Marks},
    marks.Still ∨ s.Shaped ∧ (s.declared = none ∨ marks.place 0 = 0) → s.Moved marks s
  | .expression value, _, h => by
    simp only [Stmt.Shaped] at h
    exact .expression (Expr.moved_self (h.imp_right And.left))
  | .print keyword value, _, h => by
    simp only [Stmt.Shaped] at h
    exact .print keyword (Expr.moved_self (h.imp_right And.left))
  | .var name initializer, marks, h => by
    simp only [Stmt.Shaped] at h
    have hinner : marks.place 0 = 0 := h.elim (· 0) fun h => h.2.resolve_left nofun
    exact .var hinner name (Expr.optMoved_self (h.imp_right fun h => h.1.2))
  | .block body, _, h => by
    simp only [Stmt.Shaped] at h
    exact .block (Stmt.allBoxed_self (h.imp .kept fun h => ⟨h.1, rfl⟩))
  | .conditional condition thenBranch none, _, h => by
    simp only [Stmt.Shaped] at h
    exact .conditional (Expr.moved_self (h.imp_right fun h => h.1.1))
      (.bare (Stmt.moved_self (h.imp_right fun h => ⟨h.1.2.1, .inl h.1.2.2⟩)))
  | .conditional condition thenBranch (some elseBranch), _, h => by
    simp only [Stmt.Shaped] at h
    exact .conditionalElse (Expr.moved_self (h.imp_right fun h => h.1.1))
      (.bare (Stmt.moved_self (h.imp_right fun h => ⟨h.1.2.1.1, .inl h.1.2.1.2⟩)))
      (.bare (Stmt.moved_self (h.imp_right fun h => ⟨h.1.2.2.1, .inl h.1.2.2.2⟩)))
  | .loop condition body, _, h => by
    simp only [Stmt.Shaped] at h
    exact .loop (Expr.moved_self (h.imp_right fun h => h.1.1))
      (.bare (Stmt.moved_self (h.imp_right fun h => ⟨h.1.2.1, .inl h.1.2.2⟩)))
  | .function decl, marks, h => by
    simp only [Stmt.Shaped] at h
    have hinner : marks.place 0 = 0 := h.elim (· 0) fun h => h.2.resolve_left nofun
    exact .function hinner (FunctionDecl.moved_self (h.imp_right And.left))
  | .ret keyword value, _, h => by
    simp only [Stmt.Shaped] at h
    exact .ret keyword (Expr.optMoved_self (h.imp_right And.left))
  | .classDecl name none methods, marks, h => by
    simp only [Stmt.Shaped] at h
    have hinner : marks.place 0 = 0 := h.elim (· 0) fun h => h.2.resolve_left nofun
    exact .classDecl hinner name .none
      (FunctionDecl.allMoved_self (h.imp (·.methods none) fun h => h.1.2))
  | .classDecl name (some superclass) methods, marks, h => by
    simp only [Stmt.Shaped] at h
    have hinner : marks.place 0 = 0 := h.elim (· 0) fun h => h.2.resolve_left nofun
    refine .classDecl hinner name (.some (Expr.moved_self (h.imp_right ?_)))
      (FunctionDecl.allMoved_self (h.imp (·.methods (some superclass)) fun h => h.1.2.2))
    rintro ⟨⟨-, ⟨above, rfl, habove⟩, -⟩, -⟩
    exact ⟨habove, rfl⟩

theorem FunctionDecl.moved_self : ∀ {f : FunctionDecl} {marks : Marks},
    marks.Still ∨ f.Shaped → f.Moved marks f
  | ⟨name, params, body⟩, _, h => by
    simp only [FunctionDecl.Shaped] at h
    exact .mk name params (Stmt.allBoxed_self (h.imp .kept fun h => ⟨h.2.2, rfl⟩))

theorem Stmt.allBoxed_self : ∀ {ss : List Stmt} {marks : Marks},
    marks.Still ∨ Stmt.AllShaped ss ∧ marks.place 0 = 0 → Stmt.AllBoxed marks ss ss
  | [], _, _ => .nil
  | s :: ss, _, h => by
    simp only [Stmt.AllShaped] at h
    exact .cons (.bare (Stmt.moved_self (h.imp_right fun h => ⟨h.1.1, .inr h.2⟩)))
      (Stmt.allBoxed_self (h.imp_right fun h => ⟨h.1.2, h.2⟩))

theorem FunctionDecl.allMoved_self : ∀ {fs : List FunctionDecl} {marks : Marks},
    marks.Still ∨ FunctionDecl.AllShaped fs → FunctionDecl.AllMoved marks fs fs
  | [], _, _ => .nil
  | f :: fs, _, h => by
    simp only [FunctionDecl.AllShaped] at h
    exact .cons (FunctionDecl.moved_self (h.imp_right And.left))
      (FunctionDecl.allMoved_self (h.imp_right And.right))

end

end Lox
