import Lox.Syntax
import Mathlib.Logic.Equiv.Basic

/-!
# Renamed programs

In a renamed program some local scopes are marked, and what is called `old` in one of them is called
`new` there. `Renamed` relates the two programs, slots filled: a list of marks, innermost scope
first, says which of the scopes around a place are marked, and a name in a node goes by the mark of
the scope to which the node's slot leads. Global names and the names of functions, classes and
properties stay as they are.

In a marked scope the two names change places, so that no two names become one. A node whose slot
leads to a marked scope does not have the new name already.
-/

set_option autoImplicit false

namespace Lox

/-! ## Names -/

/-- A name of variables, and the name that takes its place. Only the machine binds `this` and
`super`. -/
structure Renaming where
  old : String
  new : String
  old_isName : old ≠ "this" ∧ old ≠ "super"
  new_isName : new ≠ "this" ∧ new ≠ "super"

namespace Renaming

variable (r : Renaming)

/-- What a name is called in a scope, where the two names change places if it is marked. -/
def called (marked : Bool) (name : String) : String :=
  if marked then Equiv.swap r.old r.new name else name

@[simp] theorem called_false (name : String) : r.called false name = name := rfl

@[simp] theorem called_old : r.called true r.old = r.new :=
  Equiv.swap_apply_left ..

@[simp] theorem called_called (b : Bool) (name : String) :
    r.called b (r.called b name) = name := by
  cases b with
  | false => rfl
  | true => exact Equiv.swap_apply_self ..

@[simp] theorem called_inj {b : Bool} {name other : String} :
    r.called b name = r.called b other ↔ name = other := by
  refine ⟨fun h => ?_, congrArg _⟩
  rw [← r.called_called b name, h, called_called]

theorem called_of_ne (b : Bool) {name : String} (hold : name ≠ r.old) (hnew : name ≠ r.new) :
    r.called b name = name := by
  cases b with
  | false => rfl
  | true => exact Equiv.swap_apply_of_ne_of_ne hold hnew

@[simp] theorem called_this (b : Bool) : r.called b "this" = "this" :=
  r.called_of_ne b r.old_isName.1.symm r.new_isName.1.symm

@[simp] theorem called_super (b : Bool) : r.called b "super" = "super" :=
  r.called_of_ne b r.old_isName.2.symm r.new_isName.2.symm

/-- Seen from a scope with another mark, a name other than the new one is itself or the new one. -/
theorem called_called_or (b b' : Bool) {name : String} (h : name ≠ r.new) :
    r.called b (r.called b' name) = name ∨ r.called b (r.called b' name) = r.new := by
  by_cases hb : b = b'
  · exact .inl (by rw [hb, called_called])
  · by_cases hold : name = r.old
    · subst hold
      cases b <;> cases b' <;> simp_all
    · exact .inl (by rw [r.called_of_ne b' hold h, r.called_of_ne b hold h])

end Renaming

/-- The token with the name that it has in a scope. -/
def Token.called (r : Renaming) (marked : Bool) (t : Token) : Token :=
  { t with lexeme := r.called marked t.lexeme }

@[simp] theorem Token.called_lexeme (r : Renaming) (b : Bool) (t : Token) :
    (t.called r b).lexeme = r.called b t.lexeme := rfl

@[simp] theorem Token.called_false (r : Renaming) (t : Token) : t.called r false = t := rfl

theorem Token.called_this {r : Renaming} {b : Bool} {t : Token}
    (h : b = true → t.lexeme = "this") : t.called r b = t := by
  cases b with
  | false => rfl
  | true => rw [Token.called, h rfl, Renaming.called_this, ← h rfl]

/-! ## Marks -/

/-- Which of the local scopes around a place are marked, innermost first. -/
abbrev Marks := List Bool

namespace Marks

/-- The mark of the scope a number of scopes outwards. -/
def mark (marks : Marks) (d : Nat) : Bool :=
  marks.getD d false

/-- The mark of the scope to which a slot leads; the global one has none. -/
def atSlot (marks : Marks) : Option Nat → Bool
  | some d => marks.mark d
  | none => false

@[simp] theorem mark_cons_zero (b : Bool) (marks : Marks) : mark (b :: marks) 0 = b := rfl

@[simp] theorem mark_cons_succ (b : Bool) (marks : Marks) (d : Nat) :
    mark (b :: marks) (d + 1) = marks.mark d := rfl

/-- One scope further in, a slot has one scope more to cross. -/
@[simp] theorem atSlot_cons_succ (b : Bool) (marks : Marks) (slot : Option Nat) :
    atSlot (b :: marks) (slot.map (· + 1)) = marks.atSlot slot := by
  cases slot <;> rfl

/-- No scope is marked. -/
def Clear (marks : Marks) : Prop :=
  ∀ d, marks.mark d = false

theorem Clear.nil : Clear [] :=
  fun _ => rfl

theorem Clear.cons {marks : Marks} (h : marks.Clear) : Clear (false :: marks) := by
  intro d
  cases d with
  | zero => rfl
  | succ d => exact h d

theorem Clear.atSlot {marks : Marks} (h : marks.Clear) (slot : Option Nat) :
    marks.atSlot slot = false := by
  cases slot with
  | none => rfl
  | some d => exact h d

end Marks

/-! ## Programs -/

variable (r : Renaming)

mutual

/-- An expression in marked scopes, and the renamed one. -/
inductive Expr.Renamed (marks : Marks) : Expr → Expr → Prop
  | literal (value : Literal) : Expr.Renamed marks (.literal value) (.literal value)
  | grouping {inner inner' : Expr} (h : Expr.Renamed marks inner inner') :
      Expr.Renamed marks (.grouping inner) (.grouping inner')
  | unary (operator : Token) {right right' : Expr} (h : Expr.Renamed marks right right') :
      Expr.Renamed marks (.unary operator right) (.unary operator right')
  | binary {left left' right right' : Expr} (operator : Token)
      (hl : Expr.Renamed marks left left') (hr : Expr.Renamed marks right right') :
      Expr.Renamed marks (.binary left operator right) (.binary left' operator right')
  | logical {left left' right right' : Expr} (operator : Token)
      (hl : Expr.Renamed marks left left') (hr : Expr.Renamed marks right right') :
      Expr.Renamed marks (.logical left operator right) (.logical left' operator right')
  | variable {name : Token} {depth : Option Nat}
      (h : marks.atSlot depth = true → name.lexeme ≠ r.new) :
      Expr.Renamed marks (.variable name depth)
        (.variable (name.called r (marks.atSlot depth)) depth)
  | assign {name : Token} {value value' : Expr} {depth : Option Nat}
      (h : marks.atSlot depth = true → name.lexeme ≠ r.new)
      (hv : Expr.Renamed marks value value') :
      Expr.Renamed marks (.assign name value depth)
        (.assign (name.called r (marks.atSlot depth)) value' depth)
  | call {callee callee' : Expr} {arguments arguments' : List Expr} (paren : Token)
      (hf : Expr.Renamed marks callee callee') (ha : Expr.AllRenamed marks arguments arguments') :
      Expr.Renamed marks (.call callee paren arguments) (.call callee' paren arguments')
  | get {object object' : Expr} (name : Token) (h : Expr.Renamed marks object object') :
      Expr.Renamed marks (.get object name) (.get object' name)
  | set {object object' value value' : Expr} (name : Token)
      (ho : Expr.Renamed marks object object') (hv : Expr.Renamed marks value value') :
      Expr.Renamed marks (.set object name value) (.set object' name value')
  | this {keyword : Token} {depth : Option Nat}
      (h : marks.atSlot depth = true → keyword.lexeme = "this") :
      Expr.Renamed marks (.this keyword depth) (.this keyword depth)
  | super (keyword method : Token) (depth : Option Nat) :
      Expr.Renamed marks (.super keyword method depth) (.super keyword method depth)

inductive Expr.AllRenamed (marks : Marks) : List Expr → List Expr → Prop
  | nil : Expr.AllRenamed marks [] []
  | cons {e e' : Expr} {es es' : List Expr} (h : Expr.Renamed marks e e')
      (hs : Expr.AllRenamed marks es es') : Expr.AllRenamed marks (e :: es) (e' :: es')

end

/-- An expression that may be absent. -/
inductive Expr.OptRenamed (marks : Marks) : Option Expr → Option Expr → Prop
  | none : Expr.OptRenamed marks none none
  | some {e e' : Expr} (h : e.Renamed r marks e') : Expr.OptRenamed marks (some e) (some e')

/-- The marks around the methods of a class. -/
def methodMarks (marks : Marks) : Option Expr → Marks
  | none => false :: marks
  | some _ => false :: false :: marks

mutual

/-- A statement in marked scopes, and the renamed one. -/
inductive Stmt.Renamed : Marks → Stmt → Stmt → Prop
  | expression {marks : Marks} {value value' : Expr} (h : value.Renamed r marks value') :
      Stmt.Renamed marks (.expression value) (.expression value')
  | print {marks : Marks} (keyword : Token) {value value' : Expr}
      (h : value.Renamed r marks value') :
      Stmt.Renamed marks (.print keyword value) (.print keyword value')
  | var {marks : Marks} (name : Token) {initializer initializer' : Option Expr}
      (h : Expr.OptRenamed r marks initializer initializer') :
      Stmt.Renamed marks (.var name initializer) (.var (name.called r (marks.mark 0)) initializer')
  | block {marks : Marks} (marked : Bool) {body body' : List Stmt}
      (h : Stmt.AllRenamed (marked :: marks) body body') :
      Stmt.Renamed marks (.block body) (.block body')
  | conditional {marks : Marks} {condition condition' : Expr} {thenBranch thenBranch' : Stmt}
      (hc : condition.Renamed r marks condition')
      (ht : Stmt.Renamed marks thenBranch thenBranch') :
      Stmt.Renamed marks (.conditional condition thenBranch none)
        (.conditional condition' thenBranch' none)
  | conditionalElse {marks : Marks} {condition condition' : Expr}
      {thenBranch thenBranch' elseBranch elseBranch' : Stmt}
      (hc : condition.Renamed r marks condition')
      (ht : Stmt.Renamed marks thenBranch thenBranch')
      (he : Stmt.Renamed marks elseBranch elseBranch') :
      Stmt.Renamed marks (.conditional condition thenBranch (some elseBranch))
        (.conditional condition' thenBranch' (some elseBranch'))
  | loop {marks : Marks} {condition condition' : Expr} {body body' : Stmt}
      (hc : condition.Renamed r marks condition') (hb : Stmt.Renamed marks body body') :
      Stmt.Renamed marks (.loop condition body) (.loop condition' body')
  | function {marks : Marks} {decl decl' : FunctionDecl}
      (hname : r.called (marks.mark 0) decl.name.lexeme = decl.name.lexeme)
      (h : FunctionDecl.Renamed marks decl decl') :
      Stmt.Renamed marks (.function decl) (.function decl')
  | ret {marks : Marks} (keyword : Token) {value value' : Option Expr}
      (h : Expr.OptRenamed r marks value value') :
      Stmt.Renamed marks (.ret keyword value) (.ret keyword value')
  | classDecl {marks : Marks} {name : Token} {superclass superclass' : Option Expr}
      {methods methods' : List FunctionDecl}
      (hname : r.called (marks.mark 0) name.lexeme = name.lexeme)
      (hs : Expr.OptRenamed r marks superclass superclass')
      (hm : FunctionDecl.AllRenamed (methodMarks marks superclass) methods methods') :
      Stmt.Renamed marks (.classDecl name superclass methods)
        (.classDecl name superclass' methods')

/-- A function, whose parameters share a scope with the body. -/
inductive FunctionDecl.Renamed : Marks → FunctionDecl → FunctionDecl → Prop
  | mk {marks : Marks} (marked : Bool) (name : Token) (params : List Token)
      {body body' : List Stmt} (h : Stmt.AllRenamed (marked :: marks) body body') :
      FunctionDecl.Renamed marks ⟨name, params, body⟩
        ⟨name, params.map (Token.called r marked), body'⟩

inductive Stmt.AllRenamed : Marks → List Stmt → List Stmt → Prop
  | nil {marks : Marks} : Stmt.AllRenamed marks [] []
  | cons {marks : Marks} {s s' : Stmt} {ss ss' : List Stmt} (h : Stmt.Renamed marks s s')
      (hs : Stmt.AllRenamed marks ss ss') : Stmt.AllRenamed marks (s :: ss) (s' :: ss')

inductive FunctionDecl.AllRenamed : Marks → List FunctionDecl → List FunctionDecl → Prop
  | nil {marks : Marks} : FunctionDecl.AllRenamed marks [] []
  | cons {marks : Marks} {f f' : FunctionDecl} {fs fs' : List FunctionDecl}
      (h : FunctionDecl.Renamed marks f f') (hs : FunctionDecl.AllRenamed marks fs fs') :
      FunctionDecl.AllRenamed marks (f :: fs) (f' :: fs')

end

variable {r} {marks : Marks}

theorem FunctionDecl.Renamed.name {f f' : FunctionDecl} (h : f.Renamed r marks f') :
    f'.name = f.name := by
  cases h
  rfl

theorem FunctionDecl.Renamed.length_params {f f' : FunctionDecl} (h : f.Renamed r marks f') :
    f'.params.length = f.params.length := by
  cases h
  exact List.length_map ..

/-! ## Slots -/

/-- A slot without its name. -/
def Reference.slot (reference : Reference) : ReferenceKind × Option Nat :=
  (reference.kind, reference.depth)

mutual

theorem Expr.Renamed.slots : ∀ {e e' : Expr}, e.Renamed r marks e' →
    e'.references.map Reference.slot = e.references.map Reference.slot
  | _, _, .literal _ | _, _, .variable _ | _, _, .this _ | _, _, .super _ _ _ => rfl
  | _, _, .grouping h | _, _, .unary _ h | _, _, .get _ h => h.slots
  | _, _, .binary _ hl hr | _, _, .logical _ hl hr => by
    simp only [Expr.references, List.map_append, hl.slots, hr.slots]
  | _, _, .assign _ hv => by
    simp only [Expr.references, List.map_cons, hv.slots, Reference.slot]
  | _, _, .call _ hf ha => by
    simp only [Expr.references, List.map_append, hf.slots, ha.slots]
  | _, _, .set _ ho hv => by
    simp only [Expr.references, List.map_append, ho.slots, hv.slots]

theorem Expr.AllRenamed.slots : ∀ {es es' : List Expr}, Expr.AllRenamed r marks es es' →
    (Expr.referencesAll es').map Reference.slot = (Expr.referencesAll es).map Reference.slot
  | _, _, .nil => rfl
  | _, _, .cons h hs => by
    simp only [Expr.referencesAll, List.map_append, h.slots, hs.slots]

end

theorem Expr.OptRenamed.slots {o o' : Option Expr} (h : Expr.OptRenamed r marks o o') :
    (Expr.referencesOpt o').map Reference.slot = (Expr.referencesOpt o).map Reference.slot := by
  cases h with
  | none => rfl
  | some h => exact h.slots

mutual

theorem Stmt.Renamed.slots : ∀ {s s' : Stmt} {marks : Marks}, s.Renamed r marks s' →
    s'.references.map Reference.slot = s.references.map Reference.slot
  | _, _, _, .expression h | _, _, _, .print _ h => h.slots
  | _, _, _, .var _ h | _, _, _, .ret _ h => h.slots
  | _, _, _, .block _ h => h.slots
  | _, _, _, .conditional hc ht => by
    simp only [Stmt.references, List.map_append, hc.slots, ht.slots]
  | _, _, _, .conditionalElse hc ht he => by
    simp only [Stmt.references, List.map_append, hc.slots, ht.slots, he.slots]
  | _, _, _, .loop hc hb => by
    simp only [Stmt.references, List.map_append, hc.slots, hb.slots]
  | _, _, _, .function _ h => h.slots
  | _, _, _, .classDecl _ hs hm => by
    simp only [Stmt.references, List.map_append, hs.slots, hm.slots]

theorem FunctionDecl.Renamed.slots : ∀ {f f' : FunctionDecl} {marks : Marks},
    f.Renamed r marks f' → f'.references.map Reference.slot = f.references.map Reference.slot
  | _, _, _, .mk _ _ _ h => h.slots

/-- A renamed program has the same slots. -/
theorem Stmt.AllRenamed.slots : ∀ {ss ss' : List Stmt} {marks : Marks},
    Stmt.AllRenamed r marks ss ss' →
      (Stmt.referencesAll ss').map Reference.slot = (Stmt.referencesAll ss).map Reference.slot
  | _, _, _, .nil => rfl
  | _, _, _, .cons h hs => by
    simp only [Stmt.referencesAll, List.map_append, h.slots, hs.slots]

theorem FunctionDecl.AllRenamed.slots : ∀ {fs fs' : List FunctionDecl} {marks : Marks},
    FunctionDecl.AllRenamed r marks fs fs' →
      (FunctionDecl.referencesAll fs').map Reference.slot
        = (FunctionDecl.referencesAll fs).map Reference.slot
  | _, _, _, .nil => rfl
  | _, _, _, .cons h hs => by
    simp only [FunctionDecl.referencesAll, List.map_append, h.slots, hs.slots]

end

/-! ## Without marks -/

mutual

/-- Where no scope is marked nothing changes. -/
theorem Expr.renamed_self (h : marks.Clear) : ∀ e : Expr, e.Renamed r marks e
  | .literal value => .literal value
  | .grouping inner => .grouping (Expr.renamed_self h inner)
  | .unary operator right => .unary operator (Expr.renamed_self h right)
  | .binary left operator right =>
    .binary operator (Expr.renamed_self h left) (Expr.renamed_self h right)
  | .logical left operator right =>
    .logical operator (Expr.renamed_self h left) (Expr.renamed_self h right)
  | .variable name depth => by
    have hv : Expr.Renamed r marks (.variable name depth)
        (.variable (name.called r (marks.atSlot depth)) depth) :=
      .variable fun hd => by simp [h.atSlot] at hd
    rwa [h.atSlot] at hv
  | .assign name value depth => by
    have ha : Expr.Renamed r marks (.assign name value depth)
        (.assign (name.called r (marks.atSlot depth)) value depth) :=
      .assign (fun hd => by simp [h.atSlot] at hd) (Expr.renamed_self h value)
    rwa [h.atSlot] at ha
  | .call callee paren arguments =>
    .call paren (Expr.renamed_self h callee) (Expr.allRenamed_self h arguments)
  | .get object name => .get name (Expr.renamed_self h object)
  | .set object name value => .set name (Expr.renamed_self h object) (Expr.renamed_self h value)
  | .this keyword depth => .this fun hd => by simp [h.atSlot] at hd
  | .super keyword method depth => .super keyword method depth

theorem Expr.allRenamed_self (h : marks.Clear) : ∀ es : List Expr, Expr.AllRenamed r marks es es
  | [] => .nil
  | e :: es => .cons (Expr.renamed_self h e) (Expr.allRenamed_self h es)

end

theorem Expr.optRenamed_self (h : marks.Clear) (o : Option Expr) : Expr.OptRenamed r marks o o := by
  cases o with
  | none => exact .none
  | some e => exact .some (Expr.renamed_self h e)

theorem methodMarks_clear (h : marks.Clear) (superclass : Option Expr) :
    (methodMarks marks superclass).Clear := by
  cases superclass with
  | none => exact h.cons
  | some _ => exact h.cons.cons

mutual

theorem Stmt.renamed_self : ∀ (s : Stmt) {marks : Marks}, marks.Clear → s.Renamed r marks s
  | .expression value, _, h => .expression (Expr.renamed_self h value)
  | .print keyword value, _, h => .print keyword (Expr.renamed_self h value)
  | .var name initializer, marks, h => by
    have hv : Stmt.Renamed r marks (.var name initializer)
        (.var (name.called r (marks.mark 0)) initializer) :=
      .var name (Expr.optRenamed_self h initializer)
    rwa [h 0] at hv
  | .block body, _, h => .block false (Stmt.allRenamed_self body h.cons)
  | .conditional condition thenBranch none, _, h =>
    .conditional (Expr.renamed_self h condition) (Stmt.renamed_self thenBranch h)
  | .conditional condition thenBranch (some elseBranch), _, h =>
    .conditionalElse (Expr.renamed_self h condition) (Stmt.renamed_self thenBranch h)
      (Stmt.renamed_self elseBranch h)
  | .loop condition body, _, h => .loop (Expr.renamed_self h condition) (Stmt.renamed_self body h)
  | .function decl, _, h =>
    .function (by rw [h 0, Renaming.called_false]) (FunctionDecl.renamed_self decl h)
  | .ret keyword value, _, h => .ret keyword (Expr.optRenamed_self h value)
  | .classDecl _ superclass methods, _, h =>
    .classDecl (by rw [h 0, Renaming.called_false]) (Expr.optRenamed_self h superclass)
      (FunctionDecl.allRenamed_self methods (methodMarks_clear h superclass))

theorem FunctionDecl.renamed_self : ∀ (f : FunctionDecl) {marks : Marks}, marks.Clear →
    f.Renamed r marks f
  | ⟨name, params, body⟩, marks, h => by
    have hf : FunctionDecl.Renamed r marks ⟨name, params, body⟩
        ⟨name, params.map (Token.called r false), body⟩ :=
      .mk false name params (Stmt.allRenamed_self body h.cons)
    have hparams : params.map (Token.called r false) = params := List.map_id params
    rwa [hparams] at hf

theorem Stmt.allRenamed_self : ∀ (ss : List Stmt) {marks : Marks}, marks.Clear →
    Stmt.AllRenamed r marks ss ss
  | [], _, _ => .nil
  | s :: ss, _, h => .cons (Stmt.renamed_self s h) (Stmt.allRenamed_self ss h)

theorem FunctionDecl.allRenamed_self : ∀ (fs : List FunctionDecl) {marks : Marks}, marks.Clear →
    FunctionDecl.AllRenamed r marks fs fs
  | [], _, _ => .nil
  | f :: fs, _, h => .cons (FunctionDecl.renamed_self f h) (FunctionDecl.allRenamed_self fs h)

end

end Lox
