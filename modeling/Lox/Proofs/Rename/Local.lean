import Lox.Proofs.Rename.Checked

/-!
# Renaming one local variable

`Stmt.rename k` gives the variable `old` of the scope `k` scopes outwards its new name, in its
declaration and in the nodes whose slots lead to it; `SomeLocalRenamed` relates a program to every
one that comes of doing so for one `var` declaration or one parameter. In a scoped program a scope
declares a name once, so this is a renaming with that scope alone marked
(`SomeLocalRenamed.renamed`).
-/

set_option autoImplicit false

namespace Lox

variable (r : Renaming)

/-! ## The variable of one scope -/

/-- The token with the new name, if it has the old one and its slot leads `k` scopes outwards. -/
def Token.rename (k : Nat) (slot : Option Nat) (t : Token) : Token :=
  if slot = some k ∧ t.lexeme = r.old then { t with lexeme := r.new } else t

mutual

/-- The expression in which the variable of the scope `k` scopes outwards has the new name. -/
def Expr.rename (k : Nat) : Expr → Expr
  | .literal value => .literal value
  | .grouping inner => .grouping (inner.rename k)
  | .unary operator right => .unary operator (right.rename k)
  | .binary left operator right => .binary (left.rename k) operator (right.rename k)
  | .logical left operator right => .logical (left.rename k) operator (right.rename k)
  | .variable name depth => .variable (name.rename r k depth) depth
  | .assign name value depth => .assign (name.rename r k depth) (value.rename k) depth
  | .call callee paren arguments => .call (callee.rename k) paren (Expr.renameAll k arguments)
  | .get object name => .get (object.rename k) name
  | .set object name value => .set (object.rename k) name (value.rename k)
  | .this keyword depth => .this keyword depth
  | .super keyword method depth => .super keyword method depth

def Expr.renameAll (k : Nat) : List Expr → List Expr
  | [] => []
  | e :: es => e.rename k :: Expr.renameAll k es

end

/-- An expression that may be absent. -/
def Expr.renameOpt (k : Nat) : Option Expr → Option Expr
  | none => none
  | some e => some (e.rename r k)

mutual

/-- The statement in which the variable of the scope `k` scopes outwards has the new name. A
declaration is in the innermost scope. -/
def Stmt.rename (k : Nat) : Stmt → Stmt
  | .expression value => .expression (value.rename r k)
  | .print keyword value => .print keyword (value.rename r k)
  | .var name initializer => .var (name.rename r k (some 0)) (Expr.renameOpt r k initializer)
  | .block body => .block (Stmt.renameAll (k + 1) body)
  | .conditional condition thenBranch none =>
    .conditional (condition.rename r k) (thenBranch.rename k) none
  | .conditional condition thenBranch (some elseBranch) =>
    .conditional (condition.rename r k) (thenBranch.rename k) (some (elseBranch.rename k))
  | .loop condition body => .loop (condition.rename r k) (body.rename k)
  | .function decl => .function (decl.rename k)
  | .ret keyword value => .ret keyword (Expr.renameOpt r k value)
  | .classDecl name none methods =>
    .classDecl name none (FunctionDecl.renameAll (k + 1) methods)
  | .classDecl name (some superclass) methods =>
    .classDecl name (some (superclass.rename r k)) (FunctionDecl.renameAll (k + 2) methods)

/-- The function in whose body the variable of the scope `k` scopes outwards has the new name. -/
def FunctionDecl.rename (k : Nat) : FunctionDecl → FunctionDecl
  | ⟨name, params, body⟩ => ⟨name, params, Stmt.renameAll (k + 1) body⟩

def Stmt.renameAll (k : Nat) : List Stmt → List Stmt
  | [] => []
  | s :: ss => s.rename k :: Stmt.renameAll k ss

def FunctionDecl.renameAll (k : Nat) : List FunctionDecl → List FunctionDecl
  | [] => []
  | f :: fs => f.rename k :: FunctionDecl.renameAll k fs

end

/-! ## One of the variables of a program -/

/-- Among the statements is a declaration of this variable. -/
def Stmt.DeclaresVar (x : String) (ss : List Stmt) : Prop :=
  ∃ name initializer, .var name initializer ∈ ss ∧ name.lexeme = x

mutual

/-- In a scope within the statement, the local variable `old` has the new name. -/
inductive Stmt.LocalRenamed : Stmt → Stmt → Prop
  | block {body : List Stmt} (h : Stmt.DeclaresVar r.old body) :
      Stmt.LocalRenamed (.block body) (.block (Stmt.renameAll r 0 body))
  | inBlock {body body' : List Stmt} (h : Stmt.SomeLocalRenamed body body') :
      Stmt.LocalRenamed (.block body) (.block body')
  | inThen {condition : Expr} {thenBranch thenBranch' : Stmt} {elseBranch : Option Stmt}
      (h : Stmt.LocalRenamed thenBranch thenBranch') :
      Stmt.LocalRenamed (.conditional condition thenBranch elseBranch)
        (.conditional condition thenBranch' elseBranch)
  | inElse {condition : Expr} {thenBranch elseBranch elseBranch' : Stmt}
      (h : Stmt.LocalRenamed elseBranch elseBranch') :
      Stmt.LocalRenamed (.conditional condition thenBranch (some elseBranch))
        (.conditional condition thenBranch (some elseBranch'))
  | inLoop {condition : Expr} {body body' : Stmt} (h : Stmt.LocalRenamed body body') :
      Stmt.LocalRenamed (.loop condition body) (.loop condition body')
  | inFunction {decl decl' : FunctionDecl} (h : FunctionDecl.LocalRenamed decl decl') :
      Stmt.LocalRenamed (.function decl) (.function decl')
  | inClass {name : Token} {superclass : Option Expr} {methods methods' : List FunctionDecl}
      (h : FunctionDecl.SomeLocalRenamed methods methods') :
      Stmt.LocalRenamed (.classDecl name superclass methods)
        (.classDecl name superclass methods')

/-- In a scope of the function, its own or one within its body, the local variable `old` has the new
name. -/
inductive FunctionDecl.LocalRenamed : FunctionDecl → FunctionDecl → Prop
  | own {name : Token} {params : List Token} {body : List Stmt}
      (h : r.old ∈ params.map (·.lexeme) ∨ Stmt.DeclaresVar r.old body) :
      FunctionDecl.LocalRenamed ⟨name, params, body⟩
        ⟨name, params.map (Token.rename r 0 (some 0)), Stmt.renameAll r 0 body⟩
  | inBody {name : Token} {params : List Token} {body body' : List Stmt}
      (h : Stmt.SomeLocalRenamed body body') :
      FunctionDecl.LocalRenamed ⟨name, params, body⟩ ⟨name, params, body'⟩

/-- One of the statements has a local variable renamed. -/
inductive Stmt.SomeLocalRenamed : List Stmt → List Stmt → Prop
  | head {s s' : Stmt} {ss : List Stmt} (h : Stmt.LocalRenamed s s') :
      Stmt.SomeLocalRenamed (s :: ss) (s' :: ss)
  | tail {s : Stmt} {ss ss' : List Stmt} (h : Stmt.SomeLocalRenamed ss ss') :
      Stmt.SomeLocalRenamed (s :: ss) (s :: ss')

inductive FunctionDecl.SomeLocalRenamed : List FunctionDecl → List FunctionDecl → Prop
  | head {f f' : FunctionDecl} {fs : List FunctionDecl} (h : FunctionDecl.LocalRenamed f f') :
      FunctionDecl.SomeLocalRenamed (f :: fs) (f' :: fs)
  | tail {f : FunctionDecl} {fs fs' : List FunctionDecl}
      (h : FunctionDecl.SomeLocalRenamed fs fs') :
      FunctionDecl.SomeLocalRenamed (f :: fs) (f :: fs')

end

variable {r} {k : Nat} {marks : Marks}

/-! ## A scope declares a name once -/

/-- A statement that declares the name is a variable. -/
def Stmt.VarOnly (x : String) (s : Stmt) : Prop :=
  ∀ name, s.declared = some name → name.lexeme = x → ∃ initializer, s = .var name initializer

theorem Stmt.Scoped.declares {s : Stmt} {name : Token} {insideFunction : Bool} {n : Nest}
    (h : s.Scoped insideFunction n) (hd : s.declared = some name) : n.Declares name := by
  cases s with
  | var _ _ =>
    cases hd
    rw [Stmt.Scoped] at h
    exact h.1
  | function _ =>
    cases hd
    rw [Stmt.Scoped] at h
    exact h.1
  | classDecl _ _ _ =>
    cases hd
    rw [Stmt.Scoped] at h
    exact h.1
  | _ => cases hd

/-- The innermost scope after a statement. -/
theorem Nest.after_cons (names : List String) (n : Nest) (s : Stmt) :
    ∃ names', Nest.after (names :: n) s = names' :: n ∧ (∀ x ∈ names, x ∈ names') ∧
      ∀ name, s.declared = some name → name.lexeme ∈ names' := by
  unfold Nest.after
  cases s.declared with
  | none => exact ⟨names, rfl, fun _ hx => hx, nofun⟩
  | some name =>
    refine ⟨name.lexeme :: names, rfl, fun _ hx => List.mem_cons_of_mem _ hx, ?_⟩
    rintro _ ⟨⟩
    exact List.mem_cons_self ..

/-- What a scope declares already is not declared again. -/
theorem Stmt.AllScoped.declared_ne {x : String} {n : Nest} {insideFunction : Bool} :
    ∀ {ss : List Stmt} {names : List String}, Stmt.AllScoped insideFunction (names :: n) ss →
      x ∈ names → ∀ s ∈ ss, ∀ name, s.declared = some name → name.lexeme ≠ x
  | [], _, _, _ => nofun
  | s :: ss, names, h, hx => by
    rw [Stmt.AllScoped] at h
    obtain ⟨names', hafter, hmono, -⟩ := Nest.after_cons names n s
    rw [hafter] at h
    refine List.forall_mem_cons.2 ⟨?_, Stmt.AllScoped.declared_ne h.2 (hmono x hx)⟩
    rintro name hd rfl
    exact (h.1.declares hd).2 names rfl hx

theorem Stmt.AllScoped.varOnly_of_mem {x : String} {n : Nest} {insideFunction : Bool}
    {ss : List Stmt} {names : List String} (h : Stmt.AllScoped insideFunction (names :: n) ss)
    (hx : x ∈ names) : ∀ s ∈ ss, s.VarOnly x :=
  fun s hs name hd heq => absurd heq (h.declared_ne hx s hs name hd)

/-- Beside a declaration of a variable nothing else has its name. -/
theorem Stmt.AllScoped.varOnly {x : String} {n : Nest} {insideFunction : Bool} :
    ∀ {ss : List Stmt} {names : List String}, Stmt.AllScoped insideFunction (names :: n) ss →
      Stmt.DeclaresVar x ss → ∀ s ∈ ss, s.VarOnly x
  | [], _, _, _ => nofun
  | s :: ss, names, h, hx => by
    rw [Stmt.AllScoped] at h
    obtain ⟨names', hafter, -, hnames⟩ := Nest.after_cons names n s
    rw [hafter] at h
    obtain ⟨name, initializer, hmem, hname⟩ := hx
    rcases List.mem_cons.1 hmem with heq | hmem
    · subst heq
      have hself : Stmt.VarOnly x (.var name initializer) := by
        rintro _ ⟨⟩ -
        exact ⟨initializer, rfl⟩
      exact List.forall_mem_cons.2 ⟨hself, h.2.varOnly_of_mem (hname ▸ hnames name rfl)⟩
    · refine List.forall_mem_cons.2 ⟨?_, h.2.varOnly ⟨name, initializer, hmem, hname⟩⟩
      intro other hd hother
      have hne := h.2.declared_ne (hother ▸ hnames other hd) _ hmem name rfl
      exact absurd hname hne

/-! ## One marked scope -/

namespace Marks

/-- Only the scope `k` scopes outwards is marked. -/
def Only (k : Nat) (marks : Marks) : Prop :=
  ∀ d, marks.mark d = decide (d = k)

theorem Only.zero (h : marks.Clear) : Only 0 (true :: marks) := by
  intro d
  cases d with
  | zero => rfl
  | succ d => exact h d

theorem Only.cons (h : marks.Only k) : Only (k + 1) (false :: marks) := by
  intro d
  cases d with
  | zero => rfl
  | succ d => simp [h d]

theorem Only.atSlot (h : marks.Only k) (slot : Option Nat) :
    marks.atSlot slot = decide (slot = some k) := by
  cases slot with
  | none => rfl
  | some d => simp [Marks.atSlot, h d]

end Marks

theorem Token.rename_eq (h : marks.Only k) (slot : Option Nat) {t : Token}
    (hnew : t.lexeme ≠ r.new) : t.rename r k slot = t.called r (marks.atSlot slot) := by
  rw [h.atSlot, Token.rename]
  by_cases hslot : slot = some k
  · by_cases hold : t.lexeme = r.old
    · rw [if_pos ⟨hslot, hold⟩, decide_eq_true hslot, Token.called, hold, Renaming.called_old]
    · rw [if_neg fun hboth => hold hboth.2, Token.called, r.called_of_ne _ hold hnew]
  · rw [if_neg fun hboth => hslot hboth.1, decide_eq_false hslot, Token.called_false]

theorem Token.rename_declared (h : marks.Only k) {t : Token} (hnew : t.lexeme ≠ r.new) :
    t.rename r k (some 0) = t.called r (marks.mark 0) :=
  Token.rename_eq h (some 0) hnew

/-- The name of a function or class stays, since the scope with the variable has no such name. -/
theorem called_declared (h : marks.Only k) {name : Token} (hnew : name.lexeme ≠ r.new)
    (hold : k = 0 → name.lexeme ≠ r.old) :
    r.called (marks.mark 0) name.lexeme = name.lexeme := by
  rw [h 0]
  by_cases hk : k = 0
  · exact r.called_of_ne _ (hold hk) hnew
  · rw [decide_eq_false (Ne.symm hk), Renaming.called_false]

mutual

theorem Expr.renamed_rename (hm : marks.Only k) {n : Nest} {pending : Option String} :
    ∀ {e : Expr}, e.Scoped n pending → r.new ∉ e.mentions → e.Renamed r marks (e.rename r k)
  | .literal value, _, _ => .literal value
  | .grouping inner, h, hnew => by
    rw [Expr.Scoped] at h
    exact .grouping (Expr.renamed_rename hm h hnew)
  | .unary operator right, h, hnew => by
    rw [Expr.Scoped] at h
    exact .unary operator (Expr.renamed_rename hm h.2 hnew)
  | .binary left operator right, h, hnew => by
    rw [Expr.Scoped] at h
    simp only [Expr.mentions, Expr.references, List.map_append, List.mem_append, not_or] at hnew
    exact .binary operator (Expr.renamed_rename hm h.1 hnew.1)
      (Expr.renamed_rename hm h.2.2 hnew.2)
  | .logical left operator right, h, hnew => by
    rw [Expr.Scoped] at h
    simp only [Expr.mentions, Expr.references, List.map_append, List.mem_append, not_or] at hnew
    exact .logical operator (Expr.renamed_rename hm h.1 hnew.1) (Expr.renamed_rename hm h.2 hnew.2)
  | .variable name depth, _, hnew => by
    simp only [Expr.mentions, Expr.references, List.map_cons, List.map_nil, List.mem_singleton]
      at hnew
    rw [Expr.rename, Token.rename_eq hm depth (Ne.symm hnew)]
    exact .variable fun _ => Ne.symm hnew
  | .assign name value depth, h, hnew => by
    rw [Expr.Scoped] at h
    simp only [Expr.mentions, Expr.references, List.map_cons, List.mem_cons, not_or] at hnew
    rw [Expr.rename, Token.rename_eq hm depth (Ne.symm hnew.1)]
    exact .assign (fun _ => Ne.symm hnew.1) (Expr.renamed_rename hm h.2.1 hnew.2)
  | .call callee paren arguments, h, hnew => by
    rw [Expr.Scoped] at h
    simp only [Expr.mentions, Expr.references, List.map_append, List.mem_append, not_or] at hnew
    exact .call paren (Expr.renamed_rename hm h.1 hnew.1)
      (Expr.allRenamed_rename hm h.2 hnew.2)
  | .get object name, h, hnew => by
    rw [Expr.Scoped] at h
    exact .get name (Expr.renamed_rename hm h hnew)
  | .set object name value, h, hnew => by
    rw [Expr.Scoped] at h
    simp only [Expr.mentions, Expr.references, List.map_append, List.mem_append, not_or] at hnew
    exact .set name (Expr.renamed_rename hm h.1 hnew.1) (Expr.renamed_rename hm h.2 hnew.2)
  | .this keyword depth, h, _ => by
    rw [Expr.Scoped] at h
    exact .this fun _ => h.1
  | .super keyword method depth, _, _ => .super keyword method depth

theorem Expr.allRenamed_rename (hm : marks.Only k) {n : Nest} {pending : Option String} :
    ∀ {es : List Expr}, Expr.AllScoped n pending es → r.new ∉ Expr.mentionsAll es →
      Expr.AllRenamed r marks es (Expr.renameAll r k es)
  | [], _, _ => .nil
  | e :: es, h, hnew => by
    rw [Expr.AllScoped] at h
    simp only [Expr.mentionsAll, Expr.referencesAll, List.map_append, List.mem_append, not_or]
      at hnew
    exact .cons (Expr.renamed_rename hm h.1 hnew.1) (Expr.allRenamed_rename hm h.2 hnew.2)

end

theorem Expr.optRenamed_rename (hm : marks.Only k) {n : Nest} {pending : Option String}
    {o : Option Expr} (h : Expr.OptScoped n pending o) (hnew : r.new ∉ Expr.mentionsOpt o) :
    Expr.OptRenamed r marks o (Expr.renameOpt r k o) := by
  cases o with
  | none => exact .none
  | some e => exact .some (Expr.renamed_rename hm h hnew)

theorem Stmt.varOnly_of_none {s : Stmt} (h : s.declared = none) (x : String) : s.VarOnly x := by
  intro name hd
  rw [h] at hd
  cases hd

mutual

theorem Stmt.renamed_rename : ∀ {s : Stmt} {insideFunction : Bool} {n : Nest} {k : Nat}
    {marks : Marks}, marks.Only k → s.Scoped insideFunction n → r.new ∉ s.mentions →
      (k = 0 → s.VarOnly r.old) → s.Renamed r marks (s.rename r k)
  | .expression value, _, _, _, _, hm, h, hnew, _ => by
    rw [Stmt.Scoped] at h
    exact .expression (Expr.renamed_rename hm h hnew)
  | .print keyword value, _, _, _, _, hm, h, hnew, _ => by
    rw [Stmt.Scoped] at h
    exact .print keyword (Expr.renamed_rename hm h hnew)
  | .var name initializer, _, _, _, _, hm, h, hnew, _ => by
    rw [Stmt.Scoped] at h
    rw [Stmt.mentions, List.mem_cons, not_or] at hnew
    rw [Stmt.rename, Token.rename_declared hm (Ne.symm hnew.1)]
    exact .var name (Expr.optRenamed_rename hm h.2 hnew.2)
  | .block body, _, _, _, _, hm, h, hnew, _ => by
    rw [Stmt.Scoped] at h
    exact .block false (Stmt.allRenamed_rename hm.cons h hnew nofun)
  | .conditional condition thenBranch none, _, _, _, _, hm, h, hnew, _ => by
    rw [Stmt.Scoped] at h
    rw [Stmt.mentions, List.mem_append, not_or] at hnew
    exact .conditional (Expr.renamed_rename hm h.1 hnew.1)
      (Stmt.renamed_rename hm h.2.1 hnew.2 fun _ => Stmt.varOnly_of_none h.2.2 _)
  | .conditional condition thenBranch (some elseBranch), _, _, _, _, hm, h, hnew, _ => by
    rw [Stmt.Scoped] at h
    simp only [Stmt.mentions, List.mem_append, not_or] at hnew
    exact .conditionalElse (Expr.renamed_rename hm h.1 hnew.1.1)
      (Stmt.renamed_rename hm h.2.1.1 hnew.1.2 fun _ => Stmt.varOnly_of_none h.2.1.2 _)
      (Stmt.renamed_rename hm h.2.2.1 hnew.2 fun _ => Stmt.varOnly_of_none h.2.2.2 _)
  | .loop condition body, _, _, _, _, hm, h, hnew, _ => by
    rw [Stmt.Scoped] at h
    rw [Stmt.mentions, List.mem_append, not_or] at hnew
    exact .loop (Expr.renamed_rename hm h.1 hnew.1)
      (Stmt.renamed_rename hm h.2.1 hnew.2 fun _ => Stmt.varOnly_of_none h.2.2 _)
  | .function decl, _, _, k, _, hm, h, hnew, honly => by
    rw [Stmt.Scoped] at h
    rw [Stmt.mentions] at hnew
    have hold : k = 0 → decl.name.lexeme ≠ r.old := by
      intro hk heq
      obtain ⟨_, hvar⟩ := honly hk decl.name rfl heq
      cases hvar
    exact .function (called_declared hm (decl.name_ne_of_mentions hnew) hold)
      (FunctionDecl.renamed_rename hm h.2 hnew)
  | .ret keyword value, _, _, _, _, hm, h, hnew, _ => by
    rw [Stmt.Scoped] at h
    exact .ret keyword (Expr.optRenamed_rename hm h.2 hnew)
  | .classDecl name superclass methods, _, _, k, _, hm, h, hnew, honly => by
    rw [Stmt.Scoped] at h
    simp only [Stmt.mentions, List.mem_cons, List.mem_append, not_or] at hnew
    have hold : k = 0 → name.lexeme ≠ r.old := by
      intro hk heq
      obtain ⟨_, hvar⟩ := honly hk name rfl heq
      cases hvar
    have hname := called_declared hm (Ne.symm hnew.1) hold
    have hsuper := Expr.optRenamed_rename hm h.2.1 hnew.2.1
    cases superclass with
    | none =>
      exact .classDecl hname hsuper (FunctionDecl.allRenamed_rename hm.cons h.2.2 hnew.2.2)
    | some superclass =>
      exact .classDecl hname hsuper (FunctionDecl.allRenamed_rename hm.cons.cons h.2.2 hnew.2.2)

theorem FunctionDecl.renamed_rename : ∀ {f : FunctionDecl} {n : Nest} {k : Nat} {marks : Marks},
    marks.Only k → f.Scoped n → r.new ∉ f.mentions → f.Renamed r marks (f.rename r k)
  | ⟨name, params, body⟩, _, k, marks, hm, h, hnew => by
    rw [FunctionDecl.Scoped] at h
    simp only [FunctionDecl.mentions, List.mem_cons, List.mem_append, not_or] at hnew
    have hbody := Stmt.allRenamed_rename hm.cons h.2.2 hnew.2.2 nofun
    have hf : FunctionDecl.Renamed r marks ⟨name, params, body⟩
        ⟨name, params.map (Token.called r false), Stmt.renameAll r (k + 1) body⟩ :=
      .mk false name params hbody
    have hparams : params.map (Token.called r false) = params := List.map_id params
    rwa [hparams] at hf

theorem Stmt.allRenamed_rename : ∀ {ss : List Stmt} {insideFunction : Bool} {n : Nest} {k : Nat}
    {marks : Marks}, marks.Only k → Stmt.AllScoped insideFunction n ss →
      r.new ∉ Stmt.mentionsAll ss → (k = 0 → ∀ s ∈ ss, s.VarOnly r.old) →
        Stmt.AllRenamed r marks ss (Stmt.renameAll r k ss)
  | [], _, _, _, _, _, _, _, _ => .nil
  | s :: ss, _, _, _, _, hm, h, hnew, honly => by
    rw [Stmt.AllScoped] at h
    rw [Stmt.mentionsAll, List.mem_append, not_or] at hnew
    exact .cons (Stmt.renamed_rename hm h.1 hnew.1 fun hk => honly hk s (List.mem_cons_self ..))
      (Stmt.allRenamed_rename hm h.2 hnew.2
        fun hk s' hs' => honly hk s' (List.mem_cons_of_mem _ hs'))

theorem FunctionDecl.allRenamed_rename : ∀ {fs : List FunctionDecl} {n : Nest} {k : Nat}
    {marks : Marks}, marks.Only k → FunctionDecl.AllScoped n fs →
      r.new ∉ FunctionDecl.mentionsAll fs →
        FunctionDecl.AllRenamed r marks fs (FunctionDecl.renameAll r k fs)
  | [], _, _, _, _, _, _ => .nil
  | f :: fs, _, _, _, hm, h, hnew => by
    rw [FunctionDecl.AllScoped] at h
    rw [FunctionDecl.mentionsAll, List.mem_append, not_or] at hnew
    exact .cons (FunctionDecl.renamed_rename hm h.1 hnew.1)
      (FunctionDecl.allRenamed_rename hm h.2 hnew.2)

end

/-! ## From one variable to marks -/

mutual

/-- Renaming the variable of one scope of a scoped statement is a renaming that marks that scope. -/
theorem Stmt.LocalRenamed.renamed : ∀ {s s' : Stmt} {insideFunction : Bool} {n : Nest}
    {marks : Marks}, s.LocalRenamed r s' → marks.Clear → s.Scoped insideFunction n →
      r.new ∉ s.mentions → s.Renamed r marks s'
  | _, _, _, _, _, .block hdeclares, hm, h, hnew => by
    rw [Stmt.Scoped] at h
    exact .block true (Stmt.allRenamed_rename (.zero hm) h hnew fun _ => h.varOnly hdeclares)
  | _, _, _, _, _, .inBlock hr, hm, h, hnew => by
    rw [Stmt.Scoped] at h
    exact .block false (hr.renamed hm.cons h hnew)
  | .conditional condition _ none, _, _, _, _, .inThen hr, hm, h, hnew => by
    rw [Stmt.Scoped] at h
    rw [Stmt.mentions, List.mem_append, not_or] at hnew
    exact .conditional (Expr.renamed_self hm condition) (hr.renamed hm h.2.1 hnew.2)
  | .conditional condition _ (some elseBranch), _, _, _, _, .inThen hr, hm, h, hnew => by
    rw [Stmt.Scoped] at h
    simp only [Stmt.mentions, List.mem_append, not_or] at hnew
    exact .conditionalElse (Expr.renamed_self hm condition) (hr.renamed hm h.2.1.1 hnew.1.2)
      (Stmt.renamed_self elseBranch hm)
  | .conditional condition thenBranch (some _), _, _, _, _, .inElse hr, hm, h, hnew => by
    rw [Stmt.Scoped] at h
    simp only [Stmt.mentions, List.mem_append, not_or] at hnew
    exact .conditionalElse (Expr.renamed_self hm condition) (Stmt.renamed_self thenBranch hm)
      (hr.renamed hm h.2.2.1 hnew.2)
  | .loop condition _, _, _, _, _, .inLoop hr, hm, h, hnew => by
    rw [Stmt.Scoped] at h
    rw [Stmt.mentions, List.mem_append, not_or] at hnew
    exact .loop (Expr.renamed_self hm condition) (hr.renamed hm h.2.1 hnew.2)
  | .function decl, _, _, _, _, .inFunction hr, hm, h, hnew => by
    rw [Stmt.Scoped] at h
    rw [Stmt.mentions] at hnew
    exact .function (by rw [hm 0, Renaming.called_false]) (hr.renamed hm h.2 hnew)
  | .classDecl name superclass _, _, _, _, _, .inClass hr, hm, h, hnew => by
    rw [Stmt.Scoped] at h
    simp only [Stmt.mentions, List.mem_cons, List.mem_append, not_or] at hnew
    exact .classDecl (by rw [hm 0, Renaming.called_false]) (Expr.optRenamed_self hm superclass)
      (hr.renamed (methodMarks_clear hm superclass) h.2.2 hnew.2.2)

theorem FunctionDecl.LocalRenamed.renamed : ∀ {f f' : FunctionDecl} {n : Nest} {marks : Marks},
    f.LocalRenamed r f' → marks.Clear → f.Scoped n → r.new ∉ f.mentions → f.Renamed r marks f'
  | ⟨name, params, body⟩, _, _, marks, .own hdeclares, hm, h, hnew => by
    rw [FunctionDecl.Scoped] at h
    simp only [FunctionDecl.mentions, List.mem_cons, List.mem_append, not_or] at hnew
    have honly : ∀ s ∈ body, s.VarOnly r.old :=
      hdeclares.elim h.2.2.varOnly_of_mem h.2.2.varOnly
    have hbody := Stmt.allRenamed_rename (.zero hm) h.2.2 hnew.2.2 fun _ => honly
    have hparams : params.map (Token.rename r 0 (some 0)) = params.map (Token.called r true) := by
      refine List.map_congr_left fun p hp => Token.rename_declared (Marks.Only.zero hm) ?_
      exact fun heq => hnew.2.1 (List.mem_map.2 ⟨p, hp, heq⟩)
    rw [hparams]
    exact .mk true name params hbody
  | ⟨name, params, body⟩, _, _, marks, .inBody hr, hm, h, hnew => by
    rw [FunctionDecl.Scoped] at h
    simp only [FunctionDecl.mentions, List.mem_cons, List.mem_append, not_or] at hnew
    have hf := FunctionDecl.Renamed.mk false name params (hr.renamed hm.cons h.2.2 hnew.2.2)
    have hparams : params.map (Token.called r false) = params := List.map_id params
    rwa [hparams] at hf

/-- Renaming one local variable of a scoped program is a renaming. -/
theorem Stmt.SomeLocalRenamed.renamed : ∀ {ss ss' : List Stmt} {insideFunction : Bool} {n : Nest}
    {marks : Marks}, Stmt.SomeLocalRenamed r ss ss' → marks.Clear →
      Stmt.AllScoped insideFunction n ss → r.new ∉ Stmt.mentionsAll ss →
        Stmt.AllRenamed r marks ss ss'
  | s :: ss, _, _, _, _, .head hr, hm, h, hnew => by
    rw [Stmt.AllScoped] at h
    rw [Stmt.mentionsAll, List.mem_append, not_or] at hnew
    exact .cons (hr.renamed hm h.1 hnew.1) (Stmt.allRenamed_self ss hm)
  | s :: ss, _, _, _, _, .tail hr, hm, h, hnew => by
    rw [Stmt.AllScoped] at h
    rw [Stmt.mentionsAll, List.mem_append, not_or] at hnew
    exact .cons (Stmt.renamed_self s hm) (hr.renamed hm h.2 hnew.2)

theorem FunctionDecl.SomeLocalRenamed.renamed : ∀ {fs fs' : List FunctionDecl} {n : Nest}
    {marks : Marks}, FunctionDecl.SomeLocalRenamed r fs fs' → marks.Clear →
      FunctionDecl.AllScoped n fs → r.new ∉ FunctionDecl.mentionsAll fs →
        FunctionDecl.AllRenamed r marks fs fs'
  | f :: fs, _, _, _, .head hr, hm, h, hnew => by
    rw [FunctionDecl.AllScoped] at h
    rw [FunctionDecl.mentionsAll, List.mem_append, not_or] at hnew
    exact .cons (hr.renamed hm h.1 hnew.1) (FunctionDecl.allRenamed_self fs hm)
  | f :: fs, _, _, _, .tail hr, hm, h, hnew => by
    rw [FunctionDecl.AllScoped] at h
    rw [FunctionDecl.mentionsAll, List.mem_append, not_or] at hnew
    exact .cons (FunctionDecl.renamed_self f hm) (hr.renamed hm h.2 hnew.2)

end

end Lox
