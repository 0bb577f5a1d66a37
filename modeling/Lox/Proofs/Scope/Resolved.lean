import Lox.Proofs.Scope.Nest
import Mathlib.Data.List.Forall2

/-!
# Checked programs are scoped

What `resolve` makes of a parsed program without errors is `Scoped` (`resolve_scoped`). The scopes
of the checker keep, beside each name, whether it may be read yet. `Shows` says that they are those
of a nest with every name ready; `Sees` is what an expression asks of them, also in the initializer
of a variable, whose name is pending there.
-/

set_option autoImplicit false

namespace Lox

namespace Checked

variable {α β : Type}

@[simp] theorem value_pure (a : α) : (pure a : Checked α).value = a := rfl

@[simp] theorem errors_pure (a : α) : (pure a : Checked α).errors = [] := rfl

@[simp] theorem value_bind (x : Checked α) (f : α → Checked β) :
    (x >>= f).value = (f x.value).value := rfl

@[simp] theorem errors_bind (x : Checked α) (f : α → Checked β) :
    (x >>= f).errors = x.errors ++ (f x.value).errors := rfl

@[simp] theorem errors_report (token : Token) (cause : ScopeCause) :
    (report token cause).errors = [.scoping token cause] := rfl

end Checked

/-! ## The checker's scopes -/

/-- Exactly these names are declared, all of them ready. -/
def Scope.Shows (scope : Scope) (names : List String) : Prop :=
  ∀ x, scope.get? x = if x ∈ names then some .ready else none

theorem Scope.Shows.contains {scope : Scope} {names : List String} (h : Scope.Shows scope names)
    (x : String) : scope.contains x = decide (x ∈ names) := by
  rw [Bindings.contains, h x]
  by_cases hx : x ∈ names <;> simp [hx]

theorem Scope.Shows.empty : Scope.Shows .empty [] := by
  intro x
  simp

theorem Scope.Shows.insert {scope : Scope} {names : List String} (h : Scope.Shows scope names)
    (name : String) : Scope.Shows (scope.insert name .ready) (name :: names) := by
  intro x
  rw [Bindings.get?_insert, h x]
  by_cases hx : x = name <;> simp [hx]

theorem Scope.Shows.define {scope : Scope} {names : List String} (h : Scope.Shows scope names)
    (name : String) :
    Scope.Shows ((scope.insert name .pending).insert name .ready) (name :: names) := by
  intro x
  rw [Bindings.get?_insert, Bindings.get?_insert, h x]
  by_cases hx : x = name <;> simp [hx]

namespace Scopes

/-- The local scopes are those of the nest, with every name ready. -/
def Shows (s : Scopes) (n : Nest) : Prop :=
  List.Forall₂ Scope.Shows s.locals n

theorem findIdx?_shows {scopes : List Scope} {n : Nest} (h : List.Forall₂ Scope.Shows scopes n)
    (name : String) :
    (scopes.findIdx? fun scope => scope.contains name) = n.distance? name := by
  induction h with
  | nil => rfl
  | cons h _ ih =>
    rw [List.findIdx?_cons, h.contains, ih, Nest.distance?_cons]
    simp

theorem Shows.distance? {s : Scopes} {n : Nest} (h : s.Shows n) (name : String) :
    s.distance? name = n.distance? name :=
  findIdx?_shows h name

theorem Shows.isPending {s : Scopes} {n : Nest} (h : s.Shows n) (name : String) :
    s.isPending name = false := by
  obtain ⟨locals, globals⟩ := s
  cases h with
  | nil => rfl
  | @cons scope names scopes n' h _ =>
    have hget := h name
    by_cases hname : name ∈ names <;> simp [Scopes.isPending, hget, hname]

theorem Shows.push {s : Scopes} {n : Nest} {scope : Scope} {names : List String} (h : s.Shows n)
    (hscope : Scope.Shows scope names) : (s.push scope).Shows (names :: n) :=
  .cons hscope h

theorem thisScope_shows : Scope.Shows thisScope ["this"] :=
  Scope.Shows.empty.insert "this"

theorem superScope_shows : Scope.Shows superScope ["super"] :=
  Scope.Shows.empty.insert "super"

/-- A declaration that is no error is the first in its scope, and ready afterwards. -/
theorem Shows.declare {s : Scopes} {n : Nest} {name : Token} (h : s.Shows n)
    (herrors : (s.declare name).errors = []) :
    n.Fresh name.lexeme ∧ ((s.declare name).value.define name).Shows (n.declare name.lexeme) := by
  obtain ⟨locals, globals⟩ := s
  cases h with
  | nil => exact ⟨nofun, .nil⟩
  | @cons scope names scopes n' hscope hrest =>
    by_cases hname : name.lexeme ∈ names
    · simp [Scopes.declare, hscope.contains, hname] at herrors
    · refine ⟨?_, ?_⟩
      · intro names' hnames'
        cases hnames'
        exact hname
      · simp only [Scopes.declare, hscope.contains, hname, decide_false, Bool.false_eq_true,
          if_false, Checked.value_pure, Scopes.define]
        exact .cons (hscope.define name.lexeme) hrest

/-- What an expression asks of the checker's scopes: where reads and assignments of a name go. -/
structure Sees (s : Scopes) (n : Nest) (pending : Option String) : Prop where
  read : ∀ x, (if s.isPending x then s.outerDistance? x else s.distance? x) = n.distance? x
  write : ∀ x, s.distance? x = n.target? pending x
  special : pending ≠ some "this" ∧ pending ≠ some "super"

theorem Shows.sees {s : Scopes} {n : Nest} (h : s.Shows n) : s.Sees n none where
  read := by
    intro x
    rw [h.isPending, if_neg Bool.false_ne_true, h.distance?]
  write := by
    intro x
    rw [h.distance?, Nest.target?_none]
  special := ⟨nofun, nofun⟩

/-- In its own initializer a local variable is pending. -/
theorem Shows.sees_declare {s : Scopes} {n : Nest} {name : Token} (h : s.Shows n)
    (herrors : (s.declare name).errors = []) (hname : name.IsName) :
    (s.declare name).value.Sees n (n.pending name.lexeme) := by
  obtain ⟨locals, globals⟩ := s
  cases h with
  | nil => exact Shows.sees (s := ⟨[], _⟩) .nil
  | @cons scope names scopes n' hscope hrest =>
    by_cases hmem : name.lexeme ∈ names
    · simp [Scopes.declare, hscope.contains, hmem] at herrors
    · have hvalue : (Scopes.declare ⟨scope :: scopes, globals⟩ name).value
          = ⟨scope.insert name.lexeme .pending :: scopes, globals⟩ := by
        simp [Scopes.declare, hscope.contains, hmem]
      have houter := findIdx?_shows hrest
      rw [hvalue]
      refine ⟨fun x => ?_, fun x => ?_, ?_⟩
      · by_cases hx : x = name.lexeme
        · subst hx
          simp [Scopes.isPending, Bindings.get?_insert, Scopes.outerDistance?, houter,
            Nest.distance?_cons, hmem]
        · have hget := hscope x
          by_cases hxm : x ∈ names <;>
            simp [Scopes.isPending, Bindings.get?_insert, Bindings.contains_insert, hx, hget,
              Scopes.distance?, List.findIdx?_cons, hscope.contains, hxm, houter,
              Nest.distance?_cons]
      · by_cases hx : x = name.lexeme
        · simp [Scopes.distance?, List.findIdx?_cons, Bindings.contains_insert, Nest.pending,
            Nest.target?, hx]
        · have hne : name.lexeme ≠ x := fun e => hx e.symm
          by_cases hxm : x ∈ names <;>
            simp [Scopes.distance?, List.findIdx?_cons, Bindings.contains_insert, Nest.pending,
              Nest.target?, hx, hne, hscope.contains, hxm, houter, Nest.distance?_cons]
      · simp only [Nest.pending, List.cons_ne_nil, if_false, ne_eq, Option.some.injEq]
        exact hname

theorem Sees.readSlot {s : Scopes} {n : Nest} {pending : Option String} (h : s.Sees n pending)
    (name : Token) : (s.readSlot name none).value = n.distance? name.lexeme := by
  rw [← h.read name.lexeme]
  unfold Scopes.readSlot
  by_cases hpending : s.isPending name.lexeme = true
  · simp only [hpending, if_true]
    cases houter : s.outerDistance? name.lexeme with
    | some d => rfl
    | none => by_cases hglobal : name.lexeme ∈ s.globals <;> simp [hglobal]
  · simp [hpending]

theorem Sees.slot {s : Scopes} {n : Nest} {pending : Option String} (h : s.Sees n pending)
    (name : Token) : s.slot name none = n.target? pending name.lexeme := by
  rw [Scopes.slot, h.write, Option.or_none]

theorem Sees.slot_of_ne {s : Scopes} {n : Nest} {pending : Option String} {name : Token}
    (h : s.Sees n pending) (hne : pending ≠ some name.lexeme) :
    s.slot name none = n.distance? name.lexeme := by
  rw [h.slot, Nest.target?, if_neg hne]

end Scopes

/-! ## Classes around a place -/

/-- The scopes of the class around a place are in the nest. -/
def Nest.Supports (n : Nest) : ClassContext → Prop
  | .outside => True
  | .plain => ∃ d, n.distance? "this" = some d
  | .subclass => ∃ d, n.distance? "super" = some (d + 1) ∧ n.distance? "this" = some d

theorem Nest.Supports.push {n : Nest} {c : ClassContext} {names : List String} (h : n.Supports c)
    (hthis : "this" ∉ names) (hsuper : "super" ∉ names) : Nest.Supports (names :: n) c := by
  cases c with
  | outside => trivial
  | plain =>
    obtain ⟨d, hd⟩ := h
    exact ⟨d + 1, by simp [Nest.distance?_cons, hthis, hd]⟩
  | subclass =>
    obtain ⟨d, hd, hd'⟩ := h
    exact ⟨d + 1, by simp [Nest.distance?_cons, hsuper, hd], by
      simp [Nest.distance?_cons, hthis, hd']⟩

theorem Nest.Supports.declare {n : Nest} {c : ClassContext} {name : Token} (h : n.Supports c)
    (hname : name.IsName) : (n.declare name.lexeme).Supports c := by
  have hthis := Nest.distance?_declare_ne n hname.1.symm
  have hsuper := Nest.distance?_declare_ne n hname.2.symm
  cases c with
  | outside => trivial
  | plain => exact h.imp fun d hd => hthis.trans hd
  | subclass => exact h.imp fun d hd => ⟨hsuper.trans hd.1, hthis.trans hd.2⟩

theorem Nest.supports_plain (n : Nest) : Nest.Supports (["this"] :: n) .plain :=
  ⟨0, by simp [Nest.distance?_cons]⟩

theorem Nest.supports_subclass (n : Nest) :
    Nest.Supports (["this"] :: ["super"] :: n) .subclass :=
  ⟨0, by simp [Nest.distance?_cons], by simp [Nest.distance?_cons]⟩

/-! ## Expressions -/

mutual

theorem Expr.resolve_scoped {s : Scopes} {n : Nest} {pending : Option String} {c : ClassContext}
    (hs : s.Sees n pending) (hc : n.Supports c) : ∀ {e : Expr}, e.Shaped →
      (e.resolve s c).errors = [] → (e.resolve s c).value.Scoped n pending
  | .literal _, _, _ => by simp only [Expr.resolve, Checked.value_pure, Expr.Scoped]
  | .grouping inner, h, he => by
    simp only [Expr.Shaped] at h
    simp only [Expr.resolve, Checked.errors_bind, Checked.errors_pure, List.append_nil] at he
    simp only [Expr.resolve, Checked.value_bind, Checked.value_pure, Expr.Scoped]
    exact Expr.resolve_scoped hs hc h he
  | .unary operator right, h, he => by
    simp only [Expr.Shaped] at h
    simp only [Expr.resolve, Checked.errors_bind, Checked.errors_pure, List.append_nil] at he
    simp only [Expr.resolve, Checked.value_bind, Checked.value_pure, Expr.Scoped]
    exact ⟨h.1, Expr.resolve_scoped hs hc h.2 he⟩
  | .binary left operator right, h, he => by
    simp only [Expr.Shaped] at h
    simp only [Expr.resolve, Checked.errors_bind, Checked.errors_pure, List.append_nil,
      List.append_eq_nil_iff] at he
    simp only [Expr.resolve, Checked.value_bind, Checked.value_pure, Expr.Scoped]
    exact ⟨Expr.resolve_scoped hs hc h.1 he.1, h.2.1, Expr.resolve_scoped hs hc h.2.2 he.2⟩
  | .logical left operator right, h, he => by
    simp only [Expr.Shaped] at h
    simp only [Expr.resolve, Checked.errors_bind, Checked.errors_pure, List.append_nil,
      List.append_eq_nil_iff] at he
    simp only [Expr.resolve, Checked.value_bind, Checked.value_pure, Expr.Scoped]
    exact ⟨Expr.resolve_scoped hs hc h.1 he.1, Expr.resolve_scoped hs hc h.2.2 he.2⟩
  | .variable name depth, h, _ => by
    simp only [Expr.Shaped] at h
    obtain ⟨-, rfl⟩ := h
    simp only [Expr.resolve, Checked.value_bind, Checked.value_pure, Expr.Scoped]
    exact hs.readSlot name
  | .assign name value depth, h, he => by
    simp only [Expr.Shaped] at h
    obtain ⟨hname, hvalue, rfl⟩ := h
    simp only [Expr.resolve, Checked.errors_bind, Checked.errors_pure, List.append_nil] at he
    simp only [Expr.resolve, Checked.value_bind, Checked.value_pure, Expr.Scoped]
    exact ⟨hname, Expr.resolve_scoped hs hc hvalue he, hs.slot name⟩
  | .call callee paren arguments, h, he => by
    simp only [Expr.Shaped] at h
    simp only [Expr.resolve, Checked.errors_bind, Checked.errors_pure, List.append_nil,
      List.append_eq_nil_iff] at he
    simp only [Expr.resolve, Checked.value_bind, Checked.value_pure, Expr.Scoped]
    exact ⟨Expr.resolve_scoped hs hc h.1 he.1, Expr.resolveAll_scoped hs hc h.2 he.2⟩
  | .get object name, h, he => by
    simp only [Expr.Shaped] at h
    simp only [Expr.resolve, Checked.errors_bind, Checked.errors_pure, List.append_nil] at he
    simp only [Expr.resolve, Checked.value_bind, Checked.value_pure, Expr.Scoped]
    exact Expr.resolve_scoped hs hc h he
  | .set object name value, h, he => by
    simp only [Expr.Shaped] at h
    simp only [Expr.resolve, Checked.errors_bind, Checked.errors_pure, List.append_nil,
      List.append_eq_nil_iff] at he
    simp only [Expr.resolve, Checked.value_bind, Checked.value_pure, Expr.Scoped]
    exact ⟨Expr.resolve_scoped hs hc h.1 he.2, Expr.resolve_scoped hs hc h.2 he.1⟩
  | .this keyword depth, h, he => by
    simp only [Expr.Shaped] at h
    obtain ⟨hk, rfl⟩ := h
    have hslot : s.slot keyword none = n.distance? "this" := by
      rw [hs.slot_of_ne (by rw [hk]; exact hs.special.1), hk]
    cases c with
    | outside => simp [Expr.resolve] at he
    | plain =>
      obtain ⟨d, hd⟩ := hc
      simp only [Expr.resolve, Checked.value_pure, Expr.Scoped]
      exact ⟨hk, d, hslot.trans hd, hd⟩
    | subclass =>
      obtain ⟨d, -, hd⟩ := hc
      simp only [Expr.resolve, Checked.value_pure, Expr.Scoped]
      exact ⟨hk, d, hslot.trans hd, hd⟩
  | .super keyword method depth, h, he => by
    simp only [Expr.Shaped] at h
    obtain ⟨hk, rfl⟩ := h
    have hslot : s.slot keyword none = n.distance? "super" := by
      rw [hs.slot_of_ne (by rw [hk]; exact hs.special.2), hk]
    cases c with
    | outside | plain => simp [Expr.resolve] at he
    | subclass =>
      obtain ⟨d, hd, hd'⟩ := hc
      simp only [Expr.resolve, Checked.value_pure, Expr.Scoped]
      exact ⟨d, hslot.trans hd, hd, hd'⟩

theorem Expr.resolveAll_scoped {s : Scopes} {n : Nest} {pending : Option String}
    {c : ClassContext} (hs : s.Sees n pending) (hc : n.Supports c) : ∀ {es : List Expr},
      Expr.AllShaped es → (Expr.resolveAll s c es).errors = [] →
        Expr.AllScoped n pending (Expr.resolveAll s c es).value
  | [], _, _ => by simp only [Expr.resolveAll, Checked.value_pure, Expr.AllScoped]
  | e :: es, h, he => by
    simp only [Expr.AllShaped] at h
    simp only [Expr.resolveAll, Checked.errors_bind, Checked.errors_pure, List.append_nil,
      List.append_eq_nil_iff] at he
    simp only [Expr.resolveAll, Checked.value_bind, Checked.value_pure, Expr.AllScoped]
    exact ⟨Expr.resolve_scoped hs hc h.1 he.1, Expr.resolveAll_scoped hs hc h.2 he.2⟩

end

theorem Expr.resolveOpt_scoped {s : Scopes} {n : Nest} {pending : Option String}
    {c : ClassContext} (hs : s.Sees n pending) (hc : n.Supports c) {o : Option Expr}
    (h : Expr.OptShaped o) (he : (Expr.resolveOpt s c o).errors = []) :
    Expr.OptScoped n pending (Expr.resolveOpt s c o).value := by
  cases o with
  | none => trivial
  | some e =>
    simp only [Expr.resolveOpt, Checked.errors_bind, Checked.errors_pure, List.append_nil] at he
    exact Expr.resolve_scoped hs hc h he

/-! ## Statements -/

/-- The parameters of a function are declared in one scope, each once. -/
theorem Scopes.declareParams_shows : ∀ {ps : List Token} {s : Scopes} {names : List String}
    {n : Nest}, s.Shows (names :: n) → (s.declareParams ps).errors = [] →
      (ps.map (·.lexeme)).Nodup ∧ (∀ x ∈ ps.map (·.lexeme), x ∉ names) ∧
        ∃ names', (s.declareParams ps).value.Shows (names' :: n) ∧
          ∀ x, x ∈ names' ↔ x ∈ ps.map (·.lexeme) ∨ x ∈ names
  | [], s, names, n, hs, _ => ⟨.nil, nofun, names, hs, by simp⟩
  | p :: ps, s, names, n, hs, he => by
    simp only [Scopes.declareParams, Checked.errors_bind, List.append_eq_nil_iff] at he
    obtain ⟨hfresh, hshows⟩ := hs.declare he.1
    have hp : p.lexeme ∉ names := hfresh names rfl
    obtain ⟨hnodup, hnew, names', hshows', hmem⟩ := Scopes.declareParams_shows hshows he.2
    refine ⟨?_, ?_, names', hshows', fun x => ?_⟩
    · refine List.nodup_cons.2 ⟨fun h => ?_, hnodup⟩
      exact hnew _ h (List.mem_cons_self ..)
    · intro x hx
      rcases List.mem_cons.1 hx with rfl | hx
      · exact hp
      · exact fun h => hnew x hx (List.mem_cons_of_mem _ h)
    · rw [hmem]
      simp only [List.map_cons, List.mem_cons]
      grind

theorem Scopes.Shows.declareParams {ps : List Token} {s : Scopes} {n : Nest} (hs : s.Shows n)
    (he : ((s.push .empty).declareParams ps).errors = []) :
    (ps.map (·.lexeme)).Nodup ∧
      ((s.push .empty).declareParams ps).value.Shows (ps.map (·.lexeme) :: n) := by
  obtain ⟨hnodup, -, names', hshows, hmem⟩ :=
    Scopes.declareParams_shows (hs.push Scope.Shows.empty) he
  refine ⟨hnodup, ?_⟩
  generalize (s.push .empty).declareParams ps = checked at hshows
  obtain ⟨⟨locals, globals⟩, errors⟩ := checked
  cases hshows with
  | cons hscope hrest =>
    refine .cons (fun x => ?_) hrest
    rw [hscope x]
    simp [hmem]

theorem FunctionDecl.resolve_name (c : Context) (s : Scopes) (f : FunctionDecl) :
    (f.resolve c s).value.name = f.name := by
  cases f
  rfl

theorem Stmt.resolve_declared (c : Context) (s : Scopes) (x : Stmt) :
    (x.resolve c s).value.1.declared = x.declared := by
  cases x with
  | conditional condition thenBranch elseBranch => cases elseBranch <;> rfl
  | classDecl name superclass methods => cases superclass <;> rfl
  | function decl => simp [Stmt.resolve, Stmt.declared, FunctionDecl.resolve_name]
  | ret keyword value => by_cases h : c.insideFunction <;> simp [Stmt.resolve, h, Stmt.declared]
  | _ => rfl

theorem Nest.after_resolve (n : Nest) (c : Context) (s : Scopes) (x : Stmt) :
    n.after (x.resolve c s).value.1 = n.after x := by
  rw [Nest.after, Stmt.resolve_declared, Nest.after]

theorem Stmt.Shaped.isName {x : Stmt} (h : x.Shaped) {name : Token}
    (hname : x.declared = some name) : name.IsName := by
  cases x with
  | var =>
    cases hname
    simp only [Stmt.Shaped] at h
    exact h.1
  | function decl =>
    cases hname
    cases decl
    simp only [Stmt.Shaped, FunctionDecl.Shaped] at h
    exact h.1
  | classDecl _ superclass =>
    cases hname
    cases superclass <;> (simp only [Stmt.Shaped] at h; exact h.1)
  | _ => cases hname

theorem Nest.Supports.after {n : Nest} {c : ClassContext} {x : Stmt} (hc : n.Supports c)
    (h : x.Shaped) : (n.after x).Supports c := by
  unfold Nest.after
  split
  · exact hc.declare (h.isName ‹_›)
  · exact hc

mutual

theorem Stmt.resolve_scoped : ∀ {x : Stmt} {c : Context} {s : Scopes} {n : Nest}, s.Shows n →
    n.Supports c.enclosingClass → x.Shaped → (x.resolve c s).errors = [] →
      (x.resolve c s).value.1.Scoped c.insideFunction n ∧
        (x.resolve c s).value.2.Shows (n.after x)
  | .expression value, c, s, n, hs, hc, h, he => by
    simp only [Stmt.Shaped] at h
    simp only [Stmt.resolve, Checked.errors_bind, Checked.errors_pure, List.append_nil] at he
    simp only [Stmt.resolve, Checked.value_bind, Checked.value_pure, Stmt.Scoped]
    exact ⟨Expr.resolve_scoped hs.sees hc h he, hs⟩
  | .print keyword value, c, s, n, hs, hc, h, he => by
    simp only [Stmt.Shaped] at h
    simp only [Stmt.resolve, Checked.errors_bind, Checked.errors_pure, List.append_nil] at he
    simp only [Stmt.resolve, Checked.value_bind, Checked.value_pure, Stmt.Scoped]
    exact ⟨Expr.resolve_scoped hs.sees hc h he, hs⟩
  | .var name initializer, c, s, n, hs, hc, h, he => by
    simp only [Stmt.Shaped] at h
    simp only [Stmt.resolve, Checked.errors_bind, Checked.errors_pure, List.append_nil,
      List.append_eq_nil_iff] at he
    simp only [Stmt.resolve, Checked.value_bind, Checked.value_pure, Stmt.Scoped]
    obtain ⟨hfresh, hshows⟩ := hs.declare he.1
    exact ⟨⟨⟨h.1, hfresh⟩, Expr.resolveOpt_scoped (hs.sees_declare he.1 h.1) hc h.2 he.2⟩, hshows⟩
  | .block body, c, s, n, hs, hc, h, he => by
    simp only [Stmt.Shaped] at h
    simp only [Stmt.resolve, Checked.errors_bind, Checked.errors_pure, List.append_nil] at he
    simp only [Stmt.resolve, Checked.value_bind, Checked.value_pure, Stmt.Scoped]
    exact ⟨Stmt.resolveAll_scoped (hs.push Scope.Shows.empty)
      (hc.push (List.not_mem_nil) (List.not_mem_nil)) h he, hs⟩
  | .conditional condition thenBranch none, c, s, n, hs, hc, h, he => by
    simp only [Stmt.Shaped] at h
    simp only [Stmt.resolve, Checked.errors_bind, Checked.errors_pure, List.append_nil,
      List.append_eq_nil_iff] at he
    simp only [Stmt.resolve, Checked.value_bind, Checked.value_pure, Stmt.Scoped]
    obtain ⟨hthen, hshows⟩ := Stmt.resolve_scoped hs hc h.2.1 he.2
    rw [Nest.after_of_none h.2.2] at hshows
    exact ⟨⟨Expr.resolve_scoped hs.sees hc h.1 he.1, hthen,
      (Stmt.resolve_declared ..).trans h.2.2⟩, hshows⟩
  | .conditional condition thenBranch (some elseBranch), c, s, n, hs, hc, h, he => by
    simp only [Stmt.Shaped] at h
    simp only [Stmt.resolve, Checked.errors_bind, Checked.errors_pure, List.append_nil,
      List.append_eq_nil_iff] at he
    simp only [Stmt.resolve, Checked.value_bind, Checked.value_pure, Stmt.Scoped]
    obtain ⟨hcondition, ⟨hthen, hthenNone⟩, helse, helseNone⟩ := h
    obtain ⟨hthen, hshows⟩ := Stmt.resolve_scoped hs hc hthen he.2.1
    rw [Nest.after_of_none hthenNone] at hshows
    obtain ⟨helse, hshows'⟩ := Stmt.resolve_scoped hshows hc helse he.2.2
    rw [Nest.after_of_none helseNone] at hshows'
    exact ⟨⟨Expr.resolve_scoped hs.sees hc hcondition he.1,
      ⟨hthen, (Stmt.resolve_declared ..).trans hthenNone⟩,
      helse, (Stmt.resolve_declared ..).trans helseNone⟩, hshows'⟩
  | .loop condition body, c, s, n, hs, hc, h, he => by
    simp only [Stmt.Shaped] at h
    simp only [Stmt.resolve, Checked.errors_bind, Checked.errors_pure, List.append_nil,
      List.append_eq_nil_iff] at he
    simp only [Stmt.resolve, Checked.value_bind, Checked.value_pure, Stmt.Scoped]
    obtain ⟨hbody, hshows⟩ := Stmt.resolve_scoped hs hc h.2.1 he.2
    rw [Nest.after_of_none h.2.2] at hshows
    exact ⟨⟨Expr.resolve_scoped hs.sees hc h.1 he.1, hbody,
      (Stmt.resolve_declared ..).trans h.2.2⟩, hshows⟩
  | .function decl, c, s, n, hs, hc, h, he => by
    simp only [Stmt.Shaped] at h
    simp only [Stmt.resolve, Checked.errors_bind, Checked.errors_pure, List.append_nil,
      List.append_eq_nil_iff] at he
    simp only [Stmt.resolve, Checked.value_bind, Checked.value_pure, Stmt.Scoped,
      FunctionDecl.resolve_name]
    obtain ⟨hfresh, hshows⟩ := hs.declare he.1
    have hname : decl.name.IsName := by
      cases decl
      exact h.1
    exact ⟨⟨⟨hname, hfresh⟩, FunctionDecl.resolve_scoped hshows (hc.declare hname) h he.2⟩, hshows⟩
  | .ret keyword value, c, s, n, hs, hc, h, he => by
    simp only [Stmt.Shaped] at h
    by_cases hinside : c.insideFunction = true
    · simp only [Stmt.resolve, hinside, not_true_eq_false, if_false, Checked.errors_bind,
        Checked.errors_pure, List.append_nil] at he
      simp only [Stmt.resolve, hinside, not_true_eq_false, if_false, Checked.value_bind,
        Checked.value_pure, Stmt.Scoped]
      exact ⟨⟨trivial, Expr.resolveOpt_scoped hs.sees hc h he⟩, hs⟩
    · simp [Stmt.resolve, hinside] at he
  | .classDecl name none methods, c, s, n, hs, hc, h, he => by
    simp only [Stmt.Shaped] at h
    simp only [Stmt.resolve, Checked.errors_bind, Checked.errors_pure, List.append_nil,
      List.append_eq_nil_iff] at he
    simp only [Stmt.resolve, Checked.value_bind, Checked.value_pure, Stmt.Scoped]
    obtain ⟨hfresh, hshows⟩ := hs.declare he.1
    exact ⟨⟨⟨h.1, hfresh⟩, trivial, FunctionDecl.resolveAll_scoped
      (hshows.push Scopes.thisScope_shows) (Nest.supports_plain _) h.2 he.2⟩, hshows⟩
  | .classDecl name (some superclass) methods, c, s, n, hs, hc, h, he => by
    simp only [Stmt.Shaped] at h
    obtain ⟨hname, ⟨above, rfl, -⟩, hmethods⟩ := h
    simp only [Stmt.resolve, Expr.resolve, Checked.errors_bind, Checked.errors_pure,
      List.append_nil, List.append_eq_nil_iff] at he
    simp only [Stmt.resolve, Expr.resolve, Checked.value_bind, Checked.value_pure, Stmt.Scoped]
    obtain ⟨hfresh, hshows⟩ := hs.declare he.1
    have hne : above.lexeme ≠ name.lexeme := by
      intro heq
      simp [checkSuperclass, heq] at he
    -- the class is declared before its superclass is looked up, but under another name
    have hdepth : (((s.declare name).value.define name).readSlot above none).value
        = n.distance? above.lexeme := by
      rw [hshows.sees.readSlot, Nest.distance?_declare_ne n hne]
    exact ⟨⟨⟨hname, hfresh⟩, hdepth, FunctionDecl.resolveAll_scoped
      ((hshows.push Scopes.superScope_shows).push Scopes.thisScope_shows)
      (Nest.supports_subclass _) hmethods he.2.2.2⟩, hshows⟩

theorem FunctionDecl.resolve_scoped : ∀ {f : FunctionDecl} {c : Context} {s : Scopes} {n : Nest},
    s.Shows n → n.Supports c.enclosingClass → f.Shaped → (f.resolve c s).errors = [] →
      (f.resolve c s).value.Scoped n
  | ⟨name, params, body⟩, c, s, n, hs, hc, h, he => by
    simp only [FunctionDecl.Shaped] at h
    simp only [FunctionDecl.resolve, Checked.errors_bind, Checked.errors_pure, List.append_nil,
      List.append_eq_nil_iff] at he
    simp only [FunctionDecl.resolve, Checked.value_bind, Checked.value_pure, FunctionDecl.Scoped]
    obtain ⟨hnodup, hshows⟩ := hs.declareParams he.1
    have hparams : ∀ {x : String}, (∀ p ∈ params, p.lexeme ≠ x) → x ∉ params.map (·.lexeme) := by
      intro x hne hx
      obtain ⟨p, hp, rfl⟩ := List.mem_map.1 hx
      exact hne p hp rfl
    have hsupports : Nest.Supports (params.map (·.lexeme) :: n) c.enclosingClass :=
      hc.push (hparams fun p hp => (h.2.1 p hp).1) (hparams fun p hp => (h.2.1 p hp).2)
    exact ⟨h.2.1, hnodup, Stmt.resolveAll_scoped (c := { c with insideFunction := true }) hshows
      hsupports h.2.2 he.2⟩

theorem Stmt.resolveAll_scoped : ∀ {xs : List Stmt} {c : Context} {s : Scopes} {n : Nest},
    s.Shows n → n.Supports c.enclosingClass → Stmt.AllShaped xs →
      (Stmt.resolveAll c s xs).errors = [] →
        Stmt.AllScoped c.insideFunction n (Stmt.resolveAll c s xs).value.1
  | [], _, _, _, _, _, _, _ => by
    simp only [Stmt.resolveAll, Checked.value_pure, Stmt.AllScoped]
  | x :: xs, c, s, n, hs, hc, h, he => by
    simp only [Stmt.AllShaped] at h
    simp only [Stmt.resolveAll, Checked.errors_bind, Checked.errors_pure, List.append_nil,
      List.append_eq_nil_iff] at he
    simp only [Stmt.resolveAll, Checked.value_bind, Checked.value_pure, Stmt.AllScoped]
    obtain ⟨hx, hshows⟩ := Stmt.resolve_scoped hs hc h.1 he.1
    rw [Nest.after_resolve]
    exact ⟨hx, Stmt.resolveAll_scoped hshows (hc.after h.1) h.2 he.2⟩

theorem FunctionDecl.resolveAll_scoped : ∀ {fs : List FunctionDecl} {c : Context} {s : Scopes}
    {n : Nest}, s.Shows n → n.Supports c.enclosingClass → FunctionDecl.AllShaped fs →
      (FunctionDecl.resolveAll c s fs).errors = [] →
        FunctionDecl.AllScoped n (FunctionDecl.resolveAll c s fs).value
  | [], _, _, _, _, _, _, _ => by
    simp only [FunctionDecl.resolveAll, Checked.value_pure, FunctionDecl.AllScoped]
  | f :: fs, c, s, n, hs, hc, h, he => by
    simp only [FunctionDecl.AllShaped] at h
    simp only [FunctionDecl.resolveAll, Checked.errors_bind, Checked.errors_pure, List.append_nil,
      List.append_eq_nil_iff] at he
    simp only [FunctionDecl.resolveAll, Checked.value_bind, Checked.value_pure,
      FunctionDecl.AllScoped]
    exact ⟨FunctionDecl.resolve_scoped hs hc h.1 he.1,
      FunctionDecl.resolveAll_scoped hs hc h.2 he.2⟩

end

/-- A parsed program that is checked without errors is scoped. -/
theorem resolve_scoped {globals : List String} {xs : List Stmt} (h : Stmt.AllShaped xs)
    (he : (resolve globals xs).errors = []) :
    Stmt.AllScoped false [] (resolve globals xs).value.1 := by
  have hshows : (Scopes.top globals).Shows [] := .nil
  exact Stmt.resolveAll_scoped (c := .top) hshows trivial h he

end Lox
