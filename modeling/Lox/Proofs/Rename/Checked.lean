import Lox.Proofs.Rename.Renamed
import Lox.Proofs.Scope.Slots

/-!
# Checking renamed programs

A program that was accepted is accepted again after it has been renamed to a name that it does not
mention, and every slot is filled as before (`resolve_renamed`). The checker's scopes in the two
walks are `Alike`: a marked scope knows under the new name what it knew under the old one.
-/

set_option autoImplicit false

namespace Lox

/-! ## Names in a program -/

/-- The names of the slots of an expression. -/
def Expr.mentions (e : Expr) : List String :=
  e.references.map (·.token.lexeme)

/-- The names of the slots of expressions. -/
def Expr.mentionsAll (es : List Expr) : List String :=
  (Expr.referencesAll es).map (·.token.lexeme)

/-- The names of the slots of an expression that may be absent. -/
def Expr.mentionsOpt (o : Option Expr) : List String :=
  (Expr.referencesOpt o).map (·.token.lexeme)

mutual

/-- The names of variables in a statement: those of its slots and those that it declares, at any
depth. -/
def Stmt.mentions : Stmt → List String
  | .expression value => value.mentions
  | .print _ value => value.mentions
  | .var name initializer => name.lexeme :: Expr.mentionsOpt initializer
  | .block body => Stmt.mentionsAll body
  | .conditional condition thenBranch none => condition.mentions ++ thenBranch.mentions
  | .conditional condition thenBranch (some elseBranch) =>
    condition.mentions ++ thenBranch.mentions ++ elseBranch.mentions
  | .loop condition body => condition.mentions ++ body.mentions
  | .function decl => decl.mentions
  | .ret _ value => Expr.mentionsOpt value
  | .classDecl name superclass methods =>
    name.lexeme :: (Expr.mentionsOpt superclass ++ FunctionDecl.mentionsAll methods)

/-- The names of variables in a function, its own among them. -/
def FunctionDecl.mentions : FunctionDecl → List String
  | ⟨name, params, body⟩ => name.lexeme :: (params.map (·.lexeme) ++ Stmt.mentionsAll body)

/-- The names of variables in a program. -/
def Stmt.mentionsAll : List Stmt → List String
  | [] => []
  | s :: ss => s.mentions ++ Stmt.mentionsAll ss

def FunctionDecl.mentionsAll : List FunctionDecl → List String
  | [] => []
  | f :: fs => f.mentions ++ FunctionDecl.mentionsAll fs

end

mutual

theorem Expr.mentions_bare : ∀ e : Expr, e.bare.mentions = e.mentions
  | .literal _ | .variable _ _ | .this _ _ | .super _ _ _ => rfl
  | .grouping inner => Expr.mentions_bare inner
  | .unary _ right => Expr.mentions_bare right
  | .binary left _ right | .logical left _ right => by
    have hl := Expr.mentions_bare left
    have hr := Expr.mentions_bare right
    simp only [Expr.mentions, Expr.bare, Expr.references, List.map_append] at hl hr ⊢
    rw [hl, hr]
  | .assign _ value _ => by
    have hv := Expr.mentions_bare value
    simp only [Expr.mentions, Expr.bare, Expr.references, List.map_cons] at hv ⊢
    rw [hv]
  | .call callee _ arguments => by
    have hf := Expr.mentions_bare callee
    have ha := Expr.mentionsAll_bare arguments
    simp only [Expr.mentions, Expr.mentionsAll, Expr.bare, Expr.references, List.map_append]
      at hf ha ⊢
    rw [hf, ha]
  | .get object _ => Expr.mentions_bare object
  | .set object _ value => by
    have ho := Expr.mentions_bare object
    have hv := Expr.mentions_bare value
    simp only [Expr.mentions, Expr.bare, Expr.references, List.map_append] at ho hv ⊢
    rw [ho, hv]

theorem Expr.mentionsAll_bare : ∀ es : List Expr,
    Expr.mentionsAll (Expr.bareAll es) = Expr.mentionsAll es
  | [] => rfl
  | e :: es => by
    have he := Expr.mentions_bare e
    have hes := Expr.mentionsAll_bare es
    simp only [Expr.mentions, Expr.mentionsAll, Expr.bareAll, Expr.referencesAll, List.map_append]
      at he hes ⊢
    rw [he, hes]

end

theorem Expr.mentionsOpt_bare (o : Option Expr) :
    Expr.mentionsOpt (Expr.bareOpt o) = Expr.mentionsOpt o := by
  cases o with
  | none => rfl
  | some e => exact Expr.mentions_bare e

mutual

theorem Stmt.mentions_bare : ∀ s : Stmt, s.bare.mentions = s.mentions
  | .expression value | .print _ value => by
    rw [Stmt.bare, Stmt.mentions, Stmt.mentions, Expr.mentions_bare]
  | .var _ initializer => by
    rw [Stmt.bare, Stmt.mentions, Stmt.mentions, Expr.mentionsOpt_bare]
  | .block body => by rw [Stmt.bare, Stmt.mentions, Stmt.mentions, Stmt.mentionsAll_bare body]
  | .conditional condition thenBranch none => by
    rw [Stmt.bare, Stmt.mentions, Stmt.mentions, Expr.mentions_bare, Stmt.mentions_bare thenBranch]
  | .conditional condition thenBranch (some elseBranch) => by
    rw [Stmt.bare, Stmt.mentions, Stmt.mentions, Expr.mentions_bare, Stmt.mentions_bare thenBranch,
      Stmt.mentions_bare elseBranch]
  | .loop condition body => by
    rw [Stmt.bare, Stmt.mentions, Stmt.mentions, Expr.mentions_bare, Stmt.mentions_bare body]
  | .function decl => by
    rw [Stmt.bare, Stmt.mentions, Stmt.mentions, FunctionDecl.mentions_bare decl]
  | .ret _ value => by rw [Stmt.bare, Stmt.mentions, Stmt.mentions, Expr.mentionsOpt_bare]
  | .classDecl _ superclass methods => by
    rw [Stmt.bare, Stmt.mentions, Stmt.mentions, Expr.mentionsOpt_bare,
      FunctionDecl.mentionsAll_bare methods]

theorem FunctionDecl.mentions_bare : ∀ f : FunctionDecl, f.bare.mentions = f.mentions
  | ⟨_, _, body⟩ => by
    rw [FunctionDecl.bare, FunctionDecl.mentions, FunctionDecl.mentions, Stmt.mentionsAll_bare body]

/-- A program has the same names whether its slots are filled or empty. -/
theorem Stmt.mentionsAll_bare : ∀ ss : List Stmt,
    Stmt.mentionsAll (Stmt.bareAll ss) = Stmt.mentionsAll ss
  | [] => rfl
  | s :: ss => by
    rw [Stmt.bareAll, Stmt.mentionsAll, Stmt.mentionsAll, Stmt.mentions_bare s,
      Stmt.mentionsAll_bare ss]

theorem FunctionDecl.mentionsAll_bare : ∀ fs : List FunctionDecl,
    FunctionDecl.mentionsAll (FunctionDecl.bareAll fs) = FunctionDecl.mentionsAll fs
  | [] => rfl
  | f :: fs => by
    rw [FunctionDecl.bareAll, FunctionDecl.mentionsAll, FunctionDecl.mentionsAll,
      FunctionDecl.mentions_bare f, FunctionDecl.mentionsAll_bare fs]

end

/-! ## Checks without errors -/

namespace Checked

variable {α β : Type}

theorem eq_pure {x : Checked α} (h : x.errors = []) : x = pure x.value :=
  congrArg (Checked.mk x.value) h

theorem pure_bind (a : α) (f : α → Checked β) : (pure a : Checked α) >>= f = f a := rfl

/-- A check in two steps finds no errors if and only if neither step does. -/
theorem bind_eq_pure {x : Checked α} {f : α → Checked β} {b : β} :
    x >>= f = pure b ↔ ∃ a, x = pure a ∧ f a = pure b := by
  constructor
  · intro h
    have hvalue : (f x.value).value = b := congrArg Checked.value h
    have herrors : x.errors ++ (f x.value).errors = [] := congrArg Checked.errors h
    obtain ⟨hx, hf⟩ := List.append_eq_nil_iff.1 herrors
    exact ⟨x.value, congrArg (Checked.mk x.value) hx, congrArg₂ Checked.mk hvalue hf⟩
  · rintro ⟨a, rfl, hf⟩
    exact hf

theorem report_ne_pure {token : Token} {cause : ScopeCause} {u : Unit} :
    report token cause ≠ pure u := by
  intro h
  cases h

end Checked

variable {r : Renaming} {marks : Marks}

/-! ## Scopes of the checker -/

/-- What a scope knows under a name, the other one knows under the name that it has there. The new
name is not declared. -/
structure Scope.Alike (r : Renaming) (marked : Bool) (scope scope' : Scope) : Prop where
  get : ∀ x, scope'.get? (r.called marked x) = scope.get? x
  fresh : scope.get? r.new = none

namespace Scope.Alike

variable {b : Bool} {scope scope' : Scope}

theorem empty (r : Renaming) (b : Bool) : Scope.Alike r b .empty .empty :=
  ⟨fun _ => rfl, rfl⟩

/-- A scope with one name that is not renamed. -/
private theorem singleton {name : String} (h : name ≠ r.new) :
    Scope.Alike r false (.ofList [(name, .ready)]) (.ofList [(name, .ready)]) := by
  refine ⟨fun _ => rfl, ?_⟩
  rw [Bindings.get?_ofList]
  exact Bindings.lookup_cons_ne _ _ h.symm

theorem this (r : Renaming) : Scope.Alike r false thisScope thisScope :=
  singleton r.new_isName.1.symm

theorem super (r : Renaming) : Scope.Alike r false superScope superScope :=
  singleton r.new_isName.2.symm

theorem insert (h : Scope.Alike r b scope scope') {name : String} (hname : name ≠ r.new)
    (status : Status) :
    Scope.Alike r b (scope.insert name status) (scope'.insert (r.called b name) status) where
  get := by
    intro x
    simp only [Bindings.get?_insert, h.get, Renaming.called_inj]
  fresh := by
    rw [Bindings.get?_insert, if_neg hname.symm]
    exact h.fresh

/-- A name from a scope with any mark is known here as before or not at all. -/
theorem get_or (h : Scope.Alike r b scope scope') (b' : Bool) {x : String} (hx : x ≠ r.new) :
    scope'.get? (r.called b' x) = scope.get? x ∨ scope'.get? (r.called b' x) = none := by
  have hget := h.get (r.called b (r.called b' x))
  rw [Renaming.called_called] at hget
  rw [hget]
  rcases r.called_called_or b b' hx with heq | heq
  · exact .inl (by rw [heq])
  · exact .inr (by rw [heq, h.fresh])

theorem contains (h : Scope.Alike r b scope scope') (x : String) :
    scope'.contains (r.called b x) = scope.contains x := by
  rw [Bindings.contains, h.get, Bindings.contains]

/-- What a scope does not declare it does not declare under another mark either. -/
theorem not_contains (h : Scope.Alike r b scope scope') (b' : Bool) {x : String} (hx : x ≠ r.new)
    (hnot : scope.contains x = false) : scope'.contains (r.called b' x) = false := by
  rw [Bindings.contains, Option.isSome_eq_false_iff, Option.isNone_iff_eq_none] at hnot ⊢
  rcases h.get_or b' hx with hget | hget
  · exact hget.trans hnot
  · exact hget

end Scope.Alike

/-- Scopes that are alike, with the mark of each. -/
inductive Scope.AllAlike (r : Renaming) : Marks → List Scope → List Scope → Prop
  | nil : Scope.AllAlike r [] [] []
  | cons {b : Bool} {marks : Marks} {scope scope' : Scope} {outer outer' : List Scope}
      (h : Scope.Alike r b scope scope') (hs : Scope.AllAlike r marks outer outer') :
      Scope.AllAlike r (b :: marks) (scope :: outer) (scope' :: outer')

/-- The nearest scope that declares a name declares it under the name that it has there. -/
theorem Scope.AllAlike.findIdx? {scopes scopes' : List Scope}
    (h : Scope.AllAlike r marks scopes scopes') {x : String} (hx : x ≠ r.new) :
    scopes'.findIdx? (fun scope => scope.contains
        (r.called (marks.atSlot (scopes.findIdx? fun scope => scope.contains x)) x))
      = scopes.findIdx? fun scope => scope.contains x := by
  induction h with
  | nil => rfl
  | @cons b marks scope scope' outer outer' h _ ih =>
    rw [List.findIdx?_cons, List.findIdx?_cons]
    cases hscope : scope.contains x with
    | true =>
      have hfound : scope'.contains (r.called b x) = true := (h.contains x).trans hscope
      simp [Marks.atSlot, hfound]
    | false =>
      have hnot := fun b' => h.not_contains b' hx hscope
      simp only [Bool.false_eq_true, if_false, Marks.atSlot_cons_succ, hnot, ih]

namespace Scopes

/-- The visible names in the two walks. Global names stay. -/
structure Alike (r : Renaming) (marks : Marks) (s s' : Scopes) : Prop where
  locals : Scope.AllAlike r marks s.locals s'.locals
  globals : s'.globals = s.globals

variable {s s' : Scopes}

theorem Alike.top (r : Renaming) (globals : List String) : Alike r [] (top globals) (top globals) :=
  ⟨.nil, rfl⟩

theorem Alike.push (h : s.Alike r marks s') {b : Bool} {scope scope' : Scope}
    (hscope : Scope.Alike r b scope scope') :
    Alike r (b :: marks) (s.push scope) (s'.push scope') :=
  ⟨.cons hscope h.locals, h.globals⟩

theorem Alike.distance? (h : s.Alike r marks s') {x : String} (hx : x ≠ r.new) :
    s'.distance? (r.called (marks.atSlot (s.distance? x)) x) = s.distance? x :=
  h.locals.findIdx? hx

theorem Alike.slot (h : s.Alike r marks s') {name : Token} (hname : name.lexeme ≠ r.new) :
    s'.slot (name.called r (marks.atSlot (s.slot name none))) none = s.slot name none := by
  simp only [Scopes.slot, Option.or_none]
  exact h.distance? hname

/-- The slot of a name that is never renamed. -/
theorem Alike.slot_of_called (h : s.Alike r marks s') {name : Token} (hname : name.lexeme ≠ r.new)
    (hcalled : ∀ b, r.called b name.lexeme = name.lexeme) :
    s'.slot name none = s.slot name none := by
  have hslot := h.slot hname
  have htoken : ∀ b, name.called r b = name := fun b => by rw [Token.called, hcalled]
  rwa [htoken] at hslot

theorem Alike.outerDistance? (h : s.Alike r marks s') {x : String} (hx : x ≠ r.new) :
    s'.outerDistance? (r.called (marks.atSlot (s.outerDistance? x)) x) = s.outerDistance? x := by
  obtain ⟨locals, globals⟩ := s
  obtain ⟨locals', globals'⟩ := s'
  obtain ⟨hlocals, -⟩ := h
  cases hlocals with
  | nil => rfl
  | cons _ houter =>
    unfold Scopes.outerDistance?
    rw [Marks.atSlot_cons_succ]
    exact congrArg (Option.map (· + 1)) (houter.findIdx? hx)

/-- A name is pending as before, or the innermost scope does not know it under this name. -/
theorem Alike.isPending_or (h : s.Alike r marks s') (b : Bool) {x : String} (hx : x ≠ r.new) :
    s'.isPending (r.called b x) = s.isPending x ∨ s'.isPending (r.called b x) = false ∧
      s'.distance? (r.called b x) = s'.outerDistance? (r.called b x) := by
  obtain ⟨locals, globals⟩ := s
  obtain ⟨locals', globals'⟩ := s'
  obtain ⟨hlocals, -⟩ := h
  cases hlocals with
  | nil => exact .inl rfl
  | @cons _ _ scope scope' _ outer' hscope _ =>
    rcases hscope.get_or b hx with hget | hget
    · exact .inl (congrArg (· == some Status.pending) hget)
    · have hnot : scope'.contains (r.called b x) = false := by
        rw [Bindings.contains, hget]
        rfl
      refine .inr ⟨congrArg (· == some Status.pending) hget, ?_⟩
      simp [Scopes.distance?, Scopes.outerDistance?, List.findIdx?_cons, hnot]

theorem readSlot_of_not_pending {name : Token} (h : s.isPending name.lexeme = false) :
    s.readSlot name none = pure (s.distance? name.lexeme) := by
  simp [Scopes.readSlot, h]

/-- A pending name may be read if there is an outer variable, or else a global one. -/
theorem readSlot_of_pending {name : Token} {slot : Option Nat}
    (h : s.isPending name.lexeme = true) :
    s.readSlot name none = pure slot ↔
      s.outerDistance? name.lexeme = slot ∧ (slot = none → name.lexeme ∈ s.globals) := by
  unfold Scopes.readSlot
  rw [if_pos h]
  constructor
  · intro hread
    cases hd : s.outerDistance? name.lexeme with
    | some d =>
      rw [hd] at hread
      cases hread
      exact ⟨rfl, fun hnone => absurd hnone (Option.some_ne_none d)⟩
    | none =>
      rw [hd] at hread
      by_cases hglobal : name.lexeme ∈ s.globals
      · simp only [hglobal, not_true_eq_false, if_false] at hread
        cases hread
        exact ⟨rfl, fun _ => hglobal⟩
      · simp only [hglobal, not_false_eq_true, if_true] at hread
        obtain ⟨_, hreport, -⟩ := Checked.bind_eq_pure.1 hread
        exact absurd hreport Checked.report_ne_pure
  · rintro ⟨rfl, hglobal⟩
    cases hd : s.outerDistance? name.lexeme with
    | some d => rfl
    | none => simp only [hglobal hd, not_true_eq_false, if_false]

/-- A read goes to the same scope. In its own initializer a renamed variable is not pending under
its old name any more, which there means an outer variable. -/
theorem Alike.readSlot (h : s.Alike r marks s') {name : Token} {slot : Option Nat}
    (hname : name.lexeme ≠ r.new) (hread : s.readSlot name none = pure slot) :
    s'.readSlot (name.called r (marks.atSlot slot)) none = pure slot := by
  have hpending' := h.isPending_or (marks.atSlot slot) hname
  rw [← Token.called_lexeme] at hpending'
  cases hpending : s.isPending name.lexeme with
  | true =>
    obtain ⟨rfl, hglobal⟩ := (readSlot_of_pending hpending).1 hread
    have houter := h.outerDistance? hname
    rw [← Token.called_lexeme] at houter
    rcases hpending' with hsame | ⟨hnot, hdistance⟩
    · refine (readSlot_of_pending (hsame.trans hpending)).2 ⟨houter, fun hnone => ?_⟩
      rw [hnone, h.globals]
      exact hglobal hnone
    · rw [readSlot_of_not_pending hnot, hdistance, houter]
  | false =>
    rw [readSlot_of_not_pending hpending] at hread
    cases hread
    have hdistance := h.distance? hname
    rw [← Token.called_lexeme] at hdistance
    rcases hpending' with hsame | ⟨hnot, -⟩
    · rw [readSlot_of_not_pending (hsame.trans hpending), hdistance]
    · rw [readSlot_of_not_pending hnot, hdistance]

/-! ## Declarations -/

theorem Alike.declare {t : Scopes} (h : s.Alike r marks s') {name : Token}
    (hname : name.lexeme ≠ r.new) (hdeclare : s.declare name = pure t) :
    ∃ t', s'.declare (name.called r (marks.mark 0)) = pure t' ∧ t.Alike r marks t' := by
  obtain ⟨locals, globals⟩ := s
  obtain ⟨locals', globals'⟩ := s'
  obtain ⟨hlocals, hglobals⟩ := h
  cases hlocals with
  | nil =>
    cases hdeclare
    exact ⟨_, rfl, .nil, congrArg (List.insert name.lexeme) hglobals⟩
  | @cons b marks scope scope' outer outer' hscope houter =>
    unfold Scopes.declare at hdeclare
    dsimp only at hdeclare
    split at hdeclare
    · obtain ⟨_, hreport, -⟩ := Checked.bind_eq_pure.1 hdeclare
      exact absurd hreport Checked.report_ne_pure
    · rename_i hnew
      cases hdeclare
      rw [← hscope.contains] at hnew
      exact ⟨⟨scope'.insert (r.called b name.lexeme) .pending :: outer', globals'⟩, if_neg hnew,
        .cons (hscope.insert hname .pending) houter, hglobals⟩

theorem Alike.define (h : s.Alike r marks s') {name : Token} (hname : name.lexeme ≠ r.new) :
    (s.define name).Alike r marks (s'.define (name.called r (marks.mark 0))) := by
  obtain ⟨locals, globals⟩ := s
  obtain ⟨locals', globals'⟩ := s'
  obtain ⟨hlocals, hglobals⟩ := h
  cases hlocals with
  | nil => exact ⟨.nil, hglobals⟩
  | cons hscope houter => exact ⟨.cons (hscope.insert hname .ready) houter, hglobals⟩

/-- A declaration under a name that is not renamed, ready at once. -/
theorem Alike.declare_called {t : Scopes} (h : s.Alike r marks s') {name : Token}
    (hname : name.lexeme ≠ r.new) (hcalled : r.called (marks.mark 0) name.lexeme = name.lexeme)
    (hdeclare : s.declare name = pure t) :
    ∃ t', s'.declare name = pure t' ∧ (t.define name).Alike r marks (t'.define name) := by
  obtain ⟨t', hdeclare', ht⟩ := h.declare hname hdeclare
  have hdefine := ht.define hname
  rw [Token.called, hcalled] at hdeclare' hdefine
  exact ⟨t', hdeclare', hdefine⟩

theorem Alike.declareParams : ∀ {ps : List Token} {s s' t : Scopes}, s.Alike r marks s' →
    r.new ∉ ps.map (·.lexeme) → s.declareParams ps = pure t →
      ∃ t', s'.declareParams (ps.map (Token.called r (marks.mark 0))) = pure t' ∧
        t.Alike r marks t'
  | [], _, s', _, h, _, hok => by
    cases hok
    exact ⟨s', rfl, h⟩
  | p :: ps, s, s', _, h, hnew, hok => by
    rw [List.map_cons, List.mem_cons, not_or] at hnew
    obtain ⟨t, hdeclare, hok⟩ := Checked.bind_eq_pure.1 hok
    obtain ⟨t', hdeclare', ht⟩ := h.declare (Ne.symm hnew.1) hdeclare
    obtain ⟨u', hrest, hu⟩ := (ht.define (Ne.symm hnew.1)).declareParams hnew.2 hok
    refine ⟨u', ?_, hu⟩
    rw [List.map_cons, Scopes.declareParams, hdeclare']
    exact hrest

end Scopes

/-- A class that does not name itself as its superclass does not do so afterwards. -/
theorem checkSuperclass_called {className above : Token} {slot : Option Nat} {b : Bool} {u : Unit}
    (hclass : className.lexeme ≠ r.new) (habove : above.lexeme ≠ r.new)
    (hok : checkSuperclass className (.variable above slot) = pure u) :
    checkSuperclass className (.variable (above.called r b) none) = pure () := by
  have hne : above.lexeme ≠ className.lexeme := by
    intro heq
    rw [checkSuperclass, if_pos heq] at hok
    exact Checked.report_ne_pure hok
  rw [checkSuperclass, Token.called_lexeme, if_neg]
  rcases r.called_called_or false b habove with heq | heq <;> rw [Renaming.called_false] at heq
  · rwa [heq]
  · rw [heq]
    exact hclass.symm

/-! ## Expressions -/

mutual

/-- An expression is checked as before after it has been renamed. -/
theorem Expr.resolve_renamed {s s' : Scopes} (hs : s.Alike r marks s') (c : ClassContext) :
    ∀ {e e₁ e' : Expr}, e.Shaped → r.new ∉ e.mentions → e.resolve s c = pure e₁ →
      e₁.Renamed r marks e' → e'.bare.resolve s' c = pure e'
  | .literal _, _, _, _, _, hok, hr => by
    cases hok
    cases hr
    rfl
  | .grouping inner, _, _, h, hnew, hok, hr => by
    rw [Expr.Shaped] at h
    obtain ⟨_, hinner, hok⟩ := Checked.bind_eq_pure.1 hok
    cases hok
    cases hr with | grouping hr
    rw [Expr.bare, Expr.resolve, Expr.resolve_renamed hs c h hnew hinner hr]
    rfl
  | .unary operator right, _, _, h, hnew, hok, hr => by
    rw [Expr.Shaped] at h
    obtain ⟨_, hright, hok⟩ := Checked.bind_eq_pure.1 hok
    cases hok
    cases hr with | unary _ hr
    rw [Expr.bare, Expr.resolve, Expr.resolve_renamed hs c h.2 hnew hright hr]
    rfl
  | .binary left operator right, _, _, h, hnew, hok, hr => by
    rw [Expr.Shaped] at h
    simp only [Expr.mentions, Expr.references, List.map_append, List.mem_append, not_or] at hnew
    obtain ⟨_, hleft, hok⟩ := Checked.bind_eq_pure.1 hok
    obtain ⟨_, hright, hok⟩ := Checked.bind_eq_pure.1 hok
    cases hok
    cases hr with | binary _ hl hr
    rw [Expr.bare, Expr.resolve, Expr.resolve_renamed hs c h.1 hnew.1 hleft hl,
      Expr.resolve_renamed hs c h.2.2 hnew.2 hright hr]
    rfl
  | .logical left operator right, _, _, h, hnew, hok, hr => by
    rw [Expr.Shaped] at h
    simp only [Expr.mentions, Expr.references, List.map_append, List.mem_append, not_or] at hnew
    obtain ⟨_, hleft, hok⟩ := Checked.bind_eq_pure.1 hok
    obtain ⟨_, hright, hok⟩ := Checked.bind_eq_pure.1 hok
    cases hok
    cases hr with | logical _ hl hr
    rw [Expr.bare, Expr.resolve, Expr.resolve_renamed hs c h.1 hnew.1 hleft hl,
      Expr.resolve_renamed hs c h.2.2 hnew.2 hright hr]
    rfl
  | .variable name depth, _, _, h, hnew, hok, hr => by
    rw [Expr.Shaped] at h
    obtain ⟨-, rfl⟩ := h
    simp only [Expr.mentions, Expr.references, List.map_cons, List.map_nil, List.mem_singleton]
      at hnew
    obtain ⟨_, hslot, hok⟩ := Checked.bind_eq_pure.1 hok
    cases hok
    cases hr
    rw [Expr.bare, Expr.resolve, hs.readSlot (Ne.symm hnew) hslot]
    rfl
  | .assign name value depth, _, _, h, hnew, hok, hr => by
    rw [Expr.Shaped] at h
    obtain ⟨-, hvalue, rfl⟩ := h
    simp only [Expr.mentions, Expr.references, List.map_cons, List.mem_cons, not_or] at hnew
    obtain ⟨_, hassigned, hok⟩ := Checked.bind_eq_pure.1 hok
    cases hok
    cases hr with | assign _ hv
    rw [Expr.bare, Expr.resolve, Expr.resolve_renamed hs c hvalue hnew.2 hassigned hv,
      hs.slot (Ne.symm hnew.1)]
    rfl
  | .call callee paren arguments, _, _, h, hnew, hok, hr => by
    rw [Expr.Shaped] at h
    simp only [Expr.mentions, Expr.references, List.map_append, List.mem_append, not_or] at hnew
    obtain ⟨_, hcallee, hok⟩ := Checked.bind_eq_pure.1 hok
    obtain ⟨_, harguments, hok⟩ := Checked.bind_eq_pure.1 hok
    cases hok
    cases hr with | call _ hf ha
    rw [Expr.bare, Expr.resolve, Expr.resolve_renamed hs c h.1 hnew.1 hcallee hf,
      Expr.resolveAll_renamed hs c h.2 hnew.2 harguments ha]
    rfl
  | .get object name, _, _, h, hnew, hok, hr => by
    rw [Expr.Shaped] at h
    obtain ⟨_, hobject, hok⟩ := Checked.bind_eq_pure.1 hok
    cases hok
    cases hr with | get _ hr
    rw [Expr.bare, Expr.resolve, Expr.resolve_renamed hs c h hnew hobject hr]
    rfl
  | .set object name value, _, _, h, hnew, hok, hr => by
    rw [Expr.Shaped] at h
    simp only [Expr.mentions, Expr.references, List.map_append, List.mem_append, not_or] at hnew
    obtain ⟨_, hvalue, hok⟩ := Checked.bind_eq_pure.1 hok
    obtain ⟨_, hobject, hok⟩ := Checked.bind_eq_pure.1 hok
    cases hok
    cases hr with | set _ ho hv
    rw [Expr.bare, Expr.resolve, Expr.resolve_renamed hs c h.2 hnew.2 hvalue hv,
      Expr.resolve_renamed hs c h.1 hnew.1 hobject ho]
    rfl
  | .this keyword depth, _, _, h, hnew, hok, hr => by
    rw [Expr.Shaped] at h
    obtain ⟨hk, rfl⟩ := h
    have hslot : s'.slot keyword none = s.slot keyword none :=
      hs.slot_of_called (by rw [hk]; exact r.new_isName.1.symm) fun b => by rw [hk, r.called_this]
    cases c with
    | outside =>
      obtain ⟨_, hreport, -⟩ := Checked.bind_eq_pure.1 hok
      exact absurd hreport Checked.report_ne_pure
    | plain | subclass =>
      cases hok
      cases hr
      rw [Expr.bare, Expr.resolve, hslot]
      exact nofun
  | .super keyword method depth, _, _, h, hnew, hok, hr => by
    rw [Expr.Shaped] at h
    obtain ⟨hk, rfl⟩ := h
    have hslot : s'.slot keyword none = s.slot keyword none :=
      hs.slot_of_called (by rw [hk]; exact r.new_isName.2.symm) fun b => by rw [hk, r.called_super]
    cases c with
    | outside | plain =>
      obtain ⟨_, hreport, -⟩ := Checked.bind_eq_pure.1 hok
      exact absurd hreport Checked.report_ne_pure
    | subclass =>
      cases hok
      cases hr
      rw [Expr.bare, Expr.resolve, hslot]

theorem Expr.resolveAll_renamed {s s' : Scopes} (hs : s.Alike r marks s') (c : ClassContext) :
    ∀ {es es₁ es' : List Expr}, Expr.AllShaped es → r.new ∉ Expr.mentionsAll es →
      Expr.resolveAll s c es = pure es₁ → Expr.AllRenamed r marks es₁ es' →
        Expr.resolveAll s' c (Expr.bareAll es') = pure es'
  | [], _, _, _, _, hok, hr => by
    cases hok
    cases hr
    rfl
  | e :: es, _, _, h, hnew, hok, hr => by
    rw [Expr.AllShaped] at h
    simp only [Expr.mentionsAll, Expr.referencesAll, List.map_append, List.mem_append, not_or]
      at hnew
    obtain ⟨_, he, hok⟩ := Checked.bind_eq_pure.1 hok
    obtain ⟨_, hes, hok⟩ := Checked.bind_eq_pure.1 hok
    cases hok
    cases hr with | cons hr hrs
    rw [Expr.bareAll, Expr.resolveAll, Expr.resolve_renamed hs c h.1 hnew.1 he hr,
      Expr.resolveAll_renamed hs c h.2 hnew.2 hes hrs]
    rfl

end

theorem Expr.resolveOpt_renamed {s s' : Scopes} (hs : s.Alike r marks s') (c : ClassContext)
    {o o₁ o' : Option Expr} (h : Expr.OptShaped o) (hnew : r.new ∉ Expr.mentionsOpt o)
    (hok : Expr.resolveOpt s c o = pure o₁) (hr : Expr.OptRenamed r marks o₁ o') :
    Expr.resolveOpt s' c (Expr.bareOpt o') = pure o' := by
  cases o with
  | none =>
    cases hok
    cases hr
    rfl
  | some e =>
    obtain ⟨_, he, hok⟩ := Checked.bind_eq_pure.1 hok
    cases hok
    cases hr with | some hr
    rw [Expr.bareOpt, Expr.resolveOpt, Expr.resolve_renamed hs c h hnew he hr]
    rfl

/-! ## Statements -/

theorem FunctionDecl.name_ne_of_mentions (f : FunctionDecl) {x : String} (h : x ∉ f.mentions) :
    f.name.lexeme ≠ x := by
  cases f
  rw [FunctionDecl.mentions, List.mem_cons, not_or] at h
  exact Ne.symm h.1

/-- A checked function has its name. -/
theorem FunctionDecl.name_of_resolve {c : Context} {s : Scopes} {f f₁ : FunctionDecl}
    (h : f.resolve c s = pure f₁) : f₁.name = f.name := by
  have hname := FunctionDecl.resolve_name c s f
  rwa [h, Checked.value_pure] at hname

mutual

/-- A statement is checked as before after it has been renamed. -/
theorem Stmt.resolve_renamed : ∀ {x x₁ x' : Stmt} (c : Context) {marks : Marks} {s s' t : Scopes},
    s.Alike r marks s' → x.Shaped → r.new ∉ x.mentions → x.resolve c s = pure (x₁, t) →
      x₁.Renamed r marks x' →
        ∃ t', x'.bare.resolve c s' = pure (x', t') ∧ t.Alike r marks t'
  | .expression value, _, _, c, _, s, s', _, hs, h, hnew, hok, hr => by
    rw [Stmt.Shaped] at h
    obtain ⟨_, hvalue, hok⟩ := Checked.bind_eq_pure.1 hok
    cases hok
    cases hr with | expression hr
    refine ⟨s', ?_, hs⟩
    rw [Stmt.bare, Stmt.resolve, Expr.resolve_renamed hs _ h hnew hvalue hr]
    rfl
  | .print keyword value, _, _, c, _, s, s', _, hs, h, hnew, hok, hr => by
    rw [Stmt.Shaped] at h
    obtain ⟨_, hvalue, hok⟩ := Checked.bind_eq_pure.1 hok
    cases hok
    cases hr with | print _ hr
    refine ⟨s', ?_, hs⟩
    rw [Stmt.bare, Stmt.resolve, Expr.resolve_renamed hs _ h hnew hvalue hr]
    rfl
  | .var name initializer, _, _, c, _, s, s', _, hs, h, hnew, hok, hr => by
    rw [Stmt.Shaped] at h
    simp only [Stmt.mentions, List.mem_cons, not_or] at hnew
    obtain ⟨_, hdeclare, hok⟩ := Checked.bind_eq_pure.1 hok
    obtain ⟨_, hinitializer, hok⟩ := Checked.bind_eq_pure.1 hok
    cases hok
    cases hr with | var _ hr
    obtain ⟨t', hdeclare', ht⟩ := hs.declare (Ne.symm hnew.1) hdeclare
    refine ⟨_, ?_, ht.define (Ne.symm hnew.1)⟩
    rw [Stmt.bare, Stmt.resolve, hdeclare', Checked.pure_bind,
      Expr.resolveOpt_renamed ht _ h.2 hnew.2 hinitializer hr]
    rfl
  | .block body, _, _, c, _, s, s', _, hs, h, hnew, hok, hr => by
    rw [Stmt.Shaped] at h
    obtain ⟨⟨_, _⟩, hbody, hok⟩ := Checked.bind_eq_pure.1 hok
    cases hok
    cases hr with | block b hr
    obtain ⟨t', hbody', -⟩ := Stmt.resolveAll_renamed c (hs.push (.empty r b)) h hnew hbody hr
    refine ⟨s', ?_, hs⟩
    rw [Stmt.bare, Stmt.resolve, hbody']
    rfl
  | .conditional condition thenBranch none, _, _, c, _, s, s', _, hs, h, hnew, hok, hr => by
    rw [Stmt.Shaped] at h
    simp only [Stmt.mentions, List.mem_append, not_or] at hnew
    obtain ⟨_, hcondition, hok⟩ := Checked.bind_eq_pure.1 hok
    obtain ⟨⟨_, _⟩, hthen, hok⟩ := Checked.bind_eq_pure.1 hok
    cases hok
    cases hr with | conditional hc hr
    obtain ⟨t', hthen', ht⟩ := Stmt.resolve_renamed c hs h.2.1 hnew.2 hthen hr
    refine ⟨t', ?_, ht⟩
    rw [Stmt.bare, Stmt.resolve, Expr.resolve_renamed hs _ h.1 hnew.1 hcondition hc, hthen']
    rfl
  | .conditional condition thenBranch (some elseBranch), _, _, c, _, s, s', _, hs, h, hnew, hok,
      hr => by
    rw [Stmt.Shaped] at h
    simp only [Stmt.mentions, List.mem_append, not_or] at hnew
    obtain ⟨_, hcondition, hok⟩ := Checked.bind_eq_pure.1 hok
    obtain ⟨⟨_, _⟩, hthen, hok⟩ := Checked.bind_eq_pure.1 hok
    obtain ⟨⟨_, _⟩, helse, hok⟩ := Checked.bind_eq_pure.1 hok
    cases hok
    cases hr with | conditionalElse hc hr hr'
    obtain ⟨t', hthen', ht⟩ := Stmt.resolve_renamed c hs h.2.1.1 hnew.1.2 hthen hr
    obtain ⟨u', helse', hu⟩ := Stmt.resolve_renamed c ht h.2.2.1 hnew.2 helse hr'
    refine ⟨u', ?_, hu⟩
    rw [Stmt.bare, Stmt.resolve, Expr.resolve_renamed hs _ h.1 hnew.1.1 hcondition hc,
      Checked.pure_bind, hthen', Checked.pure_bind]
    dsimp only
    rw [helse']
    rfl
  | .loop condition body, _, _, c, _, s, s', _, hs, h, hnew, hok, hr => by
    rw [Stmt.Shaped] at h
    simp only [Stmt.mentions, List.mem_append, not_or] at hnew
    obtain ⟨_, hcondition, hok⟩ := Checked.bind_eq_pure.1 hok
    obtain ⟨⟨_, _⟩, hbody, hok⟩ := Checked.bind_eq_pure.1 hok
    cases hok
    cases hr with | loop hc hr
    obtain ⟨t', hbody', ht⟩ := Stmt.resolve_renamed c hs h.2.1 hnew.2 hbody hr
    refine ⟨t', ?_, ht⟩
    rw [Stmt.bare, Stmt.resolve, Expr.resolve_renamed hs _ h.1 hnew.1 hcondition hc, hbody']
    rfl
  | .function decl, _, _, c, _, s, s', _, hs, h, hnew, hok, hr => by
    rw [Stmt.Shaped] at h
    rw [Stmt.mentions] at hnew
    obtain ⟨_, hdeclare, hok⟩ := Checked.bind_eq_pure.1 hok
    obtain ⟨_, hdecl, hok⟩ := Checked.bind_eq_pure.1 hok
    cases hok
    cases hr with | @function _ _ decl' hcalled hr
    have hname : decl'.bare.name = decl.name := by
      rw [FunctionDecl.bare_name, hr.name, FunctionDecl.name_of_resolve hdecl]
    rw [FunctionDecl.name_of_resolve hdecl] at hcalled
    obtain ⟨t', hdeclare', ht⟩ :=
      hs.declare_called (decl.name_ne_of_mentions hnew) hcalled hdeclare
    refine ⟨_, ?_, ht⟩
    rw [Stmt.bare, Stmt.resolve, hname, hdeclare', Checked.pure_bind]
    dsimp only
    rw [FunctionDecl.resolve_renamed c ht h hnew hdecl hr]
    rfl
  | .ret keyword value, _, _, c, _, s, s', _, hs, h, hnew, hok, hr => by
    rw [Stmt.Shaped] at h
    by_cases hinside : c.insideFunction = true
    · rw [Stmt.resolve, if_neg (not_not_intro hinside)] at hok
      obtain ⟨_, hvalue, hok⟩ := Checked.bind_eq_pure.1 hok
      cases hok
      cases hr with | ret _ hr
      refine ⟨s', ?_, hs⟩
      rw [Stmt.bare, Stmt.resolve, if_neg (not_not_intro hinside),
        Expr.resolveOpt_renamed hs _ h hnew hvalue hr]
      rfl
    · rw [Stmt.resolve, if_pos hinside] at hok
      obtain ⟨_, hreport, -⟩ := Checked.bind_eq_pure.1 hok
      exact absurd hreport Checked.report_ne_pure
  | .classDecl name none methods, _, _, c, _, s, s', _, hs, h, hnew, hok, hr => by
    rw [Stmt.Shaped] at h
    simp only [Stmt.mentions, List.mem_cons, List.mem_append, not_or] at hnew
    obtain ⟨_, hdeclare, hok⟩ := Checked.bind_eq_pure.1 hok
    obtain ⟨_, hmethods, hok⟩ := Checked.bind_eq_pure.1 hok
    cases hok
    cases hr with | classDecl hcalled hsuper hm
    cases hsuper
    obtain ⟨t', hdeclare', ht⟩ := hs.declare_called (Ne.symm hnew.1) hcalled hdeclare
    refine ⟨_, ?_, ht⟩
    rw [Stmt.bare, Expr.bareOpt, Stmt.resolve, hdeclare', Checked.pure_bind]
    dsimp only
    rw [FunctionDecl.resolveAll_renamed _ (ht.push (.this r)) h.2 hnew.2.2 hmethods hm]
    rfl
  | .classDecl name (some superclass) methods, _, _, c, _, s, s', _, hs, h, hnew, hok, hr => by
    rw [Stmt.Shaped] at h
    obtain ⟨-, ⟨above, rfl, habove⟩, hmethods⟩ := h
    simp only [Stmt.mentions, List.mem_cons, List.mem_append, not_or] at hnew
    obtain ⟨_, hdeclare, hok⟩ := Checked.bind_eq_pure.1 hok
    obtain ⟨_, hcheck, hok⟩ := Checked.bind_eq_pure.1 hok
    obtain ⟨_, hsuperclass, hok⟩ := Checked.bind_eq_pure.1 hok
    obtain ⟨_, hchecked, hok⟩ := Checked.bind_eq_pure.1 hok
    cases hok
    cases hr with | classDecl hcalled hsuper hm
    cases hsuper with | some hsuper
    obtain ⟨t', hdeclare', ht⟩ := hs.declare_called (Ne.symm hnew.1) hcalled hdeclare
    have habove' : above.lexeme ≠ r.new := fun heq => hnew.2.1 (by
      rw [← heq]
      exact List.mem_singleton_self _)
    have hshaped : (Expr.variable above none).Shaped := by
      rw [Expr.Shaped]
      exact ⟨habove, rfl⟩
    have hresolve := Expr.resolve_renamed ht .subclass hshaped hnew.2.1 hsuperclass hsuper
    refine ⟨_, ?_, ht⟩
    obtain ⟨_, -, hslot⟩ := Checked.bind_eq_pure.1 hsuperclass
    cases hslot
    cases hsuper
    rw [Stmt.bare, Expr.bareOpt, Stmt.resolve, hdeclare', Checked.pure_bind]
    dsimp only
    rw [hresolve, Expr.bare, checkSuperclass_called (Ne.symm hnew.1) habove' hcheck,
      FunctionDecl.resolveAll_renamed _ ((ht.push (.super r)).push (.this r)) hmethods
        hnew.2.2 hchecked hm]
    rfl
termination_by structural x => x

/-- A function is checked as before after it has been renamed. -/
theorem FunctionDecl.resolve_renamed : ∀ {f f₁ f' : FunctionDecl} (c : Context) {marks : Marks}
    {s s' : Scopes}, s.Alike r marks s' → f.Shaped → r.new ∉ f.mentions →
      f.resolve c s = pure f₁ → f₁.Renamed r marks f' → f'.bare.resolve c s' = pure f'
  | ⟨name, params, body⟩, _, _, c, marks, s, s', hs, h, hnew, hok, hr => by
    rw [FunctionDecl.Shaped] at h
    simp only [FunctionDecl.mentions, List.mem_cons, List.mem_append, not_or] at hnew
    obtain ⟨_, hparams, hok⟩ := Checked.bind_eq_pure.1 hok
    obtain ⟨⟨_, _⟩, hbody, hok⟩ := Checked.bind_eq_pure.1 hok
    cases hok
    cases hr with | mk b _ _ hr
    obtain ⟨t', hparams', ht⟩ := (hs.push (.empty r b)).declareParams hnew.2.1 hparams
    obtain ⟨u', hbody', -⟩ := Stmt.resolveAll_renamed _ ht h.2.2 hnew.2.2 hbody hr
    rw [Marks.mark_cons_zero] at hparams'
    rw [FunctionDecl.bare, FunctionDecl.resolve, hparams', Checked.pure_bind, hbody']
    rfl
termination_by structural x => x

/-- A program is checked as before after it has been renamed. -/
theorem Stmt.resolveAll_renamed : ∀ {xs xs₁ xs' : List Stmt} (c : Context) {marks : Marks}
    {s s' t : Scopes}, s.Alike r marks s' → Stmt.AllShaped xs → r.new ∉ Stmt.mentionsAll xs →
      Stmt.resolveAll c s xs = pure (xs₁, t) → Stmt.AllRenamed r marks xs₁ xs' →
        ∃ t', Stmt.resolveAll c s' (Stmt.bareAll xs') = pure (xs', t') ∧ t.Alike r marks t'
  | [], _, _, c, _, s, s', _, hs, _, _, hok, hr => by
    cases hok
    cases hr
    exact ⟨s', rfl, hs⟩
  | x :: xs, _, _, c, _, s, s', _, hs, h, hnew, hok, hr => by
    rw [Stmt.AllShaped] at h
    rw [Stmt.mentionsAll, List.mem_append, not_or] at hnew
    obtain ⟨⟨_, _⟩, hx, hok⟩ := Checked.bind_eq_pure.1 hok
    obtain ⟨⟨_, _⟩, hxs, hok⟩ := Checked.bind_eq_pure.1 hok
    cases hok
    cases hr with | cons hr hrs
    obtain ⟨t', hx', ht⟩ := Stmt.resolve_renamed c hs h.1 hnew.1 hx hr
    obtain ⟨u', hxs', hu⟩ := Stmt.resolveAll_renamed c ht h.2 hnew.2 hxs hrs
    refine ⟨u', ?_, hu⟩
    rw [Stmt.bareAll, Stmt.resolveAll, hx', Checked.pure_bind]
    dsimp only
    rw [hxs']
    rfl
termination_by structural x => x

theorem FunctionDecl.resolveAll_renamed : ∀ {fs fs₁ fs' : List FunctionDecl} (c : Context)
    {marks : Marks} {s s' : Scopes}, s.Alike r marks s' → FunctionDecl.AllShaped fs →
      r.new ∉ FunctionDecl.mentionsAll fs → FunctionDecl.resolveAll c s fs = pure fs₁ →
        FunctionDecl.AllRenamed r marks fs₁ fs' →
          FunctionDecl.resolveAll c s' (FunctionDecl.bareAll fs') = pure fs'
  | [], _, _, c, _, s, s', _, _, _, hok, hr => by
    cases hok
    cases hr
    rfl
  | f :: fs, _, _, c, _, s, s', hs, h, hnew, hok, hr => by
    rw [FunctionDecl.AllShaped] at h
    rw [FunctionDecl.mentionsAll, List.mem_append, not_or] at hnew
    obtain ⟨_, hf, hok⟩ := Checked.bind_eq_pure.1 hok
    obtain ⟨_, hfs, hok⟩ := Checked.bind_eq_pure.1 hok
    cases hok
    cases hr with | cons hr hrs
    rw [FunctionDecl.bareAll, FunctionDecl.resolveAll,
      FunctionDecl.resolve_renamed c hs h.1 hnew.1 hf hr,
      FunctionDecl.resolveAll_renamed c hs h.2 hnew.2 hfs hrs]
    rfl
termination_by structural x => x

end

/-- A program that is accepted is accepted again after it has been renamed to a name that it does
not mention, and gets the same slots. -/
theorem resolve_renamed {globals : List String} {parsed program' : List Stmt}
    (h : Stmt.AllShaped parsed) (hnew : r.new ∉ Stmt.mentionsAll parsed)
    (herrors : (resolve globals parsed).errors = [])
    (hr : Stmt.AllRenamed r [] (resolve globals parsed).value.1 program') :
    (resolve globals (Stmt.bareAll program')).errors = [] ∧
      (resolve globals (Stmt.bareAll program')).value.1 = program' := by
  obtain ⟨t', hresolve, -⟩ := Stmt.resolveAll_renamed .top (Scopes.Alike.top r globals) h hnew
    (Checked.eq_pure herrors) hr
  rw [resolve, hresolve]
  exact ⟨rfl, rfl⟩

end Lox
