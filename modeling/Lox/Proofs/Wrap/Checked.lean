import Lox.Proofs.Scope.At
import Lox.Proofs.Wrap.Moved

/-!
# Checking programs with added scopes

A program in which statements have been put into blocks gets the same scoping errors, in the same
order, and its slots are those of the program, moved (`resolve_boxed`). The checker's scopes in the
two walks differ by the added scopes, which are empty (`Scope.Padded`). Inside an added scope no
name is pending; so none may be pending in the scope around it either, which is so between
statements (`Scope.Calm`).
-/

set_option autoImplicit false

namespace Lox

/-! ## Checked values -/

/-- The two checks find the same errors, and the values are related. -/
structure Checked.Matches {α β : Type} (R : α → β → Prop) (x : Checked α) (y : Checked β) :
    Prop where
  errors : y.errors = x.errors
  value : R x.value y.value

namespace Checked.Matches

variable {α β γ δ : Type} {R : α → β → Prop} {R' : γ → δ → Prop}

theorem pure {a : α} {b : β} (h : R a b) : Matches R (pure a) (pure b) :=
  ⟨rfl, h⟩

theorem bind {x : Checked α} {y : Checked β} {f : α → Checked γ} {g : β → Checked δ}
    (h : Matches R x y) (hf : ∀ {a b}, R a b → Matches R' (f a) (g b)) :
    Matches R' (x >>= f) (y >>= g) := by
  obtain ⟨herrors, hvalue⟩ := hf h.value
  exact ⟨by rw [errors_bind, errors_bind, h.errors, herrors], hvalue⟩

/-- After the same check. -/
theorem after {x : Checked α} {y : Checked β} (z : Checked γ) (h : Matches R x y) :
    Matches R (z >>= fun _ => x) (z >>= fun _ => y) :=
  ⟨congrArg (z.errors ++ ·) h.errors, h.value⟩

theorem same {R : α → α → Prop} (x : Checked α) (h : R x.value x.value) : Matches R x x :=
  ⟨rfl, h⟩

end Checked.Matches

/-! ## Scopes -/

/-- Between statements: no name of the scope is pending, and the scope is not that of `super`. -/
structure Scope.Calm (scope : Scope) : Prop where
  ready : ∀ x, scope.get? x ≠ some .pending
  notSuper : scope.contains "super" = false

theorem Scope.Calm.empty : Scope.Calm .empty :=
  ⟨fun _ => nofun, rfl⟩

/-- A declaration is over when its name is ready. -/
theorem Scope.Calm.insert {scope : Scope} (h : scope.Calm) {name : String}
    (hname : name ≠ "super") : Scope.Calm (scope.insert name .ready) where
  ready := by
    intro x
    rw [Bindings.get?_insert]
    split
    · exact nofun
    · exact h.ready x
  notSuper := by
    rw [Bindings.contains_insert, h.notSuper, Bool.or_false]
    exact beq_eq_false_iff_ne.2 hname.symm

/-- The second scopes are the first ones with empty scopes added at the marks. -/
inductive Scope.Padded : Marks → List Scope → List Scope → Prop
  | nil : Scope.Padded [] [] []
  | added {marks : Marks} {outer outer' : List Scope}
      (hcalm : ∀ scope ∈ outer.head?, Scope.Calm scope) (h : Scope.Padded marks outer outer') :
      Scope.Padded (true :: marks) outer (.empty :: outer')
  | kept {marks : Marks} {outer outer' : List Scope} (scope : Scope)
      (h : Scope.Padded marks outer outer') :
      Scope.Padded (false :: marks) (scope :: outer) (scope :: outer')

namespace Scope.Padded

variable {marks : Marks} {scopes scopes' : List Scope}

/-- A name is found in the same scope. -/
theorem findIdx? (h : Scope.Padded marks scopes scopes') (x : String) :
    scopes'.findIdx? (fun scope => scope.contains x) =
      (scopes.findIdx? fun scope => scope.contains x).map marks.place := by
  induction h with
  | nil => rfl
  | @added marks _ _ _ _ ih =>
    have hempty : Bindings.contains (.empty : Scope) x = false := rfl
    have hplace : Marks.place (true :: marks) = fun d => marks.place d + 1 :=
      funext marks.place_added
    rw [List.findIdx?_cons, hempty, ih]
    simp [hplace, Function.comp_def]
  | kept scope _ ih =>
    rw [List.findIdx?_cons, List.findIdx?_cons, ih]
    split
    · rfl
    · simp [Function.comp_def]

/-- No scope is added directly inside the scope of `super`. -/
theorem joined (h : Scope.Padded marks scopes scopes') :
    ∀ {d : Nat}, (scopes.findIdx? fun scope => scope.contains "super") = some d →
      marks.Joined d := by
  induction h with
  | nil => exact nofun
  | @added marks outer outer' hcalm h ih =>
    intro d hd
    have hjoined := ih hd
    cases d with
    | zero =>
      cases outer with
      | nil => cases hd
      | cons scope outer =>
        rw [List.findIdx?_cons, (hcalm scope rfl).notSuper] at hd
        simp at hd
    | succ d =>
      rw [Marks.Joined, Marks.place_added, Marks.place_added, hjoined]
  | @kept marks outer outer' scope h ih =>
    intro d hd
    cases d with
    | zero => rfl
    | succ d =>
      rw [List.findIdx?_cons] at hd
      split at hd
      · cases hd
      · simp only [Option.map_eq_some_iff, Nat.add_right_cancel_iff, exists_eq_right] at hd
        have hjoined := ih hd
        cases d with
        | zero =>
          rw [Marks.Joined] at hjoined
          rw [Marks.Joined, Marks.place_kept_succ, hjoined, Marks.place_kept_zero]
        | succ d => rw [Marks.Joined, Marks.place_kept_succ, Marks.place_kept_succ, hjoined]

end Scope.Padded

namespace Scopes

/-- The visible names in the two walks. -/
structure Padded (marks : Marks) (s s' : Scopes) : Prop where
  locals : Scope.Padded marks s.locals s'.locals
  globals : s'.globals = s.globals

/-- The innermost scope is calm. -/
def Calm (s : Scopes) : Prop :=
  ∀ scope ∈ s.locals.head?, Scope.Calm scope

variable {marks : Marks} {s s' : Scopes}

theorem Padded.top (globals : List String) : Padded [] (top globals) (top globals) :=
  ⟨.nil, rfl⟩

theorem Calm.top (globals : List String) : (top globals).Calm :=
  nofun

theorem Padded.push (h : s.Padded marks s') (scope : Scope) :
    (s.push scope).Padded (false :: marks) (s'.push scope) :=
  ⟨.kept scope h.locals, h.globals⟩

theorem calm_push {scope : Scope} (h : Scope.Calm scope) : (s.push scope).Calm := by
  rintro _ ⟨⟩
  exact h

/-- The scope of a block around a single statement. -/
theorem Padded.box (h : s.Padded marks s') (hcalm : s.Calm) :
    s.Padded (true :: marks) (s'.push .empty) :=
  ⟨.added hcalm h.locals, h.globals⟩

theorem Padded.distance? (h : s.Padded marks s') (x : String) :
    s'.distance? x = (s.distance? x).map marks.place :=
  h.locals.findIdx? x

theorem Padded.slot (h : s.Padded marks s') (name : Token) :
    s'.slot name none = (s.slot name none).map marks.place := by
  rw [Scopes.slot, Scopes.slot, Option.or_none, Option.or_none, h.distance?]

theorem Padded.joined (h : s.Padded marks s') {keyword : Token} (hk : keyword.lexeme = "super")
    {d : Nat} (hd : s.slot keyword none = some d) : marks.Joined d := by
  rw [Scopes.slot, Option.or_none, hk] at hd
  exact h.locals.joined hd

/-- What is read is found in the same scope, with the same errors. -/
theorem Padded.readSlot (h : s.Padded marks s') (name : Token) :
    Checked.Matches (fun d d' => d' = d.map marks.place) (s.readSlot name none)
      (s'.readSlot name none) := by
  have hdistance := h.distance? name.lexeme
  obtain ⟨locals, known⟩ := s
  obtain ⟨locals', known'⟩ := s'
  obtain ⟨hlocals, hknown⟩ := h
  dsimp only at hlocals hknown
  subst hknown
  cases hlocals with
  | nil => exact .same _ (by simp [Scopes.readSlot, isPending, Scopes.distance?])
  | @added marks _ outer' hcalm hout =>
    have hpending : isPending ⟨locals, known'⟩ name.lexeme = false := by
      cases locals with
      | nil => rfl
      | cons scope outer =>
        have hready := (hcalm scope rfl).ready name.lexeme
        simpa [isPending] using hready
    have hpending' : isPending ⟨.empty :: outer', known'⟩ name.lexeme = false := rfl
    simp only [Scopes.readSlot, hpending, hpending', Bool.false_eq_true, if_false, Option.or_none]
    exact .pure hdistance
  | @kept marks outer outer' scope hout =>
    have houter : outerDistance? ⟨scope :: outer', known'⟩ name.lexeme =
        (outerDistance? ⟨scope :: outer, known'⟩ name.lexeme).map
          (Marks.place (false :: marks)) := by
      simp [outerDistance?, hout.findIdx?, Function.comp_def]
    have hpending : isPending ⟨scope :: outer', known'⟩ name.lexeme =
        isPending ⟨scope :: outer, known'⟩ name.lexeme := rfl
    simp only [Scopes.readSlot, hpending, houter, Option.or_none]
    split
    · cases outerDistance? ⟨scope :: outer, known'⟩ name.lexeme with
      | some d => exact .pure rfl
      | none =>
        dsimp only [Option.map_none]
        split
        · exact ⟨rfl, rfl⟩
        · exact .pure rfl
    · exact .pure hdistance

/-! ## Declarations -/

theorem Padded.define (h : s.Padded marks s') (hinner : marks.place 0 = 0) (name : Token) :
    (s.define name).Padded marks (s'.define name) := by
  obtain ⟨locals, known⟩ := s
  obtain ⟨locals', known'⟩ := s'
  obtain ⟨hlocals, hknown⟩ := h
  dsimp only at hlocals hknown
  subst hknown
  cases hlocals with
  | nil => exact ⟨.nil, rfl⟩
  | added => simp at hinner
  | kept scope hout => exact ⟨.kept _ hout, rfl⟩

/-- A declaration that is over leaves a calm scope. -/
theorem Calm.declare (h : s.Calm) {name : Token} (hname : name.IsName) :
    ((s.declare name).value.define name).Calm := by
  obtain ⟨locals, known⟩ := s
  cases locals with
  | nil => exact nofun
  | cons scope outer =>
    have hscope := h scope rfl
    simp only [Scopes.declare]
    split
    · rintro _ ⟨⟩
      exact hscope.insert hname.2
    · rintro _ ⟨⟩
      -- the later of the two statuses counts
      have hget : ∀ x, ((scope.insert name.lexeme .pending).insert name.lexeme .ready).get? x =
          (scope.insert name.lexeme .ready).get? x := by
        intro x
        simp only [Bindings.get?_insert]
        split <;> rfl
      have hinsert := hscope.insert hname.2
      refine ⟨fun x => ?_, ?_⟩
      · rw [hget]
        exact hinsert.ready x
      · rw [Bindings.contains, hget]
        exact hinsert.notSuper

/-- Where names are declared the innermost scope is in both walks. -/
theorem Padded.declare (h : s.Padded marks s') (hinner : marks.place 0 = 0) (hcalm : s.Calm)
    {name : Token} (hname : name.IsName) :
    Checked.Matches (fun a b => a.Padded marks b ∧ (a.define name).Calm) (s.declare name)
      (s'.declare name) := by
  have hrest := hcalm.declare hname
  obtain ⟨locals, known⟩ := s
  obtain ⟨locals', known'⟩ := s'
  obtain ⟨hlocals, hknown⟩ := h
  dsimp only at hlocals hknown
  subst hknown
  cases hlocals with
  | nil => exact .pure ⟨⟨.nil, rfl⟩, hrest⟩
  | added => simp at hinner
  | kept scope hout =>
    simp only [Scopes.declare] at hrest ⊢
    split at hrest
    · rename_i hc
      rw [if_pos hc, if_pos hc]
      exact ⟨rfl, ⟨.kept scope hout, rfl⟩, hrest⟩
    · rename_i hc
      rw [if_neg hc, if_neg hc]
      exact .pure ⟨⟨.kept _ hout, rfl⟩, hrest⟩

theorem Padded.declareParams : ∀ {params : List Token} {s s' : Scopes}, s.Padded marks s' →
    marks.place 0 = 0 → s.Calm → (∀ p ∈ params, p.IsName) →
      Checked.Matches (fun a b => a.Padded marks b ∧ a.Calm) (s.declareParams params)
        (s'.declareParams params)
  | [], _, _, h, _, hcalm, _ => .pure ⟨h, hcalm⟩
  | p :: params, s, s', h, hinner, hcalm, hnames => by
    rw [List.forall_mem_cons] at hnames
    exact (h.declare hinner hcalm hnames.1).bind fun h =>
      declareParams (h.1.define hinner p) hinner h.2 hnames.2

end Scopes

/-! ## Trees -/

section

variable {marks : Marks} {s s' : Scopes}

mutual

theorem Expr.Moved.resolve (hs : s.Padded marks s') (c : ClassContext) : ∀ {e e' : Expr},
    e.Moved marks e' → e.Shaped →
      Checked.Matches (Expr.Moved marks) (e.resolve s c) (e'.resolve s' c)
  | _, _, .literal value, _ => .pure (.literal value)
  | _, _, .grouping h, he => by
    simp only [Expr.Shaped] at he
    simp only [Expr.resolve]
    exact (h.resolve hs c he).bind fun h => .pure (.grouping h)
  | _, _, .unary operator h, he => by
    simp only [Expr.Shaped] at he
    simp only [Expr.resolve]
    exact (h.resolve hs c he.2).bind fun h => .pure (.unary operator h)
  | _, _, .binary operator hl hr, he => by
    simp only [Expr.Shaped] at he
    simp only [Expr.resolve]
    refine (hl.resolve hs c he.1).bind fun hl => ?_
    exact (hr.resolve hs c he.2.2).bind fun hr => .pure (.binary operator hl hr)
  | _, _, .logical operator hl hr, he => by
    simp only [Expr.Shaped] at he
    simp only [Expr.resolve]
    refine (hl.resolve hs c he.1).bind fun hl => ?_
    exact (hr.resolve hs c he.2.2).bind fun hr => .pure (.logical operator hl hr)
  | _, _, .variable name depth, he => by
    simp only [Expr.Shaped] at he
    obtain ⟨-, rfl⟩ := he
    simp only [Expr.resolve, Option.map_none]
    refine (hs.readSlot name).bind fun {d d'} hd => ?_
    subst hd
    exact .pure (.variable name d)
  | _, _, .assign name depth hv, he => by
    simp only [Expr.Shaped] at he
    obtain ⟨-, hvalue, rfl⟩ := he
    simp only [Expr.resolve, Option.map_none, hs.slot]
    exact (hv.resolve hs c hvalue).bind fun hv => .pure (.assign name _ hv)
  | _, _, .call paren hf ha, he => by
    simp only [Expr.Shaped] at he
    simp only [Expr.resolve]
    refine (hf.resolve hs c he.1).bind fun hf => ?_
    exact (ha.resolve hs c he.2).bind fun ha => .pure (.call paren hf ha)
  | _, _, .get name h, he => by
    simp only [Expr.Shaped] at he
    simp only [Expr.resolve]
    exact (h.resolve hs c he).bind fun h => .pure (.get name h)
  | _, _, .set name ho hv, he => by
    simp only [Expr.Shaped] at he
    simp only [Expr.resolve]
    refine (hv.resolve hs c he.2).bind fun hv => ?_
    exact (ho.resolve hs c he.1).bind fun ho => .pure (.set name ho hv)
  | _, _, .this keyword depth, he => by
    simp only [Expr.Shaped] at he
    obtain ⟨-, rfl⟩ := he
    simp only [Expr.resolve, Option.map_none, hs.slot]
    cases c with
    | outside => exact ⟨rfl, .this keyword none⟩
    | plain | subclass => exact .pure (.this keyword _)
  | _, _, @Expr.Moved.super _ keyword method depth _, he => by
    simp only [Expr.Shaped] at he
    obtain ⟨hkeyword, rfl⟩ := he
    simp only [Expr.resolve, Option.map_none, hs.slot]
    cases c with
    | outside | plain => exact ⟨rfl, .super keyword method nofun⟩
    | subclass => exact .pure (.super keyword method fun _ => hs.joined hkeyword)
termination_by structural e => e

theorem Expr.AllMoved.resolve (hs : s.Padded marks s') (c : ClassContext) :
    ∀ {es es' : List Expr}, Expr.AllMoved marks es es' → Expr.AllShaped es →
      Checked.Matches (Expr.AllMoved marks) (Expr.resolveAll s c es) (Expr.resolveAll s' c es')
  | _, _, .nil, _ => .pure .nil
  | _, _, .cons h hes, he => by
    simp only [Expr.AllShaped] at he
    simp only [Expr.resolveAll]
    refine (h.resolve hs c he.1).bind fun h => ?_
    exact (hes.resolve hs c he.2).bind fun hes => .pure (.cons h hes)
termination_by structural es => es

end

theorem Expr.OptMoved.resolve (hs : s.Padded marks s') (c : ClassContext) {o o' : Option Expr}
    (h : Expr.OptMoved marks o o') (ho : Expr.OptShaped o) :
    Checked.Matches (Expr.OptMoved marks) (Expr.resolveOpt s c o) (Expr.resolveOpt s' c o') := by
  cases h with
  | none => exact .pure .none
  | some h => exact (h.resolve hs c ho).bind fun h => .pure (.some h)

/-- A class inherits from itself in both programs or in none. -/
theorem checkSuperclass_moved {e e' : Expr} (h : e.Moved marks e') (name : Token) :
    checkSuperclass name e' = checkSuperclass name e := by
  cases h <;> rfl

end

/-- Two statements and the scopes that they leave. -/
abbrev Leaves (R : Stmt → Stmt → Prop) (marks : Marks) (a b : Stmt × Scopes) : Prop :=
  R a.1 b.1 ∧ a.2.Padded marks b.2 ∧ a.2.Calm

mutual

theorem Stmt.Moved.resolve : ∀ {marks : Marks} {x x' : Stmt} {c : Context} {s s' : Scopes},
    x.Moved marks x' → s.Padded marks s' → s.Calm → x.Shaped →
      Checked.Matches (Leaves (Stmt.Moved marks) marks) (x.resolve c s) (x'.resolve c s')
  | _, _, _, _, _, _, .expression h, hs, hcalm, hx => by
    simp only [Stmt.Shaped] at hx
    simp only [Stmt.resolve]
    exact (h.resolve hs _ hx).bind fun h => .pure ⟨.expression h, hs, hcalm⟩
  | _, _, _, _, _, _, .print keyword h, hs, hcalm, hx => by
    simp only [Stmt.Shaped] at hx
    simp only [Stmt.resolve]
    exact (h.resolve hs _ hx).bind fun h => .pure ⟨.print keyword h, hs, hcalm⟩
  | _, _, _, _, _, _, .var hinner name h, hs, hcalm, hx => by
    simp only [Stmt.Shaped] at hx
    simp only [Stmt.resolve]
    refine (hs.declare hinner hcalm hx.1).bind fun hs => ?_
    exact (h.resolve hs.1 _ hx.2).bind fun h =>
      .pure ⟨.var hinner name h, hs.1.define hinner name, hs.2⟩
  | _, _, _, _, _, _, .block h, hs, hcalm, hx => by
    simp only [Stmt.Shaped] at hx
    simp only [Stmt.resolve]
    exact (h.resolve (hs.push .empty) (Scopes.calm_push .empty) hx).bind fun h =>
      .pure ⟨.block h.1, hs, hcalm⟩
  | _, _, _, _, _, _, .conditional hc ht, hs, hcalm, hx => by
    simp only [Stmt.Shaped] at hx
    simp only [Stmt.resolve]
    refine (hc.resolve hs _ hx.1).bind fun hc => ?_
    exact (ht.resolve hs hcalm hx.2.1).bind fun ht => .pure ⟨.conditional hc ht.1, ht.2⟩
  | _, _, _, _, _, _, .conditionalElse hc ht he, hs, hcalm, hx => by
    simp only [Stmt.Shaped] at hx
    simp only [Stmt.resolve]
    refine (hc.resolve hs _ hx.1).bind fun hc => ?_
    refine (ht.resolve hs hcalm hx.2.1.1).bind fun ht => ?_
    exact (he.resolve ht.2.1 ht.2.2 hx.2.2.1).bind fun he =>
      .pure ⟨.conditionalElse hc ht.1 he.1, he.2⟩
  | _, _, _, _, _, _, .loop hc hb, hs, hcalm, hx => by
    simp only [Stmt.Shaped] at hx
    simp only [Stmt.resolve]
    refine (hc.resolve hs _ hx.1).bind fun hc => ?_
    exact (hb.resolve hs hcalm hx.2.1).bind fun hb => .pure ⟨.loop hc hb.1, hb.2⟩
  | _, _, _, _, _, _, @Stmt.Moved.function _ hinner decl _ h, hs, hcalm, hx => by
    have hname := hx.isName rfl
    simp only [Stmt.Shaped] at hx
    simp only [Stmt.resolve, h.name]
    refine (hs.declare hinner hcalm hname).bind fun hs => ?_
    have hdefine := hs.1.define hinner decl.name
    exact (h.resolve hdefine hx).bind fun h => .pure ⟨.function hinner h, hdefine, hs.2⟩
  | _, _, _, c, _, _, .ret keyword h, hs, hcalm, hx => by
    simp only [Stmt.Shaped] at hx
    simp only [Stmt.resolve]
    have hvalue := h.resolve hs c.enclosingClass hx
    split
    · exact .after _ (hvalue.bind fun h => .pure ⟨.ret keyword h, hs, hcalm⟩)
    · exact hvalue.bind fun h => .pure ⟨.ret keyword h, hs, hcalm⟩
  | marks, _, _, _, _, _,
      @Stmt.Moved.classDecl _ hinner name superclass _ methods methods' hsuper hm,
      hs, hcalm, hx => by
    have hname := hx.isName rfl
    -- which marks the methods have depends on the superclass
    have hmethods : ∀ {c : Context} {s s' : Scopes}, s.Padded (methodMarks marks superclass) s' →
        FunctionDecl.AllShaped methods →
          Checked.Matches (FunctionDecl.AllMoved (methodMarks marks superclass))
            (FunctionDecl.resolveAll c s methods) (FunctionDecl.resolveAll c s' methods') :=
      fun hs hf => hm.resolve hs hf
    cases hsuper with
    | none =>
      simp only [Stmt.Shaped] at hx
      simp only [Stmt.resolve]
      refine (hs.declare hinner hcalm hname).bind fun hs => ?_
      have hdefine := hs.1.define hinner name
      exact (hmethods (hdefine.push thisScope) hx.2).bind fun hm =>
        .pure ⟨.classDecl hinner name .none hm, hdefine, hs.2⟩
    | some hsuper =>
      simp only [Stmt.Shaped] at hx
      obtain ⟨-, ⟨above, rfl, habove⟩, hshaped⟩ := hx
      simp only [Stmt.resolve, checkSuperclass_moved hsuper]
      refine (hs.declare hinner hcalm hname).bind fun hs => .after _ ?_
      have hdefine := hs.1.define hinner name
      refine (hsuper.resolve hdefine _ ⟨habove, rfl⟩).bind fun hsuper => ?_
      exact (hmethods ((hdefine.push superScope).push thisScope) hshaped).bind fun hm =>
        .pure ⟨.classDecl hinner name (.some hsuper) hm, hdefine, hs.2⟩
termination_by structural _ _ _ _ _ _ h => h

theorem Stmt.Boxed.resolve : ∀ {marks : Marks} {x x' : Stmt} {c : Context} {s s' : Scopes},
    x.Boxed marks x' → s.Padded marks s' → s.Calm → x.Shaped →
      Checked.Matches (Leaves (Stmt.Boxed marks) marks) (x.resolve c s) (x'.resolve c s')
  | _, _, _, _, _, _, .bare h, hs, hcalm, hx => by
    obtain ⟨herrors, hmoved, hleaves⟩ := h.resolve hs hcalm hx
    exact ⟨herrors, .bare hmoved, hleaves⟩
  | _, x, _, c, s, s', .box hd h, hs, hcalm, hx => by
    obtain ⟨herrors, hmoved, -, -⟩ := h.resolve (c := c) (hs.box hcalm) hcalm hx
    -- a statement that declares nothing leaves the scopes as they are
    have hstate := Stmt.resolve_state c (s := s) hx
    rw [hd] at hstate
    refine ⟨?_, .box ((Stmt.resolve_declared c s x).trans hd) hmoved, ?_⟩
    · simp only [Stmt.resolve, Stmt.resolveAll, Checked.errors_bind, Checked.errors_pure,
        List.append_nil, herrors]
    · rw [hstate]
      exact ⟨hs, hcalm⟩
termination_by structural _ _ _ _ _ _ h => h

theorem FunctionDecl.Moved.resolve : ∀ {marks : Marks} {f f' : FunctionDecl} {c : Context}
    {s s' : Scopes}, f.Moved marks f' → s.Padded marks s' → f.Shaped →
      Checked.Matches (FunctionDecl.Moved marks) (f.resolve c s) (f'.resolve c s')
  | _, _, _, _, _, _, .mk name params h, hs, hf => by
    simp only [FunctionDecl.Shaped] at hf
    simp only [FunctionDecl.resolve]
    refine ((hs.push .empty).declareParams rfl (Scopes.calm_push .empty) hf.2.1).bind fun hs => ?_
    exact (h.resolve hs.1 hs.2 hf.2.2).bind fun h => .pure (.mk name params h.1)
termination_by structural _ _ _ _ _ _ h => h

theorem Stmt.AllBoxed.resolve : ∀ {marks : Marks} {xs xs' : List Stmt} {c : Context}
    {s s' : Scopes}, Stmt.AllBoxed marks xs xs' → s.Padded marks s' → s.Calm →
      Stmt.AllShaped xs →
        Checked.Matches (fun a b => Stmt.AllBoxed marks a.1 b.1 ∧ a.2.Padded marks b.2)
          (Stmt.resolveAll c s xs) (Stmt.resolveAll c s' xs')
  | _, _, _, _, _, _, .nil, hs, _, _ => .pure ⟨.nil, hs⟩
  | _, _, _, _, _, _, .cons h hxs, hs, hcalm, hx => by
    simp only [Stmt.AllShaped] at hx
    simp only [Stmt.resolveAll]
    refine (h.resolve hs hcalm hx.1).bind fun h => ?_
    exact (hxs.resolve h.2.1 h.2.2 hx.2).bind fun hxs => .pure ⟨.cons h.1 hxs.1, hxs.2⟩
termination_by structural _ _ _ _ _ _ h => h

theorem FunctionDecl.AllMoved.resolve : ∀ {marks : Marks} {fs fs' : List FunctionDecl}
    {c : Context} {s s' : Scopes}, FunctionDecl.AllMoved marks fs fs' → s.Padded marks s' →
      FunctionDecl.AllShaped fs →
        Checked.Matches (FunctionDecl.AllMoved marks) (FunctionDecl.resolveAll c s fs)
          (FunctionDecl.resolveAll c s' fs')
  | _, _, _, _, _, _, .nil, _, _ => .pure .nil
  | _, _, _, _, _, _, .cons h hfs, hs, hf => by
    simp only [FunctionDecl.AllShaped] at hf
    simp only [FunctionDecl.resolveAll]
    refine (h.resolve hs hf.1).bind fun h => ?_
    exact (hfs.resolve hs hf.2).bind fun hfs => .pure (.cons h hfs)
termination_by structural _ _ _ _ _ _ h => h

end

/-- A program in which statements have been put into blocks has the same errors. -/
theorem resolve_boxed {program program' : List Stmt} (h : Stmt.AllBoxed [] program program')
    (hshaped : Stmt.AllShaped program) (globals : List String) :
    (resolve globals program').errors = (resolve globals program).errors ∧
      Stmt.AllBoxed [] (resolve globals program).value.1 (resolve globals program').value.1 := by
  obtain ⟨herrors, hvalue, -⟩ :=
    h.resolve (c := .top) (.top globals) (Scopes.Calm.top globals) hshaped
  exact ⟨herrors, hvalue⟩

end Lox
