import Lox.Proofs.Lexical.Simulation
import Lox.Proofs.Run.Visits

/-!
# Tasks at their place

A task is `Ready` on a machine that agrees with a lexical world when its tree is scoped at the place
where the machine is. The tasks that a ready task starts are ready again (`Ready.starts`), so
whatever a run visits is ready (`Ready.visits`). A ready task never stops at an error that blames
the tree, and a slot of it that holds a distance leads to a frame that binds the name.
-/

set_option autoImplicit false

namespace Lox.Lexical

variable {cells : Array Cell} {m m' : Machine} {w : World} {n : Nest} {visible : Names}

/-- A task whose tree is scoped at the place where it runs. -/
inductive Ready (m : Machine) : Task → Prop
  | expr {cells : Array Cell} {w : World} {n : Nest} {visible : Names} {p : Option String}
      {e : Expr} (h : Here cells m w n visible) (hp : Here.Pending n p) (he : e.Scoped n p) :
      Ready m (.expr p e)
  | exprs {cells : Array Cell} {w : World} {n : Nest} {visible : Names} {p : Option String}
      {es : List Expr} (h : Here cells m w n visible) (hp : Here.Pending n p)
      (he : Expr.AllScoped n p es) : Ready m (.exprs p es)
  | call {cells : Array Cell} {w : World} {callee : Value} {paren : Token}
      {arguments : List Value} (h : Agree cells m w) : Ready m (.call callee paren arguments)
  | invoke {cells : Array Cell} {w : World} {f : Function} {g : Closure} {arguments : List Value}
      (h : Agree cells m w) (hf : SameObject cells m.frames f g)
      (hl : arguments.length = f.decl.params.length) : Ready m (.invoke f arguments)
  | stmt {cells : Array Cell} {w : World} {n : Nest} {visible : Names} {insideFunction : Bool}
      {s : Stmt} (h : Here cells m w n visible) (hs : s.Scoped insideFunction n) :
      Ready m (.stmt s)
  | loop {cells : Array Cell} {w : World} {n : Nest} {visible : Names} {insideFunction : Bool}
      {condition : Expr} {body : Stmt} (h : Here cells m w n visible)
      (hc : condition.Scoped n none) (hb : body.Scoped insideFunction n)
      (hd : body.declared = none) : Ready m (.loop condition body)
  | stmts {cells : Array Cell} {w : World} {n : Nest} {visible : Names} {insideFunction : Bool}
      {ss : List Stmt} (h : Here cells m w n visible) (hs : Stmt.AllScoped insideFunction n ss) :
      Ready m (.stmts ss)

/-! ## After a run -/

section Ends

variable {own : Option FrameId} {α β : Type} {R : Array Cell → Machine → α → β → Prop}
variable {r : Result α} {s : Option (Except RuntimeError β × World)}

/-- What is known after a run that ended well. -/
theorem Tracks.of_ok {a : α} (h : Tracks own cells m R r s) (hr : r = .ok a m') :
    ∃ cells' w' b, Reached own cells m cells' m' w' ∧ R cells' m' a b := by
  cases h with
  | ok hreached hR =>
    cases hr
    exact ⟨_, _, _, hreached, hR⟩
  | error => cases hr
  | outOfFuel => cases hr

theorem Tracks.of_error {e : RuntimeError} (h : Tracks own cells m R r s)
    (hr : r.error? = some e) : e.cause.blamesTree = false := by
  cases h with
  | ok => cases hr
  | error _ he =>
    cases hr
    exact he
  | outOfFuel => cases hr

end Ends

/-- An expression that ends well leads to a later state at the same place. -/
theorem Here.evaluated (h : Here cells m w n visible) {p : Option String} {e : Expr} {fuel : Nat}
    {v : Value} (hp : Here.Pending n p) (he : e.Scoped n p)
    (hv : Lox.evaluate fuel e m = .ok v m') : ∃ cells' w', Here cells' m' w' n visible := by
  obtain ⟨cells', w', -, hr, -⟩ := (evaluate_tracks fuel h hp he).of_ok hv
  exact ⟨cells', w', h.later hr⟩

/-- A statement that ends well leads to a place with the names it declares. -/
theorem Here.executed (h : Here cells m w n visible) {s : Stmt} {insideFunction : Bool}
    {fuel : Nat} (hs : s.Scoped insideFunction n) (hv : Lox.execute fuel s m = .ok .next m') :
    ∃ cells' w' visible', Here cells' m' w' (n.after s) visible' := by
  obtain ⟨cells', w', flow, hr, hflow⟩ := (execute_tracks fuel h hs).of_ok hv
  cases hflow with
  | next hat => exact ⟨cells', w', _, hat, hr.agree⟩

/-- What is pending in an initializer is told by the machine as well as by the nest. -/
theorem Here.pending_eq (h : Here cells m w n visible) (name : Token) :
    m.pending name = n.pending name.lexeme := by
  unfold Machine.pending Nest.pending
  by_cases hn : n = []
  · rw [if_pos (h.top.1 hn), if_pos hn]
  · rw [if_neg (fun heq => hn (h.top.2 heq)), if_neg hn]

/-! ## Steps -/

/-- The function that a call starts has as many parameters as there are arguments. -/
theorem Agree.called (h : Agree cells m w) {callee : Value} {paren : Token} {count : Nat}
    {f : Function} (hc : Eval.checkCall callee paren count m = .ok (.function f) m') :
    ∃ cells' w' g, Agree cells' m' w' ∧ SameObject cells' m'.frames f g ∧
      count = f.decl.params.length := by
  have hcheck : Tracks none cells m _ _ _ := h.checkCall callee paren count
  obtain ⟨cells', w', g, hr, hcallable⟩ := hcheck.of_ok hc
  cases hcallable with
  | function hf => exact ⟨cells', w', _, hr.agree, hf, rfl⟩

/-- So has the initializer that the call of a class starts. -/
theorem Agree.constructed (h : Agree cells m w) {m₁ m₂ m₃ : Machine} {callee this : Value}
    {paren : Token} {count : Nat} {c : ClassId} {f g : Function}
    (hc : Eval.checkCall callee paren count m = .ok (.construct c) m₁)
    (hthis : Eval.newInstance c m₁ = .ok this m₂)
    (hinit : Eval.initializerOf c m₂ = .ok (some f) m₃)
    (hbind : Eval.bindMethod f this m₃ = .ok g m') :
    ∃ cells' w' g', Agree cells' m' w' ∧ SameObject cells' m'.frames g g' ∧
      count = g.decl.params.length := by
  have hcheck : Tracks none cells m _ _ _ := h.checkCall callee paren count
  obtain ⟨_, _, _, hr₁, hcallable⟩ := hcheck.of_ok hc
  cases hcallable with
  | construct _ hcount =>
    have hnew : Tracks none _ _ _ _ _ := hr₁.agree.newInstance c
    obtain ⟨_, _, _, hr₂, -, hclasses⟩ := hnew.of_ok hthis
    have hfind : Tracks none _ _ _ _ _ := hr₂.agree.initializerOf c
    obtain ⟨_, _, _, hr₃, hmethod, hf⟩ := hfind.of_ok hinit
    rw [Machine.findMethod?_congr hclasses] at hf
    cases hmethod with
    | some hmethod =>
      have hbound : Tracks none _ _ _ _ _ := hr₃.agree.bindMethod hmethod this
      obtain ⟨_, _, _, hr₄, hobject, hdecl⟩ := hbound.of_ok hbind
      refine ⟨_, _, _, hr₄.agree, hobject, ?_⟩
      rw [hdecl]
      exact hcount f hf.symm

/-- The body of a function starts in a frame with the parameters. -/
theorem Agree.invoked (h : Agree cells m w) {f : Function} {g : Closure} {arguments : List Value}
    {frame : FrameId} (hfg : SameObject cells m.frames f g)
    (hlength : arguments.length = f.decl.params.length)
    (hf : Eval.newFrame f.closure ((f.decl.params.map (·.lexeme)).zip arguments) m
      = .ok frame m') : Ready { m' with current := frame } (.stmts f.decl.body) := by
  obtain ⟨n, hfunction, -⟩ := hfg
  obtain ⟨hnodup, hsuper, hbody⟩ := hfunction.arguments hlength
  obtain ⟨cells', m'', w', visible', hframe, -, -, hhere⟩ :=
    h.enter hfunction.places hnodup hsuper
  rw [hframe] at hf
  cases hf
  exact .stmts hhere hbody

/-- The body of a block starts in an empty frame. -/
theorem Here.entered (h : Here cells m w n visible) {insideFunction : Bool} {ss : List Stmt}
    {frame : FrameId} (hs : Stmt.AllScoped insideFunction ([] :: n) ss)
    (hf : Eval.newFrame m.current [] m = .ok frame m') :
    Ready { m' with current := frame } (.stmts ss) := by
  have hnodup : (([] : List (String × Value)).map (·.1)).Nodup := List.nodup_nil
  obtain ⟨cells', m'', w', visible', hframe, -, -, hhere⟩ :=
    h.agree.enter h.places hnodup fun _ hv => absurd hv List.not_mem_nil
  rw [hframe] at hf
  cases hf
  exact .stmts hhere hs

/-- A ready task starts ready tasks. -/
theorem Ready.starts {t t' : Task} (h : Ready m t) (hs : Starts m t m' t') : Ready m' t' := by
  cases hs with
  | grouping =>
    cases h with | expr h hp he
    simp only [Expr.Scoped] at he
    exact .expr h hp he
  | unary =>
    cases h with | expr h hp he
    simp only [Expr.Scoped] at he
    exact .expr h hp he.2
  | binaryLeft =>
    cases h with | expr h hp he
    simp only [Expr.Scoped] at he
    exact .expr h hp he.1
  | binaryRight hl =>
    cases h with | expr h hp he
    simp only [Expr.Scoped] at he
    obtain ⟨_, _, h'⟩ := h.evaluated hp he.1 hl
    exact .expr h' hp he.2.2
  | logicalLeft =>
    cases h with | expr h hp he
    simp only [Expr.Scoped] at he
    exact .expr h hp he.1
  | logicalRight hl =>
    cases h with | expr h hp he
    simp only [Expr.Scoped] at he
    obtain ⟨_, _, h'⟩ := h.evaluated hp he.1 hl
    exact .expr h' hp he.2
  | assigned =>
    cases h with | expr h hp he
    simp only [Expr.Scoped] at he
    exact .expr h hp he.2.1
  | callee =>
    cases h with | expr h hp he
    simp only [Expr.Scoped] at he
    exact .expr h hp he.1
  | arguments hc =>
    cases h with | expr h hp he
    simp only [Expr.Scoped] at he
    obtain ⟨_, _, h'⟩ := h.evaluated hp he.1 hc
    exact .exprs h' hp he.2
  | call hc ha =>
    cases h with | expr h hp he
    simp only [Expr.Scoped] at he
    obtain ⟨_, _, h'⟩ := h.evaluated hp he.1 hc
    obtain ⟨_, _, _, hr, -⟩ := (evaluateAll_tracks _ h' hp he.2).of_ok ha
    exact .call hr.agree
  | getObject =>
    cases h with | expr h hp he
    simp only [Expr.Scoped] at he
    exact .expr h hp he
  | setObject =>
    cases h with | expr h hp he
    simp only [Expr.Scoped] at he
    exact .expr h hp he.1
  | setValue ho =>
    cases h with | expr h hp he
    simp only [Expr.Scoped] at he
    obtain ⟨_, _, h'⟩ := h.evaluated hp he.1 ho
    exact .expr h' hp he.2
  | exprsHead =>
    cases h with | exprs h hp he
    simp only [Expr.AllScoped] at he
    exact .expr h hp he.1
  | exprsTail hv =>
    cases h with | exprs h hp he
    simp only [Expr.AllScoped] at he
    obtain ⟨_, _, h'⟩ := h.evaluated hp he.1 hv
    exact .exprs h' hp he.2
  | function hc =>
    cases h with | call h
    obtain ⟨_, _, _, hagree, hf, hl⟩ := h.called hc
    exact .invoke hagree hf hl
  | construct hc hthis hinit hbind =>
    cases h with | call h
    obtain ⟨_, _, _, hagree, hf, hl⟩ := h.constructed hc hthis hinit hbind
    exact .invoke hagree hf hl
  | body hf =>
    cases h with | invoke h hfg hl
    exact h.invoked hfg hl hf
  | expression =>
    cases h with | stmt h hs
    simp only [Stmt.Scoped] at hs
    exact .expr h Here.pending_none hs
  | printed =>
    cases h with | stmt h hs
    simp only [Stmt.Scoped] at hs
    exact .expr h Here.pending_none hs
  | initializer =>
    cases h with | stmt h hs
    simp only [Stmt.Scoped] at hs
    rw [h.pending_eq]
    exact .expr h (Here.pending_of_fresh hs.1.2) hs.2
  | block hf =>
    cases h with | stmt h hs
    simp only [Stmt.Scoped] at hs
    exact h.entered hs hf
  | @condition _ _ elseBranch =>
    cases h with | stmt h hs
    cases elseBranch <;> simp only [Stmt.Scoped] at hs <;> exact .expr h Here.pending_none hs.1
  | @thenBranch _ _ _ elseBranch _ _ hc =>
    cases h with | stmt h hs
    cases elseBranch with
    | none =>
      simp only [Stmt.Scoped] at hs
      obtain ⟨_, _, h'⟩ := h.evaluated Here.pending_none hs.1 hc
      exact .stmt h' hs.2.1
    | some elseBranch =>
      simp only [Stmt.Scoped] at hs
      obtain ⟨_, _, h'⟩ := h.evaluated Here.pending_none hs.1 hc
      exact .stmt h' hs.2.1.1
  | elseBranch hc =>
    cases h with | stmt h hs
    simp only [Stmt.Scoped] at hs
    obtain ⟨_, _, h'⟩ := h.evaluated Here.pending_none hs.1 hc
    exact .stmt h' hs.2.2.1
  | loop =>
    cases h with | stmt h hs
    simp only [Stmt.Scoped] at hs
    exact .loop h hs.1 hs.2.1 hs.2.2
  | returned =>
    cases h with | stmt h hs
    simp only [Stmt.Scoped] at hs
    exact .expr h Here.pending_none hs.2
  | superclass =>
    cases h with | stmt h hs
    simp only [Stmt.Scoped] at hs
    exact .expr h Here.pending_none hs.2.1
  | loopCondition =>
    cases h with | loop h hc hb hd
    exact .expr h Here.pending_none hc
  | loopBody hv =>
    cases h with | loop h hc hb hd
    obtain ⟨_, _, h'⟩ := h.evaluated Here.pending_none hc hv
    exact .stmt h' hb
  | loopAgain hv _ hend =>
    cases h with | loop h hc hb hd
    obtain ⟨_, _, h'⟩ := h.evaluated Here.pending_none hc hv
    obtain ⟨_, _, _, h''⟩ := h'.executed hb hend
    rw [Nest.after_of_none hd] at h''
    exact .loop h'' hc hb hd
  | stmtsHead =>
    cases h with | stmts h hs
    simp only [Stmt.AllScoped] at hs
    exact .stmt h hs.1
  | stmtsTail hv =>
    cases h with | stmts h hs
    simp only [Stmt.AllScoped] at hs
    obtain ⟨_, _, _, h'⟩ := h.executed hs.1 hv
    exact .stmts h' hs.2

/-- What a ready task visits is ready. -/
theorem Ready.visits {t t' : Task} (h : Ready m t) (hv : Visits m t m' t') : Ready m' t' := by
  induction hv with
  | refl => exact h
  | tail _ hs ih => exact ih.starts hs

/-! ## What ready tasks do -/

/-- A ready task does not stop at an error that blames the tree. -/
theorem Ready.error {t : Task} (h : Ready m t) {fuel : Nat} {e : RuntimeError}
    (he : t.error? fuel m = some e) : e.cause.blamesTree = false := by
  cases h with
  | expr h hp hs => exact (evaluate_tracks fuel h hp hs).of_error he
  | exprs h hp hs => exact (evaluateAll_tracks fuel h hp hs).of_error he
  | call h => exact (call_tracks fuel h).of_error he
  | invoke h hf hl => exact (invoke_tracks fuel h hf hl).of_error he
  | stmt h hs => exact (execute_tracks fuel h hs).of_error he
  | loop h hc hb hd => exact (executeLoop_tracks fuel h hc hb hd).of_error he
  | stmts h hs => exact (executeAll_tracks fuel h hs).of_error he

/-- A variable or `this` that is read at a distance. -/
inductive ReadsAt : Expr → Token → Nat → Prop
  | name (name : Token) (d : Nat) : ReadsAt (.variable name (some d)) name d
  | this (keyword : Token) (d : Nat) : ReadsAt (.this keyword (some d)) keyword d

/-- A name that is read at a distance is bound there. -/
theorem Ready.reads {p : Option String} {e : Expr} {name : Token} {d : Nat}
    (h : Ready m (.expr p e)) (he : ReadsAt e name d) :
    ∃ f v, m.frames.ancestor? m.current d = some f ∧ m.frames.here? f name.lexeme = some v := by
  cases h with | @expr _ _ n _ _ _ h hp hs
  have hd : n.distance? name.lexeme = some d := by
    cases he with
    | name name d =>
      simp only [Expr.Scoped] at hs
      exact hs.symm
    | this keyword d =>
      simp only [Expr.Scoped] at hs
      obtain ⟨hk, d', hd', hthis⟩ := hs
      cases hd'
      rw [hk]
      exact hthis
  obtain ⟨f, l, v, hf, -, -, hv, -⟩ := h.bound hd
  exact ⟨f, v, hf, hv⟩

/-- An assignment at a distance finds its frame. The frame binds the name unless the assignment is
in the initializer of a local variable of that name. -/
theorem Ready.assigns {p : Option String} {name : Token} {value : Expr} {d : Nat} {fuel : Nat}
    {v : Value} (h : Ready m (.expr p (.assign name value (some d))))
    (hv : Lox.evaluate fuel value m = .ok v m') :
    ∃ f, m'.frames.ancestor? m'.current d = some f ∧
      ((m'.frames.here? f name.lexeme).isSome ↔ p ≠ some name.lexeme) := by
  cases h with | expr h hp hs
  simp only [Expr.Scoped] at hs
  obtain ⟨-, hvalue, hd⟩ := hs
  obtain ⟨_, _, h'⟩ := h.evaluated hp hvalue hv
  unfold Nest.target? at hd
  by_cases hpending : p = some name.lexeme
  · obtain ⟨hn, hfresh⟩ := hp _ hpending
    rw [if_pos hpending] at hd
    cases hd
    refine ⟨m'.current, rfl, ?_⟩
    simp only [h'.unbound hn hfresh, Option.isSome_none, hpending, ne_eq, not_true_eq_false,
      Bool.false_eq_true]
  · rw [if_neg hpending] at hd
    obtain ⟨f, l, old, hf, -, -, hold, -⟩ := h'.bound hd.symm
    refine ⟨f, hf, ?_⟩
    simp only [hold, Option.isSome_some, ne_eq, hpending, not_false_eq_true]

end Lox.Lexical
