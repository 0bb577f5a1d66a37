import Lox.Proofs.Wrap.Objects

/-!
# A run with added blocks

A program and one in which statements have been put into blocks of their own, run on machines of
which one is found in the other, end in the same way, if they both end (`interpret_corresponds`).
Running a part of a node takes one unit of fuel, and running a part that has been put into a block
three; so three times the fuel is always enough for the second run, and for the first one as much
as the second one has (`Paced`). The induction is on the fuel of the second run, with one theorem
for each function of the evaluator.
-/

set_option autoImplicit false

namespace Lox

variable {L R : Prop}

/-! ## Fuel -/

/-- Which of two runs may end for want of fuel before the other does: the first one only if it has
less, and the second one only if it has less than three times as much and, besides, `slack`. -/
structure Paced (L R : Prop) (slack fuel fuel' : Nat) : Prop where
  left : fuel < fuel' → L
  right : fuel' < 3 * fuel + slack → R

namespace Paced

variable {slack fuel fuel' : Nat}

/-- The parts of a node, which may be in blocks of their own. -/
theorem parts (h : Paced L R 0 (fuel + 1) (fuel' + 1)) : Paced L R 2 fuel fuel' where
  left := fun hlt => h.left (by omega)
  right := fun hlt => h.right (by omega)

/-- A part that is not in a block. -/
theorem bare (h : Paced L R slack fuel fuel') : Paced L R 0 fuel fuel' where
  left := h.left
  right := fun hlt => h.right (by omega)

/-- A part in a block. -/
theorem boxed (h : Paced L R 2 fuel (fuel' + 2)) : Paced L R 0 fuel fuel' where
  left := fun hlt => h.left (by omega)
  right := fun hlt => h.right (by omega)

end Paced

/-- A statement and the one in its place, which is in a block of its own only if the slack pays for
the block. -/
inductive Stmt.Paid : Nat → Marks → Stmt → Stmt → Prop
  | bare {slack : Nat} {marks : Marks} {s s' : Stmt} (h : s.Moved marks s') :
      Stmt.Paid slack marks s s'
  | box {marks : Marks} {s s' : Stmt} (h : s.Moved (true :: marks) s') :
      Stmt.Paid 2 marks s (.block [s'])

theorem Stmt.Boxed.paid {marks : Marks} {s s' : Stmt} (h : s.Boxed marks s') :
    s.Paid 2 marks s' := by
  cases h with
  | bare h => exact .bare h
  | box _ h => exact .box h

namespace Machine.EmbedsAt

variable {φ : FrameMap} {marks : Marks} {m m' : Machine}

/-- A subclass is declared in both: its methods close over a frame that holds the superclass. -/
theorem declareSubclass (h : m.EmbedsAt φ marks m') (hinner : marks.place 0 = 0) (name : Token)
    (above : ClassId) {methods methods' : List FunctionDecl}
    (hm : FunctionDecl.AllMoved (false :: false :: marks) methods methods') :
    Corresponds L R φ m m' SameBoth
      ((do
        Eval.define name.lexeme .nil
        let closure ← Eval.newFrame (← Eval.currentFrame) [("super", .classRef above)]
        let c ← Eval.newClass ⟨name.lexeme, some above, methodTable closure methods⟩
        Eval.assignVisible name c
        pure Flow.next : Eval Flow) m)
      ((do
        Eval.define name.lexeme .nil
        let closure ← Eval.newFrame (← Eval.currentFrame) [("super", .classRef above)]
        let c ← Eval.newClass ⟨name.lexeme, some above, methodTable closure methods'⟩
        Eval.assignVisible name c
        pure Flow.next : Eval Flow) m') := by
  refine h.bind (h.define hinner name.lexeme .nil) fun h _ hbound => ?_
  refine .currentFrame ?_
  refine h.bind (h.newFrame h.current h.current' h.along _) fun h hadv hclosure => ?_
  obtain ⟨hmade, rfl, halong⟩ := hclosure
  -- the new frame leaves the name bound in the current one
  have hbound := hadv.frames.left.still hbound
  rw [← hadv.current] at hbound
  exact h.declareClass hinner hbound ⟨rfl, rfl, methodTable_embeds hmade rfl halong hm⟩

end Machine.EmbedsAt

/-! ## The evaluator -/

/-- One statement is run as a list of statements, with one unit of fuel more. -/
theorem executeAll_singleton (fuel : Nat) (s : Stmt) :
    executeAll (fuel + 1) [s] = execute fuel s := by
  funext m
  rw [executeAll]
  cases fuel with
  | zero => rfl
  | succ fuel =>
    show Eval.bind (execute (fuel + 1) s) _ m = _
    unfold Eval.bind
    cases execute (fuel + 1) s m with
    | ok flow m₁ => cases flow <;> rfl
    | error e m₁ => rfl
    | outOfFuel => rfl

/-- An error about a superclass is reported at the same token. -/
theorem superclassToken_moved {marks : Marks} {e e' : Expr} (h : e.Moved marks e')
    (name : Token) : superclassToken name e' = superclassToken name e := by
  cases h <;> rfl

mutual

theorem evaluate_corresponds : ∀ (fuel fuel' : Nat) {φ : FrameMap} {marks : Marks}
    {m m' : Machine} {e e' : Expr}, Paced L R 0 fuel fuel' → m.EmbedsAt φ marks m' →
      e.Moved marks e' →
        Corresponds L R φ m m' SameBoth (evaluate fuel e m) (evaluate fuel' e' m')
  | 0, 0, _, _, _, _, _, _, _, _, _ => .outOfFuel
  | 0, _ + 1, _, _, _, _, _, _, hp, _, _ => .left (hp.left (Nat.succ_pos _)) _
  | _ + 1, 0, _, _, _, _, _, _, hp, _, _ => .right (hp.right (Nat.succ_pos _)) _
  | fuel + 1, fuel' + 1, φ, marks, m, m', e, e', hp, h, he => by
    have hp := hp.parts.bare
    cases he with
    | literal value => exact .pure h.toEmbeds rfl
    | grouping he =>
      rw [evaluate, evaluate]
      exact evaluate_corresponds fuel fuel' hp h he
    | unary operator he =>
      rw [evaluate, evaluate]
      refine h.bindSame (evaluate_corresponds fuel fuel' hp h he) fun h => ?_
      exact .ofExcept h.toEmbeds _
    | binary operator hl hr =>
      rw [evaluate, evaluate]
      refine h.bindSame (evaluate_corresponds fuel fuel' hp h hl) fun h => ?_
      refine h.bindSame (evaluate_corresponds fuel fuel' hp h hr) fun h => ?_
      exact .ofExcept h.toEmbeds _
    | logical operator hl hr =>
      rw [evaluate, evaluate]
      refine h.bindSame (evaluate_corresponds fuel fuel' hp h hl) fun h => ?_
      split
      · exact .pure h.toEmbeds rfl
      · exact evaluate_corresponds fuel fuel' hp h hr
    | «variable» name depth => exact h.readVariable name depth
    | assign name depth hv =>
      rw [evaluate, evaluate]
      refine h.bindSame (evaluate_corresponds fuel fuel' hp h hv) fun h => ?_
      exact h.bindSame (h.writeVariable name depth _) fun h => .pure h.toEmbeds rfl
    | call paren hf ha =>
      rw [evaluate, evaluate]
      refine h.bindSame (evaluate_corresponds fuel fuel' hp h hf) fun h => ?_
      refine h.bindSame (evaluateAll_corresponds fuel fuel' hp h ha) fun h => ?_
      exact call_corresponds fuel fuel' hp h
    | get name ho =>
      rw [evaluate, evaluate]
      refine h.bindSame (evaluate_corresponds fuel fuel' hp h ho) fun {_ _ _ v} h => ?_
      cases v with
      | instanceRef i => exact h.getProperty i name
      | _ => exact .stop h.toEmbeds _
    | set name ho hv =>
      rw [evaluate, evaluate]
      refine h.bindSame (evaluate_corresponds fuel fuel' hp h ho) fun {_ _ _ v} h => ?_
      cases v with
      | instanceRef i =>
        refine h.bindSame (evaluate_corresponds fuel fuel' hp h hv) fun h => ?_
        exact h.bindSame (h.setField i _ _) fun h => .pure h.toEmbeds rfl
      | _ => exact .stop h.toEmbeds _
    | this keyword depth => exact h.readVariable keyword depth
    | super keyword method hjoined => exact h.superMethod keyword method hjoined
termination_by structural _ fuel' => fuel'

theorem evaluateAll_corresponds : ∀ (fuel fuel' : Nat) {φ : FrameMap} {marks : Marks}
    {m m' : Machine} {es es' : List Expr}, Paced L R 0 fuel fuel' → m.EmbedsAt φ marks m' →
      Expr.AllMoved marks es es' →
        Corresponds L R φ m m' SameBoth (evaluateAll fuel es m) (evaluateAll fuel' es' m')
  | 0, 0, _, _, _, _, _, _, _, _, _ => .outOfFuel
  | 0, _ + 1, _, _, _, _, _, _, hp, _, _ => .left (hp.left (Nat.succ_pos _)) _
  | _ + 1, 0, _, _, _, _, _, _, hp, _, _ => .right (hp.right (Nat.succ_pos _)) _
  | fuel + 1, fuel' + 1, _, _, m, m', _, _, hp, h, he => by
    have hp := hp.parts.bare
    cases he with
    | nil => exact .pure h.toEmbeds rfl
    | cons he hes =>
      rw [evaluateAll, evaluateAll]
      refine h.bindSame (evaluate_corresponds fuel fuel' hp h he) fun h => ?_
      refine h.bindSame (evaluateAll_corresponds fuel fuel' hp h hes) fun h => ?_
      exact .pure h.toEmbeds rfl
termination_by structural _ fuel' => fuel'

theorem call_corresponds : ∀ (fuel fuel' : Nat) {φ : FrameMap} {marks : Marks} {m m' : Machine}
    {callee : Value} {paren : Token} {arguments : List Value}, Paced L R 0 fuel fuel' →
      m.EmbedsAt φ marks m' →
        Corresponds L R φ m m' SameBoth (call fuel callee paren arguments m)
          (call fuel' callee paren arguments m')
  | 0, 0, _, _, _, _, _, _, _, _, _ => .outOfFuel
  | 0, _ + 1, _, _, _, _, _, _, _, hp, _ => .left (hp.left (Nat.succ_pos _)) _
  | _ + 1, 0, _, _, _, _, _, _, _, hp, _ => .right (hp.right (Nat.succ_pos _)) _
  | fuel + 1, fuel' + 1, _, _, m, m', callee, paren, arguments, hp, h => by
    have hp := hp.parts.bare
    rw [call, call]
    refine h.bind (h.checkCall callee paren _) fun h _ hf => ?_
    cases hf with
    | native f => exact h.callNative f
    | function hf => exact invoke_corresponds fuel fuel' hp h hf
    | construct c =>
      refine h.bindSame (h.newInstance c) fun h => ?_
      refine h.bind (h.initializerOf c) fun h _ hinit => ?_
      cases hinit with
      | none => exact .pure h.toEmbeds rfl
      | some hf =>
        refine h.bind (h.bindMethod hf _) fun h _ hf => ?_
        exact h.bindSame (invoke_corresponds fuel fuel' hp h hf) fun h => .pure h.toEmbeds rfl
termination_by structural _ fuel' => fuel'

theorem invoke_corresponds : ∀ (fuel fuel' : Nat) {φ : FrameMap} {marks : Marks}
    {m m' : Machine} {f f' : Function} {arguments : List Value}, Paced L R 0 fuel fuel' →
      m.EmbedsAt φ marks m' → Function.Embeds φ m.frames m'.frames [] f f' →
        Corresponds L R φ m m' SameBoth (invoke fuel f arguments m) (invoke fuel' f' arguments m')
  | 0, 0, _, _, _, _, _, _, _, _, _, _ => .outOfFuel
  | 0, _ + 1, _, _, _, _, _, _, _, hp, _, _ => .left (hp.left (Nat.succ_pos _)) _
  | _ + 1, 0, _, _, _, _, _, _, _, hp, _, _ => .right (hp.right (Nat.succ_pos _)) _
  | fuel + 1, fuel' + 1, φ, marks, m, m', f, f', arguments, hp, h, hf => by
    have hp := hp.parts.bare
    obtain ⟨outer, halong, hdecl⟩ := hf.decl
    have hbody : Corresponds L R φ m m' SameBoth
        ((Eval.newFrame f.closure ((f.decl.params.map (·.lexeme)).zip arguments) >>= fun frame =>
          Eval.within frame (executeAll fuel f.decl.body)) m)
        ((Eval.newFrame f'.closure ((f'.decl.params.map (·.lexeme)).zip arguments) >>= fun frame =>
          Eval.within frame (executeAll fuel' f'.decl.body)) m') := by
      rw [hf.params]
      exact h.inFrame hf.made (hf.made' h.frames) halong _
        fun h => executeAll_corresponds fuel fuel' hp h hdecl.body
    rw [invoke, invoke, ← Eval.bind_assoc, ← Eval.bind_assoc, hf.isInitializer]
    refine h.bind hbody fun {_ _ _ _ flow} h₁ hadv heq => ?_
    subst heq
    split
    · -- an initializer: its closure is still found where it was before the body ran
      exact h₁.boundInstance (hf.later h.frames hadv.frames)
    · cases flow with
      | next => exact .pure h₁.toEmbeds rfl
      | returned value keyword => exact .pure h₁.toEmbeds rfl
termination_by structural _ fuel' => fuel'

theorem execute_corresponds : ∀ (fuel fuel' : Nat) {slack : Nat} {φ : FrameMap} {marks : Marks}
    {m m' : Machine} {s s' : Stmt}, Paced L R slack fuel fuel' → m.EmbedsAt φ marks m' →
      s.Paid slack marks s' →
        Corresponds L R φ m m' SameBoth (execute fuel s m) (execute fuel' s' m')
  | 0, 0, _, _, _, _, _, _, _, _, _, _ => .outOfFuel
  | 0, _ + 1, _, _, _, _, _, _, _, hp, _, _ => .left (hp.left (Nat.succ_pos _)) _
  | _ + 1, 0, _, _, _, _, _, _, _, hp, _, _ => .right (hp.right (by omega)) _
  | _ + 1, 1, _, _, _, _, _, _, _, hp, _, .box _ => .right (hp.right (by omega)) _
  | fuel + 1, fuel' + 2, _, _, _, _, _, _, _, hp, h, .box hs => by
    -- the block takes one unit of fuel, and its list of statements another
    rw [execute]
    refine h.inAddedFrame fun h => ?_
    rw [executeAll_singleton]
    exact execute_corresponds (fuel + 1) fuel' hp.boxed h (.bare hs)
  | fuel + 1, fuel' + 1, _, φ, marks, m, m', s, s', hp, h, .bare hs => by
    have hparts := hp.bare.parts
    have hp := hparts.bare
    cases hs with
    | expression he =>
      rw [execute, execute]
      exact h.bindSame (evaluate_corresponds fuel fuel' hp h he) fun h => .pure h.toEmbeds rfl
    | print keyword he =>
      rw [execute, execute]
      refine h.bindSame (evaluate_corresponds fuel fuel' hp h he) fun h => ?_
      exact h.bindSame (h.printLine keyword _) fun h => .pure h.toEmbeds rfl
    | var hinner name he =>
      cases he with
      | none =>
        rw [execute, execute]
        exact h.bind (h.define hinner name.lexeme .nil) fun h _ _ => .pure h.toEmbeds rfl
      | some he =>
        rw [execute, execute]
        refine h.bindSame (evaluate_corresponds fuel fuel' hp h he) fun h => ?_
        exact h.bind (h.define hinner name.lexeme _) fun h _ _ => .pure h.toEmbeds rfl
    | block hbody =>
      rw [execute, execute]
      refine .currentFrame ?_
      exact h.inFrame h.current h.current' h.along []
        fun h => executeAll_corresponds fuel fuel' hp h hbody
    | conditional hc ht =>
      rw [execute, execute]
      refine h.bindSame (evaluate_corresponds fuel fuel' hp h hc) fun h => ?_
      split
      · exact execute_corresponds fuel fuel' hparts h ht.paid
      · exact .pure h.toEmbeds rfl
    | conditionalElse hc ht he =>
      rw [execute, execute]
      refine h.bindSame (evaluate_corresponds fuel fuel' hp h hc) fun h => ?_
      split
      · exact execute_corresponds fuel fuel' hparts h ht.paid
      · exact execute_corresponds fuel fuel' hparts h he.paid
    | loop hc hb =>
      rw [execute, execute]
      exact executeLoop_corresponds fuel fuel' hp h hc hb
    | @function _ hinner decl decl' hdecl =>
      have hf : Function.Embeds φ m.frames m'.frames [] ⟨decl, m.current, false⟩
          ⟨decl', m'.current, false⟩ :=
        ⟨h.current, h.along.place hinner, rfl, marks, h.along, hdecl⟩
      rw [execute, execute, hdecl.name]
      refine .currentFrame ?_
      refine h.bindSame (h.newFunction hf) fun h => ?_
      exact h.bind (h.define hinner _ _) fun h _ _ => .pure h.toEmbeds rfl
    | ret keyword he =>
      cases he with
      | none => exact .pure h.toEmbeds rfl
      | some he =>
        rw [execute, execute]
        refine h.bindSame (evaluate_corresponds fuel fuel' hp h he) fun h => ?_
        exact .pure h.toEmbeds rfl
    | classDecl hinner name hsuper hm =>
      cases hsuper with
      | none =>
        rw [execute, execute]
        refine h.bind (h.define hinner name.lexeme .nil) fun h _ hbound => ?_
        exact .currentFrame (h.declareClass hinner hbound ⟨rfl, rfl,
          methodTable_embeds h.current (h.along.place hinner) h.along hm⟩)
      | some hsuper =>
        rw [execute, execute]
        refine h.bindSame (evaluate_corresponds fuel fuel' hp h hsuper) fun {_ _ _ v} h => ?_
        cases v with
        | classRef above => exact h.declareSubclass hinner name above hm
        | _ =>
          rw [superclassToken_moved hsuper]
          exact .stop h.toEmbeds _
termination_by structural _ fuel' => fuel'

theorem executeLoop_corresponds : ∀ (fuel fuel' : Nat) {φ : FrameMap} {marks : Marks}
    {m m' : Machine} {condition condition' : Expr} {body body' : Stmt},
      Paced L R 0 fuel fuel' → m.EmbedsAt φ marks m' → condition.Moved marks condition' →
        body.Boxed marks body' →
          Corresponds L R φ m m' SameBoth (executeLoop fuel condition body m)
            (executeLoop fuel' condition' body' m')
  | 0, 0, _, _, _, _, _, _, _, _, _, _, _, _ => .outOfFuel
  | 0, _ + 1, _, _, _, _, _, _, _, _, hp, _, _, _ => .left (hp.left (Nat.succ_pos _)) _
  | _ + 1, 0, _, _, _, _, _, _, _, _, hp, _, _, _ => .right (hp.right (Nat.succ_pos _)) _
  | fuel + 1, fuel' + 1, _, _, m, m', _, _, _, _, hp, h, hc, hb => by
    have hparts := hp.parts
    have hp := hparts.bare
    rw [executeLoop, executeLoop]
    refine h.bindSame (evaluate_corresponds fuel fuel' hp h hc) fun h => ?_
    split
    · refine h.bindSame (execute_corresponds fuel fuel' hparts h hb.paid) fun {_ _ _ flow} h => ?_
      cases flow with
      | next => exact executeLoop_corresponds fuel fuel' hp h hc hb
      | returned value keyword => exact .pure h.toEmbeds rfl
    · exact .pure h.toEmbeds rfl
termination_by structural _ fuel' => fuel'

theorem executeAll_corresponds : ∀ (fuel fuel' : Nat) {φ : FrameMap} {marks : Marks}
    {m m' : Machine} {ss ss' : List Stmt}, Paced L R 0 fuel fuel' → m.EmbedsAt φ marks m' →
      Stmt.AllBoxed marks ss ss' →
        Corresponds L R φ m m' SameBoth (executeAll fuel ss m) (executeAll fuel' ss' m')
  | 0, 0, _, _, _, _, _, _, _, _, _ => .outOfFuel
  | 0, _ + 1, _, _, _, _, _, _, hp, _, _ => .left (hp.left (Nat.succ_pos _)) _
  | _ + 1, 0, _, _, _, _, _, _, hp, _, _ => .right (hp.right (Nat.succ_pos _)) _
  | fuel + 1, fuel' + 1, _, _, m, m', _, _, hp, h, hs => by
    have hparts := hp.parts
    have hp := hparts.bare
    cases hs with
    | nil => exact .pure h.toEmbeds rfl
    | cons hs hss =>
      rw [executeAll, executeAll]
      refine h.bindSame (execute_corresponds fuel fuel' hparts h hs.paid) fun {_ _ _ flow} h => ?_
      cases flow with
      | next => exact executeAll_corresponds fuel fuel' hp h hss
      | returned value keyword => exact .pure h.toEmbeds rfl
termination_by structural _ fuel' => fuel'

end

theorem interpret_corresponds {φ : FrameMap} {marks : Marks} {m m' : Machine}
    {program program' : List Stmt} {fuel fuel' : Nat} (hp : Paced L R 0 fuel fuel')
    (h : m.EmbedsAt φ marks m') (hs : Stmt.AllBoxed marks program program') :
    Corresponds L R φ m m' SameBoth (interpret fuel program m) (interpret fuel' program' m') := by
  unfold interpret
  refine h.bindSame (executeAll_corresponds fuel fuel' hp h hs) fun {_ _ _ flow} h => ?_
  cases flow with
  | next => exact .pure h.toEmbeds rfl
  | returned value keyword => exact .stop h.toEmbeds _

end Lox
