import Lox.Proofs.Rename.Objects
import Lox.Proofs.Run.Growth

/-!
# A renamed run

A program and the renamed one, run with the same fuel on machines that are alike, agree
(`interpret_agrees`). The induction is on the fuel, with one theorem for each function of the
evaluator.
-/

set_option autoImplicit false

namespace Lox

variable {r : Renaming}

/-- An error about a superclass is reported in the same line. -/
theorem superclassToken_line {marks : Marks} {e e' : Expr} (h : e.Renamed r marks e')
    (name : Token) : (superclassToken name e').line = (superclassToken name e).line := by
  cases h <;> rfl

/-- The parameters under the names that they have in a scope. -/
theorem zip_called (b : Bool) (params : List Token) (arguments : List Value) :
    ((params.map (Token.called r b)).map (·.lexeme)).zip arguments
      = ((params.map (·.lexeme)).zip arguments).map fun e => (r.called b e.1, e.2) := by
  have hnames : (params.map (Token.called r b)).map (·.lexeme)
      = (params.map (·.lexeme)).map (r.called b) := by
    rw [List.map_map, List.map_map]
    rfl
  rw [hnames, List.zip_map_left]
  rfl

/-- A subclass is declared alike: its methods close over a frame that holds the superclass, in which
nothing is renamed. -/
theorem Here.declareSubclass {F : FrameMarks} {marks : Marks} {m m' : Machine}
    (h : Here r F marks m m') {name : Token} {above : ClassId}
    {methods methods' : List FunctionDecl}
    (hname : r.called (marks.mark 0) name.lexeme = name.lexeme)
    (hm : FunctionDecl.AllRenamed r (false :: false :: marks) methods methods')
    (hmade : (Value.classRef above).Made m) :
    Agrees r F m Same
      ((do
        Eval.define name.lexeme .nil
        let closure ← Eval.newFrame (← Eval.currentFrame) [("super", .classRef above)]
        let c ← Eval.newClass ⟨name.lexeme, some above, methodTable closure methods⟩
        Eval.assignVisible name c
        pure Flow.next : Eval Flow) m)
      ((do
        Eval.define name.lexeme .nil
        let closure ← Eval.newFrame (← Eval.currentFrame) [("super", .classRef above)]
        let c ← Eval.newClass ⟨name.lexeme, some above, methodTable closure methods'⟩
        Eval.assignVisible name c
        pure Flow.next : Eval Flow) m') := by
  have hdefine := h.define name.lexeme .nil
  rw [hname] at hdefine
  refine h.bind (h.sound.defineHere name.lexeme Value.nil_made) hdefine
    fun {_ m₁ _ _ _} h hlater _ hbound => ?_
  have hmade := hmade.mono hlater.holds
  have hbinding : ∀ e ∈ [("super", Value.classRef above)], e.2.Made m₁ := by
    intro e he
    rw [List.mem_singleton.1 he]
    exact hmade
  refine h.currentFrame ?_
  refine h.bind (h.sound.newFrame h.sound.current hbinding)
    (h.newFrame h.sound.current h.marked false hbinding) fun h hlater hclosure hR => ?_
  obtain ⟨rfl, hmarked⟩ := hR
  -- the new frame leaves the name bound in the current one
  have hbound := hlater.still hbound
  rw [← hlater.current] at hbound
  refine h.declareClass hname hbound ⟨rfl, rfl, methodTable_alike hmarked hm⟩ ?_
    (methodTable_made hclosure.2 methods)
  rintro _ ⟨⟩
  exact hmade.mono hlater.holds

mutual

theorem evaluate_agrees : ∀ (fuel : Nat) {F : FrameMarks} {marks : Marks} {m m' : Machine}
    {e e' : Expr}, Here r F marks m m' → e.Renamed r marks e' →
      Agrees r F m Same (evaluate fuel e m) (evaluate fuel e' m')
  | 0, _, _, _, _, _, _, _, _ => .outOfFuel
  | fuel + 1, F, marks, m, m', e, e', h, he => by
    cases he with
    | literal value => exact .pure h.toAlike rfl
    | grouping he =>
      rw [evaluate, evaluate]
      exact evaluate_agrees fuel h he
    | unary operator he =>
      rw [evaluate, evaluate]
      refine h.bindSame (evaluate_ends fuel _ h.sound) (evaluate_agrees fuel h he)
        fun h _ _ => ?_
      exact .ofExcept h.toAlike _
    | binary operator hl hr =>
      rw [evaluate, evaluate]
      refine h.bindSame (evaluate_ends fuel _ h.sound) (evaluate_agrees fuel h hl)
        fun h _ _ => ?_
      refine h.bindSame (evaluate_ends fuel _ h.sound) (evaluate_agrees fuel h hr)
        fun h _ _ => ?_
      exact .ofExcept h.toAlike _
    | logical operator hl hr =>
      rw [evaluate, evaluate]
      refine h.bindSame (evaluate_ends fuel _ h.sound) (evaluate_agrees fuel h hl)
        fun h _ _ => ?_
      split
      · exact .pure h.toAlike rfl
      · exact evaluate_agrees fuel h hr
    | «variable» hname => exact h.readVariable hname
    | assign hname hv =>
      rw [evaluate, evaluate]
      refine h.bindSame (evaluate_ends fuel _ h.sound) (evaluate_agrees fuel h hv)
        fun h _ hmade => ?_
      exact h.bind (h.sound.writeVariable _ _ hmade) (h.writeVariable hname _)
        fun h _ _ _ => .pure h.toAlike rfl
    | call paren hf ha =>
      rw [evaluate, evaluate]
      refine h.bindSame (evaluate_ends fuel _ h.sound) (evaluate_agrees fuel h hf)
        fun h _ hcallee => ?_
      refine h.bindSame (evaluateAll_ends fuel _ h.sound) (evaluateAll_agrees fuel h ha)
        fun h hlater harguments => ?_
      exact call_agrees fuel h (hcallee.mono hlater.holds) harguments
    | get name ho =>
      rw [evaluate, evaluate]
      refine h.bindSame (evaluate_ends fuel _ h.sound) (evaluate_agrees fuel h ho)
        fun {_ _ _ v} h _ hmade => ?_
      cases v with
      | instanceRef i => exact h.getProperty hmade name
      | _ => exact .fault h.toAlike rfl _
    | set name ho hv =>
      rw [evaluate, evaluate]
      refine h.bindSame (evaluate_ends fuel _ h.sound) (evaluate_agrees fuel h ho)
        fun {_ _ _ v} h _ _ => ?_
      cases v with
      | instanceRef i =>
        refine h.bindSame (evaluate_ends fuel _ h.sound) (evaluate_agrees fuel h hv)
          fun h _ hmade => ?_
        exact h.bind (h.sound.changeField i _ hmade) (h.setField i _ _)
          fun h _ _ _ => .pure h.toAlike rfl
      | _ => exact .fault h.toAlike rfl _
    | @this keyword depth hthis =>
      have hname : marks.atSlot depth = true → keyword.lexeme ≠ r.new := by
        intro hmarked
        rw [hthis hmarked]
        exact r.new_isName.1.symm
      have hread := h.readVariable hname
      rwa [Token.called_this hthis] at hread
    | super keyword method depth => exact h.superMethod keyword method depth

theorem evaluateAll_agrees : ∀ (fuel : Nat) {F : FrameMarks} {marks : Marks} {m m' : Machine}
    {es es' : List Expr}, Here r F marks m m' → Expr.AllRenamed r marks es es' →
      Agrees r F m Same (evaluateAll fuel es m) (evaluateAll fuel es' m')
  | 0, _, _, _, _, _, _, _, _ => .outOfFuel
  | fuel + 1, _, _, m, m', _, _, h, he => by
    cases he with
    | nil => exact .pure h.toAlike rfl
    | cons he hes =>
      rw [evaluateAll, evaluateAll]
      refine h.bindSame (evaluate_ends fuel _ h.sound) (evaluate_agrees fuel h he)
        fun h _ _ => ?_
      refine h.bindSame (evaluateAll_ends fuel _ h.sound) (evaluateAll_agrees fuel h hes)
        fun h _ _ => ?_
      exact .pure h.toAlike rfl

theorem call_agrees : ∀ (fuel : Nat) {F : FrameMarks} {marks : Marks} {m m' : Machine}
    {callee : Value} {paren : Token} {arguments : List Value}, Here r F marks m m' →
      callee.Made m → (∀ v ∈ arguments, v.Made m) →
        Agrees r F m Same (call fuel callee paren arguments m)
          (call fuel callee paren arguments m')
  | 0, _, _, _, _, _, _, _, _, _, _ => .outOfFuel
  | fuel + 1, _, _, m, m', callee, paren, arguments, h, hcallee, harguments => by
    rw [call]
    refine h.bind (h.sound.checkCall hcallee paren arguments.length) (h.checkCall callee paren _)
      fun h hlater hmade hf => ?_
    have harguments := fun v hv => (harguments v hv).mono hlater.holds
    cases hf with
    | native f => exact h.callNative f
    | function hf => exact invoke_agrees fuel h hf hmade harguments
    | construct c =>
      refine h.bindSame (h.sound.makeInstance hmade) (h.newInstance c) fun h hlater hthis => ?_
      have harguments := fun v hv => (harguments v hv).mono hlater.holds
      refine h.bind (h.sound.initializerOf c) (h.initializerOf c)
        fun h hlater hmade hinit => ?_
      have harguments := fun v hv => (harguments v hv).mono hlater.holds
      have hthis := hthis.mono hlater.holds
      cases hinit with
      | none => exact .pure h.toAlike rfl
      | some hf =>
        refine h.bind (h.sound.bindMethod (hmade _ rfl) hthis)
          (h.bindMethod hf (hmade _ rfl) hthis) fun h hlater hmade hf => ?_
        have harguments := fun v hv => (harguments v hv).mono hlater.holds
        exact h.bind (invoke_ends fuel h.sound hmade harguments)
          (invoke_agrees fuel h hf hmade harguments) fun h _ _ _ => .pure h.toAlike rfl

theorem invoke_agrees : ∀ (fuel : Nat) {F : FrameMarks} {marks : Marks} {m m' : Machine}
    {f f' : Function} {arguments : List Value}, Here r F marks m m' →
      Function.Alike r F m.frames [] f f' → f.Made m → (∀ v ∈ arguments, v.Made m) →
        Agrees r F m Same (invoke fuel f arguments m) (invoke fuel f' arguments m')
  | 0, _, _, _, _, _, _, _, _, _, _, _ => .outOfFuel
  | fuel + 1, F, marks, m, m', f, f', arguments, h, hf, hmade, harguments => by
    obtain ⟨outer, hmarked, hdecl⟩ := hf.decl
    have hbindings : ∀ e ∈ (f.decl.params.map (·.lexeme)).zip arguments, e.2.Made m :=
      fun e he => harguments e.2 (List.of_mem_zip he).2
    have hends := h.sound.inFrame hmade hbindings
      (fun _ hs => executeAll_ends fuel f.decl.body hs)
      fun {flow _ _} hflow => by cases flow <;> exact hflow
    have hbody : Agrees r F m Same
        ((Eval.newFrame f.closure ((f.decl.params.map (·.lexeme)).zip arguments) >>= fun frame =>
          Eval.within frame (executeAll fuel f.decl.body)) m)
        ((Eval.newFrame f'.closure ((f'.decl.params.map (·.lexeme)).zip arguments) >>= fun frame =>
          Eval.within frame (executeAll fuel f'.decl.body)) m') := by
      rw [hf.closure]
      generalize f.decl = decl at hdecl hbindings ⊢
      generalize f'.decl = decl' at hdecl ⊢
      cases hdecl with
      | mk b name params hdecl =>
        dsimp only
        rw [zip_called]
        exact h.inFrame hmade hmarked b hbindings fun h => executeAll_agrees fuel h hdecl
    rw [invoke, invoke, ← Eval.bind_assoc, ← Eval.bind_assoc, hf.isInitializer]
    refine h.bindSame hends hbody fun {_ _ _ flow} h _ _ => ?_
    split
    · exact h.boundInstance hf.closure
    · cases flow with
      | next => exact .pure h.toAlike rfl
      | returned value keyword => exact .pure h.toAlike rfl

theorem execute_agrees : ∀ (fuel : Nat) {F : FrameMarks} {marks : Marks} {m m' : Machine}
    {s s' : Stmt}, Here r F marks m m' → s.Renamed r marks s' →
      Agrees r F m Same (execute fuel s m) (execute fuel s' m')
  | 0, _, _, _, _, _, _, _, _ => .outOfFuel
  | fuel + 1, F, marks, m, m', s, s', h, hs => by
    cases hs with
    | expression he =>
      rw [execute, execute]
      exact h.bind (evaluate_ends fuel _ h.sound) (evaluate_agrees fuel h he)
        fun h _ _ _ => .pure h.toAlike rfl
    | print keyword he =>
      rw [execute, execute]
      refine h.bindSame (evaluate_ends fuel _ h.sound) (evaluate_agrees fuel h he)
        fun h _ _ => ?_
      exact h.bind (h.sound.printLine keyword _) (h.printLine keyword _)
        fun h _ _ _ => .pure h.toAlike rfl
    | var name he =>
      cases he with
      | none =>
        rw [execute, execute]
        exact h.bind (h.sound.defineHere name.lexeme Value.nil_made) (h.define name.lexeme .nil)
          fun h _ _ _ => .pure h.toAlike rfl
      | some he =>
        rw [execute, execute]
        refine h.bindSame (evaluate_ends fuel _ h.sound) (evaluate_agrees fuel h he)
          fun h _ hmade => ?_
        exact h.bind (h.sound.defineHere name.lexeme hmade) (h.define name.lexeme _)
          fun h _ _ _ => .pure h.toAlike rfl
    | block b hbody =>
      rw [execute, execute]
      refine h.currentFrame ?_
      exact h.inFrame h.sound.current h.marked b (List.forall_mem_nil _)
        fun h => executeAll_agrees fuel h hbody
    | conditional hc ht =>
      rw [execute, execute]
      refine h.bindSame (evaluate_ends fuel _ h.sound) (evaluate_agrees fuel h hc)
        fun h _ _ => ?_
      split
      · exact execute_agrees fuel h ht
      · exact .pure h.toAlike rfl
    | conditionalElse hc ht he =>
      rw [execute, execute]
      refine h.bindSame (evaluate_ends fuel _ h.sound) (evaluate_agrees fuel h hc)
        fun h _ _ => ?_
      split
      · exact execute_agrees fuel h ht
      · exact execute_agrees fuel h he
    | loop hc hb =>
      rw [execute, execute]
      exact executeLoop_agrees fuel h hc hb
    | @function _ decl decl' hname hdecl =>
      have hmade : Function.Made m ⟨decl, m.current, false⟩ := h.sound.current
      have hf : Function.Alike r F m.frames [] ⟨decl, m.current, false⟩
          ⟨decl', m.current, false⟩ := ⟨rfl, rfl, marks, h.marked, hdecl⟩
      rw [execute, execute, hdecl.name]
      refine h.currentFrame ?_
      refine h.bindSame (h.sound.makeFunction hmade) (h.newFunction hf) fun h _ hmade => ?_
      have hdefine := h.define decl.name.lexeme
      rw [hname] at hdefine
      exact h.bind (h.sound.defineHere _ hmade) (hdefine _) fun h _ _ _ => .pure h.toAlike rfl
    | ret keyword he =>
      cases he with
      | none => exact .pure h.toAlike rfl
      | some he =>
        rw [execute, execute]
        refine h.bindSame (evaluate_ends fuel _ h.sound) (evaluate_agrees fuel h he)
          fun h _ _ => ?_
        exact .pure h.toAlike rfl
    | @classDecl _ name _ _ methods methods' hname hsuper hm =>
      cases hsuper with
      | none =>
        rw [execute, execute]
        have hdefine := h.define name.lexeme .nil
        rw [hname] at hdefine
        refine h.bind (h.sound.defineHere name.lexeme Value.nil_made) hdefine
          fun h _ _ hbound => ?_
        refine h.currentFrame (h.declareClass hname hbound ⟨rfl, rfl, ?_⟩ nofun
          (methodTable_made h.sound.current methods))
        exact methodTable_alike h.marked hm
      | some hsuper =>
        rw [execute, execute]
        refine h.bindSame (evaluate_ends fuel _ h.sound) (evaluate_agrees fuel h hsuper)
          fun {_ _ _ v} h _ hmade => ?_
        cases v with
        | classRef above => exact h.declareSubclass hname hm hmade
        | _ => exact .fault h.toAlike (superclassToken_line hsuper name) _

theorem executeLoop_agrees : ∀ (fuel : Nat) {F : FrameMarks} {marks : Marks} {m m' : Machine}
    {condition condition' : Expr} {body body' : Stmt}, Here r F marks m m' →
      condition.Renamed r marks condition' → body.Renamed r marks body' →
        Agrees r F m Same (executeLoop fuel condition body m)
          (executeLoop fuel condition' body' m')
  | 0, _, _, _, _, _, _, _, _, _, _, _ => .outOfFuel
  | fuel + 1, _, _, m, m', _, _, _, _, h, hc, hb => by
    rw [executeLoop, executeLoop]
    refine h.bindSame (evaluate_ends fuel _ h.sound) (evaluate_agrees fuel h hc)
      fun h _ _ => ?_
    split
    · refine h.bindSame (execute_ends fuel _ h.sound) (execute_agrees fuel h hb)
        fun {_ _ _ flow} h _ _ => ?_
      cases flow with
      | next => exact executeLoop_agrees fuel h hc hb
      | returned value keyword => exact .pure h.toAlike rfl
    · exact .pure h.toAlike rfl

theorem executeAll_agrees : ∀ (fuel : Nat) {F : FrameMarks} {marks : Marks} {m m' : Machine}
    {ss ss' : List Stmt}, Here r F marks m m' → Stmt.AllRenamed r marks ss ss' →
      Agrees r F m Same (executeAll fuel ss m) (executeAll fuel ss' m')
  | 0, _, _, _, _, _, _, _, _ => .outOfFuel
  | fuel + 1, _, _, m, m', _, _, h, hs => by
    cases hs with
    | nil => exact .pure h.toAlike rfl
    | cons hs hss =>
      rw [executeAll, executeAll]
      refine h.bindSame (execute_ends fuel _ h.sound) (execute_agrees fuel h hs)
        fun {_ _ _ flow} h _ _ => ?_
      cases flow with
      | next => exact executeAll_agrees fuel h hss
      | returned value keyword => exact .pure h.toAlike rfl

end

theorem interpret_agrees {F : FrameMarks} {marks : Marks} {m m' : Machine}
    {program program' : List Stmt} (h : Here r F marks m m')
    (hp : Stmt.AllRenamed r marks program program') (fuel : Nat) :
    Agrees r F m Same (interpret fuel program m) (interpret fuel program' m') := by
  unfold interpret
  refine h.bindSame (executeAll_ends fuel program h.sound) (executeAll_agrees fuel h hp)
    fun {_ _ _ flow} h _ _ => ?_
  cases flow with
  | next => exact .pure h.toAlike rfl
  | returned value keyword => exact .fault h.toAlike rfl _

end Lox
