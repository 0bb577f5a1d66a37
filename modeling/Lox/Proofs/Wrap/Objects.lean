import Lox.Proofs.Wrap.Steps

/-!
# Objects in a run with added frames

The operations on functions, classes and instances give the same values in both runs. Objects have
the same numbers in both; only closures differ, and `this` and `super` are found where the marks
say.
-/

set_option autoImplicit false

namespace Lox

variable {L R : Prop} {φ : FrameMap} {marks outer : Marks} {m m' : Machine}

/-! ## Declarations -/

namespace Function.Embeds

variable {fs fs' : Frames Value} {inner : Marks} {f f' : Function}

theorem name (h : Function.Embeds φ fs fs' inner f f') : f'.decl.name = f.decl.name := by
  obtain ⟨marks, -, hdecl⟩ := h.decl
  exact hdecl.name

theorem params (h : Function.Embeds φ fs fs' inner f f') : f'.decl.params = f.decl.params := by
  obtain ⟨marks, -, hdecl⟩ := h.decl
  exact hdecl.params

end Function.Embeds

private theorem insertMovedMethods {fs fs' : Frames Value} {closure closure' : FrameId}
    (hmade : closure < fs.next) (hclosure : closure' = φ closure)
    (halong : fs.Along φ fs' outer closure closure') :
    ∀ {methods methods' : List FunctionDecl} {b b' : Bindings Function},
      FunctionDecl.AllMoved (false :: outer) methods methods' →
        Lexical.Paired (Function.Embeds φ fs fs' [false]) b b' →
          Lexical.Paired (Function.Embeds φ fs fs' [false])
            ((methods.map fun d => (d.name.lexeme,
              (⟨d, closure, d.name.lexeme == initializerName⟩ : Function))).foldl
                (fun b e => b.insert e.1 e.2) b)
            ((methods'.map fun d => (d.name.lexeme,
              (⟨d, closure', d.name.lexeme == initializerName⟩ : Function))).foldl
                (fun b e => b.insert e.1 e.2) b')
  | _, _, _, _, .nil, hb => hb
  | _, _, _, _, .cons h hs, hb => by
    simp only [List.map_cons, List.foldl_cons, h.name]
    exact insertMovedMethods hmade hclosure halong hs
      (hb.insert _ ⟨hmade, hclosure, rfl, outer, halong, h⟩)

/-- The methods of a class that is declared in a frame and in the one in its place. -/
theorem methodTable_embeds {fs fs' : Frames Value} {closure closure' : FrameId}
    (hmade : closure < fs.next) (hclosure : closure' = φ closure)
    (halong : fs.Along φ fs' outer closure closure') {methods methods' : List FunctionDecl}
    (h : FunctionDecl.AllMoved (false :: outer) methods methods') :
    Lexical.Paired (Function.Embeds φ fs fs' [false]) (methodTable closure methods)
      (methodTable closure' methods') :=
  insertMovedMethods hmade hclosure halong h .empty

namespace Machine.EmbedsAt

/-! ## New objects -/

theorem newFunction (h : m.EmbedsAt φ marks m') {f f' : Function}
    (hf : Function.Embeds φ m.frames m'.frames [] f f') :
    Corresponds L R φ m m' SameBoth (Eval.newFunction f m) (Eval.newFunction f' m') := by
  refine .ok ⟨.refl .., rfl, rfl⟩ { h.toEmbeds with functions := h.functions.push hf } ?_
  rw [h.functions.size]
  rfl

theorem newClass (h : m.EmbedsAt φ marks m') {c c' : Class}
    (hc : c.Parallel (Function.Embeds φ m.frames m'.frames [false]) c') :
    Corresponds L R φ m m' SameBoth (Eval.newClass c m) (Eval.newClass c' m') := by
  refine .ok ⟨.refl .., rfl, rfl⟩ { h.toEmbeds with classes := h.classes.push hc } ?_
  rw [h.classes.size]
  rfl

/-- A class is made and bound to its name, which is bound already. -/
theorem declareClass (h : m.EmbedsAt φ marks m') (hinner : marks.place 0 = 0) {name : Token}
    (hbound : (m.frames.here? m.current name.lexeme).isSome) {c c' : Class}
    (hc : c.Parallel (Function.Embeds φ m.frames m'.frames [false]) c') :
    Corresponds L R φ m m' SameBoth
      ((Eval.newClass c >>= fun v => Eval.assignVisible name v >>= fun _ => pure Flow.next) m)
      ((Eval.newClass c' >>= fun v => Eval.assignVisible name v >>= fun _ => pure Flow.next)
        m') := by
  refine h.bind (h.newClass hc) fun h hadv heq => ?_
  subst heq
  have hbound' := hadv.frames.left.still hbound
  rw [← hadv.current] at hbound'
  exact h.bindSame (h.assignVisible hinner hbound' _) fun h => .pure h.toEmbeds rfl

theorem newInstance (h : m.EmbedsAt φ marks m') (c : ClassId) :
    Corresponds L R φ m m' SameBoth (Eval.newInstance c m) (Eval.newInstance c m') := by
  unfold Eval.newInstance
  rw [h.instances]
  exact .ok ⟨.refl .., rfl, rfl⟩ { h.toEmbeds with instances := rfl } rfl

theorem setField (h : m.EmbedsAt φ marks m') (i : InstanceId) (name : String) (v : Value) :
    Corresponds L R φ m m' SameBoth (Eval.setField i name v m) (Eval.setField i name v m') := by
  unfold Eval.setField
  rw [h.instances]
  exact .ok ⟨.refl .., rfl, rfl⟩ { h.toEmbeds with instances := rfl } rfl

theorem bindMethod (h : m.EmbedsAt φ marks m') {f f' : Function}
    (hf : Function.Embeds φ m.frames m'.frames [false] f f') (this : Value) :
    Corresponds L R φ m m'
      (fun φ₁ m₁ m₁' g g' => Function.Embeds φ₁ m₁.frames m₁'.frames [] g g')
      (Eval.bindMethod f this m) (Eval.bindMethod f' this m') := by
  obtain ⟨outer, halong, hdecl⟩ := hf.decl
  unfold Eval.bindMethod
  refine h.bind (h.newFrame hf.made (hf.made' h.frames) halong _) fun h _ hmade => ?_
  obtain ⟨hg, rfl, halong⟩ := hmade
  exact .pure h.toEmbeds ⟨hg, rfl, hf.isInitializer, false :: outer, halong, hdecl⟩

theorem boundMethod (h : m.EmbedsAt φ marks m') (c : ClassId) (name : Token) (this : Value) :
    Corresponds L R φ m m' SameBoth (Eval.boundMethod c name this m)
      (Eval.boundMethod c name this m') := by
  have hmethod := h.findMethod? c name.lexeme
  unfold Eval.boundMethod
  generalize m.findMethod? c name.lexeme = f at hmethod ⊢
  generalize m'.findMethod? c name.lexeme = f' at hmethod ⊢
  cases hmethod with
  | none => exact .stop h.toEmbeds _
  | some hf => exact h.bind (h.bindMethod hf this) fun h _ hbound => h.newFunction hbound

/-! ## Properties -/

theorem getProperty (h : m.EmbedsAt φ marks m') (i : InstanceId) (name : Token) :
    Corresponds L R φ m m' SameBoth (Eval.getProperty i name m) (Eval.getProperty i name m') := by
  unfold Eval.getProperty
  rw [h.instances]
  cases m.instances[i]? with
  | none => exact .stop h.toEmbeds _
  | some o =>
    dsimp only
    cases o.fields.get? name.lexeme with
    | some v => exact .ok (.refl φ m m') h.toEmbeds rfl
    | none => exact h.boundMethod o.ofClass name _

/-- No frame is added between those of `this` and `super`. -/
theorem superMethod (h : m.EmbedsAt φ marks m') (keyword method : Token) {depth : Option Nat}
    (hjoined : ∀ d, depth = some d → marks.Joined d) :
    Corresponds L R φ m m' SameBoth (Eval.superMethod keyword method depth m)
      (Eval.superMethod keyword method (depth.map marks.place) m') := by
  have hread := h.along.getAt h.frames h.current
  unfold Eval.superMethod
  cases depth with
  | none => exact .stop h.toEmbeds _
  | some d =>
    dsimp only [Option.map_some]
    rw [hread]
    cases m.frames.getAt m.current d "super" with
    | error e => exact .stop h.toEmbeds _
    | ok v =>
      cases v with
      | classRef c =>
        have hd := hjoined d rfl
        cases d with
        | zero =>
          rw [Marks.Joined] at hd
          rw [hd]
          exact .stop h.toEmbeds _
        | succ closer =>
          rw [Marks.Joined] at hd
          rw [hd]
          dsimp only
          rw [hread]
          cases m.frames.getAt m.current closer "this" with
          | error e => exact .stop h.toEmbeds _
          | ok this => exact h.boundMethod c method this
      | _ => exact .stop h.toEmbeds _

/-! ## Calls and output -/

theorem checkCall (h : m.EmbedsAt φ marks m') (callee : Value) (paren : Token) (count : Nat) :
    Corresponds L R φ m m'
      (fun φ₁ m₁ m₁' f f' => f.Parallel (Function.Embeds φ₁ m₁.frames m₁'.frames []) f')
      (Eval.checkCall callee paren count m) (Eval.checkCall callee paren count m') := by
  have hcallable := h.callable? (fun hf => congrArg List.length hf.params)
    (fun hf => congrArg List.length hf.params) callee
  unfold Eval.checkCall
  generalize Eval.callable? m callee = f at hcallable ⊢
  generalize Eval.callable? m' callee = f' at hcallable ⊢
  cases hcallable with
  | none => exact .stop h.toEmbeds _
  | @some f f' hf =>
    obtain ⟨f, arity⟩ := f
    obtain ⟨f', arity'⟩ := f'
    obtain ⟨hf, rfl⟩ := hf
    dsimp only
    by_cases hcount : count = arity'
    · rw [if_pos hcount, if_pos hcount]
      exact .ok (.refl φ m m') h.toEmbeds hf
    · rw [if_neg hcount, if_neg hcount]
      exact .stop h.toEmbeds _

theorem callNative (h : m.EmbedsAt φ marks m') (f : Native) :
    Corresponds L R φ m m' SameBoth (Eval.callNative f m) (Eval.callNative f m') := by
  cases f with
  | clock =>
    refine .ok ⟨.refl .., rfl, rfl⟩ { h.toEmbeds with clock := ?_ } ?_
    · exact congrArg Clock.tick h.clock
    · exact congrArg (fun clock : Clock => Value.number clock.next) h.clock

theorem initializerOf (h : m.EmbedsAt φ marks m') (c : ClassId) :
    Corresponds L R φ m m'
      (fun φ₁ m₁ m₁' => Option.Rel (Function.Embeds φ₁ m₁.frames m₁'.frames [false]))
      (Eval.initializerOf c m) (Eval.initializerOf c m') :=
  .ok (.refl φ m m') h.toEmbeds (h.findMethod? c initializerName)

theorem boundInstance (h : m.EmbedsAt φ marks m') {f f' : Function}
    (hf : Function.Embeds φ m.frames m'.frames [] f f') :
    Corresponds L R φ m m' SameBoth (Eval.boundInstance f m) (Eval.boundInstance f' m') := by
  unfold Eval.boundInstance
  rw [hf.closure, h.frames.here _ hf.made]
  exact .ok (.refl φ m m') h.toEmbeds rfl

theorem printLine (h : m.EmbedsAt φ marks m') (keyword : Token) (v : Value) :
    Corresponds L R φ m m' SameBoth (Eval.printLine keyword v m)
      (Eval.printLine keyword v m') := by
  unfold Eval.printLine
  rw [h.output, h.pieces Function.Embeds.name]
  rcases m.output.writeLine (m.pieces v) with ⟨output, accepted⟩
  cases accepted with
  | true => exact .ok ⟨.refl .., rfl, rfl⟩ { h.toEmbeds with output := rfl } rfl
  | false => exact .error (fun _ => rfl) rfl

end Machine.EmbedsAt
end Lox
