import Lox.Proofs.Rename.Steps
import Lox.Proofs.Run.Tables

/-!
# Objects in a renamed run

The operations on functions, classes and instances give the same values in both runs. Methods are
found under their own names, which are not renamed; the frame of a bound method is not marked, since
it holds nothing but `this`.
-/

set_option autoImplicit false

namespace Lox

variable {r : Renaming} {F : FrameMarks} {marks outer : Marks} {m m' : Machine}

/-! ## Tables -/

theorem Function.Alike.name {fs : Frames Value} {inner : Marks} {f f' : Function}
    (h : Function.Alike r F fs inner f f') : f'.decl.name = f.decl.name := by
  obtain ⟨marks, -, hdecl⟩ := h.decl
  exact hdecl.name

theorem Function.Alike.length_params {fs : Frames Value} {inner : Marks} {f f' : Function}
    (h : Function.Alike r F fs inner f f') : f'.decl.params.length = f.decl.params.length := by
  obtain ⟨marks, -, hdecl⟩ := h.decl
  exact hdecl.length_params

namespace Machine.Alike

theorem parallel (h : m.Alike r F m') :
    m.Parallel (Function.Alike r F m.frames []) (Function.Alike r F m.frames [false]) m' where
  functions := h.functions
  classes := h.classes.mono fun _ hc => ⟨hc.name, hc.superclass, hc.methods⟩
  instances := h.instances

theorem findMethod? (h : m.Alike r F m') (c : ClassId) (name : String) :
    Option.Rel (Function.Alike r F m.frames [false]) (m.findMethod? c name)
      (m'.findMethod? c name) :=
  h.parallel.findMethod? c name

theorem pieces (h : m.Alike r F m') (v : Value) : m'.pieces v = m.pieces v :=
  h.parallel.pieces Function.Alike.name v

end Machine.Alike

private theorem insertMethods {fs : Frames Value} {closure : FrameId}
    (hmarked : fs.Marked F closure outer) : ∀ {methods methods' : List FunctionDecl}
    {b b' : Bindings Function}, FunctionDecl.AllRenamed r (false :: outer) methods methods' →
      Lexical.Paired (Function.Alike r F fs [false]) b b' →
        Lexical.Paired (Function.Alike r F fs [false])
          ((methods.map fun d => (d.name.lexeme,
            (⟨d, closure, d.name.lexeme == initializerName⟩ : Function))).foldl
              (fun b e => b.insert e.1 e.2) b)
          ((methods'.map fun d => (d.name.lexeme,
            (⟨d, closure, d.name.lexeme == initializerName⟩ : Function))).foldl
              (fun b e => b.insert e.1 e.2) b')
  | _, _, _, _, .nil, hb => hb
  | _, _, _, _, .cons h hs, hb => by
    simp only [List.map_cons, List.foldl_cons, h.name]
    exact insertMethods hmarked hs (hb.insert _ ⟨rfl, rfl, outer, hmarked, h⟩)

/-- The methods of a class that is declared in frames with these marks. -/
theorem methodTable_alike {fs : Frames Value} {closure : FrameId}
    (hmarked : fs.Marked F closure outer) {methods methods' : List FunctionDecl}
    (h : FunctionDecl.AllRenamed r (false :: outer) methods methods') :
    Lexical.Paired (Function.Alike r F fs [false]) (methodTable closure methods)
      (methodTable closure methods') :=
  insertMethods hmarked h .empty

namespace Here

/-! ## New objects -/

theorem newFunction (h : Here r F marks m m') {f f' : Function}
    (hf : Function.Alike r F m.frames [] f f') :
    Agrees r F m Same (Eval.newFunction f m) (Eval.newFunction f' m') := by
  refine .ok (fun _ _ => rfl) { h.toAlike with functions := h.functions.push hf } ?_
  rw [h.functions.size]
  rfl

theorem newClass (h : Here r F marks m m') {c c' : Class} (hc : Class.Alike r F m.frames c c') :
    Agrees r F m Same (Eval.newClass c m) (Eval.newClass c' m') := by
  refine .ok (fun _ _ => rfl) { h.toAlike with classes := h.classes.push hc } ?_
  rw [h.classes.size]
  rfl

/-- A class is made and bound to its name, which is bound already and is not renamed. -/
theorem declareClass (h : Here r F marks m m') {name : Token}
    (hname : r.called (marks.mark 0) name.lexeme = name.lexeme)
    (hbound : (m.frames.here? m.current name.lexeme).isSome) {c c' : Class}
    (hc : Class.Alike r F m.frames c c')
    (hs : ∀ above, c.superclass = some above → above < m.classes.size)
    (hm : ∀ x f, c.methods.get? x = some f → f.Made m) :
    Agrees r F m Same
      ((Eval.newClass c >>= fun v => Eval.assignVisible name v >>= fun _ => pure Flow.next) m)
      ((Eval.newClass c' >>= fun v => Eval.assignVisible name v >>= fun _ => pure Flow.next)
        m') := by
  refine h.bindSame (h.sound.makeClass hs hm) (h.newClass hc) fun hhere hlater hmade => ?_
  have hbound' := hlater.still hbound
  rw [← hlater.current] at hbound'
  exact hhere.bind (hhere.sound.assignVisible name hmade) (hhere.assignVisible hname hbound' _)
    fun hhere _ _ _ => .pure hhere.toAlike rfl

theorem newInstance (h : Here r F marks m m') (c : ClassId) :
    Agrees r F m Same (Eval.newInstance c m) (Eval.newInstance c m') := by
  unfold Eval.newInstance
  rw [h.instances]
  exact .ok (fun _ _ => rfl) { h.toAlike with instances := rfl } rfl

theorem setField (h : Here r F marks m m') (i : InstanceId) (name : String) (v : Value) :
    Agrees r F m Same (Eval.setField i name v m) (Eval.setField i name v m') := by
  unfold Eval.setField
  rw [h.instances]
  exact .ok (fun _ _ => rfl) { h.toAlike with instances := rfl } rfl

theorem bindMethod (h : Here r F marks m m') {f f' : Function}
    (hf : Function.Alike r F m.frames [false] f f') (hmade : f.Made m) {this : Value}
    (hthis : this.Made m) :
    Agrees r F m (fun F' m₁ g g' => Function.Alike r F' m₁.frames [] g g')
      (Eval.bindMethod f this m) (Eval.bindMethod f' this m') := by
  obtain ⟨outer, hmarked, hdecl⟩ := hf.decl
  have hbinding : ∀ e ∈ [("this", this)], e.2.Made m := by
    intro e he
    rwa [List.mem_singleton.1 he]
  have hframe := h.newFrame hmade hmarked false hbinding
  unfold Eval.bindMethod
  rw [hf.closure]
  refine h.bind (h.sound.newFrame hmade hbinding) hframe fun hhere _ _ hR => ?_
  obtain ⟨rfl, hmarked⟩ := hR
  exact .pure hhere.toAlike ⟨rfl, hf.isInitializer, _, hmarked, hdecl⟩

theorem boundMethod (h : Here r F marks m m') (c : ClassId) (name : Token) {this : Value}
    (hthis : this.Made m) :
    Agrees r F m Same (Eval.boundMethod c name this m) (Eval.boundMethod c name this m') := by
  have hmethod := h.findMethod? c name.lexeme
  unfold Eval.boundMethod
  cases hf : m.findMethod? c name.lexeme with
  | none =>
    rw [hf] at hmethod
    generalize m'.findMethod? c name.lexeme = f' at hmethod ⊢
    cases hmethod
    exact .stop h.toAlike
  | some f =>
    have hmade := h.sound.findMethod_made hf
    rw [hf] at hmethod
    generalize m'.findMethod? c name.lexeme = f' at hmethod ⊢
    cases hmethod with
    | some hmethod =>
      refine h.bind (h.sound.bindMethod hmade hthis) (h.bindMethod hmethod hmade hthis)
        fun hhere _ _ hbound => ?_
      exact hhere.newFunction hbound

/-! ## Properties -/

theorem getProperty (h : Here r F marks m m') {i : InstanceId} (hi : i < m.instances.size)
    (name : Token) :
    Agrees r F m Same (Eval.getProperty i name m) (Eval.getProperty i name m') := by
  unfold Eval.getProperty
  rw [h.instances]
  cases m.instances[i]? with
  | none => exact .stop h.toAlike
  | some o =>
    dsimp only
    cases o.fields.get? name.lexeme with
    | some v => exact .ok (fun _ _ => rfl) h.toAlike rfl
    | none => exact h.boundMethod o.ofClass name hi

/-- The frames of `super` and `this` bind these names whether they are marked or not. -/
theorem superMethod (h : Here r F marks m m') (keyword method : Token) (depth : Option Nat) :
    Agrees r F m Same (Eval.superMethod keyword method depth m)
      (Eval.superMethod keyword method depth m') := by
  have hsuper : ∀ d, m'.frames.getAt m'.current d "super" = m.frames.getAt m.current d "super" :=
    fun d => by rw [← h.getAt d "super", Renaming.called_super]
  have hthis : ∀ d, m'.frames.getAt m'.current d "this" = m.frames.getAt m.current d "this" :=
    fun d => by rw [← h.getAt d "this", Renaming.called_this]
  unfold Eval.superMethod
  cases depth with
  | none => exact .stop h.toAlike
  | some d =>
    dsimp only
    rw [hsuper]
    cases hc : m.frames.getAt m.current d "super" with
    | error e => exact .stop h.toAlike
    | ok v =>
      cases v with
      | classRef c =>
        cases d with
        | zero => exact .stop h.toAlike
        | succ closer =>
          dsimp only
          rw [hthis]
          cases ht : m.frames.getAt m.current closer "this" with
          | error e => exact .stop h.toAlike
          | ok this => exact h.boundMethod c method (h.sound.getAt_made ht)
      | _ => exact .stop h.toAlike

/-! ## Calls and output -/

end Here

/-- What is called, with renamed declarations. -/
inductive Eval.Callable.Alike (r : Renaming) (F : FrameMarks) (m : Machine) :
    Eval.Callable → Eval.Callable → Prop
  | native (f : Native) : Eval.Callable.Alike r F m (.native f) (.native f)
  | function {f f' : Function} (h : Function.Alike r F m.frames [] f f') :
      Eval.Callable.Alike r F m (.function f) (.function f')
  | construct (c : ClassId) : Eval.Callable.Alike r F m (.construct c) (.construct c)

theorem Eval.Callable.Parallel.alike {f f' : Eval.Callable}
    (h : f.Parallel (Function.Alike r F m.frames []) f') : f.Alike r F m f' := by
  cases h with
  | native f => exact .native f
  | function hf => exact .function hf
  | construct c => exact .construct c

theorem Machine.Alike.callable? (h : m.Alike r F m') (v : Value) :
    Option.Rel (fun f f' => f.1.Alike r F m f'.1 ∧ f'.2 = f.2) (Eval.callable? m v)
      (Eval.callable? m' v) := by
  have hcallable := h.parallel.callable? Function.Alike.length_params
    Function.Alike.length_params v
  generalize Eval.callable? m v = f at hcallable ⊢
  generalize Eval.callable? m' v = f' at hcallable ⊢
  cases hcallable with
  | none => exact .none
  | some hf => exact .some ⟨hf.1.alike, hf.2⟩

namespace Here

theorem checkCall (h : Here r F marks m m') (callee : Value) (paren : Token) (count : Nat) :
    Agrees r F m (fun F' m₁ f f' => f.Alike r F' m₁ f') (Eval.checkCall callee paren count m)
      (Eval.checkCall callee paren count m') := by
  have hcallable := h.callable? callee
  unfold Eval.checkCall
  generalize Eval.callable? m callee = f at hcallable ⊢
  generalize Eval.callable? m' callee = f' at hcallable ⊢
  cases hcallable with
  | none => exact .stop h.toAlike
  | @some f f' hf =>
    obtain ⟨f, arity⟩ := f
    obtain ⟨f', arity'⟩ := f'
    obtain ⟨hf, rfl⟩ := hf
    dsimp only
    by_cases hcount : count = arity'
    · rw [if_pos hcount, if_pos hcount]
      exact .ok (fun _ _ => rfl) h.toAlike hf
    · rw [if_neg hcount, if_neg hcount]
      exact .stop h.toAlike

theorem callNative (h : Here r F marks m m') (f : Native) :
    Agrees r F m Same (Eval.callNative f m) (Eval.callNative f m') := by
  cases f with
  | clock =>
    refine .ok (fun _ _ => rfl) { h.toAlike with clock := ?_ } ?_
    · exact congrArg Clock.tick h.clock
    · exact congrArg (fun clock : Clock => Value.number clock.next) h.clock

theorem initializerOf (h : Here r F marks m m') (c : ClassId) :
    Agrees r F m (fun F' m₁ => Option.Rel (Function.Alike r F' m₁.frames [false]))
      (Eval.initializerOf c m) (Eval.initializerOf c m') :=
  .ok (fun _ _ => rfl) h.toAlike (h.findMethod? c initializerName)

theorem boundInstance (h : Here r F marks m m') {f f' : Function}
    (hclosure : f'.closure = f.closure) :
    Agrees r F m Same (Eval.boundInstance f m) (Eval.boundInstance f' m') := by
  have hthis := h.frames.here f.closure "this"
  rw [Renaming.called_this] at hthis
  unfold Eval.boundInstance
  rw [hclosure, hthis]
  exact .ok (fun _ _ => rfl) h.toAlike rfl

theorem printLine (h : Here r F marks m m') (keyword : Token) (v : Value) :
    Agrees r F m Same (Eval.printLine keyword v m) (Eval.printLine keyword v m') := by
  unfold Eval.printLine
  rw [h.output, h.pieces]
  rcases m.output.writeLine (m.pieces v) with ⟨output, accepted⟩
  cases accepted with
  | true => exact .ok (fun _ _ => rfl) { h.toAlike with output := rfl } rfl
  | false => exact .error ⟨rfl, .same _⟩ { h.toAlike with output := rfl }

end Here
end Lox
