import Lox.Proofs.Lexical.Steps
import Lox.Proofs.Run.Chains

/-!
# Objects of the machine and the world

The operations on functions, classes and instances, and the lookups and output that depend on them,
run alike from states that agree.
-/

set_option autoImplicit false

namespace Lox.Lexical

variable {own : Option FrameId} {cells : Array Cell} {m : Machine} {w : World}

/-! ## Lookups -/

theorem Agree.findMethod? (h : Agree cells m w) (c : ClassId) (x : String) :
    Option.Rel (SameMethod cells m.frames) (m.findMethod? c x) (w.findMethod? c x) := by
  induction c using Nat.strongRecOn with
  | ind c ih =>
    rw [Machine.findMethod?, World.findMethod?]
    have hclass := h.classes c
    generalize m.classes[c]? = info at hclass ⊢
    generalize w.classes[c]? = info' at hclass ⊢
    cases hclass with
    | none => exact .none
    | @some info info' hclass =>
      have hmethod := hclass.methods x
      dsimp only
      rw [← hclass.superclass]
      generalize info.methods.get? x = f at hmethod ⊢
      generalize info'.methods.get? x = g at hmethod ⊢
      cases hmethod with
      | some hmethod => exact .some hmethod
      | none =>
        cases info.superclass with
        | none => exact .none
        | some above =>
          dsimp only
          by_cases hlt : above < c
          · rw [if_pos hlt, if_pos hlt]
            exact ih above hlt
          · rw [if_neg hlt, if_neg hlt]
            exact .none

theorem Agree.className (h : Agree cells m w) (c : ClassId) : m.className c = w.className c := by
  have hclass := h.classes c
  unfold Machine.className World.className
  generalize m.classes[c]? = info at hclass ⊢
  generalize w.classes[c]? = info' at hclass ⊢
  cases hclass with
  | none => rfl
  | some hclass => exact hclass.name

theorem SameObject.decl {fs : Frames Value} {f : Function} {g : Closure}
    (h : SameObject cells fs f g) : f.decl = g.decl := by
  obtain ⟨n, h, -⟩ := h
  exact h.decl

/-- A value is printed alike. -/
theorem Agree.pieces (h : Agree cells m w) (v : Value) : m.pieces v = w.pieces v := by
  cases v with
  | bool b => cases b <;> rfl
  | functionRef id =>
    have hf := h.functions id
    simp only [Machine.pieces, World.pieces]
    generalize m.functions[id]? = f at hf ⊢
    generalize w.functions[id]? = g at hf ⊢
    cases hf with
    | none => rfl
    | some hf =>
      simp only [Option.map_some]
      rw [hf.decl]
  | classRef c => simp only [Machine.pieces, World.pieces, h.className]
  | instanceRef i => simp only [Machine.pieces, World.pieces, h.className, h.instances]
  | _ => rfl

/-! ## New objects -/

theorem Agree.newFunction (h : Agree cells m w) {f : Function} {g : Closure}
    (hfg : SameObject cells m.frames f g) :
    Tracks own cells m Same (Eval.newFunction f m) (Lexical.newFunction g w) :=
  .ok ⟨{ h with functions := h.functions.push hfg }, .refl .., rfl⟩
    (congrArg Value.functionRef h.functions.size_eq)

theorem Agree.newClass (h : Agree cells m w) {c : Lox.Class} {d : Class}
    (hcd : SameClass cells m.frames c d) :
    Tracks own cells m Same (Eval.newClass c m) (Lexical.newClass d w) :=
  .ok ⟨{ h with classes := h.classes.push hcd }, .refl .., rfl⟩
    (congrArg Value.classRef h.classes.size_eq)

theorem Agree.newInstance (h : Agree cells m w) (c : ClassId) :
    Tracks own cells m (fun _ m' a b => a = b ∧ m'.classes = m.classes)
      (Eval.newInstance c m) (Lexical.newInstance c w) := by
  refine .ok ⟨{ h with instances := ?_ }, .refl .., rfl⟩ ⟨?_, rfl⟩
  · show m.instances.push _ = w.instances.push _
    rw [h.instances]
  · show Value.instanceRef m.instances.size = Value.instanceRef w.instances.size
    rw [h.instances]

theorem Agree.setField (h : Agree cells m w) (i : InstanceId) (name : String) (v : Value) :
    Tracks own cells m Same (Eval.setField i name v m) (Lexical.setField i name v w) := by
  refine .ok ⟨{ h with instances := ?_ }, .refl .., rfl⟩ rfl
  simp only [h.instances]

/-! ## Methods -/

theorem Agree.bindMethod (h : Agree cells m w) {f : Function} {g : Closure}
    (hfg : SameMethod cells m.frames f g) (this : Value) :
    Tracks own cells m (fun cells' m' f' g' => SameObject cells' m'.frames f' g' ∧ f'.decl = f.decl)
      (Eval.bindMethod f this m) (Lexical.bindMethod g this w) := by
  obtain ⟨n, hbody, hp⟩ := hfg.body
  have hsuper : ∀ v, ("super", v) ∈ [("this", this)] → ∃ c, v = .classRef c := by
    intro v hv
    simp at hv
  obtain ⟨cells', m', w', visible', hframe, hall, hr, hhere⟩ :=
    h.enter hp (by simp) hsuper
  have hmachine : Eval.bindMethod f this m = .ok { f with closure := m.frames.next } m' := by
    unfold Eval.bindMethod
    show Eval.bind _ _ m = _
    unfold Eval.bind
    rw [hframe]
    rfl
  have hworld : Lexical.bindMethod g this w = some (.ok { g with visible := visible' }, w') := by
    have hone : Lexical.allocate g.visible "this" this w = some (.ok visible', w') := hall
    unfold Lexical.bindMethod
    show Run.bind _ _ w = _
    unfold Run.bind
    rw [hone]
    rfl
  rw [hmachine, hworld]
  have hsame : SameFunction cells' m'.frames (["this"] :: n)
      { f with closure := m.frames.next } { g with visible := visible' } :=
    ⟨hfg.decl, hfg.init, hbody, hhere.places⟩
  refine .ok hr.weaken ⟨⟨_, hsame, fun _ => ?_⟩, rfl⟩
  simp [Nest.distance?_cons]

theorem Agree.boundMethod (h : Agree cells m w) (c : ClassId) (name : Token) (this : Value) :
    Tracks own cells m Same (Eval.boundMethod c name this m)
      (Lexical.boundMethod c name this w) := by
  have hmethod := h.findMethod? c name.lexeme
  unfold Eval.boundMethod Lexical.boundMethod
  generalize m.findMethod? c name.lexeme = f at hmethod ⊢
  generalize w.findMethod? c name.lexeme = g at hmethod ⊢
  cases hmethod with
  | none => exact .error (.refl h) rfl
  | some hfg => exact .bind (h.bindMethod hfg this) fun hr hobject => hr.agree.newFunction hobject.1

theorem Agree.getProperty (h : Agree cells m w) (i : InstanceId) (name : Token) :
    Tracks own cells m Same (Eval.getProperty i name m) (Lexical.getProperty i name w) := by
  unfold Eval.getProperty Lexical.getProperty
  rw [h.instances]
  cases w.instances[i]? with
  | none => exact .error (.refl h) rfl
  | some o =>
    dsimp only
    cases o.fields.get? name.lexeme with
    | some v => exact .ok (.refl h) rfl
    | none => exact h.boundMethod o.ofClass name (.instanceRef i)

theorem Here.superMethod {n : Nest} {visible : Names} (h : Here cells m w n visible) {d : Nat}
    (hsuper : n.distance? "super" = some (d + 1)) (hthis : n.distance? "this" = some d)
    (keyword method : Token) :
    Tracks own cells m Same (Eval.superMethod keyword method (some (d + 1)) m)
      (Lexical.superMethod visible keyword method w) := by
  obtain ⟨g, l, v, hg, hl, hc, hv, hs⟩ := h.bound hsuper
  obtain ⟨g', l', this, hg', hl', -, hv', hs'⟩ := h.bound hthis
  obtain ⟨c, hclass⟩ := h.agree.super hc
  rw [hs] at hclass
  cases hclass
  unfold Eval.superMethod Lexical.superMethod
  simp only [Frames.getAt_of_here? hg hv, Frames.getAt_of_here? hg' hv', hl, hl', hs, hs']
  exact h.agree.boundMethod c method this

/-- The instance of an initializer is in the frame around its body. -/
theorem Agree.boundInstance (h : Agree cells m w) {f : Function} {g : Closure}
    (hfg : SameObject cells m.frames f g) (hinit : f.isInitializer = true) :
    Tracks own cells m Same (Eval.boundInstance f m) (Lexical.boundInstance g w) := by
  obtain ⟨n, hfunction, hthis⟩ := hfg
  obtain ⟨frame, l, hframe, hl, hc⟩ := hfunction.places.reach (hthis hinit)
  obtain ⟨v, hv, hs⟩ := h.bound hc
  cases hframe
  refine .ok (.refl h) ?_
  simp only [Same, hv, hl, hs, Option.bind_some]

/-! ## Calls and output -/

/-- The parameters and arguments of a call have what a new frame needs. -/
theorem SameFunction.arguments {fs : Frames Value} {n : Nest} {f : Function} {g : Closure}
    {arguments : List Value} (h : SameFunction cells fs n f g)
    (hlength : arguments.length = f.decl.params.length) :
    (((f.decl.params.map (·.lexeme)).zip arguments).map (·.1)).Nodup ∧
      (∀ v, ("super", v) ∈ (f.decl.params.map (·.lexeme)).zip arguments → ∃ c, v = .classRef c) ∧
      Stmt.AllScoped true (((f.decl.params.map (·.lexeme)).zip arguments).map (·.1) :: n)
        f.decl.body := by
  obtain ⟨hparams, hnodup, hbody⟩ : (∀ p ∈ f.decl.params, p.IsName) ∧
      (f.decl.params.map (·.lexeme)).Nodup ∧
      Stmt.AllScoped true (f.decl.params.map (·.lexeme) :: n) f.decl.body := by
    have hbody := h.body
    cases hd : f.decl
    simpa only [hd, FunctionDecl.Scoped] using hbody
  have hnames : ((f.decl.params.map (·.lexeme)).zip arguments).map (·.1)
      = f.decl.params.map (·.lexeme) :=
    List.map_fst_zip (Nat.le_of_eq (by rw [List.length_map, hlength]))
  rw [hnames]
  refine ⟨hnodup, fun v hv => ?_, hbody⟩
  obtain ⟨p, hp, hlexeme⟩ := List.mem_map.1 (List.of_mem_zip hv).1
  exact absurd hlexeme (hparams p hp).2

/-- The same thing to call, which takes this number of arguments. -/
inductive SameCallable (cells : Array Cell) (m : Machine) :
    Nat → Eval.Callable → Callable → Prop
  | native (f : Native) : SameCallable cells m f.arity (.native f) (.native f)
  | function {f : Function} {g : Closure} (h : SameObject cells m.frames f g) :
      SameCallable cells m f.decl.params.length (.function f) (.closure g)
  | construct {arity : Nat} (c : ClassId)
      (h : ∀ f, m.findMethod? c initializerName = some f → arity = f.decl.params.length) :
      SameCallable cells m arity (.construct c) (.construct c)

theorem Agree.callable? (h : Agree cells m w) (v : Value) :
    Option.Rel (fun a b => SameCallable cells m a.2 a.1 b.1 ∧ a.2 = b.2)
      (Eval.callable? m v) (Lexical.callable? w v) := by
  cases v with
  | native f => exact .some ⟨.native f, rfl⟩
  | functionRef id =>
    have hf := h.functions id
    simp only [Eval.callable?, Lexical.callable?]
    generalize m.functions[id]? = f at hf ⊢
    generalize w.functions[id]? = g at hf ⊢
    cases hf with
    | none => exact .none
    | some hf => exact .some ⟨.function hf, by simp only [hf.decl]⟩
  | classRef c =>
    have hf := h.findMethod? c initializerName
    refine .some ⟨.construct c fun f hinit => ?_, ?_⟩
    · simp only [hinit, Option.map_some, Option.getD_some]
    · generalize m.findMethod? c initializerName = f at hf ⊢
      generalize w.findMethod? c initializerName = g at hf ⊢
      cases hf with
      | none => rfl
      | some hf => simp only [Option.map_some, hf.decl]
  | _ => exact .none

theorem Agree.checkCall (h : Agree cells m w) (callee : Value) (paren : Token) (count : Nat) :
    Tracks own cells m (fun cells' m' f g => SameCallable cells' m' count f g)
      (Eval.checkCall callee paren count m) (Lexical.checkCall callee paren count w) := by
  have hcallable := h.callable? callee
  unfold Eval.checkCall Lexical.checkCall
  generalize Eval.callable? m callee = f at hcallable ⊢
  generalize Lexical.callable? w callee = g at hcallable ⊢
  cases hcallable with
  | none => exact .error (.refl h) rfl
  | @some a b hab =>
    obtain ⟨f, arity⟩ := a
    obtain ⟨g, arity'⟩ := b
    obtain ⟨hfg, rfl⟩ := hab
    dsimp only
    by_cases hcount : count = arity
    · rw [if_pos hcount, if_pos hcount]
      exact .ok (.refl h) (hcount ▸ hfg)
    · rw [if_neg hcount, if_neg hcount]
      exact .error (.refl h) rfl

theorem Agree.callNative (h : Agree cells m w) (f : Native) :
    Tracks own cells m Same (Eval.callNative f m) (Lexical.callNative f w) := by
  cases f
  exact .ok ⟨{ h with clock := congrArg Clock.tick h.clock }, .refl .., rfl⟩
    (congrArg (fun clock : Clock => Value.number clock.next) h.clock)

theorem Agree.initializerOf (h : Agree cells m w) (c : ClassId) :
    Tracks own cells m
      (fun cells' m' f g => Option.Rel (SameMethod cells' m'.frames) f g ∧
        f = m.findMethod? c initializerName)
      (Eval.initializerOf c m) (Lexical.initializerOf c w) :=
  .ok (.refl h) ⟨h.findMethod? c initializerName, rfl⟩

theorem Agree.printLine (h : Agree cells m w) (keyword : Token) (v : Value) :
    Tracks own cells m Same (Eval.printLine keyword v m) (Lexical.printLine keyword v w) := by
  unfold Eval.printLine Lexical.printLine
  rw [h.pieces, h.output]
  obtain ⟨output, accepted⟩ := w.output.writeLine (w.pieces v)
  cases accepted with
  | true => exact .ok ⟨{ h with output := rfl }, .refl .., rfl⟩ rfl
  | false => exact .error ⟨{ h with output := rfl }, .refl .., rfl⟩ rfl

end Lox.Lexical
