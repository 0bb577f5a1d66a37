import Lox.Proofs.Lines.Relabel
import Lox.Run.Eval

/-!
# Machines on other lines

A map on line numbers acts on the functions that a machine holds. Running a program on other lines
on the machine with those lines does the same and leaves the same machine with those lines, and an
error is on its line's image (`interpret_relabel`). So nothing depends on lines, and a run can carry
more in its line numbers than lines.
-/

set_option autoImplicit false

namespace Lox

/-! ## The action -/

section Action

variable (ρ σ : Nat → Nat)

/-- The function with other lines. -/
def Function.relabel (f : Function) : Function :=
  { f with decl := f.decl.relabel ρ }

/-- The class with other lines. -/
def Class.relabel (c : Class) : Class :=
  { c with methods := c.methods.map (Function.relabel ρ) }

/-- The machine with other lines in its functions. -/
def Machine.relabel (m : Machine) : Machine :=
  { m with
    functions := m.functions.map (Function.relabel ρ)
    classes := m.classes.map (Class.relabel ρ) }

/-- The end of a statement, on another line. -/
def Flow.relabel : Flow → Flow
  | .next => .next
  | .returned value keyword => .returned value (keyword.relabel ρ)

/-- What is called, with other lines. -/
def Eval.Callable.relabel : Eval.Callable → Eval.Callable
  | .native f => .native f
  | .function f => .function (f.relabel ρ)
  | .construct c => .construct c

/-- The result with other lines, whose value is changed by `g`. -/
def Result.relabel {α β : Type} (g : α → β) : Result α → Result β
  | .ok a m => .ok (g a) (m.relabel ρ)
  | .error e m => .error (e.relabel ρ) (m.relabel ρ)
  | .outOfFuel => .outOfFuel

/-- The second run does on other lines what the first does. -/
def Eval.Relabels {α β : Type} (g : α → β) (x : Eval α) (y : Eval β) : Prop :=
  ∀ m : Machine, y (m.relabel ρ) = (x m).relabel ρ g

theorem Function.relabel_relabel (f : Function) :
    (f.relabel ρ).relabel σ = f.relabel (σ ∘ ρ) := by
  simp [Function.relabel, FunctionDecl.relabel_relabel]

theorem Class.relabel_relabel (c : Class) : (c.relabel ρ).relabel σ = c.relabel (σ ∘ ρ) := by
  have hf : Function.relabel σ ∘ Function.relabel ρ = Function.relabel (σ ∘ ρ) :=
    funext fun f => f.relabel_relabel ρ σ
  simp [Class.relabel, Bindings.map_map, hf]

theorem Machine.relabel_relabel (m : Machine) :
    (m.relabel ρ).relabel σ = m.relabel (σ ∘ ρ) := by
  have hf : Function.relabel σ ∘ Function.relabel ρ = Function.relabel (σ ∘ ρ) :=
    funext fun f => f.relabel_relabel ρ σ
  have hc : Class.relabel σ ∘ Class.relabel ρ = Class.relabel (σ ∘ ρ) :=
    funext fun c => c.relabel_relabel ρ σ
  simp [Machine.relabel, hf, hc]

theorem Machine.relabel_id (m : Machine) : m.relabel id = m := by
  have hf : Function.relabel id = id := funext fun f => by
    simp [Function.relabel, FunctionDecl.relabel_id]
  have hc : Class.relabel id = id := funext fun c => by
    simp [Class.relabel, hf, Bindings.map_id]
  simp [Machine.relabel, hf, hc]

end Action

variable {ρ : Nat → Nat}

namespace Eval.Relabels

variable {α β α' β' : Type} {g : α → α'} {h : β → β'}

theorem pure (g : α → α') (a : α) : Relabels ρ g (pure a) (pure (g a)) :=
  fun _ => rfl

theorem bind {x : Eval α} {y : Eval α'} {f : α → Eval β} {f' : α' → Eval β'}
    (hx : Relabels ρ g x y) (hf : ∀ a, Relabels ρ h (f a) (f' (g a))) :
    Relabels ρ h (x >>= f) (y >>= f') := by
  intro m
  show Eval.bind y f' (m.relabel ρ) = (Eval.bind x f m).relabel ρ h
  unfold Eval.bind
  rw [hx m]
  cases x m with
  | ok a m => exact hf a m
  | error e m => rfl
  | outOfFuel => rfl

theorem outOfFuel : Relabels ρ g Eval.outOfFuel Eval.outOfFuel :=
  fun _ => rfl

theorem fault (token : Token) (cause : RuntimeCause) :
    Relabels ρ g (Eval.fault token cause) (Eval.fault (token.relabel ρ) cause) :=
  fun _ => rfl

theorem within (f : FrameId) {x : Eval α} {y : Eval α'} (hx : Relabels ρ g x y) :
    Relabels ρ g (Eval.within f x) (Eval.within f y) := by
  intro m
  have hrun := hx { m with current := f }
  unfold Eval.within
  dsimp only
  rw [show ({ m.relabel ρ with current := f } : Machine) = ({ m with current := f }).relabel ρ
    from rfl, hrun]
  cases x { m with current := f } <;> rfl

end Eval.Relabels

/-! ## Operations -/

namespace Eval.Relabels

theorem readVariable (name : Token) (depth : Option Nat) :
    Relabels ρ id (Eval.readVariable name depth) (Eval.readVariable (name.relabel ρ) depth) := by
  intro m
  show Eval.readVariable (name.relabel ρ) depth (m.relabel ρ) = _
  unfold Eval.readVariable
  cases depth with
  | none =>
    simp only [Machine.relabel, Token.relabel_lexeme]
    cases m.frames.get? Machine.globalFrame name.lexeme <;> rfl
  | some distance =>
    simp only [Machine.relabel, Token.relabel_lexeme]
    cases m.frames.getAt m.current distance name.lexeme <;> rfl

theorem writeVariable (name : Token) (depth : Option Nat) (value : Value) :
    Relabels ρ id (Eval.writeVariable name depth value)
      (Eval.writeVariable (name.relabel ρ) depth value) := by
  intro m
  unfold Eval.writeVariable
  cases depth with
  | none =>
    simp only [Machine.relabel, Token.relabel_lexeme]
    cases m.frames.assign? Machine.globalFrame name.lexeme value <;> rfl
  | some distance =>
    simp only [Machine.relabel, Token.relabel_lexeme]
    cases m.frames.assignAt m.current distance name.lexeme value <;> rfl

theorem assignVisible (name : Token) (value : Value) :
    Relabels ρ id (Eval.assignVisible name value)
      (Eval.assignVisible (name.relabel ρ) value) := by
  intro m
  unfold Eval.assignVisible
  simp only [Machine.relabel, Token.relabel_lexeme]
  cases m.frames.assign? m.current name.lexeme value <;> rfl

theorem define (name : String) (value : Value) :
    Relabels ρ id (Eval.define name value) (Eval.define name value) :=
  fun _ => rfl

theorem currentFrame : Relabels ρ id Eval.currentFrame Eval.currentFrame :=
  fun _ => rfl

theorem newFrame (enclosing : FrameId) (bindings : List (String × Value)) :
    Relabels ρ id (Eval.newFrame enclosing bindings) (Eval.newFrame enclosing bindings) :=
  fun _ => rfl

theorem newFunction (f : Function) :
    Relabels ρ id (Eval.newFunction f) (Eval.newFunction (f.relabel ρ)) := by
  intro m
  simp [Eval.newFunction, Result.relabel, Machine.relabel]

theorem newClass (c : Class) :
    Relabels ρ id (Eval.newClass c) (Eval.newClass (c.relabel ρ)) := by
  intro m
  simp [Eval.newClass, Result.relabel, Machine.relabel]

theorem newInstance (c : ClassId) :
    Relabels ρ id (Eval.newInstance c) (Eval.newInstance c) :=
  fun _ => rfl

theorem bindMethod (method : Function) (this : Value) :
    Relabels ρ (Function.relabel ρ) (Eval.bindMethod method this)
      (Eval.bindMethod (method.relabel ρ) this) :=
  (newFrame method.closure [("this", this)]).bind fun closure =>
    pure (Function.relabel ρ) { method with closure }

theorem setField (i : InstanceId) (name : String) (value : Value) :
    Relabels ρ id (Eval.setField i name value) (Eval.setField i name value) :=
  fun _ => rfl

end Eval.Relabels

theorem Machine.findMethod?_relabel (m : Machine) (c : ClassId) (name : String) :
    (m.relabel ρ).findMethod? c name = (m.findMethod? c name).map (Function.relabel ρ) := by
  induction c using Nat.strongRecOn with
  | ind c ih =>
    have hclass : (m.relabel ρ).classes[c]? = m.classes[c]?.map (Class.relabel ρ) := by
      simp [Machine.relabel]
    rw [Machine.findMethod?, Machine.findMethod?, hclass]
    cases m.classes[c]? with
    | none => rfl
    | some info =>
      simp only [Option.map_some, Class.relabel, Bindings.get?_map]
      cases info.methods.get? name with
      | some f => rfl
      | none =>
        simp only [Option.map_none]
        cases info.superclass with
        | none => rfl
        | some above =>
          dsimp only
          by_cases hlt : above < c
          · rw [if_pos hlt, if_pos hlt, ih above hlt]
          · rw [if_neg hlt, if_neg hlt]
            rfl

theorem Machine.className_relabel (m : Machine) (c : ClassId) :
    (m.relabel ρ).className c = m.className c := by
  simp only [Machine.className, Machine.relabel, Array.getElem?_map, Option.map_map]
  rfl

theorem Machine.pieces_relabel (m : Machine) (v : Value) :
    (m.relabel ρ).pieces v = m.pieces v := by
  cases v with
  | bool b => cases b <;> rfl
  | functionRef f =>
    simp only [Machine.pieces, Machine.relabel, Array.getElem?_map, Option.map_map,
      Function.comp_def, Function.relabel, FunctionDecl.relabel_name, Token.relabel_lexeme]
  | classRef c => exact congrArg (fun s => [s]) (m.className_relabel c)
  | instanceRef i =>
    simp only [Machine.pieces, m.className_relabel]
    rfl
  | _ => rfl

namespace Eval.Relabels

theorem boundMethod (c : ClassId) (name : Token) (this : Value) :
    Relabels ρ id (Eval.boundMethod c name this) (Eval.boundMethod c (name.relabel ρ) this) := by
  intro m
  unfold Eval.boundMethod
  simp only [m.findMethod?_relabel, Token.relabel_lexeme]
  cases m.findMethod? c name.lexeme with
  | none => rfl
  | some method => exact (bindMethod method this).bind (fun f => newFunction f) m

theorem getProperty (i : InstanceId) (name : Token) :
    Relabels ρ id (Eval.getProperty i name) (Eval.getProperty i (name.relabel ρ)) := by
  intro m
  unfold Eval.getProperty
  rw [show (m.relabel ρ).instances = m.instances from rfl, Token.relabel_lexeme]
  cases m.instances[i]? with
  | none => rfl
  | some o =>
    dsimp only
    cases o.fields.get? name.lexeme with
    | some v => rfl
    | none => exact boundMethod o.ofClass name (.instanceRef i) m

theorem superMethod (keyword method : Token) (depth : Option Nat) :
    Relabels ρ id (Eval.superMethod keyword method depth)
      (Eval.superMethod (keyword.relabel ρ) (method.relabel ρ) depth) := by
  intro m
  unfold Eval.superMethod
  rw [show (m.relabel ρ).frames = m.frames from rfl,
    show (m.relabel ρ).current = m.current from rfl]
  cases depth with
  | none => rfl
  | some distance =>
    dsimp only
    split
    · rename_i c _
      cases distance with
      | zero => rfl
      | succ closer =>
        dsimp only
        cases m.frames.getAt m.current closer "this" with
        | ok this => exact boundMethod c method this m
        | error e => rfl
    · rfl

theorem checkCall (callee : Value) (paren : Token) (count : Nat) :
    Relabels ρ (Eval.Callable.relabel ρ) (Eval.checkCall callee paren count)
      (Eval.checkCall callee (paren.relabel ρ) count) := by
  intro m
  have hcallable : Eval.callable? (m.relabel ρ) callee
      = (Eval.callable? m callee).map fun f => (f.1.relabel ρ, f.2) := by
    cases callee with
    | functionRef f =>
      simp only [Eval.callable?, Machine.relabel, Array.getElem?_map, Option.map_map,
        Function.comp_def, Function.relabel, FunctionDecl.relabel_params, List.length_map]
      rfl
    | classRef c =>
      simp only [Eval.callable?, m.findMethod?_relabel, Option.map_map, Function.comp_def,
        Function.relabel, FunctionDecl.relabel_params, List.length_map, Option.map_some]
      rfl
    | _ => rfl
  unfold Eval.checkCall
  rw [hcallable]
  cases Eval.callable? m callee with
  | none => rfl
  | some f =>
    simp only [Option.map_some]
    by_cases hcount : count = f.2
    · rw [if_pos hcount, if_pos hcount]
      rfl
    · rw [if_neg hcount, if_neg hcount]
      rfl

theorem callNative (f : Native) : Relabels ρ id (Eval.callNative f) (Eval.callNative f) := by
  cases f
  exact fun _ => rfl

theorem initializerOf (c : ClassId) :
    Relabels ρ (Option.map (Function.relabel ρ)) (Eval.initializerOf c)
      (Eval.initializerOf c) := by
  intro m
  simp only [Eval.initializerOf, m.findMethod?_relabel]
  rfl

theorem boundInstance (f : Function) :
    Relabels ρ id (Eval.boundInstance f) (Eval.boundInstance (f.relabel ρ)) :=
  fun _ => rfl

theorem printLine (keyword : Token) (value : Value) :
    Relabels ρ id (Eval.printLine keyword value)
      (Eval.printLine (keyword.relabel ρ) value) := by
  intro m
  unfold Eval.printLine
  rw [m.pieces_relabel, show (m.relabel ρ).output = m.output from rfl]
  obtain ⟨output, accepted⟩ := m.output.writeLine (m.pieces value)
  cases accepted <;> rfl

/-- An operator gives the same value, or the same error on the other line. -/
theorem ofExcept {r r' : Except RuntimeError Value}
    (h : r' = r.mapError (RuntimeError.relabel ρ)) :
    Relabels ρ id (Eval.ofExcept r) (Eval.ofExcept r') := by
  subst h
  cases r <;> exact fun _ => rfl

end Eval.Relabels

theorem Value.unary_relabel (operator : Token) (right : Value) :
    Value.unary (operator.relabel ρ) right
      = (Value.unary operator right).mapError (RuntimeError.relabel ρ) := by
  simp only [Value.unary, Token.relabel_kind]
  split
  · cases right <;> rfl
  · rfl
  · rfl

theorem Value.arithmetic_relabel (operator : Token) (x y : Float) :
    Value.arithmetic (operator.relabel ρ) x y
      = (Value.arithmetic operator x y).mapError (RuntimeError.relabel ρ) := by
  simp only [Value.arithmetic, Token.relabel_kind]
  split <;> rfl

theorem Value.binary_relabel (operator : Token) (left right : Value) :
    Value.binary (operator.relabel ρ) left right
      = (Value.binary operator left right).mapError (RuntimeError.relabel ρ) := by
  simp only [Value.binary, Token.relabel_kind]
  split
  · rfl
  · rfl
  · split <;> rfl
  · split
    · exact Value.arithmetic_relabel ..
    · rfl

theorem methodTable_relabel (closure : FrameId) (methods : List FunctionDecl) :
    methodTable closure (FunctionDecl.relabelAll ρ methods)
      = (methodTable closure methods).map (Function.relabel ρ) := by
  rw [methodTable, methodTable, ← Bindings.ofList_map, FunctionDecl.relabelAll_eq_map,
    List.map_map, List.map_map]
  refine congrArg Bindings.ofList (List.map_congr_left fun d _ => ?_)
  simp [Function.relabel]

theorem superclassToken_relabel (className : Token) (superclass : Expr) :
    superclassToken (className.relabel ρ) (superclass.relabel ρ)
      = (superclassToken className superclass).relabel ρ := by
  cases superclass <;> rfl

end Lox
