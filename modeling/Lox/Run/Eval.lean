import Lox.Run.Machine

/-!
# Evaluation

`evaluate` and `execute` run expressions and statements on a machine. A run gives a result, stops at
a runtime error, or uses up its fuel; in the first two cases it also gives the machine as it was
left. Statements end by going on or by a `return` on its way to the enclosing call. Every rule runs
its parts with one unit of fuel less, so a run that does not use up its fuel gives the same with
more.
-/

set_option autoImplicit false

namespace Lox

/-- How a run ends. -/
inductive Result (α : Type) where
  | ok (value : α) (machine : Machine)
  | error (error : RuntimeError) (machine : Machine)
  | outOfFuel

/-- A run on a machine. -/
def Eval (α : Type) := Machine → Result α

namespace Eval

variable {α β : Type}

/-- Gives a value and leaves the machine as it is. -/
@[always_inline, inline] protected def pure (a : α) : Eval α :=
  fun m => .ok a m

/-- One run after another; an error ends both. -/
@[always_inline, inline] protected def bind (x : Eval α) (f : α → Eval β) : Eval β := fun m =>
  match x m with
  | .ok a m => f a m
  | .error e m => .error e m
  | .outOfFuel => .outOfFuel

@[always_inline] instance : Monad Eval where
  pure := Eval.pure
  bind := Eval.bind

/-- The end of the fuel. -/
def outOfFuel : Eval α :=
  fun _ => .outOfFuel

/-- Stops at a token with this cause. -/
def fault (token : Token) (cause : RuntimeCause) : Eval α :=
  fun m => .error (token.fault cause) m

/-- A value or the error in its place. -/
def ofExcept : Except RuntimeError α → Eval α
  | .ok a => fun m => .ok a m
  | .error e => fun m => .error e m

/-! ## Variables -/

/-- The runtime error for a variable that cannot be reached by distance. -/
def accessCause (distance : Nat) (name : String) : AccessError → RuntimeCause
  | .noFrame => .noScope distance name
  | .unbound => .undefinedVariable name

/-- The value of a variable: a local one by its distance, a global one by its name. -/
def readVariable (name : Token) (depth : Option Nat) : Eval Value := fun m =>
  match depth with
  | some distance =>
    match m.frames.getAt m.current distance name.lexeme with
    | .ok value => .ok value m
    | .error e => .error (name.fault (accessCause distance name.lexeme e)) m
  | none =>
    match m.frames.get? Machine.globalFrame name.lexeme with
    | some value => .ok value m
    | none => .error (name.fault (.undefinedVariable name.lexeme)) m

/-- Sets a variable, which has to exist. -/
def writeVariable (name : Token) (depth : Option Nat) (value : Value) : Eval Unit := fun m =>
  match depth with
  | some distance =>
    match m.frames.assignAt m.current distance name.lexeme value with
    | .ok frames => .ok () { m with frames }
    | .error e => .error (name.fault (accessCause distance name.lexeme e)) m
  | none =>
    match m.frames.assign? Machine.globalFrame name.lexeme value with
    | some frames => .ok () { m with frames }
    | none => .error (name.fault (.undefinedVariable name.lexeme)) m

/-- Binds a name in the current frame. -/
def define (name : String) (value : Value) : Eval Unit := fun m =>
  .ok () { m with frames := m.frames.define m.current name value }

/-- Sets a name in the nearest frame around the current one that binds it. -/
def assignVisible (name : Token) (value : Value) : Eval Unit := fun m =>
  match m.frames.assign? m.current name.lexeme value with
  | some frames => .ok () { m with frames }
  | none => .error (name.fault (.undefinedVariable name.lexeme)) m

/-- The current frame. -/
def currentFrame : Eval FrameId :=
  fun m => .ok m.current m

/-- Makes a frame inside another one that binds these names. -/
def newFrame (enclosing : FrameId) (bindings : List (String × Value)) : Eval FrameId := fun m =>
  let f := m.frames.next
  let frames := m.frames.push (some enclosing)
  .ok f { m with frames := bindings.foldl (fun fs b => fs.define f b.1 b.2) frames }

/-- Runs with another current frame, and has the old one current again afterwards. -/
def within (f : FrameId) (x : Eval α) : Eval α := fun m =>
  let previous := m.current
  match x { m with current := f } with
  | .ok a m => .ok a { m with current := previous }
  | .error e m => .error e { m with current := previous }
  | .outOfFuel => .outOfFuel

/-! ## Objects -/

/-- Makes a function object. -/
def newFunction (f : Function) : Eval Value := fun m =>
  .ok (.functionRef m.functions.size) { m with functions := m.functions.push f }

/-- Makes a class. -/
def newClass (c : Class) : Eval Value := fun m =>
  .ok (.classRef m.classes.size) { m with classes := m.classes.push c }

/-- Makes an instance without fields. -/
def newInstance (c : ClassId) : Eval Value := fun m =>
  .ok (.instanceRef m.instances.size) { m with instances := m.instances.push ⟨c, .empty⟩ }

/-- A method bound to an instance: the same function, closed over one more frame, which holds
`this`. -/
def bindMethod (method : Function) (this : Value) : Eval Function := do
  let closure ← newFrame method.closure [("this", this)]
  return { method with closure }

/-- The method of a class that a token names, bound to an instance, as a function object. -/
def boundMethod (c : ClassId) (name : Token) (this : Value) : Eval Value := fun m =>
  match m.findMethod? c name.lexeme with
  | some method => (do newFunction (← bindMethod method this) : Eval Value) m
  | none => .error (name.fault (.undefinedProperty name.lexeme)) m

/-- A property of an instance: a field, or else a method bound to the instance. -/
def getProperty (i : InstanceId) (name : Token) : Eval Value := fun m =>
  match m.instances[i]? with
  | none => .error (name.fault (.undefinedProperty name.lexeme)) m
  | some o =>
    match o.fields.get? name.lexeme with
    | some value => .ok value m
    | none => boundMethod o.ofClass name (.instanceRef i) m

/-- Sets a field of an instance. -/
def setField (i : InstanceId) (name : String) (value : Value) : Eval Unit := fun m =>
  .ok () { m with
    instances := m.instances.modify i fun o => { o with fields := o.fields.insert name value } }

/-- A method of the superclass, bound to the current instance. The superclass is in the frame at
this distance and the instance one frame closer. -/
def superMethod (keyword method : Token) (depth : Option Nat) : Eval Value := fun m =>
  match depth with
  | none => .error (keyword.fault .superUnresolved) m
  | some distance =>
    match m.frames.getAt m.current distance "super" with
    | .ok (.classRef c) =>
      match distance with
      | 0 => .error (keyword.fault .thisUnbound) m
      | closer + 1 =>
        match m.frames.getAt m.current closer "this" with
        | .ok this => boundMethod c method this m
        | .error _ => .error (keyword.fault .thisUnbound) m
    | _ => .error (keyword.fault .superclassUnbound) m

/-! ## Calls and output -/

/-- What can be called. -/
inductive Callable where
  | native (f : Native)
  | function (f : Function)
  /-- A class, of which the call makes an instance. -/
  | construct (c : ClassId)

/-- What a value calls, with the number of arguments it takes; a class takes those of its
initializer. -/
def callable? (m : Machine) : Value → Option (Callable × Nat)
  | .native f => some (.native f, f.arity)
  | .functionRef id => m.functions[id]?.map fun f => (.function f, f.decl.params.length)
  | .classRef c =>
    some (.construct c, ((m.findMethod? c initializerName).map (·.decl.params.length)).getD 0)
  | _ => none

/-- What a call calls, once the number of arguments has been checked. -/
def checkCall (callee : Value) (paren : Token) (count : Nat) : Eval Callable := fun m =>
  match callable? m callee with
  | none => .error (paren.fault .notCallable) m
  | some (f, arity) =>
    if count = arity then .ok f m else .error (paren.fault (.wrongArgumentCount arity count)) m

/-- Runs a native function. -/
def callNative : Native → Eval Value
  | .clock => fun m => .ok (.number m.clock.next) { m with clock := m.clock.tick }

/-- The initializer of a class. -/
def initializerOf (c : ClassId) : Eval (Option Function) := fun m =>
  .ok (m.findMethod? c initializerName) m

/-- The instance to which a bound method is bound. -/
def boundInstance (f : Function) : Eval Value := fun m =>
  .ok ((m.frames.here? f.closure "this").getD .nil) m

/-- Prints a value as a line. -/
def printLine (keyword : Token) (value : Value) : Eval Unit := fun m =>
  match m.output.writeLine (m.pieces value) with
  | (output, true) => .ok () { m with output }
  | (output, false) => .error (keyword.fault (.outputFailed output.reason)) { m with output }

end Eval

/-! ## Expressions and statements -/

open Eval

/-- How a statement ends when it ends well. -/
inductive Flow where
  | next
  /-- A `return` with its value and keyword. -/
  | returned (value : Value) (keyword : Token)

/-- The methods of a class, made in a frame; of two with one name the later one counts. -/
def methodTable (closure : FrameId) (methods : List FunctionDecl) : Bindings Function :=
  .ofList (methods.map fun d =>
    (d.name.lexeme, ⟨d, closure, d.name.lexeme == initializerName⟩))

/-- The token at which a superclass that is no class is reported. -/
def superclassToken (className : Token) : Expr → Token
  | .variable name _ => name
  | _ => className

mutual

/-- Runs an expression. -/
def evaluate : Nat → Expr → Eval Value
  | 0, _ => outOfFuel
  | _ + 1, .literal value => pure value.value
  | fuel + 1, .grouping inner => evaluate fuel inner
  | fuel + 1, .unary operator right => do
    let right ← evaluate fuel right
    ofExcept (Value.unary operator right)
  | fuel + 1, .binary left operator right => do
    let left ← evaluate fuel left
    let right ← evaluate fuel right
    ofExcept (Value.binary operator left right)
  | fuel + 1, .logical left operator right => do
    let left ← evaluate fuel left
    if left.isTruthy = decide (operator.kind = .keyword .orWord) then pure left
    else evaluate fuel right
  | _ + 1, .variable name depth => readVariable name depth
  | fuel + 1, .assign name value depth => do
    let value ← evaluate fuel value
    writeVariable name depth value
    pure value
  | fuel + 1, .call callee paren arguments => do
    let callee ← evaluate fuel callee
    let arguments ← evaluateAll fuel arguments
    call fuel callee paren arguments
  | fuel + 1, .get object name => do
    match ← evaluate fuel object with
    | .instanceRef i => getProperty i name
    | _ => fault name .notAnInstance
  | fuel + 1, .set object name value => do
    match ← evaluate fuel object with
    | .instanceRef i =>
      let value ← evaluate fuel value
      setField i name.lexeme value
      pure value
    | _ => fault name .noFields
  | _ + 1, .this keyword depth => readVariable keyword depth
  | _ + 1, .super keyword method depth => superMethod keyword method depth

/-- Runs expressions from left to right. -/
def evaluateAll : Nat → List Expr → Eval (List Value)
  | 0, _ => outOfFuel
  | _ + 1, [] => pure []
  | fuel + 1, e :: es => do
    let value ← evaluate fuel e
    let values ← evaluateAll fuel es
    pure (value :: values)

/-- Calls a value. -/
def call : Nat → Value → Token → List Value → Eval Value
  | 0, _, _, _ => outOfFuel
  | fuel + 1, callee, paren, arguments => do
    match ← checkCall callee paren arguments.length with
    | .native f => callNative f
    | .function f => invoke fuel f arguments
    | .construct c =>
      let this ← newInstance c
      match ← initializerOf c with
      | some initializer =>
        let initializer ← bindMethod initializer this
        let _ ← invoke fuel initializer arguments
        pure this
      | none => pure this

/-- Runs a function's body in a frame of its own inside the function's closure. An initializer
gives its instance, however it ends. -/
def invoke : Nat → Function → List Value → Eval Value
  | 0, _, _ => outOfFuel
  | fuel + 1, f, arguments => do
    let frame ← newFrame f.closure ((f.decl.params.map (·.lexeme)).zip arguments)
    let flow ← within frame (executeAll fuel f.decl.body)
    if f.isInitializer then boundInstance f
    else
      match flow with
      | .next => pure .nil
      | .returned value _ => pure value

/-- Runs a statement. -/
def execute : Nat → Stmt → Eval Flow
  | 0, _ => outOfFuel
  | fuel + 1, .expression value => do
    let _ ← evaluate fuel value
    pure .next
  | fuel + 1, .print keyword value => do
    let value ← evaluate fuel value
    printLine keyword value
    pure .next
  | _ + 1, .var name none => do
    define name.lexeme .nil
    pure .next
  | fuel + 1, .var name (some initializer) => do
    let value ← evaluate fuel initializer
    define name.lexeme value
    pure .next
  | fuel + 1, .block body => do
    let frame ← newFrame (← currentFrame) []
    within frame (executeAll fuel body)
  | fuel + 1, .conditional condition thenBranch elseBranch => do
    let condition ← evaluate fuel condition
    if condition.isTruthy then execute fuel thenBranch
    else
      match elseBranch with
      | some elseBranch => execute fuel elseBranch
      | none => pure .next
  | fuel + 1, .loop condition body => executeLoop fuel condition body
  | _ + 1, .function decl => do
    let f ← newFunction ⟨decl, ← currentFrame, false⟩
    define decl.name.lexeme f
    pure .next
  | _ + 1, .ret keyword none => pure (.returned .nil keyword)
  | fuel + 1, .ret keyword (some value) => do
    let value ← evaluate fuel value
    pure (.returned value keyword)
  | _ + 1, .classDecl name none methods => do
    define name.lexeme .nil
    let c ← newClass ⟨name.lexeme, none, methodTable (← currentFrame) methods⟩
    assignVisible name c
    pure .next
  | fuel + 1, .classDecl name (some superclass) methods => do
    match ← evaluate fuel superclass with
    | .classRef above =>
      define name.lexeme .nil
      let closure ← newFrame (← currentFrame) [("super", .classRef above)]
      let c ← newClass ⟨name.lexeme, some above, methodTable closure methods⟩
      assignVisible name c
      pure .next
    | _ => fault (superclassToken name superclass) .superclassNotClass

/-- Runs a loop: the body as long as the condition holds. -/
def executeLoop : Nat → Expr → Stmt → Eval Flow
  | 0, _, _ => outOfFuel
  | fuel + 1, condition, body => do
    let value ← evaluate fuel condition
    if value.isTruthy then
      match ← execute fuel body with
      | .next => executeLoop fuel condition body
      | .returned value keyword => pure (.returned value keyword)
    else pure .next

/-- Runs statements in order, up to a `return`. -/
def executeAll : Nat → List Stmt → Eval Flow
  | 0, _ => outOfFuel
  | _ + 1, [] => pure .next
  | fuel + 1, s :: ss => do
    match ← execute fuel s with
    | .next => executeAll fuel ss
    | .returned value keyword => pure (.returned value keyword)

end

/-- Runs a program; a `return` that reaches its end is an error. -/
def interpret (fuel : Nat) (program : List Stmt) : Eval Unit := do
  match ← executeAll fuel program with
  | .next => pure ()
  | .returned _ keyword => fault keyword .returnAtTopLevel

end Lox
