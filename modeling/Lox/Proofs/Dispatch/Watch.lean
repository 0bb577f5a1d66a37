import Lox.Proofs.Run.Chains
import Mathlib.Logic.Function.Basic

/-!
# Watched runs

A watched run keeps a record beside the machine: for a function object, the method activation in
which it was declared, or the one for which a method was bound; for a class, what its declaration
said. From the record alone it is known what `this` and `super` have to mean at a place
(`Self`), and the verdict on a run says whether every `this` and every `super` did mean that. The
machine has no part in the record, and the record none in what the machine does
(`evaluate_shows`).
-/

set_option autoImplicit false

namespace Lox.Dispatch

/-! ## The record -/

/-- What the activation of a method is bound to. -/
structure Self where
  /-- The instance to which the method was bound. -/
  receiver : Value
  /-- What the superclass clause of the method's class gave when that class was declared. -/
  above : Option ClassId

/-- What the declaration of a class said. -/
structure Declared where
  /-- What its superclass clause gave. -/
  above : Option ClassId
  methods : List FunctionDecl

/-- The method that a class itself declares under a name: the last one. -/
def Declared.method? (c : Declared) (name : String) : Option FunctionDecl :=
  c.methods.reverse.find? fun d => d.name.lexeme == name

/-- What has been declared and bound. -/
structure Record where
  functions : FunctionId → Option Self
  classes : ClassId → Option Declared

namespace Record

/-- Nothing has been declared. -/
def empty : Record := ⟨fun _ => none, fun _ => none⟩

/-- What the superclass clause of a class gave. -/
def above? (r : Record) (c : ClassId) : Option ClassId :=
  (r.classes c).bind (·.above)

/-- The classes from a class upwards, nearest first. A superclass is older than its subclasses. -/
def walk (r : Record) (c : ClassId) : List ClassId :=
  c :: match r.above? c with
    | some above => if above < c then r.walk above else []
    | none => []
termination_by c

/-- The method of a name in the nearest class that declares it, and that class. -/
def find? (r : Record) (c : ClassId) (name : String) : Option (FunctionDecl × ClassId) :=
  (r.walk c).findSome? fun k => (r.classes k).bind fun info =>
    (info.method? name).map fun d => (d, k)

/-- What the activation of a method is bound to that is found from a class for an instance. -/
def self? (r : Record) (receiver : Value) (c : ClassId) (name : String) : Option Self :=
  (r.find? c name).map fun found => ⟨receiver, r.above? found.2⟩

/-- The activation around the body of a function value. -/
def around? (r : Record) : Value → Option Self
  | .functionRef id => r.functions id
  | _ => none

/-- Takes down a function object. -/
def addFunction (r : Record) (id : FunctionId) (self : Option Self) : Record :=
  { r with functions := Function.update r.functions id self }

/-- Takes down a class. -/
def addClass (r : Record) (id : ClassId) (info : Declared) : Record :=
  { r with classes := Function.update r.classes id (some info) }

/-- Takes down the method object, if there is one, that is bound for an instance. -/
def addBound (r : Record) (id : FunctionId) (receiver : Value) (c : ClassId) (name : String) :
    Record :=
  match r.self? receiver c name with
  | some self => r.addFunction id (some self)
  | none => r

end Record

/-! ## Verdicts -/

/-- The end of a watched run: what the machine gave, the record, and whether every `this` and every
`super` on the way meant what the record says. -/
structure Verdict (α : Type) where
  result : Result α
  record : Record
  right : Prop

/-- A watched run. -/
def Watch (α : Type) := Record → Machine → Verdict α

namespace Watch

variable {α β : Type}

protected def pure (a : α) : Watch α :=
  fun r m => ⟨.ok a m, r, True⟩

/-- One run after another; both have to be right. -/
protected def bind (x : Watch α) (f : α → Watch β) : Watch β := fun r m =>
  let v := x r m
  match v.result with
  | .ok a m => ⟨(f a v.record m).result, (f a v.record m).record, v.right ∧ (f a v.record m).right⟩
  | .error e m => ⟨.error e m, v.record, v.right⟩
  | .outOfFuel => ⟨.outOfFuel, v.record, v.right⟩

instance : Monad Watch where
  pure := Watch.pure
  bind := Watch.bind

def outOfFuel : Watch α :=
  fun r _ => ⟨.outOfFuel, r, True⟩

/-- What the machine does unwatched. -/
def run (x : Eval α) : Watch α :=
  fun r m => ⟨x m, r, True⟩

/-- Looks something up in the record. -/
def ask (f : Record → α) : Watch α :=
  fun r m => ⟨.ok (f r) m, r, True⟩

def within (f : FrameId) (x : Watch α) : Watch α := fun r m =>
  let v := x r { m with current := f }
  ⟨Eval.within f (fun _ => v.result) m, v.record, v.right⟩

/-! ## What is watched -/

/-- `this` has to give the instance of the activation. -/
def this (self : Option Self) (keyword : Token) (depth : Option Nat) : Watch Value := fun r m =>
  let result := Eval.readVariable keyword depth m
  ⟨result, r, ∃ s, self = some s ∧ result = .ok s.receiver m⟩

/-- A method object for the declaration `d` of the class `c`, bound to the instance. It is closed
over a new frame that binds `this`, inside the frame of the methods of the class, and it is an
initializer if that is its name. -/
def IsBound (m : Machine) (d : FunctionDecl) (c : ClassId) (receiver : Value)
    (result : Result Value) : Prop :=
  ∃ own m', m.ownMethod? c d.name.lexeme = some own ∧ own.decl = d ∧
    result = .ok (.functionRef m.functions.size) m' ∧
    m'.functions
      = m.functions.push ⟨d, m.frames.next, d.name.lexeme == initializerName⟩ ∧
    m'.frames.enclosing? m.frames.next = some own.closure ∧
    m'.frames.here? m.frames.next "this" = some receiver

/-- `super.m` has to give the method that is found from what the superclass clause gave, bound to
the instance of the activation; it has to fail if no class on that walk declares it. -/
def super (self : Option Self) (keyword method : Token) (depth : Option Nat) : Watch Value :=
  fun r m =>
    let result := Eval.superMethod keyword method depth m
    match self with
    | some ⟨receiver, some above⟩ =>
      ⟨result, r.addBound m.functions.size receiver above method.lexeme,
        match r.find? above method.lexeme with
        | some (d, c) => IsBound m d c receiver result
        | none => result = .error (method.fault (.undefinedProperty method.lexeme)) m⟩
    | _ => ⟨result, r, False⟩

/-! ## What is taken down -/

/-- A property of an instance, which may be a method that is bound to it. -/
def getProperty (i : InstanceId) (name : Token) : Watch Value := fun r m =>
  ⟨Eval.getProperty i name m,
    match m.instances[i]? with
    | some o =>
      if (o.fields.get? name.lexeme).isSome then r
      else r.addBound m.functions.size (.instanceRef i) o.ofClass name.lexeme
    | none => r,
    True⟩

/-- A function that is declared in an activation. -/
def newFunction (self : Option Self) (f : Function) : Watch Value := fun r m =>
  ⟨Eval.newFunction f m, r.addFunction m.functions.size self, True⟩

/-- A class that is declared. -/
def newClass (info : Declared) (c : Class) : Watch Value := fun r m =>
  ⟨Eval.newClass c m, r.addClass m.classes.size info, True⟩

end Watch

open Watch

/-! ## The evaluator, watched -/

mutual

/-- Runs an expression in an activation. -/
def evaluate : Nat → Option Self → Expr → Watch Value
  | 0, _, _ => outOfFuel
  | _ + 1, _, .literal value => pure value.value
  | fuel + 1, self, .grouping inner => evaluate fuel self inner
  | fuel + 1, self, .unary operator right => do
    let right ← evaluate fuel self right
    run (Eval.ofExcept (Value.unary operator right))
  | fuel + 1, self, .binary left operator right => do
    let left ← evaluate fuel self left
    let right ← evaluate fuel self right
    run (Eval.ofExcept (Value.binary operator left right))
  | fuel + 1, self, .logical left operator right => do
    let left ← evaluate fuel self left
    if left.isTruthy = decide (operator.kind = .keyword .orWord) then pure left
    else evaluate fuel self right
  | _ + 1, _, .variable name depth => run (Eval.readVariable name depth)
  | fuel + 1, self, .assign name value depth => do
    let value ← evaluate fuel self value
    run (Eval.writeVariable name depth value)
    pure value
  | fuel + 1, self, .call callee paren arguments => do
    let callee ← evaluate fuel self callee
    let arguments ← evaluateAll fuel self arguments
    call fuel callee paren arguments
  | fuel + 1, self, .get object name => do
    match ← evaluate fuel self object with
    | .instanceRef i => getProperty i name
    | _ => run (Eval.fault name .notAnInstance)
  | fuel + 1, self, .set object name value => do
    match ← evaluate fuel self object with
    | .instanceRef i =>
      let value ← evaluate fuel self value
      run (Eval.setField i name.lexeme value)
      pure value
    | _ => run (Eval.fault name .noFields)
  | _ + 1, self, .this keyword depth => this self keyword depth
  | _ + 1, self, .super keyword method depth => super self keyword method depth

/-- Runs expressions from left to right. -/
def evaluateAll : Nat → Option Self → List Expr → Watch (List Value)
  | 0, _, _ => outOfFuel
  | _ + 1, _, [] => pure []
  | fuel + 1, self, e :: es => do
    let value ← evaluate fuel self e
    let values ← evaluateAll fuel self es
    pure (value :: values)

/-- Calls a value. A function object runs in its activation, an initializer in a new one. -/
def call : Nat → Value → Token → List Value → Watch Value
  | 0, _, _, _ => outOfFuel
  | fuel + 1, callee, paren, arguments => do
    match ← run (Eval.checkCall callee paren arguments.length) with
    | .native f => run (Eval.callNative f)
    | .function f =>
      let self ← ask (·.around? callee)
      invoke fuel self f arguments
    | .construct c =>
      let this ← run (Eval.newInstance c)
      match ← run (Eval.initializerOf c) with
      | some initializer =>
        let self ← ask (·.self? this c initializerName)
        let initializer ← run (Eval.bindMethod initializer this)
        let _ ← invoke fuel self initializer arguments
        pure this
      | none => pure this

/-- Runs a function's body in an activation. -/
def invoke : Nat → Option Self → Function → List Value → Watch Value
  | 0, _, _, _ => outOfFuel
  | fuel + 1, self, f, arguments => do
    let frame ← run (Eval.newFrame f.closure ((f.decl.params.map (·.lexeme)).zip arguments))
    let flow ← within frame (executeAll fuel self f.decl.body)
    if f.isInitializer then run (Eval.boundInstance f)
    else
      match flow with
      | .next => pure .nil
      | .returned value _ => pure value

/-- Runs a statement in an activation. -/
def execute : Nat → Option Self → Stmt → Watch Flow
  | 0, _, _ => outOfFuel
  | fuel + 1, self, .expression value => do
    let _ ← evaluate fuel self value
    pure .next
  | fuel + 1, self, .print keyword value => do
    let value ← evaluate fuel self value
    run (Eval.printLine keyword value)
    pure .next
  | _ + 1, _, .var name none => do
    run (Eval.define name.lexeme .nil)
    pure .next
  | fuel + 1, self, .var name (some initializer) => do
    let value ← evaluate fuel self initializer
    run (Eval.define name.lexeme value)
    pure .next
  | fuel + 1, self, .block body => do
    let frame ← run (Eval.newFrame (← run Eval.currentFrame) [])
    within frame (executeAll fuel self body)
  | fuel + 1, self, .conditional condition thenBranch elseBranch => do
    let condition ← evaluate fuel self condition
    if condition.isTruthy then execute fuel self thenBranch
    else
      match elseBranch with
      | some elseBranch => execute fuel self elseBranch
      | none => pure .next
  | fuel + 1, self, .loop condition body => executeLoop fuel self condition body
  | _ + 1, self, .function decl => do
    let f ← newFunction self ⟨decl, ← run Eval.currentFrame, false⟩
    run (Eval.define decl.name.lexeme f)
    pure .next
  | _ + 1, _, .ret keyword none => pure (.returned .nil keyword)
  | fuel + 1, self, .ret keyword (some value) => do
    let value ← evaluate fuel self value
    pure (.returned value keyword)
  | _ + 1, _, .classDecl name none methods => do
    run (Eval.define name.lexeme .nil)
    let c ← newClass ⟨none, methods⟩
      ⟨name.lexeme, none, methodTable (← run Eval.currentFrame) methods⟩
    run (Eval.assignVisible name c)
    pure .next
  | fuel + 1, self, .classDecl name (some superclass) methods => do
    match ← evaluate fuel self superclass with
    | .classRef above =>
      run (Eval.define name.lexeme .nil)
      let closure ← run (Eval.newFrame (← run Eval.currentFrame) [("super", .classRef above)])
      let c ← newClass ⟨some above, methods⟩
        ⟨name.lexeme, some above, methodTable closure methods⟩
      run (Eval.assignVisible name c)
      pure .next
    | _ => run (Eval.fault (superclassToken name superclass) .superclassNotClass)

/-- Runs a loop in an activation. -/
def executeLoop : Nat → Option Self → Expr → Stmt → Watch Flow
  | 0, _, _, _ => outOfFuel
  | fuel + 1, self, condition, body => do
    let value ← evaluate fuel self condition
    if value.isTruthy then
      match ← execute fuel self body with
      | .next => executeLoop fuel self condition body
      | .returned value keyword => pure (.returned value keyword)
    else pure .next

/-- Runs statements in an activation. -/
def executeAll : Nat → Option Self → List Stmt → Watch Flow
  | 0, _, _ => outOfFuel
  | _ + 1, _, [] => pure .next
  | fuel + 1, self, s :: ss => do
    match ← execute fuel self s with
    | .next => executeAll fuel self ss
    | .returned value keyword => pure (.returned value keyword)

end

/-- Runs a program, outside of every activation. -/
def interpret (fuel : Nat) (program : List Stmt) : Watch Unit := do
  match ← executeAll fuel none program with
  | .next => pure ()
  | .returned _ keyword => run (Eval.fault keyword .returnAtTopLevel)

/-! ## What the machine does -/

/-- A watched run shows what the machine does by itself. -/
def Shows {α : Type} (x : Watch α) (y : Eval α) : Prop :=
  ∀ r m, (x r m).result = y m

namespace Shows

variable {α β : Type} {x : Watch α} {y : Eval α} {f : α → Watch β} {g : α → Eval β}

theorem pure (a : α) : Shows (pure a) (pure a) :=
  fun _ _ => rfl

theorem outOfFuel : Shows (Watch.outOfFuel : Watch α) Eval.outOfFuel :=
  fun _ _ => rfl

theorem run (y : Eval α) : Shows (run y) y :=
  fun _ _ => rfl

theorem bind (hx : Shows x y) (hf : ∀ a, Shows (f a) (g a)) : Shows (x >>= f) (y >>= g) := by
  intro r m
  show (Watch.bind x f r m).result = Eval.bind y g m
  unfold Watch.bind Eval.bind
  rw [← hx r m]
  cases hr : (x r m).result with
  | ok a m' => simpa only [hr] using hf a _ m'
  | error e m' => simp only [hr]
  | outOfFuel => simp only [hr]

/-- The machine does not see what is looked up in the record. -/
theorem ask {k : Record → α} {z : Eval β} (hf : ∀ a, Shows (f a) z) :
    Shows (Watch.ask k >>= f) z :=
  fun r m => hf (k r) r m

theorem within (hx : Shows x y) (frame : FrameId) :
    Shows (within frame x) (Eval.within frame y) := by
  intro r m
  show Eval.within frame (fun _ => (x r { m with current := frame }).result) m = _
  rw [hx]
  rfl

theorem super (self : Option Self) (keyword method : Token) (depth : Option Nat) :
    Shows (super self keyword method depth) (Eval.superMethod keyword method depth) := by
  intro r m
  unfold Watch.super
  split <;> rfl

end Shows

mutual

theorem evaluate_shows : ∀ (fuel : Nat) (self : Option Self) (e : Expr),
    Shows (evaluate fuel self e) (Lox.evaluate fuel e)
  | 0, _, _ => .outOfFuel
  | fuel + 1, self, e => by
    match e with
    | .literal value => exact .pure _
    | .grouping inner =>
      rw [evaluate, Lox.evaluate]
      exact evaluate_shows fuel self inner
    | .unary operator right =>
      rw [evaluate, Lox.evaluate]
      exact (evaluate_shows fuel self right).bind fun _ => .run _
    | .binary left operator right =>
      rw [evaluate, Lox.evaluate]
      exact (evaluate_shows fuel self left).bind fun _ =>
        (evaluate_shows fuel self right).bind fun _ => .run _
    | .logical left operator right =>
      rw [evaluate, Lox.evaluate]
      refine (evaluate_shows fuel self left).bind fun _ => ?_
      split
      · exact .pure _
      · exact evaluate_shows fuel self right
    | .variable name depth =>
      rw [evaluate, Lox.evaluate]
      exact .run _
    | .assign name value depth =>
      rw [evaluate, Lox.evaluate]
      exact (evaluate_shows fuel self value).bind fun _ => (Shows.run _).bind fun _ => .pure _
    | .call callee paren arguments =>
      rw [evaluate, Lox.evaluate]
      exact (evaluate_shows fuel self callee).bind fun _ =>
        (evaluateAll_shows fuel self arguments).bind fun _ => call_shows fuel _ paren _
    | .get object name =>
      rw [evaluate, Lox.evaluate]
      refine (evaluate_shows fuel self object).bind fun v => ?_
      cases v with
      | instanceRef i => exact fun _ _ => rfl
      | _ => exact .run _
    | .set object name value =>
      rw [evaluate, Lox.evaluate]
      refine (evaluate_shows fuel self object).bind fun v => ?_
      cases v with
      | instanceRef i =>
        exact (evaluate_shows fuel self value).bind fun _ => (Shows.run _).bind fun _ => .pure _
      | _ => exact .run _
    | .this keyword depth =>
      rw [evaluate, Lox.evaluate]
      exact fun _ _ => rfl
    | .super keyword method depth =>
      rw [evaluate, Lox.evaluate]
      exact .super self keyword method depth

theorem evaluateAll_shows : ∀ (fuel : Nat) (self : Option Self) (es : List Expr),
    Shows (evaluateAll fuel self es) (Lox.evaluateAll fuel es)
  | 0, _, _ => .outOfFuel
  | fuel + 1, self, es => by
    cases es with
    | nil => exact .pure _
    | cons e es =>
      rw [evaluateAll, Lox.evaluateAll]
      exact (evaluate_shows fuel self e).bind fun _ =>
        (evaluateAll_shows fuel self es).bind fun _ => .pure _

theorem call_shows : ∀ (fuel : Nat) (callee : Value) (paren : Token) (arguments : List Value),
    Shows (call fuel callee paren arguments) (Lox.call fuel callee paren arguments)
  | 0, _, _, _ => .outOfFuel
  | fuel + 1, callee, paren, arguments => by
    rw [call, Lox.call]
    refine (Shows.run _).bind fun f => ?_
    cases f with
    | native f => exact .run _
    | function f => exact .ask fun self => invoke_shows fuel self f arguments
    | construct c =>
      refine (Shows.run _).bind fun this => (Shows.run _).bind fun f => ?_
      cases f with
      | none => exact .pure _
      | some f =>
        exact .ask fun self => (Shows.run _).bind fun f =>
          (invoke_shows fuel self f arguments).bind fun _ => .pure _

theorem invoke_shows : ∀ (fuel : Nat) (self : Option Self) (f : Function)
    (arguments : List Value), Shows (invoke fuel self f arguments) (Lox.invoke fuel f arguments)
  | 0, _, _, _ => .outOfFuel
  | fuel + 1, self, f, arguments => by
    rw [invoke, Lox.invoke]
    refine (Shows.run _).bind fun frame => ?_
    refine ((executeAll_shows fuel self f.decl.body).within frame).bind fun flow => ?_
    split
    · exact .run _
    · cases flow <;> exact .pure _

theorem execute_shows : ∀ (fuel : Nat) (self : Option Self) (s : Stmt),
    Shows (execute fuel self s) (Lox.execute fuel s)
  | 0, _, _ => .outOfFuel
  | fuel + 1, self, s => by
    match s with
    | .expression value =>
      rw [execute, Lox.execute]
      exact (evaluate_shows fuel self value).bind fun _ => .pure _
    | .print keyword value =>
      rw [execute, Lox.execute]
      exact (evaluate_shows fuel self value).bind fun _ => (Shows.run _).bind fun _ => .pure _
    | .var name none =>
      rw [execute, Lox.execute]
      exact (Shows.run _).bind fun _ => .pure _
    | .var name (some initializer) =>
      rw [execute, Lox.execute]
      exact (evaluate_shows fuel self initializer).bind fun _ =>
        (Shows.run _).bind fun _ => .pure _
    | .block body =>
      rw [execute, Lox.execute]
      exact (Shows.run _).bind fun _ => (Shows.run _).bind fun frame =>
        (executeAll_shows fuel self body).within frame
    | .conditional condition thenBranch none =>
      rw [execute, Lox.execute]
      refine (evaluate_shows fuel self condition).bind fun _ => ?_
      split
      · exact execute_shows fuel self thenBranch
      · exact .pure _
    | .conditional condition thenBranch (some elseBranch) =>
      rw [execute, Lox.execute]
      refine (evaluate_shows fuel self condition).bind fun _ => ?_
      split
      · exact execute_shows fuel self thenBranch
      · exact execute_shows fuel self elseBranch
    | .loop condition body =>
      rw [execute, Lox.execute]
      exact executeLoop_shows fuel self condition body
    | .function decl =>
      rw [execute, Lox.execute]
      refine (Shows.run _).bind fun _ => ?_
      exact Shows.bind (fun _ _ => rfl) fun _ => (Shows.run _).bind fun _ => .pure _
    | .ret keyword none => exact .pure _
    | .ret keyword (some value) =>
      rw [execute, Lox.execute]
      exact (evaluate_shows fuel self value).bind fun _ => .pure _
    | .classDecl name none methods =>
      rw [execute, Lox.execute]
      refine (Shows.run _).bind fun _ => (Shows.run _).bind fun _ => ?_
      exact Shows.bind (fun _ _ => rfl) fun _ => (Shows.run _).bind fun _ => .pure _
    | .classDecl name (some superclass) methods =>
      rw [execute, Lox.execute]
      refine (evaluate_shows fuel self superclass).bind fun v => ?_
      cases v with
      | classRef above =>
        refine (Shows.run _).bind fun _ => (Shows.run _).bind fun _ => ?_
        refine (Shows.run _).bind fun _ => ?_
        exact Shows.bind (fun _ _ => rfl) fun _ => (Shows.run _).bind fun _ => .pure _
      | _ => exact .run _

theorem executeLoop_shows : ∀ (fuel : Nat) (self : Option Self) (condition : Expr) (body : Stmt),
    Shows (executeLoop fuel self condition body) (Lox.executeLoop fuel condition body)
  | 0, _, _, _ => .outOfFuel
  | fuel + 1, self, condition, body => by
    rw [executeLoop, Lox.executeLoop]
    refine (evaluate_shows fuel self condition).bind fun _ => ?_
    split
    · refine (execute_shows fuel self body).bind fun flow => ?_
      cases flow with
      | next => exact executeLoop_shows fuel self condition body
      | returned value keyword => exact .pure _
    · exact .pure _

theorem executeAll_shows : ∀ (fuel : Nat) (self : Option Self) (ss : List Stmt),
    Shows (executeAll fuel self ss) (Lox.executeAll fuel ss)
  | 0, _, _ => .outOfFuel
  | fuel + 1, self, ss => by
    cases ss with
    | nil => exact .pure _
    | cons s ss =>
      rw [executeAll, Lox.executeAll]
      refine (execute_shows fuel self s).bind fun flow => ?_
      cases flow with
      | next => exact executeAll_shows fuel self ss
      | returned value keyword => exact .pure _

end

theorem interpret_shows (fuel : Nat) (program : List Stmt) :
    Shows (interpret fuel program) (Lox.interpret fuel program) := by
  unfold interpret Lox.interpret
  refine (executeAll_shows fuel none program).bind fun flow => ?_
  cases flow with
  | next => exact .pure _
  | returned value keyword => exact .run _

end Lox.Dispatch
