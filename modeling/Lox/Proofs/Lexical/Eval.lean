import Lox.Session

/-!
# Lexical evaluation

What programs mean without frames and distances. Every local variable has a location of its own in a
store, a place in the program sees a map from names to locations, and a function keeps the map of
the place where it was declared. Maps never change: a declaration makes a larger one for what
follows it. A name that is not in the map is looked up in the one table of globals when it is
evaluated. The slots of the tree are not used.

In the initializer of a local variable its name still means what it meant before, but an assignment
to it is an error; `pending` is that name.
-/

set_option autoImplicit false

namespace Lox.Lexical

/-! ## State -/

/-- The number of a cell of the store. -/
abbrev Location := Nat

/-- The local names that a place sees. -/
abbrev Names := Bindings Location

/-- A function: its declaration and the names visible there. -/
structure Closure where
  decl : FunctionDecl
  visible : Names
  isInitializer : Bool

/-- A class, with methods that are not bound to an instance yet. -/
structure Class where
  name : String
  superclass : Option ClassId
  methods : Bindings Closure

/-- The state in which programs run. -/
structure World where
  globals : Bindings Value
  store : Array Value
  functions : Array Closure
  classes : Array Class
  instances : Array Instance
  output : Output
  clock : Clock

namespace World

/-- A world in which nothing has run. -/
def start (output : Output) (clock : Clock) : World where
  globals := Bindings.empty.insert Native.clock.name (.native .clock)
  store := #[]
  functions := #[]
  classes := #[]
  instances := #[]
  output := output
  clock := clock

/-- The method of a class that a name means: its own, or else that of the nearest class above. -/
def findMethod? (w : World) (c : ClassId) (name : String) : Option Closure :=
  match w.classes[c]? with
  | none => none
  | some info =>
    match info.methods.get? name with
    | some method => some method
    | none =>
      match info.superclass with
      | some above => if above < c then w.findMethod? above name else none
      | none => none
termination_by c

/-- The name of a class. -/
def className (w : World) (c : ClassId) : String :=
  (w.classes[c]?.map (·.name)).getD ""

/-- The pieces in which a value is printed. -/
def pieces (w : World) : Value → List String
  | .nil => ["nil"]
  | .bool true => ["true"]
  | .bool false => ["false"]
  | .number x => [Number.text x]
  | .string s => [s]
  | .native _ => ["<native fn>"]
  | .functionRef f => ["<fn ", (w.functions[f]?.map (·.decl.name.lexeme)).getD "", ">"]
  | .classRef c => [w.className c]
  | .instanceRef i =>
    [(w.instances[i]?.map fun o => w.className o.ofClass).getD "", " instance"]

end World

/-- A run: nothing when the fuel does not last, or else a result or an error with the world as it
was left. -/
def Run (α : Type) := World → Option (Except RuntimeError α × World)

namespace Run

variable {α β : Type}

protected def pure (a : α) : Run α :=
  fun w => some (.ok a, w)

protected def bind (x : Run α) (f : α → Run β) : Run β := fun w =>
  match x w with
  | some (.ok a, w) => f a w
  | some (.error e, w) => some (.error e, w)
  | none => none

instance : Monad Run where
  pure := Run.pure
  bind := Run.bind

def outOfFuel : Run α :=
  fun _ => none

/-- Stops at a token with this cause. -/
def fault (token : Token) (cause : RuntimeCause) : Run α :=
  fun w => some (.error (token.fault cause), w)

def ofExcept (result : Except RuntimeError α) : Run α :=
  fun w => some (result, w)

end Run

open Run

/-! ## Variables -/

/-- The value of the location that a name means, or else of the global variable. -/
def read (visible : Names) (name : Token) : Run Value := fun w =>
  match visible.get? name.lexeme with
  | some l => some (.ok (w.store[l]?.getD .nil), w)
  | none =>
    match w.globals.get? name.lexeme with
    | some value => some (.ok value, w)
    | none => some (.error (name.fault (.undefinedVariable name.lexeme)), w)

/-- Sets the location that a name means, or else the global variable, which has to exist. -/
def write (visible : Names) (pending : Option String) (name : Token) (value : Value) : Run Unit :=
  fun w =>
    if pending = some name.lexeme then
      some (.error (name.fault (.undefinedVariable name.lexeme)), w)
    else
      match visible.get? name.lexeme with
      | some l => some (.ok (), { w with store := w.store.setIfInBounds l value })
      | none =>
        match w.globals.get? name.lexeme with
        | some _ => some (.ok (), { w with globals := w.globals.insert name.lexeme value })
        | none => some (.error (name.fault (.undefinedVariable name.lexeme)), w)

/-- Gives a local variable a location of its own, and the names with it. -/
def allocate (visible : Names) (name : String) (value : Value) : Run Names := fun w =>
  some (.ok (visible.insert name w.store.size), { w with store := w.store.push value })

/-- Gives some local variables locations of their own. -/
def allocateAll (visible : Names) : List (String × Value) → Run Names
  | [] => pure visible
  | (name, value) :: rest => do
    let visible ← allocate visible name value
    allocateAll visible rest

/-- Declares a variable: a global one at the top of the program, elsewhere a local one. -/
def declare (atTop : Bool) (visible : Names) (name : String) (value : Value) : Run Names :=
  if atTop then fun w => some (.ok visible, { w with globals := w.globals.insert name value })
  else allocate visible name value

/-! ## Objects -/

/-- Makes a function object. -/
def newFunction (f : Closure) : Run Value := fun w =>
  some (.ok (.functionRef w.functions.size), { w with functions := w.functions.push f })

/-- Makes a class. -/
def newClass (c : Class) : Run Value := fun w =>
  some (.ok (.classRef w.classes.size), { w with classes := w.classes.push c })

/-- Makes an instance without fields. -/
def newInstance (c : ClassId) : Run Value := fun w =>
  some (.ok (.instanceRef w.instances.size), { w with instances := w.instances.push ⟨c, .empty⟩ })

/-- A method with `this` among its names. -/
def bindMethod (method : Closure) (this : Value) : Run Closure := do
  let visible ← allocate method.visible "this" this
  return { method with visible }

/-- The method of a class that a token names, bound to an instance, as a function object. -/
def boundMethod (c : ClassId) (name : Token) (this : Value) : Run Value := fun w =>
  match w.findMethod? c name.lexeme with
  | some method => (do newFunction (← bindMethod method this) : Run Value) w
  | none => some (.error (name.fault (.undefinedProperty name.lexeme)), w)

/-- A property of an instance: a field, or else a method bound to the instance. -/
def getProperty (i : InstanceId) (name : Token) : Run Value := fun w =>
  match w.instances[i]? with
  | none => some (.error (name.fault (.undefinedProperty name.lexeme)), w)
  | some o =>
    match o.fields.get? name.lexeme with
    | some value => some (.ok value, w)
    | none => boundMethod o.ofClass name (.instanceRef i) w

/-- Sets a field of an instance. -/
def setField (i : InstanceId) (name : String) (value : Value) : Run Unit := fun w =>
  some (.ok (), { w with
    instances := w.instances.modify i fun o => { o with fields := o.fields.insert name value } })

/-- A method of the superclass in sight, bound to the instance in sight. -/
def superMethod (visible : Names) (keyword method : Token) : Run Value := fun w =>
  match visible.get? "super", visible.get? "this" with
  | some above, some this =>
    match w.store[above]? with
    | some (.classRef c) => boundMethod c method (w.store[this]?.getD .nil) w
    | _ => some (.error (keyword.fault .superclassUnbound), w)
  | _, _ => some (.error (keyword.fault .superUnresolved), w)

/-! ## Calls and output -/

/-- What can be called. -/
inductive Callable where
  | native (f : Native)
  | closure (f : Closure)
  /-- A class, of which the call makes an instance. -/
  | construct (c : ClassId)

/-- What a value calls, with the number of arguments it takes. -/
def callable? (w : World) : Value → Option (Callable × Nat)
  | .native f => some (.native f, f.arity)
  | .functionRef id => w.functions[id]?.map fun f => (.closure f, f.decl.params.length)
  | .classRef c =>
    some (.construct c, ((w.findMethod? c initializerName).map (·.decl.params.length)).getD 0)
  | _ => none

/-- What a call calls, once the number of arguments has been checked. -/
def checkCall (callee : Value) (paren : Token) (count : Nat) : Run Callable := fun w =>
  match callable? w callee with
  | none => some (.error (paren.fault .notCallable), w)
  | some (f, arity) =>
    if count = arity then some (.ok f, w)
    else some (.error (paren.fault (.wrongArgumentCount arity count)), w)

/-- Runs a native function. -/
def callNative : Native → Run Value
  | .clock => fun w => some (.ok (.number w.clock.next), { w with clock := w.clock.tick })

/-- The initializer of a class. -/
def initializerOf (c : ClassId) : Run (Option Closure) := fun w =>
  some (.ok (w.findMethod? c initializerName), w)

/-- The instance to which a bound method is bound. -/
def boundInstance (f : Closure) : Run Value := fun w =>
  some (.ok (((f.visible.get? "this").bind fun l => w.store[l]?).getD .nil), w)

/-- Prints a value as a line. -/
def printLine (keyword : Token) (value : Value) : Run Unit := fun w =>
  match w.output.writeLine (w.pieces value) with
  | (output, true) => some (.ok (), { w with output })
  | (output, false) =>
    some (.error (keyword.fault (.outputFailed output.reason)), { w with output })

/-! ## Expressions and statements -/

/-- How a statement ends when it ends well. -/
inductive Flow where
  /-- What follows sees these names. -/
  | next (visible : Names)
  | returned (value : Value) (keyword : Token)

/-- The methods of a class that see these names; of two with one name the later one counts. -/
def methodTable (visible : Names) (methods : List FunctionDecl) : Bindings Closure :=
  .ofList (methods.map fun d =>
    (d.name.lexeme, ⟨d, visible, d.name.lexeme == initializerName⟩))

mutual

/-- Runs an expression. -/
def evaluate : Nat → Names → Option String → Expr → Run Value
  | 0, _, _, _ => outOfFuel
  | _ + 1, _, _, .literal value => pure value.value
  | fuel + 1, visible, pending, .grouping inner => evaluate fuel visible pending inner
  | fuel + 1, visible, pending, .unary operator right => do
    let right ← evaluate fuel visible pending right
    ofExcept (Value.unary operator right)
  | fuel + 1, visible, pending, .binary left operator right => do
    let left ← evaluate fuel visible pending left
    let right ← evaluate fuel visible pending right
    ofExcept (Value.binary operator left right)
  | fuel + 1, visible, pending, .logical left operator right => do
    let left ← evaluate fuel visible pending left
    if left.isTruthy = decide (operator.kind = .keyword .orWord) then pure left
    else evaluate fuel visible pending right
  | _ + 1, visible, _, .variable name _ => read visible name
  | fuel + 1, visible, pending, .assign name value _ => do
    let value ← evaluate fuel visible pending value
    write visible pending name value
    pure value
  | fuel + 1, visible, pending, .call callee paren arguments => do
    let callee ← evaluate fuel visible pending callee
    let arguments ← evaluateAll fuel visible pending arguments
    call fuel callee paren arguments
  | fuel + 1, visible, pending, .get object name => do
    match ← evaluate fuel visible pending object with
    | .instanceRef i => getProperty i name
    | _ => fault name .notAnInstance
  | fuel + 1, visible, pending, .set object name value => do
    match ← evaluate fuel visible pending object with
    | .instanceRef i =>
      let value ← evaluate fuel visible pending value
      setField i name.lexeme value
      pure value
    | _ => fault name .noFields
  | _ + 1, visible, _, .this keyword _ => read visible keyword
  | _ + 1, visible, _, .super keyword method _ => superMethod visible keyword method

/-- Runs expressions from left to right. -/
def evaluateAll : Nat → Names → Option String → List Expr → Run (List Value)
  | 0, _, _, _ => outOfFuel
  | _ + 1, _, _, [] => pure []
  | fuel + 1, visible, pending, e :: es => do
    let value ← evaluate fuel visible pending e
    let values ← evaluateAll fuel visible pending es
    pure (value :: values)

/-- Calls a value. -/
def call : Nat → Value → Token → List Value → Run Value
  | 0, _, _, _ => outOfFuel
  | fuel + 1, callee, paren, arguments => do
    match ← checkCall callee paren arguments.length with
    | .native f => callNative f
    | .closure f => invoke fuel f arguments
    | .construct c =>
      let this ← newInstance c
      match ← initializerOf c with
      | some initializer =>
        let initializer ← bindMethod initializer this
        let _ ← invoke fuel initializer arguments
        pure this
      | none => pure this

/-- Runs a function's body, which sees the parameters beside the names of the declaration. -/
def invoke : Nat → Closure → List Value → Run Value
  | 0, _, _ => outOfFuel
  | fuel + 1, f, arguments => do
    let visible ← allocateAll f.visible ((f.decl.params.map (·.lexeme)).zip arguments)
    let flow ← executeAll fuel false visible f.decl.body
    if f.isInitializer then boundInstance f
    else
      match flow with
      | .next _ => pure .nil
      | .returned value _ => pure value

/-- Runs a statement; declarations at the top of the program are global. -/
def execute : Nat → Bool → Names → Stmt → Run Flow
  | 0, _, _, _ => outOfFuel
  | fuel + 1, _, visible, .expression value => do
    let _ ← evaluate fuel visible none value
    pure (.next visible)
  | fuel + 1, _, visible, .print keyword value => do
    let value ← evaluate fuel visible none value
    printLine keyword value
    pure (.next visible)
  | _ + 1, atTop, visible, .var name none => do
    let visible ← declare atTop visible name.lexeme .nil
    pure (.next visible)
  | fuel + 1, atTop, visible, .var name (some initializer) => do
    let pending := if atTop then none else some name.lexeme
    let value ← evaluate fuel visible pending initializer
    let visible ← declare atTop visible name.lexeme value
    pure (.next visible)
  | fuel + 1, _, visible, .block body => do
    match ← executeAll fuel false visible body with
    | .next _ => pure (.next visible)
    | .returned value keyword => pure (.returned value keyword)
  | fuel + 1, atTop, visible, .conditional condition thenBranch elseBranch => do
    let condition ← evaluate fuel visible none condition
    if condition.isTruthy then execute fuel atTop visible thenBranch
    else
      match elseBranch with
      | some elseBranch => execute fuel atTop visible elseBranch
      | none => pure (.next visible)
  | fuel + 1, atTop, visible, .loop condition body =>
    executeLoop fuel atTop visible condition body
  | _ + 1, atTop, visible, .function decl => do
    -- the function sees its own name, so its location comes before the closure
    let visible ← declare atTop visible decl.name.lexeme .nil
    let f ← newFunction ⟨decl, visible, false⟩
    write visible none decl.name f
    pure (.next visible)
  | _ + 1, _, _, .ret keyword none => pure (.returned .nil keyword)
  | fuel + 1, _, visible, .ret keyword (some value) => do
    let value ← evaluate fuel visible none value
    pure (.returned value keyword)
  | _ + 1, atTop, visible, .classDecl name none methods => do
    let visible ← declare atTop visible name.lexeme .nil
    let c ← newClass ⟨name.lexeme, none, methodTable visible methods⟩
    write visible none name c
    pure (.next visible)
  | fuel + 1, atTop, visible, .classDecl name (some superclass) methods => do
    match ← evaluate fuel visible none superclass with
    | .classRef above =>
      let visible ← declare atTop visible name.lexeme .nil
      let inner ← allocate visible "super" (.classRef above)
      let c ← newClass ⟨name.lexeme, some above, methodTable inner methods⟩
      write visible none name c
      pure (.next visible)
    | _ => fault (superclassToken name superclass) .superclassNotClass

/-- Runs a loop: the body as long as the condition holds. -/
def executeLoop : Nat → Bool → Names → Expr → Stmt → Run Flow
  | 0, _, _, _, _ => outOfFuel
  | fuel + 1, atTop, visible, condition, body => do
    let value ← evaluate fuel visible none condition
    if value.isTruthy then
      match ← execute fuel atTop visible body with
      | .next _ => executeLoop fuel atTop visible condition body
      | .returned value keyword => pure (.returned value keyword)
    else pure (.next visible)

/-- Runs statements in order, each with the names that those before it have declared. -/
def executeAll : Nat → Bool → Names → List Stmt → Run Flow
  | 0, _, _, _ => outOfFuel
  | _ + 1, _, visible, [] => pure (.next visible)
  | fuel + 1, atTop, visible, s :: ss => do
    match ← execute fuel atTop visible s with
    | .next visible => executeAll fuel atTop visible ss
    | .returned value keyword => pure (.returned value keyword)

end

/-! ## Sessions -/

/-- Runs a program from its top, where no local names are visible. -/
def interpret (fuel : Nat) (program : List Stmt) : Run Unit := do
  match ← executeAll fuel true .empty program with
  | .next _ => pure ()
  | .returned _ keyword => fault keyword .returnAtTopLevel

/-- Compiles a source text where the globals are known and runs it. -/
def World.run (w : World) (fuel : Nat) (source : String) : Option (Outcome × World) :=
  match compile w.globals.names source with
  | .error errors => some (.rejected errors, w)
  | .ok program =>
    match interpret fuel program w with
    | some (.ok _, w) => some (.success, w)
    | some (.error e, w) => some (.failed e, w)
    | none => none

end Lox.Lexical
