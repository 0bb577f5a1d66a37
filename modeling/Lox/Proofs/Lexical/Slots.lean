import Lox.Proofs.Lexical.Session
import Lox.Proofs.Scope.Slots

/-!
# Lexical evaluation does not use slots

A program with empty slots runs lexically as the program does, in the world whose functions have
empty slots too (`interpret_bare`). So lexical evaluation of what has been parsed, without any slot
filled, shows what lexical evaluation of the checked program shows, and with it what a session shows
(`transcript_parsed`).
-/

set_option autoImplicit false

namespace Lox.Lexical

/-! ## Worlds with empty slots -/

/-- The function with empty slots. -/
def Closure.bare (f : Closure) : Closure :=
  { f with decl := f.decl.bare }

/-- The class with empty slots. -/
def Class.bare (c : Class) : Class :=
  { c with methods := c.methods.map Closure.bare }

/-- The world with empty slots in its functions. -/
def World.bare (w : World) : World :=
  { w with
    functions := w.functions.map Closure.bare
    classes := w.classes.map Class.bare }

/-- What is called, with empty slots. -/
def Callable.bare : Callable → Callable
  | .native f => .native f
  | .closure f => .closure f.bare
  | .construct c => .construct c

/-- The second run does with empty slots what the first does with any; the value is changed by
`g`. -/
def Run.Ignores {α β : Type} (g : α → β) (x : Run α) (y : Run β) : Prop :=
  ∀ w : World, y w.bare = (x w).map fun r => (r.1.map g, r.2.bare)

namespace Run.Ignores

variable {α β α' β' : Type} {g : α → α'} {h : β → β'}

theorem pure (g : α → α') (a : α) : Ignores g (pure a) (pure (g a)) :=
  fun _ => rfl

theorem bind {x : Run α} {y : Run α'} {f : α → Run β} {f' : α' → Run β'} (hx : Ignores g x y)
    (hf : ∀ a, Ignores h (f a) (f' (g a))) : Ignores h (x >>= f) (y >>= f') := by
  intro w
  show Run.bind y f' w.bare = (Run.bind x f w).map _
  unfold Run.bind
  rw [hx w]
  rcases x w with _ | ⟨e | a, w'⟩
  · rfl
  · rfl
  · exact hf a w'

/-- A step whose value has no slots. -/
theorem step {x y : Run α} {f : α → Run β} {f' : α → Run β'} (hx : Ignores id x y)
    (hf : ∀ a, Ignores h (f a) (f' a)) : Ignores h (x >>= f) (y >>= f') :=
  hx.bind hf

theorem outOfFuel : Ignores g Run.outOfFuel Run.outOfFuel :=
  fun _ => rfl

theorem fault (token : Token) (cause : RuntimeCause) :
    Ignores g (Run.fault token cause) (Run.fault token cause) :=
  fun _ => rfl

theorem ofExcept (r : Except RuntimeError α) :
    Ignores id (Run.ofExcept r) (Run.ofExcept r) := by
  cases r <;> exact fun _ => rfl

/-! ## Operations -/

theorem read (visible : Names) (name : Token) :
    Ignores id (Lexical.read visible name) (Lexical.read visible name) := by
  intro w
  unfold Lexical.read
  cases visible.get? name.lexeme with
  | some l => rfl
  | none =>
    simp only [World.bare]
    cases w.globals.get? name.lexeme <;> rfl

theorem write (visible : Names) (pending : Option String) (name : Token) (value : Value) :
    Ignores id (Lexical.write visible pending name value)
      (Lexical.write visible pending name value) := by
  intro w
  unfold Lexical.write
  split
  · rfl
  · cases visible.get? name.lexeme with
    | some l => rfl
    | none =>
      simp only [World.bare]
      cases w.globals.get? name.lexeme <;> rfl

theorem allocate (visible : Names) (name : String) (value : Value) :
    Ignores id (Lexical.allocate visible name value) (Lexical.allocate visible name value) :=
  fun _ => rfl

theorem allocateAll (bindings : List (String × Value)) (visible : Names) :
    Ignores id (Lexical.allocateAll visible bindings) (Lexical.allocateAll visible bindings) := by
  induction bindings generalizing visible with
  | nil => exact pure id visible
  | cons b rest ih => exact (allocate visible b.1 b.2).step ih

theorem declare (atTop : Bool) (visible : Names) (name : String) (value : Value) :
    Ignores id (Lexical.declare atTop visible name value)
      (Lexical.declare atTop visible name value) := by
  cases atTop with
  | true => exact fun _ => rfl
  | false => exact allocate visible name value

theorem newFunction (f : Closure) :
    Ignores id (Lexical.newFunction f) (Lexical.newFunction f.bare) := by
  intro w
  simp [Lexical.newFunction, World.bare, Except.map]

theorem newClass (c : Class) : Ignores id (Lexical.newClass c) (Lexical.newClass c.bare) := by
  intro w
  simp [Lexical.newClass, World.bare, Except.map]

theorem newInstance (c : ClassId) :
    Ignores id (Lexical.newInstance c) (Lexical.newInstance c) :=
  fun _ => rfl

theorem setField (i : InstanceId) (name : String) (value : Value) :
    Ignores id (Lexical.setField i name value) (Lexical.setField i name value) :=
  fun _ => rfl

theorem bindMethod (method : Closure) (this : Value) :
    Ignores Closure.bare (Lexical.bindMethod method this)
      (Lexical.bindMethod method.bare this) :=
  (allocate method.visible "this" this).step fun visible =>
    pure Closure.bare { method with visible }

end Run.Ignores

theorem World.findMethod?_bare (w : World) (c : ClassId) (name : String) :
    w.bare.findMethod? c name = (w.findMethod? c name).map Closure.bare := by
  induction c using Nat.strongRecOn with
  | ind c ih =>
    have hclass : w.bare.classes[c]? = w.classes[c]?.map Class.bare := Array.getElem?_map
    rw [World.findMethod?, World.findMethod?, hclass]
    cases w.classes[c]? with
    | none => rfl
    | some info =>
      simp only [Option.map_some, Class.bare, Bindings.get?_map]
      cases info.methods.get? name with
      | some f => rfl
      | none =>
        simp only [Option.map_none]
        cases info.superclass with
        | none => rfl
        | some above =>
          dsimp only
          by_cases hlt : above < c
          · rw [if_pos hlt, if_pos hlt, ih above hlt]
          · rw [if_neg hlt, if_neg hlt]
            rfl

theorem World.className_bare (w : World) (c : ClassId) : w.bare.className c = w.className c := by
  simp only [World.className, World.bare, Array.getElem?_map, Option.map_map]
  rfl

theorem World.pieces_bare (w : World) (v : Value) : w.bare.pieces v = w.pieces v := by
  cases v with
  | bool b => cases b <;> rfl
  | functionRef f =>
    simp only [World.pieces, World.bare, Array.getElem?_map, Option.map_map]
    cases w.functions[f]? with
    | none => rfl
    | some f => simp only [Option.map_some, Function.comp_apply, Closure.bare,
        FunctionDecl.bare_name]
  | classRef c => exact congrArg (fun s => [s]) (w.className_bare c)
  | instanceRef i =>
    simp only [World.pieces, w.className_bare]
    rfl
  | _ => rfl

theorem callable?_bare (w : World) (v : Value) :
    callable? w.bare v = (callable? w v).map fun f => (f.1.bare, f.2) := by
  cases v with
  | functionRef f =>
    simp only [callable?, World.bare, Array.getElem?_map, Option.map_map]
    cases w.functions[f]? with
    | none => rfl
    | some f => simp only [Option.map_some, Function.comp_apply, Closure.bare, Callable.bare,
        FunctionDecl.bare_params]
  | classRef c =>
    simp only [callable?, w.findMethod?_bare, Option.map_map]
    cases w.findMethod? c initializerName with
    | none => rfl
    | some f => simp only [Option.map_some, Function.comp_apply, Closure.bare, Callable.bare,
        FunctionDecl.bare_params]
  | _ => rfl

theorem methodTable_bare (visible : Names) (methods : List FunctionDecl) :
    methodTable visible (FunctionDecl.bareAll methods)
      = (methodTable visible methods).map Closure.bare := by
  rw [methodTable, methodTable, ← Bindings.ofList_map, FunctionDecl.bareAll_eq_map,
    List.map_map, List.map_map]
  refine congrArg Bindings.ofList (List.map_congr_left fun d _ => ?_)
  simp only [Function.comp_apply, FunctionDecl.bare_name, Closure.bare]

theorem superclassToken_bare (className : Token) (superclass : Expr) :
    superclassToken className superclass.bare = superclassToken className superclass := by
  cases superclass <;> rfl

namespace Run.Ignores

theorem boundMethod (c : ClassId) (name : Token) (this : Value) :
    Ignores id (Lexical.boundMethod c name this) (Lexical.boundMethod c name this) := by
  intro w
  unfold Lexical.boundMethod
  rw [w.findMethod?_bare]
  cases w.findMethod? c name.lexeme with
  | none => rfl
  | some method => exact (bindMethod method this).bind (fun f => newFunction f) w

theorem getProperty (i : InstanceId) (name : Token) :
    Ignores id (Lexical.getProperty i name) (Lexical.getProperty i name) := by
  intro w
  unfold Lexical.getProperty
  rw [show w.bare.instances = w.instances from rfl]
  cases w.instances[i]? with
  | none => rfl
  | some o =>
    dsimp only
    cases o.fields.get? name.lexeme with
    | some v => rfl
    | none => exact boundMethod o.ofClass name (.instanceRef i) w

theorem superMethod (visible : Names) (keyword method : Token) :
    Ignores id (Lexical.superMethod visible keyword method)
      (Lexical.superMethod visible keyword method) := by
  intro w
  unfold Lexical.superMethod
  rw [show w.bare.store = w.store from rfl]
  split
  · split
    · exact boundMethod _ method _ w
    · rfl
  · rfl

theorem checkCall (callee : Value) (paren : Token) (count : Nat) :
    Ignores Callable.bare (Lexical.checkCall callee paren count)
      (Lexical.checkCall callee paren count) := by
  intro w
  unfold Lexical.checkCall
  rw [callable?_bare]
  rcases callable? w callee with _ | ⟨f, arity⟩
  · rfl
  · simp only [Option.map_some]
    by_cases hcount : count = arity
    · rw [if_pos hcount, if_pos hcount]
      rfl
    · rw [if_neg hcount, if_neg hcount]
      rfl

theorem callNative (f : Native) : Ignores id (Lexical.callNative f) (Lexical.callNative f) := by
  cases f
  exact fun _ => rfl

theorem initializerOf (c : ClassId) :
    Ignores (Option.map Closure.bare) (Lexical.initializerOf c) (Lexical.initializerOf c) := by
  intro w
  unfold Lexical.initializerOf
  rw [w.findMethod?_bare]
  rfl

theorem boundInstance (f : Closure) :
    Ignores id (Lexical.boundInstance f) (Lexical.boundInstance f.bare) :=
  fun _ => rfl

theorem printLine (keyword : Token) (value : Value) :
    Ignores id (Lexical.printLine keyword value) (Lexical.printLine keyword value) := by
  intro w
  unfold Lexical.printLine
  rw [w.pieces_bare, show w.bare.output = w.output from rfl]
  obtain ⟨output, accepted⟩ := w.output.writeLine (w.pieces value)
  cases accepted <;> rfl

end Run.Ignores

/-! ## The evaluator -/

open Run

mutual

theorem evaluate_bare : ∀ (fuel : Nat) (visible : Names) (pending : Option String) (e : Expr),
    Ignores id (evaluate fuel visible pending e) (evaluate fuel visible pending e.bare)
  | 0, _, _, _ => .outOfFuel
  | fuel + 1, visible, pending, e => by
    cases e with
    | literal value => exact .pure id value.value
    | grouping inner => exact evaluate_bare fuel visible pending inner
    | unary operator right =>
      rw [Expr.bare, evaluate, evaluate]
      exact (evaluate_bare fuel visible pending right).step fun v => .ofExcept _
    | binary left operator right =>
      rw [Expr.bare, evaluate, evaluate]
      refine (evaluate_bare fuel visible pending left).step fun v => ?_
      exact (evaluate_bare fuel visible pending right).step fun u => .ofExcept _
    | logical left operator right =>
      rw [Expr.bare, evaluate, evaluate]
      refine (evaluate_bare fuel visible pending left).step fun v => ?_
      split
      · exact .pure id v
      · exact evaluate_bare fuel visible pending right
    | «variable» name depth => exact .read visible name
    | assign name value depth =>
      rw [Expr.bare, evaluate, evaluate]
      refine (evaluate_bare fuel visible pending value).step fun v => ?_
      exact (Ignores.write visible pending name v).step fun _ => .pure id v
    | call callee paren arguments =>
      rw [Expr.bare, evaluate, evaluate]
      refine (evaluate_bare fuel visible pending callee).step fun v => ?_
      refine (evaluateAll_bare fuel visible pending arguments).step fun vs => ?_
      exact call_bare fuel v paren vs
    | get object name =>
      rw [Expr.bare, evaluate, evaluate]
      refine (evaluate_bare fuel visible pending object).step fun v => ?_
      cases v with
      | instanceRef i => exact .getProperty i name
      | _ => exact .fault name _
    | set object name value =>
      rw [Expr.bare, evaluate, evaluate]
      refine (evaluate_bare fuel visible pending object).step fun v => ?_
      cases v with
      | instanceRef i =>
        refine (evaluate_bare fuel visible pending value).step fun u => ?_
        exact (Ignores.setField i name.lexeme u).step fun _ => .pure id u
      | _ => exact .fault name _
    | this keyword depth => exact .read visible keyword
    | super keyword method depth => exact .superMethod visible keyword method

theorem evaluateAll_bare : ∀ (fuel : Nat) (visible : Names) (pending : Option String)
    (es : List Expr), Ignores id (evaluateAll fuel visible pending es)
      (evaluateAll fuel visible pending (Expr.bareAll es))
  | 0, _, _, _ => .outOfFuel
  | _ + 1, _, _, [] => .pure id []
  | fuel + 1, visible, pending, e :: es => by
    rw [Expr.bareAll, evaluateAll, evaluateAll]
    refine (evaluate_bare fuel visible pending e).step fun v => ?_
    exact (evaluateAll_bare fuel visible pending es).step fun vs => .pure id (v :: vs)

theorem call_bare : ∀ (fuel : Nat) (callee : Value) (paren : Token) (arguments : List Value),
    Ignores id (call fuel callee paren arguments) (call fuel callee paren arguments)
  | 0, _, _, _ => .outOfFuel
  | fuel + 1, callee, paren, arguments => by
    rw [call]
    refine (Ignores.checkCall callee paren arguments.length).bind fun f => ?_
    cases f with
    | native f => exact .callNative f
    | closure f => exact invoke_bare fuel f arguments
    | construct c =>
      refine (Ignores.newInstance c).step fun this => ?_
      refine (Ignores.initializerOf c).bind fun initializer => ?_
      cases initializer with
      | none => exact .pure id this
      | some initializer =>
        refine (Ignores.bindMethod initializer this).bind fun f => ?_
        exact (invoke_bare fuel f arguments).step fun _ => .pure id this

theorem invoke_bare : ∀ (fuel : Nat) (f : Closure) (arguments : List Value),
    Ignores id (invoke fuel f arguments) (invoke fuel f.bare arguments)
  | 0, _, _ => .outOfFuel
  | fuel + 1, ⟨decl, visible, isInitializer⟩, arguments => by
    rw [invoke, invoke]
    simp only [Closure.bare, FunctionDecl.bare_params, FunctionDecl.bare_body]
    refine (Ignores.allocateAll _ visible).step fun inner => ?_
    refine (executeAll_bare fuel false inner decl.body).step fun flow => ?_
    cases isInitializer with
    | true => exact .boundInstance ⟨decl, visible, true⟩
    | false =>
      cases flow with
      | next inner => exact .pure id Value.nil
      | returned value keyword => exact .pure id value

theorem execute_bare : ∀ (fuel : Nat) (atTop : Bool) (visible : Names) (s : Stmt),
    Ignores id (execute fuel atTop visible s) (execute fuel atTop visible s.bare)
  | 0, _, _, _ => .outOfFuel
  | fuel + 1, atTop, visible, s => by
    match s with
    | .expression value =>
      rw [Stmt.bare, execute, execute]
      exact (evaluate_bare fuel visible none value).step fun _ => .pure id (Flow.next visible)
    | .print keyword value =>
      rw [Stmt.bare, execute, execute]
      refine (evaluate_bare fuel visible none value).step fun v => ?_
      exact (Ignores.printLine keyword v).step fun _ => .pure id (Flow.next visible)
    | .var name none =>
      exact (Ignores.declare atTop visible name.lexeme .nil).step fun inner =>
        .pure id (Flow.next inner)
    | .var name (some value) =>
      rw [Stmt.bare, Expr.bareOpt, execute, execute]
      refine (evaluate_bare fuel visible _ value).step fun v => ?_
      exact (Ignores.declare atTop visible name.lexeme v).step fun inner =>
        .pure id (Flow.next inner)
    | .block body =>
      rw [Stmt.bare, execute, execute]
      refine (executeAll_bare fuel false visible body).step fun flow => ?_
      cases flow with
      | next inner => exact .pure id (Flow.next visible)
      | returned value keyword => exact .pure id (Flow.returned value keyword)
    | .conditional condition thenBranch none =>
      rw [Stmt.bare, execute, execute]
      refine (evaluate_bare fuel visible none condition).step fun v => ?_
      split
      · exact execute_bare fuel atTop visible thenBranch
      · exact .pure id (Flow.next visible)
    | .conditional condition thenBranch (some elseBranch) =>
      rw [Stmt.bare, execute, execute]
      refine (evaluate_bare fuel visible none condition).step fun v => ?_
      split
      · exact execute_bare fuel atTop visible thenBranch
      · exact execute_bare fuel atTop visible elseBranch
    | .loop condition body => exact executeLoop_bare fuel atTop visible condition body
    | .function decl =>
      rw [Stmt.bare, execute, execute, FunctionDecl.bare_name]
      refine (Ignores.declare atTop visible decl.name.lexeme .nil).step fun inner => ?_
      refine (Ignores.newFunction ⟨decl, inner, false⟩).step fun f => ?_
      exact (Ignores.write inner none decl.name f).step fun _ => .pure id (Flow.next inner)
    | .ret keyword none => exact .pure id (Flow.returned .nil keyword)
    | .ret keyword (some value) =>
      rw [Stmt.bare, Expr.bareOpt, execute, execute]
      exact (evaluate_bare fuel visible none value).step fun v => .pure id (Flow.returned v keyword)
    | .classDecl name none methods =>
      rw [Stmt.bare, Expr.bareOpt, execute, execute]
      refine (Ignores.declare atTop visible name.lexeme .nil).step fun inner => ?_
      rw [methodTable_bare]
      refine (Ignores.newClass ⟨name.lexeme, none, methodTable inner methods⟩).step fun c => ?_
      exact (Ignores.write inner none name c).step fun _ => .pure id (Flow.next inner)
    | .classDecl name (some superclass) methods =>
      rw [Stmt.bare, Expr.bareOpt, execute, execute]
      refine (evaluate_bare fuel visible none superclass).step fun v => ?_
      cases v with
      | classRef above =>
        refine (Ignores.declare atTop visible name.lexeme .nil).step fun outer => ?_
        refine (Ignores.allocate outer "super" (.classRef above)).step fun inner => ?_
        rw [methodTable_bare]
        refine (Ignores.newClass
          ⟨name.lexeme, some above, methodTable inner methods⟩).step fun c => ?_
        exact (Ignores.write outer none name c).step fun _ => .pure id (Flow.next outer)
      | _ =>
        dsimp only
        rw [superclassToken_bare]
        exact .fault _ _

theorem executeLoop_bare : ∀ (fuel : Nat) (atTop : Bool) (visible : Names) (condition : Expr)
    (body : Stmt), Ignores id (executeLoop fuel atTop visible condition body)
      (executeLoop fuel atTop visible condition.bare body.bare)
  | 0, _, _, _, _ => .outOfFuel
  | fuel + 1, atTop, visible, condition, body => by
    rw [executeLoop, executeLoop]
    refine (evaluate_bare fuel visible none condition).step fun v => ?_
    split
    · refine (execute_bare fuel atTop visible body).step fun flow => ?_
      cases flow with
      | next inner => exact executeLoop_bare fuel atTop visible condition body
      | returned value keyword => exact .pure id (Flow.returned value keyword)
    · exact .pure id (Flow.next visible)

theorem executeAll_bare : ∀ (fuel : Nat) (atTop : Bool) (visible : Names) (ss : List Stmt),
    Ignores id (executeAll fuel atTop visible ss) (executeAll fuel atTop visible (Stmt.bareAll ss))
  | 0, _, _, _ => .outOfFuel
  | _ + 1, _, visible, [] => .pure id (Flow.next visible)
  | fuel + 1, atTop, visible, s :: ss => by
    rw [Stmt.bareAll, executeAll, executeAll]
    refine (execute_bare fuel atTop visible s).step fun flow => ?_
    cases flow with
    | next inner => exact executeAll_bare fuel atTop inner ss
    | returned value keyword => exact .pure id (Flow.returned value keyword)

end

/-- **Slots have no part in lexical evaluation.** -/
theorem interpret_bare (fuel : Nat) (program : List Stmt) :
    Ignores id (interpret fuel program) (interpret fuel (Stmt.bareAll program)) := by
  unfold interpret
  refine (executeAll_bare fuel true .empty program).step fun flow => ?_
  cases flow with
  | next inner => exact .pure id ()
  | returned value keyword => exact .fault keyword _

/-! ## Sessions -/

/-- Runs a source text as it was parsed, with no slot filled, if it has no errors. -/
def World.runParsed (w : World) (fuel : Nat) (source : String) : Option (Outcome × World) :=
  match readSource Grammar.parse source with
  | .error errors => some (.rejected errors, w)
  | .ok parsed =>
    match (resolve w.globals.names parsed).errors with
    | [] =>
      match interpret fuel parsed w with
      | some (.ok _, w) => some (.success, w)
      | some (.error e, w) => some (.failed e, w)
      | none => none
    | errors => some (.rejected errors, w)

/-- What lexical evaluation shows of source texts as they were parsed. -/
def World.transcriptParsed (w : World) : List (Nat × String) → Option (List (Outcome × Output))
  | [] => some []
  | (fuel, source) :: rest =>
    match w.runParsed fuel source with
    | some (outcome, w) => (w.transcriptParsed rest).map ((outcome, w.output) :: ·)
    | none => none

theorem World.runParsed_bare (w : World) (fuel : Nat) (source : String) :
    w.bare.runParsed fuel source = (w.run fuel source).map fun r => (r.1, r.2.bare) := by
  unfold World.runParsed World.run compile
  cases hread : readSource Grammar.parse source with
  | error errors => rfl
  | ok parsed =>
    have hbare : Stmt.bareAll (resolve w.globals.names parsed).value.1 = parsed :=
      resolve_bare (readSource_shaped hread)
    simp only [bind, Except.bind]
    rw [show w.bare.globals = w.globals from rfl]
    generalize resolve w.globals.names parsed = checked at hbare ⊢
    obtain ⟨⟨program, scopes⟩, errors⟩ := checked
    cases errors with
    | cons e errors => rfl
    | nil =>
      have hrun := interpret_bare fuel program w
      rw [show Stmt.bareAll program = parsed from hbare] at hrun
      dsimp only
      rw [hrun]
      rcases interpret fuel program w with _ | ⟨e | a, w'⟩ <;> rfl

theorem World.transcriptParsed_bare (sources : List (Nat × String)) (w : World) :
    w.bare.transcriptParsed sources = w.transcript sources := by
  induction sources generalizing w with
  | nil => rfl
  | cons first rest ih =>
    rw [transcriptParsed, World.transcript, w.runParsed_bare]
    rcases w.run first.1 first.2 with _ | ⟨outcome, w'⟩
    · rfl
    · simp only [Option.map_some, ih]
      rfl

/-- A session shows what lexical evaluation shows of the texts as they were parsed. -/
theorem transcript_parsed (output : Output) (clock : Clock) (sources : List (Nat × String)) :
    (Session.start output clock).transcript sources
      = (World.start output clock).transcriptParsed sources := by
  have hstart : (World.start output clock).bare = World.start output clock := by
    simp [World.bare, World.start]
  rw [(Matches.start output clock).transcript sources, ← hstart, World.transcriptParsed_bare,
    hstart]

end Lox.Lexical
