import Lox.Run.Eval

/-!
# The parts of a run

`Starts m t m' t'` says that running the task `t` on the machine `m` starts the task `t'` on `m'`,
after the parts before it have ended well; `Visits` follows any number of such steps. Unlike a
result, a visit does not need the run to end. Nothing that goes wrong in a run is missed: an error
of a task is the error of a task that it starts, or its own (`Task.error_source`).
-/

set_option autoImplicit false

namespace Lox

/-! ## Tasks -/

/-- What the evaluator runs. With an expression goes the local variable, if any, of whose
initializer it is a part; the evaluator has no use for that. -/
inductive Task where
  | expr (pending : Option String) (e : Expr)
  | exprs (pending : Option String) (es : List Expr)
  | call (callee : Value) (paren : Token) (arguments : List Value)
  | invoke (f : Function) (arguments : List Value)
  | stmt (s : Stmt)
  | loop (condition : Expr) (body : Stmt)
  | stmts (ss : List Stmt)

/-- The error at which a run stops. -/
def Result.error? {α : Type} : Result α → Option RuntimeError
  | .error e _ => some e
  | _ => none

/-- The error at which a task stops. -/
def Task.error? (fuel : Nat) (m : Machine) : Task → Option RuntimeError
  | .expr _ e => (evaluate fuel e m).error?
  | .exprs _ es => (evaluateAll fuel es m).error?
  | .call callee paren arguments => (Lox.call fuel callee paren arguments m).error?
  | .invoke f arguments => (Lox.invoke fuel f arguments m).error?
  | .stmt s => (execute fuel s m).error?
  | .loop condition body => (executeLoop fuel condition body m).error?
  | .stmts ss => (executeAll fuel ss m).error?

/-- The local variable that a declaration on a machine declares, while its initializer runs. -/
def Machine.pending (m : Machine) (name : Token) : Option String :=
  if m.current = Machine.globalFrame then none else some name.lexeme

open Eval

/-- Running the first task on the first machine starts the second task on the second machine. -/
inductive Starts : Machine → Task → Machine → Task → Prop
  -- expressions
  | grouping {m : Machine} {p : Option String} {inner : Expr} :
      Starts m (.expr p (.grouping inner)) m (.expr p inner)
  | unary {m : Machine} {p : Option String} {operator : Token} {right : Expr} :
      Starts m (.expr p (.unary operator right)) m (.expr p right)
  | binaryLeft {m : Machine} {p : Option String} {left right : Expr} {operator : Token} :
      Starts m (.expr p (.binary left operator right)) m (.expr p left)
  | binaryRight {m m' : Machine} {p : Option String} {left right : Expr} {operator : Token}
      {fuel : Nat} {v : Value} (hl : evaluate fuel left m = .ok v m') :
      Starts m (.expr p (.binary left operator right)) m' (.expr p right)
  | logicalLeft {m : Machine} {p : Option String} {left right : Expr} {operator : Token} :
      Starts m (.expr p (.logical left operator right)) m (.expr p left)
  | logicalRight {m m' : Machine} {p : Option String} {left right : Expr} {operator : Token}
      {fuel : Nat} {v : Value} (hl : evaluate fuel left m = .ok v m')
      (hv : v.isTruthy ≠ decide (operator.kind = .keyword .orWord)) :
      Starts m (.expr p (.logical left operator right)) m' (.expr p right)
  | assigned {m : Machine} {p : Option String} {name : Token} {value : Expr} {depth : Option Nat} :
      Starts m (.expr p (.assign name value depth)) m (.expr p value)
  | callee {m : Machine} {p : Option String} {callee : Expr} {paren : Token}
      {arguments : List Expr} :
      Starts m (.expr p (.call callee paren arguments)) m (.expr p callee)
  | arguments {m m' : Machine} {p : Option String} {callee : Expr} {paren : Token}
      {arguments : List Expr} {fuel : Nat} {f : Value} (hc : evaluate fuel callee m = .ok f m') :
      Starts m (.expr p (.call callee paren arguments)) m' (.exprs p arguments)
  | call {m m' m'' : Machine} {p : Option String} {callee : Expr} {paren : Token}
      {arguments : List Expr} {fuel : Nat} {f : Value} {vs : List Value}
      (hc : evaluate fuel callee m = .ok f m') (ha : evaluateAll fuel arguments m' = .ok vs m'') :
      Starts m (.expr p (.call callee paren arguments)) m'' (.call f paren vs)
  | getObject {m : Machine} {p : Option String} {object : Expr} {name : Token} :
      Starts m (.expr p (.get object name)) m (.expr p object)
  | setObject {m : Machine} {p : Option String} {object value : Expr} {name : Token} :
      Starts m (.expr p (.set object name value)) m (.expr p object)
  | setValue {m m' : Machine} {p : Option String} {object value : Expr} {name : Token}
      {fuel : Nat} {i : InstanceId} (ho : evaluate fuel object m = .ok (.instanceRef i) m') :
      Starts m (.expr p (.set object name value)) m' (.expr p value)
  | exprsHead {m : Machine} {p : Option String} {e : Expr} {es : List Expr} :
      Starts m (.exprs p (e :: es)) m (.expr p e)
  | exprsTail {m m' : Machine} {p : Option String} {e : Expr} {es : List Expr} {fuel : Nat}
      {v : Value} (he : evaluate fuel e m = .ok v m') :
      Starts m (.exprs p (e :: es)) m' (.exprs p es)
  -- calls
  | function {m m' : Machine} {callee : Value} {paren : Token} {arguments : List Value}
      {f : Function} (hc : checkCall callee paren arguments.length m = .ok (.function f) m') :
      Starts m (.call callee paren arguments) m' (.invoke f arguments)
  | construct {m m₁ m₂ m₃ m₄ : Machine} {callee this : Value} {paren : Token}
      {arguments : List Value} {c : ClassId} {f g : Function}
      (hc : checkCall callee paren arguments.length m = .ok (.construct c) m₁)
      (hthis : newInstance c m₁ = .ok this m₂) (hinit : initializerOf c m₂ = .ok (some f) m₃)
      (hbind : bindMethod f this m₃ = .ok g m₄) :
      Starts m (.call callee paren arguments) m₄ (.invoke g arguments)
  | body {m m' : Machine} {f : Function} {arguments : List Value} {frame : FrameId}
      (hf : newFrame f.closure ((f.decl.params.map (·.lexeme)).zip arguments) m = .ok frame m') :
      Starts m (.invoke f arguments) { m' with current := frame } (.stmts f.decl.body)
  -- statements
  | expression {m : Machine} {value : Expr} :
      Starts m (.stmt (.expression value)) m (.expr none value)
  | printed {m : Machine} {keyword : Token} {value : Expr} :
      Starts m (.stmt (.print keyword value)) m (.expr none value)
  | initializer {m : Machine} {name : Token} {value : Expr} :
      Starts m (.stmt (.var name (some value))) m (.expr (m.pending name) value)
  | block {m m' : Machine} {ss : List Stmt} {frame : FrameId}
      (hf : newFrame m.current [] m = .ok frame m') :
      Starts m (.stmt (.block ss)) { m' with current := frame } (.stmts ss)
  | condition {m : Machine} {condition : Expr} {thenBranch : Stmt} {elseBranch : Option Stmt} :
      Starts m (.stmt (.conditional condition thenBranch elseBranch)) m (.expr none condition)
  | thenBranch {m m' : Machine} {condition : Expr} {thenBranch : Stmt} {elseBranch : Option Stmt}
      {fuel : Nat} {v : Value} (hc : evaluate fuel condition m = .ok v m')
      (hv : v.isTruthy = true) :
      Starts m (.stmt (.conditional condition thenBranch elseBranch)) m' (.stmt thenBranch)
  | elseBranch {m m' : Machine} {condition : Expr} {thenBranch elseBranch : Stmt}
      {fuel : Nat} {v : Value} (hc : evaluate fuel condition m = .ok v m')
      (hv : ¬ v.isTruthy = true) :
      Starts m (.stmt (.conditional condition thenBranch (some elseBranch))) m' (.stmt elseBranch)
  | loop {m : Machine} {condition : Expr} {body : Stmt} :
      Starts m (.stmt (.loop condition body)) m (.loop condition body)
  | returned {m : Machine} {keyword : Token} {value : Expr} :
      Starts m (.stmt (.ret keyword (some value))) m (.expr none value)
  | superclass {m : Machine} {name : Token} {superclass : Expr} {methods : List FunctionDecl} :
      Starts m (.stmt (.classDecl name (some superclass) methods)) m (.expr none superclass)
  | loopCondition {m : Machine} {condition : Expr} {body : Stmt} :
      Starts m (.loop condition body) m (.expr none condition)
  | loopBody {m m' : Machine} {condition : Expr} {body : Stmt} {fuel : Nat} {v : Value}
      (hc : evaluate fuel condition m = .ok v m') (hv : v.isTruthy = true) :
      Starts m (.loop condition body) m' (.stmt body)
  | loopAgain {m m' m'' : Machine} {condition : Expr} {body : Stmt} {fuel : Nat} {v : Value}
      (hc : evaluate fuel condition m = .ok v m') (hv : v.isTruthy = true)
      (hb : execute fuel body m' = .ok .next m'') :
      Starts m (.loop condition body) m'' (.loop condition body)
  | stmtsHead {m : Machine} {s : Stmt} {ss : List Stmt} : Starts m (.stmts (s :: ss)) m (.stmt s)
  | stmtsTail {m m' : Machine} {s : Stmt} {ss : List Stmt} {fuel : Nat}
      (hs : execute fuel s m = .ok .next m') :
      Starts m (.stmts (s :: ss)) m' (.stmts ss)

/-- Running a task comes to another one, in any number of steps. -/
inductive Visits (m : Machine) (t : Task) : Machine → Task → Prop
  | refl : Visits m t m t
  | tail {m' m'' : Machine} {t' t'' : Task} (h : Visits m t m' t') (hs : Starts m' t' m'' t'') :
      Visits m t m'' t''

/-! ## Where errors come from -/

/-- A task raises an error itself: the tasks that it starts end well. -/
inductive Raises : Machine → Task → RuntimeError → Prop
  | unary {m m' : Machine} {p : Option String} {operator : Token} {right : Expr} {fuel : Nat}
      {v : Value} {e : RuntimeError} (hr : evaluate fuel right m = .ok v m')
      (he : Value.unary operator v = .error e) : Raises m (.expr p (.unary operator right)) e
  | binary {m m' m'' : Machine} {p : Option String} {left right : Expr} {operator : Token}
      {fuel : Nat} {a b : Value} {e : RuntimeError} (hl : evaluate fuel left m = .ok a m')
      (hr : evaluate fuel right m' = .ok b m'') (he : Value.binary operator a b = .error e) :
      Raises m (.expr p (.binary left operator right)) e
  | read {m : Machine} {p : Option String} {name : Token} {depth : Option Nat} {e : RuntimeError}
      (he : (readVariable name depth m).error? = some e) :
      Raises m (.expr p (.variable name depth)) e
  | assign {m m' : Machine} {p : Option String} {name : Token} {value : Expr}
      {depth : Option Nat} {fuel : Nat} {v : Value} {e : RuntimeError}
      (hv : evaluate fuel value m = .ok v m')
      (he : (writeVariable name depth v m').error? = some e) :
      Raises m (.expr p (.assign name value depth)) e
  | property {m m' : Machine} {p : Option String} {object : Expr} {name : Token} {fuel : Nat}
      {i : InstanceId} {e : RuntimeError} (ho : evaluate fuel object m = .ok (.instanceRef i) m')
      (he : (getProperty i name m').error? = some e) : Raises m (.expr p (.get object name)) e
  | getOther {m m' : Machine} {p : Option String} {object : Expr} {name : Token} {fuel : Nat}
      {v : Value} (ho : evaluate fuel object m = .ok v m') (hv : ∀ i, v ≠ .instanceRef i) :
      Raises m (.expr p (.get object name)) (name.fault .notAnInstance)
  | setOther {m m' : Machine} {p : Option String} {object value : Expr} {name : Token}
      {fuel : Nat} {v : Value} (ho : evaluate fuel object m = .ok v m')
      (hv : ∀ i, v ≠ .instanceRef i) :
      Raises m (.expr p (.set object name value)) (name.fault .noFields)
  | this {m : Machine} {p : Option String} {keyword : Token} {depth : Option Nat}
      {e : RuntimeError} (he : (readVariable keyword depth m).error? = some e) :
      Raises m (.expr p (.this keyword depth)) e
  | super {m : Machine} {p : Option String} {keyword method : Token} {depth : Option Nat}
      {e : RuntimeError} (he : (superMethod keyword method depth m).error? = some e) :
      Raises m (.expr p (.super keyword method depth)) e
  | call {m : Machine} {callee : Value} {paren : Token} {arguments : List Value}
      {e : RuntimeError} (he : (checkCall callee paren arguments.length m).error? = some e) :
      Raises m (.call callee paren arguments) e
  | printed {m m' : Machine} {keyword : Token} {value : Expr} {fuel : Nat} {v : Value}
      {e : RuntimeError} (hv : evaluate fuel value m = .ok v m')
      (he : (printLine keyword v m').error? = some e) : Raises m (.stmt (.print keyword value)) e
  | superclass {m m' : Machine} {name : Token} {superclass : Expr} {methods : List FunctionDecl}
      {fuel : Nat} {v : Value} (hs : evaluate fuel superclass m = .ok v m')
      (hv : ∀ c, v ≠ .classRef c) :
      Raises m (.stmt (.classDecl name (some superclass) methods))
        ((superclassToken name superclass).fault .superclassNotClass)
  | assignClass {m m' : Machine} {name : Token} {superclass : Option Expr}
      {methods : List FunctionDecl} {c : Value} {e : RuntimeError}
      (he : (assignVisible name c m').error? = some e) :
      Raises m (.stmt (.classDecl name superclass methods)) e

namespace Eval

variable {α β : Type} {m : Machine} {e : RuntimeError}

@[simp] theorem error?_ok (a : α) (m : Machine) : (Result.ok a m).error? = none := rfl

@[simp] theorem error?_error (e : RuntimeError) (m : Machine) :
    (Result.error e m : Result α).error? = some e := rfl

@[simp] theorem error?_outOfFuel : (Result.outOfFuel : Result α).error? = none := rfl

@[simp] theorem error?_pure (a : α) (m : Machine) : ((pure a : Eval α) m).error? = none := rfl

@[simp] theorem error?_fault (token : Token) (cause : RuntimeCause) (m : Machine) :
    ((fault token cause : Eval α) m).error? = some (token.fault cause) := rfl

@[simp] theorem error?_ofExcept {r : Except RuntimeError α} :
    (ofExcept r m).error? = some e ↔ r = .error e := by
  cases r <;> simp [ofExcept]

@[simp] theorem error?_within {f : FrameId} {x : Eval α} :
    (within f x m).error? = (x { m with current := f }).error? := by
  unfold within
  cases x { m with current := f } <;> rfl

/-- Of two runs the first one stops at the error, or it ends well and the second one stops. -/
theorem error?_bind {x : Eval α} {f : α → Eval β} : ((x >>= f) m).error? = some e ↔
    (x m).error? = some e ∨ ∃ a m', x m = .ok a m' ∧ (f a m').error? = some e := by
  show (Eval.bind x f m).error? = some e ↔ _
  unfold Eval.bind
  cases x m with
  | ok a m' =>
    simp only [error?_ok, reduceCtorEq, false_or, Result.ok.injEq]
    constructor
    · exact fun h => ⟨a, m', ⟨rfl, rfl⟩, h⟩
    · rintro ⟨_, _, ⟨rfl, rfl⟩, h⟩
      exact h
  | error e' m' => simp
  | outOfFuel => simp

end Eval

/-- The error of an expression comes from a task that it starts, or it is its own. -/
theorem Expr.error_source {p : Option String} {expr : Expr} {fuel : Nat} {m : Machine}
    {e : RuntimeError} (h : (Task.expr p expr).error? (fuel + 1) m = some e) :
    Raises m (.expr p expr) e ∨
      ∃ m' t', Starts m (.expr p expr) m' t' ∧ t'.error? fuel m' = some e := by
  match expr with
  | .literal value => cases h
  | .grouping inner => exact .inr ⟨_, _, .grouping, h⟩
  | .unary operator right =>
    simp only [Task.error?, evaluate, error?_bind, error?_ofExcept] at h
    rcases h with h | ⟨v, m', hr, he⟩
    · exact .inr ⟨_, _, .unary, h⟩
    · exact .inl (.unary hr he)
  | .binary left operator right =>
    simp only [Task.error?, evaluate, error?_bind, error?_ofExcept] at h
    rcases h with h | ⟨a, m', hl, h | ⟨b, m'', hr, he⟩⟩
    · exact .inr ⟨_, _, .binaryLeft, h⟩
    · exact .inr ⟨_, _, .binaryRight hl, h⟩
    · exact .inl (.binary hl hr he)
  | .logical left operator right =>
    simp only [Task.error?, evaluate, error?_bind] at h
    rcases h with h | ⟨a, m', hl, h⟩
    · exact .inr ⟨_, _, .logicalLeft, h⟩
    · split at h
      · cases h
      · exact .inr ⟨_, _, .logicalRight hl ‹_›, h⟩
  | .variable name depth => exact .inl (.read h)
  | .assign name value depth =>
    simp only [Task.error?, evaluate, error?_bind, error?_pure] at h
    rcases h with h | ⟨v, m', hv, h | ⟨_, _, _, h⟩⟩
    · exact .inr ⟨_, _, .assigned, h⟩
    · exact .inl (.assign hv h)
    · cases h
  | .call callee paren arguments =>
    simp only [Task.error?, evaluate, error?_bind] at h
    rcases h with h | ⟨f, m', hc, h | ⟨vs, m'', ha, h⟩⟩
    · exact .inr ⟨_, _, .callee, h⟩
    · exact .inr ⟨_, _, .arguments hc, h⟩
    · exact .inr ⟨_, _, .call hc ha, h⟩
  | .get object name =>
    simp only [Task.error?, evaluate, error?_bind] at h
    rcases h with h | ⟨v, m', ho, h⟩
    · exact .inr ⟨_, _, .getObject, h⟩
    · split at h
      · exact .inl (.property ho h)
      · rename_i hv
        simp only [error?_fault, Option.some.injEq] at h
        subst h
        exact .inl (.getOther ho fun i hi => hv i hi)
  | .set object name value =>
    simp only [Task.error?, evaluate, error?_bind] at h
    rcases h with h | ⟨v, m', ho, h⟩
    · exact .inr ⟨_, _, .setObject, h⟩
    · split at h
      · simp only [error?_bind, setField, error?_ok, error?_pure] at h
        rcases h with h | ⟨_, _, _, h | ⟨_, _, _, h⟩⟩
        · exact .inr ⟨_, _, .setValue ho, h⟩
        · cases h
        · cases h
      · rename_i hv
        simp only [error?_fault, Option.some.injEq] at h
        subst h
        exact .inl (.setOther ho fun i hi => hv i hi)
  | .this keyword depth => exact .inl (.this h)
  | .super keyword method depth => exact .inl (.super h)

/-- The same for a statement. -/
theorem Stmt.error_source {s : Stmt} {fuel : Nat} {m : Machine} {e : RuntimeError}
    (h : (Task.stmt s).error? (fuel + 1) m = some e) :
    Raises m (.stmt s) e ∨ ∃ m' t', Starts m (.stmt s) m' t' ∧ t'.error? fuel m' = some e := by
  match s with
  | .expression value =>
    simp only [Task.error?, execute, error?_bind, error?_pure] at h
    rcases h with h | ⟨_, _, _, h⟩
    · exact .inr ⟨_, _, .expression, h⟩
    · cases h
  | .print keyword value =>
    simp only [Task.error?, execute, error?_bind, error?_pure] at h
    rcases h with h | ⟨v, m', hv, h | ⟨_, _, _, h⟩⟩
    · exact .inr ⟨_, _, .printed, h⟩
    · exact .inl (.printed hv h)
    · cases h
  | .var name none => cases h
  | .var name (some value) =>
    simp only [Task.error?, execute, error?_bind, error?_pure, define, error?_ok] at h
    rcases h with h | ⟨_, _, _, h | ⟨_, _, _, h⟩⟩
    · exact .inr ⟨_, _, .initializer, h⟩
    · cases h
    · cases h
  | .block body =>
    simp only [Task.error?, execute, error?_bind, error?_within] at h
    rcases h with h | ⟨_, _, hcurrent, h | ⟨frame, m', hf, h⟩⟩
    · cases h
    · cases h
    · cases hcurrent
      exact .inr ⟨_, _, .block hf, h⟩
  | .conditional condition thenBranch elseBranch =>
    cases elseBranch with
    | none =>
      simp only [Task.error?, execute, error?_bind] at h
      rcases h with h | ⟨v, m', hc, h⟩
      · exact .inr ⟨_, _, .condition, h⟩
      · split at h
        · exact .inr ⟨_, _, .thenBranch hc ‹_›, h⟩
        · cases h
    | some elseBranch =>
      simp only [Task.error?, execute, error?_bind] at h
      rcases h with h | ⟨v, m', hc, h⟩
      · exact .inr ⟨_, _, .condition, h⟩
      · split at h
        · exact .inr ⟨_, _, .thenBranch hc ‹_›, h⟩
        · exact .inr ⟨_, _, .elseBranch hc ‹_›, h⟩
  | .loop condition body => exact .inr ⟨_, _, .loop, h⟩
  | .function decl => cases h
  | .ret keyword none => cases h
  | .ret keyword (some value) =>
    simp only [Task.error?, execute, error?_bind, error?_pure] at h
    rcases h with h | ⟨_, _, _, h⟩
    · exact .inr ⟨_, _, .returned, h⟩
    · cases h
  | .classDecl name none methods =>
    simp only [Task.error?, execute, error?_bind, error?_pure] at h
    rcases h with h | ⟨_, _, _, h | ⟨_, _, _, h | ⟨_, _, _, h | ⟨_, _, _, h⟩⟩⟩⟩
    · cases h
    · cases h
    · cases h
    · exact .inl (.assignClass h)
    · cases h
  | .classDecl name (some superclass) methods =>
    simp only [Task.error?, execute, error?_bind] at h
    rcases h with h | ⟨v, m', hs, h⟩
    · exact .inr ⟨_, _, .superclass, h⟩
    · split at h
      · simp only [error?_bind, error?_pure] at h
        rcases h with h | ⟨_, _, _, h | ⟨_, _, _, h | ⟨_, _, _, h | ⟨_, _, _, h | ⟨_, _, _, h⟩⟩⟩⟩⟩
        · cases h
        · cases h
        · cases h
        · cases h
        · exact .inl (.assignClass h)
        · cases h
      · rename_i hv
        simp only [error?_fault, Option.some.injEq] at h
        subst h
        exact .inl (.superclass hs fun c hc => hv c hc)

/-- The error of a task comes from a task that it starts, or it is its own. -/
theorem Task.error_source {t : Task} {fuel : Nat} {m : Machine} {e : RuntimeError}
    (h : t.error? (fuel + 1) m = some e) :
    Raises m t e ∨ ∃ m' t', Starts m t m' t' ∧ t'.error? fuel m' = some e := by
  match t with
  | .expr p _ => exact Expr.error_source h
  | .stmt s => exact Stmt.error_source h
  | .exprs p [] => cases h
  | .exprs p (e :: es) =>
    simp only [Task.error?, evaluateAll, error?_bind, error?_pure] at h
    rcases h with h | ⟨v, m', hv, h | ⟨_, _, _, h⟩⟩
    · exact .inr ⟨_, _, .exprsHead, h⟩
    · exact .inr ⟨_, _, .exprsTail hv, h⟩
    · cases h
  | .call callee paren arguments =>
    simp only [Task.error?, Lox.call, error?_bind] at h
    rcases h with h | ⟨f, m', hc, h⟩
    · exact .inl (.call h)
    · split at h
      · rename_i f
        cases f
        cases h
      · exact .inr ⟨_, _, .function hc, h⟩
      · simp only [error?_bind] at h
        rcases h with h | ⟨this, m₂, hthis, h | ⟨initializer, m₃, hinit, h⟩⟩
        · cases h
        · cases h
        · split at h
          · simp only [error?_bind, error?_pure] at h
            rcases h with h | ⟨g, m₄, hbind, h | ⟨_, _, _, h⟩⟩
            · cases h
            · exact .inr ⟨_, _, .construct hc hthis hinit hbind, h⟩
            · cases h
          · cases h
  | .invoke f arguments =>
    simp only [Task.error?, Lox.invoke, error?_bind, error?_within] at h
    rcases h with h | ⟨frame, m', hf, h | ⟨flow, m'', hend, h⟩⟩
    · cases h
    · exact .inr ⟨_, _, .body hf, h⟩
    · split at h
      · cases h
      · cases flow <;> cases h
  | .loop condition body =>
    simp only [Task.error?, executeLoop, error?_bind] at h
    rcases h with h | ⟨v, m', hc, h⟩
    · exact .inr ⟨_, _, .loopCondition, h⟩
    · split at h
      · simp only [error?_bind] at h
        rcases h with h | ⟨flow, m'', hb, h⟩
        · exact .inr ⟨_, _, .loopBody hc ‹_›, h⟩
        · cases flow with
          | next => exact .inr ⟨_, _, .loopAgain hc ‹_› hb, h⟩
          | returned value keyword => cases h
      · cases h
  | .stmts [] => cases h
  | .stmts (s :: ss) =>
    simp only [Task.error?, executeAll, error?_bind] at h
    rcases h with h | ⟨flow, m', hs, h⟩
    · exact .inr ⟨_, _, .stmtsHead, h⟩
    · cases flow with
      | next => exact .inr ⟨_, _, .stmtsTail hs, h⟩
      | returned value keyword => cases h

theorem Visits.head {m m' m'' : Machine} {t t' t'' : Task} (hs : Starts m t m' t')
    (h : Visits m' t' m'' t'') : Visits m t m'' t'' := by
  induction h with
  | refl => exact .tail .refl hs
  | tail _ hs' ih => exact .tail ih hs'

/-- Every error of a run is raised by a task that the run visits. -/
theorem Task.error_visited : ∀ (fuel : Nat) {t : Task} {m : Machine} {e : RuntimeError},
    t.error? fuel m = some e → ∃ m' t', Visits m t m' t' ∧ Raises m' t' e
  | 0, t, _, _, h => by cases t <;> cases h
  | fuel + 1, _, _, _, h => by
    rcases Task.error_source h with hraises | ⟨m', t', hs, h'⟩
    · exact ⟨_, _, .refl, hraises⟩
    · obtain ⟨m'', t'', hv, hraises⟩ := Task.error_visited fuel h'
      exact ⟨m'', t'', .head hs hv, hraises⟩

end Lox
