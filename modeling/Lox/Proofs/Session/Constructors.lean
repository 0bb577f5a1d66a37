import Lox.Proofs.Dispatch.Initializers
import Lox.Proofs.Session.GlobalNames
import Mathlib

/-!
# Calling classes

What a call of a class does, and what a call of a bound initializer does, in every state that the
runs of source texts come to (`initializers_give_instances`):

* a class takes the arguments of the nearest initializer of its lineage, and the call gives the new
  instance, however the body of the initializer ends;
* an initializer that has become a value is bound to an instance, and calling it gives that instance
  whenever the call comes.

The equations for calls hold on settled machines (`Machine.Settled.call_class`,
`Machine.Settled.call_function`). Runs of accepted programs lead to no others, since the trees that
they run are scoped (`Starts.settled`).
-/

set_option autoImplicit false

namespace Lox

open Eval

/-! ## Calls -/

section

variable {α β : Type} {m m' : Machine}

/-- The result with this value in the place of its own. -/
def Result.giving (v : β) : Result α → Result β
  | .ok _ m => .ok v m
  | .error e m => .error e m
  | .outOfFuel => .outOfFuel

/-- Makes an instance and runs the initializer, if there is one, on it. -/
def construct (fuel : Nat) (c : ClassId) (init : Option Function) (arguments : List Value) :
    Eval Flow := do
  let this ← newInstance c
  match init with
  | some f => runBody fuel (← bindMethod f this) arguments
  | none => pure .next

/-- The number of arguments that an initializer takes; without one there are none. -/
def initializerArity (init : Option Function) : Nat :=
  (init.map (·.decl.params.length)).getD 0

/-- What a class does when it is called, where its initializer is this one. -/
structure Machine.CallsClass (m : Machine) (c : ClassId) (init : Option Function) (paren : Token)
    (arguments : List Value) : Prop where
  /-- With another number of arguments nothing runs. -/
  wrongCount : arguments.length ≠ initializerArity init → ∀ fuel,
    call (fuel + 1) (.classRef c) paren arguments m =
      .error (paren.fault (.wrongArgumentCount (initializerArity init) arguments.length)) m
  /-- With the right number there is no such error, not even one from inside the initializer. -/
  rightCount : arguments.length = initializerArity init → ∀ fuel e,
    (Task.call (.classRef c) paren arguments).error? fuel m = some e →
      e.cause ≠ .wrongArgumentCount (initializerArity init) arguments.length
  /-- The call gives the new instance where the initializer ends, and its error where it fails. -/
  gives : arguments.length = initializerArity init → ∀ fuel,
    call (fuel + 2) (.classRef c) paren arguments m =
      (construct fuel c init arguments m).giving (.instanceRef m.instances.size)
  /-- The new instance is one of the class itself. -/
  ofClass : ∀ fuel v m', call fuel (.classRef c) paren arguments m = .ok v m' →
    v = .instanceRef m.instances.size ∧
      ∃ o, m'.instances[m.instances.size]? = some o ∧ o.ofClass = c

/-- The function object is an initializer, and bound to the instance. -/
structure Machine.BoundInit (m : Machine) (id : Nat) (f : Function) (i : InstanceId) : Prop where
  object : m.functions[id]? = some f
  isInit : f.isInitializer = true
  this : m.frames.here? f.closure "this" = some (.instanceRef i)

/-- What a bound initializer does when it is called. -/
structure Machine.CallsInit (m : Machine) (id : Nat) (f : Function) (i : InstanceId)
    (paren : Token) (arguments : List Value) : Prop where
  wrongCount : arguments.length ≠ f.decl.params.length → ∀ fuel,
    call (fuel + 1) (.functionRef id) paren arguments m =
      .error (paren.fault (.wrongArgumentCount f.decl.params.length arguments.length)) m
  /-- The call gives the instance where the body ends, and its error where it fails. -/
  gives : arguments.length = f.decl.params.length → ∀ fuel,
    call (fuel + 2) (.functionRef id) paren arguments m =
      (runBody fuel f arguments m).giving (.instanceRef i)

theorem Machine.BoundInit.mono {id : Nat} {f : Function} {i : InstanceId} (h : m.BoundInit id f i)
    (hm : m.Retains m') : m'.BoundInit id f i :=
  ⟨hm.functions h.object, h.isInit, hm.this h.this⟩

/-- The end of a body has a result. -/
theorem resultOf_ok (f : Function) (flow : Flow) (m : Machine) :
    ∃ v, resultOf f flow m = .ok v m := by
  unfold resultOf
  split
  · exact ⟨_, rfl⟩
  · cases flow <;> exact ⟨_, rfl⟩

theorem resultOf_init {f : Function} (hf : f.isInitializer = true) (flow : Flow) :
    resultOf f flow = boundInstance f :=
  if_pos hf

/-- A call whose result is dropped. -/
theorem invoke_giving (fuel : Nat) (f : Function) (arguments : List Value) (v : Value)
    (m : Machine) : (invoke (fuel + 1) f arguments >>= fun _ => (pure v : Eval Value)) m =
      (runBody fuel f arguments m).giving v := by
  rw [invoke_eq, bind_assoc]
  cases hrun : runBody fuel f arguments m with
  | ok flow m' =>
    obtain ⟨result, hresult⟩ := resultOf_ok f flow m'
    rw [bind_of_ok hrun, bind_of_ok hresult]
    rfl
  | error e m' => exact bind_of_error hrun
  | outOfFuel => exact bind_of_outOfFuel hrun

/-- With another number of arguments nothing runs. -/
theorem call_class_wrongCount {c : ClassId} {paren : Token} {arguments : List Value}
    (h : arguments.length ≠ initializerArity (m.findMethod? c initializerName)) (fuel : Nat) :
    call (fuel + 1) (.classRef c) paren arguments m = .error (paren.fault (.wrongArgumentCount
      (initializerArity (m.findMethod? c initializerName)) arguments.length)) m := by
  have hcheck : checkCall (.classRef c) paren arguments.length m = .error (paren.fault
      (.wrongArgumentCount (initializerArity (m.findMethod? c initializerName))
        arguments.length)) m := if_neg h
  rw [call, bind_of_error hcheck]

/-- With the right number the call makes an instance and runs the initializer on it. -/
theorem call_class_gives {c : ClassId} {paren : Token} {arguments : List Value}
    (h : arguments.length = initializerArity (m.findMethod? c initializerName)) (fuel : Nat) :
    call (fuel + 2) (.classRef c) paren arguments m =
      (construct fuel c (m.findMethod? c initializerName) arguments m).giving
        (.instanceRef m.instances.size) := by
  have hcheck : checkCall (.classRef c) paren arguments.length m = .ok (.construct c) m := if_pos h
  -- the search comes after the instance, but it depends on the classes only
  obtain ⟨m', hnew, hclasses⟩ : ∃ m', newInstance c m = .ok (.instanceRef m.instances.size) m' ∧
      m'.classes = m.classes := ⟨_, rfl, rfl⟩
  have hinit : initializerOf c m' = .ok (m.findMethod? c initializerName) m' :=
    congrArg (Result.ok · m') (Machine.findMethod?_congr hclasses c initializerName)
  rw [call, bind_of_ok hcheck, construct, bind_of_ok hnew]
  dsimp only
  rw [bind_of_ok hnew, bind_of_ok hinit]
  cases m.findMethod? c initializerName with
  | none => rfl
  | some f => exact invoke_giving fuel _ arguments _ _

/-- A call that ends well ends so with more fuel. -/
theorem call_ok_more {fuel : Nat} {callee v : Value} {paren : Token} {arguments : List Value}
    (h : call fuel callee paren arguments m = .ok v m') :
    call (fuel + 2) callee paren arguments m = .ok v m' := by
  have hlasts := (call_lasts fuel callee paren arguments m).trans
    (call_lasts (fuel + 1) callee paren arguments m)
  rw [h] at hlasts
  exact hlasts.resolve_left nofun

theorem Result.giving_ok {r : Result α} {v v' : β} (h : r.giving v = .ok v' m') :
    v' = v ∧ ∃ a, r = .ok a m' := by
  cases r with
  | ok a m =>
    cases h
    exact ⟨rfl, a, rfl⟩
  | error => cases h
  | outOfFuel => cases h

/-- Only a call counts arguments. -/
def RuntimeCause.countsArguments : RuntimeCause → Bool
  | .wrongArgumentCount _ _ => true
  | _ => false

section

variable {e : RuntimeError}

theorem Value.unary_counts {operator : Token} {v : Value} (h : Value.unary operator v = .error e) :
    e.cause.countsArguments = false := by
  unfold Value.unary at h
  split at h
  · split at h <;> cases h
    rfl
  · cases h
  · cases h
    rfl

theorem Value.binary_counts {operator : Token} {v w : Value}
    (h : Value.binary operator v w = .error e) : e.cause.countsArguments = false := by
  unfold Value.binary at h
  split at h
  · cases h
  · cases h
  · split at h <;> cases h
    rfl
  · split at h
    · unfold Value.arithmetic at h
      split at h <;> cases h
      rfl
    · cases h
      rfl

theorem Eval.readVariable_counts {name : Token} {depth : Option Nat}
    (h : (readVariable name depth m).error? = some e) : e.cause.countsArguments = false := by
  unfold readVariable at h
  split at h <;> split at h <;> cases h
  · rename_i err _
    cases err <;> rfl
  · rfl

theorem Eval.writeVariable_counts {name : Token} {depth : Option Nat} {v : Value}
    (h : (writeVariable name depth v m).error? = some e) : e.cause.countsArguments = false := by
  unfold writeVariable at h
  split at h <;> split at h <;> cases h
  · rename_i err _
    cases err <;> rfl
  · rfl

theorem Eval.assignVisible_counts {name : Token} {v : Value}
    (h : (assignVisible name v m).error? = some e) : e.cause.countsArguments = false := by
  unfold assignVisible at h
  split at h <;> cases h
  rfl

theorem Eval.boundMethod_counts {c : ClassId} {name : Token} {this : Value}
    (h : (boundMethod c name this m).error? = some e) : e.cause.countsArguments = false := by
  unfold boundMethod at h
  split at h <;> cases h
  rfl

theorem Eval.getProperty_counts {i : InstanceId} {name : Token}
    (h : (getProperty i name m).error? = some e) : e.cause.countsArguments = false := by
  unfold getProperty at h
  split at h
  · cases h
    rfl
  · split at h
    · cases h
    · exact boundMethod_counts h

theorem Eval.superMethod_counts {keyword method : Token} {depth : Option Nat}
    (h : (superMethod keyword method depth m).error? = some e) :
    e.cause.countsArguments = false := by
  unfold superMethod at h
  split at h
  · cases h
    rfl
  · split at h
    · split at h
      · cases h
        rfl
      · split at h
        · exact boundMethod_counts h
        · cases h
          rfl
    · cases h
      rfl

theorem Eval.printLine_counts {keyword : Token} {v : Value}
    (h : (printLine keyword v m).error? = some e) : e.cause.countsArguments = false := by
  unfold printLine at h
  split at h <;> cases h
  rfl

/-- The error of a call with the wrong number of arguments names two different numbers. -/
theorem Raises.wrongCount {t : Task} {k n : Nat} (h : Raises m t e)
    (he : e.cause = .wrongArgumentCount k n) : k ≠ n := by
  have hcounts : e.cause.countsArguments = true := by rw [he]; rfl
  -- every task but a call raises errors with other causes
  cases h with
  | unary _ h => exact absurd hcounts (by rw [Value.unary_counts h]; decide)
  | binary _ _ h => exact absurd hcounts (by rw [Value.binary_counts h]; decide)
  | read h => exact absurd hcounts (by rw [readVariable_counts h]; decide)
  | assign _ h => exact absurd hcounts (by rw [writeVariable_counts h]; decide)
  | property _ h => exact absurd hcounts (by rw [getProperty_counts h]; decide)
  | getOther | setOther | superclass => cases hcounts
  | this h => exact absurd hcounts (by rw [readVariable_counts h]; decide)
  | super h => exact absurd hcounts (by rw [superMethod_counts h]; decide)
  | printed _ h => exact absurd hcounts (by rw [printLine_counts h]; decide)
  | assignClass h => exact absurd hcounts (by rw [assignVisible_counts h]; decide)
  | call h =>
    unfold checkCall at h
    split at h
    · cases h
      cases he
    · split at h
      · cases h
      · cases h
        cases he
        exact fun hkn => absurd hkn.symm ‹_›

end

/-- The body of an attached function. -/
theorem runBody_settles (h : m.Settled) {f : Function} (hf : f.Attached m) (fuel : Nat)
    (arguments : List Value) : Settles.Plain m (runBody fuel f arguments m) := by
  obtain ⟨n, htree⟩ := hf.tree
  exact h.runBody htree arguments fun hs hb => executeAll_settles fuel hs hb

/-- The new instance stays one of its class. -/
theorem construct_ofClass (h : m.Settled) {fuel : Nat} {c : ClassId} {arguments : List Value}
    {flow : Flow} (hrun : construct fuel c (m.findMethod? c initializerName) arguments m
      = .ok flow m') :
    ∃ o, m'.instances[m.instances.size]? = some o ∧ o.ofClass = c := by
  obtain ⟨m₁, hnew, hinstance⟩ : ∃ m₁, newInstance c m = .ok (.instanceRef m.instances.size) m₁ ∧
      m₁.instances[m.instances.size]? = some ⟨c, .empty⟩ := ⟨_, rfl, Array.getElem?_push_size⟩
  obtain ⟨-, hs, -⟩ := (h.newInstance c).of_ok hnew
  rw [construct, bind_of_ok hnew] at hrun
  cases hfind : m.findMethod? c initializerName with
  | none =>
    rw [hfind] at hrun
    cases hrun
    exact ⟨_, hinstance, rfl⟩
  | some f =>
    rw [hfind] at hrun
    have hsettles := (hs.bindMethod (h.findMethod hfind).1 hinstance).bind
      fun _ hs hf => runBody_settles hs hf.1 fuel arguments
    obtain ⟨hr, -⟩ := hsettles.of_ok hrun
    obtain ⟨o, ho, hc⟩ := hr.instances hinstance
    exact ⟨o, ho, hc⟩

/-- The call of a class. -/
theorem Machine.Settled.callsClass (h : m.Settled) (c : ClassId) (paren : Token)
    (arguments : List Value) :
    m.CallsClass c (m.findMethod? c initializerName) paren arguments where
  wrongCount := call_class_wrongCount
  rightCount := by
    intro hcount fuel e he hcause
    obtain ⟨m', t, -, hraises⟩ := Task.error_visited fuel he
    exact hraises.wrongCount hcause hcount.symm
  gives := call_class_gives
  ofClass := by
    intro fuel v m' hrun
    by_cases hcount : arguments.length = initializerArity (m.findMethod? c initializerName)
    · have hgives := call_ok_more hrun
      rw [call_class_gives hcount] at hgives
      obtain ⟨rfl, flow, hflow⟩ := Result.giving_ok hgives
      exact ⟨rfl, construct_ofClass h hflow⟩
    · have hwrong := @call_class_wrongCount m c paren arguments hcount (fuel + 1)
      rw [call_ok_more hrun] at hwrong
      cases hwrong

theorem Machine.BoundInit.callable? {id : Nat} {f : Function} {i : InstanceId}
    (hf : m.BoundInit id f i) :
    Eval.callable? m (.functionRef id) = some (.function f, f.decl.params.length) := by
  simp only [Eval.callable?, hf.object, Option.map_some]

/-- The call of a bound initializer. -/
theorem Machine.Settled.callsInit (h : m.Settled) {id : Nat} {f : Function} {i : InstanceId}
    (hf : m.BoundInit id f i) (paren : Token) (arguments : List Value) :
    m.CallsInit id f i paren arguments where
  wrongCount := by
    intro hcount fuel
    have hcheck : Eval.checkCall (.functionRef id) paren arguments.length m = .error
        (paren.fault (.wrongArgumentCount f.decl.params.length arguments.length)) m := by
      unfold Eval.checkCall
      rw [hf.callable?]
      exact if_neg hcount
    rw [call, bind_of_error hcheck]
  gives := by
    intro hcount fuel
    have hcheck : Eval.checkCall (.functionRef id) paren arguments.length m
        = .ok (.function f) m := by
      unfold Eval.checkCall
      rw [hf.callable?]
      exact if_pos hcount
    rw [call, bind_of_ok hcheck]
    dsimp only
    rw [invoke_eq]
    cases hrun : Lox.runBody fuel f arguments m with
    | ok flow m' =>
      -- what the frame of the closure binds to `this` is the same after the body
      obtain ⟨hr, -⟩ := (runBody_settles h (h.functions hf.object) fuel arguments).of_ok hrun
      rw [bind_of_ok hrun, resultOf_init hf.isInit]
      unfold boundInstance
      rw [hr.this hf.this]
      rfl
    | error e m' => exact bind_of_error hrun
    | outOfFuel => exact bind_of_outOfFuel hrun

/-- The expression names an initializer: that of the instance that is its object, or that of a
superclass for the instance that `this` is. -/
inductive NamesInit (m : Machine) : Expr → InstanceId → Prop
  | property {object : Expr} {name : Token} {fuel : Nat} {i : InstanceId} {o : Instance}
      {m' : Machine} (hname : name.lexeme = initializerName)
      (hobject : evaluate fuel object m = .ok (.instanceRef i) m')
      (ho : m'.instances[i]? = some o) (hfield : o.fields.get? name.lexeme = none) :
      NamesInit m (.get object name) i
  | super {keyword method : Token} {d : Nat} {i : InstanceId}
      (hname : method.lexeme = initializerName)
      (hthis : m.frames.getAt m.current d "this" = .ok (.instanceRef i)) :
      NamesInit m (.super keyword method (some (d + 1))) i

/-- Where an initializer is named it is bound to that instance. -/
theorem Machine.Settled.namesInit (h : m.Settled) {e : Expr} {n : Nest} {p : Option String}
    (he : e.Scoped n p) {i : InstanceId} (hi : NamesInit m e i) {fuel : Nat} {v : Value}
    (hv : evaluate fuel e m = .ok v m') : ∃ id f, v = .functionRef id ∧ m'.BoundInit id f i := by
  cases hi with
  | @property object name fuel' i o m₁ hname hobject ho hfield =>
    simp only [Expr.Scoped] at he
    obtain ⟨-, hs, -⟩ := (evaluate_settles fuel' h he).of_ok hobject
    cases fuel with
    | zero => cases hv
    | succ fuel =>
      rw [evaluate] at hv
      obtain ⟨w, m₂, hw, hget⟩ := bind_eq_ok hv
      obtain ⟨rfl, rfl⟩ := evaluate_ok_unique hobject hw
      have hmethod := ((hs.getProperty i name).of_ok hget).2.2
      obtain ⟨id, f, rfl, hid, hinit, hf⟩ := hmethod fun o' ho' => by
        rw [ho] at ho'
        cases ho'
        exact hfield
      exact ⟨id, f, rfl, hid, by rw [hinit, hname]; rfl, hf⟩
  | super hname hthis =>
    cases fuel with
    | zero => cases hv
    | succ fuel =>
      rw [evaluate] at hv
      obtain ⟨-, -, d', i', hd, hthis', id, f, rfl, hid, hinit, hf⟩ :=
        (h.superMethod _ _ _).of_ok hv
      cases hd
      rw [hthis] at hthis'
      cases hthis'
      exact ⟨id, f, rfl, hid, by rw [hinit, hname]; rfl, hf⟩

/-- A call of a bound initializer that ends well gives its instance. -/
theorem Machine.CallsInit.eq {id : Nat} {f : Function} {i : InstanceId} {paren : Token}
    {arguments : List Value} (h : m.CallsInit id f i paren arguments) {fuel : Nat} {v : Value}
    (hv : call fuel (.functionRef id) paren arguments m = .ok v m') : v = .instanceRef i := by
  have hmore := call_ok_more hv
  by_cases hcount : arguments.length = f.decl.params.length
  · rw [h.gives hcount] at hmore
    exact (Result.giving_ok hmore).1
  · rw [h.wrongCount hcount] at hmore
    cases hmore

/-- So does a call of an initializer that is named there. -/
theorem Machine.Settled.callNamed (h : m.Settled) {e : Expr} {paren : Token}
    {arguments : List Expr} {n : Nest} {p : Option String}
    (he : (Expr.call e paren arguments).Scoped n p) {i : InstanceId} (hi : NamesInit m e i)
    {fuel : Nat} {v : Value} (hv : evaluate fuel (.call e paren arguments) m = .ok v m') :
    v = .instanceRef i := by
  simp only [Expr.Scoped] at he
  cases fuel with
  | zero => cases hv
  | succ fuel =>
    rw [evaluate] at hv
    obtain ⟨callee, m₁, hcallee, hv⟩ := bind_eq_ok hv
    obtain ⟨vs, m₂, harguments, hv⟩ := bind_eq_ok hv
    obtain ⟨id, f, rfl, hbound⟩ := h.namesInit he.1 hi hcallee
    obtain ⟨-, hs, -⟩ := (evaluate_settles fuel h he.1).of_ok hcallee
    obtain ⟨hr, hs, -⟩ := (evaluateAll_settles fuel hs he.2).of_ok harguments
    exact (hs.callsInit (hbound.mono hr) paren vs).eq hv

end

/-! ## Tasks -/

/-- What a task runs is scoped, and bound to an instance if it is an initializer. -/
def Task.Attached (m : Machine) : Task → Prop
  | .expr _ e => ∃ n p, e.Scoped n p
  | .exprs _ es => ∃ n p, Expr.AllScoped n p es
  | .call _ _ _ => True
  | .invoke f _ => f.Attached m
  | .stmt s => ∃ n insideFunction, s.Scoped insideFunction n
  | .loop condition body =>
    ∃ n insideFunction, condition.Scoped n none ∧ body.Scoped insideFunction n
  | .stmts ss => ∃ n insideFunction, Stmt.AllScoped insideFunction n ss

section

variable {m m' : Machine} {t t' : Task}

theorem Settles.of_left? {α : Type} {Q : α → Machine → Prop} {r : Result α} (h : Settles m Q r)
    (hr : r.left? = some m') : m.Retains m' ∧ m'.Settled := by
  cases h with
  | ok hm hs _ =>
    cases hr
    exact ⟨hm, hs⟩
  | error hm hs =>
    cases hr
    exact ⟨hm, hs⟩
  | outOfFuel => cases hr

/-- A task that ends leaves a settled machine. -/
theorem Machine.Settled.run (h : m.Settled) (ht : t.Attached m) {fuel : Nat}
    (hrun : t.left? fuel m = some m') : m.Retains m' ∧ m'.Settled := by
  cases t with
  | expr p e =>
    obtain ⟨n, p, he⟩ := ht
    exact (evaluate_settles fuel h he).of_left? hrun
  | exprs p es =>
    obtain ⟨n, p, hes⟩ := ht
    exact (evaluateAll_settles fuel h hes).of_left? hrun
  | call callee paren arguments => exact (call_settles fuel h callee paren arguments).of_left? hrun
  | invoke f arguments => exact (invoke_settles fuel h ht arguments).of_left? hrun
  | stmt s =>
    obtain ⟨n, insideFunction, hs⟩ := ht
    exact (execute_settles fuel h hs).of_left? hrun
  | loop condition body =>
    obtain ⟨n, insideFunction, hc, hb⟩ := ht
    exact (executeLoop_settles fuel h hc hb).of_left? hrun
  | stmts ss =>
    obtain ⟨n, insideFunction, hss⟩ := ht
    exact (executeAll_settles fuel h hss).of_left? hrun

/-- The body of an attached function starts in a frame for the parameters. -/
theorem Function.Attached.enter {f : Function} (hf : f.Attached m) (h : m.Settled)
    {arguments : List Value} {frame : FrameId}
    (hframe : newFrame f.closure ((f.decl.params.map (·.lexeme)).zip arguments) m
      = .ok frame m') :
    m.Retains { m' with current := frame } ∧ Machine.Settled { m' with current := frame } ∧
      (Task.stmts f.decl.body).Attached { m' with current := frame } := by
  obtain ⟨n, htree⟩ := hf.tree
  obtain ⟨hr, hs, -⟩ := (h.newFrame f.closure (htree.zip_ne_this arguments)).of_ok hframe
  exact ⟨hr.trans (.enter _ _), hs.enter _, _, _, htree.parts.2⟩

/-- The tasks that it starts start on settled machines. -/
theorem Starts.settled (h : Starts m t m' t') (hm : m.Settled) (ht : t.Attached m) :
    m.Retains m' ∧ m'.Settled ∧ t'.Attached m' := by
  cases h with
  | grouping | getObject =>
    obtain ⟨n, p, he⟩ := ht
    simp only [Expr.Scoped] at he
    exact ⟨.refl m, hm, n, p, he⟩
  | unary =>
    obtain ⟨n, p, he⟩ := ht
    simp only [Expr.Scoped] at he
    exact ⟨.refl m, hm, n, p, he.2⟩
  | assigned =>
    obtain ⟨n, p, he⟩ := ht
    simp only [Expr.Scoped] at he
    exact ⟨.refl m, hm, n, p, he.2.1⟩
  | binaryLeft | logicalLeft | callee | setObject =>
    obtain ⟨n, p, he⟩ := ht
    simp only [Expr.Scoped] at he
    exact ⟨.refl m, hm, n, p, he.1⟩
  | binaryRight hl =>
    obtain ⟨n, p, he⟩ := ht
    simp only [Expr.Scoped] at he
    obtain ⟨hr, hs, -⟩ := (evaluate_settles _ hm he.1).of_ok hl
    exact ⟨hr, hs, n, p, he.2.2⟩
  | logicalRight hl | arguments hl | setValue hl =>
    obtain ⟨n, p, he⟩ := ht
    simp only [Expr.Scoped] at he
    obtain ⟨hr, hs, -⟩ := (evaluate_settles _ hm he.1).of_ok hl
    exact ⟨hr, hs, n, p, he.2⟩
  | call hc ha =>
    obtain ⟨n, p, he⟩ := ht
    simp only [Expr.Scoped] at he
    obtain ⟨hr, hs, -⟩ := (evaluate_settles _ hm he.1).of_ok hc
    obtain ⟨hr', hs, -⟩ := (evaluateAll_settles _ hs he.2).of_ok ha
    exact ⟨hr.trans hr', hs, trivial⟩
  | exprsHead =>
    obtain ⟨n, p, hes⟩ := ht
    simp only [Expr.AllScoped] at hes
    exact ⟨.refl m, hm, n, p, hes.1⟩
  | exprsTail he =>
    obtain ⟨n, p, hes⟩ := ht
    simp only [Expr.AllScoped] at hes
    obtain ⟨hr, hs, -⟩ := (evaluate_settles _ hm hes.1).of_ok he
    exact ⟨hr, hs, n, p, hes.2⟩
  | function hc =>
    obtain ⟨hr, hs, rfl, hf⟩ := (hm.checkCall _ _ _).of_ok hc
    exact ⟨hr, hs, hf _ rfl⟩
  | construct hc hthis hinit hbind =>
    obtain ⟨hr₁, hs, -⟩ := (hm.checkCall _ _ _).of_ok hc
    obtain ⟨hr₂, hs, i, o, rfl, ho⟩ := (hs.newInstance _).of_ok hthis
    obtain ⟨-, hs, rfl, hf⟩ := (hs.initializerOf _).of_ok hinit
    obtain ⟨hr₃, hs, hattached, -⟩ := (hs.bindMethod (hf _ rfl) ho).of_ok hbind
    exact ⟨(hr₁.trans hr₂).trans hr₃, hs, hattached⟩
  | body hframe => exact Function.Attached.enter ht hm hframe
  | expression | printed =>
    obtain ⟨n, insideFunction, hs⟩ := ht
    simp only [Stmt.Scoped] at hs
    exact ⟨.refl m, hm, n, none, hs⟩
  | returned =>
    obtain ⟨n, insideFunction, hs⟩ := ht
    simp only [Stmt.Scoped] at hs
    exact ⟨.refl m, hm, n, none, hs.2⟩
  | initializer =>
    obtain ⟨n, insideFunction, hs⟩ := ht
    simp only [Stmt.Scoped] at hs
    exact ⟨.refl m, hm, n, _, hs.2⟩
  | superclass =>
    obtain ⟨n, insideFunction, hs⟩ := ht
    simp only [Stmt.Scoped] at hs
    exact ⟨.refl m, hm, n, none, hs.2.1⟩
  | block hframe =>
    obtain ⟨n, insideFunction, hs⟩ := ht
    simp only [Stmt.Scoped] at hs
    obtain ⟨hr, hsettled, -⟩ := (hm.newFrame m.current (List.forall_mem_nil _)).of_ok hframe
    exact ⟨hr.trans (.enter _ _), hsettled.enter _, _, _, hs⟩
  | @condition _ _ elseBranch =>
    obtain ⟨n, insideFunction, hs⟩ := ht
    cases elseBranch <;> simp only [Stmt.Scoped] at hs <;> exact ⟨.refl m, hm, n, none, hs.1⟩
  | @thenBranch _ _ _ elseBranch _ _ hc =>
    obtain ⟨n, insideFunction, hs⟩ := ht
    cases elseBranch with
    | none =>
      simp only [Stmt.Scoped] at hs
      obtain ⟨hr, hsettled, -⟩ := (evaluate_settles _ hm hs.1).of_ok hc
      exact ⟨hr, hsettled, n, insideFunction, hs.2.1⟩
    | some elseBranch =>
      simp only [Stmt.Scoped] at hs
      obtain ⟨hr, hsettled, -⟩ := (evaluate_settles _ hm hs.1).of_ok hc
      exact ⟨hr, hsettled, n, insideFunction, hs.2.1.1⟩
  | elseBranch hc =>
    obtain ⟨n, insideFunction, hs⟩ := ht
    simp only [Stmt.Scoped] at hs
    obtain ⟨hr, hsettled, -⟩ := (evaluate_settles _ hm hs.1).of_ok hc
    exact ⟨hr, hsettled, n, insideFunction, hs.2.2.1⟩
  | loop =>
    obtain ⟨n, insideFunction, hs⟩ := ht
    simp only [Stmt.Scoped] at hs
    exact ⟨.refl m, hm, n, insideFunction, hs.1, hs.2.1⟩
  | loopCondition =>
    obtain ⟨n, insideFunction, hc, -⟩ := ht
    exact ⟨.refl m, hm, n, none, hc⟩
  | loopBody hv =>
    obtain ⟨n, insideFunction, hc, hb⟩ := ht
    obtain ⟨hr, hs, -⟩ := (evaluate_settles _ hm hc).of_ok hv
    exact ⟨hr, hs, n, insideFunction, hb⟩
  | loopAgain hv _ hend =>
    obtain ⟨n, insideFunction, hc, hb⟩ := ht
    obtain ⟨hr, hs, -⟩ := (evaluate_settles _ hm hc).of_ok hv
    obtain ⟨hr', hs, -⟩ := (execute_settles _ hs hb).of_ok hend
    exact ⟨hr.trans hr', hs, n, insideFunction, hc, hb⟩
  | stmtsHead =>
    obtain ⟨n, insideFunction, hss⟩ := ht
    simp only [Stmt.AllScoped] at hss
    exact ⟨.refl m, hm, n, insideFunction, hss.1⟩
  | stmtsTail hv =>
    obtain ⟨n, insideFunction, hss⟩ := ht
    simp only [Stmt.AllScoped] at hss
    obtain ⟨hr, hs, -⟩ := (execute_settles _ hm hss.1).of_ok hv
    exact ⟨hr, hs, _, insideFunction, hss.2⟩

/-- Whatever a task visits is on a settled machine, and what was bound is bound there. -/
theorem Visits.settled (h : Visits m t m' t') (hm : m.Settled) (ht : t.Attached m) :
    m.Retains m' ∧ m'.Settled ∧ t'.Attached m' := by
  induction h with
  | refl => exact ⟨.refl m, hm, ht⟩
  | tail _ hs ih =>
    obtain ⟨hr, hm', ht'⟩ := ih
    obtain ⟨hr', hm'', ht''⟩ := hs.settled hm' ht'
    exact ⟨hr.trans hr', hm'', ht''⟩

end

/-! ## Sessions -/

section

variable {s s' : Session} {source : String} {program : List Stmt}

theorem Machine.Settled.start (output : Output) (clock : Clock) :
    (Machine.start output clock).Settled where
  this := by
    intro g v hv
    simp only [Machine.start, Frames.here?_define, Frames.here?_push] at hv
    split at hv
    · rename_i hname
      exact absurd hname.2.1 (by decide)
    · simp [Frames.here?, Frames.empty] at hv
  functions := nofun
  methods := nofun

/-- A run of a program leaves a settled machine. -/
theorem Machine.Settled.interpret {m : Machine} (h : m.Settled)
    (hprogram : Stmt.AllScoped false [] program) (fuel : Nat) :
    Settles.Plain m (Lox.interpret fuel program m) := by
  unfold Lox.interpret
  refine (executeAll_settles fuel h hprogram).bind fun {flow _} _ hs _ => ?_
  cases flow with
  | next => exact .pure hs trivial
  | returned value keyword => exact .fault hs ..

/-- So does the run of a text. -/
theorem Session.settled_run (h : s.machine.Settled) {fuel : Nat} {outcome : Outcome}
    (hr : s.run fuel source = some (outcome, s')) :
    s.machine.Retains s'.machine ∧ s'.machine.Settled := by
  cases hc : s.compile source with
  | ok program =>
    rw [Session.run_of_compile hc] at hr
    have hrun := h.interpret (compile_scoped hc) fuel
    exact hrun.of_left? (Session.left?_of_interpret hr)
  | error errors =>
    rw [Session.run_of_rejected hc] at hr
    cases hr
    exact ⟨.refl _, h⟩

theorem Session.Reachable.settled (h : s.Reachable) : s.machine.Settled := by
  induction h with
  | start output clock => exact .start output clock
  | run _ hr ih => exact (Session.settled_run ih hr).2
  | later _ clock ih => exact (ih.outside _ clock).2

/-- **Classes and initializers give instances**, in every state that a session comes to: a class
gives a new instance of itself, and a bound initializer the instance that it is bound to. It stays
bound to that instance for as long as the session goes on. -/
theorem initializers_give_instances (hs : s.Reachable) (hc : s.compile source = .ok program)
    {m : Machine} {t : Task} (hv : Visits s.machine (.stmts program) m t) :
    (∀ c < m.classes.size, ∃ line, m.Lineage c line ∧ ∀ paren arguments,
      m.CallsClass c (line.findSome? fun c => m.ownMethod? c initializerName) paren arguments) ∧
    (∀ id f, m.functions[id]? = some f → f.isInitializer = true →
      ∃ i < m.instances.size, m.BoundInit id f i) ∧
    (∀ id f i, m.BoundInit id f i →
      (∀ paren arguments, m.CallsInit id f i paren arguments) ∧
      (∀ fuel m', t.left? fuel m = some m' → m'.BoundInit id f i) ∧
      (∀ m' t', Visits m t m' t' → m'.BoundInit id f i)) ∧
    (∀ p e i fuel v m', t = .expr p e → NamesInit m e i → evaluate fuel e m = .ok v m' →
      ∃ id f, v = .functionRef id ∧ m'.BoundInit id f i) ∧
    (∀ p e paren arguments i fuel v m', t = .expr p (.call e paren arguments) →
      NamesInit m e i → evaluate fuel (.call e paren arguments) m = .ok v m' →
        v = .instanceRef i) ∧
    (∀ id f i fuel source' outcome s', s.machine.BoundInit id f i →
      s.run fuel source' = some (outcome, s') → s'.machine.BoundInit id f i) := by
  have hattached : (Task.stmts program).Attached s.machine := ⟨[], false, compile_scoped hc⟩
  obtain ⟨-, hm, ht⟩ := hv.settled hs.settled hattached
  obtain ⟨⟨hsound, -⟩, -⟩ := hv.ofProgram hs.idle.sound (hs.ready hc)
  refine ⟨fun c hclass => ?_, fun id f hf hinit => ?_, fun id f i hf => ⟨?_, ?_, ?_⟩, ?_, ?_, ?_⟩
  · obtain ⟨line, hline⟩ := hsound.inherits.exists_lineage c hclass
    refine ⟨line, hline, fun paren arguments => ?_⟩
    rw [← hline.findMethod? hsound.inherits]
    exact hm.callsClass c paren arguments
  · obtain ⟨i, o, hthis, ho⟩ := hm.bound hf hinit
    exact ⟨i, (Array.getElem?_eq_some_iff.1 ho).1, hf, hinit, hthis⟩
  · exact hm.callsInit hf
  · exact fun fuel m' hleft => hf.mono (hm.run ht hleft).1
  · exact fun m' t' hvisits => hf.mono (hvisits.settled hm ht).1
  · rintro p e i fuel v m' rfl hnames hrun
    obtain ⟨n, p, he⟩ := ht
    exact hm.namesInit he hnames hrun
  · rintro p e paren arguments i fuel v m' rfl hnames hrun
    obtain ⟨n, p, he⟩ := ht
    exact hm.callNamed he hnames hrun
  · exact fun id f i fuel source' outcome s' hf hr => hf.mono (Session.settled_run hs.settled hr).1

/-- The initializer of a new instance, kept in a variable: a later text gets the instance from it,
although its body returns nothing. -/
theorem initializers_give_instances_stored : ∃ s program f,
    (Session.start .unlimited (.stopped 0)).run 20
        "class C \x7b init() \x7b return; \x7d \x7d var f = C().init;" = some (.success, s) ∧
    s.compile "f();" = .ok program ∧ Visits s.machine (.stmts program) s.machine (.stmts program) ∧
    s.machine.frames.get? Machine.globalFrame "f" = some (.functionRef 0) ∧
    s.machine.BoundInit 0 f 0 ∧ ∀ paren, s.machine.CallsInit 0 f 0 paren [] := by
  have hrun : ((Session.start .unlimited (.stopped 0)).run 20
      "class C \x7b init() \x7b return; \x7d \x7d var f = C().init;").map
      (fun r => (r.1, r.2.machine.frames.get? 0 "f", r.2.machine.instances.size,
        r.2.machine.functions[0]?.map (·.isInitializer)))
        = some (.success, some (.functionRef 0), 1, some true) := by
    cbv
  obtain ⟨⟨outcome, s⟩, hr, hends⟩ := Option.map_eq_some_iff.1 hrun
  simp only [Prod.mk.injEq] at hends
  obtain ⟨rfl, hbound, hinstances, hfunction⟩ := hends
  obtain ⟨f, hf, hinit⟩ := Option.map_eq_some_iff.1 hfunction
  have hread : readSource Grammar.parse "f();" = .ok [.expression
      (.call (.variable ⟨.identifier, "f", 1⟩ none) ⟨.punct .rightParen, ")", 1⟩ [])] := by
    cbv
  have hc : s.compile "f();" = .ok [.expression (.call (.variable ⟨.identifier, "f", 1⟩ none)
      ⟨.punct .rightParen, ")", 1⟩ [])] :=
    compile_ok_iff.2 ⟨_, hread, rfl, rfl⟩
  obtain ⟨-, hinits, hcalls, -⟩ :=
    initializers_give_instances (.run (.start .unlimited (.stopped 0)) hr) hc .refl
  obtain ⟨i, hi, hthis⟩ := hinits 0 f hf hinit
  obtain rfl : i = 0 := Nat.lt_one_iff.1 (hinstances ▸ hi)
  exact ⟨s, _, f, hr, hc, .refl, hbound, hthis, fun paren => (hcalls 0 f 0 hthis).1 paren []⟩

end

end Lox
