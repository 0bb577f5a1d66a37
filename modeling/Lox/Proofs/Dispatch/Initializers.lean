import Lox.Proofs.Run.Frames
import Lox.Proofs.Run.Chains
import Lox.Proofs.Run.Sound
import Lox.Proofs.Scope.Nest

/-!
# Initializers and their instances

A machine is `Settled` when frames bind `this` to instances only, and every function object that is
an initializer is closed over a frame that binds it. The methods of classes are not closed so, but
they become values only by being bound. No run of scoped trees ends in another state, since programs
cannot give a value to `this`, and `Retains` says that what is bound to `this` stays. `Settles` puts
the two together for the result of a run; there is one lemma for each operation and one for each
function of the evaluator.
-/

set_option autoImplicit false

namespace Lox

/-! ## States -/

/-- The function object is scoped in some nest, and closed over a frame that binds `this` if it is
an initializer. -/
structure Function.Attached (m : Machine) (f : Function) : Prop where
  tree : ∃ n, f.decl.Scoped n
  bound : f.isInitializer = true → ∃ v, m.frames.here? f.closure "this" = some v

namespace Machine

/-- What is bound to `this` stays, and so do function objects, and instances with their classes. -/
structure Retains (m m' : Machine) : Prop where
  this : ∀ {g : FrameId} {v : Value}, m.frames.here? g "this" = some v →
    m'.frames.here? g "this" = some v
  functions : ∀ {id : Nat} {f : Function}, m.functions[id]? = some f → m'.functions[id]? = some f
  instances : ∀ {i : Nat} {o : Instance}, m.instances[i]? = some o →
    ∃ o', m'.instances[i]? = some o' ∧ o'.ofClass = o.ofClass

/-- Whatever is called is bound to an instance if it is an initializer. -/
structure Settled (m : Machine) : Prop where
  this : ∀ {g : FrameId} {v : Value}, m.frames.here? g "this" = some v →
    ∃ i o, v = .instanceRef i ∧ m.instances[i]? = some o
  functions : ∀ {id : Nat} {f : Function}, m.functions[id]? = some f → f.Attached m
  methods : ∀ {c : Nat} {info : Class} {x : String} {f : Function}, m.classes[c]? = some info →
    info.methods.get? x = some f →
      (∃ n, f.decl.Scoped n) ∧ f.isInitializer = (x == initializerName)

end Machine

section

variable {m m' m'' : Machine}

theorem Function.Attached.mono {f : Function} (h : f.Attached m) (hm : m.Retains m') :
    f.Attached m' :=
  ⟨h.tree, fun hf => (h.bound hf).imp fun _ => hm.this⟩

namespace Machine

theorem Retains.enter (m : Machine) (f : FrameId) : m.Retains { m with current := f } :=
  ⟨fun h => h, fun h => h, fun h => ⟨_, h, rfl⟩⟩

theorem Retains.refl (m : Machine) : m.Retains m :=
  ⟨fun h => h, fun h => h, fun h => ⟨_, h, rfl⟩⟩

theorem Retains.trans (h : m.Retains m') (h' : m'.Retains m'') : m.Retains m'' where
  this := fun hv => h'.this (h.this hv)
  functions := fun hf => h'.functions (h.functions hf)
  instances := by
    intro i o ho
    obtain ⟨o', ho', hc⟩ := h.instances ho
    obtain ⟨o'', ho'', hc'⟩ := h'.instances ho'
    exact ⟨o'', ho'', hc'.trans hc⟩

/-- Nothing is bound to `this`, and only frames change. -/
theorem Retains.framed {frames : Frames Value}
    (hthis : ∀ g, frames.here? g "this" = m.frames.here? g "this") :
    m.Retains { m with frames } :=
  ⟨fun hv => (hthis _).trans hv, fun h => h, fun h => ⟨_, h, rfl⟩⟩

theorem Settled.framed (h : m.Settled) {frames : Frames Value}
    (hthis : ∀ g, frames.here? g "this" = m.frames.here? g "this") :
    Settled { m with frames } where
  this := fun hv => h.this ((hthis _).symm.trans hv)
  functions := fun hf => (h.functions hf).mono (.framed hthis)
  methods := h.methods

theorem Settled.enter (h : m.Settled) (f : FrameId) : Settled { m with current := f } :=
  ⟨h.this, fun hf => ⟨(h.functions hf).tree, (h.functions hf).bound⟩, h.methods⟩

/-- The instance to which an initializer is bound. -/
theorem Settled.bound (h : m.Settled) {id : Nat} {f : Function} (hf : m.functions[id]? = some f)
    (hinit : f.isInitializer = true) :
    ∃ i o, m.frames.here? f.closure "this" = some (.instanceRef i) ∧ m.instances[i]? = some o := by
  obtain ⟨v, hv⟩ := (h.functions hf).bound hinit
  obtain ⟨i, o, rfl, ho⟩ := h.this hv
  exact ⟨i, o, hv, ho⟩

/-- A method that a search finds is an initializer if it is found as one. -/
theorem Settled.findMethod (h : m.Settled) {c : ClassId} {x : String} {f : Function}
    (hf : m.findMethod? c x = some f) :
    (∃ n, f.decl.Scoped n) ∧ f.isInitializer = (x == initializerName) := by
  induction c using Nat.strongRecOn with
  | ind c ih =>
    rw [Machine.findMethod?] at hf
    split at hf
    · cases hf
    · rename_i info hinfo
      split at hf
      · rename_i hmethod
        cases hf
        exact h.methods hinfo hmethod
      · split at hf
        · split at hf
          · rename_i hlt
            exact ih _ hlt hf
          · cases hf
        · cases hf

end Machine
end

/-! ## Results -/

/-- A run that ends leaves a settled machine that retains what there was; its value has the property
`Q`. -/
inductive Settles {α : Type} (m : Machine) (Q : α → Machine → Prop) : Result α → Prop
  | ok {a : α} {m' : Machine} (hr : m.Retains m') (hs : m'.Settled) (hq : Q a m') :
      Settles m Q (.ok a m')
  | error {e : RuntimeError} {m' : Machine} (hr : m.Retains m') (hs : m'.Settled) :
      Settles m Q (.error e m')
  | outOfFuel : Settles m Q .outOfFuel

/-- Whatever the value is. -/
abbrev Settles.Plain {α : Type} (m : Machine) : Result α → Prop :=
  Settles m fun _ _ => True

namespace Settles

variable {α β : Type} {m m' : Machine} {Q : α → Machine → Prop} {Q' : β → Machine → Prop}
variable {r : Result α}

theorem after (hr : m.Retains m') (h : Settles m' Q r) : Settles m Q r := by
  cases h with
  | ok hr' hs hq => exact .ok (hr.trans hr') hs hq
  | error hr' hs => exact .error (hr.trans hr') hs
  | outOfFuel => exact .outOfFuel

theorem weaken {Q₂ : α → Machine → Prop} (h : Settles m Q r)
    (hQ : ∀ {a m'}, Q a m' → Q₂ a m') : Settles m Q₂ r := by
  cases h with
  | ok hr hs hq => exact .ok hr hs (hQ hq)
  | error hr hs => exact .error hr hs
  | outOfFuel => exact .outOfFuel

theorem plain (h : Settles m Q r) : Settles.Plain m r :=
  h.weaken fun _ => trivial

/-- One run after another. -/
theorem bind {x : Eval α} {f : α → Eval β} (h : Settles m Q (x m))
    (hf : ∀ {a m'}, m.Retains m' → m'.Settled → Q a m' → Settles m' Q' (f a m')) :
    Settles m Q' ((x >>= f) m) := by
  show Settles m Q' (Eval.bind x f m)
  unfold Eval.bind
  generalize x m = r at h ⊢
  cases h with
  | ok hr hs hq => exact (hf hr hs hq).after hr
  | error hr hs => exact .error hr hs
  | outOfFuel => exact .outOfFuel

theorem pure {a : α} (hs : m.Settled) (hq : Q a m) : Settles m Q ((pure a : Eval α) m) :=
  .ok (.refl m) hs hq

theorem fault (hs : m.Settled) (token : Token) (cause : RuntimeCause) :
    Settles m Q (Eval.fault token cause m) :=
  .error (.refl m) hs

theorem ofExcept (hs : m.Settled) {result : Except RuntimeError α} :
    Settles.Plain m (Eval.ofExcept result m) := by
  cases result with
  | ok a => exact .ok (.refl m) hs trivial
  | error e => exact .error (.refl m) hs

theorem currentFrame {f : FrameId → Eval β} (h : Settles m Q' (f m.current m)) :
    Settles m Q' ((Eval.currentFrame >>= f) m) :=
  h

/-- A run in another frame, which is left again at the end. -/
theorem within {f : FrameId} {x : Eval α} (h : Settles.Plain { m with current := f }
    (x { m with current := f })) : Settles.Plain m (Eval.within f x m) := by
  unfold Eval.within
  generalize x { m with current := f } = r at h ⊢
  cases h with
  | ok hr hs => exact .ok ⟨hr.this, hr.functions, hr.instances⟩ (hs.enter _) trivial
  | error hr hs => exact .error ⟨hr.this, hr.functions, hr.instances⟩ (hs.enter _)
  | outOfFuel => exact .outOfFuel

theorem of_ok {a : α} (h : Settles m Q r) (hr : r = .ok a m') :
    m.Retains m' ∧ m'.Settled ∧ Q a m' := by
  cases h with
  | ok hm hs hq =>
    cases hr
    exact ⟨hm, hs, hq⟩
  | _ => cases hr

end Settles

/-! ## Operations -/

namespace Machine.Settled

variable {m : Machine}

private theorem this_define {fs : Frames Value} {f : FrameId} {x : String} {v : Value}
    (hx : x ≠ "this") (g : FrameId) : (fs.define f x v).here? g "this" = fs.here? g "this" :=
  Frames.here?_define_ne _ _ _ _ fun h => hx h.2.symm

/-- A value for a name that is not `this`. -/
theorem define (h : m.Settled) {f : FrameId} {x : String} {v : Value} (hx : x ≠ "this") :
    Settles.Plain m (.ok () { m with frames := m.frames.define f x v }) :=
  .ok (.framed (this_define hx)) (h.framed (this_define hx)) trivial

theorem readVariable (h : m.Settled) (name : Token) (depth : Option Nat) :
    Settles.Plain m (Eval.readVariable name depth m) := by
  unfold Eval.readVariable
  split <;> split
  · exact .ok (.refl m) h trivial
  · exact .error (.refl m) h
  · exact .ok (.refl m) h trivial
  · exact .error (.refl m) h

theorem writeVariable (h : m.Settled) {name : Token} (hname : name.IsName) (depth : Option Nat)
    (v : Value) : Settles.Plain m (Eval.writeVariable name depth v m) := by
  unfold Eval.writeVariable Frames.assignAt Frames.assign?
  cases depth with
  | some d =>
    dsimp only
    cases m.frames.ancestor? m.current d with
    | none => exact .error (.refl m) h
    | some g =>
      dsimp only
      cases m.frames.here? g name.lexeme with
      | none => exact .error (.refl m) h
      | some old => exact h.define hname.1
  | none =>
    dsimp only
    cases m.frames.owner? Machine.globalFrame name.lexeme with
    | none => exact .error (.refl m) h
    | some g => exact h.define hname.1

theorem assignVisible (h : m.Settled) {name : Token} (hname : name.IsName) (v : Value) :
    Settles.Plain m (Eval.assignVisible name v m) := by
  unfold Eval.assignVisible Frames.assign?
  cases m.frames.owner? m.current name.lexeme with
  | none => exact .error (.refl m) h
  | some g => exact h.define hname.1

theorem defineHere (h : m.Settled) {name : Token} (hname : name.IsName) (v : Value) :
    Settles.Plain m (Eval.define name.lexeme v m) :=
  h.define hname.1

private theorem this_foldl {f : FrameId} : ∀ {bindings : List (String × Value)},
    (∀ b ∈ bindings, b.1 ≠ "this") → ∀ (fs : Frames Value) (g : FrameId),
      (bindings.foldl (fun fs b => fs.define f b.1 b.2) fs).here? g "this" = fs.here? g "this"
  | [], _, _, _ => rfl
  | b :: _, hb, fs, g => by
    rw [List.forall_mem_cons] at hb
    rw [List.foldl_cons, this_foldl hb.2, this_define hb.1]

/-- A frame that does not bind `this`. -/
theorem newFrame (h : m.Settled) (enclosing : FrameId) {bindings : List (String × Value)}
    (hb : ∀ b ∈ bindings, b.1 ≠ "this") :
    Settles.Plain m (Eval.newFrame enclosing bindings m) := by
  have hthis : ∀ g, (bindings.foldl (fun fs b => fs.define m.frames.next b.1 b.2)
      (m.frames.push (some enclosing))).here? g "this" = m.frames.here? g "this" := by
    intro g
    rw [this_foldl hb, Frames.here?_push]
  exact .ok (.framed hthis) (h.framed hthis) trivial

theorem newFunction (h : m.Settled) {f : Function} (hf : f.Attached m) :
    Settles m (fun v m' => ∃ id, v = .functionRef id ∧ m'.functions[id]? = some f)
      (Eval.newFunction f m) := by
  have hr : m.Retains { m with functions := m.functions.push f } := by
    refine ⟨fun hv => hv, fun {id g} hg => ?_, fun ho => ⟨_, ho, rfl⟩⟩
    rw [Array.getElem?_push, if_neg (Nat.ne_of_lt (Array.getElem?_eq_some_iff.1 hg).1)]
    exact hg
  refine .ok hr ⟨h.this, fun {id g} hg => ?_, h.methods⟩ ⟨_, rfl, Array.getElem?_push_size⟩
  rw [Array.getElem?_push] at hg
  split at hg
  · cases hg
    exact hf.mono hr
  · exact (h.functions hg).mono hr

theorem newClass (h : m.Settled) {info : Class}
    (hm : ∀ x f, info.methods.get? x = some f →
      (∃ n, f.decl.Scoped n) ∧ f.isInitializer = (x == initializerName)) :
    Settles.Plain m (Eval.newClass info m) := by
  have hr : m.Retains { m with classes := m.classes.push info } :=
    ⟨fun hv => hv, fun hf => hf, fun ho => ⟨_, ho, rfl⟩⟩
  refine .ok hr ⟨h.this, fun hf => (h.functions hf).mono hr, fun {c info' x f} hi hx => ?_⟩ trivial
  rw [Array.getElem?_push] at hi
  split at hi
  · cases hi
    exact hm x f hx
  · exact h.methods hi hx

theorem newInstance (h : m.Settled) (c : ClassId) :
    Settles m (fun v m' => ∃ i o, v = .instanceRef i ∧ m'.instances[i]? = some o)
      (Eval.newInstance c m) := by
  have hr : m.Retains { m with instances := m.instances.push ⟨c, .empty⟩ } := by
    refine ⟨fun hv => hv, fun hf => hf, fun {i o} ho => ⟨o, ?_, rfl⟩⟩
    rw [Array.getElem?_push, if_neg (Nat.ne_of_lt (Array.getElem?_eq_some_iff.1 ho).1)]
    exact ho
  refine .ok hr ⟨fun hv => ?_, fun hf => (h.functions hf).mono hr, h.methods⟩
    ⟨_, _, rfl, Array.getElem?_push_size⟩
  obtain ⟨i, o, rfl, ho⟩ := h.this hv
  obtain ⟨o', ho', -⟩ := hr.instances ho
  exact ⟨i, o', rfl, ho'⟩

theorem setField (h : m.Settled) (i : InstanceId) (name : String) (v : Value) :
    Settles.Plain m (Eval.setField i name v m) := by
  have hr : m.Retains { m with
      instances := m.instances.modify i fun o => { o with fields := o.fields.insert name v } } := by
    refine ⟨fun hv => hv, fun hf => hf, fun {j o} ho => ?_⟩
    rw [Array.getElem?_modify]
    split
    · exact ⟨_, congrArg _ ho, rfl⟩
    · exact ⟨o, ho, rfl⟩
  refine .ok hr ⟨fun hv => ?_, fun hf => (h.functions hf).mono hr, h.methods⟩ trivial
  obtain ⟨j, o, rfl, ho⟩ := h.this hv
  obtain ⟨o', ho', -⟩ := hr.instances ho
  exact ⟨j, o', rfl, ho'⟩

/-- What a name `this` gives at a distance is an instance. -/
theorem ofGetAt (h : m.Settled) {f : FrameId} {d : Nat} {v : Value}
    (hv : m.frames.getAt f d "this" = .ok v) :
    ∃ i o, v = .instanceRef i ∧ m.instances[i]? = some o := by
  unfold Frames.getAt at hv
  split at hv
  · cases hv
  · split at hv
    · cases hv
    · cases hv
      exact h.this ‹_›

/-- The frame of a bound method, among the others. -/
private theorem this_bound (fs : Frames Value) (enclosing : FrameId) (v : Value) (g : FrameId) :
    ((fs.push (some enclosing)).define fs.next "this" v).here? g "this"
      = if g = fs.next then some v else fs.here? g "this" := by
  split
  · rename_i hg
    subst hg
    refine Frames.here?_define_self _ _ _ ?_
    rw [Frames.next_push]
    exact Nat.lt_succ_self _
  · rename_i hg
    rw [Frames.here?_define_ne _ _ _ _ fun h => hg h.1, Frames.here?_push]

/-- A method bound to an instance. -/
theorem bindMethod (h : m.Settled) {method : Function} (hm : ∃ n, method.decl.Scoped n)
    {i : InstanceId} {o : Instance} (ho : m.instances[i]? = some o) :
    Settles m (fun f m' => f.Attached m' ∧ f.isInitializer = method.isInitializer ∧
        m'.frames.here? f.closure "this" = some (.instanceRef i))
      (Eval.bindMethod method (.instanceRef i) m) := by
  have hbound := this_bound m.frames method.closure (.instanceRef i)
  have hself := (hbound m.frames.next).trans (if_pos rfl)
  have hr : m.Retains { m with frames :=
      (m.frames.push (some method.closure)).define m.frames.next "this" (.instanceRef i) } := by
    refine ⟨fun {g v} hv => ?_, fun hf => hf, fun ho => ⟨_, ho, rfl⟩⟩
    exact ((hbound g).trans (if_neg (Nat.ne_of_lt (Frames.lt_of_here? hv)))).trans hv
  refine .ok hr ⟨fun {g v} hv => ?_, fun hf => (h.functions hf).mono hr, h.methods⟩
    ⟨⟨hm, fun _ => ⟨_, hself⟩⟩, rfl, hself⟩
  have hv := (hbound g).symm.trans hv
  split at hv
  · cases hv
    exact ⟨i, o, rfl, ho⟩
  · exact h.this hv

/-- What a method value is: a function object, bound to the instance if it is an initializer, which
it is if it is called `init`. -/
def IsMethodOf (m : Machine) (i : InstanceId) (name : Token) (v : Value) : Prop :=
  ∃ id f, v = .functionRef id ∧ m.functions[id]? = some f ∧
    f.isInitializer = (name.lexeme == initializerName) ∧
    m.frames.here? f.closure "this" = some (.instanceRef i)

theorem boundMethod (h : m.Settled) (c : ClassId) (name : Token) {i : InstanceId} {o : Instance}
    (ho : m.instances[i]? = some o) :
    Settles m (fun v m' => IsMethodOf m' i name v)
      (Eval.boundMethod c name (.instanceRef i) m) := by
  unfold Eval.boundMethod
  split
  · rename_i method hmethod
    obtain ⟨htree, hinit⟩ := h.findMethod hmethod
    refine (h.bindMethod htree ho).bind fun {f m₁} _ hs hf => ?_
    obtain ⟨hattached, hsame, hthis⟩ := hf
    have hnew := hs.newFunction hattached
    generalize hrun : Eval.newFunction f m₁ = r at hnew ⊢
    cases hnew with
    | ok hr hs hq =>
      obtain ⟨id, rfl, hid⟩ := hq
      exact .ok hr hs ⟨id, f, rfl, hid, hsame.trans hinit, hr.this hthis⟩
    | error hr hs => exact .error hr hs
    | outOfFuel => exact .outOfFuel
  · exact .error (.refl m) h

/-- A property is the value of a field, or a method value. -/
theorem getProperty (h : m.Settled) (i : InstanceId) (name : Token) :
    Settles m (fun v m' => (∀ o, m.instances[i]? = some o → o.fields.get? name.lexeme = none) →
        IsMethodOf m' i name v) (Eval.getProperty i name m) := by
  unfold Eval.getProperty
  split
  · exact .error (.refl m) h
  · rename_i o ho
    split
    · rename_i v hv
      refine .ok (.refl m) h fun hnone => ?_
      rw [hnone o ho] at hv
      cases hv
    · have hmethod := h.boundMethod o.ofClass name ho
      generalize Eval.boundMethod o.ofClass name (.instanceRef i) m = r at hmethod ⊢
      cases hmethod with
      | ok hr hs hq => exact .ok hr hs fun _ => hq
      | error hr hs => exact .error hr hs
      | outOfFuel => exact .outOfFuel

/-- The method is bound to what `this` is, one frame closer than the superclass. -/
theorem superMethod (h : m.Settled) (keyword method : Token) (depth : Option Nat) :
    Settles m (fun v m' => ∃ d i, depth = some (d + 1) ∧
        m.frames.getAt m.current d "this" = .ok (.instanceRef i) ∧ IsMethodOf m' i method v)
      (Eval.superMethod keyword method depth m) := by
  unfold Eval.superMethod
  split
  · exact .error (.refl m) h
  · split
    · rename_i c _
      split
      · exact .error (.refl m) h
      · rename_i d _
        split
        · rename_i this hthis
          obtain ⟨i, o, rfl, ho⟩ := h.ofGetAt hthis
          have hmethod := h.boundMethod c method ho
          generalize Eval.boundMethod c method (.instanceRef i) m = r at hmethod ⊢
          cases hmethod with
          | ok hr hs hq => exact .ok hr hs ⟨d, i, rfl, hthis, hq⟩
          | error hr hs => exact .error hr hs
          | outOfFuel => exact .outOfFuel
        · exact .error (.refl m) h
    · exact .error (.refl m) h

/-- A function that is called is a function object. -/
theorem checkCall (h : m.Settled) (callee : Value) (paren : Token) (count : Nat) :
    Settles m (fun c m' => m' = m ∧ ∀ f, c = .function f → f.Attached m)
      (Eval.checkCall callee paren count m) := by
  unfold Eval.checkCall
  split
  · exact .error (.refl m) h
  · rename_i c arity hcallable
    split
    · refine .ok (.refl m) h ⟨rfl, ?_⟩
      rintro f rfl
      cases callee with
      | functionRef id =>
        obtain ⟨g, hg, hpair⟩ := Option.map_eq_some_iff.1 hcallable
        cases hpair
        exact h.functions hg
      | _ => cases hcallable
    · exact .error (.refl m) h

theorem initializerOf (h : m.Settled) (c : ClassId) :
    Settles m (fun f m' => m' = m ∧ ∀ g, f = some g → ∃ n, g.decl.Scoped n)
      (Eval.initializerOf c m) :=
  .ok (.refl m) h ⟨rfl, fun _ hg => (h.findMethod hg).1⟩

/-- The output and the clock are no matter. -/
theorem outside (h : m.Settled) (output : Output) (clock : Clock) :
    m.Retains { m with output, clock } ∧ Settled { m with output, clock } := by
  have hr : m.Retains { m with output, clock } :=
    ⟨fun hv => hv, fun hf => hf, fun ho => ⟨_, ho, rfl⟩⟩
  exact ⟨hr, h.this, fun hf => (h.functions hf).mono hr, h.methods⟩

theorem callNative (h : m.Settled) (f : Native) :
    Settles.Plain m (Eval.callNative f m) := by
  cases f
  obtain ⟨hr, hs⟩ := h.outside m.output m.clock.tick
  exact .ok hr hs trivial

theorem printLine (h : m.Settled) (keyword : Token) (v : Value) :
    Settles.Plain m (Eval.printLine keyword v m) := by
  unfold Eval.printLine
  split
  · obtain ⟨hr, hs⟩ := h.outside _ m.clock
    exact .ok hr hs trivial
  · obtain ⟨hr, hs⟩ := h.outside _ m.clock
    exact .error hr hs

end Machine.Settled

/-! ## Calls -/

/-- Runs a function's body in a frame of its own, up to how the body ends. -/
def runBody (fuel : Nat) (f : Function) (arguments : List Value) : Eval Flow := do
  let frame ← Eval.newFrame f.closure ((f.decl.params.map (·.lexeme)).zip arguments)
  Eval.within frame (executeAll fuel f.decl.body)

/-- What a call gives of the end of the body. -/
def resultOf (f : Function) (flow : Flow) : Eval Value :=
  if f.isInitializer then Eval.boundInstance f
  else
    match flow with
    | .next => pure .nil
    | .returned value _ => pure value

theorem invoke_eq (fuel : Nat) (f : Function) (arguments : List Value) :
    invoke (fuel + 1) f arguments = runBody fuel f arguments >>= resultOf f := by
  rw [invoke, runBody, Eval.bind_assoc]
  rfl

/-! ## The induction -/

section

variable {m : Machine}

/-- Methods as their class declares them. -/
theorem methodTable_settled {closure : FrameId} {methods : List FunctionDecl} {n : Nest}
    (hm : FunctionDecl.AllScoped n methods) (x : String) (f : Function)
    (hf : (methodTable closure methods).get? x = some f) :
    (∃ n, f.decl.Scoped n) ∧ f.isInitializer = (x == initializerName) := by
  rw [methodTable_get?] at hf
  obtain ⟨d, hd, rfl⟩ := Option.map_eq_some_iff.1 hf
  have hname : d.name.lexeme = x := by simpa using List.find?_some hd
  have hmem := List.mem_reverse.1 (List.mem_of_find?_eq_some hd)
  exact ⟨⟨n, FunctionDecl.allScoped_iff.1 hm d hmem⟩, by rw [hname]⟩

/-- The class is made and bound to its name. -/
theorem Machine.Settled.declare_class (h : m.Settled) {name : Token} (hname : name.IsName)
    {superclass : Option ClassId} {closure : FrameId} {methods : List FunctionDecl} {n : Nest}
    (hm : FunctionDecl.AllScoped n methods) :
    Settles.Plain m ((Eval.newClass ⟨name.lexeme, superclass, methodTable closure methods⟩ >>=
      fun c => Eval.assignVisible name c >>= fun _ => pure Flow.next) m) := by
  refine (h.newClass (methodTable_settled hm)).bind fun _ hs _ => ?_
  exact (hs.assignVisible hname _).bind fun _ hs _ => .pure hs trivial

theorem Machine.Settled.declare_function (h : m.Settled) {decl : FunctionDecl}
    (hname : decl.name.IsName) {n : Nest} (hd : decl.Scoped n) (fuel : Nat) :
    Settles.Plain m (execute (fuel + 1) (.function decl) m) := by
  rw [execute]
  refine .currentFrame ?_
  have hattached : Function.Attached m ⟨decl, m.current, false⟩ :=
    ⟨⟨n, hd⟩, fun hinit => absurd hinit Bool.false_ne_true⟩
  refine (h.newFunction hattached).bind fun _ hs _ => ?_
  exact (hs.defineHere hname _).bind fun _ hs _ => .pure hs trivial

/-- The parameters of a scoped function have names, and its body is scoped inside them. -/
theorem FunctionDecl.Scoped.parts {decl : FunctionDecl} {n : Nest} (h : decl.Scoped n) :
    (∀ p ∈ decl.params, p.IsName) ∧
      Stmt.AllScoped true (decl.params.map (·.lexeme) :: n) decl.body := by
  cases decl
  simp only [FunctionDecl.Scoped] at h
  exact ⟨h.1, h.2.2⟩

/-- No parameter is called `this`. -/
theorem FunctionDecl.Scoped.zip_ne_this {decl : FunctionDecl} {n : Nest} (h : decl.Scoped n)
    (arguments : List Value) :
    ∀ b ∈ (decl.params.map (·.lexeme)).zip arguments, b.1 ≠ "this" := by
  intro b hb
  obtain ⟨p, hp, hx⟩ := List.mem_map.1 (List.of_mem_zip hb).1
  rw [← hx]
  exact (h.parts.1 p hp).1

/-- A body runs in a frame for the parameters. -/
theorem Machine.Settled.runBody (h : m.Settled) {fuel : Nat} {f : Function} {n : Nest}
    (hf : f.decl.Scoped n) (arguments : List Value)
    (hbody : ∀ {m : Machine}, m.Settled →
      Stmt.AllScoped true (f.decl.params.map (·.lexeme) :: n) f.decl.body →
        Settles.Plain m (executeAll fuel f.decl.body m)) :
    Settles.Plain m (runBody fuel f arguments m) := by
  refine (h.newFrame f.closure (hf.zip_ne_this arguments)).bind fun _ hs _ => ?_
  exact .within (hbody (hs.enter _) hf.parts.2)

/-- An initializer gives what its frame binds to `this`. -/
abbrev Settles.Gives (m : Machine) (f : Function) : Result Value → Prop :=
  Settles m fun v _ => f.isInitializer = true → m.frames.here? f.closure "this" = some v

theorem Machine.Settled.resultOf (h : m.Settled) {f : Function} (hf : f.Attached m) (flow : Flow) :
    Settles.Gives m f (resultOf f flow m) := by
  unfold Lox.resultOf
  split
  · rename_i hinit
    obtain ⟨v, hv⟩ := hf.bound hinit
    refine .ok (.refl m) h fun _ => ?_
    rw [hv]
    rfl
  · cases flow with
    | next => exact .pure h fun hinit => absurd hinit ‹_›
    | returned value keyword => exact .pure h fun hinit => absurd hinit ‹_›

end

mutual

theorem evaluate_settles : ∀ (fuel : Nat) {m : Machine} {n : Nest} {p : Option String} {e : Expr},
    m.Settled → e.Scoped n p → Settles.Plain m (evaluate fuel e m)
  | 0, _, _, _, _, _, _ => .outOfFuel
  | fuel + 1, m, n, p, e, h, he => by
    match e, he with
    | .literal value, _ => exact .pure h trivial
    | .grouping inner, he =>
      simp only [Expr.Scoped] at he
      rw [evaluate]
      exact evaluate_settles fuel h he
    | .unary operator right, he =>
      simp only [Expr.Scoped] at he
      rw [evaluate]
      exact (evaluate_settles fuel h he.2).bind fun _ hs _ => .ofExcept hs
    | .binary left operator right, he =>
      simp only [Expr.Scoped] at he
      rw [evaluate]
      refine (evaluate_settles fuel h he.1).bind fun _ hs _ => ?_
      exact (evaluate_settles fuel hs he.2.2).bind fun _ hs _ => .ofExcept hs
    | .logical left operator right, he =>
      simp only [Expr.Scoped] at he
      rw [evaluate]
      refine (evaluate_settles fuel h he.1).bind fun _ hs _ => ?_
      split
      · exact .pure hs trivial
      · exact evaluate_settles fuel hs he.2
    | .variable name depth, _ =>
      rw [evaluate]
      exact h.readVariable name depth
    | .assign name value depth, he =>
      simp only [Expr.Scoped] at he
      rw [evaluate]
      refine (evaluate_settles fuel h he.2.1).bind fun _ hs _ => ?_
      exact (hs.writeVariable he.1 depth _).bind fun _ hs _ => .pure hs trivial
    | .call callee paren arguments, he =>
      simp only [Expr.Scoped] at he
      rw [evaluate]
      refine (evaluate_settles fuel h he.1).bind fun _ hs _ => ?_
      refine (evaluateAll_settles fuel hs he.2).bind fun _ hs _ => ?_
      exact call_settles fuel hs _ paren _
    | .get object name, he =>
      simp only [Expr.Scoped] at he
      rw [evaluate]
      refine (evaluate_settles fuel h he).bind fun {v _} _ hs _ => ?_
      cases v with
      | instanceRef i => exact (hs.getProperty i name).plain
      | _ => exact .fault hs ..
    | .set object name value, he =>
      simp only [Expr.Scoped] at he
      rw [evaluate]
      refine (evaluate_settles fuel h he.1).bind fun {v _} _ hs _ => ?_
      cases v with
      | instanceRef i =>
        refine (evaluate_settles fuel hs he.2).bind fun _ hs _ => ?_
        exact (hs.setField i name.lexeme _).bind fun _ hs _ => .pure hs trivial
      | _ => exact .fault hs ..
    | .this keyword depth, _ =>
      rw [evaluate]
      exact h.readVariable keyword depth
    | .super keyword method depth, _ =>
      rw [evaluate]
      exact (h.superMethod keyword method depth).plain

theorem evaluateAll_settles : ∀ (fuel : Nat) {m : Machine} {n : Nest} {p : Option String}
    {es : List Expr}, m.Settled → Expr.AllScoped n p es → Settles.Plain m (evaluateAll fuel es m)
  | 0, _, _, _, _, _, _ => .outOfFuel
  | fuel + 1, m, n, p, es, h, hes => by
    cases es with
    | nil => exact .pure h trivial
    | cons e es =>
      simp only [Expr.AllScoped] at hes
      rw [evaluateAll]
      refine (evaluate_settles fuel h hes.1).bind fun _ hs _ => ?_
      exact (evaluateAll_settles fuel hs hes.2).bind fun _ hs _ => .pure hs trivial

theorem call_settles : ∀ (fuel : Nat) {m : Machine}, m.Settled → ∀ (callee : Value) (paren : Token)
    (arguments : List Value), Settles.Plain m (call fuel callee paren arguments m)
  | 0, _, _, _, _, _ => .outOfFuel
  | fuel + 1, m, h, callee, paren, arguments => by
    rw [call]
    refine (h.checkCall callee paren arguments.length).bind fun {f _} _ hs hf => ?_
    obtain ⟨rfl, hf⟩ := hf
    cases f with
    | native f => exact hs.callNative f
    | function f => exact (invoke_settles fuel hs (hf f rfl) arguments).plain
    | construct c =>
      refine (hs.newInstance c).bind fun _ hs hthis => ?_
      obtain ⟨i, o, rfl, ho⟩ := hthis
      refine (hs.initializerOf c).bind fun {init _} _ hs hinit => ?_
      obtain ⟨rfl, hinit⟩ := hinit
      cases init with
      | none => exact .pure hs trivial
      | some init =>
        refine (hs.bindMethod (hinit init rfl) ho).bind fun _ hs hbound => ?_
        exact (invoke_settles fuel hs hbound.1 arguments).bind fun _ hs _ => .pure hs trivial

theorem invoke_settles : ∀ (fuel : Nat) {m : Machine} {f : Function}, m.Settled → f.Attached m →
    ∀ arguments : List Value, Settles.Gives m f (invoke fuel f arguments m)
  | 0, _, _, _, _, _ => .outOfFuel
  | fuel + 1, m, f, h, hf, arguments => by
    obtain ⟨n, htree⟩ := hf.tree
    rw [invoke_eq]
    refine (h.runBody htree arguments fun hs hb => executeAll_settles fuel hs hb).bind
      fun {flow m'} hr hs _ => ?_
    refine (hs.resultOf (hf.mono hr) flow).weaken fun hv hinit => ?_
    -- the frame bound an instance before the body ran, and it still binds the same one
    obtain ⟨before, hbefore⟩ := hf.bound hinit
    rw [hbefore, ← hv hinit, hr.this hbefore]

theorem execute_settles : ∀ (fuel : Nat) {m : Machine} {n : Nest} {insideFunction : Bool}
    {s : Stmt}, m.Settled → s.Scoped insideFunction n → Settles.Plain m (execute fuel s m)
  | 0, _, _, _, _, _, _ => .outOfFuel
  | fuel + 1, m, n, insideFunction, s, h, hs => by
    match s, hs with
    | .expression value, hs =>
      simp only [Stmt.Scoped] at hs
      rw [execute]
      exact (evaluate_settles fuel h hs).bind fun _ hs _ => .pure hs trivial
    | .print keyword value, hs =>
      simp only [Stmt.Scoped] at hs
      rw [execute]
      refine (evaluate_settles fuel h hs).bind fun _ hs _ => ?_
      exact (hs.printLine keyword _).bind fun _ hs _ => .pure hs trivial
    | .var name none, hs =>
      simp only [Stmt.Scoped] at hs
      rw [execute]
      exact (h.defineHere hs.1.1 _).bind fun _ hs _ => .pure hs trivial
    | .var name (some initializer), hs =>
      simp only [Stmt.Scoped] at hs
      rw [execute]
      refine (evaluate_settles fuel h hs.2).bind fun _ hsettled _ => ?_
      exact (hsettled.defineHere hs.1.1 _).bind fun _ hs _ => .pure hs trivial
    | .block body, hs =>
      simp only [Stmt.Scoped] at hs
      rw [execute]
      refine .currentFrame ?_
      refine (h.newFrame m.current (List.forall_mem_nil _)).bind fun _ hsettled _ => ?_
      exact .within (executeAll_settles fuel (hsettled.enter _) hs)
    | .conditional condition thenBranch none, hs =>
      simp only [Stmt.Scoped] at hs
      rw [execute]
      refine (evaluate_settles fuel h hs.1).bind fun _ hsettled _ => ?_
      split
      · exact execute_settles fuel hsettled hs.2.1
      · exact .pure hsettled trivial
    | .conditional condition thenBranch (some elseBranch), hs =>
      simp only [Stmt.Scoped] at hs
      rw [execute]
      refine (evaluate_settles fuel h hs.1).bind fun _ hsettled _ => ?_
      split
      · exact execute_settles fuel hsettled hs.2.1.1
      · exact execute_settles fuel hsettled hs.2.2.1
    | .loop condition body, hs =>
      simp only [Stmt.Scoped] at hs
      rw [execute]
      exact executeLoop_settles fuel h hs.1 hs.2.1
    | .function decl, hs =>
      simp only [Stmt.Scoped] at hs
      exact h.declare_function hs.1.1 hs.2 fuel
    | .ret keyword none, _ => exact .pure h trivial
    | .ret keyword (some value), hs =>
      simp only [Stmt.Scoped] at hs
      rw [execute]
      exact (evaluate_settles fuel h hs.2).bind fun _ hs _ => .pure hs trivial
    | .classDecl name none methods, hs =>
      simp only [Stmt.Scoped] at hs
      rw [execute]
      refine (h.defineHere hs.1.1 _).bind fun _ hsettled _ => .currentFrame ?_
      exact hsettled.declare_class hs.1.1 hs.2.2
    | .classDecl name (some superclass) methods, hs =>
      simp only [Stmt.Scoped] at hs
      rw [execute]
      refine (evaluate_settles fuel h hs.2.1).bind fun {v _} _ hsettled _ => ?_
      cases v with
      | classRef above =>
        refine (hsettled.defineHere hs.1.1 _).bind fun _ hsettled _ => .currentFrame ?_
        refine (hsettled.newFrame _ (by simp)).bind fun _ hsettled _ => ?_
        exact hsettled.declare_class hs.1.1 hs.2.2
      | _ => exact .fault hsettled ..

theorem executeLoop_settles : ∀ (fuel : Nat) {m : Machine} {n : Nest} {insideFunction : Bool}
    {condition : Expr} {body : Stmt}, m.Settled → condition.Scoped n none →
      body.Scoped insideFunction n → Settles.Plain m (executeLoop fuel condition body m)
  | 0, _, _, _, _, _, _, _, _ => .outOfFuel
  | fuel + 1, m, n, insideFunction, condition, body, h, hc, hb => by
    rw [executeLoop]
    refine (evaluate_settles fuel h hc).bind fun _ hs _ => ?_
    split
    · refine (execute_settles fuel hs hb).bind fun {flow _} _ hs _ => ?_
      cases flow with
      | next => exact executeLoop_settles fuel hs hc hb
      | returned value keyword => exact .pure hs trivial
    · exact .pure hs trivial

theorem executeAll_settles : ∀ (fuel : Nat) {m : Machine} {n : Nest} {insideFunction : Bool}
    {ss : List Stmt}, m.Settled → Stmt.AllScoped insideFunction n ss →
      Settles.Plain m (executeAll fuel ss m)
  | 0, _, _, _, _, _, _ => .outOfFuel
  | fuel + 1, m, n, insideFunction, ss, h, hss => by
    cases ss with
    | nil => exact .pure h trivial
    | cons s ss =>
      simp only [Stmt.AllScoped] at hss
      rw [executeAll]
      refine (execute_settles fuel h hss.1).bind fun {flow _} _ hs _ => ?_
      cases flow with
      | next => exact executeAll_settles fuel hs hss.2
      | returned value keyword => exact .pure hs trivial

end

end Lox
