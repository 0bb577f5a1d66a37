import Lox.Proofs.Run.Chains
import Lox.Proofs.Run.Visits
import Lox.Proofs.Scope.OwnReads
import Lox.Proofs.Session.Kept

/-!
# Own reads at run time

A machine `Covers` its functions when the names of all their own reads are bound in the global
frame, also in those of methods. No run ends in another state, whether it ends well or not: global
names are never unbound, and a function is made only where its statement runs, when the names that
the checker knew there are bound already, or are bound by that very statement. `Covering` says this
of a result; there is one lemma for each operation and one for each function of the evaluator.
-/

set_option autoImplicit false

namespace Lox

/-! ## States -/

namespace Machine

/-- A run leads from the first machine to the second one: the same frame is current, and no global
name is lost. -/
structure Onward (m m' : Machine) : Prop where
  current : m'.current = m.current
  frames : m.frames.next ≤ m'.frames.next
  names : m.globalNames ⊆ m'.globalNames

/-- The names of the own reads in all functions are bound in the global frame. -/
structure Covers (m : Machine) : Prop where
  globalFrame : Machine.globalFrame < m.frames.next
  functions : ∀ {i : Nat} {f : Function}, m.functions[i]? = some f →
    f.decl.ownReads ⊆ m.globalNames
  methods : ∀ {c : Nat} {info : Class} {x : String} {f : Function}, m.classes[c]? = some info →
    info.methods.get? x = some f → f.decl.ownReads ⊆ m.globalNames

section

variable {m m' m'' : Machine}

namespace Onward

theorem refl (m : Machine) : m.Onward m :=
  ⟨rfl, Nat.le_refl _, List.Subset.refl _⟩

theorem trans (h : m.Onward m') (h' : m'.Onward m'') : m.Onward m'' :=
  ⟨h'.current.trans h.current, Nat.le_trans h.frames h'.frames,
    List.Subset.trans h.names h'.names⟩

/-- The frames stay as they are. -/
theorem of_frames (hf : m'.frames = m.frames) (hc : m'.current = m.current) : m.Onward m' := by
  refine ⟨hc, by rw [hf], ?_⟩
  rw [globalNames, globalNames, hf]
  exact List.Subset.refl _

theorem define (m : Machine) (f : FrameId) (x : String) (v : Value) :
    m.Onward { m with frames := m.frames.define f x v } := by
  refine ⟨rfl, Nat.le_of_eq (Frames.next_define ..).symm, fun y hy => ?_⟩
  rw [mem_globalNames] at hy ⊢
  exact Frames.isSome_here?_define _ _ _ _ hy

theorem push (m : Machine) (enclosing : Option FrameId) :
    m.Onward { m with frames := m.frames.push enclosing } := by
  refine ⟨rfl, ?_, fun y hy => ?_⟩
  · rw [Frames.next_push]
    exact Nat.le_succ _
  · rw [mem_globalNames] at hy ⊢
    rwa [Frames.here?_push]

theorem defineAll (f : FrameId) : ∀ (bindings : List (String × Value)) (m : Machine),
    m.Onward { m with frames := bindings.foldl (fun fs b => fs.define f b.1 b.2) m.frames }
  | [], m => .refl m
  | b :: bindings, m => (define m f b.1 b.2).trans (defineAll f bindings _)

end Onward

namespace Covers

theorem onward (h : m.Covers) (ho : m.Onward m') (hf : m'.functions = m.functions)
    (hc : m'.classes = m.classes) : m'.Covers where
  globalFrame := Nat.lt_of_lt_of_le h.globalFrame ho.frames
  functions := by
    intro i f hi
    rw [hf] at hi
    exact List.Subset.trans (h.functions hi) ho.names
  methods := by
    intro c info x f hi hx
    rw [hc] at hi
    exact List.Subset.trans (h.methods hi hx) ho.names

theorem enter (h : m.Covers) (f : FrameId) : Covers { m with current := f } :=
  ⟨h.globalFrame, h.functions, h.methods⟩

/-- One more function, the name of which is bound last. -/
theorem newFunction (h : m.Covers) {f : Function} (ho : Onward { m with
    functions := m.functions.push f } m') (hf : m'.functions = m.functions.push f)
    (hc : m'.classes = m.classes) (hreads : f.decl.ownReads ⊆ m'.globalNames) : m'.Covers where
  globalFrame := Nat.lt_of_lt_of_le h.globalFrame ho.frames
  functions := by
    intro i g hi
    rw [hf, Array.getElem?_push] at hi
    split at hi
    · cases hi
      exact hreads
    · exact List.Subset.trans (h.functions hi) ho.names
  methods := by
    intro c info x g hi hx
    rw [hc] at hi
    exact List.Subset.trans (h.methods hi hx) ho.names

theorem newClass (h : m.Covers) {info : Class}
    (hreads : ∀ x f, info.methods.get? x = some f → f.decl.ownReads ⊆ m.globalNames) :
    Covers { m with classes := m.classes.push info } where
  globalFrame := h.globalFrame
  functions := h.functions
  methods := by
    intro c info' x f hi hx
    rw [Array.getElem?_push] at hi
    split at hi
    · cases hi
      exact hreads x f hx
    · exact h.methods hi hx

/-- A method that a search finds is that of some class. -/
theorem findMethod (h : m.Covers) {c : ClassId} {x : String} {f : Function}
    (hf : m.findMethod? c x = some f) : f.decl.ownReads ⊆ m.globalNames := by
  induction c using Nat.strongRecOn with
  | ind c ih =>
    rw [Machine.findMethod?] at hf
    split at hf
    · cases hf
    · rename_i info hinfo
      split at hf
      · rename_i hmethod
        cases hf
        exact h.methods hinfo hmethod
      · split at hf
        · split at hf
          · rename_i hlt
            exact ih _ hlt hf
          · cases hf
        · cases hf

/-- What is defined in the current frame at the top is bound in the global one. -/
theorem define_global (h : m.Covers) (htop : m.current = Machine.globalFrame) (x : String)
    (v : Value) : x ∈ globalNames { m with frames := m.frames.define m.current x v } := by
  rw [mem_globalNames, htop]
  exact Option.isSome_of_eq_some (Frames.here?_define_self m.frames x v h.globalFrame)

end Covers
end
end Machine

/-! ## Results -/

/-- A run that ends leaves a machine that covers its functions; its value has the property `Q`. -/
inductive Covering {α : Type} (m : Machine) (Q : α → Machine → Prop) : Result α → Prop
  | ok {a : α} {m' : Machine} (ho : m.Onward m') (hc : m'.Covers) (hq : Q a m') :
      Covering m Q (.ok a m')
  | error {e : RuntimeError} {m' : Machine} (ho : m.Onward m') (hc : m'.Covers) :
      Covering m Q (.error e m')
  | outOfFuel : Covering m Q .outOfFuel

/-- Whatever the value is. -/
abbrev Covering.Plain {α : Type} (m : Machine) : Result α → Prop :=
  Covering m fun _ _ => True

namespace Covering

variable {α β : Type} {m m' : Machine} {Q Q₂ : α → Machine → Prop} {Q' : β → Machine → Prop}
variable {r : Result α}

theorem after (ho : m.Onward m') (h : Covering m' Q r) : Covering m Q r := by
  cases h with
  | ok ho' hc hq => exact .ok (ho.trans ho') hc hq
  | error ho' hc => exact .error (ho.trans ho') hc
  | outOfFuel => exact .outOfFuel

theorem weaken (h : Covering m Q r) (hQ : ∀ {a m'}, Q a m' → Q₂ a m') : Covering m Q₂ r := by
  cases h with
  | ok ho hc hq => exact .ok ho hc (hQ hq)
  | error ho hc => exact .error ho hc
  | outOfFuel => exact .outOfFuel

/-- One run after another. -/
theorem bind {x : Eval α} {f : α → Eval β} (h : Covering m Q (x m))
    (hf : ∀ {a m'}, m.Onward m' → m'.Covers → Q a m' → Covering m' Q' (f a m')) :
    Covering m Q' ((x >>= f) m) := by
  show Covering m Q' (Eval.bind x f m)
  unfold Eval.bind
  generalize x m = r at h ⊢
  cases h with
  | ok ho hc hq => exact (hf ho hc hq).after ho
  | error ho hc => exact .error ho hc
  | outOfFuel => exact .outOfFuel

theorem pure {a : α} (hc : m.Covers) (hq : Q a m) : Covering m Q ((pure a : Eval α) m) :=
  .ok (.refl m) hc hq

theorem fault (hc : m.Covers) (token : Token) (cause : RuntimeCause) :
    Covering m Q (Eval.fault token cause m) :=
  .error (.refl m) hc

theorem ofExcept (hc : m.Covers) {result : Except RuntimeError α} :
    Covering.Plain m (Eval.ofExcept result m) := by
  cases result with
  | ok a => exact .ok (.refl m) hc trivial
  | error e => exact .error (.refl m) hc

theorem currentFrame {f : FrameId → Eval β} (h : Covering m Q' (f m.current m)) :
    Covering m Q' ((Eval.currentFrame >>= f) m) :=
  h

/-- A run in another frame, which is left again at the end. -/
theorem within {f : FrameId} {x : Eval α} (h : Covering.Plain { m with current := f }
    (x { m with current := f })) : Covering.Plain m (Eval.within f x m) := by
  unfold Eval.within
  generalize x { m with current := f } = r at h ⊢
  cases h with
  | ok ho hc => exact .ok ⟨rfl, ho.frames, ho.names⟩ (hc.enter _) trivial
  | error ho hc => exact .error ⟨rfl, ho.frames, ho.names⟩ (hc.enter _)
  | outOfFuel => exact .outOfFuel

theorem of_ok {a : α} (h : Covering m Q r) (hr : r = .ok a m') :
    m.Onward m' ∧ m'.Covers ∧ Q a m' := by
  cases h with
  | ok ho hc hq =>
    cases hr
    exact ⟨ho, hc, hq⟩
  | _ => cases hr

theorem of_left? (h : Covering m Q r) (hr : r.left? = some m') : m.Onward m' ∧ m'.Covers := by
  cases h with
  | ok ho hc =>
    cases hr
    exact ⟨ho, hc⟩
  | error ho hc =>
    cases hr
    exact ⟨ho, hc⟩
  | outOfFuel => cases hr

end Covering

/-! ## Operations -/

namespace Machine.Covers

variable {m : Machine}

/-- Definitions in frames that are there change no function. -/
theorem framed (h : m.Covers) {frames : Frames Value} (ho : m.Onward { m with frames }) :
    Covers { m with frames } :=
  h.onward ho rfl rfl

theorem readVariable (h : m.Covers) (name : Token) (depth : Option Nat) :
    Covering.Plain m (Eval.readVariable name depth m) := by
  unfold Eval.readVariable
  split <;> split
  · exact .ok (.refl m) h trivial
  · exact .error (.refl m) h
  · exact .ok (.refl m) h trivial
  · exact .error (.refl m) h

/-- A new value for the nearest variable of a name. -/
theorem assigned {f : FrameId} {x : String} {v : Value} {frames : Frames Value}
    (ha : m.frames.assign? f x v = some frames) : m.Onward { m with frames } := by
  unfold Frames.assign? at ha
  split at ha
  · cases ha
    exact .define m _ x v
  · cases ha

theorem assignedAt {f : FrameId} {d : Nat} {x : String} {v : Value} {frames : Frames Value}
    (ha : m.frames.assignAt f d x v = .ok frames) : m.Onward { m with frames } := by
  unfold Frames.assignAt at ha
  split at ha
  · cases ha
  · split at ha
    · cases ha
    · cases ha
      exact .define m _ x v

theorem writeVariable (h : m.Covers) (name : Token) (depth : Option Nat) (v : Value) :
    Covering.Plain m (Eval.writeVariable name depth v m) := by
  unfold Eval.writeVariable
  split
  · split
    · rename_i ha
      exact .ok (assignedAt ha) (h.framed (assignedAt ha)) trivial
    · exact .error (.refl m) h
  · split
    · rename_i ha
      exact .ok (assigned ha) (h.framed (assigned ha)) trivial
    · exact .error (.refl m) h

theorem assignVisible (h : m.Covers) (name : Token) (v : Value) :
    Covering.Plain m (Eval.assignVisible name v m) := by
  unfold Eval.assignVisible
  split
  · rename_i ha
    exact .ok (assigned ha) (h.framed (assigned ha)) trivial
  · exact .error (.refl m) h

/-- After a definition at the top the name is global. -/
theorem define (h : m.Covers) (x : String) (v : Value) :
    Covering m (fun _ m' => m.current = Machine.globalFrame → x ∈ m'.globalNames)
      (Eval.define x v m) :=
  .ok (.define m _ x v) (h.framed (.define m _ x v)) fun htop => h.define_global htop x v

theorem newFrame (h : m.Covers) (enclosing : FrameId) (bindings : List (String × Value)) :
    Covering.Plain m (Eval.newFrame enclosing bindings m) := by
  have ho := (Onward.push m (some enclosing)).trans (.defineAll m.frames.next bindings _)
  exact .ok ho (h.framed ho) trivial

theorem makeFunction (h : m.Covers) {f : Function} (hf : f.decl.ownReads ⊆ m.globalNames) :
    Covering.Plain m (Eval.newFunction f m) :=
  .ok (.of_frames rfl rfl) (h.newFunction (.refl _) rfl rfl hf) trivial

theorem makeInstance (h : m.Covers) (c : ClassId) : Covering.Plain m (Eval.newInstance c m) :=
  .ok (.of_frames rfl rfl) ⟨h.globalFrame, h.functions, h.methods⟩ trivial

theorem changeField (h : m.Covers) (i : InstanceId) (name : String) (v : Value) :
    Covering.Plain m (Eval.setField i name v m) :=
  .ok (.of_frames rfl rfl) ⟨h.globalFrame, h.functions, h.methods⟩ trivial

/-- A bound method has the body of the method. -/
theorem bindMethod (h : m.Covers) {method : Function}
    (hf : method.decl.ownReads ⊆ m.globalNames) (this : Value) :
    Covering m (fun f m' => f.decl.ownReads ⊆ m'.globalNames) (Eval.bindMethod method this m) := by
  unfold Eval.bindMethod
  refine (h.newFrame method.closure _).bind fun ho hc _ => ?_
  exact .pure hc (List.Subset.trans hf ho.names)

theorem boundMethod (h : m.Covers) (c : ClassId) (name : Token) (this : Value) :
    Covering.Plain m (Eval.boundMethod c name this m) := by
  unfold Eval.boundMethod
  split
  · rename_i hmethod
    exact (h.bindMethod (h.findMethod hmethod) this).bind fun _ hc hf => hc.makeFunction hf
  · exact .error (.refl m) h

theorem getProperty (h : m.Covers) (i : InstanceId) (name : Token) :
    Covering.Plain m (Eval.getProperty i name m) := by
  unfold Eval.getProperty
  split
  · exact .error (.refl m) h
  · split
    · exact .ok (.refl m) h trivial
    · exact h.boundMethod _ name _

theorem superMethod (h : m.Covers) (keyword method : Token) (depth : Option Nat) :
    Covering.Plain m (Eval.superMethod keyword method depth m) := by
  unfold Eval.superMethod
  split
  · exact .error (.refl m) h
  · split
    · split
      · exact .error (.refl m) h
      · split
        · exact h.boundMethod _ method _
        · exact .error (.refl m) h
    · exact .error (.refl m) h

/-- The function that a call calls is one of the machine's. -/
theorem checkCall (h : m.Covers) (callee : Value) (paren : Token) (count : Nat) :
    Covering m (fun c m' => ∀ f, c = .function f → f.decl.ownReads ⊆ m'.globalNames)
      (Eval.checkCall callee paren count m) := by
  unfold Eval.checkCall
  split
  · exact .error (.refl m) h
  · rename_i c arity hcallable
    split
    · refine .ok (.refl m) h ?_
      rintro f rfl
      cases callee with
      | functionRef i =>
        obtain ⟨g, hg, hpair⟩ := Option.map_eq_some_iff.1 hcallable
        cases hpair
        exact h.functions hg
      | _ => cases hcallable
    · exact .error (.refl m) h

theorem callNative (h : m.Covers) (f : Native) : Covering.Plain m (Eval.callNative f m) := by
  cases f with
  | clock => exact .ok (.of_frames rfl rfl) ⟨h.globalFrame, h.functions, h.methods⟩ trivial

theorem initializerOf (h : m.Covers) (c : ClassId) :
    Covering m (fun f m' => ∀ g, f = some g → g.decl.ownReads ⊆ m'.globalNames)
      (Eval.initializerOf c m) :=
  .ok (.refl m) h fun _ hg => h.findMethod hg

theorem boundInstance (h : m.Covers) (f : Function) :
    Covering.Plain m (Eval.boundInstance f m) :=
  .ok (.refl m) h trivial

theorem printLine (h : m.Covers) (keyword : Token) (v : Value) :
    Covering.Plain m (Eval.printLine keyword v m) := by
  unfold Eval.printLine
  split
  · exact .ok (.of_frames rfl rfl) ⟨h.globalFrame, h.functions, h.methods⟩ trivial
  · exact .error (.of_frames rfl rfl) ⟨h.globalFrame, h.functions, h.methods⟩

end Machine.Covers

/-! ## Statements at their place -/

section

variable {m m' : Machine} {s : Stmt} {ss : List Stmt}

/-- The own reads in a statement are of global names that are bound, or that it binds itself at the
top. -/
def Stmt.CoveredAt (m : Machine) (s : Stmt) : Prop :=
  ∀ y ∈ s.ownReads, y ∈ m.globalNames ∨
    m.current = Machine.globalFrame ∧ y ∈ Stmt.declaredNames [s]

/-- So are those in statements that run in this order. -/
def Stmt.AllCoveredAt (m : Machine) (ss : List Stmt) : Prop :=
  Stmt.ownReadsAll ss ⊆ m.globalNames ∨
    m.current = Machine.globalFrame ∧ Stmt.Covered m.globalNames ss

theorem Stmt.CoveredAt.onward (h : s.CoveredAt m) (ho : m.Onward m') : s.CoveredAt m' := by
  intro y hy
  rw [ho.current]
  exact (h y hy).imp_left fun hknown => ho.names hknown

/-- A statement that declares nothing has no way to bind the names itself. -/
theorem Stmt.CoveredAt.of_none (h : s.CoveredAt m) (hd : s.declared = none) :
    s.ownReads ⊆ m.globalNames := by
  intro y hy
  refine (h y hy).resolve_right fun hown => ?_
  rw [Stmt.declaredNames_singleton_of_none hd] at hown
  exact List.not_mem_nil hown.2

theorem Stmt.coveredAt_of_subset (h : s.ownReads ⊆ m.globalNames) : s.CoveredAt m :=
  fun _ hy => .inl (h hy)

theorem Stmt.Covered.mono : ∀ {ss : List Stmt} {known known' : List String},
    Stmt.Covered known ss → known ⊆ known' → Stmt.Covered known' ss
  | [], _, _, _, _ => trivial
  | s :: _, known, known', h, hk => by
    have hmore : Stmt.declaredNames [s] ++ known ⊆ Stmt.declaredNames [s] ++ known' :=
      List.append_subset.2
        ⟨List.subset_append_left _ _, List.subset_append_of_subset_right _ hk⟩
    exact ⟨List.Subset.trans h.1 hmore, h.2.mono hmore⟩

theorem Stmt.AllCoveredAt.head (h : Stmt.AllCoveredAt m (s :: ss)) : s.CoveredAt m := by
  rcases h with hlocal | ⟨htop, hcovered, -⟩
  · exact Stmt.coveredAt_of_subset (List.append_subset.1 hlocal).1
  · intro y hy
    have hmem := hcovered hy
    rw [List.mem_append] at hmem
    exact hmem.symm.imp_right fun hown => ⟨htop, hown⟩

/-- After the first statement, which has bound its name if it is at the top. -/
theorem Stmt.AllCoveredAt.tail (h : Stmt.AllCoveredAt m (s :: ss)) (ho : m.Onward m')
    (hs : m.current = Machine.globalFrame → Stmt.declaredNames [s] ⊆ m'.globalNames) :
    Stmt.AllCoveredAt m' ss := by
  rcases h with hlocal | ⟨htop, -, hcovered⟩
  · exact .inl (List.Subset.trans (List.append_subset.1 hlocal).2 ho.names)
  · exact .inr ⟨ho.current.trans htop,
      hcovered.mono (List.append_subset.2 ⟨hs htop, ho.names⟩)⟩

end

/-! ## The induction -/

/-- A statement that goes on at the top has bound the name that it declares. -/
abbrev Covering.Flows (s : Stmt) (m : Machine) : Result Flow → Prop :=
  Covering m fun flow m' => flow = .next → m.current = Machine.globalFrame →
    Stmt.declaredNames [s] ⊆ m'.globalNames

section

open Machine (Onward)

variable {m m' : Machine}

theorem Stmt.declaredNames_subset {s : Stmt} {name : Token} {names : List String}
    (hd : s.declared = some name) (h : name.lexeme ∈ names) : Stmt.declaredNames [s] ⊆ names := by
  have hnames : Stmt.declaredNames [s] = [name.lexeme] := by simp [Stmt.declaredNames, hd]
  rw [hnames]
  exact List.cons_subset.2 ⟨h, List.nil_subset _⟩

/-- A statement that declares nothing has nothing to bind. -/
theorem Covering.Plain.flows {s : Stmt} {r : Result Flow} (h : Covering.Plain m r)
    (hd : s.declared = none) : Covering.Flows s m r := by
  refine h.weaken fun _ _ _ => ?_
  rw [Stmt.declaredNames_singleton_of_none hd]
  exact List.nil_subset _

/-- A definition that ends a declaration. -/
theorem Machine.Covers.define_next (h : m.Covers) {s : Stmt} {name : Token}
    (hd : s.declared = some name) (v : Value) :
    Covering.Flows s m ((Eval.define name.lexeme v >>= fun _ => pure Flow.next) m) := by
  refine (h.define name.lexeme v).bind fun _ hc hname => ?_
  exact .pure hc fun _ htop => Stmt.declaredNames_subset hd (hname htop)

/-- A function is made before its name is bound, but nothing runs in between. -/
theorem Machine.Covers.declare_function (h : m.Covers) (decl : FunctionDecl)
    (hs : (Stmt.function decl).CoveredAt m) (fuel : Nat) :
    Covering.Flows (.function decl) m (execute (fuel + 1) (.function decl) m) := by
  have ho := Onward.define { m with functions := m.functions.push ⟨decl, m.current, false⟩ }
    m.current decl.name.lexeme (.functionRef m.functions.size)
  have hbound := fun htop => h.define_global htop decl.name.lexeme (.functionRef m.functions.size)
  have hreads : decl.ownReads ⊆ Machine.globalNames { m with
      functions := m.functions.push ⟨decl, m.current, false⟩
      frames := m.frames.define m.current decl.name.lexeme (.functionRef m.functions.size) } := by
    intro y hy
    rcases hs y hy with hglobal | ⟨htop, hown⟩
    · exact ho.names hglobal
    · rw [List.mem_singleton.1 hown]
      exact hbound htop
  have hcovers := h.newFunction (f := ⟨decl, m.current, false⟩) ho rfl rfl hreads
  have hmade : m.Onward { m with functions := m.functions.push ⟨decl, m.current, false⟩ } :=
    .of_frames rfl rfl
  exact .ok (hmade.trans ho) hcovers fun _ htop => Stmt.declaredNames_subset rfl (hbound htop)

/-- Once the name of a class is bound, its methods are covered as well. -/
theorem Stmt.CoveredAt.methods {name : Token} {superclass : Option Expr}
    {methods : List FunctionDecl} (hs : (Stmt.classDecl name superclass methods).CoveredAt m)
    (ho : m.Onward m') (hname : m.current = Machine.globalFrame → name.lexeme ∈ m'.globalNames) :
    FunctionDecl.ownReadsAll methods ⊆ m'.globalNames := by
  intro y hy
  rcases hs y hy with hglobal | ⟨htop, hown⟩
  · exact ho.names hglobal
  · rw [List.mem_singleton.1 hown]
    exact hname htop

/-- A class is made after its name has been bound. -/
theorem Machine.Covers.declare_class (h : m.Covers) {top : Prop} {name : Token}
    {superclass : Option ClassId} {closure : FrameId} {methods : List FunctionDecl}
    (hname : top → name.lexeme ∈ m.globalNames)
    (hreads : FunctionDecl.ownReadsAll methods ⊆ m.globalNames) :
    Covering m (fun _ m' => top → name.lexeme ∈ m'.globalNames)
      ((Eval.newClass ⟨name.lexeme, superclass, methodTable closure methods⟩ >>= fun c =>
        Eval.assignVisible name c >>= fun _ => pure Flow.next) m) := by
  have hmethods : ∀ x f, (methodTable closure methods).get? x = some f →
      f.decl.ownReads ⊆ m.globalNames := by
    intro x f hf
    rw [methodTable_get?] at hf
    obtain ⟨d, hd, rfl⟩ := Option.map_eq_some_iff.1 hf
    have hmem := List.mem_reverse.1 (List.mem_of_find?_eq_some hd)
    exact List.Subset.trans (FunctionDecl.ownReads_subset hmem) hreads
  have hmade : Covering.Plain m
      (Eval.newClass ⟨name.lexeme, superclass, methodTable closure methods⟩ m) :=
    .ok (.of_frames rfl rfl) (h.newClass hmethods) trivial
  refine hmade.bind fun ho hc _ => ?_
  exact (hc.assignVisible name _).bind fun ho' hc _ =>
    .pure hc fun htop => ho'.names (ho.names (hname htop))

end

mutual

theorem evaluate_covering : ∀ (fuel : Nat) (e : Expr) {m : Machine}, m.Covers →
    Covering.Plain m (evaluate fuel e m)
  | 0, _, _, _ => .outOfFuel
  | fuel + 1, e, m, h => by
    match e with
    | .literal value => exact .pure h trivial
    | .grouping inner =>
      rw [evaluate]
      exact evaluate_covering fuel inner h
    | .unary operator right =>
      rw [evaluate]
      exact (evaluate_covering fuel right h).bind fun _ hc _ => .ofExcept hc
    | .binary left operator right =>
      rw [evaluate]
      refine (evaluate_covering fuel left h).bind fun _ hc _ => ?_
      exact (evaluate_covering fuel right hc).bind fun _ hc _ => .ofExcept hc
    | .logical left operator right =>
      rw [evaluate]
      refine (evaluate_covering fuel left h).bind fun _ hc _ => ?_
      split
      · exact .pure hc trivial
      · exact evaluate_covering fuel right hc
    | .variable name depth =>
      rw [evaluate]
      exact h.readVariable name depth
    | .assign name value depth =>
      rw [evaluate]
      refine (evaluate_covering fuel value h).bind fun _ hc _ => ?_
      exact (hc.writeVariable name depth _).bind fun _ hc _ => .pure hc trivial
    | .call callee paren arguments =>
      rw [evaluate]
      refine (evaluate_covering fuel callee h).bind fun _ hc _ => ?_
      refine (evaluateAll_covering fuel arguments hc).bind fun _ hc _ => ?_
      exact call_covering fuel _ paren _ hc
    | .get object name =>
      rw [evaluate]
      refine (evaluate_covering fuel object h).bind fun {v _} _ hc _ => ?_
      cases v with
      | instanceRef i => exact hc.getProperty i name
      | _ => exact .fault hc ..
    | .set object name value =>
      rw [evaluate]
      refine (evaluate_covering fuel object h).bind fun {v _} _ hc _ => ?_
      cases v with
      | instanceRef i =>
        refine (evaluate_covering fuel value hc).bind fun _ hc _ => ?_
        exact (hc.changeField i name.lexeme _).bind fun _ hc _ => .pure hc trivial
      | _ => exact .fault hc ..
    | .this keyword depth =>
      rw [evaluate]
      exact h.readVariable keyword depth
    | .super keyword method depth =>
      rw [evaluate]
      exact h.superMethod keyword method depth

theorem evaluateAll_covering : ∀ (fuel : Nat) (es : List Expr) {m : Machine}, m.Covers →
    Covering.Plain m (evaluateAll fuel es m)
  | 0, _, _, _ => .outOfFuel
  | fuel + 1, es, m, h => by
    cases es with
    | nil => exact .pure h trivial
    | cons e es =>
      rw [evaluateAll]
      refine (evaluate_covering fuel e h).bind fun _ hc _ => ?_
      exact (evaluateAll_covering fuel es hc).bind fun _ hc _ => .pure hc trivial

theorem call_covering : ∀ (fuel : Nat) (callee : Value) (paren : Token) (arguments : List Value)
    {m : Machine}, m.Covers → Covering.Plain m (call fuel callee paren arguments m)
  | 0, _, _, _, _, _ => .outOfFuel
  | fuel + 1, callee, paren, arguments, m, h => by
    rw [call]
    refine (h.checkCall callee paren arguments.length).bind fun {f _} _ hc hf => ?_
    cases f with
    | native f => exact hc.callNative f
    | function f => exact invoke_covering fuel arguments hc (hf f rfl)
    | construct c =>
      refine (hc.makeInstance c).bind fun _ hc _ => ?_
      refine (hc.initializerOf c).bind fun {init _} _ hc hinit => ?_
      cases init with
      | none => exact .pure hc trivial
      | some init =>
        refine (hc.bindMethod (hinit init rfl) _).bind fun _ hc hbound => ?_
        exact (invoke_covering fuel arguments hc hbound).bind fun _ hc _ => .pure hc trivial

theorem invoke_covering : ∀ (fuel : Nat) (arguments : List Value) {m : Machine} {f : Function},
    m.Covers → f.decl.ownReads ⊆ m.globalNames → Covering.Plain m (invoke fuel f arguments m)
  | 0, _, _, _, _, _ => .outOfFuel
  | fuel + 1, arguments, m, f, h, hf => by
    rw [invoke]
    refine (h.newFrame f.closure _).bind fun {frame m₁} ho hc _ => ?_
    have hbody : Stmt.AllCoveredAt { m₁ with current := frame } f.decl.body :=
      .inl (List.Subset.trans (f.decl.ownReads_eq ▸ hf) ho.names)
    refine (Covering.within (executeAll_covering fuel f.decl.body (hc.enter frame) hbody)).bind
      fun {flow _} _ hc _ => ?_
    split
    · exact hc.boundInstance f
    · cases flow <;> exact .pure hc trivial

theorem execute_covering : ∀ (fuel : Nat) (s : Stmt) {m : Machine}, m.Covers → s.CoveredAt m →
    Covering.Flows s m (execute fuel s m)
  | 0, _, _, _, _ => .outOfFuel
  | fuel + 1, s, m, h, hs => by
    match s with
    | .expression value =>
      rw [execute]
      refine Covering.Plain.flows ?_ rfl
      exact (evaluate_covering fuel value h).bind fun _ hc _ => .pure hc trivial
    | .print keyword value =>
      rw [execute]
      refine Covering.Plain.flows ?_ rfl
      refine (evaluate_covering fuel value h).bind fun _ hc _ => ?_
      exact (hc.printLine keyword _).bind fun _ hc _ => .pure hc trivial
    | .var name none =>
      rw [execute]
      exact h.define_next rfl .nil
    | .var name (some initializer) =>
      rw [execute]
      refine (evaluate_covering fuel initializer h).bind fun ho hc _ => ?_
      rw [← ho.current]
      exact hc.define_next rfl _
    | .block body =>
      rw [execute]
      refine Covering.Plain.flows ?_ rfl
      refine .currentFrame ?_
      refine (h.newFrame m.current []).bind fun {frame m₁} ho hc _ => ?_
      have hbody : Stmt.AllCoveredAt { m₁ with current := frame } body :=
        .inl (List.Subset.trans (hs.of_none rfl) ho.names)
      exact .within (executeAll_covering fuel body (hc.enter frame) hbody)
    | .conditional condition thenBranch none =>
      rw [execute]
      refine Covering.Plain.flows ?_ rfl
      have hthen : thenBranch.ownReads ⊆ m.globalNames := hs.of_none rfl
      refine (evaluate_covering fuel condition h).bind fun ho hc _ => ?_
      split
      · have hthen := Stmt.coveredAt_of_subset (List.Subset.trans hthen ho.names)
        exact (execute_covering fuel thenBranch hc hthen).weaken fun _ => trivial
      · exact .pure hc trivial
    | .conditional condition thenBranch (some elseBranch) =>
      rw [execute]
      refine Covering.Plain.flows ?_ rfl
      obtain ⟨hthen, helse⟩ := List.append_subset.1 (hs.of_none rfl)
      refine (evaluate_covering fuel condition h).bind fun ho hc _ => ?_
      split
      · have hthen := Stmt.coveredAt_of_subset (List.Subset.trans hthen ho.names)
        exact (execute_covering fuel thenBranch hc hthen).weaken fun _ => trivial
      · have helse := Stmt.coveredAt_of_subset (List.Subset.trans helse ho.names)
        exact (execute_covering fuel elseBranch hc helse).weaken fun _ => trivial
    | .loop condition body =>
      rw [execute]
      exact (executeLoop_covering fuel condition body h (hs.of_none rfl)).flows rfl
    | .function decl => exact h.declare_function decl hs fuel
    | .ret keyword none => exact .pure h nofun
    | .ret keyword (some value) =>
      rw [execute]
      exact (evaluate_covering fuel value h).bind fun _ hc _ => .pure hc nofun
    | .classDecl name none methods =>
      rw [execute]
      refine (h.define name.lexeme .nil).bind fun ho hc hname => .currentFrame ?_
      exact (hc.declare_class hname (hs.methods ho hname)).weaken fun hbound _ htop =>
        Stmt.declaredNames_subset rfl (hbound htop)
    | .classDecl name (some superclass) methods =>
      rw [execute]
      refine (evaluate_covering fuel superclass h).bind fun {v _} ho hc _ => ?_
      cases v with
      | classRef above =>
        refine (hc.define name.lexeme .nil).bind fun ho₁ hc hname => .currentFrame ?_
        refine (hc.newFrame _ _).bind fun ho₂ hc _ => ?_
        have hname := fun htop => ho₂.names (hname (ho.current.trans htop))
        have hreads := hs.methods ((ho.trans ho₁).trans ho₂) hname
        exact (hc.declare_class hname hreads).weaken fun hbound _ htop =>
          Stmt.declaredNames_subset rfl (hbound htop)
      | _ => exact .fault hc ..

theorem executeLoop_covering : ∀ (fuel : Nat) (condition : Expr) (body : Stmt) {m : Machine},
    m.Covers → body.ownReads ⊆ m.globalNames →
      Covering.Plain m (executeLoop fuel condition body m)
  | 0, _, _, _, _, _ => .outOfFuel
  | fuel + 1, condition, body, m, h, hs => by
    rw [executeLoop]
    refine (evaluate_covering fuel condition h).bind fun ho hc _ => ?_
    have hs := List.Subset.trans hs ho.names
    split
    · refine (execute_covering fuel body hc (Stmt.coveredAt_of_subset hs)).bind
        fun {flow _} ho hc _ => ?_
      cases flow with
      | next => exact executeLoop_covering fuel condition body hc (List.Subset.trans hs ho.names)
      | returned value keyword => exact .pure hc trivial
    · exact .pure hc trivial

theorem executeAll_covering : ∀ (fuel : Nat) (ss : List Stmt) {m : Machine}, m.Covers →
    Stmt.AllCoveredAt m ss → Covering.Plain m (executeAll fuel ss m)
  | 0, _, _, _, _ => .outOfFuel
  | fuel + 1, ss, m, h, hss => by
    cases ss with
    | nil => exact .pure h trivial
    | cons s ss =>
      rw [executeAll]
      refine (execute_covering fuel s h hss.head).bind fun {flow _} ho hc hflow => ?_
      cases flow with
      | next => exact executeAll_covering fuel ss hc (hss.tail ho (hflow rfl))
      | returned value keyword => exact .pure hc trivial

end

end Lox
