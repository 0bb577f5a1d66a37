import Lox.Proofs.Run.Sound
import Lox.Proofs.Run.Visits
import Mathlib

/-!
# Frames only grow

Whatever tree is run on a sound machine, and however the run ends, it leaves a sound machine with
the same frame current, in which every frame has kept its link and its names (`Ends`). The induction
is on the fuel, with one theorem for each function of the evaluator. So it is for every machine that
can be reached from the start (`run_restores`), and on all of them the searches are walks to the end
of a chain.
-/

set_option autoImplicit false

namespace Lox

/-! ## Names that statements bind -/

/-- The names that a statement may bind in the frame in which it stands. -/
def Stmt.binds : Stmt → List String
  | .var name _ => [name.lexeme]
  | .conditional _ thenBranch none => thenBranch.binds
  | .conditional _ thenBranch (some elseBranch) => thenBranch.binds ++ elseBranch.binds
  | .loop _ body => body.binds
  | .function decl => [decl.name.lexeme]
  | .classDecl name _ _ => [name.lexeme]
  | _ => []

/-- The names that statements may bind in the frame in which they stand. -/
def Stmt.bindsAll (ss : List Stmt) : List String :=
  ss.flatMap Stmt.binds

/-! ## The induction -/

/-- What an expression gives has been made. -/
abbrev Ends.Gives (m : Machine) : Result Value → Prop :=
  Ends [] m fun v m' => v.Made m'

/-- What a statement returns has been made. -/
abbrev Ends.Flows (names : List String) (m : Machine) : Result Flow → Prop :=
  Ends names m fun flow m' => flow.Made m'

section

variable {m : Machine}

theorem Machine.Sound.declare_function (h : m.Sound) (decl : FunctionDecl) (fuel : Nat) :
    Ends.Flows (Stmt.function decl).binds m (execute (fuel + 1) (.function decl) m) := by
  rw [execute]
  refine .currentFrame ?_
  refine (h.makeFunction (f := ⟨decl, m.current, false⟩) h.current).weaken.bind fun _ hs hv => ?_
  exact (hs.defineHere _ hv).bind fun _ hs _ => .pure hs trivial

/-- The class is made and bound in the frame in which it is declared. -/
private theorem Machine.Sound.declare_class (h : m.Sound) {name : Token} {names : List String}
    {info : Class} (hs : ∀ above, info.superclass = some above → above < m.classes.size)
    (hm : ∀ x f, info.methods.get? x = some f → f.Made m) :
    Ends.Flows names m ((Eval.newClass info >>= fun c =>
      Eval.assignVisible name c >>= fun _ => pure Flow.next) m) := by
  refine (h.makeClass hs hm).weaken.bind fun _ hs hc => ?_
  exact (hs.assignVisible name hc).weaken.bind fun _ hs _ => .pure hs trivial

end

mutual

theorem evaluate_ends : ∀ (fuel : Nat) (e : Expr) {m : Machine}, m.Sound →
    Ends.Gives m (evaluate fuel e m)
  | 0, _, _, _ => .outOfFuel
  | fuel + 1, e, m, h => by
    match e with
    | .literal value => exact .pure h value.made
    | .grouping inner =>
      rw [evaluate]
      exact evaluate_ends fuel inner h
    | .unary operator right =>
      rw [evaluate]
      refine (evaluate_ends fuel right h).bind fun _ hs _ => ?_
      exact .ofExcept hs Value.unary_made
    | .binary left operator right =>
      rw [evaluate]
      refine (evaluate_ends fuel left h).bind fun _ hs _ => ?_
      refine (evaluate_ends fuel right hs).bind fun _ hs _ => ?_
      exact .ofExcept hs Value.binary_made
    | .logical left operator right =>
      rw [evaluate]
      refine (evaluate_ends fuel left h).bind fun _ hs hv => ?_
      split
      · exact .pure hs hv
      · exact evaluate_ends fuel right hs
    | .variable name depth =>
      rw [evaluate]
      exact h.readVariable name depth
    | .assign name value depth =>
      rw [evaluate]
      refine (evaluate_ends fuel value h).bind fun _ hs hv => ?_
      exact (hs.writeVariable name depth hv).bind fun hk hs _ => .pure hs (hv.mono hk.toHolds)
    | .call callee paren arguments =>
      rw [evaluate]
      refine (evaluate_ends fuel callee h).bind fun _ hs hf => ?_
      refine (evaluateAll_ends fuel arguments hs).bind fun hk hs hvs => ?_
      exact call_ends fuel paren hs (hf.mono hk.toHolds) hvs
    | .get object name =>
      rw [evaluate]
      refine (evaluate_ends fuel object h).bind fun {v _} _ hs hv => ?_
      cases v with
      | instanceRef i => exact hs.getProperty hv name
      | _ => exact .fault hs ..
    | .set object name value =>
      rw [evaluate]
      refine (evaluate_ends fuel object h).bind fun {v _} _ hs _ => ?_
      cases v with
      | instanceRef i =>
        refine (evaluate_ends fuel value hs).bind fun _ hs hv => ?_
        exact (hs.changeField i name.lexeme hv).bind fun hk hs _ => .pure hs (hv.mono hk.toHolds)
      | _ => exact .fault hs ..
    | .this keyword depth =>
      rw [evaluate]
      exact h.readVariable keyword depth
    | .super keyword method depth =>
      rw [evaluate]
      exact h.superMethod keyword method depth

theorem evaluateAll_ends : ∀ (fuel : Nat) (es : List Expr) {m : Machine}, m.Sound →
    Ends [] m (fun vs m' => ∀ v ∈ vs, v.Made m') (evaluateAll fuel es m)
  | 0, _, _, _ => .outOfFuel
  | fuel + 1, es, m, h => by
    cases es with
    | nil => exact .pure h nofun
    | cons e es =>
      rw [evaluateAll]
      refine (evaluate_ends fuel e h).bind fun _ hs hv => ?_
      refine (evaluateAll_ends fuel es hs).bind fun hk hs hvs => ?_
      exact .pure hs (List.forall_mem_cons.2 ⟨hv.mono hk.toHolds, hvs⟩)

theorem call_ends : ∀ (fuel : Nat) (paren : Token) {m : Machine} {callee : Value}
    {arguments : List Value}, m.Sound → callee.Made m → (∀ v ∈ arguments, v.Made m) →
      Ends.Gives m (call fuel callee paren arguments m)
  | 0, _, _, _, _, _, _, _ => .outOfFuel
  | fuel + 1, paren, m, callee, arguments, h, hcallee, harguments => by
    rw [call]
    refine (h.checkCall hcallee paren arguments.length).bind fun {f _} hk hs hf => ?_
    have harguments := fun v hv => (harguments v hv).mono hk.toHolds
    cases f with
    | native f => exact hs.callNative f
    | function f => exact invoke_ends fuel hs hf harguments
    | construct c =>
      refine (hs.makeInstance hf).bind fun hk hs hthis => ?_
      have harguments := fun v hv => (harguments v hv).mono hk.toHolds
      refine (hs.initializerOf c).bind fun {init _} hk hs hinit => ?_
      have harguments := fun v hv => (harguments v hv).mono hk.toHolds
      have hthis := hthis.mono hk.toHolds
      cases init with
      | none => exact .pure hs hthis
      | some init =>
        refine (hs.bindMethod (hinit _ rfl) hthis).bind fun hk hs hbound => ?_
        have harguments := fun v hv => (harguments v hv).mono hk.toHolds
        refine (invoke_ends fuel hs hbound harguments).bind fun hk' hs _ => ?_
        exact .pure hs ((hthis.mono hk.toHolds).mono hk'.toHolds)

theorem invoke_ends : ∀ (fuel : Nat) {m : Machine} {f : Function} {arguments : List Value},
    m.Sound → f.Made m → (∀ v ∈ arguments, v.Made m) →
      Ends.Gives m (invoke fuel f arguments m)
  | 0, _, _, _, _, _, _ => .outOfFuel
  | fuel + 1, m, f, arguments, h, hf, harguments => by
    have hbindings : ∀ b ∈ (f.decl.params.map (·.lexeme)).zip arguments, b.2.Made m :=
      fun b hb => harguments b.2 (List.of_mem_zip hb).2
    have hbody := h.inFrame hf hbindings (fun _ hs => executeAll_ends fuel f.decl.body hs)
      fun {flow _ _} hflow => by cases flow <;> exact hflow
    rw [invoke, ← Eval.bind_assoc]
    refine hbody.bind fun {flow _} _ hs hflow => ?_
    split
    · exact hs.boundInstance f
    · cases flow with
      | next => exact .pure hs trivial
      | returned value _ => exact .pure hs hflow

theorem execute_ends : ∀ (fuel : Nat) (s : Stmt) {m : Machine}, m.Sound →
    Ends.Flows s.binds m (execute fuel s m)
  | 0, _, _, _ => .outOfFuel
  | fuel + 1, s, m, h => by
    match s with
    | .expression value =>
      rw [execute]
      exact (evaluate_ends fuel value h).weaken.bind fun _ hs _ => .pure hs trivial
    | .print keyword value =>
      rw [execute]
      refine (evaluate_ends fuel value h).weaken.bind fun _ hs _ => ?_
      exact (hs.printLine keyword _).weaken.bind fun _ hs _ => .pure hs trivial
    | .var name none =>
      rw [execute]
      exact (h.defineHere name.lexeme Value.nil_made).bind fun _ hs _ => .pure hs trivial
    | .var name (some initializer) =>
      rw [execute]
      refine (evaluate_ends fuel initializer h).weaken.bind fun _ hs hv => ?_
      exact (hs.defineHere name.lexeme hv).bind fun _ hs _ => .pure hs trivial
    | .block body =>
      rw [execute]
      refine .currentFrame ?_
      exact h.inFrame h.current (List.forall_mem_nil _) (fun _ hs => executeAll_ends fuel body hs)
        fun {flow _ _} hflow => by cases flow <;> exact hflow
    | .conditional condition thenBranch none =>
      rw [execute]
      refine (evaluate_ends fuel condition h).weaken.bind fun _ hs _ => ?_
      split
      · exact execute_ends fuel thenBranch hs
      · exact .pure hs trivial
    | .conditional condition thenBranch (some elseBranch) =>
      rw [execute]
      refine (evaluate_ends fuel condition h).weaken.bind fun _ hs _ => ?_
      split
      · exact (execute_ends fuel thenBranch hs).mono fun _ hx => List.mem_append_left _ hx
      · exact (execute_ends fuel elseBranch hs).mono fun _ hx => List.mem_append_right _ hx
    | .loop condition body =>
      rw [execute]
      exact executeLoop_ends fuel condition body h
    | .function decl => exact h.declare_function decl fuel
    | .ret keyword none => exact .pure h trivial
    | .ret keyword (some value) =>
      rw [execute]
      exact (evaluate_ends fuel value h).weaken.bind fun _ hs hv => .pure hs hv
    | .classDecl name none methods =>
      rw [execute]
      refine (h.defineHere name.lexeme Value.nil_made).bind fun {_ m'} _ hs _ => ?_
      exact .currentFrame (hs.declare_class nofun (methodTable_made hs.current methods))
    | .classDecl name (some superclass) methods =>
      rw [execute]
      refine (evaluate_ends fuel superclass h).weaken.bind fun {v _} _ hs hv => ?_
      cases v with
      | classRef above =>
        refine (hs.defineHere name.lexeme Value.nil_made).bind fun {_ m'} hk hs _ => ?_
        have habove := hv.mono hk.toHolds
        have hbinding : ∀ b ∈ [("super", Value.classRef above)], b.2.Made m' := by
          intro b hb
          rwa [List.mem_singleton.1 hb]
        refine .currentFrame ?_
        refine (hs.newFrame hs.current hbinding).weaken.bind fun {closure _} hk hs hclosure => ?_
        refine hs.declare_class ?_ (methodTable_made hclosure.2 methods)
        rintro _ ⟨⟩
        exact habove.mono hk.toHolds
      | _ => exact .fault hs ..

theorem executeLoop_ends : ∀ (fuel : Nat) (condition : Expr) (body : Stmt) {m : Machine},
    m.Sound → Ends.Flows body.binds m (executeLoop fuel condition body m)
  | 0, _, _, _, _ => .outOfFuel
  | fuel + 1, condition, body, m, h => by
    rw [executeLoop]
    refine (evaluate_ends fuel condition h).weaken.bind fun _ hs _ => ?_
    split
    · refine (execute_ends fuel body hs).bind fun {flow _} _ hs hflow => ?_
      cases flow with
      | next => exact executeLoop_ends fuel condition body hs
      | returned value keyword => exact .pure hs hflow
    · exact .pure hs trivial

theorem executeAll_ends : ∀ (fuel : Nat) (ss : List Stmt) {m : Machine}, m.Sound →
    Ends.Flows (Stmt.bindsAll ss) m (executeAll fuel ss m)
  | 0, _, _, _ => .outOfFuel
  | fuel + 1, ss, m, h => by
    cases ss with
    | nil => exact .pure h trivial
    | cons s ss =>
      have hhead : Ends.Flows (Stmt.bindsAll (s :: ss)) m (execute fuel s m) :=
        (execute_ends fuel s h).mono fun _ hx => List.mem_append_left _ hx
      rw [executeAll]
      refine hhead.bind fun {flow _} _ hs hflow => ?_
      cases flow with
      | next => exact (executeAll_ends fuel ss hs).mono fun _ hx => List.mem_append_right _ hx
      | returned value keyword => exact .pure hs hflow

end

/-! ## Tasks -/

/-- The machine that a run leaves, if it ends. -/
def Result.left? {α : Type} : Result α → Option Machine
  | .ok _ m => some m
  | .error _ m => some m
  | .outOfFuel => none

/-- The machine that a run of a task leaves, if it ends: well, with a `return` or with an error. -/
def Task.left? (fuel : Nat) (m : Machine) : Task → Option Machine
  | .expr _ e => (evaluate fuel e m).left?
  | .exprs _ es => (evaluateAll fuel es m).left?
  | .call callee paren arguments => (Lox.call fuel callee paren arguments m).left?
  | .invoke f arguments => (Lox.invoke fuel f arguments m).left?
  | .stmt s => (execute fuel s m).left?
  | .loop condition body => (executeLoop fuel condition body m).left?
  | .stmts ss => (executeAll fuel ss m).left?

/-- What a call calls, and its arguments, have been made. -/
def Task.Held (m : Machine) : Task → Prop
  | .call callee _ arguments => callee.Made m ∧ ∀ v ∈ arguments, v.Made m
  | .invoke f arguments => f.Made m ∧ ∀ v ∈ arguments, v.Made m
  | _ => True

/-- The names that a task may bind in the current frame. -/
def Task.binds : Task → List String
  | .stmt s => s.binds
  | .loop _ body => body.binds
  | .stmts ss => Stmt.bindsAll ss
  | _ => []

theorem Ends.of_left? {α : Type} {names : List String} {m m' : Machine}
    {Q : α → Machine → Prop} {r : Result α} (h : Ends names m Q r) (hr : r.left? = some m') :
    m.Keeps names m' ∧ m'.Sound := by
  cases h with
  | ok hk hs _ =>
    cases hr
    exact ⟨hk, hs⟩
  | error hk hs =>
    cases hr
    exact ⟨hk, hs⟩
  | outOfFuel => cases hr

theorem Ends.of_ok {α : Type} {names : List String} {m m' : Machine} {a : α}
    {Q : α → Machine → Prop} {r : Result α} (h : Ends names m Q r) (hr : r = .ok a m') :
    m.Keeps names m' ∧ m'.Sound ∧ Q a m' := by
  cases h with
  | ok hk hs hq =>
    cases hr
    exact ⟨hk, hs, hq⟩
  | _ => cases hr

/-- A task that ends keeps what was there. -/
theorem Machine.Sound.run {m m' : Machine} {t : Task} {fuel : Nat} (h : m.Sound) (ht : t.Held m)
    (hrun : t.left? fuel m = some m') : m.Keeps t.binds m' ∧ m'.Sound := by
  cases t with
  | expr p e => exact (evaluate_ends fuel e h).of_left? hrun
  | exprs p es => exact (evaluateAll_ends fuel es h).of_left? hrun
  | call callee paren arguments => exact (call_ends fuel paren h ht.1 ht.2).of_left? hrun
  | invoke f arguments => exact (invoke_ends fuel h ht.1 ht.2).of_left? hrun
  | stmt s => exact (execute_ends fuel s h).of_left? hrun
  | loop condition body => exact (executeLoop_ends fuel condition body h).of_left? hrun
  | stmts ss => exact (executeAll_ends fuel ss h).of_left? hrun

/-- So does a task that starts another one, up to the start of that one. -/
theorem Starts.sound {m m' : Machine} {t t' : Task} (h : Starts m t m' t') (hm : m.Sound)
    (ht : t.Held m) : m'.Sound ∧ t'.Held m' := by
  cases h with
  | binaryRight hl => exact ⟨((evaluate_ends _ _ hm).of_ok hl).2.1, trivial⟩
  | logicalRight hl _ => exact ⟨((evaluate_ends _ _ hm).of_ok hl).2.1, trivial⟩
  | arguments hc => exact ⟨((evaluate_ends _ _ hm).of_ok hc).2.1, trivial⟩
  | call hc ha =>
    obtain ⟨-, hm, hf⟩ := (evaluate_ends _ _ hm).of_ok hc
    obtain ⟨hk, hm, hvs⟩ := (evaluateAll_ends _ _ hm).of_ok ha
    exact ⟨hm, hf.mono hk.toHolds, hvs⟩
  | setValue ho => exact ⟨((evaluate_ends _ _ hm).of_ok ho).2.1, trivial⟩
  | exprsTail he => exact ⟨((evaluate_ends _ _ hm).of_ok he).2.1, trivial⟩
  | function hc =>
    obtain ⟨hk, hm, hf⟩ := (hm.checkCall ht.1 _ _).of_ok hc
    exact ⟨hm, hf, fun v hv => (ht.2 v hv).mono hk.toHolds⟩
  | construct hc hthis hinit hbind =>
    obtain ⟨hk₁, hm, hf⟩ := (hm.checkCall ht.1 _ _).of_ok hc
    obtain ⟨hk₂, hm, hthis⟩ := (hm.makeInstance hf).of_ok hthis
    obtain ⟨hk₃, hm, hinit⟩ := (hm.initializerOf _).of_ok hinit
    obtain ⟨hk₄, hm, hbound⟩ :=
      (hm.bindMethod (hinit _ rfl) (hthis.mono hk₃.toHolds)).of_ok hbind
    have hk := ((hk₁.toHolds.trans hk₂.toHolds).trans hk₃.toHolds).trans hk₄.toHolds
    exact ⟨hm, hbound, fun v hv => (ht.2 v hv).mono hk⟩
  | @body _ f arguments _ hf =>
    have hb : ∀ b ∈ (f.decl.params.map (·.lexeme)).zip arguments, b.2.Made m :=
      fun b hb => ht.2 b.2 (List.of_mem_zip hb).2
    obtain ⟨-, hm, hframe⟩ := (hm.newFrame ht.1 hb).of_ok hf
    exact ⟨hm.enter hframe.2, trivial⟩
  | block hf =>
    obtain ⟨-, hm, hframe⟩ := (hm.newFrame hm.current (List.forall_mem_nil _)).of_ok hf
    exact ⟨hm.enter hframe.2, trivial⟩
  | thenBranch hc _ => exact ⟨((evaluate_ends _ _ hm).of_ok hc).2.1, trivial⟩
  | elseBranch hc _ => exact ⟨((evaluate_ends _ _ hm).of_ok hc).2.1, trivial⟩
  | loopBody hc _ => exact ⟨((evaluate_ends _ _ hm).of_ok hc).2.1, trivial⟩
  | loopAgain hc _ hb =>
    have hm := ((evaluate_ends _ _ hm).of_ok hc).2.1
    exact ⟨((execute_ends _ _ hm).of_ok hb).2.1, trivial⟩
  | stmtsTail hs => exact ⟨((execute_ends _ _ hm).of_ok hs).2.1, trivial⟩
  | _ => exact ⟨hm, trivial⟩

/-! ## Reachable machines -/

namespace Machine

theorem Sound.start (output : Output) (clock : Clock) : (Machine.start output clock).Sound where
  current := Nat.zero_lt_one
  links := by
    intro f outer h
    simp only [Machine.start, Frames.enclosing?_define, Frames.enclosing?_push] at h
    split at h
    · cases h
    · simp [Frames.enclosing?, Frames.empty] at h
  bound := by
    intro f x v h
    simp only [Machine.start, Frames.here?_define, Frames.here?_push] at h
    split at h
    · cases h
      trivial
    · simp [Frames.here?, Frames.empty] at h
  functions := nofun
  inherits := nofun
  methods := nofun
  ofClass := nofun
  fields := nofun

/-- What can be reached from the start: by tasks, whether they have ended or are still going on, by
making any frame current, and as time goes by. -/
inductive Reachable : Machine → Prop
  | start (output : Output) (clock : Clock) : Reachable (.start output clock)
  | ended {m m' : Machine} {t : Task} {fuel : Nat} (h : Reachable m) (ht : t.Held m)
      (hrun : t.left? fuel m = some m') : Reachable m'
  | started {m m' : Machine} {t t' : Task} (h : Reachable m) (ht : t.Held m)
      (hs : Starts m t m' t') : Reachable m'
  | entered {m : Machine} {f : FrameId} (h : Reachable m) (hf : f < m.frames.next) :
      Reachable { m with current := f }
  | later {m : Machine} (h : Reachable m) (clock : Clock) : Reachable { m with clock }

theorem Reachable.sound {m : Machine} (h : m.Reachable) : m.Sound := by
  induction h with
  | start output clock => exact .start output clock
  | ended _ ht hrun ih => exact (ih.run ht hrun).2
  | started _ ht hs ih => exact (hs.sound ih ht).1
  | entered _ hf ih => exact ih.enter hf
  | later _ clock ih => exact (ih.outside _ clock).2

/-- Links lead to what was made before, and the searches walk to the end of a chain. -/
structure Grounded (m : Machine) : Prop where
  /-- The frame of the globals is there, and nothing is around it. -/
  globals : globalFrame < m.frames.next ∧ m.frames.enclosing? globalFrame = none
  /-- The frame around a frame was made before it. -/
  links : ∀ f outer, m.frames.enclosing? f = some outer → outer < f
  /-- The superclass of a class was made before it. -/
  superclasses : ∀ (c : ClassId) (info : Class) (above : ClassId), m.classes[c]? = some info →
    info.superclass = some above → above < c
  /-- Searching from a frame walks along all frames outwards, and so does counting links. -/
  frames : ∀ f, ∃ path, m.frames.Path f path ∧
    (∀ x, m.frames.get? f x = path.findSome? fun g => m.frames.here? g x) ∧
    (∀ x v, m.frames.assign? f x v =
      (path.find? fun g => (m.frames.here? g x).isSome).map fun g => m.frames.define g x v) ∧
    ∀ d, m.frames.ancestor? f d = path[d]?
  /-- Searching for a method walks along all classes upwards. -/
  classes : ∀ c < m.classes.size, ∃ line, m.Lineage c line ∧
    ∀ x, m.findMethod? c x = line.findSome? fun c => m.ownMethod? c x

theorem Sound.grounded {m : Machine} (h : m.Sound) : m.Grounded where
  globals := by
    refine ⟨Nat.zero_lt_of_lt h.current, ?_⟩
    cases houter : m.frames.enclosing? globalFrame with
    | none => rfl
    | some outer => exact absurd (h.links _ _ houter) (Nat.not_lt_zero _)
  links := h.links
  superclasses := h.inherits
  frames := by
    intro f
    obtain ⟨path, hp⟩ := h.links.exists_path f
    exact ⟨path, hp, hp.get? h.links, hp.assign? h.links, hp.ancestor?⟩
  classes := by
    intro c hc
    obtain ⟨line, hl⟩ := h.inherits.exists_lineage c hc
    exact ⟨line, hl, hl.findMethod? h.inherits⟩

end Machine

/-- However a task ends on a machine that can be reached, the same frame is current again, every
frame has kept its link and its names, and the searches walk along finite chains. The frame of the
globals is always the same one. -/
theorem run_restores {m m' : Machine} {t : Task} {fuel : Nat} (hm : m.Reachable) (ht : t.Held m)
    (hrun : t.left? fuel m = some m') :
    m'.current = m.current ∧
      (∀ f < m.frames.next, m'.frames.enclosing? f = m.frames.enclosing? f) ∧
      (∀ f x, (m.frames.here? f x).isSome → (m'.frames.here? f x).isSome) ∧ m'.Grounded := by
  obtain ⟨hk, hs⟩ := hm.sound.run ht hrun
  exact ⟨hk.current, fun _ hf => hk.links hf, fun _ _ hx => hk.still hx, hs.grounded⟩

/-- A block that fails inside a function: the frames of the call and of the block are left again. -/
theorem run_restores_failing_block : ∃ m', (Task.stmts [
      .function ⟨⟨.identifier, "f", 1⟩, [], [.block [.expression (.get (.literal .nil)
        ⟨.identifier, "x", 1⟩)]]⟩,
      .expression (.call (.variable ⟨.identifier, "f", 1⟩ none) ⟨.punct .rightParen, ")", 1⟩ [])
    ]).left? 12 (.start .unlimited (.stopped 0)) = some m' ∧ m'.frames.next = 3 ∧
      m'.current = Machine.globalFrame ∧ m'.Grounded := by
  have hrun : ((Task.stmts [
      .function ⟨⟨.identifier, "f", 1⟩, [], [.block [.expression (.get (.literal .nil)
        ⟨.identifier, "x", 1⟩)]]⟩,
      .expression (.call (.variable ⟨.identifier, "f", 1⟩ none) ⟨.punct .rightParen, ")", 1⟩ [])
    ]).left? 12 (.start .unlimited (.stopped 0))).map (·.frames.next) = some 3 := by cbv
  obtain ⟨m', hm', hnext⟩ := Option.map_eq_some_iff.1 hrun
  have h := run_restores (.start .unlimited (.stopped 0)) (by trivial) hm'
  exact ⟨m', hm', hnext, h.1, h.2.2.2⟩

end Lox
