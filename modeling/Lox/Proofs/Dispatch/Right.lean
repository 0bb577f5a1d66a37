import Lox.Proofs.Dispatch.Faithful
import Lox.Proofs.Run.Growth
import Lox.Proofs.Session.Safety
import Mathlib

/-!
# `this` and `super` mean what the record says

From a faithful record, at a place that bears the activation in which it runs, a watched run of a
scoped tree is `Good`: it is right, and the record stays faithful. The induction is on the fuel,
with one theorem for each function of the evaluator. In a session, an accepted program is watched
from the record of all that was run before (`Recorded`).
-/

set_option autoImplicit false

namespace Lox.Dispatch

/-! ## Good runs -/

/-- What a part of a run keeps. -/
structure Steady (m m' : Machine) : Prop where
  fixed : Fixed m.frames m'.frames
  next : m.frames.next ≤ m'.frames.next
  current : m'.current = m.current

theorem Steady.refl (m : Machine) : Steady m m :=
  ⟨.refl _, Nat.le_refl _, rfl⟩

theorem Steady.trans {m m' m'' : Machine} (h : Steady m m') (h' : Steady m' m'') : Steady m m'' :=
  ⟨h.fixed.trans h'.fixed, Nat.le_trans h.next h'.next, h'.current.trans h.current⟩

/-- A watched run is right, and the record is faithful when it ends; a result has the property
`Q`. -/
inductive Good {α : Type} (m : Machine) (Q : α → Machine → Prop) : Verdict α → Prop
  | ok {a : α} {r : Record} {m' : Machine} {right : Prop} (hr : right) (hs : Steady m m')
      (hf : Faithful r m') (hq : Q a m') : Good m Q ⟨.ok a m', r, right⟩
  | error {e : RuntimeError} {r : Record} {m' : Machine} {right : Prop} (hr : right)
      (hs : Steady m m') (hf : Faithful r m') : Good m Q ⟨.error e m', r, right⟩
  | outOfFuel {r : Record} {right : Prop} (hr : right) : Good m Q ⟨.outOfFuel, r, right⟩

/-- A good run of whose result nothing is asked. -/
abbrev Good.Plain {α : Type} (m : Machine) : Verdict α → Prop :=
  Good m fun _ _ => True

/-- The machine does something of which the record takes no note. -/
inductive Quiet {α : Type} (m : Machine) (Q : α → Machine → Prop) : Result α → Prop
  | ok {a : α} {m' : Machine} (hs : Steady m m') (hf : m'.functions = m.functions)
      (hc : m'.classes = m.classes) (hq : Q a m') : Quiet m Q (.ok a m')
  | error {e : RuntimeError} {m' : Machine} (hs : Steady m m') (hf : m'.functions = m.functions)
      (hc : m'.classes = m.classes) : Quiet m Q (.error e m')

namespace Good

variable {α β : Type} {r : Record} {m m' : Machine}
variable {Q : α → Machine → Prop} {Q' : β → Machine → Prop}

theorem after {v : Verdict α} (hs : Steady m m') (h : Good m' Q v) : Good m Q v := by
  cases h with
  | ok hr hs' hf hq => exact .ok hr (hs.trans hs') hf hq
  | error hr hs' hf => exact .error hr (hs.trans hs') hf
  | outOfFuel hr => exact .outOfFuel hr

/-- A good run stays good beside something else that is right. -/
theorem and {result : Result α} {p q : Prop} (hp : p) (h : Good m Q ⟨result, r, q⟩) :
    Good m Q ⟨result, r, p ∧ q⟩ := by
  cases h with
  | ok hr hs hf hq => exact .ok ⟨hp, hr⟩ hs hf hq
  | error hr hs hf => exact .error ⟨hp, hr⟩ hs hf
  | outOfFuel hr => exact .outOfFuel ⟨hp, hr⟩

/-- One run after another. -/
theorem bind {x : Watch α} {f : α → Watch β} (hx : Good m Q (x r m))
    (hf : ∀ {a r' m'}, Steady m m' → Faithful r' m' → Q a m' → Good m' Q' (f a r' m')) :
    Good m Q' ((x >>= f) r m) := by
  show Good m Q' (Watch.bind x f r m)
  unfold Watch.bind
  generalize x r m = v at hx ⊢
  cases hx with
  | ok hr hs hfaith hq => exact ((hf hs hfaith hq).after hs).and hr
  | error hr hs hfaith => exact .error hr hs hfaith
  | outOfFuel hr => exact .outOfFuel hr

theorem pure {a : α} (h : Faithful r m) (hq : Q a m) : Good m Q ((pure a : Watch α) r m) :=
  .ok trivial (.refl m) h hq

theorem run {x : Eval α} (h : Faithful r m) (hx : Quiet m Q (x m)) :
    Good m Q (Watch.run x r m) := by
  unfold Watch.run
  generalize x m = result at hx ⊢
  cases hx with
  | ok hs hf hc hq => exact .ok trivial hs (h.later hs.fixed hf hc) hq
  | error hs hf hc => exact .error trivial hs (h.later hs.fixed hf hc)

theorem ask {k : Record → α} {f : α → Watch β} (h : Good m Q' (f (k r) r m)) :
    Good m Q' ((Watch.ask k >>= f) r m) :=
  h.and trivial

theorem currentFrame {f : FrameId → Watch β} (h : Good m Q' (f m.current r m)) :
    Good m Q' ((Watch.run Eval.currentFrame >>= f) r m) :=
  h.and trivial

/-- A run in another frame, which is left again at the end. -/
theorem within {f : FrameId} {x : Watch α} (h : Plain { m with current := f }
    (x r { m with current := f })) : Plain m (Watch.within f x r m) := by
  unfold Watch.within
  dsimp only [Eval.within]
  generalize x r { m with current := f } = v at h ⊢
  cases h with
  | ok hr hs hf _ => exact .ok hr ⟨hs.fixed, hs.next, rfl⟩ (hf.later (.refl _) rfl rfl) trivial
  | error hr hs hf => exact .error hr ⟨hs.fixed, hs.next, rfl⟩ (hf.later (.refl _) rfl rfl)
  | outOfFuel hr => exact .outOfFuel hr

end Good

/-! ## What the record takes no note of -/

section Quiet

variable {α : Type} {r : Record} {m : Machine} {Q : α → Machine → Prop}

theorem Quiet.same {a : α} (hq : Q a m) : Quiet m Q (.ok a m) :=
  .ok (.refl m) rfl rfl hq

theorem Quiet.fault (token : Token) (cause : RuntimeCause) :
    Quiet m Q (Eval.fault token cause m) :=
  .error (.refl m) rfl rfl

theorem Quiet.ofExcept (result : Except RuntimeError α) :
    Quiet m (fun _ _ => True) (Eval.ofExcept result m) := by
  cases result with
  | ok a => exact .same trivial
  | error e => exact .error (.refl m) rfl rfl

theorem Steady.define (m : Machine) (f : FrameId) {x : String} (v : Value) (hx : ¬ Reserved x) :
    Steady m { m with frames := m.frames.define f x v } :=
  ⟨.define _ _ _ hx, Nat.le_of_eq (Frames.next_define ..).symm, rfl⟩

theorem Quiet.readVariable (name : Token) (depth : Option Nat) :
    Quiet m (fun _ _ => True) (Eval.readVariable name depth m) := by
  unfold Eval.readVariable
  cases depth with
  | some d =>
    dsimp only
    cases m.frames.getAt m.current d name.lexeme with
    | ok v => exact .same trivial
    | error e => exact .error (.refl m) rfl rfl
  | none =>
    dsimp only
    cases m.frames.get? Machine.globalFrame name.lexeme with
    | some v => exact .same trivial
    | none => exact .error (.refl m) rfl rfl

theorem Quiet.writeVariable {name : Token} (hname : name.IsName) (depth : Option Nat) (v : Value) :
    Quiet m (fun _ _ => True) (Eval.writeVariable name depth v m) := by
  unfold Eval.writeVariable Frames.assignAt Frames.assign?
  cases depth with
  | some d =>
    dsimp only
    cases m.frames.ancestor? m.current d with
    | none => exact .error (.refl m) rfl rfl
    | some g =>
      dsimp only
      cases m.frames.here? g name.lexeme with
      | none => exact .error (.refl m) rfl rfl
      | some old => exact .ok (.define m g v (not_reserved hname)) rfl rfl trivial
  | none =>
    dsimp only
    cases m.frames.owner? Machine.globalFrame name.lexeme with
    | none => exact .error (.refl m) rfl rfl
    | some g => exact .ok (.define m g v (not_reserved hname)) rfl rfl trivial

theorem Quiet.define {name : Token} (hname : name.IsName) (v : Value) :
    Quiet m (fun _ _ => True) (Eval.define name.lexeme v m) :=
  .ok (.define m m.current v (not_reserved hname)) rfl rfl trivial

theorem Quiet.assignVisible {name : Token} (hname : name.IsName) (v : Value) :
    Quiet m (fun _ _ => True) (Eval.assignVisible name v m) := by
  unfold Eval.assignVisible Frames.assign?
  cases m.frames.owner? m.current name.lexeme with
  | none => exact .error (.refl m) rfl rfl
  | some g => exact .ok (.define m g v (not_reserved hname)) rfl rfl trivial

/-- What is known of a new frame inside another one. -/
def IsInside (enclosing : FrameId) (f : FrameId) (m : Machine) : Prop :=
  f < m.frames.next ∧ m.frames.enclosing? f = some enclosing

private theorem fixed_foldl {f : FrameId} {bindings : List (String × Value)}
    (hb : ∀ x ∈ bindings.map (·.1), ¬ Reserved x) (fs : Frames Value) :
    Fixed fs (bindings.foldl (fun fs b => fs.define f b.1 b.2) fs) := by
  induction bindings generalizing fs with
  | nil => exact .refl fs
  | cons b bindings ih =>
    rw [List.map_cons, List.forall_mem_cons] at hb
    exact (Fixed.define fs f b.2 hb.1).trans (ih hb.2 _)

theorem Quiet.newFrame (enclosing : FrameId) {bindings : List (String × Value)}
    (hb : ∀ x ∈ bindings.map (·.1), ¬ Reserved x) :
    Quiet m (IsInside enclosing) (Eval.newFrame enclosing bindings m) := by
  have hnext : (bindings.foldl (fun fs b => fs.define m.frames.next b.1 b.2)
      (m.frames.push (some enclosing))).next = m.frames.next + 1 := by
    rw [Frames.next_foldl_define, Frames.next_push]
  refine .ok ⟨(Fixed.push ..).trans (fixed_foldl hb _), ?_, rfl⟩ rfl rfl ⟨?_, ?_⟩
  · show m.frames.next ≤ Frames.next _
    rw [hnext]
    exact Nat.le_succ _
  · show m.frames.next < Frames.next _
    rw [hnext]
    exact Nat.lt_succ_self _
  · show Frames.enclosing? _ _ = _
    rw [Frames.enclosing?_foldl_define, Frames.enclosing?_push, if_pos rfl]

/-- A new frame with one binding has that binding. -/
theorem Quiet.oneFrame (enclosing : FrameId) (x : String) (v : Value) :
    Quiet m (fun f m' => IsInside enclosing f m' ∧ m'.frames.here? f x = some v)
      (Eval.newFrame enclosing [(x, v)] m) := by
  have hlt : m.frames.next < (m.frames.push (some enclosing)).next := by
    rw [Frames.next_push]
    exact Nat.lt_succ_self _
  refine .ok ⟨.push_define .., ?_, rfl⟩ rfl rfl ⟨⟨?_, ?_⟩, ?_⟩
  · show m.frames.next ≤ ((m.frames.push (some enclosing)).define m.frames.next x v).next
    rw [Frames.next_define]
    exact Nat.le_of_lt hlt
  · show m.frames.next < ((m.frames.push (some enclosing)).define m.frames.next x v).next
    rwa [Frames.next_define]
  · show ((m.frames.push (some enclosing)).define m.frames.next x v).enclosing? _ = _
    rw [Frames.enclosing?_define, Frames.enclosing?_push, if_pos rfl]
  · exact Frames.here?_define_self _ _ _ hlt

/-- The frame of a bound method, and the method closed over it. -/
theorem bindMethod_ok (f : Function) (this : Value) (m : Machine) :
    ∃ m', Eval.bindMethod f this m = .ok { f with closure := m.frames.next } m' ∧ Steady m m' ∧
      m'.functions = m.functions ∧ m'.classes = m.classes ∧
      m'.frames.enclosing? m.frames.next = some f.closure ∧
      m'.frames.here? m.frames.next "this" = some this := by
  have hframe : Quiet m _ _ := Quiet.oneFrame f.closure "this" this
  unfold Eval.newFrame at hframe
  cases hframe with
  | ok hs hf hc hq => exact ⟨_, rfl, hs, hf, hc, hq.1.2, hq.2⟩

theorem Quiet.newInstance (c : ClassId) : Quiet m (fun _ _ => True) (Eval.newInstance c m) :=
  .ok ⟨.refl _, Nat.le_refl _, rfl⟩ rfl rfl trivial

theorem Quiet.setField (i : InstanceId) (name : String) (v : Value) :
    Quiet m (fun _ _ => True) (Eval.setField i name v m) :=
  .ok ⟨.refl _, Nat.le_refl _, rfl⟩ rfl rfl trivial

theorem Quiet.callNative (f : Native) : Quiet m (fun _ _ => True) (Eval.callNative f m) := by
  cases f
  exact .ok ⟨.refl _, Nat.le_refl _, rfl⟩ rfl rfl trivial

theorem Quiet.printLine (keyword : Token) (v : Value) :
    Quiet m (fun _ _ => True) (Eval.printLine keyword v m) := by
  unfold Eval.printLine
  split
  · exact .ok ⟨.refl _, Nat.le_refl _, rfl⟩ rfl rfl trivial
  · exact .error ⟨.refl _, Nat.le_refl _, rfl⟩ rfl rfl

/-- A function that is called is a function object. -/
theorem Quiet.checkCall (callee : Value) (paren : Token) (count : Nat) :
    Quiet m (fun f m' => m' = m ∧ ∀ g, f = .function g →
      ∃ id : Nat, callee = .functionRef id ∧ m.functions[id]? = some g)
      (Eval.checkCall callee paren count m) := by
  unfold Eval.checkCall
  split
  · exact .error (.refl m) rfl rfl
  · rename_i f arity hcallable
    split
    · refine .same ⟨rfl, ?_⟩
      rintro g rfl
      cases callee with
      | functionRef id =>
        obtain ⟨g', hg', heq⟩ := Option.map_eq_some_iff.1 hcallable
        cases heq
        exact ⟨id, rfl, hg'⟩
      | _ => cases hcallable
    · exact .error (.refl m) rfl rfl

end Quiet

/-! ## Methods -/

section Methods

variable {r : Record} {m : Machine}

/-- A method that the machine finds is bound as the record tells of the class. -/
theorem Faithful.bindMethod (h : Faithful r m) {c : ClassId} {x : String} {f : Function}
    (hfound : m.findMethod? c x = some f) (receiver : Value) :
    ∃ n, Quiet m (fun g m' => g.decl.Scoped n ∧
      Bears m'.frames g.closure n (r.self? receiver c x)) (Eval.bindMethod f receiver m) := by
  have hfind := h.findMethod? c x
  rw [hfound] at hfind
  unfold Record.self?
  generalize r.find? c x = found at hfind
  cases hfind with
  | @some _ found hmethod =>
    obtain ⟨n, hscoped, hsurr⟩ := hmethod.body
    obtain ⟨m', hbind, hs, hf, hc, hlink, hthis⟩ := bindMethod_ok f receiver m
    rw [hbind]
    exact ⟨_, .ok hs hf hc ⟨hscoped, .method (hsurr.mono hs.fixed) hlink hthis⟩⟩

/-- The method that is bound is the one that the record finds. -/
theorem Faithful.boundMethod (h : Faithful r m) (c : ClassId) (name : Token) (receiver : Value) :
    Good.Plain m ⟨Eval.boundMethod c name receiver m,
      r.addBound m.functions.size receiver c name.lexeme, True⟩ ∧
    match r.find? c name.lexeme with
    | some (d, k) => Watch.IsBound m d k receiver (Eval.boundMethod c name receiver m)
    | none => Eval.boundMethod c name receiver m
        = .error (name.fault (.undefinedProperty name.lexeme)) m := by
  have hfind := h.findMethod? c name.lexeme
  unfold Eval.boundMethod Record.addBound Record.self?
  generalize r.find? c name.lexeme = found at hfind ⊢
  generalize m.findMethod? c name.lexeme = method at hfind ⊢
  cases hfind with
  | none => exact ⟨.error trivial (.refl m) h, rfl⟩
  | @some f found hfound =>
    obtain ⟨hown, hdecl, hinit, n, hscoped, hsurr⟩ := hfound
    obtain ⟨m', hbind, hs, hf, hc, hlink, hthis⟩ := bindMethod_ok f receiver m
    have hbears : Bears m'.frames m.frames.next (["this"] :: n)
        (some ⟨receiver, r.above? found.2⟩) := .method (hsurr.mono hs.fixed) hlink hthis
    have hnew := (h.later hs.fixed hf hc).addFunction
      (f := { f with closure := m.frames.next }) hscoped hbears
    have hrun : (Eval.bindMethod f receiver >>= Eval.newFunction) m
        = .ok (.functionRef m.functions.size)
          { m' with functions := m.functions.push { f with closure := m.frames.next } } := by
      show Eval.bind _ _ m = _
      unfold Eval.bind
      rw [hbind, ← hf]
      rfl
    rw [hf] at hnew
    show Good.Plain m ⟨(Eval.bindMethod f receiver >>= Eval.newFunction) m, _, _⟩ ∧
      Watch.IsBound m _ _ _ ((Eval.bindMethod f receiver >>= Eval.newFunction) m)
    rw [hrun]
    refine ⟨.ok trivial ⟨hs.fixed, hs.next, hs.current⟩ hnew trivial, f, _, hown, hdecl, rfl, ?_,
      hlink, hthis⟩
    rw [← hinit, ← hdecl]

theorem Faithful.getProperty (h : Faithful r m) (i : InstanceId) (name : Token) :
    Good.Plain m (Watch.getProperty i name r m) := by
  unfold Watch.getProperty Eval.getProperty
  cases m.instances[i]? with
  | none => exact .error trivial (.refl m) h
  | some o =>
    dsimp only
    cases o.fields.get? name.lexeme with
    | some v => exact .ok trivial (.refl m) h trivial
    | none => exact (h.boundMethod o.ofClass name (.instanceRef i)).1

end Methods

/-! ## Places -/

/-- A place of the program inside an activation. -/
structure Place (r : Record) (m : Machine) (n : Nest) (around : Option Self) : Prop where
  faithful : Faithful r m
  bears : Bears m.frames m.current n around
  fresh : n.Fresh "super"

section Place

variable {r r' : Record} {m m' : Machine} {n : Nest} {self : Option Self}

theorem Place.later (h : Place r m n self) (hs : Steady m m') (hf : Faithful r' m') :
    Place r' m' n self := by
  refine ⟨hf, ?_, h.fresh⟩
  rw [hs.current]
  exact h.bears.mono hs.fixed

theorem Place.declare (h : Place r m n self) {name : Token} (hname : name.IsName) :
    Place r m (n.declare name.lexeme) self := by
  refine ⟨h.faithful, h.bears.declare (not_reserved hname), ?_⟩
  intro names hnames
  cases n with
  | nil => cases hnames
  | cons own outer =>
    cases hnames
    rw [List.mem_cons, not_or]
    exact ⟨hname.2.symm, h.fresh own rfl⟩

/-- The names of the scope that a statement leaves behind. -/
theorem Place.after (h : Place r m n self) {s : Stmt} {insideFunction : Bool}
    (hs : s.Scoped insideFunction n) : Place r m (n.after s) self := by
  cases s with
  | var name initializer =>
    simp only [Stmt.Scoped] at hs
    exact h.declare hs.1.1
  | function decl =>
    simp only [Stmt.Scoped] at hs
    exact h.declare hs.1.1
  | classDecl name superclass methods =>
    simp only [Stmt.Scoped] at hs
    exact h.declare hs.1.1
  | _ => exact h

/-- A new frame for names that the program gives. -/
theorem Place.enter {f frame : FrameId} (h : Faithful r m) (hb : Bears m.frames f n self)
    (hinside : IsInside f frame m) {names : List String} (hnames : ∀ x ∈ names, ¬ Reserved x) :
    Place r { m with current := frame } (names :: n) self := by
  refine ⟨h.later (.refl _) rfl rfl, hb.enter hinside.2 hnames, ?_⟩
  rintro _ ⟨⟩ hsuper
  exact hnames _ hsuper (.inr rfl)

theorem Place.this (h : Place r m n self) {d : Nat} {keyword : Token}
    (hk : keyword.lexeme = "this") (hd : n.distance? "this" = some d) :
    Good.Plain m (Watch.this self keyword (some d) r m) := by
  obtain ⟨g, s, hg, rfl, hv⟩ := h.bears.this hd
  have hread : Eval.readVariable keyword (some d) m = .ok s.receiver m := by
    simp only [Eval.readVariable, hk, Frames.getAt_of_here? hg hv]
  unfold Watch.this
  simp only [hread]
  exact .ok ⟨s, rfl, rfl⟩ (.refl m) h.faithful trivial

theorem Place.super (h : Place r m n self) {d : Nat} (hsuper : n.distance? "super" = some (d + 1))
    (hthis : n.distance? "this" = some d) (keyword method : Token) :
    Good.Plain m (Watch.super self keyword method (some (d + 1)) r m) := by
  obtain ⟨g, s, hg, hs, hv⟩ := h.bears.this hthis
  obtain ⟨g', s', c, hg', hs', hc, hv'⟩ := h.bears.super hthis hsuper
  subst hs
  cases hs'
  obtain ⟨receiver, above⟩ := s
  obtain rfl : above = some c := hc
  have hrun : Eval.superMethod keyword method (some (d + 1)) m
      = Eval.boundMethod c method receiver m := by
    simp only [Eval.superMethod, Frames.getAt_of_here? hg hv, Frames.getAt_of_here? hg' hv']
  obtain ⟨hgood, hright⟩ := h.faithful.boundMethod c method receiver
  unfold Watch.super
  simp only [hrun]
  generalize Eval.boundMethod c method receiver m = result at hgood hright ⊢
  cases hgood with
  | ok _ hs hf _ => exact .ok hright hs hf trivial
  | error _ hs hf => exact .error hright hs hf
  | outOfFuel => exact .outOfFuel hright

end Place

/-! ## Declarations -/

section Declarations

variable {r : Record} {m : Machine} {n : Nest} {self : Option Self}

theorem Place.declare_function (h : Place r m n self) {insideFunction : Bool}
    {decl : FunctionDecl} (hs : (Stmt.function decl).Scoped insideFunction n) (fuel : Nat) :
    Good.Plain m (execute (fuel + 1) self (.function decl) r m) := by
  simp only [Stmt.Scoped] at hs
  have hnew : Good.Plain m (Watch.newFunction self ⟨decl, m.current, false⟩ r m) :=
    .ok trivial ⟨.refl _, Nat.le_refl _, rfl⟩
      (h.faithful.addFunction hs.2 (h.declare hs.1.1).bears) trivial
  rw [execute]
  refine .currentFrame (hnew.bind fun _ hf _ => ?_)
  exact (Good.run hf (.define hs.1.1 _)).bind fun _ hf _ => .pure hf trivial

/-- A class is made as it was declared, and bound in the frame of the declaration. -/
private theorem Faithful.declare_class (h : Faithful r m) {name : Token} (hname : name.IsName)
    {info : Declared} {c : Class} (hc : IsDeclared m.frames c info) :
    Good.Plain m ((Watch.newClass info c >>= fun c =>
      Watch.run (Eval.assignVisible name c) >>= fun _ => pure Flow.next) r m) := by
  have hnew : Good.Plain m (Watch.newClass info c r m) :=
    .ok trivial ⟨.refl _, Nat.le_refl _, rfl⟩ (h.addClass hc) trivial
  refine hnew.bind fun _ hf _ => ?_
  exact (Good.run hf (.assignVisible hname _)).bind fun _ hf _ => .pure hf trivial

theorem Place.declare_class (h : Place r m n self) {name : Token} (hname : name.IsName)
    {methods : List FunctionDecl}
    (hm : FunctionDecl.AllScoped (["this"] :: n.declare name.lexeme) methods) (fuel : Nat) :
    Good.Plain m (execute (fuel + 1) self (.classDecl name none methods) r m) := by
  rw [execute]
  refine (Good.run h.faithful (.define hname .nil)).bind fun _ hf _ => ?_
  refine .currentFrame (hf.declare_class hname ⟨rfl, _, _, rfl, hm, ?_⟩)
  exact (h.declare hname).fresh

/-- The part of a subclass declaration after its superclass clause. -/
theorem Place.declare_subclass (h : Place r m n self) {name : Token} (hname : name.IsName)
    {methods : List FunctionDecl}
    (hm : FunctionDecl.AllScoped (["this"] :: ["super"] :: n.declare name.lexeme) methods)
    (above : ClassId) :
    Good.Plain m ((do
      Watch.run (Eval.define name.lexeme .nil)
      let closure ←
        Watch.run (Eval.newFrame (← Watch.run Eval.currentFrame) [("super", .classRef above)])
      let c ← Watch.newClass ⟨some above, methods⟩
        ⟨name.lexeme, some above, methodTable closure methods⟩
      Watch.run (Eval.assignVisible name c)
      pure .next : Watch Flow) r m) := by
  refine (Good.run h.faithful (.define hname .nil)).bind fun {_ _ m'} _ hf _ => ?_
  refine .currentFrame ?_
  refine (Good.run hf (.oneFrame m'.current "super" (.classRef above))).bind
    fun _ hf hclosure => ?_
  exact hf.declare_class hname ⟨rfl, _, _, rfl, hm, hclosure.2⟩

end Declarations

/-! ## The induction -/

mutual

theorem evaluate_good : ∀ (fuel : Nat) {r : Record} {m : Machine} {n : Nest} {self : Option Self}
    {p : Option String} {e : Expr}, Place r m n self → e.Scoped n p →
      Good.Plain m (evaluate fuel self e r m)
  | 0, _, _, _, _, _, _, _, _ => .outOfFuel trivial
  | fuel + 1, r, m, n, self, p, e, h, he => by
    match e, he with
    | .literal value, _ => exact .pure h.faithful trivial
    | .grouping inner, he =>
      simp only [Expr.Scoped] at he
      rw [evaluate]
      exact evaluate_good fuel h he
    | .unary operator right, he =>
      simp only [Expr.Scoped] at he
      rw [evaluate]
      refine (evaluate_good fuel h he.2).bind fun _ hf _ => ?_
      exact .run hf (.ofExcept _)
    | .binary left operator right, he =>
      simp only [Expr.Scoped] at he
      rw [evaluate]
      refine (evaluate_good fuel h he.1).bind fun hs hf _ => ?_
      refine (evaluate_good fuel (h.later hs hf) he.2.2).bind fun _ hf _ => ?_
      exact .run hf (.ofExcept _)
    | .logical left operator right, he =>
      simp only [Expr.Scoped] at he
      rw [evaluate]
      refine (evaluate_good fuel h he.1).bind fun hs hf _ => ?_
      split
      · exact .pure hf trivial
      · exact evaluate_good fuel (h.later hs hf) he.2
    | .variable name depth, _ =>
      rw [evaluate]
      exact .run h.faithful (.readVariable name depth)
    | .assign name value depth, he =>
      simp only [Expr.Scoped] at he
      rw [evaluate]
      refine (evaluate_good fuel h he.2.1).bind fun _ hf _ => ?_
      exact (Good.run hf (.writeVariable he.1 depth _)).bind fun _ hf _ => .pure hf trivial
    | .call callee paren arguments, he =>
      simp only [Expr.Scoped] at he
      rw [evaluate]
      refine (evaluate_good fuel h he.1).bind fun hs hf _ => ?_
      refine (evaluateAll_good fuel (h.later hs hf) he.2).bind fun _ hf _ => ?_
      exact call_good fuel hf _ paren _
    | .get object name, he =>
      simp only [Expr.Scoped] at he
      rw [evaluate]
      refine (evaluate_good fuel h he).bind fun {v _ _} _ hf _ => ?_
      cases v with
      | instanceRef i => exact hf.getProperty i name
      | _ => exact .run hf (.fault ..)
    | .set object name value, he =>
      simp only [Expr.Scoped] at he
      rw [evaluate]
      refine (evaluate_good fuel h he.1).bind fun {v _ _} hs hf _ => ?_
      cases v with
      | instanceRef i =>
        refine (evaluate_good fuel (h.later hs hf) he.2).bind fun _ hf _ => ?_
        exact (Good.run hf (.setField i _ _)).bind fun _ hf _ => .pure hf trivial
      | _ => exact .run hf (.fault ..)
    | .this keyword depth, he =>
      simp only [Expr.Scoped] at he
      obtain ⟨hk, d, rfl, hd⟩ := he
      rw [evaluate]
      exact h.this hk hd
    | .super keyword method depth, he =>
      simp only [Expr.Scoped] at he
      obtain ⟨d, rfl, hsuper, hthis⟩ := he
      rw [evaluate]
      exact h.super hsuper hthis keyword method

theorem evaluateAll_good : ∀ (fuel : Nat) {r : Record} {m : Machine} {n : Nest}
    {self : Option Self} {p : Option String} {es : List Expr}, Place r m n self →
      Expr.AllScoped n p es → Good.Plain m (evaluateAll fuel self es r m)
  | 0, _, _, _, _, _, _, _, _ => .outOfFuel trivial
  | fuel + 1, r, m, n, self, p, es, h, hes => by
    cases es with
    | nil => exact .pure h.faithful trivial
    | cons e es =>
      simp only [Expr.AllScoped] at hes
      rw [evaluateAll]
      refine (evaluate_good fuel h hes.1).bind fun hs hf _ => ?_
      exact (evaluateAll_good fuel (h.later hs hf) hes.2).bind fun _ hf _ => .pure hf trivial

theorem call_good : ∀ (fuel : Nat) {r : Record} {m : Machine}, Faithful r m →
    ∀ (callee : Value) (paren : Token) (arguments : List Value),
      Good.Plain m (call fuel callee paren arguments r m)
  | 0, _, _, _, _, _, _ => .outOfFuel trivial
  | fuel + 1, r, m, h, callee, paren, arguments => by
    rw [call]
    refine (Good.run h (.checkCall callee paren arguments.length)).bind fun {f _ _} _ hf hq => ?_
    obtain ⟨rfl, hcallee⟩ := hq
    cases f with
    | native f => exact .run hf (.callNative f)
    | function f =>
      obtain ⟨id, rfl, hid⟩ := hcallee f rfl
      obtain ⟨n, hscoped, hbears⟩ := hf.functions hid
      exact .ask (invoke_good fuel hf hscoped hbears arguments)
    | construct c =>
      refine (Good.run hf (.newInstance c)).bind fun {this _ m'} _ hnew _ => ?_
      have hinit : Quiet m' (fun f m'' => f = m'.findMethod? c initializerName ∧ m' = m'')
          (Eval.initializerOf c m') := .same ⟨rfl, rfl⟩
      refine (Good.run hnew hinit).bind fun {f r' _} _ hf hq => ?_
      obtain ⟨hmethod, rfl⟩ := hq
      cases f with
      | none => exact .pure hf trivial
      | some f =>
        obtain ⟨n, hquiet⟩ := hf.bindMethod hmethod.symm this
        refine .ask ?_
        refine (Good.run hf hquiet).bind fun _ hf hq => ?_
        exact (invoke_good fuel hf hq.1 hq.2 arguments).bind fun _ hf _ => .pure hf trivial

theorem invoke_good : ∀ (fuel : Nat) {r : Record} {m : Machine} {f : Function} {n : Nest}
    {self : Option Self}, Faithful r m → f.decl.Scoped n → Bears m.frames f.closure n self →
      ∀ arguments : List Value, Good.Plain m (invoke fuel self f arguments r m)
  | 0, _, _, _, _, _, _, _, _, _ => .outOfFuel trivial
  | fuel + 1, r, m, f, n, self, h, hscoped, hbears, arguments => by
    obtain ⟨hparams, -, hbody⟩ : (∀ p ∈ f.decl.params, p.IsName) ∧
        (f.decl.params.map (·.lexeme)).Nodup ∧
        Stmt.AllScoped true (f.decl.params.map (·.lexeme) :: n) f.decl.body := by
      cases hd : f.decl
      simpa only [hd, FunctionDecl.Scoped] using hscoped
    have hnames : ∀ x ∈ f.decl.params.map (·.lexeme), ¬ Reserved x := by
      intro x hx
      obtain ⟨p, hp, rfl⟩ := List.mem_map.1 hx
      exact not_reserved (hparams p hp)
    have hbound : ∀ x ∈ ((f.decl.params.map (·.lexeme)).zip arguments).map (·.1),
        ¬ Reserved x := by
      intro x hx
      obtain ⟨b, hb, rfl⟩ := List.mem_map.1 hx
      exact hnames _ (List.of_mem_zip hb).1
    rw [invoke]
    refine (Good.run h (.newFrame f.closure hbound)).bind fun hs hf hinside => ?_
    have hplace := Place.enter hf (hbears.mono hs.fixed) hinside hnames
    refine (Good.within (executeAll_good fuel hplace hbody)).bind fun {flow _ _} _ hf _ => ?_
    split
    · exact .run hf (.same trivial)
    · cases flow <;> exact .pure hf trivial

theorem execute_good : ∀ (fuel : Nat) {r : Record} {m : Machine} {n : Nest} {self : Option Self}
    {insideFunction : Bool} {s : Stmt}, Place r m n self → s.Scoped insideFunction n →
      Good.Plain m (execute fuel self s r m)
  | 0, _, _, _, _, _, _, _, _ => .outOfFuel trivial
  | fuel + 1, r, m, n, self, insideFunction, s, h, hs => by
    match s, hs with
    | .expression value, hs =>
      simp only [Stmt.Scoped] at hs
      rw [execute]
      exact (evaluate_good fuel h hs).bind fun _ hf _ => .pure hf trivial
    | .print keyword value, hs =>
      simp only [Stmt.Scoped] at hs
      rw [execute]
      refine (evaluate_good fuel h hs).bind fun _ hf _ => ?_
      exact (Good.run hf (.printLine keyword _)).bind fun _ hf _ => .pure hf trivial
    | .var name none, hs =>
      simp only [Stmt.Scoped] at hs
      rw [execute]
      exact (Good.run h.faithful (.define hs.1.1 _)).bind fun _ hf _ => .pure hf trivial
    | .var name (some initializer), hs =>
      simp only [Stmt.Scoped] at hs
      rw [execute]
      refine (evaluate_good fuel h hs.2).bind fun _ hf _ => ?_
      exact (Good.run hf (.define hs.1.1 _)).bind fun _ hf _ => .pure hf trivial
    | .block body, hs =>
      simp only [Stmt.Scoped] at hs
      rw [execute]
      refine .currentFrame ?_
      refine (Good.run h.faithful (.newFrame m.current (List.forall_mem_nil _))).bind
        fun hsteady hf hinside => ?_
      have hplace := Place.enter hf (h.bears.mono hsteady.fixed) hinside (List.forall_mem_nil _)
      exact .within (executeAll_good fuel hplace hs)
    | .conditional condition thenBranch none, hs =>
      simp only [Stmt.Scoped] at hs
      rw [execute]
      refine (evaluate_good fuel h hs.1).bind fun hsteady hf _ => ?_
      split
      · exact execute_good fuel (h.later hsteady hf) hs.2.1
      · exact .pure hf trivial
    | .conditional condition thenBranch (some elseBranch), hs =>
      simp only [Stmt.Scoped] at hs
      rw [execute]
      refine (evaluate_good fuel h hs.1).bind fun hsteady hf _ => ?_
      split
      · exact execute_good fuel (h.later hsteady hf) hs.2.1.1
      · exact execute_good fuel (h.later hsteady hf) hs.2.2.1
    | .loop condition body, hs =>
      simp only [Stmt.Scoped] at hs
      rw [execute]
      exact executeLoop_good fuel h hs.1 hs.2.1
    | .function decl, hs => exact h.declare_function hs fuel
    | .ret keyword none, _ => exact .pure h.faithful trivial
    | .ret keyword (some value), hs =>
      simp only [Stmt.Scoped] at hs
      rw [execute]
      exact (evaluate_good fuel h hs.2).bind fun _ hf _ => .pure hf trivial
    | .classDecl name none methods, hs =>
      simp only [Stmt.Scoped] at hs
      exact h.declare_class hs.1.1 hs.2.2 fuel
    | .classDecl name (some superclass) methods, hs =>
      simp only [Stmt.Scoped] at hs
      obtain ⟨hd, hsuper, hm⟩ := hs
      rw [execute]
      refine (evaluate_good fuel h hsuper).bind fun {v _ _} hsteady hf _ => ?_
      cases v with
      | classRef above => exact (h.later hsteady hf).declare_subclass hd.1 hm above
      | _ => exact .run hf (.fault ..)

theorem executeLoop_good : ∀ (fuel : Nat) {r : Record} {m : Machine} {n : Nest}
    {self : Option Self} {insideFunction : Bool} {condition : Expr} {body : Stmt},
      Place r m n self → condition.Scoped n none → body.Scoped insideFunction n →
      Good.Plain m (executeLoop fuel self condition body r m)
  | 0, _, _, _, _, _, _, _, _, _, _ => .outOfFuel trivial
  | fuel + 1, r, m, n, self, insideFunction, condition, body, h, hc, hb => by
    rw [executeLoop]
    refine (evaluate_good fuel h hc).bind fun hs hf _ => ?_
    split
    · refine (execute_good fuel (h.later hs hf) hb).bind fun {flow _ _} hs' hf' _ => ?_
      cases flow with
      | next => exact executeLoop_good fuel ((h.later hs hf).later hs' hf') hc hb
      | returned value keyword => exact .pure hf' trivial
    · exact .pure hf trivial

theorem executeAll_good : ∀ (fuel : Nat) {r : Record} {m : Machine} {n : Nest}
    {self : Option Self} {insideFunction : Bool} {ss : List Stmt}, Place r m n self →
      Stmt.AllScoped insideFunction n ss → Good.Plain m (executeAll fuel self ss r m)
  | 0, _, _, _, _, _, _, _, _ => .outOfFuel trivial
  | fuel + 1, r, m, n, self, insideFunction, ss, h, hss => by
    cases ss with
    | nil => exact .pure h.faithful trivial
    | cons s ss =>
      simp only [Stmt.AllScoped] at hss
      rw [executeAll]
      refine (execute_good fuel h hss.1).bind fun {flow _ _} hs hf _ => ?_
      cases flow with
      | next => exact executeAll_good fuel ((h.later hs hf).after hss.1) hss.2
      | returned value keyword => exact .pure hf trivial

end

theorem interpret_good {r : Record} {m : Machine} (h : Place r m [] none) {program : List Stmt}
    (hp : Stmt.AllScoped false [] program) (fuel : Nat) :
    Good.Plain m (interpret fuel program r m) := by
  unfold interpret
  refine (executeAll_good fuel h hp).bind fun {flow _ _} _ hf _ => ?_
  cases flow with
  | next => exact .pure hf trivial
  | returned value keyword => exact .run hf (.fault ..)

theorem Good.right {α : Type} {m : Machine} {Q : α → Machine → Prop} {v : Verdict α}
    (h : Good m Q v) : v.right := by
  cases h <;> assumption

/-! ## Sessions -/

/-- The record of all that was run in a session. -/
inductive Recorded : Session → Record → Prop
  | start (output : Output) (clock : Clock) : Recorded (.start output clock) .empty
  | ran {s s' : Session} {r : Record} {source : String} {program : List Stmt} {fuel : Nat}
      {outcome : Outcome} (h : Recorded s r) (hc : s.compile source = .ok program)
      (hr : s.run fuel source = some (outcome, s')) :
      Recorded s' (interpret fuel program r s.machine).record
  | later {s : Session} {r : Record} (h : Recorded s r) (clock : Clock) :
      Recorded (s.atClock clock) r

variable {s s' : Session} {r : Record} {source : String} {program : List Stmt}

/-- The place where programs start. -/
theorem Recorded.place (h : Recorded s r) :
    Place r s.machine [] none ∧ s.machine.current = Machine.globalFrame := by
  induction h with
  | start output clock =>
    refine ⟨⟨⟨nofun, fun c => ?_⟩, .top .., nofun⟩, rfl⟩
    simp only [Session.start, Machine.start, Array.getElem?_empty]
    exact .none
  | @ran s s' r source program fuel outcome _ hc hr ih =>
    have hgood := interpret_good ih.1 (compile_scoped hc) fuel
    have hshows := interpret_shows fuel program r s.machine
    rw [Session.run_of_compile hc, Session.interpret, ← hshows] at hr
    generalize interpret fuel program r s.machine = v at hgood hr ⊢
    cases hgood with
    | ok _ hs hf _ =>
      cases hr
      exact ⟨⟨hf, .top .., nofun⟩, hs.current.trans ih.2⟩
    | error _ hs hf =>
      cases hr
      exact ⟨⟨hf, .top .., nofun⟩, hs.current.trans ih.2⟩
    | outOfFuel => cases hr
  | later _ clock ih =>
    obtain ⟨⟨hf, -, -⟩, hcurrent⟩ := ih
    exact ⟨⟨hf.later (.refl _) rfl rfl, .top .., nofun⟩, hcurrent⟩

theorem Recorded.of_reachable (h : s.Reachable) : ∃ r, Recorded s r := by
  induction h with
  | start output clock => exact ⟨_, .start output clock⟩
  | @run s s' fuel source outcome _ hr ih =>
    obtain ⟨r, hrec⟩ := ih
    cases hc : s.compile source with
    | ok program => exact ⟨_, hrec.ran hc hr⟩
    | error errors =>
      rw [Session.run_of_rejected hc] at hr
      cases hr
      exact ⟨r, hrec⟩
  | later _ clock ih =>
    obtain ⟨r, hrec⟩ := ih
    exact ⟨r, hrec.later clock⟩

/-- **`this` and `super`** in every session and every accepted program: each evaluation of `this`
gives the instance to which the method around it is bound, and each evaluation of `super.m` the
method that is found from what the superclass clause gave, bound to that instance, or the error for
a property that no class on the way declares. The way is that of the superclass clauses, and nothing
cuts it short. The run that is watched is the run of the program. -/
theorem this_super_right (hs : s.Reachable) : (∃ r, Recorded s r) ∧
    ∀ r, Recorded s r → (∀ c, r.walk c = c :: ((r.above? c).map r.walk).getD []) ∧
      ∀ source program, s.compile source = .ok program → ∀ fuel,
        (interpret fuel program r s.machine).right ∧
          (interpret fuel program r s.machine).result = Lox.interpret fuel program s.machine := by
  refine ⟨Recorded.of_reachable hs, fun r hr => ⟨fun c => ?_, fun source program hc fuel => ?_⟩⟩
  · exact hr.place.1.faithful.walk_eq hs.idle.sound.inherits c
  · exact ⟨(interpret_good hr.place.1 (compile_scoped hc) fuel).right, interpret_shows ..⟩

/-- A method that calls the one it overrides, for an instance of the subclass. -/
theorem this_super_right_overridden : ∃ program r,
    (Session.start .unlimited (.stopped 0)).compile
      "class A \x7b f() \x7b\x7d \x7d class B < A \x7b f() \x7b super.f(); this; \x7d \x7d B().f();"
      = .ok program ∧
    ((Lox.interpret 30 program (Session.start .unlimited (.stopped 0)).machine).left?).isSome ∧
    (interpret 30 program r (Session.start .unlimited (.stopped 0)).machine).right := by
  obtain ⟨⟨r, hr⟩, h⟩ := this_super_right (.start .unlimited (.stopped 0))
  have hc : ∃ program, (Session.start .unlimited (.stopped 0)).compile
      "class A \x7b f() \x7b\x7d \x7d class B < A \x7b f() \x7b super.f(); this; \x7d \x7d B().f();"
      = .ok program ∧
      ((Lox.interpret 30 program (Session.start .unlimited (.stopped 0)).machine).left?).isSome :=
    ⟨_, by cbv, by cbv⟩
  obtain ⟨program, hc, hrun⟩ := hc
  exact ⟨program, r, hc, hrun, ((h r hr).2 _ program hc 30).1⟩

end Lox.Dispatch
