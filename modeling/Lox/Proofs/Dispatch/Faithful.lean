import Lox.Proofs.Dispatch.Watch
import Lox.Proofs.Lexical.Agree
import Lox.Proofs.Run.Chains

/-!
# Faithful records

A record is `Faithful` to a machine when its classes are those of the machine, and the frame of
every function object bears the activation that is recorded for it: where the nest of its
declaration knows `this`, that frame binds the instance, and where it knows `super` one frame
further out, that one binds the class. Programs cannot declare or assign to `this` and `super`, so
what a frame bears stays (`Fixed`). Each operation leads from a faithful record to a faithful one,
and is right (`Good`).
-/

set_option autoImplicit false

namespace Lox.Dispatch

/-! ## Frames -/

/-- The names that programs cannot give to anything. -/
def Reserved (x : String) : Prop :=
  x = "this" ∨ x = "super"

theorem not_reserved {name : Token} (h : name.IsName) : ¬ Reserved name.lexeme :=
  fun hr => hr.elim h.1 h.2

/-- Links stay, and so does what is bound to reserved names. -/
structure Fixed (fs fs' : Frames Value) : Prop where
  links : ∀ f g, fs.enclosing? f = some g → fs'.enclosing? f = some g
  reserved : ∀ f x v, Reserved x → fs.here? f x = some v → fs'.here? f x = some v

theorem Fixed.refl (fs : Frames Value) : Fixed fs fs :=
  ⟨fun _ _ h => h, fun _ _ _ _ h => h⟩

theorem Fixed.trans {fs fs' fs'' : Frames Value} (h : Fixed fs fs') (h' : Fixed fs' fs'') :
    Fixed fs fs'' :=
  ⟨fun f g hf => h'.links f g (h.links f g hf),
    fun f x v hx hv => h'.reserved f x v hx (h.reserved f x v hx hv)⟩

theorem Fixed.define (fs : Frames Value) (f : FrameId) {x : String} (v : Value)
    (hx : ¬ Reserved x) : Fixed fs (fs.define f x v) where
  links := fun g g' hg => by rwa [Frames.enclosing?_define]
  reserved := by
    intro g y w hy hw
    rw [Frames.here?_define_ne]
    · exact hw
    · rintro ⟨-, rfl⟩
      exact hx hy

theorem Fixed.push (fs : Frames Value) (enclosing : Option FrameId) :
    Fixed fs (fs.push enclosing) where
  links := by
    intro f g hf
    have hne : f ≠ fs.next := by
      rintro rfl
      rw [Frames.enclosing?_next] at hf
      cases hf
    rwa [Frames.enclosing?_push, if_neg hne]
  reserved := fun f x v _ hv => by rwa [Frames.here?_push]

/-- A new frame with a binding of any name. -/
theorem Fixed.push_define (fs : Frames Value) (enclosing : Option FrameId) (x : String)
    (v : Value) : Fixed fs ((fs.push enclosing).define fs.next x v) where
  links := fun f g hf => by
    rw [Frames.enclosing?_define]
    exact (Fixed.push fs enclosing).links f g hf
  reserved := by
    intro f y w _ hw
    rw [Frames.here?_define_ne, Frames.here?_push]
    · exact hw
    · rintro ⟨rfl, -⟩
      rw [Frames.here?_next] at hw
      cases hw

/-- A frame at a nest bears an activation. -/
structure Bears (fs : Frames Value) (f : FrameId) (n : Nest) (around : Option Self) : Prop where
  this : ∀ {d}, n.distance? "this" = some d → ∃ g s, fs.ancestor? f d = some g ∧ around = some s ∧
    fs.here? g "this" = some s.receiver
  super : ∀ {d}, n.distance? "this" = some d → n.distance? "super" = some (d + 1) →
    ∃ g s c, fs.ancestor? f (d + 1) = some g ∧ around = some s ∧ s.above = some c ∧
      fs.here? g "super" = some (.classRef c)

section Bears

variable {fs fs' : Frames Value} {f f' : FrameId} {n : Nest} {self : Option Self}

theorem Bears.top (fs : Frames Value) (f : FrameId) (self : Option Self) : Bears fs f [] self :=
  ⟨nofun, nofun⟩

theorem Bears.mono (h : Bears fs f n self) (hfs : Fixed fs fs') : Bears fs' f n self where
  this := by
    intro d hd
    obtain ⟨g, s, hg, hs, hv⟩ := h.this hd
    exact ⟨g, s, Frames.ancestor?_of_links hfs.links hg, hs, hfs.reserved _ _ _ (.inl rfl) hv⟩
  super := by
    intro d hthis hd
    obtain ⟨g, s, c, hg, hs, hc, hv⟩ := h.super hthis hd
    exact ⟨g, s, c, Frames.ancestor?_of_links hfs.links hg, hs, hc,
      hfs.reserved _ _ _ (.inr rfl) hv⟩

/-- A frame inside, with no reserved names of its own, bears the same. -/
theorem Bears.enter (h : Bears fs f n self) (hlink : fs.enclosing? f' = some f)
    {names : List String} (hnames : ∀ x ∈ names, ¬ Reserved x) :
    Bears fs f' (names :: n) self := by
  have hthis : "this" ∉ names := fun hx => hnames _ hx (.inl rfl)
  have hsuper : "super" ∉ names := fun hx => hnames _ hx (.inr rfl)
  constructor
  · intro d hd
    rw [Nest.distance?_cons, if_neg hthis] at hd
    obtain ⟨d', hd', rfl⟩ := Option.map_eq_some_iff.1 hd
    rw [Frames.ancestor?_succ hlink]
    exact h.this hd'
  · intro d ht hd
    rw [Nest.distance?_cons, if_neg hthis] at ht
    rw [Nest.distance?_cons, if_neg hsuper] at hd
    obtain ⟨d', ht', rfl⟩ := Option.map_eq_some_iff.1 ht
    obtain ⟨_, hd', heq⟩ := Option.map_eq_some_iff.1 hd
    cases heq
    rw [Frames.ancestor?_succ hlink]
    exact h.super ht' hd'

theorem Bears.declare (h : Bears fs f n self) {x : String} (hx : ¬ Reserved x) :
    Bears fs f (n.declare x) self := by
  have hthis : "this" ≠ x := fun heq => hx (.inl heq.symm)
  have hsuper : "super" ≠ x := fun heq => hx (.inr heq.symm)
  constructor
  · intro d hd
    rw [Nest.distance?_declare_ne _ hthis] at hd
    exact h.this hd
  · intro d ht hd
    rw [Nest.distance?_declare_ne _ hthis] at ht
    rw [Nest.distance?_declare_ne _ hsuper] at hd
    exact h.super ht hd

/-- Around the methods of a class, the nest `n` and the frame `closure` tell what the superclass
clause gave. -/
def Surrounds (fs : Frames Value) (closure : FrameId) (n : Nest) : Option ClassId → Prop
  | none => n.Fresh "super"
  | some c => fs.here? closure "super" = some (.classRef c)

theorem Surrounds.mono {above : Option ClassId} (h : Surrounds fs f n above)
    (hfs : Fixed fs fs') : Surrounds fs' f n above := by
  cases above with
  | none => exact h
  | some c => exact hfs.reserved _ _ _ (.inr rfl) h

/-- The frame of a bound method bears the activation for its instance. -/
theorem Bears.method {above : Option ClassId} (h : Surrounds fs f n above)
    (hlink : fs.enclosing? f' = some f) {receiver : Value}
    (hthis : fs.here? f' "this" = some receiver) :
    Bears fs f' (["this"] :: n) (some ⟨receiver, above⟩) := by
  have hdist : Nest.distance? (["this"] :: n) "this" = some 0 := by
    rw [Nest.distance?_cons, if_pos (List.mem_singleton_self _)]
  constructor
  · intro d hd
    rw [hdist] at hd
    cases hd
    exact ⟨f', _, rfl, rfl, hthis⟩
  · intro d ht hd
    rw [hdist] at ht
    cases ht
    cases above with
    | some c => exact ⟨f, _, c, Frames.ancestor?_succ hlink 0, rfl, rfl, h⟩
    | none =>
      -- the scope around a class without superclass clause declares no `super`
      rw [Nest.distance?_cons, if_neg (by simp)] at hd
      obtain ⟨d, hd, heq⟩ := Option.map_eq_some_iff.1 hd
      cases heq
      cases n with
      | nil => cases hd
      | cons names outer =>
        rw [Nest.distance?_cons, if_neg (h names rfl)] at hd
        obtain ⟨d, -, heq⟩ := Option.map_eq_some_iff.1 hd
        cases heq

end Bears

/-! ## Records -/

/-- A class is as it was declared. -/
structure IsDeclared (fs : Frames Value) (c : Class) (info : Declared) : Prop where
  above : c.superclass = info.above
  methods : ∃ closure n, c.methods = methodTable closure info.methods ∧
    FunctionDecl.AllScoped (["this"] :: n) info.methods ∧ Surrounds fs closure n info.above

/-- A record says what has happened on a machine. -/
structure Faithful (r : Record) (m : Machine) : Prop where
  functions : ∀ {i : Nat} {f : Function}, m.functions[i]? = some f →
    ∃ n, f.decl.Scoped n ∧ Bears m.frames f.closure n (r.functions i)
  classes : ∀ c : Nat, Option.Rel (IsDeclared m.frames) m.classes[c]? (r.classes c)

section Faithful

variable {r : Record} {m m' : Machine}

theorem IsDeclared.mono {fs fs' : Frames Value} {c : Class} {info : Declared}
    (h : IsDeclared fs c info) (hfs : Fixed fs fs') : IsDeclared fs' c info := by
  obtain ⟨closure, n, hm, hs, hsurr⟩ := h.methods
  exact ⟨h.above, closure, n, hm, hs, hsurr.mono hfs⟩

/-- Nothing has been declared or bound since. -/
theorem Faithful.later (h : Faithful r m) (hfs : Fixed m.frames m'.frames)
    (hf : m'.functions = m.functions) (hc : m'.classes = m.classes) : Faithful r m' where
  functions := by
    intro i f hi
    rw [hf] at hi
    obtain ⟨n, hn, hb⟩ := h.functions hi
    exact ⟨n, hn, hb.mono hfs⟩
  classes := by
    intro c
    rw [hc]
    exact Lexical.rel_mono (fun _ _ hd => hd.mono hfs) (h.classes c)

/-- After a function object has been made and taken down. -/
theorem Faithful.addFunction (h : Faithful r m) {f : Function} {n : Nest} {self : Option Self}
    (hn : f.decl.Scoped n) (hb : Bears m.frames f.closure n self) :
    Faithful (r.addFunction m.functions.size self) { m with functions := m.functions.push f } where
  functions := by
    intro i g hi
    rw [Array.getElem?_push] at hi
    split at hi
    · rename_i hlast
      cases hi
      subst hlast
      refine ⟨n, hn, ?_⟩
      simpa only [Record.addFunction, Function.update_self] using hb
    · rename_i hlast
      obtain ⟨n', hn', hb'⟩ := h.functions hi
      refine ⟨n', hn', ?_⟩
      simpa only [Record.addFunction, Function.update_of_ne hlast] using hb'
  classes := h.classes

/-- After a class has been made and taken down. -/
theorem Faithful.addClass (h : Faithful r m) {c : Class} {info : Declared}
    (hc : IsDeclared m.frames c info) :
    Faithful (r.addClass m.classes.size info) { m with classes := m.classes.push c } where
  functions := h.functions
  classes := by
    intro k
    rw [Array.getElem?_push]
    split
    · rename_i hlast
      subst hlast
      simpa only [Record.addClass, Function.update_self] using Option.Rel.some hc
    · rename_i hlast
      simpa only [Record.addClass, Function.update_of_ne hlast] using h.classes k

theorem Record.find?_eq (r : Record) (c : ClassId) (x : String) :
    r.find? c x = (((r.classes c).bind (·.method? x)).map (·, c)).or
      (match r.above? c with
        | some above => if above < c then r.find? above x else none
        | none => none) := by
  rw [Record.find?, Record.walk, List.findSome?_cons]
  cases hc : r.classes c with
  | none => simp [Record.above?, hc]
  | some info =>
    cases hm : info.method? x with
    | some d => simp [hm]
    | none =>
      simp only [Option.bind_some, hm, Option.map_none, Option.none_or]
      cases r.above? c with
      | none => rfl
      | some above =>
        dsimp only
        split
        · rfl
        · rfl

/-- Nothing is found if no class on the way declares the method. -/
theorem Record.find?_eq_none {r : Record} {c : ClassId} {x : String} : r.find? c x = none ↔
    ∀ k ∈ r.walk c, ∀ info, r.classes k = some info → ∀ d ∈ info.methods, d.name.lexeme ≠ x := by
  simp only [Record.find?, List.findSome?_eq_none_iff, Option.bind_eq_none_iff,
    Option.map_eq_none_iff, Declared.method?, List.find?_eq_none, List.mem_reverse, beq_iff_eq]

/-- The superclass clauses lead to older classes, so none cuts the way short. -/
theorem Faithful.walk_eq (h : Faithful r m) (hm : m.Inherits) (c : ClassId) :
    r.walk c = c :: ((r.above? c).map r.walk).getD [] := by
  rw [Record.walk]
  cases habove : r.above? c with
  | none => rfl
  | some above =>
    have hclass := h.classes c
    obtain ⟨info', hinfo', ha⟩ := Option.bind_eq_some_iff.1 habove
    rw [hinfo'] at hclass
    generalize hinfo : m.classes[c]? = info at hclass
    cases hclass with
    | some hdecl =>
      have hlt : above < c := hm c _ above hinfo (hdecl.above.trans ha)
      simp only [if_pos hlt, Option.map_some, Option.getD_some]

/-- The function object `f` is the method of a class for its declaration. -/
structure IsMethod (r : Record) (m : Machine) (f : Function) (found : FunctionDecl × ClassId) :
    Prop where
  own : m.ownMethod? found.2 found.1.name.lexeme = some f
  decl : f.decl = found.1
  init : f.isInitializer = (found.1.name.lexeme == initializerName)
  body : ∃ n, f.decl.Scoped (["this"] :: n) ∧
    Surrounds m.frames f.closure n (r.above? found.2)

/-- The machine finds the method that the record finds. -/
theorem Faithful.findMethod? (h : Faithful r m) (c : ClassId) (x : String) :
    Option.Rel (IsMethod r m) (m.findMethod? c x) (r.find? c x) := by
  induction c using Nat.strongRecOn with
  | ind c ih =>
    rw [Machine.findMethod?, Record.find?_eq]
    have hclass := h.classes c
    generalize hc : r.classes c = info' at hclass
    generalize hinfo : m.classes[c]? = info at hclass ⊢
    cases hclass with
    | none =>
      simp only [Record.above?, hc, Option.bind_none, Option.map_none, Option.or_none]
      exact .none
    | @some info info' hdecl =>
      obtain ⟨closure, n, hmethods, hscoped, hsurr⟩ := hdecl.methods
      have habove : r.above? c = info'.above := by rw [Record.above?, hc]; rfl
      dsimp only
      rw [hmethods, methodTable_get?, Option.bind_some, Declared.method?]
      cases hd : info'.methods.reverse.find? fun d => d.name.lexeme == x with
      | some d =>
        have hmem : d ∈ info'.methods := List.mem_reverse.1 (List.mem_of_find?_eq_some hd)
        have hname : d.name.lexeme = x := by simpa using List.find?_some hd
        refine .some ⟨?_, rfl, rfl, n, FunctionDecl.allScoped_iff.1 hscoped d hmem, habove ▸ hsurr⟩
        rw [Machine.ownMethod?, hinfo, Option.bind_some, hmethods, methodTable_get?, hname, hd]
        rfl
      | none =>
        simp only [Option.map_none, Option.none_or, habove, hdecl.above]
        cases info'.above with
        | none => exact .none
        | some above =>
          dsimp only
          by_cases hlt : above < c
          · rw [if_pos hlt, if_pos hlt]
            exact ih above hlt
          · rw [if_neg hlt, if_neg hlt]
            exact .none

end Faithful

end Lox.Dispatch
