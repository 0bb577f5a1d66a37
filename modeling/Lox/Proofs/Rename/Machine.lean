import Lox.Proofs.Lexical.Twin
import Lox.Proofs.Rename.Renamed
import Lox.Proofs.Run.Sound

/-!
# Machines that run renamed programs

Two machines are `Alike` when one is in the state of the other, except that in some frames, the
marked ones, the two names of a renaming have changed places, and that functions have renamed
declarations. Which frames are marked is not in the machine: each function body is renamed for the
marks of the frames around its closure. Values are the same in both.
-/

set_option autoImplicit false

namespace Lox

variable {r : Renaming} {marks : Marks}

/-! ## Frames -/

/-- Which frames are marked. -/
abbrev FrameMarks := FrameId → Bool

namespace Frames

variable {α : Type} {F F' : FrameMarks} {fs fs' : Frames α} {f g : FrameId}

/-- The same frames, where in marked ones names have changed places. -/
structure Alike (r : Renaming) (F : FrameMarks) (fs fs' : Frames α) : Prop where
  next : fs'.next = fs.next
  links : ∀ f, fs'.enclosing? f = fs.enclosing? f
  here : ∀ f x, fs'.here? f (r.called (F f) x) = fs.here? f x

theorem Alike.ancestor? (h : fs.Alike r F fs') (d : Nat) (f : FrameId) :
    fs'.ancestor? f d = fs.ancestor? f d := by
  induction d generalizing f with
  | zero => rfl
  | succ d ih =>
    rw [Frames.ancestor?, Frames.ancestor?, h.links]
    simp only [ih]

theorem Alike.define (h : fs.Alike r F fs') (f : FrameId) (x : String) (v : α) :
    (fs.define f x v).Alike r F (fs'.define f (r.called (F f) x) v) where
  next := by rw [next_define, next_define, h.next]
  links := by
    intro g
    rw [enclosing?_define, enclosing?_define, h.links]
  here := by
    intro g y
    rw [here?_define, here?_define, h.next, h.here]
    by_cases hg : g = f
    · subst hg
      simp only [Renaming.called_inj]
    · simp only [hg, false_and]

theorem Alike.defineAll (f : FrameId) : ∀ (bindings : List (String × α)) {fs fs' : Frames α},
    fs.Alike r F fs' →
      Alike r F (bindings.foldl (fun fs b => fs.define f b.1 b.2) fs)
        ((bindings.map fun b => (r.called (F f) b.1, b.2)).foldl
          (fun fs b => fs.define f b.1 b.2) fs')
  | [], _, _, h => h
  | b :: bindings, _, _, h => (h.define f b.1 b.2).defineAll f bindings

/-- Only the marks of frames that exist count. -/
theorem Alike.congr (h : fs.Alike r F fs') (hF : ∀ f < fs.next, F' f = F f) :
    fs.Alike r F' fs' := by
  refine ⟨h.next, h.links, fun f x => ?_⟩
  by_cases hf : f < fs.next
  · rw [hF f hf, h.here]
  · have hnone : ∀ y, fs.here? f y = none := by
      intro y
      by_contra hy
      obtain ⟨v, hv⟩ := Option.ne_none_iff_exists'.1 hy
      exact hf (lt_of_here? hv)
    have hhere := h.here f (r.called (F f) (r.called (F' f) x))
    rw [Renaming.called_called] at hhere
    rw [hhere, hnone, hnone]

theorem Alike.push (h : fs.Alike r F fs') (enclosing : Option FrameId) :
    (fs.push enclosing).Alike r F (fs'.push enclosing) where
  next := by rw [next_push, next_push, h.next]
  links := by
    intro f
    rw [enclosing?_push, enclosing?_push, h.next, h.links]
  here := by
    intro f x
    rw [here?_push, here?_push, h.here]

/-! ### Marks around a frame -/

/-- The frames from a frame outwards are marked like the scopes around a place. -/
def Marked (fs : Frames α) (F : FrameMarks) (f : FrameId) (marks : Marks) : Prop :=
  ∀ d g, fs.ancestor? f d = some g → F g = marks.mark d

theorem Marked.cons (h : fs.Marked F g marks) (hlink : fs.enclosing? f = some g) {b : Bool}
    (hb : F f = b) : fs.Marked F f (b :: marks) := by
  intro d f' hd
  cases d with
  | zero =>
    cases hd
    exact hb
  | succ d =>
    rw [ancestor?_succ hlink] at hd
    exact h d f' hd

theorem Marked.clear (hF : ∀ g, F g = false) (f : FrameId) : fs.Marked F f [] :=
  fun _ g _ => hF g

/-- Frames made later do not change what is around a frame. -/
theorem ancestor?_of_lt {fs₁ : Frames α} (hdescends : fs.Descends)
    (hlinks : ∀ f < fs.next, fs₁.enclosing? f = fs.enclosing? f) :
    ∀ (d : Nat) {f g : FrameId}, f < fs.next → fs₁.ancestor? f d = some g →
      fs.ancestor? f d = some g ∧ g < fs.next
  | 0, _, _, hf, hg => by
    cases hg
    exact ⟨rfl, hf⟩
  | d + 1, f, g, hf, hg => by
    rw [ancestor?, hlinks f hf, Option.bind_eq_some_iff] at hg
    obtain ⟨outer, houter, hg⟩ := hg
    rw [ancestor?_succ houter]
    exact ancestor?_of_lt hdescends hlinks d (Nat.lt_trans (hdescends f outer houter) hf) hg

theorem Marked.later {fs₁ : Frames α} (h : fs.Marked F f marks) (hdescends : fs.Descends)
    (hf : f < fs.next) (hlinks : ∀ f < fs.next, fs₁.enclosing? f = fs.enclosing? f)
    (hF : ∀ f < fs.next, F' f = F f) : fs₁.Marked F' f marks := by
  intro d g hg
  obtain ⟨hg, hlt⟩ := ancestor?_of_lt hdescends hlinks d hf hg
  rw [hF g hlt]
  exact h d g hg

end Frames

/-! ## Machines -/

section

variable {F F' : FrameMarks} {m m' m₁ m₁' : Machine}

/-- The same function with a renamed declaration. Between its closure and its own scope there are
scopes with the marks `inner`. -/
structure Function.Alike (r : Renaming) (F : FrameMarks) (fs : Frames Value) (inner : Marks)
    (f f' : Function) : Prop where
  closure : f'.closure = f.closure
  isInitializer : f'.isInitializer = f.isInitializer
  decl : ∃ marks, fs.Marked F f.closure marks ∧ f.decl.Renamed r (inner ++ marks) f'.decl

/-- The same class, whose methods have renamed declarations. A bound method is closed over one frame
more. -/
structure Class.Alike (r : Renaming) (F : FrameMarks) (fs : Frames Value) (c c' : Class) :
    Prop where
  name : c'.name = c.name
  superclass : c'.superclass = c.superclass
  methods : Lexical.Paired (Function.Alike r F fs [false]) c.methods c'.methods

theorem Function.Alike.self (r : Renaming) (fs : Frames Value) {inner : Marks} (h : inner.Clear)
    (f : Function) : Function.Alike r (fun _ => false) fs inner f f := by
  refine ⟨rfl, rfl, [], Frames.Marked.clear (fun _ => rfl) _, ?_⟩
  rw [List.append_nil]
  exact FunctionDecl.renamed_self f.decl h

theorem Class.Alike.self (r : Renaming) (fs : Frames Value) (c : Class) :
    Class.Alike r (fun _ => false) fs c c := by
  refine ⟨rfl, rfl, fun x => ?_⟩
  cases c.methods.get? x with
  | none => exact .none
  | some f => exact .some (.self r fs Marks.Clear.nil.cons f)

namespace Machine

/-- The machines that run a program and the renamed one. -/
structure Alike (r : Renaming) (F : FrameMarks) (m m' : Machine) : Prop where
  frames : m.frames.Alike r F m'.frames
  top : F globalFrame = false
  current : m'.current = m.current
  functions : Lexical.Shifted (Function.Alike r F m.frames []) 0 m.functions m'.functions
  classes : Lexical.Shifted (Class.Alike r F m.frames) 0 m.classes m'.classes
  instances : m'.instances = m.instances
  output : m'.output = m.output
  clock : m'.clock = m.clock

/-- A later state of a machine, and the marks of the frames in it. -/
structure Later (F : FrameMarks) (m : Machine) (F' : FrameMarks) (m' : Machine) : Prop where
  sound : m.Sound
  keeps : ∃ names, m.Keeps names m'
  marks : ∀ f < m.frames.next, F' f = F f

namespace Later

theorem holds (h : Later F m F' m₁) : m.Holds m₁ :=
  h.keeps.elim fun _ hk => hk.toHolds

theorem current (h : Later F m F' m₁) : m₁.current = m.current :=
  h.keeps.elim fun _ hk => hk.current

theorem still (h : Later F m F' m₁) {f : FrameId} {x : String}
    (hx : (m.frames.here? f x).isSome) : (m₁.frames.here? f x).isSome :=
  h.keeps.elim fun _ hk => hk.still hx

theorem marked (h : Later F m F' m₁) {f : FrameId} (hf : f < m.frames.next)
    (hm : m.frames.Marked F f marks) : m₁.frames.Marked F' f marks := by
  obtain ⟨names, hk⟩ := h.keeps
  exact hm.later h.sound.links hf (fun _ => hk.links) h.marks

theorem forFunction (h : Later F m F' m₁) {inner : Marks} {f f' : Function} (hmade : f.Made m)
    (hf : Function.Alike r F m.frames inner f f') :
    Function.Alike r F' m₁.frames inner f f' := by
  obtain ⟨marks, hmarked, hdecl⟩ := hf.decl
  exact ⟨hf.closure, hf.isInitializer, marks, h.marked hmade hmarked, hdecl⟩

theorem forClass (h : Later F m F' m₁) {c c' : Class}
    (hmade : ∀ x f, c.methods.get? x = some f → f.Made m) (hc : Class.Alike r F m.frames c c') :
    Class.Alike r F' m₁.frames c c' := by
  refine ⟨hc.name, hc.superclass, fun x => ?_⟩
  have hx := hc.methods x
  have hmade := hmade x
  generalize c.methods.get? x = f at hx hmade ⊢
  generalize c'.methods.get? x = f' at hx ⊢
  cases hx with
  | none => exact .none
  | some hf => exact .some (h.forFunction (hmade _ rfl) hf)

end Later

/-- Where no frame is marked a machine is like itself. -/
theorem Alike.self (r : Renaming) (m : Machine) : m.Alike r (fun _ => false) m where
  frames := ⟨rfl, fun _ => rfl, fun _ _ => rfl⟩
  top := rfl
  current := rfl
  functions := .self fun f => .self r m.frames .nil f
  classes := .self fun c => .self r m.frames c
  instances := rfl
  output := rfl
  clock := rfl

/-- Other frames, with everything that refers to them as before. -/
theorem Alike.withFrames (h : m.Alike r F m') {fs fs' : Frames Value}
    (hlater : Later F m F' { m with frames := fs }) (hfs : fs.Alike r F' fs') :
    Machine.Alike r F' { m with frames := fs } { m' with frames := fs' } where
  frames := hfs
  top := by
    have hroot : globalFrame < m.frames.next := Nat.zero_lt_of_lt hlater.sound.current
    rw [hlater.marks _ hroot, h.top]
  current := h.current
  functions := h.functions.mono fun hi hf => hlater.forFunction (hlater.sound.functions hi) hf
  classes := h.classes.mono fun hi hc =>
    hlater.forClass (fun _ _ hm => hlater.sound.methods hi hm) hc
  instances := h.instances
  output := h.output
  clock := h.clock

end Machine
end

end Lox
