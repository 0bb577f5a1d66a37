import Lox.Proofs.Lexical.Eval
import Lox.Proofs.Run.Frames
import Lox.Proofs.Scope.Nest

/-!
# When a machine agrees with a lexical world

A location of the world stands for a cell of the machine: a name in a frame. `Agree cells m w` says
that, with `cells` from locations to cells, the machine and the world hold the same values, the same
globals, and functions and classes with the same bodies. A function's frame and its map of names
need not hold the same names, since frames go on growing after a closure is made. What is asked is
`Places`: at the distance that the nest of the function's declaration gives for a name, the chain of
frames reaches the cell of the name's location.

`Reached` is what any part of a run keeps: the machine and the world agree again, cells stay, and
only the frame `own`, if any, and new frames get new names.
-/

set_option autoImplicit false

namespace Lox.Lexical

/-- A name in a frame. -/
abbrev Cell := FrameId × String

/-! ## Tables -/

section Pointwise

variable {α β : Type} {R : α → β → Prop}

/-- Tables of the same size with related entries. -/
def Pointwise (R : α → β → Prop) (xs : Array α) (ys : Array β) : Prop :=
  ∀ i : Nat, Option.Rel R xs[i]? ys[i]?

theorem Pointwise.size_eq {xs : Array α} {ys : Array β} (h : Pointwise R xs ys) :
    xs.size = ys.size := by
  apply Nat.le_antisymm
  · refine Nat.le_of_not_lt fun hlt => ?_
    have hrel := h ys.size
    rw [Array.getElem?_eq_getElem (by omega), Array.getElem?_eq_none (Nat.le_refl _)] at hrel
    cases hrel
  · refine Nat.le_of_not_lt fun hlt => ?_
    have hrel := h xs.size
    rw [Array.getElem?_eq_none (Nat.le_refl _), Array.getElem?_eq_getElem (by omega)] at hrel
    cases hrel

theorem Pointwise.push {xs : Array α} {ys : Array β} (h : Pointwise R xs ys) {x : α} {y : β}
    (hxy : R x y) : Pointwise R (xs.push x) (ys.push y) := by
  intro i
  rw [Array.getElem?_push, Array.getElem?_push, h.size_eq]
  split
  · exact .some hxy
  · exact h i

theorem rel_mono {R' : α → β → Prop} (hR : ∀ x y, R x y → R' x y) {x : Option α} {y : Option β}
    (h : Option.Rel R x y) : Option.Rel R' x y := by
  cases h with
  | none => exact .none
  | some h => exact .some (hR _ _ h)

theorem Pointwise.mono {R' : α → β → Prop} (hR : ∀ x y, R x y → R' x y) {xs : Array α}
    {ys : Array β} (h : Pointwise R xs ys) : Pointwise R' xs ys :=
  fun i => rel_mono hR (h i)

end Pointwise

/-! ## Names -/

/-- Seen from the frame `f`, the distances of the nest lead to the cells of the visible names. -/
structure Places (cells : Array Cell) (fs : Frames Value) (n : Nest) (visible : Names)
    (f : FrameId) : Prop where
  reach : ∀ {x d}, n.distance? x = some d → ∃ g l, fs.ancestor? f d = some g ∧
    visible.get? x = some l ∧ cells[l]? = some (g, x)
  absent : ∀ {x}, n.distance? x = none → visible.get? x = none

/-- A run only adds cells, frames, links and names, and names only in new frames and in `own`. -/
structure Grows (own : Option FrameId) (cells : Array Cell) (fs : Frames Value)
    (cells' : Array Cell) (fs' : Frames Value) : Prop where
  cells : ∀ (l : Nat) (c : Cell), cells[l]? = some c → cells'[l]? = some c
  links : ∀ f g, fs.enclosing? f = some g → fs'.enclosing? f = some g
  next : fs.next ≤ fs'.next
  keeps : ∀ g x, (fs.here? g x).isSome → (fs'.here? g x).isSome
  names : ∀ g x, g < fs.next → (fs'.here? g x).isSome → (fs.here? g x).isSome ∨ own = some g

theorem Grows.refl (own : Option FrameId) (cells : Array Cell) (fs : Frames Value) :
    Grows own cells fs cells fs where
  cells := fun _ _ h => h
  links := fun _ _ h => h
  next := Nat.le_refl _
  keeps := fun _ _ h => h
  names := fun _ _ _ h => .inl h

theorem Grows.trans {own : Option FrameId} {cells cells' cells'' : Array Cell}
    {fs fs' fs'' : Frames Value} (h : Grows own cells fs cells' fs')
    (h' : Grows own cells' fs' cells'' fs'') : Grows own cells fs cells'' fs'' where
  cells := fun l c hl => h'.cells l c (h.cells l c hl)
  links := fun f g hf => h'.links f g (h.links f g hf)
  next := Nat.le_trans h.next h'.next
  keeps := fun g x hx => h'.keeps g x (h.keeps g x hx)
  names := by
    intro g x hg hx
    rcases h'.names g x (Nat.lt_of_lt_of_le hg h.next) hx with hx | hown
    · exact h.names g x hg hx
    · exact .inr hown

/-- A run that adds names to a new frame adds none to the frames that were there before. -/
theorem Grows.forget {own : Option FrameId} {f : FrameId} {cells cells' : Array Cell}
    {fs fs' : Frames Value} (h : Grows (some f) cells fs cells' fs') (hf : fs.next ≤ f) :
    Grows own cells fs cells' fs' where
  cells := h.cells
  links := h.links
  next := h.next
  keeps := h.keeps
  names := by
    intro g x hg hx
    refine (h.names g x hg hx).imp_right fun hown => ?_
    cases hown
    exact absurd hg (Nat.not_lt.2 hf)

theorem Grows.weaken {own : Option FrameId} {cells cells' : Array Cell} {fs fs' : Frames Value}
    (h : Grows none cells fs cells' fs') : Grows own cells fs cells' fs' where
  cells := h.cells
  links := h.links
  next := h.next
  keeps := h.keeps
  names := fun g x hg hx => (h.names g x hg hx).imp_right nofun

theorem Places.mono {own : Option FrameId} {cells cells' : Array Cell} {fs fs' : Frames Value}
    {n : Nest} {visible : Names} {f : FrameId} (h : Places cells fs n visible f)
    (hg : Grows own cells fs cells' fs') : Places cells' fs' n visible f where
  reach := by
    intro x d hd
    obtain ⟨g, l, hf, hl, hc⟩ := h.reach hd
    exact ⟨g, l, Frames.ancestor?_of_links hg.links hf, hl, hg.cells l _ hc⟩
  absent := h.absent

theorem Places.top (cells : Array Cell) (fs : Frames Value) (f : FrameId) :
    Places cells fs [] .empty f where
  reach := nofun
  absent := fun _ => rfl

/-- Places seen from a frame inside another one, whose own names have cells in it. -/
theorem Places.enter {cells : Array Cell} {fs : Frames Value} {n : Nest} {visible inner : Names}
    {names : List String} {f f' : FrameId} (h : Places cells fs n visible f)
    (hlink : fs.enclosing? f' = some f)
    (hown : ∀ x ∈ names, ∃ l, inner.get? x = some l ∧ cells[l]? = some (f', x))
    (hrest : ∀ x, x ∉ names → inner.get? x = visible.get? x) :
    Places cells fs (names :: n) inner f' where
  reach := by
    intro x d hd
    rw [Nest.distance?_cons] at hd
    split at hd
    · rename_i hx
      cases hd
      obtain ⟨l, hl, hc⟩ := hown x hx
      exact ⟨f', l, rfl, hl, hc⟩
    · rename_i hx
      obtain ⟨d', hd', rfl⟩ := Option.map_eq_some_iff.1 hd
      obtain ⟨g, l, hf, hl, hc⟩ := h.reach hd'
      exact ⟨g, l, (Frames.ancestor?_succ hlink d').trans hf, (hrest x hx).trans hl, hc⟩
  absent := by
    intro x hd
    rw [Nest.distance?_cons] at hd
    split at hd
    · cases hd
    · rename_i hx
      rw [hrest x hx]
      exact h.absent (Option.map_eq_none_iff.1 hd)

/-- Places after a declaration in the frame itself. -/
theorem Places.declare {cells : Array Cell} {fs : Frames Value} {n : Nest} {visible : Names}
    {f : FrameId} {name : String} {l : Location} (h : Places cells fs n visible f) (hn : n ≠ [])
    (hl : cells[l]? = some (f, name)) :
    Places cells fs (n.declare name) (visible.insert name l) f where
  reach := by
    intro x d hd
    rw [Nest.distance?_declare _ _ _ hn] at hd
    rw [Bindings.get?_insert]
    split at hd
    · rename_i hx
      subst hx
      cases hd
      exact ⟨f, l, rfl, if_pos rfl, hl⟩
    · rename_i hx
      rw [if_neg hx]
      exact h.reach hd
  absent := by
    intro x hd
    rw [Nest.distance?_declare _ _ _ hn] at hd
    rw [Bindings.get?_insert]
    split at hd
    · cases hd
    · rename_i hx
      rw [if_neg hx]
      exact h.absent hd

/-! ## Objects -/

/-- A function of the machine and of the world with one body, scoped in a nest. -/
structure SameFunction (cells : Array Cell) (fs : Frames Value) (n : Nest) (f : Function)
    (g : Closure) : Prop where
  decl : f.decl = g.decl
  init : f.isInitializer = g.isInitializer
  body : f.decl.Scoped n
  places : Places cells fs n g.visible f.closure

/-- A function object: only methods are initializers. -/
def SameObject (cells : Array Cell) (fs : Frames Value) (f : Function) (g : Closure) : Prop :=
  ∃ n, SameFunction cells fs n f g ∧ (f.isInitializer = true → n.distance? "this" = some 0)

/-- A method in a class, which needs one more frame, for `this`. -/
structure SameMethod (cells : Array Cell) (fs : Frames Value) (f : Function) (g : Closure) :
    Prop where
  decl : f.decl = g.decl
  init : f.isInitializer = g.isInitializer
  body : ∃ n, f.decl.Scoped (["this"] :: n) ∧ Places cells fs n g.visible f.closure

/-- A class of the machine and of the world with the same methods. -/
structure SameClass (cells : Array Cell) (fs : Frames Value) (c : Lox.Class) (d : Class) :
    Prop where
  name : c.name = d.name
  superclass : c.superclass = d.superclass
  methods : ∀ x, Option.Rel (SameMethod cells fs) (c.methods.get? x) (d.methods.get? x)

section Mono

variable {own : Option FrameId} {cells cells' : Array Cell} {fs fs' : Frames Value}

theorem SameFunction.mono {n : Nest} {f : Function} {g : Closure}
    (h : SameFunction cells fs n f g) (hg : Grows own cells fs cells' fs') :
    SameFunction cells' fs' n f g :=
  { h with places := h.places.mono hg }

theorem SameObject.mono {f : Function} {g : Closure} (h : SameObject cells fs f g)
    (hg : Grows own cells fs cells' fs') : SameObject cells' fs' f g :=
  h.imp fun _ h => ⟨h.1.mono hg, h.2⟩

theorem SameMethod.mono {f : Function} {g : Closure} (h : SameMethod cells fs f g)
    (hg : Grows own cells fs cells' fs') : SameMethod cells' fs' f g :=
  { h with body := h.body.imp fun _ h => ⟨h.1, h.2.mono hg⟩ }

theorem SameClass.mono {c : Lox.Class} {d : Class} (h : SameClass cells fs c d)
    (hg : Grows own cells fs cells' fs') : SameClass cells' fs' c d :=
  { h with methods := fun x => rel_mono (fun _ _ h => h.mono hg) (h.methods x) }

end Mono

/-! ## States -/

/-- The machine and the world hold the same, with cells for locations. -/
structure Agree (cells : Array Cell) (m : Machine) (w : World) : Prop where
  globals : m.frames.bindings? Machine.globalFrame = some w.globals
  root : m.frames.enclosing? Machine.globalFrame = none
  size : w.store.size = cells.size
  isLocal : ∀ {l : Nat} {g : FrameId} {x : String}, cells[l]? = some (g, x) →
    g ≠ Machine.globalFrame
  value : ∀ {l : Nat} {g : FrameId} {x : String}, cells[l]? = some (g, x) →
    m.frames.here? g x = w.store[l]?
  injective : ∀ {l l' : Nat} {c : Cell}, cells[l]? = some c → cells[l']? = some c → l = l'
  super : ∀ {l : Nat} {g : FrameId}, cells[l]? = some (g, "super") →
    ∃ c, w.store[l]? = some (.classRef c)
  functions : Pointwise (SameObject cells m.frames) m.functions w.functions
  classes : Pointwise (SameClass cells m.frames) m.classes w.classes
  instances : m.instances = w.instances
  output : m.output = w.output
  clock : m.clock = w.clock

/-- A place of the program: its names are where the nest says, and the current frame binds no names
but those that the innermost scope declares. -/
structure At (cells : Array Cell) (m : Machine) (n : Nest) (visible : Names) : Prop where
  places : Places cells m.frames n visible m.current
  names : ∀ x, (m.frames.here? m.current x).isSome → ∀ names ∈ n.head?, x ∈ names
  top : n = [] ↔ m.current = Machine.globalFrame
  current : m.current < m.frames.next

/-- States that agree, at a place of the program. -/
structure Here (cells : Array Cell) (m : Machine) (w : World) (n : Nest) (visible : Names) : Prop
    extends At cells m n visible where
  agree : Agree cells m w

/-- What a part of a run keeps. -/
structure Reached (own : Option FrameId) (cells : Array Cell) (m : Machine) (cells' : Array Cell)
    (m' : Machine) (w' : World) : Prop where
  agree : Agree cells' m' w'
  grows : Grows own cells m.frames cells' m'.frames
  current : m'.current = m.current

theorem Reached.refl {own : Option FrameId} {cells : Array Cell} {m : Machine} {w : World}
    (h : Agree cells m w) : Reached own cells m cells m w :=
  ⟨h, .refl .., rfl⟩

theorem Reached.trans {own : Option FrameId} {cells cells' cells'' : Array Cell}
    {m m' m'' : Machine} {w' w'' : World} (h : Reached own cells m cells' m' w')
    (h' : Reached own cells' m' cells'' m'' w'') : Reached own cells m cells'' m'' w'' :=
  ⟨h'.agree, h.grows.trans h'.grows, h'.current.trans h.current⟩

theorem Reached.weaken {own : Option FrameId} {cells cells' : Array Cell} {m m' : Machine}
    {w' : World} (h : Reached none cells m cells' m' w') : Reached own cells m cells' m' w' :=
  ⟨h.agree, h.grows.weaken, h.current⟩

/-- A part of a run that adds no names to the current frame leads to the same place. -/
theorem Here.later {cells cells' : Array Cell} {m m' : Machine} {w w' : World} {n : Nest}
    {visible : Names} (h : Here cells m w n visible) (hr : Reached none cells m cells' m' w') :
    Here cells' m' w' n visible := by
  refine ⟨⟨?_, fun x hx => ?_, ?_, ?_⟩, hr.agree⟩
  · rw [hr.current]
    exact h.places.mono hr.grows
  · rw [hr.current] at hx
    rcases hr.grows.names m.current x h.current hx with hx | hown
    · exact h.names x hx
    · cases hown
  · rw [hr.current]
    exact h.top
  · rw [hr.current]
    exact Nat.lt_of_lt_of_le h.current hr.grows.next

end Lox.Lexical
