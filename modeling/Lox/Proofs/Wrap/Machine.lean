import Lox.Proofs.Rename.Machine
import Lox.Proofs.Run.Owner
import Lox.Proofs.Run.Tables
import Lox.Proofs.Wrap.Moved

/-!
# Machines with added frames

A machine is embedded in another one when the other has the same objects, and its own frames under
other numbers, with frames added between them. A map of frames says where each frame is found. It
does not have to keep the order of the frames: what counts is that a frame binds the same in both
machines, that no two frames are found in one place (`Frames.Embeds`), and that the frames outwards
from a closure, or from the current frame, are found outwards from the one in its place, where the
marks of the place say (`Frames.Along`).
-/

set_option autoImplicit false

namespace Lox

variable {marks : Marks}

/-! ## Frames -/

/-- Where the frames of one machine are found in another one. -/
abbrev FrameMap := FrameId → FrameId

namespace Frames

variable {α : Type} {φ φ₁ φ₂ : FrameMap} {fs fs' fs₁ fs₁' fs₂ fs₂' : Frames α}
  {f f' g g' : FrameId}

/-! ### As time goes on -/

/-- The frames at a later time. No link is lost, and no name is unbound. -/
structure Later (fs fs₁ : Frames α) : Prop where
  next : fs.next ≤ fs₁.next
  links : ∀ f < fs.next, fs₁.enclosing? f = fs.enclosing? f
  still : ∀ {f : FrameId} {x : String}, (fs.here? f x).isSome → (fs₁.here? f x).isSome

namespace Later

theorem refl (fs : Frames α) : fs.Later fs :=
  ⟨Nat.le_refl _, fun _ _ => rfl, fun h => h⟩

theorem trans (h : fs.Later fs₁) (h₁ : fs₁.Later fs₂) : fs.Later fs₂ where
  next := Nat.le_trans h.next h₁.next
  links := fun f hf => (h₁.links f (Nat.lt_of_lt_of_le hf h.next)).trans (h.links f hf)
  still := fun hx => h₁.still (h.still hx)

theorem define (fs : Frames α) (f : FrameId) (x : String) (v : α) : fs.Later (fs.define f x v) where
  next := Nat.le_of_eq (next_define ..).symm
  links := fun _ _ => enclosing?_define ..
  still := isSome_here?_define fs f x v

theorem push (fs : Frames α) (enclosing : Option FrameId) : fs.Later (fs.push enclosing) where
  next := by
    rw [next_push]
    exact Nat.le_succ _
  links := by
    intro f hf
    rw [enclosing?_push, if_neg (Nat.ne_of_lt hf)]
  still := by
    intro f x hx
    rwa [here?_push]

theorem defineAll (f : FrameId) : ∀ (bindings : List (String × α)) (fs : Frames α),
    fs.Later (bindings.foldl (fun fs b => fs.define f b.1 b.2) fs)
  | [], fs => .refl fs
  | b :: bindings, fs => (define fs f b.1 b.2).trans (defineAll f bindings _)

/-- What is around a frame stays around it. -/
theorem ancestor? (h : fs.Later fs₁) (hdescends : fs.Descends) : ∀ (d : Nat) {f : FrameId},
    f < fs.next → fs₁.ancestor? f d = fs.ancestor? f d
  | 0, _, _ => rfl
  | d + 1, f, hf => by
    rw [Frames.ancestor?, Frames.ancestor?, h.links f hf]
    cases hlink : fs.enclosing? f with
    | none => rfl
    | some outer =>
      exact h.ancestor? hdescends d (Nat.lt_trans (hdescends f outer hlink) hf)

end Later

/-- What is around a frame that has been made has been made. -/
theorem Descends.ancestor?_lt (h : fs.Descends) {d : Nat} (hf : f < fs.next)
    (hg : fs.ancestor? f d = some g) : g < fs.next :=
  (ancestor?_of_lt h (fun _ _ => rfl) d hf hg).2

/-! ### Embeddings -/

/-- The frames of `fs` are found in `fs'`, each in a place of its own, with what they bind. -/
structure Embeds (φ : FrameMap) (fs fs' : Frames α) : Prop where
  descends : fs.Descends
  descends' : fs'.Descends
  nonempty : Machine.globalFrame < fs.next
  root : φ Machine.globalFrame = Machine.globalFrame
  inside : ∀ f < fs.next, φ f < fs'.next
  injective : ∀ f < fs.next, ∀ g < fs.next, φ f = φ g → f = g
  here : ∀ f < fs.next, ∀ x, fs'.here? (φ f) x = fs.here? f x

/-- Both machines at a later time: each frame is found where it was. -/
structure Advances (φ : FrameMap) (fs fs' : Frames α) (φ₁ : FrameMap) (fs₁ fs₁' : Frames α) :
    Prop where
  left : fs.Later fs₁
  right : fs'.Later fs₁'
  map : ∀ f < fs.next, φ₁ f = φ f

theorem Advances.refl (φ : FrameMap) (fs fs' : Frames α) : Advances φ fs fs' φ fs fs' :=
  ⟨.refl fs, .refl fs', fun _ _ => rfl⟩

theorem Advances.trans (h : Advances φ fs fs' φ₁ fs₁ fs₁') (h₁ : Advances φ₁ fs₁ fs₁' φ₂ fs₂ fs₂') :
    Advances φ fs fs' φ₂ fs₂ fs₂' where
  left := h.left.trans h₁.left
  right := h.right.trans h₁.right
  map := fun f hf => (h₁.map f (Nat.lt_of_lt_of_le hf h.left.next)).trans (h.map f hf)

theorem Advances.define (φ : FrameMap) (fs fs' : Frames α) (f f' : FrameId) (x : String) (v : α) :
    fs.Advances φ fs' φ (fs.define f x v) (fs'.define f' x v) :=
  ⟨.define .., .define .., fun _ _ => rfl⟩

/-- Nothing is around the frame of the globals. -/
theorem Descends.root (h : fs.Descends) : fs.enclosing? Machine.globalFrame = none := by
  cases hroot : fs.enclosing? Machine.globalFrame with
  | none => rfl
  | some outer => exact absurd (h _ _ hroot) (Nat.not_lt_zero _)

namespace Embeds

theorem here?_root (h : fs.Embeds φ fs') (x : String) :
    fs'.here? Machine.globalFrame x = fs.here? Machine.globalFrame x := by
  rw [← h.here _ h.nonempty, h.root]

theorem define (h : fs.Embeds φ fs') (hf : f < fs.next) (x : String) (v : α) :
    (fs.define f x v).Embeds φ (fs'.define (φ f) x v) where
  descends := h.descends.define f x v
  descends' := h.descends'.define (φ f) x v
  nonempty := by
    rw [next_define]
    exact h.nonempty
  root := h.root
  inside := by
    simp only [next_define]
    exact h.inside
  injective := by
    simp only [next_define]
    exact h.injective
  here := by
    intro g hg y
    rw [next_define] at hg
    have hsame : φ g = φ f ↔ g = f := ⟨h.injective g hg f hf, congrArg φ⟩
    rw [here?_define, here?_define, h.here g hg]
    simp only [hsame, hf, h.inside f hf]

theorem defineAll : ∀ (bindings : List (String × α)) {fs fs' : Frames α}, fs.Embeds φ fs' →
    f < fs.next → Embeds φ (bindings.foldl (fun fs b => fs.define f b.1 b.2) fs)
      (bindings.foldl (fun fs b => fs.define (φ f) b.1 b.2) fs')
  | [], _, _, h, _ => h
  | b :: bindings, _, _, h, hf =>
    (h.define hf b.1 b.2).defineAll bindings (by rwa [next_define])

/-- A frame is made in both. -/
theorem push (h : fs.Embeds φ fs') (hg : g < fs.next) (hg' : g' < fs'.next) :
    (fs.push (some g)).Embeds (Function.update φ fs.next fs'.next) (fs'.push (some g')) where
  descends := by
    refine h.descends.push ?_
    rintro _ ⟨⟩
    exact hg
  descends' := by
    refine h.descends'.push ?_
    rintro _ ⟨⟩
    exact hg'
  nonempty := by
    rw [next_push]
    exact Nat.lt_succ_of_lt h.nonempty
  root := by
    rw [Function.update_of_ne (Nat.ne_of_lt h.nonempty), h.root]
  inside := by
    intro f hf
    rw [next_push] at hf ⊢
    rcases Nat.lt_succ_iff_lt_or_eq.1 hf with hf | rfl
    · rw [Function.update_of_ne (Nat.ne_of_lt hf)]
      exact Nat.lt_succ_of_lt (h.inside f hf)
    · rw [Function.update_self]
      exact Nat.lt_succ_self _
  injective := by
    intro f hf g hg heq
    rw [next_push] at hf hg
    rcases Nat.lt_succ_iff_lt_or_eq.1 hf with hf | rfl
    · rw [Function.update_of_ne (Nat.ne_of_lt hf)] at heq
      rcases Nat.lt_succ_iff_lt_or_eq.1 hg with hg | rfl
      · rw [Function.update_of_ne (Nat.ne_of_lt hg)] at heq
        exact h.injective f hf g hg heq
      · rw [Function.update_self] at heq
        exact absurd heq (Nat.ne_of_lt (h.inside f hf))
    · rw [Function.update_self] at heq
      rcases Nat.lt_succ_iff_lt_or_eq.1 hg with hg | rfl
      · rw [Function.update_of_ne (Nat.ne_of_lt hg)] at heq
        exact absurd heq.symm (Nat.ne_of_lt (h.inside g hg))
      · rfl
  here := by
    intro f hf x
    rw [next_push] at hf
    rw [here?_push, here?_push]
    rcases Nat.lt_succ_iff_lt_or_eq.1 hf with hf | rfl
    · rw [Function.update_of_ne (Nat.ne_of_lt hf), h.here f hf]
    · rw [Function.update_self, here?_next, here?_next]

/-- A frame is added. -/
theorem pushAdded (h : fs.Embeds φ fs') (hg' : g' < fs'.next) :
    fs.Embeds φ (fs'.push (some g')) where
  descends := h.descends
  descends' := by
    refine h.descends'.push ?_
    rintro _ ⟨⟩
    exact hg'
  nonempty := h.nonempty
  root := h.root
  inside := by
    intro f hf
    rw [next_push]
    exact Nat.lt_succ_of_lt (h.inside f hf)
  injective := h.injective
  here := by
    intro f hf x
    rw [here?_push, h.here f hf]

end Embeds

/-! ### Outwards from a frame -/

/-- The frames outwards from `f` are found outwards from `f'`, at the distances to which the marks
move them. -/
def Along (φ : FrameMap) (fs fs' : Frames α) (marks : Marks) (f f' : FrameId) : Prop :=
  ∀ d, fs'.ancestor? f' (marks.place d) = (fs.ancestor? f d).map φ

namespace Along

theorem self (fs : Frames α) (f : FrameId) : Along id fs fs [] f f := by
  intro d
  rw [Marks.place_nil, Option.map_id, id]

/-- Where the innermost scope is not added the frame is found here. -/
theorem place (h : Along φ fs fs' marks f f') (hinner : marks.place 0 = 0) : f' = φ f := by
  have hzero := h 0
  rw [hinner] at hzero
  exact Option.some.inj hzero

theorem kept (h : Along φ fs fs' marks f f') (hg : φ g = g') (hlink : fs.enclosing? g = some f)
    (hlink' : fs'.enclosing? g' = some f') : Along φ fs fs' (false :: marks) g g' := by
  intro d
  cases d with
  | zero => exact congrArg some hg.symm
  | succ d =>
    rw [Marks.place_kept_succ, ancestor?_succ hlink, ancestor?_succ hlink']
    exact h d

theorem added (h : Along φ fs fs' marks f f') (hlink' : fs'.enclosing? g' = some f') :
    Along φ fs fs' (true :: marks) f g' := by
  intro d
  rw [Marks.place_added, ancestor?_succ hlink']
  exact h d

theorem later (h : Along φ fs fs' marks f f') (hfs : fs.Embeds φ fs') (hf : f < fs.next)
    (hf' : f' < fs'.next) (hadv : Advances φ fs fs' φ₁ fs₁ fs₁') :
    Along φ₁ fs₁ fs₁' marks f f' := by
  intro d
  rw [hadv.right.ancestor? hfs.descends' _ hf', h d, hadv.left.ancestor? hfs.descends _ hf]
  refine Option.map_congr fun g hg => ?_
  exact (hadv.map g (hfs.descends.ancestor?_lt hf hg)).symm

/-- What is read at a distance is read at the moved one. -/
theorem getAt (h : Along φ fs fs' marks f f') (hfs : fs.Embeds φ fs') (hf : f < fs.next) (d : Nat)
    (x : String) : fs'.getAt f' (marks.place d) x = fs.getAt f d x := by
  unfold Frames.getAt
  rw [h d]
  cases hg : fs.ancestor? f d with
  | none => rfl
  | some g =>
    dsimp only [Option.map_some]
    rw [hfs.here g (hfs.descends.ancestor?_lt hf hg)]

end Along
end Frames

/-! ## Objects -/

section

variable {φ φ₁ φ₂ : FrameMap} {fs fs' fs₁ fs₁' : Frames Value} {m m' m₁ m₁' m₂ m₂' : Machine}
  {inner : Marks}

/-- The same function, closed over the frame in the place of its own. Between its closure and its
own scope there are scopes with the marks `inner`. -/
structure Function.Embeds (φ : FrameMap) (fs fs' : Frames Value) (inner : Marks)
    (f f' : Function) : Prop where
  made : f.closure < fs.next
  closure : f'.closure = φ f.closure
  isInitializer : f'.isInitializer = f.isInitializer
  decl : ∃ marks, fs.Along φ fs' marks f.closure f'.closure ∧ f.decl.Moved (inner ++ marks) f'.decl

theorem Function.Embeds.self {inner : Marks} (hinner : (inner ++ []).Still) {f : Function}
    (hmade : f.closure < fs.next) : Function.Embeds id fs fs inner f f :=
  ⟨hmade, rfl, rfl, [], .self fs _, FunctionDecl.moved_self (.inl hinner)⟩

theorem Function.Embeds.made' {f f' : Function} (h : Function.Embeds φ fs fs' inner f f')
    (hfs : fs.Embeds φ fs') : f'.closure < fs'.next := by
  rw [h.closure]
  exact hfs.inside _ h.made

theorem Function.Embeds.later {f f' : Function} (h : Function.Embeds φ fs fs' inner f f')
    (hfs : fs.Embeds φ fs') (hadv : fs.Advances φ fs' φ₁ fs₁ fs₁') :
    Function.Embeds φ₁ fs₁ fs₁' inner f f' := by
  obtain ⟨marks, halong, hdecl⟩ := h.decl
  have halong₁ := halong.later hfs h.made (h.made' hfs) hadv
  refine ⟨Nat.lt_of_lt_of_le h.made hadv.left.next, ?_, h.isInitializer, marks, halong₁, hdecl⟩
  rw [hadv.map _ h.made, h.closure]

/-! ## Machines -/

namespace Machine

/-- The machine `m` is found in `m'`, with frames added. A bound method is closed over one frame
more than the method of its class. -/
structure Embeds (φ : FrameMap) (m m' : Machine) : Prop extends
    Machine.Parallel (Function.Embeds φ m.frames m'.frames [])
      (Function.Embeds φ m.frames m'.frames [false]) m m' where
  frames : m.frames.Embeds φ m'.frames
  output : m'.output = m.output
  clock : m'.clock = m.clock

/-- The marks of the scopes around a place, where both machines are in that place. -/
structure EmbedsAt (φ : FrameMap) (marks : Marks) (m m' : Machine) : Prop
    extends Embeds φ m m' where
  current : m.current < m.frames.next
  current' : m'.current < m'.frames.next
  along : m.frames.Along φ m'.frames marks m.current m'.current

/-- Both machines at a later time, in the same frames as before. -/
structure Advances (φ : FrameMap) (m m' : Machine) (φ₁ : FrameMap) (m₁ m₁' : Machine) : Prop where
  frames : m.frames.Advances φ m'.frames φ₁ m₁.frames m₁'.frames
  current : m₁.current = m.current
  current' : m₁'.current = m'.current

theorem Advances.refl (φ : FrameMap) (m m' : Machine) : Advances φ m m' φ m m' :=
  ⟨.refl φ _ _, rfl, rfl⟩

theorem Advances.trans (h : Advances φ m m' φ₁ m₁ m₁') (h₁ : Advances φ₁ m₁ m₁' φ₂ m₂ m₂') :
    Advances φ m m' φ₂ m₂ m₂' :=
  ⟨h.frames.trans h₁.frames, h₁.current.trans h.current, h₁.current'.trans h.current'⟩

/-- Other frames, with everything that refers to them as before. -/
theorem Embeds.withFrames (h : m.Embeds φ m') (hfs : fs.Embeds φ₁ fs')
    (hadv : m.frames.Advances φ m'.frames φ₁ fs fs') :
    Machine.Embeds φ₁ { m with frames := fs } { m' with frames := fs' } :=
  { h.toParallel.mono (·.later h.frames hadv) (·.later h.frames hadv) with
    frames := hfs
    output := h.output
    clock := h.clock }

/-- The place in which both machines are stays where it is. -/
theorem EmbedsAt.later (h : m.EmbedsAt φ marks m') (hadv : m.Advances φ m' φ₁ m₁ m₁')
    (h₁ : m₁.Embeds φ₁ m₁') : m₁.EmbedsAt φ₁ marks m₁' where
  toEmbeds := h₁
  current := by
    rw [hadv.current]
    exact Nat.lt_of_lt_of_le h.current hadv.frames.left.next
  current' := by
    rw [hadv.current']
    exact Nat.lt_of_lt_of_le h.current' hadv.frames.right.next
  along := by
    rw [hadv.current, hadv.current']
    exact h.along.later h.frames h.current h.current' hadv.frames

/-- A sound machine is found in itself. -/
theorem Sound.embedsAt (h : m.Sound) : m.EmbedsAt id [] m where
  toParallel := .self (fun hf => .self Marks.Still.nil (h.functions hf))
    fun hc hf => .self Marks.Still.nil.kept (h.methods hc hf)
  frames := {
    descends := h.links
    descends' := h.links
    nonempty := Nat.zero_lt_of_lt h.current
    root := rfl
    inside := fun _ hf => hf
    injective := fun _ _ _ _ heq => heq
    here := fun _ _ _ => rfl }
  output := rfl
  clock := rfl
  current := h.current
  current' := h.current
  along := .self _ _

end Machine
end

end Lox
