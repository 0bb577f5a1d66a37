import Lox.Run.Frames

/-!
# Reading frames after writing them

One lemma for each pair of an observation (`next`, `enclosing?`, `bindings?`, `here?`, `ancestor?`)
and a change (`define`, `push`). Changes keep every enclosing link, so a chain of links that leads
somewhere still leads there (`ancestor?_of_links`).
-/

set_option autoImplicit false

namespace Lox.Frames

variable {α : Type}

/-- What a frame binds. -/
def bindings? (fs : Frames α) (f : FrameId) : Option (Bindings α) :=
  fs.frames[f]?.map (·.bindings)

theorem here?_eq (fs : Frames α) (f : FrameId) (name : String) :
    fs.here? f name = (fs.bindings? f).bind fun b => b.get? name := by
  rw [here?, bindings?]
  cases fs.frames[f]? <;> rfl

theorem names_eq (fs : Frames α) (f : FrameId) :
    fs.names f = ((fs.bindings? f).map (·.names)).getD [] := by
  rw [names, bindings?]
  cases fs.frames[f]? <;> rfl

theorem lt_of_here? {fs : Frames α} {f : FrameId} {name : String} {v : α}
    (h : fs.here? f name = some v) : f < fs.next := by
  unfold here? at h
  cases hf : fs.frames[f]? with
  | none => simp [hf] at h
  | some frame => exact (Array.getElem?_eq_some_iff.1 hf).1

theorem bindings?_of_lt {fs : Frames α} {f : FrameId} (h : f < fs.next) :
    ∃ b, fs.bindings? f = some b := by
  have hsize : f < fs.frames.size := h
  refine ⟨fs.frames[f].bindings, ?_⟩
  rw [bindings?, Array.getElem?_eq_getElem hsize]
  rfl

/-! ## After a definition -/

section Define

variable (fs : Frames α) (f : FrameId) (name : String) (value : α)

@[simp] theorem next_define : (fs.define f name value).next = fs.next := by
  simp [define, next]

@[simp] theorem enclosing?_define (g : FrameId) :
    (fs.define f name value).enclosing? g = fs.enclosing? g := by
  simp only [define, enclosing?, Array.getElem?_modify]
  split
  · cases fs.frames[g]? <;> rfl
  · rfl

theorem bindings?_define (g : FrameId) :
    (fs.define f name value).bindings? g =
      if f = g then (fs.bindings? g).map (·.insert name value) else fs.bindings? g := by
  simp only [define, bindings?, Array.getElem?_modify]
  split
  · cases fs.frames[g]? <;> rfl
  · rfl

theorem bindings?_define_ne {f g : FrameId} (h : f ≠ g) :
    (fs.define f name value).bindings? g = fs.bindings? g := by
  rw [bindings?_define, if_neg h]

theorem here?_define (g : FrameId) (other : String) :
    (fs.define f name value).here? g other =
      if g = f ∧ other = name ∧ f < fs.next then some value else fs.here? g other := by
  rw [here?_eq, bindings?_define]
  by_cases hg : f = g
  · subst hg
    by_cases hlt : f < fs.next
    · obtain ⟨b, hb⟩ := bindings?_of_lt hlt
      simp [hb, here?_eq, Bindings.get?_insert, hlt]
    · have hnone : fs.bindings? f = none := by
        rw [bindings?, Array.getElem?_eq_none (Nat.le_of_not_lt hlt)]
        rfl
      simp [hnone, here?_eq, hlt]
  · rw [if_neg hg, if_neg (fun h => hg h.1.symm), here?_eq]

theorem here?_define_self {f : FrameId} (h : f < fs.next) :
    (fs.define f name value).here? f name = some value := by
  rw [here?_define, if_pos ⟨rfl, rfl, h⟩]

theorem here?_define_ne {g : FrameId} {other : String} (h : ¬ (g = f ∧ other = name)) :
    (fs.define f name value).here? g other = fs.here? g other := by
  rw [here?_define, if_neg (fun hall => h ⟨hall.1, hall.2.1⟩)]

/-- A definition unbinds nothing. -/
theorem isSome_here?_define {g : FrameId} {other : String} (h : (fs.here? g other).isSome) :
    ((fs.define f name value).here? g other).isSome := by
  rw [here?_define]
  split
  · rfl
  · exact h

theorem insertIn_insertIn {β : Type} (v v' : β) (l : List (String × β)) :
    Bindings.insertIn name v' (Bindings.insertIn name v l) = Bindings.insertIn name v' l := by
  induction l with
  | nil => simp [Bindings.insertIn]
  | cons e rest ih =>
    by_cases h : name = e.1 <;> simp [Bindings.insertIn, h, ih]

/-- Of two definitions of a name the later one counts. -/
theorem define_define (value' : α) :
    (fs.define f name value).define f name value' = fs.define f name value' := by
  simp only [define, Frames.mk.injEq]
  apply Array.ext_getElem?
  intro i
  by_cases h : f = i
  · subst h
    simp [Array.getElem?_modify, Function.comp_def, Bindings.insert, insertIn_insertIn]
  · simp [Array.getElem?_modify, h]

/-! Definitions of several names in one frame. -/

theorem next_foldl_define (bindings : List (String × α)) (fs : Frames α) :
    (bindings.foldl (fun fs b => fs.define f b.1 b.2) fs).next = fs.next := by
  induction bindings generalizing fs with
  | nil => rfl
  | cons b bindings ih => rw [List.foldl_cons, ih, next_define]

theorem enclosing?_foldl_define (bindings : List (String × α)) (fs : Frames α) (g : FrameId) :
    (bindings.foldl (fun fs b => fs.define f b.1 b.2) fs).enclosing? g = fs.enclosing? g := by
  induction bindings generalizing fs with
  | nil => rfl
  | cons b bindings ih => rw [List.foldl_cons, ih, enclosing?_define]

end Define

/-! ## After a new frame -/

/-- The next frame binds nothing yet. -/
theorem here?_next (fs : Frames α) (name : String) : fs.here? fs.next name = none := by
  cases hv : fs.here? fs.next name with
  | none => rfl
  | some v => exact absurd (lt_of_here? hv) (Nat.lt_irrefl _)

section Push

variable (fs : Frames α) (enclosing : Option FrameId)

@[simp] theorem next_push : (fs.push enclosing).next = fs.next + 1 := by
  simp [push, next]

theorem enclosing?_push (f : FrameId) :
    (fs.push enclosing).enclosing? f = if f = fs.next then enclosing else fs.enclosing? f := by
  by_cases h : f = fs.next
  · subst h
    simp [push, enclosing?, next]
  · have h' : f ≠ fs.frames.size := h
    simp [push, enclosing?, Array.getElem?_push, h, h']

theorem enclosing?_next : fs.enclosing? fs.next = none := by
  simp [enclosing?, next]

theorem bindings?_push (f : FrameId) :
    (fs.push enclosing).bindings? f = if f = fs.next then some .empty else fs.bindings? f := by
  by_cases h : f = fs.next
  · subst h
    simp [push, bindings?, next]
  · have h' : f ≠ fs.frames.size := h
    simp [push, bindings?, Array.getElem?_push, h, h']

@[simp] theorem here?_push (f : FrameId) (name : String) :
    (fs.push enclosing).here? f name = fs.here? f name := by
  rw [here?_eq, bindings?_push, here?_eq]
  by_cases h : f = fs.next
  · subst h
    simp [bindings?, next]
  · rw [if_neg h]

end Push

/-! ## Chains of links -/

@[simp] theorem ancestor?_zero (fs : Frames α) (f : FrameId) : fs.ancestor? f 0 = some f := rfl

theorem ancestor?_succ {fs : Frames α} {f outer : FrameId} (h : fs.enclosing? f = some outer)
    (d : Nat) : fs.ancestor? f (d + 1) = fs.ancestor? outer d := by
  rw [ancestor?, h]
  rfl

/-- Where a chain leads depends on the links only. -/
theorem ancestor?_of_links {fs fs' : Frames α}
    (h : ∀ f g, fs.enclosing? f = some g → fs'.enclosing? f = some g) :
    ∀ {d : Nat} {f g : FrameId}, fs.ancestor? f d = some g → fs'.ancestor? f d = some g
  | 0, f, g, hd => hd
  | d + 1, f, g, hd => by
    rw [ancestor?, Option.bind_eq_some_iff] at hd
    obtain ⟨outer, houter, hd⟩ := hd
    rw [ancestor?_succ (h f outer houter)]
    exact ancestor?_of_links h hd

/-! ## By search and by distance -/

/-- A frame with nothing around it is searched alone. -/
theorem get?_of_root {fs : Frames α} {f : FrameId} (h : fs.enclosing? f = none) (name : String) :
    fs.get? f name = fs.here? f name := by
  rw [get?]
  cases hv : fs.here? f name with
  | some v => rfl
  | none => simp only [h]

theorem assign?_of_here? {fs : Frames α} {f : FrameId} {name : String} {v : α}
    (h : fs.here? f name = some v) (value : α) :
    fs.assign? f name value = some (fs.define f name value) := by
  have howner : fs.owner? f name = some f := by
    rw [owner?, h]
  rw [assign?, howner]

theorem assign?_of_root {fs : Frames α} {f : FrameId} {name : String}
    (hroot : fs.enclosing? f = none) (hhere : fs.here? f name = none) (value : α) :
    fs.assign? f name value = none := by
  have howner : fs.owner? f name = none := by
    rw [owner?, hhere]
    simp only [hroot]
  rw [assign?, howner]

theorem getAt_of_here? {fs : Frames α} {f g : FrameId} {d : Nat} {name : String} {v : α}
    (hg : fs.ancestor? f d = some g) (hv : fs.here? g name = some v) :
    fs.getAt f d name = .ok v := by
  simp only [getAt, hg, hv]

theorem assignAt_of_here? {fs : Frames α} {f g : FrameId} {d : Nat} {name : String} {v : α}
    (hg : fs.ancestor? f d = some g) (hv : fs.here? g name = some v) (value : α) :
    fs.assignAt f d name value = .ok (fs.define g name value) := by
  simp only [assignAt, hg, hv]

theorem assignAt_of_unbound {fs : Frames α} {f g : FrameId} {d : Nat} {name : String}
    (hg : fs.ancestor? f d = some g) (hv : fs.here? g name = none) (value : α) :
    fs.assignAt f d name value = .error .unbound := by
  simp only [assignAt, hg, hv]

end Lox.Frames
