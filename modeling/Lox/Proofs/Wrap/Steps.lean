import Lox.Proofs.Run.Causes
import Lox.Proofs.Wrap.Machine

/-!
# The steps of a run with added frames

Each operation of the evaluator, run on a machine and on one in which it is found, gives the same
and leaves machines of which one is found in the other again (`Corresponds`). Only a cause that
blames the tree may differ, since it can tell a distance. Blocks of their own cost fuel, so one of
the runs may end for want of it before the other does: `L` says whether the first run may, and `R`
whether the second one may.
-/

set_option autoImplicit false

namespace Lox

variable {L R : Prop} {φ φ₁ : FrameMap} {marks outer : Marks} {m m' m₁ m₁' : Machine}

/-! ## Results -/

/-- The results of two runs, which started on the machines `m` and `m'`. -/
inductive Corresponds {α α' : Type} (L R : Prop) (φ : FrameMap) (m m' : Machine)
    (Q : FrameMap → Machine → Machine → α → α' → Prop) : Result α → Result α' → Prop
  | ok {φ₁ : FrameMap} {m₁ m₁' : Machine} {a : α} {a' : α'} (hadv : m.Advances φ m' φ₁ m₁ m₁')
      (h : m₁.Embeds φ₁ m₁') (hQ : Q φ₁ m₁ m₁' a a') :
      Corresponds L R φ m m' Q (.ok a m₁) (.ok a' m₁')
  | error {m₁ m₁' : Machine} {e e' : RuntimeError} (he : e.cause.blamesTree = false → e' = e)
      (ho : m₁'.output = m₁.output) : Corresponds L R φ m m' Q (.error e m₁) (.error e' m₁')
  | outOfFuel : Corresponds L R φ m m' Q .outOfFuel .outOfFuel
  | left (h : L) (result : Result α') : Corresponds L R φ m m' Q .outOfFuel result
  | right (h : R) (result : Result α) : Corresponds L R φ m m' Q result .outOfFuel

/-- Both runs give the same. -/
abbrev SameBoth {α : Type} : FrameMap → Machine → Machine → α → α → Prop :=
  fun _ _ _ a a' => a' = a

section

variable {α α' β β' : Type} {Q Q' : FrameMap → Machine → Machine → α → α' → Prop}
  {S : FrameMap → Machine → Machine → β → β' → Prop} {result : Result α} {result' : Result α'}

namespace Corresponds

theorem pure {a : α} {a' : α'} (h : m.Embeds φ m') (hQ : Q φ m m' a a') :
    Corresponds L R φ m m' Q ((Pure.pure a : Eval α) m) ((Pure.pure a' : Eval α') m') :=
  .ok (.refl φ m m') h hQ

theorem stop (h : m.Embeds φ m') (e : RuntimeError) :
    Corresponds L R φ m m' Q (.error e m) (.error e m') :=
  .error (fun _ => rfl) h.output

theorem ofExcept (h : m.Embeds φ m') (result : Except RuntimeError α) :
    Corresponds L R φ m m' SameBoth (Eval.ofExcept result m) (Eval.ofExcept result m') := by
  cases result with
  | ok a => exact .ok (.refl φ m m') h rfl
  | error e => exact .stop h e

/-- Both runs have made and changed frames. -/
theorem framed {fs fs' : Frames Value} {a : α} {a' : α'} (h : m.Embeds φ m')
    (hfs : fs.Embeds φ₁ fs') (hadv : m.frames.Advances φ m'.frames φ₁ fs fs')
    (hQ : Q φ₁ { m with frames := fs } { m' with frames := fs' } a a') :
    Corresponds L R φ m m' Q (.ok a { m with frames := fs }) (.ok a' { m' with frames := fs' }) :=
  .ok ⟨hadv, rfl, rfl⟩ (h.withFrames hfs hadv) hQ

theorem currentFrame {f : FrameId → Eval α} {f' : FrameId → Eval α'}
    (hf : Corresponds L R φ m m' Q (f m.current m) (f' m'.current m')) :
    Corresponds L R φ m m' Q ((Eval.currentFrame >>= f) m) ((Eval.currentFrame >>= f') m') :=
  hf

/-- A run that starts later. -/
theorem after (h : Corresponds L R φ₁ m₁ m₁' Q result result')
    (hadv : m.Advances φ m' φ₁ m₁ m₁') : Corresponds L R φ m m' Q result result' := by
  cases h with
  | ok hadv₁ h hQ => exact .ok (hadv.trans hadv₁) h hQ
  | error he ho => exact .error he ho
  | outOfFuel => exact .outOfFuel
  | left hL => exact .left hL _
  | right hR => exact .right hR _

end Corresponds

namespace Machine.EmbedsAt

/-- One run after another. -/
theorem bind (h : m.EmbedsAt φ marks m') {x : Eval α} {x' : Eval α'} {f : α → Eval β}
    {f' : α' → Eval β'} (hx : Corresponds L R φ m m' Q (x m) (x' m'))
    (hf : ∀ {φ₁ m₁ m₁' a a'}, m₁.EmbedsAt φ₁ marks m₁' → m.Advances φ m' φ₁ m₁ m₁' →
      Q φ₁ m₁ m₁' a a' → Corresponds L R φ₁ m₁ m₁' S (f a m₁) (f' a' m₁')) :
    Corresponds L R φ m m' S ((x >>= f) m) ((x' >>= f') m') := by
  show Corresponds L R φ m m' S (Eval.bind x f m) (Eval.bind x' f' m')
  unfold Eval.bind
  generalize x m = result at hx ⊢
  generalize x' m' = result' at hx ⊢
  cases hx with
  | ok hadv h₁ hQ => exact (hf (h.later hadv h₁) hadv hQ).after hadv
  | error he ho => exact .error he ho
  | outOfFuel => exact .outOfFuel
  | left hL => exact .left hL _
  | right hR => exact .right hR _

/-- One run after another, where the first gives the same in both. -/
theorem bindSame (h : m.EmbedsAt φ marks m') {x x' : Eval α} {f : α → Eval β} {f' : α → Eval β'}
    (hx : Corresponds L R φ m m' SameBoth (x m) (x' m'))
    (hf : ∀ {φ₁ m₁ m₁' a}, m₁.EmbedsAt φ₁ marks m₁' →
      Corresponds L R φ₁ m₁ m₁' S (f a m₁) (f' a m₁')) :
    Corresponds L R φ m m' S ((x >>= f) m) ((x' >>= f') m') := by
  refine h.bind hx fun h _ heq => ?_
  subst heq
  exact hf h

end Machine.EmbedsAt
end

/-! ## Variables -/

namespace Machine.EmbedsAt

/-- A read at the node's slot, which has moved. -/
theorem readVariable (h : m.EmbedsAt φ marks m') (name : Token) (depth : Option Nat) :
    Corresponds L R φ m m' SameBoth (Eval.readVariable name depth m)
      (Eval.readVariable name (depth.map marks.place) m') := by
  unfold Eval.readVariable
  cases depth with
  | some d =>
    dsimp only [Option.map_some]
    rw [h.along.getAt h.frames h.current]
    cases m.frames.getAt m.current d name.lexeme with
    | ok v => exact .ok (.refl φ m m') h.toEmbeds rfl
    | error e =>
      refine .error (fun hblame => ?_) h.output
      cases e with
      | noFrame => cases hblame
      | unbound => rfl
  | none =>
    dsimp only [Option.map_none]
    rw [Frames.get?_of_root h.frames.descends.root, Frames.get?_of_root h.frames.descends'.root,
      h.frames.here?_root]
    cases m.frames.here? Machine.globalFrame name.lexeme with
    | some v => exact .ok (.refl φ m m') h.toEmbeds rfl
    | none => exact .stop h.toEmbeds _

theorem writeVariable (h : m.EmbedsAt φ marks m') (name : Token) (depth : Option Nat)
    (v : Value) :
    Corresponds L R φ m m' SameBoth (Eval.writeVariable name depth v m)
      (Eval.writeVariable name (depth.map marks.place) v m') := by
  unfold Eval.writeVariable
  cases depth with
  | some d =>
    dsimp only [Option.map_some]
    unfold Frames.assignAt
    rw [h.along d]
    cases hg : m.frames.ancestor? m.current d with
    | none => exact .error nofun h.output
    | some g =>
      have hlt := h.frames.descends.ancestor?_lt h.current hg
      dsimp only [Option.map_some]
      rw [h.frames.here g hlt]
      cases m.frames.here? g name.lexeme with
      | none => exact .stop h.toEmbeds _
      | some w => exact .framed h.toEmbeds (h.frames.define hlt _ v) (.define ..) rfl
  | none =>
    dsimp only [Option.map_none]
    have hroot := h.frames.here?_root name.lexeme
    cases hw : m.frames.here? Machine.globalFrame name.lexeme with
    | none =>
      rw [hw] at hroot
      rw [Frames.assign?_of_root h.frames.descends.root hw,
        Frames.assign?_of_root h.frames.descends'.root hroot]
      exact .stop h.toEmbeds _
    | some w =>
      rw [hw] at hroot
      have hframes := h.frames.define h.frames.nonempty name.lexeme v
      rw [h.frames.root] at hframes
      rw [Frames.assign?_of_here? hw, Frames.assign?_of_here? hroot]
      exact .framed h.toEmbeds hframes (.define ..) rfl

/-- The current frame, where it is not an added one, gets the same binding in both. -/
theorem frames_define (h : m.EmbedsAt φ marks m') (hinner : marks.place 0 = 0) (x : String)
    (v : Value) :
    (m.frames.define m.current x v).Embeds φ (m'.frames.define m'.current x v) := by
  rw [h.along.place hinner]
  exact h.frames.define h.current x v

/-- A declaration binds its name in the current frame. -/
theorem define (h : m.EmbedsAt φ marks m') (hinner : marks.place 0 = 0) (x : String) (v : Value) :
    Corresponds L R φ m m' (fun _ m₁ _ _ _ => (m₁.frames.here? m₁.current x).isSome)
      (Eval.define x v m) (Eval.define x v m') := by
  refine .framed h.toEmbeds (h.frames_define hinner x v) (.define ..) ?_
  rw [Frames.here?_define_self _ _ _ h.current]
  rfl

/-- The name of a class, which is bound in the current frame. -/
theorem assignVisible (h : m.EmbedsAt φ marks m') (hinner : marks.place 0 = 0) {name : Token}
    (hbound : (m.frames.here? m.current name.lexeme).isSome) (v : Value) :
    Corresponds L R φ m m' SameBoth (Eval.assignVisible name v m)
      (Eval.assignVisible name v m') := by
  obtain ⟨w, hw⟩ := Option.isSome_iff_exists.1 hbound
  have hw' : m'.frames.here? m'.current name.lexeme = some w := by
    rw [h.along.place hinner, h.frames.here _ h.current, hw]
  unfold Eval.assignVisible
  rw [Frames.assign?_of_here? hw, Frames.assign?_of_here? hw']
  exact .framed h.toEmbeds (h.frames_define hinner _ v) (.define ..) rfl

/-! ## Frames -/

/-- A frame that both runs make. -/
theorem newFrame (h : m.EmbedsAt φ marks m') {f f' : FrameId} (hf : f < m.frames.next)
    (hf' : f' < m'.frames.next) (houter : m.frames.Along φ m'.frames outer f f')
    (bindings : List (String × Value)) :
    Corresponds L R φ m m' (fun φ₁ m₁ m₁' g g' => g < m₁.frames.next ∧ g' = φ₁ g ∧
      m₁.frames.Along φ₁ m₁'.frames (false :: outer) g g')
      (Eval.newFrame f bindings m) (Eval.newFrame f' bindings m') := by
  have hself : Function.update φ m.frames.next m'.frames.next m.frames.next = m'.frames.next :=
    Function.update_self ..
  have hadv : m.frames.Advances φ m'.frames (Function.update φ m.frames.next m'.frames.next)
      (bindings.foldl (fun fs b => fs.define m.frames.next b.1 b.2) (m.frames.push (some f)))
      (bindings.foldl (fun fs b => fs.define m'.frames.next b.1 b.2) (m'.frames.push (some f'))) :=
    ⟨(Frames.Later.push ..).trans (.defineAll ..), (Frames.Later.push ..).trans (.defineAll ..),
      fun g hg => Function.update_of_ne (Nat.ne_of_lt hg) ..⟩
  have hlt : m.frames.next < (m.frames.push (some f)).next := by
    rw [Frames.next_push]
    exact Nat.lt_succ_self _
  have hframes := (h.frames.push hf hf').defineAll bindings hlt
  rw [hself] at hframes
  refine .framed h.toEmbeds hframes hadv ⟨?_, hself.symm, ?_⟩
  · dsimp only
    rwa [Frames.next_foldl_define]
  · refine (houter.later h.frames hf hf' hadv).kept hself ?_ ?_
    · rw [Frames.enclosing?_foldl_define, Frames.enclosing?_push, if_pos rfl]
    · rw [Frames.enclosing?_foldl_define, Frames.enclosing?_push, if_pos rfl]

/-- A run in another frame. -/
theorem within (h : m.EmbedsAt φ marks m') {f f' : FrameId} (hf : f < m.frames.next)
    (hf' : f' < m'.frames.next) (halong : m.frames.Along φ m'.frames outer f f') {α : Type}
    {x x' : Eval α} (hx : ∀ {φ m m'}, EmbedsAt φ outer m m' →
      Corresponds L R φ m m' SameBoth (x m) (x' m')) :
    Corresponds L R φ m m' SameBoth (Eval.within f x m) (Eval.within f' x' m') := by
  have hinner : EmbedsAt φ outer { m with current := f } { m' with current := f' } :=
    { h with current := hf, current' := hf', along := halong }
  have hrun := hx hinner
  unfold Eval.within
  dsimp only
  generalize x { m with current := f } = result at hrun ⊢
  generalize x' { m' with current := f' } = result' at hrun ⊢
  cases hrun with
  | ok hadv h₁ hQ => exact .ok ⟨hadv.frames, rfl, rfl⟩ { h₁ with } hQ
  | error he ho => exact .error he ho
  | outOfFuel => exact .outOfFuel
  | left hL => exact .left hL _
  | right hR => exact .right hR _

/-- A run in a frame that both make. -/
theorem inFrame (h : m.EmbedsAt φ marks m') {f f' : FrameId} (hf : f < m.frames.next)
    (hf' : f' < m'.frames.next) (houter : m.frames.Along φ m'.frames outer f f')
    (bindings : List (String × Value)) {α : Type} {x x' : Eval α}
    (hx : ∀ {φ m m'}, EmbedsAt φ (false :: outer) m m' →
      Corresponds L R φ m m' SameBoth (x m) (x' m')) :
    Corresponds L R φ m m' SameBoth
      ((Eval.newFrame f bindings >>= fun g => Eval.within g x) m)
      ((Eval.newFrame f' bindings >>= fun g => Eval.within g x') m') := by
  refine h.bind (h.newFrame hf hf' houter bindings) fun h _ hmade => ?_
  obtain ⟨hg, rfl, halong⟩ := hmade
  exact h.within hg (h.frames.inside _ hg) halong hx

/-- A run in a frame that is added. -/
theorem inAddedFrame (h : m.EmbedsAt φ marks m') {α : Type} {x x' : Eval α}
    (hx : ∀ {m'}, EmbedsAt φ (true :: marks) m m' →
      Corresponds L R φ m m' SameBoth (x m) (x' m')) :
    Corresponds L R φ m m' SameBoth (x m)
      ((do
        let g ← Eval.newFrame (← Eval.currentFrame) []
        Eval.within g x' : Eval α) m') := by
  have hadv : m.frames.Advances φ m'.frames φ m.frames (m'.frames.push (some m'.current)) :=
    ⟨.refl _, .push .., fun _ _ => rfl⟩
  have hembeds := h.withFrames (h.frames.pushAdded h.current') hadv
  have hinner : EmbedsAt φ (true :: marks) m
      { m' with frames := m'.frames.push (some m'.current), current := m'.frames.next } :=
    { hembeds with
      current := h.current
      current' := by
        rw [Frames.next_push]
        exact Nat.lt_succ_self _
      along := by
        refine (h.along.later h.frames h.current h.current' hadv).added ?_
        rw [Frames.enclosing?_push, if_pos rfl] }
  have hrun := hx hinner
  show Corresponds L R φ m m' SameBoth (x m) (Eval.within m'.frames.next x'
    { m' with frames := m'.frames.push (some m'.current) })
  unfold Eval.within
  dsimp only
  generalize x m = result at hrun ⊢
  generalize x' { m' with frames := m'.frames.push (some m'.current), current := m'.frames.next }
    = result' at hrun ⊢
  cases hrun with
  | ok hadv₁ h₁ hQ =>
    exact .ok ⟨hadv.trans hadv₁.frames, hadv₁.current, rfl⟩ { h₁ with } hQ
  | error he ho => exact .error he ho
  | outOfFuel => exact .outOfFuel
  | left hL => exact .left hL _
  | right hR => exact .right hR _

end Machine.EmbedsAt
end Lox
