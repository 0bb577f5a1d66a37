import Lox.Proofs.Rename.Machine

/-!
# The steps of a renamed run

Each operation of the evaluator, run on machines that are alike, gives alike results and leaves
machines that are alike (`Agrees`). Names in errors are the only difference that a run can show. The
place that runs is `Here`: the scopes around it are marked like the frames outwards from the current
one, so a slot leads to a frame in which the renamed variable has its new name.
-/

set_option autoImplicit false

namespace Lox

variable {r : Renaming} {F F' : FrameMarks} {marks outer : Marks} {m m' m₁ m₁' : Machine}

/-! ## Results -/

/-- The same cause, but for the name of a renamed variable. -/
inductive RuntimeCause.Alike (r : Renaming) : RuntimeCause → RuntimeCause → Prop
  | same (cause : RuntimeCause) : RuntimeCause.Alike r cause cause
  | undefinedVariable : RuntimeCause.Alike r (.undefinedVariable r.old) (.undefinedVariable r.new)
  | noScope (distance : Nat) :
      RuntimeCause.Alike r (.noScope distance r.old) (.noScope distance r.new)

/-- The same error, but for the name of a renamed variable. -/
structure RuntimeError.Alike (r : Renaming) (e e' : RuntimeError) : Prop where
  line : e'.line = e.line
  cause : e.cause.Alike r e'.cause

/-- The results of a run and of the renamed one, of which the first started on the machine `m`. -/
inductive Agrees {α α' : Type} (r : Renaming) (F : FrameMarks) (m : Machine)
    (R : FrameMarks → Machine → α → α' → Prop) : Result α → Result α' → Prop
  | ok {F' : FrameMarks} {m₁ m₁' : Machine} {a : α} {a' : α'}
      (hF : ∀ f < m.frames.next, F' f = F f) (h : m₁.Alike r F' m₁') (hR : R F' m₁ a a') :
      Agrees r F m R (.ok a m₁) (.ok a' m₁')
  | error {F' : FrameMarks} {m₁ m₁' : Machine} {e e' : RuntimeError} (he : e.Alike r e')
      (h : m₁.Alike r F' m₁') : Agrees r F m R (.error e m₁) (.error e' m₁')
  | outOfFuel : Agrees r F m R .outOfFuel .outOfFuel

/-- Both runs give the same. -/
abbrev Same {α : Type} : FrameMarks → Machine → α → α → Prop :=
  fun _ _ a a' => a' = a

/-- A place in both runs: the scopes around it have these marks. -/
structure Here (r : Renaming) (F : FrameMarks) (marks : Marks) (m m' : Machine) : Prop extends
    Machine.Alike r F m m' where
  sound : m.Sound
  marked : m.frames.Marked F m.current marks

namespace Agrees

variable {α α' β β' : Type} {R : FrameMarks → Machine → α → α' → Prop}
variable {S : FrameMarks → Machine → β → β' → Prop}

theorem pure {a : α} {a' : α'} (h : m.Alike r F m') (hR : R F m a a') :
    Agrees r F m R ((Pure.pure a : Eval α) m) ((Pure.pure a' : Eval α') m') :=
  .ok (fun _ _ => rfl) h hR

theorem stop {e : RuntimeError} (h : m.Alike r F m') :
    Agrees r F m R (.error e m) (.error e m') :=
  .error ⟨rfl, .same _⟩ h

theorem fault (h : m.Alike r F m') {token token' : Token} (hline : token'.line = token.line)
    (cause : RuntimeCause) :
    Agrees r F m R (Eval.fault token cause m) (Eval.fault token' cause m') :=
  .error ⟨hline, .same _⟩ h

theorem ofExcept (h : m.Alike r F m') (result : Except RuntimeError α) :
    Agrees r F m Same (Eval.ofExcept result m) (Eval.ofExcept result m') := by
  cases result with
  | ok a => exact .ok (fun _ _ => rfl) h rfl
  | error e => exact .stop h

end Agrees

namespace Here

variable {α α' β β' : Type} {R : FrameMarks → Machine → α → α' → Prop}
variable {S : FrameMarks → Machine → β → β' → Prop}

/-- One run after another. What is known of the first run alone says which frames it has kept. -/
theorem bind (h : Here r F marks m m') {names : List String} {Q : α → Machine → Prop}
    {x : Eval α} {x' : Eval α'} {f : α → Eval β} {f' : α' → Eval β'} (hends : Ends names m Q (x m))
    (hx : Agrees r F m R (x m) (x' m'))
    (hf : ∀ {F' m₁ m₁' a a'}, Here r F' marks m₁ m₁' → Machine.Later F m F' m₁ → Q a m₁ →
      R F' m₁ a a' → Agrees r F' m₁ S (f a m₁) (f' a' m₁')) :
    Agrees r F m S ((x >>= f) m) ((x' >>= f') m') := by
  show Agrees r F m S (Eval.bind x f m) (Eval.bind x' f' m')
  unfold Eval.bind
  generalize x m = result at hends hx ⊢
  generalize x' m' = result' at hx ⊢
  cases hx with
  | @ok F' m₁ m₁' a a' hF halike hR =>
    cases hends with
    | ok hk hs hq =>
      have hlater : Machine.Later F m F' m₁ := ⟨h.sound, ⟨names, hk⟩, hF⟩
      have hhere : Here r F' marks m₁ m₁' :=
        ⟨halike, hs, hlater.current ▸ hlater.marked h.sound.current h.marked⟩
      have hrest := hf hhere hlater hq hR
      dsimp only
      generalize f a m₁ = result at hrest ⊢
      generalize f' a' m₁' = result' at hrest ⊢
      cases hrest with
      | ok hF' halike' hR' =>
        refine .ok (fun g hg => ?_) halike' hR'
        rw [hF' g (Nat.lt_of_lt_of_le hg hlater.holds.frames), hF g hg]
      | error he halike' => exact .error he halike'
      | outOfFuel => exact .outOfFuel
  | error he halike => exact .error he halike
  | outOfFuel => exact .outOfFuel

/-- One run after another, where the first gives the same in both. -/
theorem bindSame (h : Here r F marks m m') {names : List String} {Q : α → Machine → Prop}
    {x x' : Eval α} {f : α → Eval β} {f' : α → Eval β'} (hends : Ends names m Q (x m))
    (hx : Agrees r F m Same (x m) (x' m'))
    (hf : ∀ {F' m₁ m₁' a}, Here r F' marks m₁ m₁' → Machine.Later F m F' m₁ → Q a m₁ →
      Agrees r F' m₁ S (f a m₁) (f' a m₁')) :
    Agrees r F m S ((x >>= f) m) ((x' >>= f') m') := by
  refine h.bind hends hx fun hhere hlater hq heq => ?_
  subst heq
  exact hf hhere hlater hq

theorem currentFrame (h : Here r F marks m m') {f : FrameId → Eval β} {f' : FrameId → Eval β'}
    (hf : Agrees r F m S (f m.current m) (f' m.current m')) :
    Agrees r F m S ((Eval.currentFrame >>= f) m) ((Eval.currentFrame >>= f') m') := by
  show Agrees r F m S (f m.current m) (f' m'.current m')
  rwa [h.current]

/-- A run in another frame. -/
theorem within (h : Here r F marks m m') {f : FrameId} (hf : f < m.frames.next)
    (hmarked : m.frames.Marked F f outer) {x x' : Eval α}
    (hx : ∀ {m m'}, Here r F outer m m' → Agrees r F m Same (x m) (x' m')) :
    Agrees r F m Same (Eval.within f x m) (Eval.within f x' m') := by
  have hinner : Here r F outer { m with current := f } { m' with current := f } :=
    { h with current := rfl, sound := h.sound.enter hf, marked := hmarked }
  have hrun := hx hinner
  unfold Eval.within
  dsimp only
  generalize x { m with current := f } = result at hrun ⊢
  generalize x' { m' with current := f } = result' at hrun ⊢
  cases hrun with
  | ok hF halike hR => exact .ok hF { halike with current := h.current } hR
  | error he halike => exact .error he { halike with current := h.current }
  | outOfFuel => exact .outOfFuel

end Here

/-! ## Variables -/

theorem RuntimeCause.Alike.access {b : Bool} {name : String} (h : b = true → name ≠ r.new)
    (distance : Nat) (e : AccessError) :
    (Eval.accessCause distance name e).Alike r
      (Eval.accessCause distance (r.called b name) e) := by
  cases b with
  | false => exact .same _
  | true =>
    by_cases hold : name = r.old
    · subst hold
      rw [Renaming.called_old]
      cases e with
      | noFrame => exact .noScope distance
      | unbound => exact .undefinedVariable
    · rw [r.called_of_ne true hold (h rfl)]
      exact .same _

namespace Here

/-- Nothing is around the frame of the globals. -/
theorem root (h : Here r F marks m m') : m.frames.enclosing? Machine.globalFrame = none := by
  cases hroot : m.frames.enclosing? Machine.globalFrame with
  | none => rfl
  | some outer => exact absurd (h.sound.links _ _ hroot) (Nat.not_lt_zero _)

theorem here?_top (h : Here r F marks m m') (x : String) :
    m'.frames.here? Machine.globalFrame x = m.frames.here? Machine.globalFrame x := by
  have hhere := h.frames.here Machine.globalFrame x
  rwa [h.top, Renaming.called_false] at hhere

theorem getAt (h : Here r F marks m m') (d : Nat) (x : String) :
    m'.frames.getAt m'.current d (r.called (marks.mark d) x)
      = m.frames.getAt m.current d x := by
  unfold Frames.getAt
  rw [h.current, h.frames.ancestor?]
  cases hg : m.frames.ancestor? m.current d with
  | none => rfl
  | some g =>
    dsimp only
    rw [← h.marked d g hg, h.frames.here]

/-- A read at the node's slot, under the name that the variable has there. -/
theorem readVariable (h : Here r F marks m m') {name : Token} {depth : Option Nat}
    (hname : marks.atSlot depth = true → name.lexeme ≠ r.new) :
    Agrees r F m Same (Eval.readVariable name depth m)
      (Eval.readVariable (name.called r (marks.atSlot depth)) depth m') := by
  unfold Eval.readVariable
  cases depth with
  | some d =>
    dsimp only [Marks.atSlot, Token.called_lexeme]
    rw [h.getAt]
    cases m.frames.getAt m.current d name.lexeme with
    | ok v => exact .ok (fun _ _ => rfl) h.toAlike rfl
    | error e => exact .error ⟨rfl, .access hname d e⟩ h.toAlike
  | none =>
    have hroot' : m'.frames.enclosing? Machine.globalFrame = none := by
      rw [h.frames.links, h.root]
    dsimp only [Marks.atSlot, Token.called_false]
    rw [Frames.get?_of_root h.root, Frames.get?_of_root hroot', h.here?_top]
    cases m.frames.here? Machine.globalFrame name.lexeme with
    | some v => exact .ok (fun _ _ => rfl) h.toAlike rfl
    | none => exact .stop h.toAlike

/-- A new value for a variable that is bound in a frame. -/
theorem redefine (h : Here r F marks m m') {f : FrameId} {x : String}
    (hx : (m.frames.here? f x).isSome) (v : Value) :
    Machine.Alike r F { m with frames := m.frames.define f x v }
      { m' with frames := m'.frames.define f (r.called (F f) x) v } :=
  h.toAlike.withFrames ⟨h.sound, ⟨_, .redefine hx v⟩, fun _ _ => rfl⟩ (h.frames.define f x v)

theorem writeVariable (h : Here r F marks m m') {name : Token} {depth : Option Nat}
    (hname : marks.atSlot depth = true → name.lexeme ≠ r.new) (v : Value) :
    Agrees r F m Same (Eval.writeVariable name depth v m)
      (Eval.writeVariable (name.called r (marks.atSlot depth)) depth v m') := by
  unfold Eval.writeVariable
  cases depth with
  | some d =>
    dsimp only [Marks.atSlot, Token.called_lexeme]
    unfold Frames.assignAt
    rw [h.current, h.frames.ancestor?]
    cases hg : m.frames.ancestor? m.current d with
    | none => exact .error ⟨rfl, .access hname d .noFrame⟩ h.toAlike
    | some g =>
      dsimp only
      rw [← h.marked d g hg, h.frames.here]
      cases hv : m.frames.here? g name.lexeme with
      | none =>
        refine .error ⟨rfl, ?_⟩ h.toAlike
        rw [h.marked d g hg]
        exact .access hname d .unbound
      | some w =>
        have hwrite := h.redefine (Option.isSome_of_eq_some hv) v
        exact .ok (fun _ _ => rfl) { hwrite with current := rfl } rfl
  | none =>
    have hroot' : m'.frames.enclosing? Machine.globalFrame = none := by
      rw [h.frames.links, h.root]
    dsimp only [Marks.atSlot, Token.called_false]
    cases hv : m.frames.here? Machine.globalFrame name.lexeme with
    | none =>
      rw [Frames.assign?_of_root h.root hv,
        Frames.assign?_of_root hroot' ((h.here?_top _).trans hv)]
      exact .stop h.toAlike
    | some w =>
      have hwrite := h.redefine (Option.isSome_of_eq_some hv) v
      rw [h.top, Renaming.called_false] at hwrite
      rw [Frames.assign?_of_here? hv, Frames.assign?_of_here? ((h.here?_top _).trans hv)]
      exact .ok (fun _ _ => rfl) hwrite rfl

/-- A declaration binds its name in the current frame. -/
theorem define (h : Here r F marks m m') (x : String) (v : Value) :
    Agrees r F m (fun _ m₁ _ _ => (m₁.frames.here? m₁.current x).isSome) (Eval.define x v m)
      (Eval.define (r.called (marks.mark 0) x) v m') := by
  have hmark : F m.current = marks.mark 0 := h.marked 0 _ rfl
  have halike := h.toAlike.withFrames ⟨h.sound, ⟨_, .define m x v⟩, fun _ _ => rfl⟩
    (h.frames.define m.current x v)
  rw [hmark] at halike
  unfold Eval.define
  rw [h.current]
  refine .ok (fun _ _ => rfl) { halike with current := rfl } ?_
  rw [Frames.here?_define_self _ _ _ h.sound.current]
  rfl

/-- The name of a function or class, which is bound in the current frame and is not renamed. -/
theorem assignVisible (h : Here r F marks m m') {name : Token}
    (hname : r.called (marks.mark 0) name.lexeme = name.lexeme)
    (hbound : (m.frames.here? m.current name.lexeme).isSome) (v : Value) :
    Agrees r F m Same (Eval.assignVisible name v m) (Eval.assignVisible name v m') := by
  obtain ⟨w, hw⟩ := Option.isSome_iff_exists.1 hbound
  have hmark : F m.current = marks.mark 0 := h.marked 0 _ rfl
  have hw' : m'.frames.here? m.current name.lexeme = some w := by
    rw [← hname, ← hmark, h.frames.here, hw]
  have halike := h.redefine hbound v
  rw [hmark, hname] at halike
  unfold Eval.assignVisible
  rw [h.current, Frames.assign?_of_here? hw, Frames.assign?_of_here? hw']
  exact .ok (fun _ _ => rfl) { halike with current := rfl } rfl

/-- A new frame, marked or not. -/
theorem newFrame (h : Here r F marks m m') {enclosing : FrameId}
    (he : enclosing < m.frames.next) (houter : m.frames.Marked F enclosing outer) (b : Bool)
    {bindings : List (String × Value)} (hb : ∀ e ∈ bindings, e.2.Made m) :
    Agrees r F m (fun F' m₁ f f' => f' = f ∧ m₁.frames.Marked F' f (b :: outer))
      (Eval.newFrame enclosing bindings m)
      (Eval.newFrame enclosing (bindings.map fun e => (r.called b e.1, e.2)) m') := by
  have hF : ∀ f < m.frames.next, Function.update F m.frames.next b f = F f :=
    fun f hf => Function.update_of_ne (Nat.ne_of_lt hf) _ _
  have hself : Function.update F m.frames.next b m.frames.next = b := Function.update_self ..
  have hends := h.sound.newFrame he hb
  have hframes := ((h.frames.congr hF).push (some enclosing)).defineAll m.frames.next bindings
  rw [hself] at hframes
  unfold Eval.newFrame at hends ⊢
  dsimp only at hends ⊢
  rw [h.frames.next]
  cases hends with
  | ok hk hs _ =>
    have hlater : Machine.Later F m (Function.update F m.frames.next b) _ := ⟨h.sound, ⟨_, hk⟩, hF⟩
    refine .ok hF (h.toAlike.withFrames hlater hframes) ⟨rfl, ?_⟩
    refine (hlater.marked he houter).cons ?_ hself
    rw [Frames.enclosing?_foldl_define, Frames.enclosing?_push, if_pos rfl]

/-- A run in a new frame. -/
theorem inFrame (h : Here r F marks m m') {enclosing : FrameId}
    (he : enclosing < m.frames.next) (houter : m.frames.Marked F enclosing outer) (b : Bool)
    {bindings : List (String × Value)} (hb : ∀ e ∈ bindings, e.2.Made m) {α : Type}
    {x x' : Eval α}
    (hx : ∀ {F m m'}, Here r F (b :: outer) m m' → Agrees r F m Same (x m) (x' m')) :
    Agrees r F m Same ((Eval.newFrame enclosing bindings >>= fun f => Eval.within f x) m)
      ((Eval.newFrame enclosing (bindings.map fun e => (r.called b e.1, e.2)) >>= fun f =>
        Eval.within f x') m') := by
  refine h.bind (h.sound.newFrame he hb) (h.newFrame he houter b hb) fun hhere _ hmade hR => ?_
  obtain ⟨rfl, hmarked⟩ := hR
  exact hhere.within hmade.2 hmarked hx

end Here
end Lox
