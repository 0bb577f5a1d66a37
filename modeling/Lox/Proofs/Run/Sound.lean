import Lox.Proofs.Run.Chains
import Lox.Run.Eval

/-!
# Sound machines

A machine is `Sound` when nothing in it refers to what has not been made: values, closures and
instances refer to objects in the tables, and links lead to older frames and classes.
`Keeps names m m'` says what a run from `m` to `m'` leaves in place: the current frame, the links
and names of every frame, and the objects; it may bind names in new frames, and in the current one
those of `names`. `Ends` puts the two together for the result of a run. Every operation of the
evaluator keeps them, whatever tree it is used for.
-/

set_option autoImplicit false

namespace Lox

/-! ## States -/

/-- The object to which a value refers, if any, has been made. -/
def Value.Made (m : Machine) : Value → Prop
  | .functionRef f => f < m.functions.size
  | .classRef c => c < m.classes.size
  | .instanceRef i => i < m.instances.size
  | _ => True

/-- The closure of a function has been made. -/
def Function.Made (m : Machine) (f : Function) : Prop :=
  f.closure < m.frames.next

/-- The value with which a statement returns, if it does, has been made. -/
def Flow.Made (m : Machine) : Flow → Prop
  | .next => True
  | .returned value _ => value.Made m

/-- What a call calls has been made. -/
def Eval.Callable.Made (m : Machine) : Eval.Callable → Prop
  | .native _ => True
  | .function f => f.Made m
  | .construct c => c < m.classes.size

namespace Machine

/-- Nothing refers to what has not been made, and links lead to what is older. -/
structure Sound (m : Machine) : Prop where
  current : m.current < m.frames.next
  links : m.frames.Descends
  bound : ∀ {f : FrameId} {x : String} {v : Value}, m.frames.here? f x = some v → v.Made m
  functions : ∀ {i : Nat} {f : Function}, m.functions[i]? = some f → f.Made m
  inherits : m.Inherits
  methods : ∀ {c : Nat} {info : Class} {x : String} {f : Function}, m.classes[c]? = some info →
    info.methods.get? x = some f → f.Made m
  ofClass : ∀ {i : Nat} {o : Instance}, m.instances[i]? = some o → o.ofClass < m.classes.size
  fields : ∀ {i : Nat} {o : Instance} {x : String} {v : Value}, m.instances[i]? = some o →
    o.fields.get? x = some v → v.Made m

/-- Everything that has been made is still there. -/
structure Holds (m m' : Machine) : Prop where
  frames : m.frames.next ≤ m'.frames.next
  functions : m.functions.size ≤ m'.functions.size
  classes : m.classes.size ≤ m'.classes.size
  instances : m.instances.size ≤ m'.instances.size

/-- What a run leaves in place. -/
structure Keeps (names : List String) (m m' : Machine) : Prop extends Holds m m' where
  current : m'.current = m.current
  links : ∀ {f : FrameId}, f < m.frames.next → m'.frames.enclosing? f = m.frames.enclosing? f
  still : ∀ {f : FrameId} {x : String}, (m.frames.here? f x).isSome → (m'.frames.here? f x).isSome
  new : ∀ {f : FrameId} {x : String}, f < m.frames.next → (m'.frames.here? f x).isSome →
    (m.frames.here? f x).isSome ∨ (f = m.current ∧ x ∈ names)

end Machine

section Holds

variable {m m' m'' : Machine}

theorem Value.Made.mono {v : Value} (h : v.Made m) (hm : m.Holds m') : v.Made m' := by
  cases v with
  | functionRef f => exact Nat.lt_of_lt_of_le h hm.functions
  | classRef c => exact Nat.lt_of_lt_of_le h hm.classes
  | instanceRef i => exact Nat.lt_of_lt_of_le h hm.instances
  | _ => trivial

theorem Function.Made.mono {f : Function} (h : f.Made m) (hm : m.Holds m') : f.Made m' :=
  Nat.lt_of_lt_of_le h hm.frames

theorem Machine.Holds.refl (m : Machine) : m.Holds m :=
  ⟨Nat.le_refl _, Nat.le_refl _, Nat.le_refl _, Nat.le_refl _⟩

theorem Machine.Holds.trans (h : m.Holds m') (h' : m'.Holds m'') : m.Holds m'' :=
  ⟨Nat.le_trans h.frames h'.frames, Nat.le_trans h.functions h'.functions,
    Nat.le_trans h.classes h'.classes, Nat.le_trans h.instances h'.instances⟩

theorem Value.nil_made : Value.nil.Made m :=
  trivial

/-- Literals and operators make no references. -/
theorem Literal.made (l : Literal) : l.value.Made m := by
  cases l <;> trivial

theorem Value.unary_made {operator : Token} {right v : Value}
    (h : Value.unary operator right = .ok v) : v.Made m := by
  unfold Value.unary at h
  split at h
  · split at h <;> cases h
    trivial
  · cases h
    trivial
  · cases h

theorem Value.arithmetic_made {operator : Token} {a b : Float} {v : Value}
    (h : Value.arithmetic operator a b = .ok v) : v.Made m := by
  unfold Value.arithmetic at h
  split at h <;> cases h <;> trivial

theorem Value.binary_made {operator : Token} {left right v : Value}
    (h : Value.binary operator left right = .ok v) : v.Made m := by
  unfold Value.binary at h
  split at h
  · cases h
    trivial
  · cases h
    trivial
  · split at h <;> cases h <;> trivial
  · split at h
    · exact Value.arithmetic_made h
    · cases h

end Holds

namespace Machine

variable {names names' : List String} {m m' m'' : Machine}

/-! ## What runs leave in place -/

theorem Keeps.refl (names : List String) (m : Machine) : m.Keeps names m :=
  { Holds.refl m with
    current := rfl, links := fun _ => rfl, still := fun h => h, new := fun _ h => .inl h }

theorem Keeps.trans (h : m.Keeps names m') (h' : m'.Keeps names m'') : m.Keeps names m'' where
  toHolds := h.toHolds.trans h'.toHolds
  current := h'.current.trans h.current
  links := fun hf => (h'.links (Nat.lt_of_lt_of_le hf h.frames)).trans (h.links hf)
  still := fun hx => h'.still (h.still hx)
  new := by
    intro f x hf hx
    rcases h'.new (Nat.lt_of_lt_of_le hf h.frames) hx with hx | ⟨hf', hx⟩
    · exact h.new hf hx
    · exact .inr ⟨hf'.trans h.current, hx⟩

theorem Keeps.mono (h : m.Keeps names m') (hn : ∀ x ∈ names, x ∈ names') : m.Keeps names' m' :=
  { h with new := fun hf hx => (h.new hf hx).imp_right fun hx => ⟨hx.1, hn _ hx.2⟩ }

/-- The same frames and no fewer objects. -/
theorem Keeps.of_frames (h : m.Holds m') (hf : m'.frames = m.frames) (hc : m'.current = m.current) :
    m.Keeps [] m' :=
  { h with
    current := hc
    links := fun _ => by rw [hf]
    still := fun hx => by rwa [hf]
    new := fun _ hx => .inl (by rwa [hf] at hx) }

/-- A definition adds at most a name to its frame. -/
theorem Keeps.define (m : Machine) (x : String) (v : Value) :
    m.Keeps [x] { m with frames := m.frames.define m.current x v } where
  toHolds := ⟨Nat.le_of_eq (Frames.next_define ..).symm, Nat.le_refl _, Nat.le_refl _,
    Nat.le_refl _⟩
  current := rfl
  links := fun _ => Frames.enclosing?_define ..
  still := Frames.isSome_here?_define _ _ _ _
  new := by
    intro f y _ hy
    rw [Frames.here?_define] at hy
    split at hy
    · rename_i hall
      exact .inr ⟨hall.1, hall.2.1 ▸ List.mem_singleton_self _⟩
    · exact .inl hy

/-- A new value for a bound name adds nothing. -/
theorem Keeps.redefine {f : FrameId} {x : String} (h : (m.frames.here? f x).isSome) (v : Value) :
    m.Keeps [] { m with frames := m.frames.define f x v } where
  toHolds := ⟨Nat.le_of_eq (Frames.next_define ..).symm, Nat.le_refl _, Nat.le_refl _,
    Nat.le_refl _⟩
  current := rfl
  links := fun _ => Frames.enclosing?_define ..
  still := Frames.isSome_here?_define _ _ _ _
  new := by
    intro g y _ hy
    rw [Frames.here?_define] at hy
    split at hy
    · rename_i hall
      rw [hall.1, hall.2.1]
      exact .inl h
    · exact .inl hy

/-! ## Single changes of a sound machine -/

theorem Sound.define (h : m.Sound) {f : FrameId} {x : String} {v : Value} (hv : v.Made m) :
    Sound { m with frames := m.frames.define f x v } := by
  have hholds : m.Holds { m with frames := m.frames.define f x v } :=
    ⟨Nat.le_of_eq (Frames.next_define ..).symm, Nat.le_refl _, Nat.le_refl _, Nat.le_refl _⟩
  refine { h with current := ?_, links := ?_, bound := ?_, functions := ?_, methods := ?_ }
  · exact Nat.lt_of_lt_of_le h.current hholds.frames
  · intro g outer hg
    rw [Frames.enclosing?_define] at hg
    exact h.links g outer hg
  · intro g y w hw
    rw [Frames.here?_define] at hw
    split at hw
    · cases hw
      exact hv
    · exact h.bound hw
  · exact fun hf => (h.functions hf).mono hholds
  · exact fun hc hf => (h.methods hc hf).mono hholds

theorem Sound.newFunction (h : m.Sound) {f : Function} (hf : f.Made m) :
    Sound { m with functions := m.functions.push f } := by
  have hholds : m.Holds { m with functions := m.functions.push f } :=
    ⟨Nat.le_refl _, by simp, Nat.le_refl _, Nat.le_refl _⟩
  refine { h with bound := ?_, functions := ?_, fields := ?_ }
  · exact fun hv => (h.bound hv).mono hholds
  · intro i g hg
    rw [Array.getElem?_push] at hg
    split at hg
    · cases hg
      exact hf
    · exact h.functions hg
  · exact fun ho hv => (h.fields ho hv).mono hholds

theorem Sound.newClass (h : m.Sound) {info : Class}
    (hs : ∀ above, info.superclass = some above → above < m.classes.size)
    (hm : ∀ x f, info.methods.get? x = some f → f.Made m) :
    Sound { m with classes := m.classes.push info } := by
  have hholds : m.Holds { m with classes := m.classes.push info } :=
    ⟨Nat.le_refl _, Nat.le_refl _, by simp, Nat.le_refl _⟩
  refine { h with bound := ?_, inherits := ?_, methods := ?_, ofClass := ?_, fields := ?_ }
  · exact fun hv => (h.bound hv).mono hholds
  · intro c info' above hc habove
    rw [Array.getElem?_push] at hc
    split at hc
    · rename_i hlast
      cases hc
      exact hlast ▸ hs above habove
    · exact h.inherits c info' above hc habove
  · intro c info' x f hc hf
    rw [Array.getElem?_push] at hc
    split at hc
    · cases hc
      exact hm x f hf
    · exact h.methods hc hf
  · exact fun ho => Nat.lt_of_lt_of_le (h.ofClass ho) hholds.classes
  · exact fun ho hv => (h.fields ho hv).mono hholds

theorem Sound.newInstance (h : m.Sound) {c : ClassId} (hc : c < m.classes.size) :
    Sound { m with instances := m.instances.push ⟨c, .empty⟩ } := by
  have hholds : m.Holds { m with instances := m.instances.push ⟨c, .empty⟩ } :=
    ⟨Nat.le_refl _, Nat.le_refl _, Nat.le_refl _, by simp⟩
  refine { h with bound := ?_, ofClass := ?_, fields := ?_ }
  · exact fun hv => (h.bound hv).mono hholds
  · intro i o ho
    rw [Array.getElem?_push] at ho
    split at ho
    · cases ho
      exact hc
    · exact h.ofClass ho
  · intro i o x v ho hv
    rw [Array.getElem?_push] at ho
    split at ho
    · cases ho
      rw [Bindings.get?_empty] at hv
      cases hv
    · exact (h.fields ho hv).mono hholds

theorem Sound.setField (h : m.Sound) (i : InstanceId) (name : String) {v : Value}
    (hv : v.Made m) : Sound { m with
      instances := m.instances.modify i fun o => { o with fields := o.fields.insert name v } } := by
  have hholds : m.Holds { m with
      instances := m.instances.modify i fun o => { o with fields := o.fields.insert name v } } :=
    ⟨Nat.le_refl _, Nat.le_refl _, Nat.le_refl _, by simp⟩
  refine { h with bound := ?_, ofClass := ?_, fields := ?_ }
  · exact fun hw => (h.bound hw).mono hholds
  · intro j o ho
    rw [Array.getElem?_modify] at ho
    split at ho
    · obtain ⟨o', ho', rfl⟩ := Option.map_eq_some_iff.1 ho
      have hclass : o'.ofClass < m.classes.size := h.ofClass ho'
      exact hclass
    · exact h.ofClass ho
  · intro j o x w ho hw
    rw [Array.getElem?_modify] at ho
    split at ho
    · obtain ⟨o', ho', rfl⟩ := Option.map_eq_some_iff.1 ho
      rw [Bindings.get?_insert] at hw
      split at hw
      · cases hw
        exact hv.mono hholds
      · exact (h.fields ho' hw).mono hholds
    · exact (h.fields ho hw).mono hholds

/-- Any frame may become current. -/
theorem Sound.enter (h : m.Sound) {f : FrameId} (hf : f < m.frames.next) :
    Sound { m with current := f } :=
  { h with current := hf }

theorem Sound.push (h : m.Sound) {f : FrameId} (hf : f < m.frames.next) :
    Sound { m with frames := m.frames.push (some f) } := by
  have hholds : m.Holds { m with frames := m.frames.push (some f) } :=
    ⟨by simp, Nat.le_refl _, Nat.le_refl _, Nat.le_refl _⟩
  refine { h with current := ?_, links := ?_, bound := ?_, functions := ?_, methods := ?_ }
  · exact Nat.lt_of_lt_of_le h.current hholds.frames
  · intro g outer hg
    rw [Frames.enclosing?_push] at hg
    split at hg
    · rename_i hlast
      cases hg
      exact hlast ▸ hf
    · exact h.links g outer hg
  · intro g y w hw
    rw [Frames.here?_push] at hw
    exact h.bound hw
  · exact fun hg => (h.functions hg).mono hholds
  · exact fun hc hg => (h.methods hc hg).mono hholds

theorem Keeps.push (m : Machine) (enclosing : Option FrameId) :
    m.Keeps [] { m with frames := m.frames.push enclosing } where
  toHolds := ⟨by simp, Nat.le_refl _, Nat.le_refl _, Nat.le_refl _⟩
  current := rfl
  links := by
    intro f hf
    rw [Frames.enclosing?_push, if_neg (Nat.ne_of_lt hf)]
  still := fun hx => by rwa [Frames.here?_push]
  new := fun _ hx => .inl (by rwa [Frames.here?_push] at hx)

/-- Definitions in a frame that is newer than all of `m`. -/
theorem Keeps.defineNew (h : m.Keeps [] m') {f : FrameId} (hf : m.frames.next ≤ f) (x : String)
    (v : Value) : m.Keeps [] { m' with frames := m'.frames.define f x v } where
  toHolds := ⟨by rw [Frames.next_define]; exact h.frames, h.functions, h.classes, h.instances⟩
  current := h.current
  links := by
    intro g hg
    rw [Frames.enclosing?_define]
    exact h.links hg
  still := fun hx => Frames.isSome_here?_define _ _ _ _ (h.still hx)
  new := by
    intro g y hg hy
    have hne : g ≠ f := Nat.ne_of_lt (Nat.lt_of_lt_of_le hg hf)
    rw [Frames.here?_define_ne _ _ _ _ (fun hall => hne hall.1)] at hy
    exact h.new hg hy

/-- What a run in a new frame adds to that frame is nothing to the frames before. -/
theorem Keeps.trans_new (h : m.Keeps [] m')
    (h' : Keeps names { m' with current := m.frames.next } m'') :
    m.Keeps [] { m'' with current := m.current } where
  toHolds := ⟨Nat.le_trans h.frames h'.frames, Nat.le_trans h.functions h'.functions,
    Nat.le_trans h.classes h'.classes, Nat.le_trans h.instances h'.instances⟩
  current := rfl
  links := fun hf => (h'.links (Nat.lt_of_lt_of_le hf h.frames)).trans (h.links hf)
  still := fun hx => h'.still (h.still hx)
  new := by
    intro f x hf hx
    rcases h'.new (Nat.lt_of_lt_of_le hf h.frames) hx with hx | ⟨rfl, -⟩
    · exact h.new hf hx
    · exact absurd hf (Nat.lt_irrefl _)

end Machine

/-! ## Results of runs -/

theorem Eval.bind_assoc {α β γ : Type} (x : Eval α) (f : α → Eval β) (g : β → Eval γ) :
    (x >>= f) >>= g = x >>= fun a => f a >>= g := by
  funext m
  show Eval.bind (Eval.bind x f) g m = Eval.bind x (fun a => Eval.bind (f a) g) m
  unfold Eval.bind
  cases x m <;> rfl

theorem Eval.bind_of_ok {α β : Type} {x : Eval α} {f : α → Eval β} {m m' : Machine} {a : α}
    (h : x m = .ok a m') : (x >>= f) m = f a m' := by
  show Eval.bind x f m = _
  unfold Eval.bind
  rw [h]

theorem Eval.bind_of_error {α β : Type} {x : Eval α} {f : α → Eval β} {m m' : Machine}
    {e : RuntimeError} (h : x m = .error e m') : (x >>= f) m = .error e m' := by
  show Eval.bind x f m = _
  unfold Eval.bind
  rw [h]

theorem Eval.bind_of_outOfFuel {α β : Type} {x : Eval α} {f : α → Eval β} {m : Machine}
    (h : x m = .outOfFuel) : (x >>= f) m = .outOfFuel := by
  show Eval.bind x f m = _
  unfold Eval.bind
  rw [h]

/-- Where one run after another ends well, both do. -/
theorem Eval.bind_eq_ok {α β : Type} {x : Eval α} {f : α → Eval β} {m m'' : Machine} {b : β}
    (h : (x >>= f) m = .ok b m'') : ∃ a m', x m = .ok a m' ∧ f a m' = .ok b m'' := by
  cases hx : x m with
  | ok a m' => exact ⟨a, m', rfl, (bind_of_ok hx).symm.trans h⟩
  | error e m' =>
    rw [bind_of_error hx] at h
    cases h
  | outOfFuel =>
    rw [bind_of_outOfFuel hx] at h
    cases h

/-- A run that ends leaves a sound machine and keeps what was there; its value has the property
`Q`. -/
inductive Ends {α : Type} (names : List String) (m : Machine) (Q : α → Machine → Prop) :
    Result α → Prop
  | ok {a : α} {m' : Machine} (hk : m.Keeps names m') (hs : m'.Sound) (hq : Q a m') :
      Ends names m Q (.ok a m')
  | error {e : RuntimeError} {m' : Machine} (hk : m.Keeps names m') (hs : m'.Sound) :
      Ends names m Q (.error e m')
  | outOfFuel : Ends names m Q .outOfFuel

namespace Ends

variable {α β : Type} {names names' : List String} {m m' : Machine}
variable {Q : α → Machine → Prop} {Q' : β → Machine → Prop} {r : Result α}

theorem after (hk : m.Keeps names m') (h : Ends names m' Q r) : Ends names m Q r := by
  cases h with
  | ok hk' hs hq => exact .ok (hk.trans hk') hs hq
  | error hk' hs => exact .error (hk.trans hk') hs
  | outOfFuel => exact .outOfFuel

theorem mono (h : Ends names m Q r) (hn : ∀ x ∈ names, x ∈ names') : Ends names' m Q r := by
  cases h with
  | ok hk hs hq => exact .ok (hk.mono hn) hs hq
  | error hk hs => exact .error (hk.mono hn) hs
  | outOfFuel => exact .outOfFuel

theorem weaken (h : Ends [] m Q r) : Ends names m Q r :=
  h.mono nofun

/-- One run after another. -/
theorem bind {x : Eval α} {f : α → Eval β} (h : Ends names m Q (x m))
    (hf : ∀ {a m'}, m.Keeps names m' → m'.Sound → Q a m' → Ends names m' Q' (f a m')) :
    Ends names m Q' ((x >>= f) m) := by
  show Ends names m Q' (Eval.bind x f m)
  unfold Eval.bind
  generalize x m = r at h ⊢
  cases h with
  | ok hk hs hq => exact (hf hk hs hq).after hk
  | error hk hs => exact .error hk hs
  | outOfFuel => exact .outOfFuel

theorem pure {a : α} (hs : m.Sound) (hq : Q a m) : Ends names m Q ((pure a : Eval α) m) :=
  .ok (.refl ..) hs hq

theorem currentFrame {f : FrameId → Eval β} (h : Ends names m Q' (f m.current m)) :
    Ends names m Q' ((Eval.currentFrame >>= f) m) :=
  h

theorem fault (hs : m.Sound) (token : Token) (cause : RuntimeCause) :
    Ends names m Q (Eval.fault token cause m) :=
  .error (.refl ..) hs

theorem ofExcept (hs : m.Sound) {result : Except RuntimeError α}
    (hq : ∀ {a}, result = .ok a → Q a m) : Ends names m Q (Eval.ofExcept result m) := by
  cases result with
  | ok a => exact .ok (.refl ..) hs (hq rfl)
  | error e => exact .error (.refl ..) hs

end Ends

/-! ## Operations -/

namespace Machine.Sound

variable {m : Machine}

theorem here_made (h : m.Sound) (f : FrameId) (x : String) :
    ((m.frames.here? f x).getD .nil).Made m := by
  cases hv : m.frames.here? f x with
  | none => trivial
  | some v => exact h.bound hv

theorem getAt_made (h : m.Sound) {f : FrameId} {d : Nat} {x : String} {v : Value}
    (hv : m.frames.getAt f d x = .ok v) : v.Made m := by
  unfold Frames.getAt at hv
  split at hv
  · cases hv
  · split at hv
    · cases hv
    · rename_i hhere
      cases hv
      exact h.bound hhere

theorem get_made (h : m.Sound) {f : FrameId} {x : String} {v : Value}
    (hv : m.frames.get? f x = some v) : v.Made m := by
  obtain ⟨path, hp⟩ := h.links.exists_path f
  rw [hp.get? h.links] at hv
  obtain ⟨g, -, hg⟩ := List.exists_of_findSome?_eq_some hv
  exact h.bound hg

theorem readVariable (h : m.Sound) (name : Token) (depth : Option Nat) :
    Ends [] m (fun v m' => v.Made m') (Eval.readVariable name depth m) := by
  unfold Eval.readVariable
  cases depth with
  | some d =>
    dsimp only
    cases hv : m.frames.getAt m.current d name.lexeme with
    | ok v => exact .ok (.refl ..) h (h.getAt_made hv)
    | error e => exact .error (.refl ..) h
  | none =>
    dsimp only
    cases hv : m.frames.get? Machine.globalFrame name.lexeme with
    | some v => exact .ok (.refl ..) h (h.get_made hv)
    | none => exact .error (.refl ..) h

/-- A new value for the nearest variable of a name. -/
theorem assign? (h : m.Sound) {f : FrameId} {x : String} {v : Value} {frames : Frames Value}
    (hv : v.Made m) (ha : m.frames.assign? f x v = some frames) :
    m.Keeps [] { m with frames } ∧ Sound { m with frames } := by
  obtain ⟨path, hp⟩ := h.links.exists_path f
  rw [hp.assign? h.links] at ha
  obtain ⟨g, hg, rfl⟩ := Option.map_eq_some_iff.1 ha
  have hbound : (m.frames.here? g x).isSome := by simpa using List.find?_some hg
  exact ⟨.redefine hbound v, h.define hv⟩

theorem assignAt (h : m.Sound) {f : FrameId} {d : Nat} {x : String} {v : Value}
    {frames : Frames Value} (hv : v.Made m) (ha : m.frames.assignAt f d x v = .ok frames) :
    m.Keeps [] { m with frames } ∧ Sound { m with frames } := by
  unfold Frames.assignAt at ha
  split at ha
  · cases ha
  · split at ha
    · cases ha
    · rename_i hold
      cases ha
      exact ⟨.redefine (Option.isSome_of_eq_some hold) v, h.define hv⟩

theorem writeVariable (h : m.Sound) (name : Token) (depth : Option Nat) {v : Value}
    (hv : v.Made m) : Ends [] m (fun _ _ => True) (Eval.writeVariable name depth v m) := by
  unfold Eval.writeVariable
  cases depth with
  | some d =>
    dsimp only
    cases ha : m.frames.assignAt m.current d name.lexeme v with
    | ok frames => exact .ok (h.assignAt hv ha).1 (h.assignAt hv ha).2 trivial
    | error e => exact .error (.refl ..) h
  | none =>
    dsimp only
    cases ha : m.frames.assign? Machine.globalFrame name.lexeme v with
    | some frames => exact .ok (h.assign? hv ha).1 (h.assign? hv ha).2 trivial
    | none => exact .error (.refl ..) h

theorem defineHere (h : m.Sound) (x : String) {v : Value} (hv : v.Made m) :
    Ends [x] m (fun _ _ => True) (Eval.define x v m) :=
  .ok (.define m x v) (h.define hv) trivial

theorem assignVisible (h : m.Sound) (name : Token) {v : Value} (hv : v.Made m) :
    Ends [] m (fun _ _ => True) (Eval.assignVisible name v m) := by
  unfold Eval.assignVisible
  cases ha : m.frames.assign? m.current name.lexeme v with
  | some frames => exact .ok (h.assign? hv ha).1 (h.assign? hv ha).2 trivial
  | none => exact .error (.refl ..) h

/-- Definitions in a frame that is newer than all of `m`. -/
private theorem defineAll {bindings : List (String × Value)} {f : FrameId}
    (hf : m.frames.next ≤ f) : ∀ {m' : Machine}, m.Keeps [] m' → m'.Sound →
      (∀ b ∈ bindings, b.2.Made m) →
      m.Keeps [] { m' with
        frames := bindings.foldl (fun fs b => fs.define f b.1 b.2) m'.frames } ∧
      Sound { m' with
        frames := bindings.foldl (fun fs b => fs.define f b.1 b.2) m'.frames } := by
  induction bindings with
  | nil => exact fun hk hs _ => ⟨hk, hs⟩
  | cons b bindings ih =>
    intro m' hk hs hb
    have hmade : b.2.Made m' := (hb b (List.mem_cons_self ..)).mono hk.toHolds
    exact ih (hk.defineNew hf b.1 b.2) (hs.define hmade)
      fun b' hb' => hb b' (List.mem_cons_of_mem _ hb')

/-- A new frame is the next one. -/
theorem newFrame (h : m.Sound) {enclosing : FrameId} (he : enclosing < m.frames.next)
    {bindings : List (String × Value)} (hb : ∀ b ∈ bindings, b.2.Made m) :
    Ends [] m (fun f m' => f = m.frames.next ∧ f < m'.frames.next)
      (Eval.newFrame enclosing bindings m) := by
  obtain ⟨hk, hs⟩ := defineAll (Nat.le_refl m.frames.next) (Keeps.push m (some enclosing))
    (h.push he) hb
  refine .ok hk hs ⟨rfl, ?_⟩
  show m.frames.next < (bindings.foldl _ (m.frames.push (some enclosing))).next
  rw [Frames.next_foldl_define, Frames.next_push]
  exact Nat.lt_succ_self _

/-- A run in a new frame, which is left again at the end, adds nothing to the frames before. -/
theorem inFrame {α : Type} {Q : α → Machine → Prop} {names : List String} (h : m.Sound)
    {enclosing : FrameId} (he : enclosing < m.frames.next) {bindings : List (String × Value)}
    (hb : ∀ b ∈ bindings, b.2.Made m) {x : Eval α}
    (hx : ∀ {m'}, m.Holds m' → Sound m' → Ends names m' Q (x m'))
    (hQ : ∀ {a m' g}, Q a m' → Q a { m' with current := g }) :
    Ends [] m Q ((Eval.newFrame enclosing bindings >>= fun frame => Eval.within frame x) m) := by
  obtain ⟨hk, hs⟩ := defineAll (Nat.le_refl m.frames.next) (Keeps.push m (some enclosing))
    (h.push he) hb
  have hlt : m.frames.next <
      (bindings.foldl (fun fs b => fs.define m.frames.next b.1 b.2)
        (m.frames.push (some enclosing))).next := by
    rw [Frames.next_foldl_define, Frames.next_push]
    exact Nat.lt_succ_self _
  have hrun : Ends names { m with
      frames := bindings.foldl (fun fs b => fs.define m.frames.next b.1 b.2)
        (m.frames.push (some enclosing))
      current := m.frames.next } Q (x _) :=
    hx ⟨hk.frames, hk.functions, hk.classes, hk.instances⟩ (hs.enter hlt)
  show Ends [] m Q (Eval.within m.frames.next x _)
  unfold Eval.within
  dsimp only at hrun ⊢
  generalize x _ = r at hrun ⊢
  cases hrun with
  | ok hk' hs' hq =>
    have hcurrent : m.current < _ := Nat.lt_of_lt_of_le h.current (hk.trans_new hk').frames
    exact .ok (hk.trans_new hk') (hs'.enter hcurrent) (hQ hq)
  | error hk' hs' =>
    have hcurrent : m.current < _ := Nat.lt_of_lt_of_le h.current (hk.trans_new hk').frames
    exact .error (hk.trans_new hk') (hs'.enter hcurrent)
  | outOfFuel => exact .outOfFuel

/-! ## Objects and calls -/

theorem findMethod_made (h : m.Sound) {c : ClassId} {x : String} {f : Function}
    (hf : m.findMethod? c x = some f) : f.Made m := by
  by_cases hc : c < m.classes.size
  · obtain ⟨line, hl⟩ := h.inherits.exists_lineage c hc
    rw [hl.findMethod? h.inherits] at hf
    obtain ⟨c', -, hown⟩ := List.exists_of_findSome?_eq_some hf
    obtain ⟨info, hinfo, hm⟩ := Option.bind_eq_some_iff.1 hown
    exact h.methods hinfo hm
  · rw [Machine.findMethod?, Array.getElem?_eq_none (Nat.le_of_not_lt hc)] at hf
    cases hf

theorem makeFunction (h : m.Sound) {f : Function} (hf : f.Made m) :
    Ends [] m (fun v m' => v.Made m') (Eval.newFunction f m) := by
  have hmade : m.functions.size < (m.functions.push f).size := by simp
  exact .ok (.of_frames ⟨Nat.le_refl _, Nat.le_of_lt hmade, Nat.le_refl _, Nat.le_refl _⟩ rfl rfl)
    (h.newFunction hf) hmade

theorem makeClass (h : m.Sound) {info : Class}
    (hs : ∀ above, info.superclass = some above → above < m.classes.size)
    (hm : ∀ x f, info.methods.get? x = some f → f.Made m) :
    Ends [] m (fun v m' => v.Made m') (Eval.newClass info m) := by
  have hmade : m.classes.size < (m.classes.push info).size := by simp
  exact .ok (.of_frames ⟨Nat.le_refl _, Nat.le_refl _, Nat.le_of_lt hmade, Nat.le_refl _⟩ rfl rfl)
    (h.newClass hs hm) hmade

theorem makeInstance (h : m.Sound) {c : ClassId} (hc : c < m.classes.size) :
    Ends [] m (fun v m' => v.Made m') (Eval.newInstance c m) := by
  have hmade : m.instances.size < (m.instances.push ⟨c, .empty⟩).size := by simp
  exact .ok (.of_frames ⟨Nat.le_refl _, Nat.le_refl _, Nat.le_refl _, Nat.le_of_lt hmade⟩ rfl rfl)
    (h.newInstance hc) hmade

theorem bindMethod (h : m.Sound) {method : Function} (hm : method.Made m) {this : Value}
    (hthis : this.Made m) : Ends [] m (fun f m' => f.Made m') (Eval.bindMethod method this m) := by
  unfold Eval.bindMethod
  have hb : ∀ b ∈ [("this", this)], b.2.Made m := by
    intro b hb
    rwa [List.mem_singleton.1 hb]
  refine (h.newFrame hm hb).bind fun _ hs hframe => ?_
  exact .pure hs hframe.2

theorem boundMethod (h : m.Sound) (c : ClassId) (name : Token) {this : Value}
    (hthis : this.Made m) :
    Ends [] m (fun v m' => v.Made m') (Eval.boundMethod c name this m) := by
  unfold Eval.boundMethod
  cases hf : m.findMethod? c name.lexeme with
  | none => exact .error (.refl ..) h
  | some method =>
    refine (h.bindMethod (h.findMethod_made hf) hthis).bind fun _ hs hbound => ?_
    exact hs.makeFunction hbound

theorem getProperty (h : m.Sound) {i : InstanceId} (hi : i < m.instances.size) (name : Token) :
    Ends [] m (fun v m' => v.Made m') (Eval.getProperty i name m) := by
  unfold Eval.getProperty
  cases ho : m.instances[i]? with
  | none => exact .error (.refl ..) h
  | some o =>
    dsimp only
    cases hv : o.fields.get? name.lexeme with
    | some v => exact .ok (.refl ..) h (h.fields ho hv)
    | none => exact h.boundMethod _ name hi

theorem changeField (h : m.Sound) (i : InstanceId) (name : String) {v : Value} (hv : v.Made m) :
    Ends [] m (fun _ _ => True) (Eval.setField i name v m) :=
  .ok (.of_frames ⟨Nat.le_refl _, Nat.le_refl _, Nat.le_refl _, by simp⟩ rfl rfl)
    (h.setField i name hv) trivial

theorem superMethod (h : m.Sound) (keyword method : Token) (depth : Option Nat) :
    Ends [] m (fun v m' => v.Made m') (Eval.superMethod keyword method depth m) := by
  unfold Eval.superMethod
  split
  · exact .error (.refl ..) h
  · split
    · split
      · exact .error (.refl ..) h
      · split
        · exact h.boundMethod _ method (h.getAt_made ‹_›)
        · exact .error (.refl ..) h
    · exact .error (.refl ..) h

theorem checkCall (h : m.Sound) {callee : Value} (hc : callee.Made m) (paren : Token)
    (count : Nat) : Ends [] m (fun c m' => c.Made m') (Eval.checkCall callee paren count m) := by
  unfold Eval.checkCall
  split
  · exact .error (.refl ..) h
  · rename_i f arity hcallable
    split
    · refine .ok (.refl ..) h ?_
      cases callee with
      | native f => cases hcallable; trivial
      | functionRef i =>
        obtain ⟨f, hf, hfa⟩ := Option.map_eq_some_iff.1 hcallable
        cases hfa
        exact h.functions hf
      | classRef c => cases hcallable; exact hc
      | _ => cases hcallable
    · exact .error (.refl ..) h

/-- The output and the clock are no matter. -/
theorem outside (h : m.Sound) (output : Output) (clock : Clock) :
    m.Keeps [] { m with output, clock } ∧ Sound { m with output, clock } :=
  ⟨.of_frames ⟨Nat.le_refl _, Nat.le_refl _, Nat.le_refl _, Nat.le_refl _⟩ rfl rfl, { h with }⟩

theorem callNative (h : m.Sound) (f : Native) :
    Ends [] m (fun v m' => v.Made m') (Eval.callNative f m) := by
  cases f with
  | clock =>
    obtain ⟨hk, hm⟩ := h.outside m.output m.clock.tick
    exact .ok hk hm trivial

theorem initializerOf (h : m.Sound) (c : ClassId) :
    Ends [] m (fun f m' => ∀ g, f = some g → g.Made m') (Eval.initializerOf c m) :=
  .ok (.refl ..) h fun _ hg => h.findMethod_made hg

theorem boundInstance (h : m.Sound) (f : Function) :
    Ends [] m (fun v m' => v.Made m') (Eval.boundInstance f m) :=
  .ok (.refl ..) h (h.here_made ..)

theorem printLine (h : m.Sound) (keyword : Token) (v : Value) :
    Ends [] m (fun _ _ => True) (Eval.printLine keyword v m) := by
  unfold Eval.printLine
  split
  · obtain ⟨hk, hm⟩ := h.outside _ m.clock
    exact .ok hk hm trivial
  · obtain ⟨hk, hm⟩ := h.outside _ m.clock
    exact .error hk hm

end Machine.Sound

/-- The methods of a class are closed over the frame in which it is declared. -/
theorem methodTable_made {m : Machine} {closure : FrameId} (h : closure < m.frames.next)
    (methods : List FunctionDecl) :
    ∀ x f, (methodTable closure methods).get? x = some f → f.Made m := by
  intro x f hf
  rw [methodTable_get?] at hf
  obtain ⟨d, -, rfl⟩ := Option.map_eq_some_iff.1 hf
  exact h

end Lox
