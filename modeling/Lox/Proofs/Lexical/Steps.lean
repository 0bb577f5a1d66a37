import Lox.Proofs.Lexical.Agree
import Lox.Proofs.Run.Causes

/-!
# Single steps of the machine and the world

Each operation of the evaluators, run from states that agree, ends in states that agree, with
related results (`Tracks`). The first part is about the states after one change, the second about
the operations.
-/

set_option autoImplicit false

namespace Lox.Lexical

/-! ## One change of the states -/

/-- A definition in a frame adds at most a name there. -/
theorem Grows.define {cells cells' : Array Cell}
    (hcells : ∀ (l : Nat) (c : Cell), cells[l]? = some c → cells'[l]? = some c)
    (fs : Frames Value) (f : FrameId) (x : String) (v : Value) :
    Grows (some f) cells fs cells' (fs.define f x v) := by
  refine ⟨hcells, fun g g' hg => ?_, ?_,
    fun g y hy => Frames.isSome_here?_define _ _ _ _ hy, fun g y _ hy => ?_⟩
  · rwa [Frames.enclosing?_define]
  · exact Nat.le_of_eq (Frames.next_define ..).symm
  · by_cases hgf : f = g
    · exact .inr (congrArg some hgf)
    · rw [Frames.here?_define_ne _ _ _ _ (fun hall => hgf hall.1.symm)] at hy
      exact .inl hy

/-- A new value for a name that its frame binds adds nothing. -/
theorem Grows.redefine {cells : Array Cell} {own : Option FrameId} {fs : Frames Value}
    {g : FrameId} {x : String} {old : Value} (hold : fs.here? g x = some old) (v : Value) :
    Grows own cells fs cells (fs.define g x v) := by
  refine ⟨fun l c hl => hl, fun g' g'' hg => ?_, ?_,
    fun g' y hy => Frames.isSome_here?_define _ _ _ _ hy, fun g' y _ hy => .inl ?_⟩
  · rwa [Frames.enclosing?_define]
  · exact Nat.le_of_eq (Frames.next_define ..).symm
  · rw [Frames.here?_define] at hy
    split at hy
    · rename_i hall
      rw [hall.1, hall.2.1, hold]
      rfl
    · exact hy

namespace Agree

variable {cells : Array Cell} {m : Machine} {w : World}

/-- A cell is bound, to the value at its location. -/
theorem bound (h : Agree cells m w) {l : Nat} {g : FrameId} {x : String}
    (hl : cells[l]? = some (g, x)) :
    ∃ v, m.frames.here? g x = some v ∧ w.store[l]? = some v := by
  have hlt : l < w.store.size := by
    rw [h.size]
    exact (Array.getElem?_eq_some_iff.1 hl).1
  have hstore : w.store[l]? = some w.store[l] := Array.getElem?_eq_getElem hlt
  exact ⟨w.store[l], (h.value hl).trans hstore, hstore⟩

theorem isGlobal (h : Agree cells m w) (x : String) :
    m.frames.here? Machine.globalFrame x = w.globals.get? x := by
  rw [Frames.here?_eq, h.globals]
  rfl

theorem globalFrame_lt (h : Agree cells m w) : Machine.globalFrame < m.frames.next := by
  refine Nat.lt_of_not_le fun hle => ?_
  have hnone : m.frames.bindings? Machine.globalFrame = none := by
    rw [Frames.bindings?, Array.getElem?_eq_none hle]
    rfl
  rw [h.globals] at hnone
  cases hnone

/-- A new name in a local frame gets a new location. -/
theorem allocate (h : Agree cells m w) {f : FrameId} {x : String} {v : Value}
    (hf : f ≠ Machine.globalFrame) (hlt : f < m.frames.next)
    (hnew : ∀ l : Nat, cells[l]? ≠ some (f, x)) (hsuper : x = "super" → ∃ c, v = .classRef c) :
    Agree (cells.push (f, x)) { m with frames := m.frames.define f x v }
        { w with store := w.store.push v } ∧
      Grows (some f) cells m.frames (cells.push (f, x)) (m.frames.define f x v) := by
  have hgrows : Grows (some f) cells m.frames (cells.push (f, x)) (m.frames.define f x v) := by
    refine .define (fun l c hl => ?_) m.frames f x v
    rw [Array.getElem?_push, if_neg (Nat.ne_of_lt (Array.getElem?_eq_some_iff.1 hl).1), hl]
  -- a location of the longer store is an old one or the last one
  have hcells : ∀ {l : Nat} {c : Cell}, (cells.push (f, x))[l]? = some c →
      (l = cells.size ∧ c = (f, x)) ∨ (l ≠ cells.size ∧ cells[l]? = some c) := by
    intro l c hl
    rw [Array.getElem?_push] at hl
    split at hl
    · rename_i hlast
      cases hl
      exact .inl ⟨hlast, rfl⟩
    · rename_i hne
      exact .inr ⟨hne, hl⟩
  have hlast : (w.store.push v)[cells.size]? = some v := by
    rw [Array.getElem?_push, if_pos h.size.symm]
  have hold : ∀ {l : Nat}, l ≠ cells.size → (w.store.push v)[l]? = w.store[l]? := by
    intro l hne
    rw [Array.getElem?_push, if_neg (by rw [h.size]; exact hne)]
  refine ⟨?_, hgrows⟩
  constructor
  · show (m.frames.define f x v).bindings? _ = _
    rw [Frames.bindings?_define_ne _ _ _ hf]
    exact h.globals
  · show (m.frames.define f x v).enclosing? _ = _
    rw [Frames.enclosing?_define]
    exact h.root
  · show (w.store.push v).size = _
    rw [Array.size_push, Array.size_push, h.size]
  · intro l g y hl
    rcases hcells hl with ⟨-, hc⟩ | ⟨-, hl⟩
    · cases hc
      exact hf
    · exact h.isLocal hl
  · intro l g y hl
    show (m.frames.define f x v).here? g y = (w.store.push v)[l]?
    rcases hcells hl with ⟨rfl, hc⟩ | ⟨hne, hl'⟩
    · cases hc
      rw [Frames.here?_define_self _ _ _ hlt, hlast]
    · rw [hold hne, ← h.value hl', Frames.here?_define_ne]
      rintro ⟨rfl, rfl⟩
      exact hnew l hl'
  · intro l l' c hl hl'
    rcases hcells hl with ⟨rfl, rfl⟩ | ⟨hne, hl⟩ <;> rcases hcells hl' with ⟨rfl, hc⟩ | ⟨hne', hl'⟩
    · rfl
    · exact absurd hl' (hnew l')
    · subst hc
      exact absurd hl (hnew l)
    · exact h.injective hl hl'
  · intro l g hl
    show ∃ c, (w.store.push v)[l]? = some (.classRef c)
    rcases hcells hl with ⟨rfl, hc⟩ | ⟨hne, hl⟩
    · simp only [Prod.mk.injEq] at hc
      obtain ⟨c, rfl⟩ := hsuper hc.2.symm
      exact ⟨c, hlast⟩
    · rw [hold hne]
      exact h.super hl
  · exact h.functions.mono fun _ _ hf => hf.mono hgrows
  · exact h.classes.mono fun _ _ hc => hc.mono hgrows
  · exact h.instances
  · exact h.output
  · exact h.clock

/-- A name in the global frame. -/
theorem defineGlobal (h : Agree cells m w) (x : String) (v : Value) :
    Agree cells { m with frames := m.frames.define Machine.globalFrame x v }
        { w with globals := w.globals.insert x v } ∧
      Grows (some Machine.globalFrame) cells m.frames cells
        (m.frames.define Machine.globalFrame x v) := by
  have hgrows : Grows (some Machine.globalFrame) cells m.frames cells
      (m.frames.define Machine.globalFrame x v) := .define (fun _ _ hl => hl) _ _ _ _
  refine ⟨{ h with
    globals := ?_, root := ?_, value := ?_, functions := ?_, classes := ?_ }, hgrows⟩
  · show (m.frames.define _ x v).bindings? _ = _
    rw [Frames.bindings?_define, if_pos rfl, h.globals]
    rfl
  · show (m.frames.define _ x v).enclosing? _ = _
    rw [Frames.enclosing?_define]
    exact h.root
  · intro l g y hl
    show (m.frames.define _ x v).here? g y = _
    rw [Frames.here?_define_ne _ _ _ _ (fun hall => h.isLocal hl hall.1)]
    exact h.value hl
  · exact h.functions.mono fun _ _ hf => hf.mono hgrows
  · exact h.classes.mono fun _ _ hc => hc.mono hgrows

/-- A new value for a global variable. -/
theorem assignGlobal {own : Option FrameId} (h : Agree cells m w) {x : String} {old : Value}
    (hold : w.globals.get? x = some old) (v : Value) :
    Agree cells { m with frames := m.frames.define Machine.globalFrame x v }
        { w with globals := w.globals.insert x v } ∧
      Grows own cells m.frames cells (m.frames.define Machine.globalFrame x v) :=
  ⟨(h.defineGlobal x v).1, Grows.redefine ((h.isGlobal x).trans hold) v⟩

/-- A new value for a cell. -/
theorem assign {own : Option FrameId} (h : Agree cells m w) {l : Nat} {g : FrameId} {x : String}
    (hl : cells[l]? = some (g, x)) (hx : x ≠ "super") (v : Value) :
    Agree cells { m with frames := m.frames.define g x v }
        { w with store := w.store.setIfInBounds l v } ∧
      Grows own cells m.frames cells (m.frames.define g x v) := by
  obtain ⟨old, hold, hstore⟩ := h.bound hl
  have hgrows : Grows none cells m.frames cells (m.frames.define g x v) := Grows.redefine hold v
  have hlt : l < w.store.size := (Array.getElem?_eq_some_iff.1 hstore).1
  refine ⟨{ h with
    globals := ?_, root := ?_, size := ?_, value := ?_, super := ?_, functions := ?_,
    classes := ?_ }, hgrows.weaken⟩
  · show (m.frames.define g x v).bindings? _ = _
    rw [Frames.bindings?_define_ne _ _ _ (h.isLocal hl)]
    exact h.globals
  · show (m.frames.define g x v).enclosing? _ = _
    rw [Frames.enclosing?_define]
    exact h.root
  · show (w.store.setIfInBounds l v).size = _
    rw [Array.size_setIfInBounds]
    exact h.size
  · intro l' g' y hl'
    show (m.frames.define g x v).here? g' y = (w.store.setIfInBounds l v)[l']?
    by_cases heq : l = l'
    · subst heq
      rw [hl] at hl'
      cases hl'
      rw [Frames.here?_define_self _ _ _ (Frames.lt_of_here? hold),
        Array.getElem?_setIfInBounds_self_of_lt hlt]
    · rw [Array.getElem?_setIfInBounds_ne heq, Frames.here?_define_ne]
      · exact h.value hl'
      · rintro ⟨rfl, rfl⟩
        exact heq (h.injective hl hl')
  · intro l' g' hl'
    show ∃ c, (w.store.setIfInBounds l v)[l']? = _
    have hne : l ≠ l' := by
      rintro rfl
      rw [hl] at hl'
      cases hl'
      exact hx rfl
    rw [Array.getElem?_setIfInBounds_ne hne]
    exact h.super hl'
  · exact h.functions.mono fun _ _ hf => hf.mono hgrows
  · exact h.classes.mono fun _ _ hc => hc.mono hgrows

/-- A frame that binds nothing yet. -/
theorem push {own : Option FrameId} (h : Agree cells m w) (enclosing : Option FrameId) :
    Agree cells { m with frames := m.frames.push enclosing } w ∧
      Grows own cells m.frames cells (m.frames.push enclosing) := by
  have hlinks : ∀ f g, m.frames.enclosing? f = some g →
      (m.frames.push enclosing).enclosing? f = some g := by
    intro f g hf
    rw [Frames.enclosing?_push, if_neg, hf]
    rintro rfl
    rw [Frames.enclosing?_next] at hf
    cases hf
  have hgrows : Grows none cells m.frames cells (m.frames.push enclosing) := by
    refine ⟨fun l c hl => hl, hlinks, ?_, fun g y hy => ?_, fun g y _ hy => .inl ?_⟩
    · rw [Frames.next_push]
      exact Nat.le_succ _
    · rwa [Frames.here?_push]
    · rwa [Frames.here?_push] at hy
  have hne : Machine.globalFrame ≠ m.frames.next := Nat.ne_of_lt h.globalFrame_lt
  refine ⟨{ h with
    globals := ?_, root := ?_, value := ?_, functions := ?_, classes := ?_ }, hgrows.weaken⟩
  · show (m.frames.push enclosing).bindings? _ = _
    rw [Frames.bindings?_push, if_neg hne]
    exact h.globals
  · show (m.frames.push enclosing).enclosing? _ = _
    rw [Frames.enclosing?_push, if_neg hne]
    exact h.root
  · intro l g y hl
    show (m.frames.push enclosing).here? g y = _
    rw [Frames.here?_push]
    exact h.value hl
  · exact h.functions.mono fun _ _ hf => hf.mono hgrows
  · exact h.classes.mono fun _ _ hc => hc.mono hgrows

end Agree

/-! ## Related runs -/

/-- The runs end alike: both out of fuel, or at the same error, which does not blame the tree, or
with results that are related, and in the last two cases in states that agree. -/
inductive Tracks (own : Option FrameId) (cells : Array Cell) (m : Machine) {α β : Type}
    (R : Array Cell → Machine → α → β → Prop) :
    Result α → Option (Except RuntimeError β × World) → Prop
  | ok {cells' : Array Cell} {m' : Machine} {w' : World} {a : α} {b : β}
      (hr : Reached own cells m cells' m' w') (h : R cells' m' a b) :
      Tracks own cells m R (.ok a m') (some (.ok b, w'))
  | error {cells' : Array Cell} {m' : Machine} {w' : World} {e : RuntimeError}
      (hr : Reached own cells m cells' m' w') (he : e.cause.blamesTree = false) :
      Tracks own cells m R (.error e m') (some (.error e, w'))
  | outOfFuel : Tracks own cells m R .outOfFuel none

/-- The same result. -/
def Same {α : Type} (_ : Array Cell) (_ : Machine) (a b : α) : Prop :=
  a = b

namespace Tracks

variable {own : Option FrameId} {cells cells' : Array Cell} {m m' : Machine} {w w' : World}
variable {α β γ δ : Type} {R : Array Cell → Machine → α → β → Prop}
variable {R' : Array Cell → Machine → γ → δ → Prop}

theorem after {r : Result α} {s : Option (Except RuntimeError β × World)}
    (hr : Reached own cells m cells' m' w') (h : Tracks own cells' m' R r s) :
    Tracks own cells m R r s := by
  cases h with
  | ok hr' h => exact .ok (hr.trans hr') h
  | error hr' he => exact .error (hr.trans hr') he
  | outOfFuel => exact .outOfFuel

theorem imp {S : Array Cell → Machine → α → β → Prop} {r : Result α}
    {s : Option (Except RuntimeError β × World)} (h : Tracks own cells m R r s)
    (hS : ∀ {cells' m' w' a b}, Reached own cells m cells' m' w' → R cells' m' a b →
      S cells' m' a b) : Tracks own cells m S r s := by
  cases h with
  | ok hr h => exact .ok hr (hS hr h)
  | error hr he => exact .error hr he
  | outOfFuel => exact .outOfFuel

theorem weaken {r : Result α} {s : Option (Except RuntimeError β × World)}
    (h : Tracks none cells m R r s) : Tracks own cells m R r s := by
  cases h with
  | ok hr h => exact .ok hr.weaken h
  | error hr he => exact .error hr.weaken he
  | outOfFuel => exact .outOfFuel

/-- One run after another. -/
theorem bind {x : Eval α} {f : α → Eval γ} {y : Run β} {g : β → Run δ}
    (hx : Tracks own cells m R (x m) (y w))
    (hf : ∀ {cells' m' w' a b}, Reached own cells m cells' m' w' → R cells' m' a b →
      Tracks own cells' m' R' (f a m') (g b w')) :
    Tracks own cells m R' ((x >>= f) m) ((y >>= g) w) := by
  show Tracks own cells m R' (Eval.bind x f m) (Run.bind y g w)
  unfold Eval.bind Run.bind
  generalize x m = r at hx ⊢
  generalize y w = s at hx ⊢
  cases hx with
  | ok hr h => exact (hf hr h).after hr
  | error hr he => exact .error hr he
  | outOfFuel => exact .outOfFuel

/-- A run that names nothing in old frames, and another one after it. -/
theorem step {x : Eval α} {f : α → Eval γ} {y : Run β} {g : β → Run δ}
    (hx : Tracks none cells m R (x m) (y w))
    (hf : ∀ {cells' m' w' a b}, Reached none cells m cells' m' w' → R cells' m' a b →
      Tracks own cells' m' R' (f a m') (g b w')) :
    Tracks own cells m R' ((x >>= f) m) ((y >>= g) w) := by
  have hx' : Tracks own cells m
      (fun cells' m' a b => (∃ w', Reached none cells m cells' m' w') ∧ R cells' m' a b)
      (x m) (y w) :=
    (hx.imp fun hr h => ⟨⟨_, hr⟩, h⟩).weaken
  exact hx'.bind fun hr h => by
    obtain ⟨⟨w', hr'⟩, h⟩ := h
    exact hf ⟨hr.agree, hr'.grows, hr.current⟩ h

/-- The world takes its result for another one. -/
theorem relabel {S : Array Cell → Machine → α → δ → Prop} {x : Eval α} {y : Run β} {g : β → Run δ}
    (hx : Tracks none cells m R (x m) (y w))
    (hg : ∀ {cells' m' w' a b}, Reached none cells m cells' m' w' → R cells' m' a b →
      ∃ c, g b w' = some (.ok c, w') ∧ S cells' m' a c) :
    Tracks own cells m S (x m) ((y >>= g) w) := by
  show Tracks own cells m S (x m) (Run.bind y g w)
  unfold Run.bind
  generalize x m = r at hx ⊢
  generalize y w = s at hx ⊢
  cases hx with
  | ok hr h =>
    obtain ⟨c, hc, hS⟩ := hg hr h
    dsimp only
    rw [hc]
    exact .ok hr.weaken hS
  | error hr he => exact .error hr.weaken he
  | outOfFuel => exact .outOfFuel

/-- The world has no need to ask for the current frame. -/
theorem currentFrame {f : FrameId → Eval α} {s : Option (Except RuntimeError β × World)}
    (h : Tracks own cells m R (f m.current m) s) :
    Tracks own cells m R ((Eval.currentFrame >>= f) m) s :=
  h

theorem pure {a : α} {b : β} (h : Agree cells m w) (hR : R cells m a b) :
    Tracks own cells m R ((pure a : Eval α) m) ((pure b : Run β) w) :=
  .ok (.refl h) hR

theorem fault (h : Agree cells m w) (token : Token) {cause : RuntimeCause}
    (hc : cause.blamesTree = false) :
    Tracks own cells m R (Eval.fault token cause m) (Run.fault token cause w) :=
  .error (.refl h) hc

theorem ofExcept (h : Agree cells m w) {result : Except RuntimeError α}
    (he : ∀ {e}, result = .error e → e.cause.blamesTree = false) :
    Tracks own cells m Same (Eval.ofExcept result m) (Run.ofExcept result w) := by
  cases result with
  | ok a => exact .ok (.refl h) rfl
  | error e => exact .error (.refl h) (he rfl)

end Tracks

/-! ## Variables -/

section Variables

variable {own : Option FrameId} {cells : Array Cell} {m : Machine} {w : World} {n : Nest}
variable {visible : Names} {pending : Option String}

/-- A distance of the nest leads to the cell of the name's location, which is bound. -/
theorem Here.bound (h : Here cells m w n visible) {x : String} {d : Nat}
    (hd : n.distance? x = some d) : ∃ g l v, m.frames.ancestor? m.current d = some g ∧
      visible.get? x = some l ∧ cells[l]? = some (g, x) ∧ m.frames.here? g x = some v ∧
      w.store[l]? = some v := by
  obtain ⟨g, l, hg, hl, hc⟩ := h.places.reach hd
  obtain ⟨v, hv, hs⟩ := h.agree.bound hc
  exact ⟨g, l, v, hg, hl, hc, hv, hs⟩

theorem Here.read (h : Here cells m w n visible) (name : Token) :
    Tracks own cells m Same (Eval.readVariable name (n.distance? name.lexeme) m)
      (Lexical.read visible name w) := by
  unfold Eval.readVariable Lexical.read
  cases hd : n.distance? name.lexeme with
  | some d =>
    obtain ⟨g, l, v, hg, hl, -, hv, hs⟩ := h.bound hd
    simp only [Frames.getAt_of_here? hg hv, hl, hs]
    exact .ok (.refl h.agree) rfl
  | none =>
    simp only [Frames.get?_of_root h.agree.root, h.agree.isGlobal, h.places.absent hd]
    cases w.globals.get? name.lexeme with
    | some v => exact .ok (.refl h.agree) rfl
    | none => exact .error (.refl h.agree) rfl

/-- The variable whose initializer is around is not bound yet. -/
def Here.Pending (n : Nest) (pending : Option String) : Prop :=
  ∀ x, pending = some x → n ≠ [] ∧ n.Fresh x

theorem Here.unbound (h : Here cells m w n visible) {x : String} (hn : n ≠ []) (hx : n.Fresh x) :
    m.frames.here? m.current x = none := by
  cases hv : m.frames.here? m.current x with
  | none => rfl
  | some v =>
    cases n with
    | nil => exact absurd rfl hn
    | cons names outer => exact absurd (h.names x (by rw [hv]; rfl) names rfl) (hx names rfl)

theorem Here.write (h : Here cells m w n visible) (hp : Here.Pending n pending) {name : Token}
    (hname : name.IsName) (value : Value) :
    Tracks own cells m Same
      (Eval.writeVariable name (n.target? pending name.lexeme) value m)
      (Lexical.write visible pending name value w) := by
  unfold Eval.writeVariable Lexical.write Nest.target?
  by_cases hpending : pending = some name.lexeme
  · obtain ⟨hn, hfresh⟩ := hp _ hpending
    simp only [if_pos hpending, Frames.assignAt_of_unbound (Frames.ancestor?_zero ..)
      (h.unbound hn hfresh)]
    exact .error (.refl h.agree) rfl
  · simp only [if_neg hpending]
    cases hd : n.distance? name.lexeme with
    | some d =>
      obtain ⟨g, l, v, hg, hl, hc, hv, hs⟩ := h.bound hd
      obtain ⟨hagree, hgrows⟩ := h.agree.assign hc hname.2 value
      simp only [Frames.assignAt_of_here? hg hv, hl]
      exact .ok ⟨hagree, hgrows, rfl⟩ rfl
    | none =>
      simp only [h.places.absent hd]
      cases hv : w.globals.get? name.lexeme with
      | some v =>
        obtain ⟨hagree, hgrows⟩ := h.agree.assignGlobal hv value
        simp only [Frames.assign?_of_here? ((h.agree.isGlobal _).trans hv)]
        exact .ok ⟨hagree, hgrows, rfl⟩ rfl
      | none =>
        simp only [Frames.assign?_of_root h.agree.root ((h.agree.isGlobal _).trans hv)]
        exact .error (.refl h.agree) rfl

end Variables

/-! ## Frames -/

section NewFrames

variable {own : Option FrameId} {cells : Array Cell} {m : Machine} {w : World}

/-- New names in a frame, none of them twice, get locations of their own. -/
theorem Agree.allocateAll : ∀ {bindings : List (String × Value)} {cells : Array Cell} {m : Machine}
    {w : World} {f : FrameId} (visible : Names), Agree cells m w → f ≠ Machine.globalFrame →
      f < m.frames.next → (bindings.map (·.1)).Nodup →
      (∀ x ∈ bindings.map (·.1), m.frames.here? f x = none) →
      (∀ v, ("super", v) ∈ bindings → ∃ c, v = .classRef c) →
      ∃ cells' w' visible' frames',
        bindings.foldl (fun fs b => fs.define f b.1 b.2) m.frames = frames' ∧
        Lexical.allocateAll visible bindings w = some (.ok visible', w') ∧
        Agree cells' { m with frames := frames' } w' ∧
        Grows (some f) cells m.frames cells' frames' ∧
        (∀ x ∈ bindings.map (·.1), ∃ l, visible'.get? x = some l ∧ cells'[l]? = some (f, x)) ∧
        (∀ x, x ∉ bindings.map (·.1) → visible'.get? x = visible.get? x) ∧
        (∀ x, (frames'.here? f x).isSome → x ∈ bindings.map (·.1) ∨ (m.frames.here? f x).isSome)
  | [], cells, m, w, f, visible, h, _, _, _, _, _ =>
    ⟨cells, w, visible, m.frames, rfl, rfl, h, .refl .., nofun, fun _ _ => rfl, fun _ hx => .inr hx⟩
  | (name, v) :: bindings, cells, m, w, f, visible, h, hf, hlt, hnodup, hnone, hsuper => by
    simp only [List.map_cons, List.nodup_cons] at hnodup
    simp only [List.map_cons, List.forall_mem_cons] at hnone
    have hnew : ∀ l : Nat, cells[l]? ≠ some (f, name) := by
      intro l hl
      obtain ⟨v', hv', -⟩ := h.bound hl
      rw [hnone.1] at hv'
      cases hv'
    obtain ⟨hagree, hgrows⟩ := h.allocate hf hlt hnew
      (fun hname => hsuper v (hname ▸ List.mem_cons_self ..))
    have hnone' : ∀ x ∈ bindings.map (·.1), (m.frames.define f name v).here? f x = none := by
      intro x hx
      rw [Frames.here?_define_ne]
      · exact hnone.2 x hx
      · rintro ⟨-, rfl⟩
        exact hnodup.1 hx
    obtain ⟨cells', w', visible', frames', hfold, hall, hagree', hgrows', hown, hrest, hnames⟩ :=
      Agree.allocateAll (visible.insert name w.store.size) hagree hf
        (by rw [Frames.next_define]; exact hlt) hnodup.2 hnone'
        (fun v' hv' => hsuper v' (List.mem_cons_of_mem _ hv'))
    refine ⟨cells', w', visible', frames', hfold, hall, hagree', hgrows.trans hgrows',
      fun x hx => ?_, fun x hx => ?_, fun x hx => ?_⟩
    · rcases List.mem_cons.1 hx with rfl | hx
      · refine ⟨w.store.size, ?_, hgrows'.cells _ _ ?_⟩
        · rw [hrest _ hnodup.1, Bindings.get?_insert, if_pos rfl]
        · rw [h.size, Array.getElem?_push, if_pos rfl]
      · exact hown x hx
    · simp only [List.map_cons, List.mem_cons, not_or] at hx
      rw [hrest x hx.2, Bindings.get?_insert, if_neg hx.1]
    · rcases hnames x hx with hx | hx
      · exact .inl (List.mem_cons_of_mem _ hx)
      · rw [Frames.here?_define] at hx
        split at hx
        · rename_i hall
          exact .inl (hall.2.1 ▸ List.mem_cons_self ..)
        · exact .inr hx

/-- A new frame inside a frame with known places, whose names get new locations. The state is then
that of a place in the new frame. -/
theorem Agree.enter {n : Nest} {visible : Names} {enclosing : FrameId} (h : Agree cells m w)
    (hp : Places cells m.frames n visible enclosing) {bindings : List (String × Value)}
    (hnodup : (bindings.map (·.1)).Nodup)
    (hsuper : ∀ v, ("super", v) ∈ bindings → ∃ c, v = .classRef c) :
    ∃ cells' m' w' visible', Eval.newFrame enclosing bindings m = .ok m.frames.next m' ∧
      Lexical.allocateAll visible bindings w = some (.ok visible', w') ∧
      Reached none cells m cells' m' w' ∧
      Here cells' { m' with current := m.frames.next } w' (bindings.map (·.1) :: n) visible' := by
  obtain ⟨hpush, hgrows⟩ : _ ∧ Grows none _ _ _ _ := h.push (some enclosing)
  have hne : m.frames.next ≠ Machine.globalFrame := (Nat.ne_of_lt h.globalFrame_lt).symm
  have hnone : ∀ x, m.frames.here? m.frames.next x = none := by
    intro x
    cases hv : m.frames.here? m.frames.next x with
    | none => rfl
    | some v => exact absurd (Frames.lt_of_here? hv) (Nat.lt_irrefl _)
  have hlt : m.frames.next < (m.frames.push (some enclosing)).next := by
    rw [Frames.next_push]
    exact Nat.lt_succ_self _
  have hnone' : ∀ x ∈ bindings.map (·.1),
      (m.frames.push (some enclosing)).here? m.frames.next x = none := by
    intro x _
    rw [Frames.here?_push]
    exact hnone x
  obtain ⟨cells', w', visible', frames', hfold, hall, hagree, hgrows', hown, hrest, hnames⟩ :=
    Agree.allocateAll visible hpush hne hlt hnodup hnone' hsuper
  have hlink : frames'.enclosing? m.frames.next = some enclosing := by
    refine hgrows'.links _ _ ?_
    rw [Frames.enclosing?_push, if_pos rfl]
  have hgrows'' : Grows none cells m.frames cells' frames' :=
    (hgrows.weaken.trans hgrows').forget (Nat.le_refl _)
  refine ⟨cells', { m with frames := frames' }, w', visible', ?_, hall, ⟨hagree, hgrows'', rfl⟩,
    ⟨?_, ?_, ?_, ?_⟩, { hagree with }⟩
  · rw [← hfold]
    rfl
  · exact (hp.mono hgrows'').enter hlink hown hrest
  · intro x hx names hnames'
    cases hnames'
    rcases hnames x hx with hx | hx
    · exact hx
    · rw [Frames.here?_push, hnone] at hx
      cases hx
  · exact ⟨nofun, fun heq => absurd heq hne⟩
  · exact Nat.lt_of_lt_of_le hlt hgrows'.next

/-- Runs in another frame, which is left again at the end. -/
theorem Tracks.within {α β : Type} {f : FrameId} {R : α → β → Prop} {x : Eval α}
    {s : Option (Except RuntimeError β × World)}
    (h : Tracks (some f) cells { m with current := f } (fun _ _ => R) (x { m with current := f })
      s) :
    Tracks (some f) cells m (fun _ _ => R) (Eval.within f x m) s := by
  unfold Eval.within
  generalize x { m with current := f } = r at h ⊢
  cases h with
  | ok hr h => exact .ok ⟨{ hr.agree with }, hr.grows, rfl⟩ h
  | error hr he => exact .error ⟨{ hr.agree with }, hr.grows, rfl⟩ he
  | outOfFuel => exact .outOfFuel

/-- A run that only names things in a frame that is new names nothing in the frames before. -/
theorem Tracks.forget {α β : Type} {R : Array Cell → Machine → α → β → Prop} {f : FrameId}
    {cells' : Array Cell} {m' : Machine} {w' : World} {r : Result α}
    {s : Option (Except RuntimeError β × World)} (hr : Reached none cells m cells' m' w')
    (hf : m.frames.next ≤ f) (h : Tracks (some f) cells' m' R r s) :
    Tracks own cells m R r s := by
  cases h.after hr.weaken with
  | ok hr hR => exact .ok ⟨hr.agree, hr.grows.forget hf, hr.current⟩ hR
  | error hr he => exact .error ⟨hr.agree, hr.grows.forget hf, hr.current⟩ he
  | outOfFuel => exact .outOfFuel

/-- A frame is made and the rest of the run names things in it only. -/
theorem Agree.inFrame {α β : Type} {R : Array Cell → Machine → α → β → Prop} {n : Nest}
    {visible : Names} {enclosing : FrameId} {bindings : List (String × Value)}
    {f : FrameId → Eval α} {g : Names → Run β} (h : Agree cells m w)
    (hp : Places cells m.frames n visible enclosing) (hnodup : (bindings.map (·.1)).Nodup)
    (hsuper : ∀ v, ("super", v) ∈ bindings → ∃ c, v = .classRef c)
    (hbody : ∀ {cells' m' w' visible'}, Reached none cells m cells' m' w' →
      Here cells' { m' with current := m.frames.next } w' (bindings.map (·.1) :: n) visible' →
      Tracks (some m.frames.next) cells' m' R (f m.frames.next m') (g visible' w')) :
    Tracks own cells m R ((Eval.newFrame enclosing bindings >>= f) m)
      ((Lexical.allocateAll visible bindings >>= g) w) := by
  obtain ⟨cells', m', w', visible', hframe, hall, hr, hhere⟩ := h.enter hp hnodup hsuper
  have hmachine : (Eval.newFrame enclosing bindings >>= f) m = f m.frames.next m' := by
    show Eval.bind _ _ m = _
    unfold Eval.bind
    rw [hframe]
  have hworld : (Lexical.allocateAll visible bindings >>= g) w = g visible' w' := by
    show Run.bind _ _ w = _
    unfold Run.bind
    rw [hall]
  rw [hmachine, hworld]
  exact .forget hr (Nat.le_refl _) (hbody hr hhere)

end NewFrames

end Lox.Lexical
