import Lox.Proofs.Run.Frames
import Lox.Run.Eval

/-!
# Chains of links

The frames outwards from a frame form a `Path`, and the classes upwards from a class a `Lineage`.
Where every link leads to something older, both exist for every start, and the searches are walks
along them: the first frame that binds a name, the first class that has a method. So the tests of
age in the searches never cut a walk short.
-/

set_option autoImplicit false

namespace Lox

/-! ## Frames -/

namespace Frames

variable {α : Type} {fs : Frames α} {f : FrameId} {path : List FrameId}

/-- The frames from a frame outwards, up to one that has nothing around it. -/
inductive Path (fs : Frames α) : FrameId → List FrameId → Prop
  | last {f : FrameId} (h : fs.enclosing? f = none) : Path fs f [f]
  | link {f outer : FrameId} {path : List FrameId} (h : fs.enclosing? f = some outer)
      (hp : Path fs outer path) : Path fs f (f :: path)

/-- Every link leads to an older frame. -/
def Descends (fs : Frames α) : Prop :=
  ∀ f outer, fs.enclosing? f = some outer → outer < f

theorem Descends.exists_path (h : fs.Descends) (f : FrameId) : ∃ path, fs.Path f path := by
  induction f using Nat.strongRecOn with
  | ind f ih =>
    cases houter : fs.enclosing? f with
    | none => exact ⟨_, .last houter⟩
    | some outer =>
      obtain ⟨path, hp⟩ := ih outer (h f outer houter)
      exact ⟨_, .link houter hp⟩

/-- Reading by search takes the first frame of the path that binds the name. -/
theorem Path.get? (hp : fs.Path f path) (h : fs.Descends) (name : String) :
    fs.get? f name = path.findSome? fun g => fs.here? g name := by
  induction hp with
  | last hlast =>
    rw [get?_of_root hlast, List.findSome?_singleton]
  | @link f outer path houter _ ih =>
    rw [Frames.get?, List.findSome?_cons]
    cases fs.here? f name with
    | some v => rfl
    | none =>
      simp only [houter, if_pos (h f outer houter)]
      exact ih

theorem Path.owner? (hp : fs.Path f path) (h : fs.Descends) (name : String) :
    fs.owner? f name = path.find? fun g => (fs.here? g name).isSome := by
  induction hp with
  | last hlast =>
    rw [Frames.owner?, List.find?_singleton]
    cases fs.here? _ name with
    | some v => rfl
    | none => simp [hlast]
  | @link f outer path houter _ ih =>
    rw [Frames.owner?, List.find?_cons]
    cases fs.here? f name with
    | some v => rfl
    | none =>
      simp only [houter, if_pos (h f outer houter), Option.isSome_none]
      exact ih

/-- Writing by search writes to the first frame of the path that binds the name. -/
theorem Path.assign? (hp : fs.Path f path) (h : fs.Descends) (name : String) (value : α) :
    fs.assign? f name value =
      (path.find? fun g => (fs.here? g name).isSome).map fun g => fs.define g name value := by
  rw [Frames.assign?, hp.owner? h]
  cases path.find? fun g => (fs.here? g name).isSome <;> rfl

/-- Going outwards by a distance is indexing the path. -/
theorem Path.ancestor? (hp : fs.Path f path) (d : Nat) : fs.ancestor? f d = path[d]? := by
  induction hp generalizing d with
  | last hlast => cases d <;> simp [Frames.ancestor?, hlast]
  | link houter _ ih =>
    cases d with
    | zero => rfl
    | succ d => rw [ancestor?_succ houter, ih, List.getElem?_cons_succ]

end Frames

/-! ## Classes -/

namespace Machine

variable {m : Machine} {c : ClassId} {line : List ClassId}

/-- The classes from a class upwards, up to one without a superclass. -/
inductive Lineage (m : Machine) : ClassId → List ClassId → Prop
  | root {c : ClassId} {info : Class} (h : m.classes[c]? = some info)
      (hs : info.superclass = none) : Lineage m c [c]
  | inherits {c above : ClassId} {info : Class} {line : List ClassId}
      (h : m.classes[c]? = some info) (hs : info.superclass = some above)
      (hl : Lineage m above line) : Lineage m c (c :: line)

/-- The method that a class itself has under a name. -/
def ownMethod? (m : Machine) (c : ClassId) (name : String) : Option Function :=
  m.classes[c]?.bind fun info => info.methods.get? name

/-- Every superclass is older than the class. -/
def Inherits (m : Machine) : Prop :=
  ∀ (c : ClassId) (info : Class) (above : ClassId), m.classes[c]? = some info →
    info.superclass = some above → above < c

theorem Inherits.exists_lineage (h : m.Inherits) (c : ClassId) (hc : c < m.classes.size) :
    ∃ line, m.Lineage c line := by
  induction c using Nat.strongRecOn with
  | ind c ih =>
    have hinfo : m.classes[c]? = some m.classes[c] := Array.getElem?_eq_getElem hc
    cases hs : m.classes[c].superclass with
    | none => exact ⟨_, .root hinfo hs⟩
    | some above =>
      have hlt : above < c := h c _ above hinfo hs
      obtain ⟨line, hl⟩ := ih above hlt (Nat.lt_trans hlt hc)
      exact ⟨_, .inherits hinfo hs hl⟩

/-- The method that a name means is that of the first class of the lineage that has one. -/
theorem Lineage.findMethod? (hl : m.Lineage c line) (h : m.Inherits) (name : String) :
    m.findMethod? c name = line.findSome? fun c => m.ownMethod? c name := by
  induction hl with
  | @root c info hinfo hs =>
    rw [Machine.findMethod?, List.findSome?_singleton, ownMethod?, hinfo]
    simp only [Option.bind_some]
    cases info.methods.get? name with
    | some f => rfl
    | none => simp [hs]
  | @inherits c above info line hinfo hs _ ih =>
    rw [Machine.findMethod?, List.findSome?_cons, ownMethod?, hinfo]
    simp only [Option.bind_some]
    cases info.methods.get? name with
    | some f => rfl
    | none =>
      simp only [hs, if_pos (h c info above hinfo hs)]
      exact ih

/-- Which method a name means depends on the classes only. -/
theorem findMethod?_congr {m m' : Machine} (h : m'.classes = m.classes) (c : ClassId)
    (x : String) : m'.findMethod? c x = m.findMethod? c x := by
  induction c using Nat.strongRecOn with
  | ind c ih =>
    rw [Machine.findMethod?, Machine.findMethod?, h]
    cases m.classes[c]? with
    | none => rfl
    | some info =>
      dsimp only
      cases info.methods.get? x with
      | some f => rfl
      | none =>
        cases info.superclass with
        | none => rfl
        | some above =>
          dsimp only
          by_cases hlt : above < c
          · rw [if_pos hlt, if_pos hlt, ih above hlt]
          · rw [if_neg hlt, if_neg hlt]

end Machine

/-- Of the declarations of a class, the last one with a name is the method of that name. -/
theorem methodTable_get? (closure : FrameId) (methods : List FunctionDecl) (name : String) :
    (methodTable closure methods).get? name =
      (methods.reverse.find? fun d => d.name.lexeme == name).map fun d =>
        ⟨d, closure, d.name.lexeme == initializerName⟩ := by
  rw [methodTable, Bindings.get?_ofList, ← List.map_reverse]
  induction methods.reverse with
  | nil => rfl
  | cons d rest ih =>
    rw [List.map_cons, List.lookup_cons, List.find?_cons, Bool.beq_comm, ih]
    cases d.name.lexeme == name <;> rfl

end Lox
