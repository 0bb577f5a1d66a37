import Lox.Bindings

/-!
# Frames

Variables live in frames. A frame binds names and may have an enclosing frame; together they form a
forest in which frames are numbered in the order in which they are made, so an enclosing frame has a
smaller number. Frames are never removed: closures, calls and blocks all hold them by number, and a
write through one of them is seen through all. `get?` and `assign?` search outwards for a name;
`getAt` and `assignAt` go a known number of links outwards and look only there.
-/

set_option autoImplicit false

namespace Lox

/-- The number of a frame. -/
abbrev FrameId := Nat

/-- The names bound in a frame, and the frame around it. -/
structure Frame (α : Type) where
  bindings : Bindings α
  enclosing : Option FrameId

/-- Frames, by number. -/
structure Frames (α : Type) where
  frames : Array (Frame α)

/-- Why a variable cannot be reached by distance. -/
inductive AccessError where
  /-- There is no frame so far out. -/
  | noFrame
  /-- The frame does not bind the name. -/
  | unbound
  deriving DecidableEq, Repr

namespace Frames

variable {α : Type}

/-- No frames. -/
def empty : Frames α := ⟨#[]⟩

/-- The number that the next frame gets. -/
def next (fs : Frames α) : FrameId := fs.frames.size

/-- Makes a frame that binds nothing. -/
def push (fs : Frames α) (enclosing : Option FrameId) : Frames α :=
  ⟨fs.frames.push ⟨.empty, enclosing⟩⟩

/-- The frame around a frame. -/
def enclosing? (fs : Frames α) (f : FrameId) : Option FrameId :=
  fs.frames[f]?.bind (·.enclosing)

/-- The value that a frame itself binds to a name. -/
def here? (fs : Frames α) (f : FrameId) (name : String) : Option α :=
  fs.frames[f]?.bind fun frame => frame.bindings.get? name

/-- The names that a frame itself binds. -/
def names (fs : Frames α) (f : FrameId) : List String :=
  (fs.frames[f]?.map fun frame => frame.bindings.names).getD []

/-- Binds a name in a frame, in place of an earlier binding there. -/
def define (fs : Frames α) (f : FrameId) (name : String) (value : α) : Frames α :=
  ⟨fs.frames.modify f fun frame => { frame with bindings := frame.bindings.insert name value }⟩

/-! ## By search -/

/-- The value of a name in the nearest frame that binds it. -/
def get? (fs : Frames α) (f : FrameId) (name : String) : Option α :=
  match fs.here? f name with
  | some value => some value
  | none =>
    match fs.enclosing? f with
    | some outer => if outer < f then fs.get? outer name else none
    | none => none
termination_by f

/-- The nearest frame that binds a name. -/
def owner? (fs : Frames α) (f : FrameId) (name : String) : Option FrameId :=
  match fs.here? f name with
  | some _ => some f
  | none =>
    match fs.enclosing? f with
    | some outer => if outer < f then fs.owner? outer name else none
    | none => none
termination_by f

/-- Sets a name in the nearest frame that binds it. -/
@[inline] def assign? (fs : Frames α) (f : FrameId) (name : String) (value : α) :
    Option (Frames α) :=
  match fs.owner? f name with
  | some owner => some (fs.define owner name value)
  | none => none

/-! ## By distance -/

/-- The frame a number of links outwards. -/
def ancestor? (fs : Frames α) (f : FrameId) : Nat → Option FrameId
  | 0 => some f
  | distance + 1 => (fs.enclosing? f).bind fun outer => fs.ancestor? outer distance

/-- The value of a name in the frame a number of links outwards. -/
def getAt (fs : Frames α) (f : FrameId) (distance : Nat) (name : String) :
    Except AccessError α :=
  match fs.ancestor? f distance with
  | none => .error .noFrame
  | some frame =>
    match fs.here? frame name with
    | none => .error .unbound
    | some value => .ok value

/-- Sets a name in the frame a number of links outwards, where it has to be bound. -/
@[inline] def assignAt (fs : Frames α) (f : FrameId) (distance : Nat) (name : String) (value : α) :
    Except AccessError (Frames α) :=
  match fs.ancestor? f distance with
  | none => .error .noFrame
  | some frame =>
    match fs.here? frame name with
    | none => .error .unbound
    | some _ => .ok (fs.define frame name value)

end Frames
end Lox
