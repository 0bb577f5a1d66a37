import Lox.Run.Frames
import Lox.Run.Value
import Lox.Scope.Resolve

/-!
# The machine

The state in which programs run: the frames with the current one among them, tables of all
functions, classes and instances made so far, the output, and the clock. Objects are numbered in the
order in which they are made and never removed.
-/

set_option autoImplicit false

namespace Lox

/-! ## Output -/

/-- How many lines some bytes end. -/
def newlines (bytes : ByteArray) : Nat := bytes.data.toList.count '\n'.toUInt8

theorem newlines_append (a b : ByteArray) : newlines (a ++ b) = newlines a + newlines b := by
  simp [newlines]

/-- Bytes that grow, with the number of lines that they end. -/
structure Written where
  bytes : ByteArray
  lines : Nat
  lines_eq : lines = newlines bytes

namespace Written

def empty : Written := ⟨.empty, 0, rfl⟩

def append (w : Written) (bytes : ByteArray) : Written :=
  ⟨w.bytes ++ bytes, w.lines + newlines bytes, by rw [newlines_append, w.lines_eq]⟩

end Written

/-- Where printed text goes: a writer that is offered bytes in calls, of which it may take the first
few only. Whether it takes any depends on what it has taken before, so once a call has been refused,
every later one is. A call that is interrupted has not been refused; it is made again until it is
answered, and what counts here is the answer. -/
structure Output where
  /-- What has been taken so far. -/
  written : Written
  /-- Whether some of what is offered next is taken after this. -/
  isOpen : Written → Bool
  /-- How many of these bytes are taken then, if there are as many; but one at least. -/
  share : Written → ByteArray → Nat
  /-- Why calls are refused. -/
  reason : String

namespace Output

/-- The bytes taken so far. -/
def bytes (o : Output) : ByteArray := o.written.bytes

/-- An output that takes everything at once. -/
def unlimited : Output := ⟨.empty, fun _ => true, fun _ offered => offered.size, ""⟩

/-- An output that closes when a number of lines has been written. -/
def limited (lines : Nat) (reason : String) : Output :=
  ⟨.empty, fun w => decide (w.lines < lines), fun _ offered => offered.size, reason⟩

/-- An output for a number of bytes. -/
def sized (size : Nat) (reason : String) : Output :=
  ⟨.empty, fun w => decide (w.bytes.size < size), fun w _ => size - w.bytes.size, reason⟩

/-- How many of the bytes offered the next call takes, if it is not refused. -/
def taken (o : Output) (offered : ByteArray) : Nat :=
  max 1 (min (o.share o.written offered) offered.size)

/-- Writes bytes, calling again with those that are left, up to the first call that is refused. Says
whether all have been taken. -/
def writeAll (o : Output) (offered : ByteArray) : Output × Bool :=
  if offered.size = 0 then (o, true)
  else if o.isOpen o.written then
    { o with written := o.written.append (offered.extract 0 (o.taken offered)) }.writeAll
      (offered.extract (o.taken offered) offered.size)
  else (o, false)
termination_by offered.size
decreasing_by
  rw [ByteArray.size_extract]
  have : 1 ≤ o.taken offered := Nat.le_max_left _ _
  omega

/-- Writes pieces of text one by one, up to the first that is not taken as a whole. Says whether all
were. -/
def write (o : Output) : List String → Output × Bool
  | [] => (o, true)
  | s :: pieces =>
    match o.writeAll s.toUTF8 with
    | (o, true) => o.write pieces
    | (o, false) => (o, false)

/-- Writes a line in pieces, of which the newline is the last. -/
def writeLine (o : Output) (pieces : List String) : Output × Bool :=
  o.write (pieces ++ ["\n"])

end Output

/-! ## Clock -/

/-- A clock, as the numbers that it shows, and how often it has been read. -/
structure Clock where
  /-- What it shows when it is read, in seconds. -/
  readings : Nat → Float
  count : Nat

namespace Clock

/-- What the next reading gives. -/
def next (c : Clock) : Float := c.readings c.count

/-- The clock after a reading. -/
def tick (c : Clock) : Clock := { c with count := c.count + 1 }

/-- A clock that stands still. -/
def stopped (time : Float) : Clock := ⟨fun _ => time, 0⟩

/-- A clock that first shows this many milliseconds, and one more at each reading. -/
def ticking (millis : Int) : Clock := ⟨fun n => Number.ofInt (millis + n) / 1000, 0⟩

end Clock

/-! ## Objects -/

/-- A function object: its declaration and the frame in which it was made. -/
structure Function where
  decl : FunctionDecl
  closure : FrameId
  isInitializer : Bool

/-- A class. Its methods are functions that are not bound to an instance yet. -/
structure Class where
  name : String
  superclass : Option ClassId
  methods : Bindings Function

/-- An instance and its fields. -/
structure Instance where
  ofClass : ClassId
  fields : Bindings Value

/-! ## State -/

/-- The state in which programs run. -/
structure Machine where
  frames : Frames Value
  /-- The current frame. -/
  current : FrameId
  functions : Array Function
  classes : Array Class
  instances : Array Instance
  output : Output
  clock : Clock

namespace Machine

/-- The frame of the global variables. -/
def globalFrame : FrameId := 0

/-- A machine on which nothing has run: the native functions are its only variables. -/
def start (output : Output) (clock : Clock) : Machine where
  frames := (Frames.empty.push none).define globalFrame Native.clock.name (.native .clock)
  current := globalFrame
  functions := #[]
  classes := #[]
  instances := #[]
  output := output
  clock := clock

/-- The names of the global variables. -/
def globalNames (m : Machine) : List String :=
  m.frames.names globalFrame

/-- The method of a class that a name means: its own, or else that of the nearest class above. A
superclass is older than its subclasses. -/
def findMethod? (m : Machine) (c : ClassId) (name : String) : Option Function :=
  match m.classes[c]? with
  | none => none
  | some info =>
    match info.methods.get? name with
    | some method => some method
    | none =>
      match info.superclass with
      | some above => if above < c then m.findMethod? above name else none
      | none => none
termination_by c

/-- The name of a class. -/
def className (m : Machine) (c : ClassId) : String :=
  (m.classes[c]?.map (·.name)).getD ""

/-- The pieces in which a value is printed. -/
def pieces (m : Machine) : Value → List String
  | .nil => ["nil"]
  | .bool true => ["true"]
  | .bool false => ["false"]
  | .number x => [Number.text x]
  | .string s => [s]
  | .native _ => ["<native fn>"]
  | .functionRef f => ["<fn ", (m.functions[f]?.map (·.decl.name.lexeme)).getD "", ">"]
  | .classRef c => [m.className c]
  | .instanceRef i =>
    [(m.instances[i]?.map fun o => m.className o.ofClass).getD "", " instance"]

/-- How a value is printed. -/
def display (m : Machine) (v : Value) : String :=
  String.join (m.pieces v)

end Machine
end Lox
