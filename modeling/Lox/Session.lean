import Lox.Run.Eval
import Lox.Syntax.Grammar
import Lox.Token.Lexer

/-!
# Sessions

A session runs source texts one after another on one machine, so that a text sees the global
variables that earlier ones left. A text is compiled first: all its lexical and syntax errors are
reported together, then its scoping errors, and nothing runs unless there are none. Runs take fuel;
they give nothing when it does not last.
-/

set_option autoImplicit false

namespace Lox

/-- What became of a source text. -/
inductive Outcome where
  | success
  /-- It has errors, and nothing of it ran. -/
  | rejected (errors : List CompileError)
  /-- It ran up to this error. -/
  | failed (error : RuntimeError)
  deriving DecidableEq, Repr

namespace Outcome

/-- The exit status that reports an outcome. -/
def exitCode : Outcome → Nat
  | .success => 0
  | .rejected _ => 65
  | .failed _ => 70

def isSuccess : Outcome → Bool
  | .success => true
  | _ => false

/-- The lines that report an outcome. -/
def messages : Outcome → List String
  | .success => []
  | .rejected errors => errors.map CompileError.text
  | .failed error => [error.text]

end Outcome

/-! ## Compiling -/

/-- Reads a source text as a phrase of the grammar; lexical errors come before syntax errors. -/
def readSource {α : Type} (parse : List Token → Except (List CompileError) α) (source : String) :
    Except (List CompileError) α :=
  let items := Lexer.scan source
  match parse (Lexer.tokens items), Lexer.errors items with
  | .ok value, [] => .ok value
  | .ok _, errors => .error errors
  | .error more, errors => .error (errors ++ more)

/-- The program that a source text is where these global names are known, its slots filled. -/
def compile (globals : List String) (source : String) :
    Except (List CompileError) (List Stmt) := do
  let program ← readSource Grammar.parse source
  match resolve globals program with
  | ⟨(program, _), []⟩ => .ok program
  | ⟨_, errors⟩ => .error errors

/-! ## Running -/

/-- The machine of a session between two texts. -/
structure Session where
  machine : Machine

namespace Session

/-- A session in which nothing has run. -/
def start (output : Output) (clock : Clock) : Session :=
  ⟨.start output clock⟩

/-- A session between two texts, with the clock as it goes on from then. -/
def atClock (s : Session) (clock : Clock) : Session :=
  ⟨{ s.machine with clock }⟩

/-- The program that a source text is in this session. -/
def compile (s : Session) (source : String) : Except (List CompileError) (List Stmt) :=
  Lox.compile s.machine.globalNames source

/-- Runs a program. -/
def interpret (s : Session) (fuel : Nat) (program : List Stmt) : Option (Outcome × Session) :=
  match Lox.interpret fuel program s.machine with
  | .ok _ machine => some (.success, ⟨machine⟩)
  | .error e machine => some (.failed e, ⟨machine⟩)
  | .outOfFuel => none

/-- Compiles a source text and runs it. -/
def run (s : Session) (fuel : Nat) (source : String) : Option (Outcome × Session) :=
  match s.compile source with
  | .ok program => s.interpret fuel program
  | .error errors => some (.rejected errors, s)

section Run

variable {s : Session} {source : String}

theorem run_of_compile {program : List Stmt} (hc : s.compile source = .ok program) (fuel : Nat) :
    s.run fuel source = s.interpret fuel program := by
  rw [run, hc]

theorem run_of_rejected {errors : List CompileError} (hc : s.compile source = .error errors)
    (fuel : Nat) : s.run fuel source = some (.rejected errors, s) := by
  rw [run, hc]

end Run

end Session

/-- Fuel that no run uses up in practice. -/
def ampleFuel : Nat := 1000000000000000000

end Lox
