import Lox.Files
import Lox.Session
import Lox.Syntax.Document
import Lox.Syntax.Printer

/-!
# The command line

What each command prints and with which status it ends, as a function of the file's bytes or of the
lines typed at the prompt. Results go to the standard output and every report of an error to the
standard error. `report` covers all commands; a prompt line by itself is `promptLine`. Left out are
log messages, the texts of usage errors and of `--help`, and how a file gets into memory.
-/

set_option autoImplicit false

namespace Lox.CommandLine

/-- A command with its arguments. -/
inductive Command where
  /-- Lists the tokens of a file. -/
  | tokenize (path : String) (json : Bool)
  /-- Lists the syntax trees of a file. -/
  | parse (path : String) (json : Bool)
  /-- Prints the value of a file that holds one expression. -/
  | evaluate (path : String)
  /-- Runs a file. -/
  | run (path : String)
  /-- Runs lines as they are typed. -/
  | prompt
  deriving DecidableEq, Repr

/-- How a command ends: its exit status and what it printed. The standard output has taken bytes. -/
structure Report where
  exitCode : Nat
  stdout : ByteArray
  stderr : String

/-! ## Arguments -/

/-- A word that starts with a hyphen is an option; a hyphen alone is not. -/
def isOption (word : String) : Bool :=
  word.startsWith "-" && word != "-"

/-- The options and the operands among words; after `--` every word is an operand. -/
def splitWords : List String → List String × List String
  | [] => ([], [])
  | word :: more =>
    if word = "--" then ([], more)
    else
      let (options, operands) := splitWords more
      if isOption word then (word :: options, operands) else (options, word :: operands)

/-- The command with this name, operands and options. No option may be given twice, and a path is
not empty. -/
def Command.ofWords? (name : String) (operands options : List String) : Option Command :=
  if ¬ options.Nodup ∨ "" ∈ operands then none
  else
    let json := options.contains "--json"
    let isPlain := options.all (· == "--log")
    let isListing := options.all fun o => o == "--log" || o == "--json"
    match name, operands with
    | "tokenize", [path] => if isListing then some (.tokenize path json) else none
    | "parse", [path] => if isListing then some (.parse path json) else none
    | "evaluate", [path] => if isPlain then some (.evaluate path) else none
    | "run", [path] => if isPlain then some (.run path) else none
    | "run", [] => if isPlain then some .prompt else none
    | _, _ => none

/-- The command that arguments ask for. The option `--log`, which may also stand before the command,
changes nothing that a report holds. -/
def Command.ofArguments? (arguments : List String) : Option Command :=
  let words := if arguments.head? = some "--log" then arguments.tail else arguments
  match words with
  | [] => none
  | name :: more =>
    let (options, operands) := splitWords more
    Command.ofWords? name operands options

/-- The file that a command reads. -/
def Command.path? : Command → Option String
  | .tokenize path _ => some path
  | .parse path _ => some path
  | .evaluate path => some path
  | .run path => some path
  | .prompt => none

/-- How to use the commands. -/
def usage : String :=
  "Usage: lox [--log] <tokenize FILE [--json] | parse FILE [--json] | evaluate FILE | run [FILE]>\n"

/-! ## Commands -/

/-- Texts as lines. -/
def lines (texts : List String) : String :=
  String.join (texts.map (· ++ "\n"))

/-- The report of a source text with errors in it. -/
def rejected (errors : List CompileError) : Report :=
  ⟨65, .empty, lines (errors.map CompileError.text)⟩

/-- Lists tokens, also those of a text with lexical errors. -/
def tokenize (json : Bool) (source : String) : Report :=
  let items := Lexer.scan source
  let tokens := Lexer.tokens items
  let errors := Lexer.errors items
  { exitCode := if errors.isEmpty then 0 else 65
    stdout := (if json then (Json.array (tokens.map Token.json)).pretty ++ "\n"
      else lines (tokens.map Token.text)).toUTF8
    stderr := lines (errors.map CompileError.text) }

/-- Lists the trees of a program that has no lexical or syntax errors. -/
def parse (json : Bool) (source : String) : Report :=
  match readSource Grammar.parse source with
  | .ok program =>
    { exitCode := 0
      stdout := (if json then (Json.array (Stmt.jsonAll program)).pretty ++ "\n"
        else lines (program.map Stmt.text)).toUTF8
      stderr := "" }
  | .error errors => rejected errors

/-- Prints the value of an expression, its names taken as global. Lexical errors are reported
without reading on. -/
def evaluate (fuel : Nat) (clock : Clock) (source : String) : Option Report :=
  let items := Lexer.scan source
  match Lexer.errors items with
  | [] =>
    match Grammar.parseExpression (Lexer.tokens items) with
    | .ok expr =>
      match Lox.evaluate fuel expr (.start .unlimited clock) with
      | .ok value m => some ⟨0, m.output.bytes ++ (m.display value ++ "\n").toUTF8, ""⟩
      | .error e m => some ⟨70, m.output.bytes, e.text ++ "\n"⟩
      | .outOfFuel => none
    | .error errors => some (rejected errors)
  | errors => some (rejected errors)

/-- Runs a program in a session of its own. -/
def run (fuel : Nat) (clock : Clock) (source : String) : Option Report := do
  let (outcome, session) ← (Session.start .unlimited clock).run fuel source
  return ⟨outcome.exitCode, session.machine.output.bytes, lines outcome.messages⟩

/-! ## The prompt -/

/-- The text before each line that is typed. -/
def promptMark : String := "> "

/-- What the output of a session has taken since it had taken so many bytes. -/
def printedSince (size : Nat) (session : Session) : ByteArray :=
  session.machine.output.bytes.extract size session.machine.output.bytes.size

/-- Runs a line that was typed: the session afterwards, and what went to the standard output and to
the standard error. -/
def promptLine (fuel : Nat) (session : Session) (line : String) :
    Option (Session × ByteArray × String) := do
  let size := session.machine.output.bytes.size
  let (outcome, session) ← session.run fuel line
  return (session, printedSince size session, lines outcome.messages)

/-- Runs the lines typed at a prompt. -/
def promptLines (fuel : Nat) (session : Session) : List String → Option Report
  | [] => some ⟨0, (promptMark ++ "\n").toUTF8, ""⟩
  | line :: more => do
    let (session, out, err) ← promptLine fuel session line
    let rest ← promptLines fuel session more
    return ⟨rest.exitCode, promptMark.toUTF8 ++ out ++ rest.stdout, err ++ rest.stderr⟩

/-- The lines of an input. A line ends at a newline, and a carriage return before it is dropped;
what follows the last newline is a line unless it is empty. -/
def splitLines (current : List Char) : List Char → List String
  | [] => if current.isEmpty then [] else [String.ofList current.reverse]
  | '\n' :: cs =>
    let line := match current with
      | '\r' :: before => before
      | _ => current
    String.ofList line.reverse :: splitLines [] cs
  | c :: cs => splitLines (c :: current) cs

/-! ## Everything -/

/-- Runs a command on the bytes of its file, or on the lines of the standard input. -/
def report (fuel : Nat) (clock : Clock) (command : Command)
    (bytes : Except FileError (List UInt8)) (stdin : String) : Option Report :=
  let onFile (path : String) (f : String → Option Report) :=
    match sourceText bytes with
    | .ok source => f source
    | .error e => some ⟨1, .empty, e.text path⟩
  match command with
  | .tokenize path json => onFile path fun source => some (tokenize json source)
  | .parse path json => onFile path fun source => some (parse json source)
  | .evaluate path => onFile path (evaluate fuel clock)
  | .run path => onFile path (run fuel clock)
  | .prompt => promptLines fuel (.start .unlimited clock) (splitLines [] stdin.toList)

end Lox.CommandLine
