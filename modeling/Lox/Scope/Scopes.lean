import Lox.Bindings
import Lox.Error

/-!
# Static scopes

While a program is checked, `Scopes` says which names are visible: the local scopes from the
innermost outwards, each with the names declared in it so far, and the global names. A binding
distance is the index of a local scope in this stack.
-/

set_option autoImplicit false

namespace Lox

/-- Whether a declared name may be read yet; until its initializer has ended it may not. -/
inductive Status where
  | pending
  | ready
  deriving DecidableEq, Repr

/-- The names declared in one local scope. -/
abbrev Scope := Bindings Status

/-- The visible names. -/
structure Scopes where
  /-- The local scopes, innermost first. -/
  locals : List Scope
  /-- The global names known so far. -/
  globals : List String
  deriving Repr

/-- A value together with the errors found on the way to it. -/
structure Checked (α : Type) where
  value : α
  errors : List CompileError

namespace Checked

instance : Monad Checked where
  pure a := ⟨a, []⟩
  bind x f := ⟨(f x.value).value, x.errors ++ (f x.value).errors⟩

/-- Reports an error at a token. -/
def report (token : Token) (cause : ScopeCause) : Checked Unit :=
  ⟨(), [.scoping token cause]⟩

end Checked

namespace Scopes

/-- No local scopes, and these global names. -/
def top (globals : List String) : Scopes := ⟨[], globals⟩

/-- Enters a local scope. -/
def push (s : Scopes) (scope : Scope) : Scopes :=
  { s with locals := scope :: s.locals }

/-- The distance to the nearest local scope that declares a name. -/
def distance? (s : Scopes) (name : String) : Option Nat :=
  s.locals.findIdx? fun scope => scope.contains name

/-- The distance to the nearest local scope, beyond the innermost one, that declares a name. -/
def outerDistance? (s : Scopes) (name : String) : Option Nat :=
  (s.locals.tail.findIdx? fun scope => scope.contains name).map (· + 1)

/-- Whether a name is being initialized in the innermost scope. -/
def isPending (s : Scopes) (name : String) : Bool :=
  (s.locals.head?.bind fun scope => scope.get? name) == some .pending

/-- Declares a name in the innermost scope, where it must be new; global names may be declared
again. -/
def declare (s : Scopes) (name : Token) : Checked Scopes :=
  match s.locals with
  | [] => pure { s with globals := s.globals.insert name.lexeme }
  | scope :: outer =>
    if scope.contains name.lexeme then do
      Checked.report name .alreadyDeclared
      pure s
    else pure { s with locals := scope.insert name.lexeme .pending :: outer }

/-- Makes a declared name of the innermost scope ready. -/
def define (s : Scopes) (name : Token) : Scopes :=
  match s.locals with
  | [] => s
  | scope :: outer => { s with locals := scope.insert name.lexeme .ready :: outer }

end Scopes
end Lox
