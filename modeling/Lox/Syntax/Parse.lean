import Lox.Error
import Lox.Syntax

/-!
# Reading phrases

A phrase reader takes a token list and either reads a value off its head, fails at the head of some
rest, or runs out of the depth it was given. Along the way it may note faults that do not stop it.
The token lists hold no end token: being at the end is having no tokens left, and a fault at the end
is a fault at no token.
-/

set_option autoImplicit false

namespace Lox

/-- A syntax error at a token, or at the end. -/
structure Fault where
  token : Option Token
  cause : SyntaxCause
  deriving DecidableEq, Repr

/-- How reading a phrase ends. `faults` are those noted on the way; a failure adds its own at the
head of `rest`. -/
inductive Reading (α : Type) where
  | parsed (value : α) (rest : List Token) (faults : List Fault)
  | failed (cause : SyntaxCause) (rest : List Token) (faults : List Fault)
  | exhausted

/-- A reader of phrases. -/
def Parse (α : Type) := List Token → Reading α

namespace Parse

variable {α β : Type}

/-- Reads nothing. -/
protected def pure (a : α) : Parse α :=
  fun ts => .parsed a ts []

/-- Reads one phrase and then the next, keeping the faults of both. -/
protected def bind (p : Parse α) (f : α → Parse β) : Parse β := fun ts =>
  match p ts with
  | .parsed a rest faults =>
    match f a rest with
    | .parsed b rest' faults' => .parsed b rest' (faults ++ faults')
    | .failed cause rest' faults' => .failed cause rest' (faults ++ faults')
    | .exhausted => .exhausted
  | .failed cause rest faults => .failed cause rest faults
  | .exhausted => .exhausted

instance : Monad Parse where
  pure := Parse.pure
  bind := Parse.bind

/-- Gives up for lack of depth. -/
def exhausted : Parse α :=
  fun _ => .exhausted

/-- Fails at the next token. -/
def fail (cause : SyntaxCause) : Parse α :=
  fun ts => .failed cause ts []

/-- Notes a fault at a token and goes on. -/
def noteAt (token : Option Token) (cause : SyntaxCause) : Parse Unit :=
  fun ts => .parsed () ts [⟨token, cause⟩]

/-- The next token, which stays. -/
def peek : Parse (Option Token) :=
  fun ts => .parsed ts.head? ts []

/-- Takes the next token, if there is one. -/
def advance : Parse Unit :=
  fun ts => .parsed () ts.tail []

/-- Whether the next token is of a kind; it stays. -/
def sees (kind : TokenKind) : Parse Bool :=
  fun ts => .parsed (ts.head?.any fun t => t.kind = kind) ts []

/-- Takes the next token if it passes. -/
def acceptIf (passes : Token → Bool) : Parse (Option Token)
  | [] => .parsed none [] []
  | t :: ts => if passes t then .parsed (some t) ts [] else .parsed none (t :: ts) []

/-- Takes the next token if it is of a kind. -/
def accept (kind : TokenKind) : Parse (Option Token) :=
  acceptIf fun t => t.kind = kind

/-- Takes the next token, which has to be of a kind. -/
def expect (kind : TokenKind) (cause : SyntaxCause) : Parse Token
  | [] => .failed cause [] []
  | t :: ts => if t.kind = kind then .parsed t ts [] else .failed cause (t :: ts) []

/-! ## Recovery -/

/-- The reserved words that begin a declaration or a statement of their own. -/
def startsStatement (t : Token) : Bool :=
  match t.kind with
  | .keyword .classWord | .keyword .funWord | .keyword .varWord | .keyword .forWord
  | .keyword .ifWord | .keyword .whileWord | .keyword .printWord | .keyword .returnWord => true
  | _ => false

/-- Drops tokens up to a statement boundary: after a semicolon, or before a word that starts a
statement. `previous` is the token dropped last. -/
def skipToBoundary (previous : Token) : List Token → List Token
  | [] => []
  | t :: ts =>
    if previous.kind = .punct .semicolon ∨ startsStatement t = true then t :: ts
    else skipToBoundary t ts

/-- Drops the token at fault, and then up to a statement boundary. -/
def synchronize : List Token → List Token
  | [] => []
  | t :: ts => skipToBoundary t ts

/-- Turns a failure into a noted fault and goes on at the next statement boundary. -/
def recover (p : Parse α) : Parse (Option α) := fun ts =>
  match p ts with
  | .parsed a rest faults => .parsed (some a) rest faults
  | .failed cause rest faults =>
    .parsed none (synchronize rest) (faults ++ [⟨rest.head?, cause⟩])
  | .exhausted => .exhausted

end Parse
end Lox
