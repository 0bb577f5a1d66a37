import Lox.Token.Lexer

/-!
# Reading items one at a time

A `Cursor` is a source text that is being read: each call of `next` gives the next token or lexical
error, and nothing any more once the end of the source has been reported.
-/

set_option autoImplicit false

namespace Lox.Lexer

/-- How far a source text has been read. -/
structure Cursor where
  /-- The text that is left; nothing is left when the end has been reported. -/
  rest : Option (List Char)
  /-- The line on which that text starts. -/
  line : Nat
  deriving DecidableEq, Repr

namespace Cursor

/-- A source text of which nothing has been read. -/
def start (source : String) : Cursor := ⟨some source.toList, 1⟩

/-- The first item of a text that starts on `line`, and how far it has then been read. -/
def read (line : Nat) : List Char → Item × Cursor
  | [] => (.ok ⟨.eof, "", line⟩, ⟨none, line⟩)
  | c :: cs =>
    let p := nextPiece c cs
    let line := line + p.taken.count '\n'
    match p.item? line with
    | some item => (item, ⟨some p.rest, line⟩)
    | none => read line p.rest
termination_by cs => cs.length
decreasing_by
  simp only [List.length_cons]
  have := length_rest_nextPiece c cs
  omega

/-- The next item, if there is one. -/
def next (c : Cursor) : Option Item × Cursor :=
  match c.rest with
  | none => (none, c)
  | some cs =>
    let (item, c) := read c.line cs
    (some item, c)

/-- What call number `n` of `next` gives, counted from 0. -/
def nth (c : Cursor) : Nat → Option Item
  | 0 => c.next.1
  | n + 1 => c.next.2.nth n

end Cursor
end Lox.Lexer
