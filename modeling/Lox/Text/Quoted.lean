import Lox.Text.Combining
import Lox.Text.NonGraphic

/-!
# Quoted text

`quoted` writes a text between double quotes on one line so that every character of it can be seen:
quotes, backslashes and line breaks get a backslash, and a character that would leave no mark or
join with the one before it is written by its number.
-/

set_option autoImplicit false

namespace Lox.Text

/-- Whether a character shows itself by a mark of its own, or is the space. -/
def isVisible (c : Char) : Bool :=
  !(nonGraphic.has c || ignorable.has c || combining.has c)

/-- A character between quotes. -/
def quotedChar (c : Char) : List Char :=
  match c with
  | '"' => ['\\', '"']
  | '\\' => ['\\', '\\']
  | '\n' => ['\\', 'n']
  | '\r' => ['\\', 'r']
  | '\t' => ['\\', 't']
  | '\x00' => ['\\', '0']
  | _ =>
    if isVisible c then [c]
    else '\\' :: 'u' :: '\x7b' :: (Nat.toDigits 16 c.toNat ++ ['\x7d'])

/-- A text in quotes. -/
def quoted (s : String) : String :=
  "\"" ++ String.ofList (s.toList.flatMap quotedChar) ++ "\""

end Lox.Text
