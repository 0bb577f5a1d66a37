/-!
# JSON documents

A document is built from strings, ready-made number texts, arrays and objects. `compact` writes it
without blanks, `pretty` one item a line with two blanks for each level; both keep the order of the
fields.
-/

set_option autoImplicit false

namespace Lox

/-- A JSON document. -/
inductive Json where
  | null
  /-- A number with its text. -/
  | number (text : String)
  | string (contents : String)
  | array (items : List Json)
  | object (fields : List (String × Json))

namespace Json

/-! ## Strings -/

/-- A digit below sixteen in lower case. -/
def hexDigit (n : Nat) : Char := n.digitChar

/-- A character inside a string: quotes, backslashes and control characters are escaped. -/
def escapeChar (c : Char) : List Char :=
  match c with
  | '"' => ['\\', '"']
  | '\\' => ['\\', '\\']
  | '\n' => ['\\', 'n']
  | '\r' => ['\\', 'r']
  | '\t' => ['\\', 't']
  | '\x08' => ['\\', 'b']
  | '\x0c' => ['\\', 'f']
  | _ =>
    if c.toNat < 32 then
      ['\\', 'u', '0', '0', hexDigit (c.toNat / 16), hexDigit (c.toNat % 16)]
    else [c]

/-- A string in quotes. -/
def quote (s : String) : String :=
  "\"" ++ String.ofList (s.toList.flatMap escapeChar) ++ "\""

/-! ## Without blanks -/

mutual

/-- A document without blanks. -/
def compact : Json → String
  | .null => "null"
  | .number text => text
  | .string contents => quote contents
  | .array items => "[" ++ compactItems items ++ "]"
  | .object fields => "\x7b" ++ compactFields fields ++ "\x7d"

def compactItems : List Json → String
  | [] => ""
  | [item] => item.compact
  | item :: items => item.compact ++ "," ++ compactItems items

def compactFields : List (String × Json) → String
  | [] => ""
  | [(key, value)] => quote key ++ ":" ++ value.compact
  | (key, value) :: fields => quote key ++ ":" ++ value.compact ++ "," ++ compactFields fields

end

/-! ## One item a line -/

/-- A new line at a level of nesting. -/
def newline (level : Nat) : String :=
  String.ofList ('\n' :: List.replicate (2 * level) ' ')

mutual

/-- A document with one item a line; its own first line is already indented to `level`. -/
def prettyAt (level : Nat) : Json → String
  | .null => "null"
  | .number text => text
  | .string contents => quote contents
  | .array [] => "[]"
  | .array items => "[" ++ prettyItems (level + 1) items ++ newline level ++ "]"
  | .object [] => "\x7b\x7d"
  | .object fields => "\x7b" ++ prettyFields (level + 1) fields ++ newline level ++ "\x7d"

def prettyItems (level : Nat) : List Json → String
  | [] => ""
  | [item] => newline level ++ item.prettyAt level
  | item :: items => newline level ++ item.prettyAt level ++ "," ++ prettyItems level items

def prettyFields (level : Nat) : List (String × Json) → String
  | [] => ""
  | [(key, value)] => newline level ++ quote key ++ ": " ++ value.prettyAt level
  | (key, value) :: fields =>
    newline level ++ quote key ++ ": " ++ value.prettyAt level ++ "," ++ prettyFields level fields

end

/-- A document with one item a line. -/
def pretty (j : Json) : String :=
  j.prettyAt 0

/-- A document or `null`. -/
def opt {α : Type} (f : α → Json) : Option α → Json
  | none => .null
  | some a => f a

/-- A natural number. -/
def nat (n : Nat) : Json := .number n.repr

/-- An object with one field. -/
def tagged (tag : String) (value : Json) : Json :=
  .object [(tag, value)]

end Json
end Lox
