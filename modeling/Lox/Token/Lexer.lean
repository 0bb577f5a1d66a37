import Lox.Error

/-!
# Reading tokens

`scan` cuts a source text into tokens and lexical errors, in order, and ends with the token for the
end of the source. `nextPiece` takes the longest piece that the head of the text can start: a token,
something to skip, or something that is no token. `scanFrom` repeats it; a piece is never empty, so
the text that is left gets shorter. Lines are counted by the newlines in the pieces.
-/

set_option autoImplicit false

namespace Lox.Lexer

/-! ## Character classes -/

/-- The digits of numbers; other scripts' digits are not among them. -/
def isDigit (c : Char) : Bool :=
  '0' ≤ c && c ≤ '9'

/-- Identifiers start with an ASCII letter or an underscore. -/
def isNameStart (c : Char) : Bool :=
  ('a' ≤ c && c ≤ 'z') || ('A' ≤ c && c ≤ 'Z') || c == '_'

/-- Later characters of an identifier may be digits too. -/
def isNameRest (c : Char) : Bool :=
  isNameStart c || isDigit c

/-- Characters that only separate tokens. -/
def isBlank (c : Char) : Bool :=
  c == ' ' || c == '\t' || c == '\r' || c == '\n'

/-! ## One piece -/

/-- What a piece of the source is. -/
inductive PieceKind where
  | token (kind : TokenKind)
  /-- A blank character or a comment. -/
  | skipped
  | wrong (cause : LexCause)
  deriving DecidableEq, Repr

/-- A piece of the source and what follows it. -/
structure Piece where
  kind : PieceKind
  taken : List Char
  rest : List Char
  deriving DecidableEq, Repr

/-- The punctuation mark `p`, or `pe` if an equals sign follows. -/
def withEqual (c : Char) (p pe : Punct) (cs : List Char) : Piece :=
  match cs with
  | '=' :: rest => ⟨.token (.punct pe), [c, '='], rest⟩
  | _ => ⟨.token (.punct p), [c], cs⟩

/-- A comment up to the end of the line, or else a slash; `cs` follows the first slash. -/
def slash (cs : List Char) : Piece :=
  match cs with
  | '/' :: rest =>
    ⟨.skipped, '/' :: '/' :: rest.takeWhile (· != '\n'), rest.dropWhile (· != '\n')⟩
  | _ => ⟨.token (.punct .slash), ['/'], cs⟩

/-- A string literal, which may span lines; `cs` follows the opening quote. -/
def string (cs : List Char) : Piece :=
  let body := cs.takeWhile (· != '"')
  match cs.dropWhile (· != '"') with
  | [] => ⟨.wrong .unterminatedString, '"' :: body, []⟩
  | q :: rest => ⟨.token (.string (String.ofList body)), '"' :: (body ++ [q]), rest⟩

/-- A number literal; `cs` starts with its first digit. A point belongs to it only if a digit
follows. -/
def number (cs : List Char) : Piece :=
  let whole := cs.takeWhile isDigit
  let rest := cs.dropWhile isDigit
  match rest with
  | '.' :: d :: more =>
    if isDigit d then
      let fraction := (d :: more).takeWhile isDigit
      ⟨.token (.number (Number.ofNumeral whole fraction)), whole ++ '.' :: fraction,
        (d :: more).dropWhile isDigit⟩
    else ⟨.token (.number (Number.ofNumeral whole [])), whole, rest⟩
  | _ => ⟨.token (.number (Number.ofNumeral whole [])), whole, rest⟩

/-- An identifier or a reserved word; `cs` starts with its first character. -/
def name (cs : List Char) : Piece :=
  let spelling := cs.takeWhile isNameRest
  let kind := match Keyword.ofSpelling? (String.ofList spelling) with
    | some k => TokenKind.keyword k
    | none => TokenKind.identifier
  ⟨.token kind, spelling, cs.dropWhile isNameRest⟩

/-- The piece at the head of the text `c :: cs`. -/
def nextPiece (c : Char) (cs : List Char) : Piece :=
  match c with
  | '(' => ⟨.token (.punct .leftParen), [c], cs⟩
  | ')' => ⟨.token (.punct .rightParen), [c], cs⟩
  | '\x7b' => ⟨.token (.punct .leftBrace), [c], cs⟩
  | '\x7d' => ⟨.token (.punct .rightBrace), [c], cs⟩
  | ',' => ⟨.token (.punct .comma), [c], cs⟩
  | '.' => ⟨.token (.punct .dot), [c], cs⟩
  | '-' => ⟨.token (.punct .minus), [c], cs⟩
  | '+' => ⟨.token (.punct .plus), [c], cs⟩
  | ';' => ⟨.token (.punct .semicolon), [c], cs⟩
  | '*' => ⟨.token (.punct .star), [c], cs⟩
  | '!' => withEqual c .bang .bangEqual cs
  | '=' => withEqual c .equal .equalEqual cs
  | '<' => withEqual c .less .lessEqual cs
  | '>' => withEqual c .greater .greaterEqual cs
  | '/' => slash cs
  | '"' => string cs
  | _ =>
    if isBlank c then ⟨.skipped, [c], cs⟩
    else if isDigit c then number (c :: cs)
    else if isNameStart c then name (c :: cs)
    else ⟨.wrong (.unexpectedCharacter c), [c], cs⟩

/-! ## Pieces are not empty -/

theorem length_dropWhile_le (p : Char → Bool) (cs : List Char) :
    (cs.dropWhile p).length ≤ cs.length :=
  (List.dropWhile_sublist p).length_le

theorem length_rest_string (cs : List Char) : (string cs).rest.length ≤ cs.length := by
  have h := length_dropWhile_le (· != '"') cs
  unfold string
  split
  · simp
  · rename_i q rest e
    rw [e] at h
    simp only [List.length_cons] at h
    show rest.length ≤ _
    omega

theorem length_rest_slash (cs : List Char) : (slash cs).rest.length ≤ cs.length := by
  unfold slash
  split
  · rename_i rest
    have h := length_dropWhile_le (· != '\n') rest
    simp only [List.length_cons]
    omega
  · exact Nat.le_refl _

theorem length_rest_withEqual (c : Char) (p pe : Punct) (cs : List Char) :
    (withEqual c p pe cs).rest.length ≤ cs.length := by
  unfold withEqual
  split <;> simp

theorem length_rest_number {c : Char} (cs : List Char) (hc : isDigit c = true) :
    (number (c :: cs)).rest.length ≤ cs.length := by
  have h := length_dropWhile_le isDigit cs
  unfold number
  simp only [List.dropWhile_cons, hc, if_true]
  split
  · rename_i d more e
    rw [e] at h
    simp only [List.length_cons] at h
    split
    · have h' := length_dropWhile_le isDigit more
      show (more.dropWhile isDigit).length ≤ _
      omega
    · show (cs.dropWhile isDigit).length ≤ _
      rw [e]
      simp only [List.length_cons]
      omega
  · exact h

theorem length_rest_name {c : Char} (cs : List Char) (hc : isNameStart c = true) :
    (name (c :: cs)).rest.length ≤ cs.length := by
  have h := length_dropWhile_le isNameRest cs
  have hr : isNameRest c = true := by simp [isNameRest, hc]
  simpa [name, hr] using h

/-- A piece takes at least one character. -/
theorem length_rest_nextPiece (c : Char) (cs : List Char) :
    (nextPiece c cs).rest.length ≤ cs.length := by
  unfold nextPiece
  split
  iterate 10 exact Nat.le_refl _
  iterate 4 exact length_rest_withEqual ..
  · exact length_rest_slash cs
  · exact length_rest_string cs
  split
  · exact Nat.le_refl _
  split
  · rename_i h
    exact length_rest_number cs h
  split
  · rename_i h
    exact length_rest_name cs h
  · exact Nat.le_refl _

/-! ## The whole text -/

/-- A token, or a lexical error in its place. -/
abbrev Item := Except CompileError Token

/-- What a piece that ends on `line` contributes; skipped pieces contribute nothing. -/
def Piece.item? (p : Piece) (line : Nat) : Option Item :=
  match p.kind with
  | .token kind => some (.ok ⟨kind, String.ofList p.taken, line⟩)
  | .skipped => none
  | .wrong cause => some (.error (.lexical line cause))

/-- The items of a text that starts on `line`. -/
def scanFrom (line : Nat) : List Char → List Item
  | [] => [.ok ⟨.eof, "", line⟩]
  | c :: cs =>
    let p := nextPiece c cs
    let line := line + p.taken.count '\n'
    match p.item? line with
    | some item => item :: scanFrom line p.rest
    | none => scanFrom line p.rest
termination_by cs => cs.length
decreasing_by
  all_goals
    simp only [List.length_cons]
    have := length_rest_nextPiece c cs
    omega

/-- The tokens and lexical errors of a source text, in order. -/
def scan (source : String) : List Item :=
  scanFrom 1 source.toList

/-- The tokens among the items. -/
def tokens (items : List Item) : List Token :=
  items.filterMap fun
    | .ok t => some t
    | .error _ => none

/-- The lexical errors among the items. -/
def errors (items : List Item) : List CompileError :=
  items.filterMap fun
    | .ok _ => none
    | .error e => some e

end Lox.Lexer
