import Lox.Proofs.FrontEnd.Bytes
import Lox.Token.Cursor

/-!
# The scanner by byte indices

The scanner as a machine over the bytes of a text: `start` and `curr` are the byte indices between
which the current piece stands, and every byte and every slice is looked up by index. A look-up that
is out of range, or a slice that cuts a character, gives nothing, and then so does the call. Every
step moves `curr` forwards (`scanToken_lt`), which is why the loop of `next` ends, and a call that
gives an item has moved it (`next_lt`).
-/

set_option autoImplicit false

namespace Lox.Scanner

open Lexer

/-- The state of the scanner. -/
structure Reader where
  /-- The index of the first byte of the piece. -/
  start : Nat
  /-- The index behind the last byte that was taken. -/
  curr : Nat
  line : Nat
  deriving DecidableEq, Repr

/-- Nothing has been read. -/
def Reader.first : Reader := ⟨0, 0, 1⟩

/-- A character within a string has been passed; a newline is counted. -/
def Reader.passed (r : Reader) (c : Char) : Reader :=
  { r with line := if c = '\n' then r.line + 1 else r.line }

variable (text : String)

/-! ## Single bytes -/

/-- The next byte, which stays; 0 at the end. -/
def peek (r : Reader) : Char :=
  letter ((byteAt? text r.curr).getD 0)

/-- The byte after the next one; 0 at the end. -/
def peekNext (r : Reader) : Char :=
  letter ((byteAt? text (r.curr + 1)).getD 0)

/-- Takes the next byte, which has to be there. -/
def advance (r : Reader) : Option (Char × Reader) :=
  (byteAt? text r.curr).map fun b => (letter b, { r with curr := r.curr + 1 })

/-- Takes the next byte if it is the one expected. -/
def matchByte (expected : Char) (r : Reader) : Option (Bool × Reader) :=
  if r.curr < text.utf8ByteSize ∧ peek text r = expected then
    (advance text r).map fun (_, r) => (true, r)
  else some (false, r)

theorem advance_curr {text : String} {r r' : Reader} {c : Char}
    (h : advance text r = some (c, r')) :
    r.curr < text.utf8ByteSize ∧ r' = { r with curr := r.curr + 1 } := by
  obtain ⟨b, hb, hpair⟩ := Option.map_eq_some_iff.1 h
  cases hpair
  obtain ⟨hlt, -⟩ := List.getElem?_eq_some_iff.1 hb
  rw [bytes_eq] at hlt
  rw [utf8ByteSize_eq]
  exact ⟨hlt, rfl⟩

/-! ## Loops over bytes -/

/-- Takes bytes as long as they are in a class. -/
def advanceWhile (p : Char → Bool) (r : Reader) : Option Reader :=
  if p (peek text r) then
    match _h : advance text r with
    | none => none
    | some (_, r) => advanceWhile p r
  else some r
termination_by text.utf8ByteSize - r.curr
decreasing_by
  obtain ⟨hlt, rfl⟩ := advance_curr _h
  show _ - (_ + 1) < _
  omega

/-- Takes bytes up to a quote or the end, counting lines. -/
def stringBody (r : Reader) : Option Reader :=
  if r.curr < text.utf8ByteSize ∧ peek text r ≠ '"' then
    match _h : advance text r with
    | none => none
    | some (c, r) => stringBody (r.passed c)
  else some r
termination_by text.utf8ByteSize - r.curr
decreasing_by
  obtain ⟨_, rfl⟩ := advance_curr _h
  show _ - (_ + 1) < _
  omega

/-! ## Pieces -/

/-- The rest of a comment, up to the end of its line. -/
def comment (r : Reader) : Option Reader := do
  let rest ← bytesBetween? text r.curr text.utf8ByteSize
  match rest.findIdx? fun b => letter b == '\n' with
  | some pos => some { r with curr := r.curr + pos }
  | none => some { r with curr := text.utf8ByteSize }

/-- A mark that may be followed by an equals sign. -/
def either (p pe : Punct) (r : Reader) : Option (PieceKind × Reader) := do
  let (doubled, r) ← matchByte text '=' r
  some (.token (.punct (if doubled then pe else p)), r)

/-- A comment, or else a slash. -/
def slash (r : Reader) : Option (PieceKind × Reader) := do
  let (doubled, r) ← matchByte text '/' r
  if doubled then
    let r ← comment text r
    some (.skipped, r)
  else some (.token (.punct .slash), r)

/-- A string literal; its contents are sliced out between the quotes. -/
def string (r : Reader) : Option (PieceKind × Reader) := do
  let r ← stringBody text r
  if text.utf8ByteSize ≤ r.curr then some (.wrong .unterminatedString, r)
  else
    let (_, r) ← advance text r
    let contents ← slice? text (r.start + 1) (r.curr - 1)
    some (.token (.string contents), r)

/-- The value of a numeral. -/
def numeralFloat (s : String) : Float :=
  Number.ofNumeral (s.toList.takeWhile isDigit) ((s.toList.dropWhile isDigit).drop 1)

/-- The fraction of a number, if a digit follows the point. -/
def fraction (r : Reader) : Option Reader :=
  if peek text r = '.' ∧ isDigit (peekNext text r) = true then do
    let (_, r) ← advance text r
    advanceWhile text isDigit r
  else some r

/-- A number literal. -/
def number (r : Reader) : Option (PieceKind × Reader) := do
  let r ← advanceWhile text isDigit r
  let r ← fraction text r
  let numeral ← slice? text r.start r.curr
  some (.token (.number (numeralFloat numeral)), r)

/-- The reserved word that is spelled by these bytes. -/
def keyword? (spelling : List UInt8) : Option Keyword :=
  Keyword.all.find? fun k => bytes k.spelling == spelling

/-- An identifier or a reserved word. -/
def name (r : Reader) : Option (PieceKind × Reader) := do
  let r ← advanceWhile text isNameRest r
  let spelling ← bytesBetween? text r.start r.curr
  match keyword? spelling with
  | some k => some (.token (.keyword k), r)
  | none => some (.token .identifier, r)

/-- A character that starts no token, and all of its bytes. -/
def unexpected (r : Reader) : Option (PieceKind × Reader) := do
  let rest ← slice? text r.start text.utf8ByteSize
  let c := rest.toList.head?.getD '\uFFFD'
  some (.wrong (.unexpectedCharacter c), { r with curr := r.start + c.utf8Size })

/-- The piece that begins with the byte `c`, which has been taken. -/
def scanAfter (c : Char) (r : Reader) : Option (PieceKind × Reader) :=
  match c with
  | '(' => some (.token (.punct .leftParen), r)
  | ')' => some (.token (.punct .rightParen), r)
  | '\x7b' => some (.token (.punct .leftBrace), r)
  | '\x7d' => some (.token (.punct .rightBrace), r)
  | ',' => some (.token (.punct .comma), r)
  | '.' => some (.token (.punct .dot), r)
  | '-' => some (.token (.punct .minus), r)
  | '+' => some (.token (.punct .plus), r)
  | ';' => some (.token (.punct .semicolon), r)
  | '*' => some (.token (.punct .star), r)
  | '!' => either text .bang .bangEqual r
  | '=' => either text .equal .equalEqual r
  | '<' => either text .less .lessEqual r
  | '>' => either text .greater .greaterEqual r
  | ' ' | '\r' | '\t' => some (.skipped, r)
  | '\n' => some (.skipped, { r with line := r.line + 1 })
  | '/' => slash text r
  | '"' => string text r
  | _ =>
    if isDigit c then number text r
    else if isNameStart c then name text r
    else unexpected text r

/-- One piece. -/
def scanToken (r : Reader) : Option (PieceKind × Reader) := do
  let (c, r) ← advance text r
  scanAfter text c r

/-! ## Every step moves forwards -/

variable {text : String} {r r' : Reader} {kind : PieceKind}

theorem advanceWhile_le {p : Char → Bool} (h : advanceWhile text p r = some r') :
    r.curr ≤ r'.curr := by
  fun_induction advanceWhile text p r with
  | case1 r hp hnone => cases h
  | case2 r hp c r₁ hsome ih =>
    obtain ⟨-, rfl⟩ := advance_curr hsome
    exact Nat.le_of_succ_le (ih h)
  | case3 r hp => cases h; exact Nat.le_refl _

theorem stringBody_le (h : stringBody text r = some r') : r.curr ≤ r'.curr := by
  fun_induction stringBody text r with
  | case1 r hp hnone => cases h
  | case2 r hp c r₁ hsome ih =>
    obtain ⟨-, rfl⟩ := advance_curr hsome
    exact Nat.le_of_succ_le (ih h)
  | case3 r hp => cases h; exact Nat.le_refl _

theorem matchByte_le {c : Char} {taken : Bool} (h : matchByte text c r = some (taken, r')) :
    r.curr ≤ r'.curr := by
  unfold matchByte at h
  split at h
  · obtain ⟨⟨c', r₁⟩, hadvance, hpair⟩ := Option.map_eq_some_iff.1 h
    obtain ⟨-, rfl⟩ := advance_curr hadvance
    cases hpair
    exact Nat.le_succ _
  · cases h
    exact Nat.le_refl _

theorem comment_le (h : comment text r = some r') : r.curr ≤ r'.curr := by
  unfold comment bytesBetween? at h
  obtain ⟨rest, hrest, h⟩ := Option.bind_eq_some_iff.1 h
  split at hrest
  · rename_i hrange
    split at h <;> cases h
    · exact Nat.le_add_right _ _
    · exact hrange.1
  · cases hrest

theorem either_le {p pe : Punct} (h : either text p pe r = some (kind, r')) :
    r.curr ≤ r'.curr := by
  obtain ⟨⟨taken, r₁⟩, hmatch, h⟩ := Option.bind_eq_some_iff.1 h
  cases h
  exact matchByte_le hmatch

theorem slash_le (h : slash text r = some (kind, r')) : r.curr ≤ r'.curr := by
  obtain ⟨⟨taken, r₁⟩, hmatch, h⟩ := Option.bind_eq_some_iff.1 h
  have hle := matchByte_le hmatch
  dsimp only at h
  split at h
  · obtain ⟨r₂, hcomment, h⟩ := Option.bind_eq_some_iff.1 h
    cases h
    exact Nat.le_trans hle (comment_le hcomment)
  · cases h
    exact hle

theorem string_le (h : string text r = some (kind, r')) : r.curr ≤ r'.curr := by
  obtain ⟨r₁, hbody, h⟩ := Option.bind_eq_some_iff.1 h
  have hle := stringBody_le hbody
  dsimp only at h
  split at h
  · cases h
    exact hle
  · obtain ⟨⟨c, r₂⟩, hadvance, h⟩ := Option.bind_eq_some_iff.1 h
    obtain ⟨contents, -, h⟩ := Option.bind_eq_some_iff.1 h
    obtain ⟨-, rfl⟩ := advance_curr hadvance
    cases h
    exact Nat.le_succ_of_le hle

theorem fraction_le (h : fraction text r = some r') : r.curr ≤ r'.curr := by
  unfold fraction at h
  split at h
  · obtain ⟨⟨c, r₁⟩, hadvance, h⟩ := Option.bind_eq_some_iff.1 h
    obtain ⟨-, rfl⟩ := advance_curr hadvance
    exact Nat.le_of_succ_le (advanceWhile_le h)
  · cases h
    exact Nat.le_refl _

theorem number_le (h : number text r = some (kind, r')) : r.curr ≤ r'.curr := by
  obtain ⟨r₁, hwhole, h⟩ := Option.bind_eq_some_iff.1 h
  obtain ⟨r₂, hfraction, h⟩ := Option.bind_eq_some_iff.1 h
  obtain ⟨numeral, -, h⟩ := Option.bind_eq_some_iff.1 h
  cases h
  exact Nat.le_trans (advanceWhile_le hwhole) (fraction_le hfraction)

theorem name_le (h : name text r = some (kind, r')) : r.curr ≤ r'.curr := by
  obtain ⟨r₁, hrest, h⟩ := Option.bind_eq_some_iff.1 h
  obtain ⟨spelling, -, h⟩ := Option.bind_eq_some_iff.1 h
  have hle := advanceWhile_le hrest
  split at h <;> (cases h; exact hle)

theorem unexpected_lt (h : unexpected text r = some (kind, r')) : r.start < r'.curr := by
  obtain ⟨rest, -, h⟩ := Option.bind_eq_some_iff.1 h
  cases h
  exact Nat.lt_add_of_pos_right (Char.utf8Size_pos _)

/-- A piece is not empty: its first byte is taken, or the whole character that starts there. -/
theorem scanToken_lt (hstart : r.start = r.curr) (h : scanToken text r = some (kind, r')) :
    r.curr < r'.curr := by
  obtain ⟨⟨c, r₁⟩, hadvance, h⟩ := Option.bind_eq_some_iff.1 h
  obtain ⟨-, rfl⟩ := advance_curr hadvance
  dsimp only at h
  unfold scanAfter at h
  split at h
  iterate 10 cases h; exact Nat.lt_succ_self _
  iterate 4 exact either_le h
  iterate 4 cases h; exact Nat.lt_succ_self _
  · exact slash_le h
  · exact string_le h
  split at h
  · exact number_le h
  split at h
  · exact name_le h
  · rw [← hstart]
    exact unexpected_lt h

/-! ## Items -/

/-- One call: the next item, if there is one. The end of the text is given once. -/
def next (text : String) (r : Reader) : Option (Option Item × Reader) :=
  if r.curr ≤ text.utf8ByteSize then
    if r.curr = text.utf8ByteSize then
      some (some (.ok ⟨.eof, "", r.line⟩), { r with curr := r.curr + 1 })
    else
      match _h : scanToken text { r with start := r.curr } with
      | none => none
      | some (.wrong cause, r) => some (some (.error (.lexical r.line cause)), r)
      | some (.token kind, r) =>
        (slice? text r.start r.curr).map fun lexeme => (some (.ok ⟨kind, lexeme, r.line⟩), r)
      | some (.skipped, r) => next text r
  else some (none, r)
termination_by text.utf8ByteSize + 1 - r.curr
decreasing_by
  have hlt := scanToken_lt rfl _h
  dsimp only at hlt
  omega

/-- A call that gives an item started within the text and has moved forwards. -/
theorem next_lt {item : Item} (h : next text r = some (some item, r')) :
    r.curr ≤ text.utf8ByteSize ∧ r.curr < r'.curr := by
  fun_induction next text r with
  | case1 r hle hend =>
    cases h
    exact ⟨hle, Nat.lt_succ_self _⟩
  | case2 r hle hend hnone => cases h
  | case3 r hle hend cause r₁ hwrong =>
    cases h
    have hlt := scanToken_lt rfl hwrong
    exact ⟨hle, hlt⟩
  | case4 r hle hend kind r₁ htoken =>
    obtain ⟨lexeme, -, hpair⟩ := Option.map_eq_some_iff.1 h
    cases hpair
    have hlt := scanToken_lt rfl htoken
    exact ⟨hle, hlt⟩
  | case5 r hle hend r₁ hskipped ih =>
    have hlt := scanToken_lt rfl hskipped
    exact ⟨hle, Nat.lt_trans hlt (ih h).2⟩
  | case6 r hle => cases h

/-- All items, by calls up to the first that gives none. -/
def scanAll (text : String) (r : Reader) : Option (List Item) :=
  match _h : next text r with
  | none => none
  | some (none, _) => some []
  | some (some item, r) => (scanAll text r).map (item :: ·)
termination_by text.utf8ByteSize + 1 - r.curr
decreasing_by
  obtain ⟨hle, hlt⟩ := next_lt _h
  omega

end Lox.Scanner
