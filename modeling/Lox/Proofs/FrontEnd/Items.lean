import Lox.Proofs.FrontEnd.Pieces

/-!
# The items of the scanner by byte indices

Between two calls the scanner's index stands where the cursor over characters is (`Tracks`). So no
call is out of range, the items are those of `Cursor.next` (`Tracks.nth`), a call that gives one
moves forwards (`next_advances`), and all calls together give the items of `scan` (`scanAll_eq`).
-/

set_option autoImplicit false

namespace Lox.Scanner

open Lexer

variable {text : String} {r : Reader} {c : Char} {cs : List Char}

/-! ## Single calls -/

/-- The index stands where the cursor over characters is; behind the end once the end is given. -/
structure Tracks (text : String) (r : Reader) (c : Cursor) : Prop where
  line : r.line = c.line
  rest : ∀ cs, c.rest = some cs → At text r.curr cs
  ended : c.rest = none → r.curr = text.utf8ByteSize + 1

theorem Tracks.first (text : String) : Tracks text .first (Cursor.start text) where
  line := rfl
  rest := by
    rintro cs ⟨⟩
    exact At.start text
  ended := nofun

theorem Tracks.of_at {line : Nat} (hline : r.line = line) (h : At text r.curr cs) :
    Tracks text r ⟨some cs, line⟩ where
  line := hline
  rest := by
    rintro ds ⟨⟩
    exact h
  ended := nofun

/-- The state after a piece stands in front of the rest. -/
theorem At.after_piece (h : At text r.curr (c :: cs)) :
    At text (r.after (nextPiece c cs).taken).curr (nextPiece c cs).rest := by
  rw [← taken_append_rest c cs] at h
  exact h.after

theorem slice?_piece (h : At text r.curr (c :: cs)) :
    slice? text r.curr (r.after (nextPiece c cs).taken).curr =
      some (String.ofList (nextPiece c cs).taken) := by
  rw [← taken_append_rest c cs] at h
  exact h.slice?

section

variable {r' : Reader}

theorem next_of_wrong {cause : LexCause} (hlt : r.curr < text.utf8ByteSize)
    (hscan : scanToken text { r with start := r.curr } = some (.wrong cause, r')) :
    next text r = some (some (.error (.lexical r'.line cause)), r') := by
  rw [next, if_pos (Nat.le_of_lt hlt), if_neg (Nat.ne_of_lt hlt)]
  split <;> simp_all

theorem next_of_token {kind : TokenKind} {lexeme : String} (hlt : r.curr < text.utf8ByteSize)
    (hscan : scanToken text { r with start := r.curr } = some (.token kind, r'))
    (hslice : slice? text r'.start r'.curr = some lexeme) :
    next text r = some (some (.ok ⟨kind, lexeme, r'.line⟩), r') := by
  rw [next, if_pos (Nat.le_of_lt hlt), if_neg (Nat.ne_of_lt hlt)]
  split <;> simp_all

theorem next_of_skipped (hlt : r.curr < text.utf8ByteSize)
    (hscan : scanToken text { r with start := r.curr } = some (.skipped, r')) :
    next text r = next text r' := by
  rw [next, if_pos (Nat.le_of_lt hlt), if_neg (Nat.ne_of_lt hlt)]
  split <;> simp_all

end

/-- One call within the text gives the item that is read off the characters. -/
theorem next_read (line : Nat) (cs : List Char) : ∀ r : Reader, r.line = line →
    At text r.curr cs → ∃ r', next text r = some (some (Cursor.read line cs).1, r') ∧
      Tracks text r' (Cursor.read line cs).2 := by
  fun_induction Cursor.read line cs with
  | case1 line =>
    intro r hline h
    have hend : r.curr = text.utf8ByteSize := h.size.symm
    have hnone : ∀ ds : List Char, none = some ds → At text (r.curr + 1) ds := by simp
    refine ⟨{ r with curr := r.curr + 1 }, ?_, hline, hnone, fun _ => congrArg (· + 1) hend⟩
    rw [next, if_pos (Nat.le_of_eq hend), if_pos hend, hline]
  | case2 line c cs p line' item hitem =>
    rintro r rfl h
    have hscan := scanToken_eq (r := { r with start := r.curr }) rfl h
    have htracks : Tracks text ({ r with start := r.curr }.after p.taken) ⟨some p.rest, line'⟩ :=
      .of_at rfl (At.after_piece (r := { r with start := r.curr }) h)
    refine ⟨_, ?_, htracks⟩
    unfold Piece.item? at hitem
    split at hitem
    · rename_i kind hkind
      cases hitem
      rw [hkind] at hscan
      rw [next_of_token h.lt hscan (slice?_piece h)]
      rfl
    · cases hitem
    · rename_i cause hkind
      cases hitem
      rw [hkind] at hscan
      rw [next_of_wrong h.lt hscan]
      rfl
  | case3 line c cs p line' hitem ih =>
    rintro r rfl h
    have hscan := scanToken_eq (r := { r with start := r.curr }) rfl h
    have hkind : (nextPiece c cs).kind = .skipped := by
      unfold Piece.item? at hitem
      split at hitem
      · cases hitem
      · assumption
      · cases hitem
    rw [hkind] at hscan
    rw [next_of_skipped h.lt hscan]
    exact ih _ rfl (At.after_piece (r := { r with start := r.curr }) h)

/-- A call gives what the cursor over characters gives, and the two stay together. -/
theorem Tracks.next {cur : Cursor} (h : Tracks text r cur) :
    ∃ r', Scanner.next text r = some (cur.next.1, r') ∧ Tracks text r' cur.next.2 := by
  obtain ⟨rest, line⟩ := cur
  cases rest with
  | none =>
    refine ⟨r, ?_, h⟩
    have hended := h.ended rfl
    rw [Scanner.next, if_neg (by omega)]
    rfl
  | some cs => exact next_read line cs r h.line (h.rest cs rfl)

/-- The state before call number `n`, counted from 0. -/
def afterCalls (text : String) (r : Reader) : Nat → Option Reader
  | 0 => some r
  | n + 1 => (Scanner.next text r).bind fun (_, r) => afterCalls text r n

/-- Every call is in range and gives the item of the cursor over characters. -/
theorem Tracks.nth (n : Nat) : ∀ {r : Reader} {cur : Cursor}, Tracks text r cur →
    ∃ r₁ r₂, afterCalls text r n = some r₁ ∧ Scanner.next text r₁ = some (cur.nth n, r₂) := by
  induction n with
  | zero =>
    intro r cur h
    obtain ⟨r', hnext, -⟩ := h.next
    exact ⟨r, r', rfl, hnext⟩
  | succ n ih =>
    intro r cur h
    obtain ⟨r', hnext, htracks⟩ := h.next
    obtain ⟨r₁, r₂, hcalls, hlast⟩ := ih htracks
    refine ⟨r₁, r₂, ?_, hlast⟩
    rw [afterCalls, hnext]
    exact hcalls

/-- Every call of the scanner looks up bytes and slices within the text only, and moves forwards
when it gives an item. -/
theorem next_advances (text : String) (n : Nat) :
    ∃ r r', afterCalls text .first n = some r ∧
      Scanner.next text r = some ((Cursor.start text).nth n, r') ∧
      (((Cursor.start text).nth n).isSome = true →
        r.curr ≤ text.utf8ByteSize ∧ r.curr < r'.curr) := by
  obtain ⟨r, r', hcalls, hnext⟩ := (Tracks.first text).nth n
  refine ⟨r, r', hcalls, hnext, fun hsome => ?_⟩
  obtain ⟨item, hitem⟩ := Option.isSome_iff_exists.1 hsome
  rw [hitem] at hnext
  exact next_lt hnext

/-! ## All calls -/

/-- The items that are still to come. -/
def itemsFrom (c : Cursor) : List Item :=
  match c.rest with
  | some cs => scanFrom c.line cs
  | none => []

theorem itemsFrom_eq (c : Cursor) : itemsFrom c = match c.next.1 with
    | some item => item :: itemsFrom c.next.2
    | none => [] := by
  obtain ⟨rest, line⟩ := c
  cases rest with
  | none => rfl
  | some cs => exact scanFrom_read line cs

/-- The calls come to an end, and their items are those of the whole text. -/
theorem Tracks.scanAll {cur : Cursor} (h : Tracks text r cur) :
    Scanner.scanAll text r = some (itemsFrom cur) := by
  fun_induction Scanner.scanAll text r generalizing cur with
  | case1 r hnone =>
    obtain ⟨r', hnext, -⟩ := h.next
    rw [hnone] at hnext
    cases hnext
  | case2 r r' hend =>
    obtain ⟨r₁, hnext, -⟩ := h.next
    rw [hend] at hnext
    cases hitem : cur.next.1 with
    | none => rw [itemsFrom_eq, hitem]
    | some item => rw [hitem] at hnext; cases hnext
  | case3 r item r' hsome ih =>
    obtain ⟨r₁, hnext, htracks⟩ := h.next
    rw [hsome] at hnext
    cases hitem : cur.next.1 with
    | none => rw [hitem] at hnext; cases hnext
    | some item' =>
      rw [hitem] at hnext
      cases hnext
      rw [ih htracks, itemsFrom_eq cur, hitem]
      rfl

theorem scanAll_eq (text : String) : scanAll text .first = some (scan text) :=
  (Tracks.first text).scanAll

end Lox.Scanner
