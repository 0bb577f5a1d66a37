import Lox.Proofs.Lines.Scan
import Lox.Proofs.Token.Lexeme
import Lox.Token.Cursor
import Mathlib

/-!
# Maximal munch

A `Tiling` cuts a text into spans, of which each is the longest lexeme at its place, a character at
which no lexeme begins, or an unfinished string. There is exactly one tiling of a text, and the
items of the scanner are those of its spans, each on the line on which its span ends, and then the
end of the source (`scan_munches`). Read one by one, they end in nothing.
-/

set_option autoImplicit false

namespace Lox.Lexer

/-! ## Lexemes determine their kinds -/

theorem Keyword.ofSpelling?_spelling (k : Keyword) : Keyword.ofSpelling? k.spelling = some k := by
  cases k <;> decide

theorem name_kind {cs : List Char} (h : ∀ c ∈ cs, isNameRest c = true) :
    (name cs).kind = .token (match Keyword.ofSpelling? (String.ofList cs) with
      | some k => .keyword k
      | none => .identifier) := by
  have htaken := List.takeWhile_eq_self_iff.2 h
  cases hk : Keyword.ofSpelling? (String.ofList cs) <;> simp only [name, htaken, hk]

/-- A lexeme that stands alone is read as what it is. -/
theorem Lexeme.kind_eq {kind : PieceKind} {c : Char} {cs : List Char} (h : Lexeme kind (c :: cs)) :
    (nextPiece c cs).kind = kind := by
  generalize htext : c :: cs = text at h
  cases h with
  | punct p => cases p <;> cases htext <;> rfl
  | keyword k =>
    obtain ⟨d, ds, hspelling, hd, hds⟩ := Keyword.spelling_cases k
    have hrest : isNameRest d = true := by simp [isNameRest, hd]
    have hword : String.ofList (d :: ds) = k.spelling := by rw [← hspelling, String.ofList_toList]
    rw [hspelling] at htext
    cases htext
    rw [nextPiece_of_isNameStart hd, name_kind (List.forall_mem_cons.2 ⟨hrest, hds⟩), hword,
      Keyword.ofSpelling?_spelling]
  | identifier hc hcs hk =>
    cases htext
    have hrest : isNameRest c = true := by simp [isNameRest, hc]
    have hnone : Keyword.ofSpelling? (String.ofList (c :: cs)) = none := by
      refine List.find?_eq_none.2 fun k _ hspelling => ?_
      exact hk k (beq_iff_eq.1 hspelling).symm
    rw [nextPiece_of_isNameStart hc, name_kind (List.forall_mem_cons.2 ⟨hrest, hcs⟩), hnone]
  | @string body hb =>
    cases htext
    obtain ⟨htake, hdrop⟩ := takeWhile_until hb []
    show (Lexer.string (body ++ ['"'])).kind = _
    unfold Lexer.string
    rw [htake, hdrop]
  | @whole digits hne hd =>
    subst htext
    rw [nextPiece_of_isDigit (hd c (List.mem_cons_self ..))]
    unfold number
    rw [List.takeWhile_eq_self_iff.2 hd, List.dropWhile_eq_nil_iff.2 hd, ← ofNumeral_eq]
  | @decimal whole fraction hw hf hwd hfd =>
    obtain ⟨d, ds, rfl⟩ := List.exists_cons_of_ne_nil hw
    obtain ⟨e, es, rfl⟩ := List.exists_cons_of_ne_nil hf
    cases htext
    have hpoint : isDigit '.' = false := by decide
    rw [nextPiece_of_isDigit (hwd c (List.mem_cons_self ..))]
    show (number (c :: ds ++ '.' :: e :: es)).kind = _
    unfold number
    rw [List.takeWhile_append_of_pos hwd, List.dropWhile_append_of_pos hwd,
      List.takeWhile_cons_of_neg (by simp [hpoint]), List.dropWhile_cons_of_neg (by simp [hpoint])]
    simp only [hfd e (List.mem_cons_self ..), if_true, List.append_nil]
    rw [List.takeWhile_eq_self_iff.2 hfd, ofNumeral_eq]
  | blank hc =>
    cases htext
    rw [nextPiece_of_isBlank hc]
  | @comment body hb =>
    cases htext
    rfl

theorem Lexeme.ne_nil {kind : PieceKind} {text : List Char} (h : Lexeme kind text) : text ≠ [] := by
  cases h with
  | punct p => cases p <;> nofun
  | keyword k => cases k <;> nofun
  | whole hne _ => exact hne
  | decimal => simp
  | _ => nofun

theorem Lexeme.kind_unique {kind kind' : PieceKind} {text : List Char} (h : Lexeme kind text)
    (h' : Lexeme kind' text) : kind = kind' := by
  obtain ⟨c, cs, rfl⟩ := List.exists_cons_of_ne_nil h.ne_nil
  exact h.kind_eq.symm.trans h'.kind_eq

/-! ## Tilings -/

/-- Consecutive characters of a source text, and what they are. -/
structure Span where
  kind : PieceKind
  text : List Char

/-- What a span that ends on `line` contributes. -/
def Span.item? (p : Span) (line : Nat) : Option Item :=
  match p.kind with
  | .token kind => some (.ok ⟨kind, String.ofList p.text, line⟩)
  | .skipped => none
  | .wrong cause => some (.error (.lexical line cause))

/-- The span is right where this text comes after it. -/
inductive Span.Right : Span → List Char → Prop
  /-- It is a lexeme, and no lexeme that begins here is longer. -/
  | lexeme {kind : PieceKind} {text rest : List Char} (h : Lexeme kind text)
      (hlongest : ∀ kind' text', Lexeme kind' text' → text' <+: text ++ rest →
        text'.length ≤ text.length) : Right ⟨kind, text⟩ rest
  /-- No lexeme begins here, and no string. -/
  | unexpected {c : Char} {rest : List Char} (hquote : c ≠ '"')
      (hnone : ∀ kind text, Lexeme kind text → ¬ text <+: c :: rest) :
      Right ⟨.wrong (.unexpectedCharacter c), [c]⟩ rest
  /-- A string begins here and does not end. -/
  | unterminated {body : List Char} (hbody : '"' ∉ body) :
      Right ⟨.wrong .unterminatedString, '"' :: body⟩ []

/-- The spans are all of the text, and each is right at its place. -/
inductive Tiling : List Char → List Span → Prop
  | nil : Tiling [] []
  | cons {p : Span} {rest : List Char} {spans : List Span} (hp : p.Right rest)
      (h : Tiling rest spans) : Tiling (p.text ++ rest) (p :: spans)

/-- The items of spans that come after this text: each is on the line on which its span ends, and
the end of the source comes last. -/
def itemsAfter (done : List Char) : List Span → List Item
  | [] => [.ok ⟨.eof, "", 1 + done.count '\n'⟩]
  | p :: spans =>
    (p.item? (1 + (done ++ p.text).count '\n')).toList ++ itemsAfter (done ++ p.text) spans

/-! ## The scanner's tiling -/

section

variable {c : Char} {cs : List Char}

theorem taken_isPrefix (c : Char) (cs : List Char) : (nextPiece c cs).taken <+: c :: cs :=
  ⟨_, taken_append_rest c cs⟩

/-- No lexeme at the head of a text is longer than what the scanner takes, which is no error. -/
theorem Lexeme.covered_of_start {kind : PieceKind} {text : List Char} (h : Lexeme kind text)
    (hstart : text <+: c :: cs) : (nextPiece c cs).Covers text := by
  obtain ⟨d, ds, rfl⟩ := List.exists_cons_of_ne_nil h.ne_nil
  obtain ⟨rest, hrest⟩ := hstart
  cases hrest
  exact h.covered rest

/-- What the scanner takes is right. -/
theorem nextPiece_right (c : Char) (cs : List Char) :
    Span.Right ⟨(nextPiece c cs).kind, (nextPiece c cs).taken⟩ (nextPiece c cs).rest := by
  rcases nextPiece_lexeme c cs with hlexeme | ⟨rfl, hbody, hpiece⟩ | ⟨hquote, hpiece⟩
  · refine .lexeme hlexeme fun kind' text' h' hstart => ?_
    rw [taken_append_rest] at hstart
    exact (h'.covered_of_start hstart).2
  · rw [hpiece]
    exact .unterminated hbody
  · rw [hpiece]
    refine .unexpected hquote fun kind text h hstart => ?_
    have hcovers := h.covered_of_start hstart
    rw [hpiece] at hcovers
    exact hcovers.1 _ rfl

/-- Only what the scanner takes is right. -/
theorem Span.Right.nextPiece_eq {p : Span} {rest : List Char} (h : p.Right rest)
    (htext : p.text ++ rest = c :: cs) : nextPiece c cs = ⟨p.kind, p.text, rest⟩ := by
  have hall := taken_append_rest c cs
  cases h with
  | @lexeme kind text _ hl hlongest =>
    have hcovers := hl.covered_of_start ⟨rest, htext⟩
    have htaken : Lexeme (nextPiece c cs).kind (nextPiece c cs).taken := by
      rcases nextPiece_lexeme c cs with htaken | ⟨-, -, hpiece⟩ | ⟨-, hpiece⟩
      · exact htaken
      · rw [hpiece] at hcovers
        exact absurd rfl (hcovers.1 _)
      · rw [hpiece] at hcovers
        exact absurd rfl (hcovers.1 _)
    have hstart : (nextPiece c cs).taken <+: text ++ rest := htext ▸ taken_isPrefix c cs
    -- each is a longest lexeme, so they are equally long, and both are the head of the text
    have hlength := Nat.le_antisymm (hlongest _ _ htaken hstart) hcovers.2
    obtain ⟨hsame, hrest⟩ := List.append_inj (hall.trans htext.symm) hlength
    rw [hsame] at htaken
    have hkind := htaken.kind_unique hl
    show Piece.mk (nextPiece c cs).kind (nextPiece c cs).taken (nextPiece c cs).rest = _
    rw [hkind, hsame, hrest]
  | @unexpected d rest hquote hnone =>
    obtain ⟨rfl, rfl⟩ : d = c ∧ rest = cs := List.cons.inj htext
    rcases nextPiece_lexeme d rest with htaken | ⟨hc, -⟩ | ⟨-, hpiece⟩
    · exact absurd (taken_isPrefix d rest) (hnone _ _ htaken)
    · exact absurd hc hquote
    · exact hpiece
  | @unterminated body hbody =>
    rw [List.append_nil] at htext
    cases htext
    have hdrop : cs.dropWhile (· != '"') = [] := by
      refine List.dropWhile_eq_nil_iff.2 fun d hd => ?_
      rw [bne_iff_ne]
      rintro rfl
      exact hbody hd
    have htake : cs.takeWhile (· != '"') = cs := by
      have happend := List.takeWhile_append_dropWhile (p := (· != '"')) (l := cs)
      rwa [hdrop, List.append_nil] at happend
    show string cs = _
    unfold string
    rw [hdrop, htake]

theorem Span.Right.ne_nil {p : Span} {rest : List Char} (h : p.Right rest) : p.text ≠ [] := by
  cases h with
  | lexeme hl _ => exact hl.ne_nil
  | _ => nofun

end

theorem exists_tiling : ∀ cs : List Char, ∃ spans, Tiling cs spans
  | [] => ⟨[], .nil⟩
  | c :: cs => by
    obtain ⟨spans, hspans⟩ := exists_tiling (nextPiece c cs).rest
    have htiling := Tiling.cons (nextPiece_right c cs) hspans
    rw [taken_append_rest] at htiling
    exact ⟨_, htiling⟩
termination_by cs => cs.length
decreasing_by exact Nat.lt_succ_of_le (length_rest_nextPiece c cs)

theorem Tiling.unique {cs : List Char} {spans other : List Span} (h : Tiling cs spans)
    (h' : Tiling cs other) : other = spans := by
  induction h generalizing other with
  | nil =>
    generalize htext : ([] : List Char) = text at h'
    cases h' with
    | nil => rfl
    | cons hp _ => exact absurd (List.append_eq_nil_iff.1 htext.symm).1 hp.ne_nil
  | @cons p rest spans hp _ ih =>
    obtain ⟨c, cs, htext⟩ := List.exists_cons_of_ne_nil
      (fun hnil => hp.ne_nil (List.append_eq_nil_iff.1 hnil).1 : p.text ++ rest ≠ [])
    generalize htext' : p.text ++ rest = text at h'
    cases h' with
    | nil => exact absurd (List.append_eq_nil_iff.1 htext').1 hp.ne_nil
    | @cons q rest' _ hq h' =>
      have hpiece := (hp.nextPiece_eq htext).symm.trans (hq.nextPiece_eq (htext'.symm.trans htext))
      obtain ⟨kind, text⟩ := p
      obtain ⟨kind', text'⟩ := q
      cases hpiece
      rw [ih h']

/-- The items of a tiling are those of the scanner. -/
theorem Tiling.scanFrom_eq {cs : List Char} {spans : List Span} (h : Tiling cs spans) :
    ∀ done : List Char, scanFrom (1 + done.count '\n') cs = itemsAfter done spans := by
  induction h with
  | nil =>
    intro done
    rw [scanFrom]
    rfl
  | @cons p rest spans hp _ ih =>
    intro done
    obtain ⟨c, cs, htext⟩ := List.exists_cons_of_ne_nil
      (fun hnil => hp.ne_nil (List.append_eq_nil_iff.1 hnil).1 : p.text ++ rest ≠ [])
    have hpiece := hp.nextPiece_eq htext
    have hline : 1 + done.count '\n' + p.text.count '\n' = 1 + (done ++ p.text).count '\n' := by
      rw [List.count_append, Nat.add_assoc]
    rw [htext, scanFrom, hpiece, itemsAfter]
    dsimp only
    rw [hline, ih]
    unfold Piece.item? Span.item?
    cases p.kind <;> rfl

/-! ## One item at a time -/

/-- The first item, and those that are left. -/
theorem scanFrom_read (line : Nat) (cs : List Char) :
    scanFrom line cs = (Cursor.read line cs).1 :: (match (Cursor.read line cs).2.rest with
      | some rest => scanFrom (Cursor.read line cs).2.line rest
      | none => []) := by
  fun_induction Cursor.read line cs with
  | case1 line => rw [scanFrom]
  | case2 line c cs p line' item hitem => rw [scanFrom_item hitem]
  | case3 line c cs p line' hitem ih => rw [scanFrom_skipped hitem, ih]

/-- After the end there is nothing more. -/
theorem nth_ended (line n : Nat) : (Cursor.mk none line).nth n = none := by
  induction n with
  | zero => rfl
  | succ n ih => exact ih

theorem nth_eq (n : Nat) : ∀ (line : Nat) (cs : List Char),
    (Cursor.mk (some cs) line).nth n = (scanFrom line cs)[n]? := by
  induction n with
  | zero =>
    intro line cs
    rw [scanFrom_read]
    rfl
  | succ n ih =>
    intro line cs
    rw [scanFrom_read, List.getElem?_cons_succ]
    show (Cursor.read line cs).2.nth n = _
    obtain ⟨item, rest, line'⟩ := Cursor.read line cs
    cases rest with
    | none => exact nth_ended line' n
    | some rest => exact ih line' rest

/-! ## The whole text -/

/-- The lines that a piece and what follows it end are those of the text. -/
theorem count_piece (line : Nat) (c : Char) (cs : List Char) :
    line + (nextPiece c cs).taken.count '\n' + (nextPiece c cs).rest.count '\n'
      = line + (c :: cs).count '\n' := by
  rw [← taken_append_rest c cs, List.count_append, Nat.add_assoc]

/-- Only the last item is the end. -/
theorem scanFrom_end (line : Nat) (cs : List Char) : ∃ front : List Item,
    scanFrom line cs = front ++ [.ok ⟨.eof, "", line + cs.count '\n'⟩] ∧
      ∀ t, .ok t ∈ front → t.kind ≠ .eof := by
  fun_induction scanFrom line cs with
  | case1 line => exact ⟨[], rfl, fun _ ht => (List.not_mem_nil ht).elim⟩
  | case2 line c cs p line' item hitem ih =>
    obtain ⟨front, hall, hfront⟩ := ih
    refine ⟨item :: front, ?_, fun t ht => ?_⟩
    · rw [hall, count_piece, List.cons_append]
    · rcases List.mem_cons.1 ht with rfl | ht
      · exact item?_ne_eof hitem
      · exact hfront t ht
  | case3 line c cs p line' hitem ih =>
    obtain ⟨front, hall, hfront⟩ := ih
    exact ⟨front, by rw [hall, count_piece], hfront⟩

/-- **The scanner takes the longest lexeme** everywhere. Every text has one tiling, and the items
that the scanner gives are those of its spans. One of them is the end of the source, the last one;
when they are asked for one by one, nothing comes after it. -/
theorem scan_munches (source : String) :
    ∃ spans, Tiling source.toList spans ∧ (∀ other, Tiling source.toList other → other = spans) ∧
      scan source = itemsAfter [] spans ∧
      (∃ front, scan source = front ++ [.ok ⟨.eof, "", 1 + source.toList.count '\n'⟩] ∧
        ∀ t, .ok t ∈ front → t.kind ≠ .eof) ∧
      ∀ n, (Cursor.start source).nth n = (scan source)[n]? := by
  obtain ⟨spans, htiling⟩ := exists_tiling source.toList
  refine ⟨spans, htiling, fun _ h => htiling.unique h, ?_, scanFrom_end .., fun n => nth_eq ..⟩
  exact htiling.scanFrom_eq []

end Lox.Lexer
