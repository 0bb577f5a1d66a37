import Lox.Proofs.Lines.Relabel
import Lox.Proofs.Token.Spelling
import Lox.Token.Lexer

/-!
# Scanning two texts as one

A text without an unfinished string ends with a whole piece, so what follows it on a new line is
scanned as if it stood alone, on later lines (`scan_join`).
-/

set_option autoImplicit false

namespace Lox

/-- How many lines a text ends. -/
def lineCount (s : String) : Nat := s.toList.count '\n'

end Lox

namespace Lox.Lexer

/-! ## Pieces before a newline -/

section Cut

variable {p : Char → Bool} {cs ds : List Char}

theorem takeWhile_join (hp : p '\n' = false) :
    (cs ++ '\n' :: ds).takeWhile p = cs.takeWhile p := by
  induction cs with
  | nil => rw [List.nil_append, List.takeWhile_cons_of_neg (by simp [hp])]; rfl
  | cons c cs ih =>
    simp only [List.cons_append, List.takeWhile_cons, ih]

theorem dropWhile_join (hp : p '\n' = false) :
    (cs ++ '\n' :: ds).dropWhile p = cs.dropWhile p ++ '\n' :: ds := by
  induction cs with
  | nil => rw [List.nil_append, List.dropWhile_cons_of_neg (by simp [hp])]; rfl
  | cons c cs ih =>
    simp only [List.cons_append, List.dropWhile_cons, ih]
    split <;> rfl

/-- What ends within a text is not changed by what follows the text. -/
theorem span_join {q : Char} {rest : List Char} (h : cs.dropWhile p = q :: rest) :
    (cs ++ ds).takeWhile p = cs.takeWhile p ∧ (cs ++ ds).dropWhile p = q :: (rest ++ ds) := by
  induction cs with
  | nil => cases h
  | cons c cs ih =>
    rw [List.dropWhile_cons] at h
    simp only [List.cons_append, List.takeWhile_cons, List.dropWhile_cons]
    split at h
    · rename_i hc
      obtain ⟨ht, hd⟩ := ih h
      simp only [hc, if_true, ht, hd, and_self]
    · rename_i hc
      cases h
      simp [hc]

end Cut

/-- The piece with more text after it. -/
def Piece.before (p : Piece) (ds : List Char) : Piece :=
  { p with rest := p.rest ++ ds }

variable {ds : List Char}

theorem withEqual_join (c : Char) (p pe : Punct) (cs : List Char) :
    withEqual c p pe (cs ++ '\n' :: ds) = (withEqual c p pe cs).before ('\n' :: ds) := by
  unfold withEqual
  match cs with
  | [] => rfl
  | d :: cs =>
    by_cases hd : d = '='
    · subst hd
      rfl
    · simp only [List.cons_append, hd, List.cons.injEq, false_and, imp_self, implies_true]
      rfl

theorem slash_join (cs : List Char) :
    slash (cs ++ '\n' :: ds) = (slash cs).before ('\n' :: ds) := by
  unfold slash
  match cs with
  | [] => rfl
  | d :: cs =>
    by_cases hd : d = '/'
    · subst hd
      simp only [List.cons_append, takeWhile_join (p := (· != '\n')) rfl,
        dropWhile_join (p := (· != '\n')) rfl]
      rfl
    · simp only [List.cons_append, hd, List.cons.injEq, false_and, imp_self, implies_true]
      rfl

theorem string_join {cs : List Char} (h : (string cs).kind ≠ .wrong .unterminatedString) :
    string (cs ++ ds) = (string cs).before ds := by
  unfold string at h ⊢
  dsimp only at h ⊢
  cases hd : cs.dropWhile (· != '"') with
  | nil =>
    rw [hd] at h
    exact absurd rfl h
  | cons q rest =>
    have hspan : (cs ++ ds).takeWhile (· != '"') = cs.takeWhile (· != '"') ∧
        (cs ++ ds).dropWhile (· != '"') = q :: (rest ++ ds) := span_join hd
    rw [hspan.1, hspan.2]
    rfl

theorem number_join (cs : List Char) :
    number (cs ++ '\n' :: ds) = (number cs).before ('\n' :: ds) := by
  unfold number
  rw [takeWhile_join (p := isDigit) rfl, dropWhile_join (p := isDigit) rfl]
  dsimp only
  match cs.dropWhile isDigit with
  | [] => rfl
  | c :: rest =>
    by_cases hc : c = '.'
    · subst hc
      match rest with
      | [] => rfl
      | d :: more =>
        have htake : (d :: more ++ '\n' :: ds).takeWhile isDigit =
            (d :: more).takeWhile isDigit := takeWhile_join rfl
        have hdrop : (d :: more ++ '\n' :: ds).dropWhile isDigit =
            (d :: more).dropWhile isDigit ++ '\n' :: ds := dropWhile_join rfl
        rw [List.cons_append] at htake hdrop
        simp only [List.cons_append, htake, hdrop]
        by_cases hd : isDigit d = true
        · simp only [hd, if_true]
          rfl
        · simp only [hd, Bool.false_eq_true, if_false]
          rfl
    · simp only [List.cons_append, List.cons.injEq, hc, false_and, imp_self, implies_true]
      rfl

theorem name_join (cs : List Char) :
    name (cs ++ '\n' :: ds) = (name cs).before ('\n' :: ds) := by
  unfold name
  rw [takeWhile_join (p := isNameRest) rfl, dropWhile_join (p := isNameRest) rfl]
  rfl

/-- A piece that is no unfinished string is the same piece before a newline. -/
theorem nextPiece_join (c : Char) {cs : List Char}
    (h : (nextPiece c cs).kind ≠ .wrong .unterminatedString) :
    nextPiece c (cs ++ '\n' :: ds) = (nextPiece c cs).before ('\n' :: ds) := by
  unfold nextPiece at h ⊢
  split
  iterate 10 rfl
  iterate 4 exact withEqual_join ..
  · exact slash_join cs
  · exact string_join h
  split
  · rfl
  split
  · exact number_join (c :: cs)
  split
  · exact name_join (c :: cs)
  · rfl

/-! ## Pieces and what follows them -/

theorem slash_taken_append_rest (cs : List Char) :
    (slash cs).taken ++ (slash cs).rest = '/' :: cs := by
  unfold slash
  split
  · simp [List.takeWhile_append_dropWhile]
  · rfl

theorem string_taken_append_rest (cs : List Char) :
    (string cs).taken ++ (string cs).rest = '"' :: cs := by
  have hall := List.takeWhile_append_dropWhile (p := (· != '"')) (l := cs)
  unfold string
  dsimp only
  cases hrest : cs.dropWhile (· != '"') with
  | nil =>
    rw [hrest] at hall
    rw [List.cons_append, hall]
  | cons q rest =>
    rw [hrest] at hall
    rw [List.cons_append, List.append_assoc, List.singleton_append, hall]

theorem number_taken_append_rest (cs : List Char) :
    (number cs).taken ++ (number cs).rest = cs := by
  have hall := List.takeWhile_append_dropWhile (p := isDigit) (l := cs)
  unfold number
  dsimp only
  split
  · rename_i d more hrest
    rw [hrest] at hall
    split
    · rw [List.append_assoc, List.cons_append, List.takeWhile_append_dropWhile, hall]
    · rw [hrest, hall]
  · exact hall

/-- A piece and what follows it are the text. -/
theorem taken_append_rest (c : Char) (cs : List Char) :
    (nextPiece c cs).taken ++ (nextPiece c cs).rest = c :: cs := by
  unfold nextPiece
  split
  iterate 10 rfl
  iterate 4
    unfold withEqual
    split <;> rfl
  · exact slash_taken_append_rest cs
  · exact string_taken_append_rest cs
  split
  · rfl
  split
  · exact number_taken_append_rest (c :: cs)
  split
  · exact List.takeWhile_append_dropWhile
  · rfl

/-- The newlines of a text are those of a piece and those of what follows it. -/
theorem count_taken_add_rest (c : Char) (cs : List Char) :
    (nextPiece c cs).taken.count '\n' + (nextPiece c cs).rest.count '\n'
      = (c :: cs).count '\n' := by
  rw [← List.count_append, taken_append_rest]

/-! ## Texts -/

/-- The item when its text starts some lines later. -/
def Item.later (n : Nat) : Item → Item
  | .ok t => .ok (t.relabel (· + n))
  | .error (.lexical line cause) => .error (.lexical (line + n) cause)
  | .error e => .error e

theorem item?_later (p : Piece) (line n : Nat) :
    p.item? (line + n) = (p.item? line).map (Item.later n) := by
  unfold Piece.item?
  split <;> rfl

/-- A text that starts later has its items later. -/
theorem scanFrom_later (line n : Nat) (cs : List Char) :
    scanFrom (line + n) cs = (scanFrom line cs).map (Item.later n) := by
  fun_induction scanFrom line cs with
  | case1 line =>
    rw [scanFrom]
    rfl
  | case2 line c cs p line' item hitem ih =>
    have hline : line + n + p.taken.count '\n' = line' + n := by
      show _ = line + p.taken.count '\n' + n
      omega
    rw [scanFrom, hline, item?_later, hitem, List.map_cons, ← ih]
    rfl
  | case3 line c cs p line' hitem ih =>
    have hline : line + n + p.taken.count '\n' = line' + n := by
      show _ = line + p.taken.count '\n' + n
      omega
    rw [scanFrom, hline, item?_later, hitem, ← ih]
    rfl

/-- No piece is the end. -/
theorem nextPiece_kind_ne (c : Char) (cs : List Char) :
    (nextPiece c cs).kind ≠ .token .eof := by
  intro h
  rcases nextPiece_kind c cs with hname | hother
  · rw [hname] at h
    unfold name at h
    dsimp only at h
    split at h <;> cases h
  · exact hother _ h

/-- What a piece contributes is not the end. -/
theorem item?_ne_eof {c : Char} {cs : List Char} {line : Nat} {t : Token}
    (h : (nextPiece c cs).item? line = some (.ok t)) : t.kind ≠ .eof := by
  have hkind := nextPiece_kind_ne c cs
  unfold Piece.item? at h
  split at h
  · rename_i kind hk
    cases h
    exact fun he => hkind (hk.trans (congrArg _ he))
  · cases h
  · cases h

/-- Only an unfinished string contributes its error. -/
theorem kind_ne_of_item? {p : Piece} {line : Nat}
    (h : p.item? line ≠ some (.error (.lexical line .unterminatedString))) :
    p.kind ≠ .wrong .unterminatedString := by
  intro hk
  unfold Piece.item? at h
  rw [hk] at h
  exact h rfl

/-- No string is unfinished. -/
def Finished (items : List Item) : Prop :=
  ∀ line, .error (.lexical line .unterminatedString) ∉ items

theorem finished_of_errors {items : List Item} (h : errors items = []) : Finished items := by
  intro line hmem
  have herror : CompileError.lexical line .unterminatedString ∈ errors items :=
    List.mem_filterMap.2 ⟨_, hmem, rfl⟩
  rw [h] at herror
  cases herror

section Step

variable {line : Nat} {c : Char} {cs : List Char}

theorem scanFrom_item {item : Item}
    (h : (nextPiece c cs).item? (line + (nextPiece c cs).taken.count '\n') = some item) :
    scanFrom line (c :: cs) =
      item :: scanFrom (line + (nextPiece c cs).taken.count '\n') (nextPiece c cs).rest := by
  rw [scanFrom, h]

theorem scanFrom_skipped
    (h : (nextPiece c cs).item? (line + (nextPiece c cs).taken.count '\n') = none) :
    scanFrom line (c :: cs) =
      scanFrom (line + (nextPiece c cs).taken.count '\n') (nextPiece c cs).rest := by
  rw [scanFrom, h]

end Step

/-- A newline after a text is a blank. -/
theorem scanFrom_newline (line : Nat) (ds : List Char) :
    scanFrom line ('\n' :: ds) = scanFrom (line + 1) ds := by
  rw [scanFrom]
  rfl

/-- The items of a text without an unfinished string, and of the text with more after it on a new
line. -/
theorem scanFrom_join (line : Nat) (cs : List Char) (h : Finished (scanFrom line cs))
    (ds : List Char) : ∃ front : List Item, (∀ t, .ok t ∈ front → t.kind ≠ .eof) ∧
      scanFrom line cs = front ++ [.ok ⟨.eof, "", line + cs.count '\n'⟩] ∧
      scanFrom line (cs ++ '\n' :: ds) = front ++ scanFrom (line + cs.count '\n' + 1) ds := by
  fun_induction scanFrom line cs with
  | case1 line => exact ⟨[], by simp, by simp, by simp [scanFrom_newline]⟩
  | case2 line c cs p line' item hitem ih =>
    have hkind : p.kind ≠ .wrong .unterminatedString := kind_ne_of_item? fun he =>
      h line' (Option.some.inj (hitem.symm.trans he) ▸ List.mem_cons_self)
    obtain ⟨front, hfront, halone, hjoined⟩ := ih fun l hl => h l (List.mem_cons_of_mem _ hl)
    have hline : line' + p.rest.count '\n' = line + (c :: cs).count '\n' := by
      rw [← count_taken_add_rest c cs]
      exact Nat.add_assoc ..
    refine ⟨item :: front, fun t ht => ?_, ?_, ?_⟩
    · rcases List.mem_cons.1 ht with rfl | ht
      · exact item?_ne_eof hitem
      · exact hfront t ht
    · rw [halone, hline, List.cons_append]
    · have hpiece : nextPiece c (cs ++ '\n' :: ds) = p.before ('\n' :: ds) :=
        nextPiece_join c hkind
      rw [List.cons_append, scanFrom_item (by rw [hpiece]; exact hitem), hpiece, ← hline]
      exact congrArg (item :: ·) hjoined
  | case3 line c cs p line' hitem ih =>
    have hother : p.item? line' ≠ some (.error (.lexical line' .unterminatedString)) :=
      fun he => by cases hitem.symm.trans he
    have hkind := kind_ne_of_item? hother
    obtain ⟨front, hfront, halone, hjoined⟩ := ih h
    have hline : line' + p.rest.count '\n' = line + (c :: cs).count '\n' := by
      rw [← count_taken_add_rest c cs]
      exact Nat.add_assoc ..
    refine ⟨front, hfront, ?_, ?_⟩
    · rw [halone, hline]
    · have hpiece : nextPiece c (cs ++ '\n' :: ds) = p.before ('\n' :: ds) :=
        nextPiece_join c hkind
      rw [List.cons_append, scanFrom_skipped (by rw [hpiece]; exact hitem), hpiece, ← hline]
      exact hjoined

theorem tokens_later (n : Nat) (items : List Item) :
    tokens (items.map (Item.later n)) = (tokens items).map (Token.relabel (· + n)) := by
  induction items with
  | nil => rfl
  | cons item items ih =>
    cases item with
    | ok t => exact congrArg (_ :: ·) ih
    | error e => cases e <;> exact ih

theorem errors_later_eq_nil (n : Nat) (items : List Item) :
    errors (items.map (Item.later n)) = [] ↔ errors items = [] := by
  induction items with
  | nil => exact Iff.rfl
  | cons item items ih =>
    cases item with
    | ok t => exact ih
    | error e => cases e <;> exact ⟨nofun, nofun⟩

/-- Two texts on different lines are scanned apart: the items are those of the first without its
end, and then those of the second, later by the lines before it. -/
theorem scan_join {a : String} (ha : Finished (scan a)) (b : String) :
    ∃ front : List Item, (∀ t, .ok t ∈ front → t.kind ≠ .eof) ∧
      scan a = front ++ [.ok ⟨.eof, "", 1 + lineCount a⟩] ∧
      scan (a ++ "\n" ++ b) = front ++ (scan b).map (Item.later (lineCount a + 1)) := by
  obtain ⟨front, hfront, halone, hjoined⟩ := scanFrom_join 1 a.toList ha b.toList
  have htext : (a ++ "\n" ++ b).toList = a.toList ++ '\n' :: b.toList := by simp
  refine ⟨front, hfront, halone, ?_⟩
  rw [scan, htext, hjoined, scan, ← scanFrom_later]
  rw [show 1 + a.toList.count '\n' + 1 = 1 + (lineCount a + 1) from Nat.add_assoc ..]

/-- The tokens of two such texts, of which the first has no lexical errors. -/
theorem tokens_join {a : String} (ha : errors (scan a) = []) (b : String) :
    ∃ front : List Token, (∀ t ∈ front, t.kind ≠ .eof) ∧
      tokens (scan a) = front ++ [⟨.eof, "", 1 + lineCount a⟩] ∧
      tokens (scan (a ++ "\n" ++ b))
        = front ++ (tokens (scan b)).map (Token.relabel (· + (lineCount a + 1))) ∧
      (errors (scan (a ++ "\n" ++ b)) = [] ↔ errors (scan b) = []) := by
  obtain ⟨front, hfront, halone, hjoined⟩ := scan_join (finished_of_errors ha) b
  have herrors : errors front = [] := by
    rw [halone, errors, List.filterMap_append] at ha
    exact (List.append_eq_nil_iff.1 ha).1
  refine ⟨tokens front, fun t ht => ?_, ?_, ?_, ?_⟩
  · obtain ⟨item, hitem, hsome⟩ := List.mem_filterMap.1 ht
    split at hsome <;> cases hsome
    exact hfront t hitem
  · rw [halone, tokens, List.filterMap_append]
    rfl
  · rw [hjoined, ← tokens_later, tokens, List.filterMap_append]
    rfl
  · have hall : errors (front ++ (scan b).map (Item.later (lineCount a + 1)))
        = errors front ++ errors ((scan b).map (Item.later (lineCount a + 1))) :=
      List.filterMap_append
    rw [hjoined, hall, herrors, List.nil_append, errors_later_eq_nil]

/-- **Scanning goes line by line**: what follows a text without an unfinished string on a new line
is scanned as if it stood alone. The items are those of the first text up to the end of the source,
which is its last item only, and then those of the second, later by the lines of the first. -/
theorem scan_line_by_line {a : String} (ha : Finished (scan a)) (b : String) :
    (scan a).getLast? = some (.ok ⟨.eof, "", 1 + lineCount a⟩) ∧
      (∀ t, .ok t ∈ (scan a).dropLast → t.kind ≠ .eof) ∧
      scan (a ++ "\n" ++ b) = (scan a).dropLast ++ (scan b).map (Item.later (1 + lineCount a)) := by
  obtain ⟨front, hfront, halone, hjoined⟩ := scan_join ha b
  have hdrop : (scan a).dropLast = front := by rw [halone, List.dropLast_concat]
  rw [hdrop, Nat.add_comm 1]
  exact ⟨by rw [halone, List.getLast?_concat, Nat.add_comm], hfront, hjoined⟩

/-- An operator before a comment is not joined with what the next line starts with. -/
theorem scan_line_by_line_operator : Finished (scan "\"é\n\" ! // é") ∧
    scan ("\"é\n\" ! // é" ++ "\n" ++ "= é") =
      [.ok ⟨.string "é\n", "\"é\n\"", 2⟩, .ok ⟨.punct .bang, "!", 2⟩,
        .ok ⟨.punct .equal, "=", 3⟩, .error (.lexical 3 (.unexpectedCharacter 'é')),
        .ok ⟨.eof, "", 3⟩] := by
  have hfinished : Finished (scan "\"é\n\" ! // é") := finished_of_errors (by cbv)
  have hfirst : (scan "\"é\n\" ! // é").dropLast =
      [.ok ⟨.string "é\n", "\"é\n\"", 2⟩, .ok ⟨.punct .bang, "!", 2⟩] := by
    cbv
  have hsecond : (scan "= é").map (Item.later (1 + lineCount "\"é\n\" ! // é")) =
      [.ok ⟨.punct .equal, "=", 3⟩, .error (.lexical 3 (.unexpectedCharacter 'é')),
        .ok ⟨.eof, "", 3⟩] := by
    cbv
  refine ⟨hfinished, ?_⟩
  rw [(scan_line_by_line hfinished "= é").2.2, hfirst, hsecond]
  rfl

end Lox.Lexer
