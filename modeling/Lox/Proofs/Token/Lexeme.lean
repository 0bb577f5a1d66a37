import Lox.Proofs.Token.Spelling
import Mathlib

/-!
# The lexical grammar

`Lexeme` lists what the scanner should recognise, without saying how. What the scanner takes from
the head of a text is a lexeme, unless it is an error (`nextPiece_lexeme`), and no lexeme at the
head of the text is longer (`Lexeme.covered`).
-/

set_option autoImplicit false

namespace Lox.Lexer

/-! ## The grammar -/

/-- The value of a digit. -/
def digitValue (c : Char) : Nat :=
  c.toNat - '0'.toNat

/-- The number that a numeral with these digits before and after the point stands for, rounded to a
double. -/
def numeralValue (whole fraction : List Char) : Float :=
  Number.nearest (Nat.ofDigits 10 ((whole ++ fraction).reverse.map digitValue))
    (10 ^ fraction.length)

/-- The lexemes of the language and their kinds: tokens with payload, blanks and comments. -/
inductive Lexeme : PieceKind → List Char → Prop
  | punct (p : Punct) : Lexeme (.token (.punct p)) p.spelling.toList
  | keyword (k : Keyword) : Lexeme (.token (.keyword k)) k.spelling.toList
  /-- A word that no keyword is spelled like. -/
  | identifier {c : Char} {cs : List Char} (hc : isNameStart c = true)
      (hcs : ∀ d ∈ cs, isNameRest d = true)
      (hk : ∀ k : Keyword, String.ofList (c :: cs) ≠ k.spelling) :
      Lexeme (.token .identifier) (c :: cs)
  | string {body : List Char} (hb : '"' ∉ body) :
      Lexeme (.token (.string (String.ofList body))) ('"' :: (body ++ ['"']))
  | whole {digits : List Char} (hne : digits ≠ []) (hd : ∀ d ∈ digits, isDigit d = true) :
      Lexeme (.token (.number (numeralValue digits []))) digits
  /-- A point is a part of a number only between digits. -/
  | decimal {whole fraction : List Char} (hw : whole ≠ []) (hf : fraction ≠ [])
      (hwd : ∀ d ∈ whole, isDigit d = true) (hfd : ∀ d ∈ fraction, isDigit d = true) :
      Lexeme (.token (.number (numeralValue whole fraction))) (whole ++ '.' :: fraction)
  | blank {c : Char} (hc : isBlank c = true) : Lexeme .skipped [c]
  /-- A comment does not contain the newline after it. -/
  | comment {body : List Char} (hb : '\n' ∉ body) : Lexeme .skipped ('/' :: '/' :: body)

/-- The scanner reads the value of a numeral off its digits from left to right. -/
theorem ofNumeral_eq (whole fraction : List Char) :
    Number.ofNumeral whole fraction = numeralValue whole fraction := by
  have hdigits : ∀ cs : List Char,
      Number.ofDigits cs = Nat.ofDigits 10 (cs.reverse.map digitValue) := by
    intro cs
    rw [Nat.ofDigits_eq_foldr, List.foldr_map, List.foldr_reverse, Number.ofDigits]
    congr 1
    funext n c
    exact Nat.add_comm ..
  rw [Number.ofNumeral, hdigits]
  rfl

/-! ## Classes of characters -/

section

variable {c : Char}

theorem isNameStart_not_isDigit (h : isNameStart c = true) : isDigit c = false := by
  simp only [isNameStart, isDigit, Bool.or_eq_true, Bool.and_eq_true, decide_eq_true_eq,
    beq_iff_eq, Char.le_def, UInt32.le_iff_toNat_le, Bool.and_eq_false_iff,
    decide_eq_false_iff_not] at h ⊢
  rcases h with (h | h) | rfl
  · right
    have ha : 'a'.val.toNat = 97 := rfl
    have h9 : '9'.val.toNat = 57 := rfl
    omega
  · right
    have ha : 'A'.val.toNat = 65 := rfl
    have h9 : '9'.val.toNat = 57 := rfl
    omega
  · right
    decide

theorem isBlank_cases (h : isBlank c = true) : c = ' ' ∨ c = '\t' ∨ c = '\r' ∨ c = '\n' := by
  simpa [isBlank, or_assoc] using h

theorem nextPiece_of_isNameStart (hc : isNameStart c = true) (cs : List Char) :
    nextPiece c cs = name (c :: cs) := by
  have hblank : isBlank c = false := by
    rw [Bool.eq_false_iff]
    intro h
    rcases isBlank_cases h with rfl | rfl | rfl | rfl <;> exact absurd hc (by decide)
  unfold nextPiece
  split
  iterate 16 exact absurd hc (by decide)
  rw [hblank, isNameStart_not_isDigit hc, hc]
  rfl

theorem nextPiece_of_isDigit (hc : isDigit c = true) (cs : List Char) :
    nextPiece c cs = number (c :: cs) := by
  have hblank : isBlank c = false := by
    rw [Bool.eq_false_iff]
    intro h
    rcases isBlank_cases h with rfl | rfl | rfl | rfl <;> exact absurd hc (by decide)
  unfold nextPiece
  split
  iterate 16 exact absurd hc (by decide)
  rw [hblank, hc]
  rfl

theorem nextPiece_of_isBlank (hc : isBlank c = true) (cs : List Char) :
    nextPiece c cs = ⟨.skipped, [c], cs⟩ := by
  rcases isBlank_cases hc with rfl | rfl | rfl | rfl <;> rfl

end

/-! ## Runs of characters -/

section

variable {p : Char → Bool} {cs : List Char}

/-- A run of such characters at the head of a text is within the longest one. -/
theorem length_le_takeWhile (h : ∀ c ∈ cs, p c = true) (rest : List Char) :
    cs.length ≤ ((cs ++ rest).takeWhile p).length := by
  rw [List.takeWhile_append_of_pos h, List.length_append]
  omega

theorem forall_takeWhile (cs : List Char) : ∀ c ∈ cs.takeWhile p, p c = true :=
  fun _ hc => List.mem_takeWhile_imp hc

/-- The characters up to the first of a kind have none of it among them. -/
theorem not_mem_takeWhile (c : Char) (cs : List Char) : c ∉ cs.takeWhile (· != c) := by
  intro h
  have hne := List.mem_takeWhile_imp h
  simp at hne

theorem takeWhile_until {c : Char} (h : c ∉ cs) (rest : List Char) :
    (cs ++ c :: rest).takeWhile (· != c) = cs ∧
      (cs ++ c :: rest).dropWhile (· != c) = c :: rest := by
  have hall : ∀ d ∈ cs, (d != c) = true := by
    intro d hd
    rw [bne_iff_ne]
    rintro rfl
    exact h hd
  constructor
  · rw [List.takeWhile_append_of_pos hall, List.takeWhile_cons_of_neg (by simp), List.append_nil]
  · rw [List.dropWhile_append_of_pos hall, List.dropWhile_cons_of_neg (by simp)]

end

/-! ## What is taken is a lexeme -/

/-- The piece is no error, and it takes a lexeme. -/
theorem withEqual_lexeme {c : Char} {p pe : Punct} (hp : p.spelling.toList = [c])
    (hpe : pe.spelling.toList = [c, '=']) (cs : List Char) :
    Lexeme (withEqual c p pe cs).kind (withEqual c p pe cs).taken := by
  unfold withEqual
  split
  · exact hpe ▸ Lexeme.punct pe
  · exact hp ▸ Lexeme.punct p

theorem slash_lexeme (cs : List Char) : Lexeme (slash cs).kind (slash cs).taken := by
  unfold slash
  split
  · exact .comment (not_mem_takeWhile _ _)
  · exact .punct .slash

theorem number_lexeme {c : Char} (hc : isDigit c = true) (cs : List Char) :
    Lexeme (number (c :: cs)).kind (number (c :: cs)).taken := by
  have hne : (c :: cs).takeWhile isDigit ≠ [] := by simp [hc]
  have hwhole : Lexeme (.token (.number (Number.ofNumeral ((c :: cs).takeWhile isDigit) [])))
      ((c :: cs).takeWhile isDigit) := by
    rw [ofNumeral_eq]
    exact .whole hne (forall_takeWhile _)
  unfold number
  dsimp only
  split
  · rename_i d more _
    split
    · rename_i hd
      have hfraction : (d :: more).takeWhile isDigit ≠ [] := by simp [hd]
      rw [ofNumeral_eq]
      exact .decimal hne hfraction (forall_takeWhile _) (forall_takeWhile _)
    · exact hwhole
  · exact hwhole

theorem name_lexeme {c : Char} (hc : isNameStart c = true) (cs : List Char) :
    Lexeme (name (c :: cs)).kind (name (c :: cs)).taken := by
  have hrest : isNameRest c = true := by simp [isNameRest, hc]
  have htake : (c :: cs).takeWhile isNameRest = c :: cs.takeWhile isNameRest := by simp [hrest]
  cases hk : Keyword.ofSpelling? (String.ofList ((c :: cs).takeWhile isNameRest)) with
  | some k =>
    have hspelling := Keyword.spelling_of_ofSpelling? hk
    simp only [name, hk]
    rw [← String.toList_ofList (l := (c :: cs).takeWhile isNameRest), hspelling]
    exact .keyword k
  | none =>
    have hspelling := Keyword.ne_spelling_of_ofSpelling? hk
    simp only [name, hk]
    rw [htake] at hspelling ⊢
    exact .identifier hc (forall_takeWhile _) hspelling

/-- The scanner takes a lexeme, or else an unfinished string or a single character. -/
theorem nextPiece_lexeme (c : Char) (cs : List Char) :
    Lexeme (nextPiece c cs).kind (nextPiece c cs).taken ∨
      (c = '"' ∧ '"' ∉ cs ∧ nextPiece c cs = ⟨.wrong .unterminatedString, c :: cs, []⟩) ∨
      (c ≠ '"' ∧ nextPiece c cs = ⟨.wrong (.unexpectedCharacter c), [c], cs⟩) := by
  unfold nextPiece
  split
  · exact .inl (.punct .leftParen)
  · exact .inl (.punct .rightParen)
  · exact .inl (.punct .leftBrace)
  · exact .inl (.punct .rightBrace)
  · exact .inl (.punct .comma)
  · exact .inl (.punct .dot)
  · exact .inl (.punct .minus)
  · exact .inl (.punct .plus)
  · exact .inl (.punct .semicolon)
  · exact .inl (.punct .star)
  iterate 4 exact .inl (withEqual_lexeme rfl rfl cs)
  · exact .inl (slash_lexeme cs)
  · -- a string is finished when there is another quote
    have hall := List.takeWhile_append_dropWhile (p := (· != '"')) (l := cs)
    have hbody := not_mem_takeWhile '"' cs
    cases hd : cs.dropWhile (· != '"') with
    | nil =>
      rw [hd, List.append_nil] at hall
      refine .inr (.inl ⟨rfl, hall ▸ hbody, ?_⟩)
      unfold string
      rw [hd, hall]
    | cons q rest =>
      have hq : q = '"' := by
        have hhead := List.head?_dropWhile_not (· != '"') cs
        simpa [hd] using hhead
      unfold string
      rw [hd, hq]
      exact .inl (.string hbody)
  · rename_i hquote
    split
    · exact .inl (.blank ‹_›)
    split
    · exact .inl (number_lexeme ‹_› cs)
    split
    · exact .inl (name_lexeme ‹_› cs)
    · exact .inr (.inr ⟨hquote, rfl⟩)

/-! ## No lexeme is longer -/

/-- The piece is no error, and it takes at least as much as this. -/
def Piece.Covers (p : Piece) (cs : List Char) : Prop :=
  (∀ cause, p.kind ≠ .wrong cause) ∧ cs.length ≤ p.taken.length

theorem covers_token (kind : TokenKind) (rest : List Char) {taken cs : List Char}
    (h : cs.length ≤ taken.length) : Piece.Covers ⟨.token kind, taken, rest⟩ cs :=
  ⟨fun _ hkind => PieceKind.noConfusion hkind, h⟩

theorem covers_skipped (rest : List Char) {taken cs : List Char} (h : cs.length ≤ taken.length) :
    Piece.Covers ⟨.skipped, taken, rest⟩ cs :=
  ⟨fun _ hkind => PieceKind.noConfusion hkind, h⟩

theorem withEqual_covers (c : Char) (p pe : Punct) (cs : List Char) :
    (withEqual c p pe cs).Covers [c] := by
  unfold withEqual
  split
  · exact covers_token _ _ (by simp)
  · exact covers_token _ _ (by simp)

theorem name_covers {cs : List Char} (h : ∀ c ∈ cs, isNameRest c = true) (rest : List Char) :
    (name (cs ++ rest)).Covers cs :=
  covers_token _ _ (length_le_takeWhile h rest)

theorem number_covers {cs : List Char} (h : ∀ c ∈ cs, isDigit c = true) (rest : List Char) :
    (number (cs ++ rest)).Covers cs := by
  have hle := length_le_takeWhile h rest
  unfold number
  dsimp only
  split
  · split
    · refine covers_token _ _ ?_
      rw [List.length_append]
      omega
    · exact covers_token _ _ hle
  · exact covers_token _ _ hle

/-- After a digit and a point comes the fraction. -/
theorem number_covers_decimal {whole fraction : List Char}
    (hw : ∀ d ∈ whole, isDigit d = true) (hne : fraction ≠ [])
    (hf : ∀ d ∈ fraction, isDigit d = true) (rest : List Char) :
    (number (whole ++ '.' :: fraction ++ rest)).Covers (whole ++ '.' :: fraction) := by
  obtain ⟨d, more, rfl⟩ := List.exists_cons_of_ne_nil hne
  have hd : isDigit d = true := hf d (List.mem_cons_self ..)
  have htext : whole ++ '.' :: d :: more ++ rest = whole ++ '.' :: (d :: (more ++ rest)) := by simp
  have htake : (whole ++ '.' :: (d :: (more ++ rest))).takeWhile isDigit = whole := by
    rw [List.takeWhile_append_of_pos hw, List.takeWhile_cons_of_neg (by decide), List.append_nil]
  have hdrop : (whole ++ '.' :: (d :: (more ++ rest))).dropWhile isDigit
      = '.' :: (d :: (more ++ rest)) := by
    rw [List.dropWhile_append_of_pos hw, List.dropWhile_cons_of_neg (by decide)]
  have hle : (d :: more).length ≤ ((d :: more ++ rest).takeWhile isDigit).length :=
    length_le_takeWhile hf rest
  unfold number
  rw [htext, htake, hdrop]
  simp only [hd, if_true]
  refine covers_token _ _ ?_
  rw [List.length_append, List.length_append, List.length_cons, List.length_cons]
  exact Nat.add_le_add_left (Nat.succ_le_succ hle) _

theorem slash_covers (cs : List Char) : (slash cs).Covers ['/'] := by
  unfold slash
  split
  · exact covers_skipped _ (by simp)
  · exact covers_token _ _ (Nat.le_refl _)

theorem slash_covers_comment {body : List Char} (hb : '\n' ∉ body) (rest : List Char) :
    (slash ('/' :: (body ++ rest))).Covers ('/' :: '/' :: body) := by
  have hbody : ∀ c ∈ body, (c != '\n') = true := by
    intro c hc
    rw [bne_iff_ne]
    rintro rfl
    exact hb hc
  refine covers_skipped _ ?_
  exact Nat.succ_le_succ (Nat.succ_le_succ (length_le_takeWhile hbody rest))

theorem string_covers {body : List Char} (hb : '"' ∉ body) (rest : List Char) :
    (string (body ++ '"' :: rest)).Covers ('"' :: (body ++ ['"'])) := by
  obtain ⟨htake, hdrop⟩ := takeWhile_until hb rest
  unfold string
  rw [htake, hdrop]
  exact covers_token _ _ (Nat.le_refl _)

/-- Keywords are words. -/
theorem Keyword.spelling_cases (k : Keyword) : ∃ c cs, k.spelling.toList = c :: cs ∧
    isNameStart c = true ∧ ∀ d ∈ cs, isNameRest d = true := by
  have hword : k.spelling.toList.head?.any isNameStart = true ∧
      k.spelling.toList.all isNameRest = true := by
    cases k <;> exact ⟨rfl, rfl⟩
  cases hcs : k.spelling.toList with
  | nil =>
    rw [hcs] at hword
    cases hword.1
  | cons c cs =>
    rw [hcs] at hword
    refine ⟨c, cs, rfl, hword.1, fun d hd => ?_⟩
    exact List.all_eq_true.1 hword.2 d (List.mem_cons_of_mem _ hd)

/-- Every lexeme at the head of a text is covered by what the scanner takes there. -/
theorem Lexeme.covered {kind : PieceKind} {c : Char} {cs : List Char} (h : Lexeme kind (c :: cs))
    (rest : List Char) : (nextPiece c (cs ++ rest)).Covers (c :: cs) := by
  have hname : isNameStart c = true → (∀ d ∈ cs, isNameRest d = true) →
      (nextPiece c (cs ++ rest)).Covers (c :: cs) := by
    intro hc hcs
    have hrest : isNameRest c = true := by simp [isNameRest, hc]
    rw [nextPiece_of_isNameStart hc]
    exact name_covers (List.forall_mem_cons.2 ⟨hrest, hcs⟩) rest
  generalize htext : c :: cs = text at h
  cases h with
  | punct p =>
    cases p with
    | slash =>
      cases htext
      exact slash_covers rest
    | bang | equal | greater | less =>
      cases htext
      exact withEqual_covers ..
    | _ =>
      cases htext
      exact covers_token _ _ (Nat.le_refl _)
  | keyword k =>
    obtain ⟨d, ds, hspelling, hd, hds⟩ := Keyword.spelling_cases k
    rw [hspelling] at htext ⊢
    cases htext
    exact hname hd hds
  | identifier hc hcs _ =>
    cases htext
    exact hname hc hcs
  | @string body hb =>
    cases htext
    rw [List.append_assoc]
    exact string_covers hb rest
  | @whole digits hne hd =>
    subst htext
    rw [nextPiece_of_isDigit (hd c (List.mem_cons_self ..))]
    exact number_covers hd rest
  | @decimal whole fraction hw hf hwd hfd =>
    obtain ⟨d, ds, rfl⟩ := List.exists_cons_of_ne_nil hw
    cases htext
    rw [nextPiece_of_isDigit (hwd c (List.mem_cons_self ..))]
    exact number_covers_decimal hwd hf hfd rest
  | blank hc =>
    cases htext
    rw [nextPiece_of_isBlank hc]
    exact covers_skipped _ (Nat.le_refl _)
  | @comment body hb =>
    cases htext
    exact slash_covers_comment hb rest

end Lox.Lexer
