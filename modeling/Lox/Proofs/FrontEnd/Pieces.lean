import Lox.Proofs.FrontEnd.Scanner
import Lox.Proofs.Token.Munch

/-!
# The pieces of the scanner by byte indices

Where the scanner's index stands in front of some characters (`At`), every look-up of the next piece
is in range and every part that it cuts out falls between characters: the piece is the one that
`nextPiece` takes off the characters, and the scanner has moved past them (`scanToken_eq`). There is
one lemma for each step of the scanner that says which characters it moves past (`Reader.after`).
-/

set_option autoImplicit false

namespace Lox.Scanner

open Lexer

variable {text : String} {r : Reader} {c : Char} {cs ds : List Char}

/-! ## Bytes at an index -/

theorem drop_of_byteAt? {i : Nat} {b : UInt8} (h : byteAt? text i = some b) :
    (bytes text).drop i = b :: (bytes text).drop (i + 1) := by
  obtain ⟨hlt, rfl⟩ := List.getElem?_eq_some_iff.1 h
  exact List.drop_eq_getElem_cons hlt

theorem drop_of_byteAt?_none {i : Nat} (h : byteAt? text i = none) : (bytes text).drop i = [] :=
  List.drop_eq_nil_of_le (List.getElem?_eq_none_iff.1 h)

theorem At.byteAt? {i : Nat} (h : At text i (c :: cs)) :
    ∃ b ∈ String.utf8EncodeChar c, byteAt? text i = some b := by
  obtain ⟨b, bs, hbs⟩ := List.exists_cons_of_ne_nil (String.utf8EncodeChar_ne_nil (c := c))
  refine ⟨b, hbs ▸ List.mem_cons_self, ?_⟩
  have hdrop := h.bytes
  rw [encode_cons, hbs] at hdrop
  have hhead := congrArg List.head? hdrop
  rw [List.head?_drop] at hhead
  exact hhead

theorem At.byteAt?_nil {i : Nat} (h : At text i []) : Scanner.byteAt? text i = none := by
  have hhead := congrArg List.head? h.bytes
  rw [List.head?_drop] at hhead
  exact hhead

theorem At.lt {i : Nat} (h : At text i (c :: cs)) : i < text.utf8ByteSize := by
  have hpos := Char.utf8Size_pos c
  rw [h.size, width_cons]
  omega

/-- On the next byte a uniform class holds of the next character. -/
theorem At.peek {p : Char → Bool} (hp : Uniform p) (h : At text r.curr (c :: cs)) :
    p (peek text r) = p c := by
  obtain ⟨b, hmem, hb⟩ := h.byteAt?
  rw [Scanner.peek, hb]
  exact hp.letter hmem

theorem At.peek_nil (h : At text r.curr []) : Scanner.peek text r = '\x00' := by
  rw [Scanner.peek, h.byteAt?_nil]
  rfl

theorem advance_of_at (h : At text r.curr (c :: cs)) (hc : c.toNat < 128) :
    advance text r = some (c, { r with curr := r.curr + 1 }) := by
  obtain ⟨b, hmem, hb⟩ := h.byteAt?
  obtain ⟨b', hb', hletter⟩ := exists_of_ascii hc
  rw [hb', List.mem_singleton] at hmem
  rw [advance, hb, hmem, Option.map_some, hletter]

theorem utf8Size_of_ascii (hc : c.toNat < 128) : c.utf8Size = 1 := by
  rw [Char.utf8Size_eq_one_iff, UInt32.le_iff_toNat_le]
  exact Nat.le_of_lt_succ hc

/-! ## Loops -/

theorem peek_of_byteAt? {b : UInt8} (h : byteAt? text r.curr = some b) :
    peek text r = letter b := by
  rw [peek, h, Option.getD_some]

theorem advanceWhile_bytes {p : Char → Bool} (hp : p '\x00' = false) (r : Reader) :
    advanceWhile text p r = some { r with
      curr := r.curr + (((bytes text).drop r.curr).takeWhile fun b => p (letter b)).length } := by
  fun_induction advanceWhile text p r with
  | case1 r hpeek hnone =>
    have hbyte : byteAt? text r.curr = none := Option.map_eq_none_iff.1 hnone
    rw [peek, hbyte] at hpeek
    exact absurd (hp.symm.trans hpeek) (by decide)
  | case2 r hpeek c r₁ hsome ih =>
    obtain ⟨b, hbyte, hpair⟩ := Option.map_eq_some_iff.1 hsome
    cases hpair
    rw [peek_of_byteAt? hbyte] at hpeek
    rw [ih, drop_of_byteAt? hbyte]
    simp only [List.takeWhile_cons, hpeek, if_true, List.length_cons, Nat.add_assoc,
      Nat.add_comm 1]
  | case3 r hpeek =>
    cases hbyte : byteAt? text r.curr with
    | none => rw [drop_of_byteAt?_none hbyte]; rfl
    | some b =>
      rw [peek_of_byteAt? hbyte] at hpeek
      rw [drop_of_byteAt? hbyte]
      simp [hpeek]

/-- A loop over a class of ASCII characters takes the longest front in the class. -/
theorem advanceWhile_of_at {p : Char → Bool} (hp : Uniform p) (hzero : p '\x00' = false)
    (h : At text r.curr cs) :
    advanceWhile text p r = some { r with curr := r.curr + width (cs.takeWhile p) } := by
  rw [advanceWhile_bytes hzero, h.bytes, takeWhile_encode hp]
  rfl

theorem lt_size_iff {i : Nat} : i < text.utf8ByteSize ↔ ∃ b, byteAt? text i = some b := by
  rw [utf8ByteSize_eq, width, ← bytes_eq]
  constructor
  · intro h
    exact ⟨_, List.getElem?_eq_getElem h⟩
  · rintro ⟨b, hb⟩
    exact (List.getElem?_eq_some_iff.1 hb).1

theorem stringBody_bytes (r : Reader) :
    stringBody text r = some { r with
      curr := r.curr + (((bytes text).drop r.curr).takeWhile fun b => letter b != '"').length
      line := r.line + (((bytes text).drop r.curr).takeWhile fun b => letter b != '"').countP
        fun b => letter b == '\n' } := by
  fun_induction stringBody text r with
  | case1 r hpeek hnone =>
    have hbyte : byteAt? text r.curr = none := Option.map_eq_none_iff.1 hnone
    obtain ⟨b, hb⟩ := lt_size_iff.1 hpeek.1
    exact absurd (hbyte.symm.trans hb) (by simp)
  | case2 r hpeek c r₁ hsome ih =>
    obtain ⟨b, hbyte, hpair⟩ := Option.map_eq_some_iff.1 hsome
    cases hpair
    obtain ⟨-, hquote⟩ := hpeek
    rw [peek_of_byteAt? hbyte] at hquote
    have hkeep : (letter b != '"') = true := by simpa using hquote
    rw [ih, drop_of_byteAt? hbyte]
    simp only [Reader.passed, List.takeWhile_cons, hkeep, if_true, List.length_cons,
      List.countP_cons, beq_iff_eq, Option.some.injEq, Reader.mk.injEq, true_and]
    refine ⟨by omega, ?_⟩
    split <;> omega
  | case3 r hpeek =>
    cases hbyte : byteAt? text r.curr with
    | none => rw [drop_of_byteAt?_none hbyte]; rfl
    | some b =>
      rw [peek_of_byteAt? hbyte] at hpeek
      have hquote : letter b = '"' :=
        Decidable.not_not.1 fun hne => hpeek ⟨lt_size_iff.2 ⟨b, hbyte⟩, hne⟩
      rw [drop_of_byteAt? hbyte]
      simp [hquote]

theorem uniform_ne {d : Char} (hd : d.toNat < 128) : Uniform (· != d) := by
  intro c c' hc hc'
  have hne : ∀ x : Char, 128 ≤ x.toNat → (x != d) = true := by
    intro x hx
    rw [bne_iff_ne]
    rintro rfl
    omega
  exact (hne c hc).trans (hne c' hc').symm

theorem uniform_eq {d : Char} (hd : d.toNat < 128) : Uniform (· == d) := by
  intro c c' hc hc'
  have h := uniform_ne hd c c' hc hc'
  simpa [bne] using h

theorem findIdx?_eq_takeWhile {α : Type} (p : α → Bool) (xs : List α) :
    xs.findIdx? p = if (xs.takeWhile fun x => !p x).length = xs.length then none
      else some (xs.takeWhile fun x => !p x).length := by
  induction xs with
  | nil => rfl
  | cons x xs ih =>
    rw [List.findIdx?_cons, ih, List.takeWhile_cons]
    cases hx : p x with
    | true => simp
    | false =>
      simp only [Bool.not_false, if_true, Bool.false_eq_true, if_false, List.length_cons,
        Nat.add_right_cancel_iff]
      split <;> simp

/-- A comment takes all up to the end of its line. -/
theorem comment_of_at (h : At text r.curr cs) :
    comment text r = some { r with curr := r.curr + width (cs.takeWhile (· != '\n')) } := by
  have hsize := h.size
  have hrest : bytesBetween? text r.curr text.utf8ByteSize = some (encode cs) := by
    rw [hsize]
    exact At.bytesBetween? (by rwa [List.append_nil] : At text r.curr (cs ++ []))
  have hcount : ((encode cs).takeWhile fun b => !letter b == '\n') =
      encode (cs.takeWhile (· != '\n')) :=
    takeWhile_encode (uniform_ne (by decide)) cs
  rw [comment, hrest, Option.bind_eq_bind, Option.bind_some, findIdx?_eq_takeWhile, hcount]
  by_cases hall : (encode (cs.takeWhile (· != '\n'))).length = (encode cs).length
  · rw [if_pos hall, hsize, width, width, hall]
  · rw [if_neg hall]
    rfl

/-! ## After some characters -/

/-- The state after these characters have been taken. -/
def Reader.after (r : Reader) (cs : List Char) : Reader :=
  { r with curr := r.curr + width cs, line := r.line + cs.count '\n' }

@[simp] theorem Reader.after_start (r : Reader) (cs : List Char) : (r.after cs).start = r.start :=
  rfl

@[simp] theorem Reader.after_curr (r : Reader) (cs : List Char) :
    (r.after cs).curr = r.curr + width cs :=
  rfl

theorem Reader.after_append (r : Reader) (cs ds : List Char) :
    r.after (cs ++ ds) = (r.after cs).after ds := by
  simp [Reader.after, Nat.add_assoc]

theorem Reader.after_cons (r : Reader) (c : Char) (cs : List Char) :
    r.after (c :: cs) = (r.after [c]).after cs :=
  r.after_append [c] cs

/-- Without a newline the line stays. -/
theorem Reader.after_of_not_mem (r : Reader) (h : '\n' ∉ cs) :
    r.after cs = { r with curr := r.curr + width cs } := by
  rw [Reader.after, List.count_eq_zero.2 h]
  rfl

theorem newline_not_mem_takeWhile {p : Char → Bool} (hp : p '\n' = false) (cs : List Char) :
    '\n' ∉ cs.takeWhile p := by
  intro hmem
  have h := List.mem_takeWhile_imp hmem
  rw [hp] at h
  cases h

theorem after_of_ascii (hc : c.toNat < 128) (hline : c ≠ '\n') (r : Reader) :
    r.after [c] = { r with curr := r.curr + 1 } := by
  rw [r.after_of_not_mem (by simpa using hline.symm), width_cons, utf8Size_of_ascii hc]
  rfl

theorem advance_after (h : At text r.curr (c :: cs)) (hc : c.toNat < 128) (hline : c ≠ '\n') :
    advance text r = some (c, r.after [c]) := by
  rw [advance_of_at h hc, after_of_ascii hc hline]

theorem At.after (h : At text r.curr (cs ++ ds)) : At text (r.after cs).curr ds :=
  h.move

theorem At.after_one (h : At text r.curr (c :: cs)) : At text (r.after [c]).curr cs :=
  (show At text r.curr ([c] ++ cs) from h).move

theorem advanceWhile_after {p : Char → Bool} (hp : Uniform p) (hzero : p '\x00' = false)
    (hline : p '\n' = false) (h : At text r.curr cs) :
    advanceWhile text p r = some (r.after (cs.takeWhile p)) := by
  rw [advanceWhile_of_at hp hzero h, r.after_of_not_mem (newline_not_mem_takeWhile hline cs)]

/-! ## Pieces -/

/-- A mark is taken after a character if it comes next. -/
theorem matchByte_after {d : Char} (hd : d.toNat < 128) (hzero : d ≠ '\x00') (hline : d ≠ '\n')
    (h : At text r.curr cs) :
    matchByte text d r = some (if cs.head? = some d then (true, r.after [d]) else (false, r)) := by
  cases cs with
  | nil =>
    rw [matchByte, if_neg fun hcond => hzero (hcond.2.symm.trans h.peek_nil)]
    rfl
  | cons c cs =>
    have hpeek : (peek text r == d) = (c == d) := h.peek (uniform_eq hd)
    by_cases hcd : c = d
    · subst hcd
      rw [matchByte, if_pos ⟨h.lt, by simpa using hpeek⟩, advance_after h hd hline]
      simp
    · have hne : peek text r ≠ d := by
        rw [beq_eq_false_iff_ne.2 hcd, beq_eq_false_iff_ne] at hpeek
        exact hpeek
      rw [matchByte, if_neg fun hcond => hne hcond.2]
      simp [hcd]

theorem withEqual_of_ne {p pe : Punct} (h : cs.head? ≠ some '=') :
    withEqual c p pe cs = ⟨.token (.punct p), [c], cs⟩ := by
  unfold withEqual
  split
  · exact absurd rfl h
  · rfl

theorem slash_of_ne (h : cs.head? ≠ some '/') :
    Lexer.slash cs = ⟨.token (.punct .slash), ['/'], cs⟩ := by
  unfold Lexer.slash
  split
  · exact absurd rfl h
  · rfl

theorem either_after (p pe : Punct) (h : At text r.curr (c :: cs)) :
    either text p pe (r.after [c]) =
      some ((withEqual c p pe cs).kind, r.after (withEqual c p pe cs).taken) := by
  rw [either, matchByte_after (by decide) (by decide) (by decide) h.after_one]
  by_cases hhead : cs.head? = some '='
  · obtain ⟨rest, rfl⟩ := List.head?_eq_some_iff.1 hhead
    rw [if_pos hhead, ← r.after_cons]
    rfl
  · rw [if_neg hhead, withEqual_of_ne hhead]
    rfl

theorem slash_after (h : At text r.curr ('/' :: cs)) :
    slash text (r.after ['/']) = some ((Lexer.slash cs).kind, r.after (Lexer.slash cs).taken) := by
  rw [slash, matchByte_after (by decide) (by decide) (by decide) h.after_one]
  by_cases hhead : cs.head? = some '/'
  · obtain ⟨rest, rfl⟩ := List.head?_eq_some_iff.1 hhead
    have hcomment : comment text ((r.after ['/']).after ['/']) =
        some (((r.after ['/']).after ['/']).after (rest.takeWhile (· != '\n'))) := by
      rw [comment_of_at h.after_one.after_one,
        Reader.after_of_not_mem _ (not_mem_takeWhile '\n' rest)]
    rw [if_pos hhead]
    show (comment text ((r.after ['/']).after ['/'])).bind _ = _
    rw [hcomment, ← Reader.after_cons, ← Reader.after_cons]
    rfl
  · rw [if_neg hhead, slash_of_ne hhead]
    rfl

/-- The loop over a string takes the longest front without a quote. -/
theorem stringBody_after (h : At text r.curr cs) :
    stringBody text r = some (r.after (cs.takeWhile (· != '"'))) := by
  rw [stringBody_bytes, h.bytes, takeWhile_encode (uniform_ne (by decide)),
    count_encode (by decide)]
  rfl

/-- What stands between the quotes of a string. -/
theorem slice?_contents {body rest : List Char} (hstart : r.start = r.curr)
    (h : At text r.curr ('"' :: body ++ '"' :: rest)) :
    slice? text (r.start + 1) ((r.after ('"' :: (body ++ ['"']))).curr - 1) =
      some (String.ofList body) := by
  have hinner : At text (r.curr + 1) (body ++ '"' :: rest) := h.after_one
  have hquote : '"'.utf8Size = 1 := rfl
  have hcurr : (r.after ('"' :: (body ++ ['"']))).curr - 1 = r.curr + 1 + width body := by
    rw [Reader.after_curr, width_cons, width_append, width_cons, width_nil]
    omega
  rw [hcurr, hstart]
  exact hinner.slice?

theorem string_after (hstart : r.start = r.curr) (h : At text r.curr ('"' :: cs)) :
    string text (r.after ['"']) =
      some ((Lexer.string cs).kind, r.after (Lexer.string cs).taken) := by
  generalize hbody : cs.takeWhile (· != '"') = body
  have hsplit := List.takeWhile_append_dropWhile (p := (· != '"')) (l := cs)
  rw [hbody] at hsplit
  have hloop : stringBody text (r.after ['"']) = some (r.after ('"' :: body)) := by
    rw [stringBody_after h.after_one, hbody, r.after_cons '"' body]
  rw [string, hloop, Lexer.string, hbody]
  show (if _ then _ else _) = _
  cases hend : cs.dropWhile (· != '"') with
  | nil =>
    rw [hend, List.append_nil] at hsplit
    have hsize : text.utf8ByteSize ≤ (r.after ('"' :: body)).curr := by
      rw [hsplit]
      exact Nat.le_of_eq h.size
    rw [if_pos hsize]
  | cons q rest =>
    have hq : q = '"' := by
      have hhead := List.head?_dropWhile_not (p := (· != '"')) (l := cs)
      rw [hend] at hhead
      simpa using hhead
    rw [hend, hq] at hsplit
    have hat : At text r.curr (('"' :: body) ++ '"' :: rest) := by
      rw [List.cons_append, hsplit]
      exact h
    have hlt : ¬ text.utf8ByteSize ≤ (r.after ('"' :: body)).curr := Nat.not_le.2 hat.after.lt
    rw [if_neg hlt, advance_after hat.after (by decide) (by decide), ← Reader.after_append, hq]
    show (slice? text (r.start + 1) ((r.after ('"' :: (body ++ ['"']))).curr - 1)).bind _ = _
    rw [slice?_contents hstart hat]
    rfl

/-! ### Numbers and names -/

theorem uniform_of_ascii {p : Char → Bool} (hp : ∀ c : Char, 128 ≤ c.toNat → p c = false) :
    Uniform p :=
  fun c d hc hd => (hp c hc).trans (hp d hd).symm

theorem isDigit_of_le (h : 128 ≤ c.toNat) : isDigit c = false := by
  have h9 : '9'.val.toNat = 57 := rfl
  have hval : 128 ≤ c.val.toNat := h
  simp only [isDigit, Bool.and_eq_false_iff, decide_eq_false_iff_not, Char.le_def,
    UInt32.le_iff_toNat_le]
  omega

theorem isNameRest_of_le (h : 128 ≤ c.toNat) : isNameRest c = false := by
  have hz : 'z'.val.toNat = 122 := rfl
  have hZ : 'Z'.val.toNat = 90 := rfl
  have hval : 128 ≤ c.val.toNat := h
  have hscore : (c == '_') = false := by
    rw [beq_eq_false_iff_ne]
    rintro rfl
    exact absurd h (by decide)
  rw [isNameRest, isDigit_of_le h, isNameStart, hscore]
  simp only [Bool.or_eq_false_iff, Bool.and_eq_false_iff, decide_eq_false_iff_not, Char.le_def,
    UInt32.le_iff_toNat_le, and_true]
  omega

theorem uniform_isDigit : Uniform isDigit :=
  uniform_of_ascii fun _ => isDigit_of_le

theorem uniform_isNameRest : Uniform isNameRest :=
  uniform_of_ascii fun _ => isNameRest_of_le

theorem keyword?_encode (cs : List Char) :
    keyword? (encode cs) = Keyword.ofSpelling? (String.ofList cs) := by
  have hspelling : ∀ k : Keyword, (bytes k.spelling == encode cs) =
      (k.spelling == String.ofList cs) := by
    intro k
    rw [Bool.eq_iff_iff, beq_iff_eq, beq_iff_eq, ← bytes_ofList]
    exact ⟨eq_of_bytes, fun h => h ▸ rfl⟩
  rw [keyword?, Keyword.ofSpelling?]
  simp only [hspelling]

theorem name_after (hstart : r.start = r.curr) (h : At text r.curr (c :: cs))
    (hc : isNameRest c = true) :
    name text (r.after [c]) =
      some ((Lexer.name (c :: cs)).kind, r.after (Lexer.name (c :: cs)).taken) := by
  have hwhile : (c :: cs).takeWhile isNameRest = c :: cs.takeWhile isNameRest := by
    rw [List.takeWhile_cons, hc, if_pos rfl]
  have hsplit : At text r.curr ((c :: cs.takeWhile isNameRest) ++ cs.dropWhile isNameRest) := by
    rw [List.cons_append, List.takeWhile_append_dropWhile]
    exact h
  have hloop : advanceWhile text isNameRest (r.after [c]) =
      some (r.after (c :: cs.takeWhile isNameRest)) := by
    rw [advanceWhile_after uniform_isNameRest (by decide) (by decide) h.after_one,
      ← r.after_cons]
  have hbytes : bytesBetween? text (r.after (c :: cs.takeWhile isNameRest)).start
      (r.after (c :: cs.takeWhile isNameRest)).curr =
        some (encode (c :: cs.takeWhile isNameRest)) := by
    rw [Reader.after_start, Reader.after_curr, hstart]
    exact hsplit.bytesBetween?
  rw [name, hloop]
  show (bytesBetween? text (r.after (c :: cs.takeWhile isNameRest)).start
      (r.after (c :: cs.takeWhile isNameRest)).curr).bind _ = _
  rw [hbytes, Option.bind_some, keyword?_encode, Lexer.name, hwhile]
  dsimp only
  cases Keyword.ofSpelling? (String.ofList (c :: cs.takeWhile isNameRest)) <;> rfl

/-- The fraction with its point that these characters begin with, if they do. -/
def pointed : List Char → List Char
  | '.' :: d :: cs => if isDigit d then '.' :: (d :: cs).takeWhile isDigit else []
  | _ => []

theorem peekNext_eq (hc : c.toNat < 128) : peekNext text r = peek text (r.after [c]) := by
  rw [peekNext, peek, Reader.after_curr, width_cons, width_nil, utf8Size_of_ascii hc]

theorem fraction_after (h : At text r.curr cs) :
    fraction text r = some (r.after (pointed cs)) := by
  cases cs with
  | nil =>
    rw [fraction, h.peek_nil, if_neg fun hcond => absurd hcond.1 (by decide)]
    rfl
  | cons c cs =>
    have hpeek : (peek text r == '.') = (c == '.') := h.peek (uniform_eq (by decide))
    by_cases hc : c = '.'
    · subst hc
      rw [beq_self_eq_true, beq_iff_eq] at hpeek
      rw [fraction, hpeek, peekNext_eq (c := '.') (by decide)]
      cases cs with
      | nil =>
        rw [h.after_one.peek_nil, if_neg fun hcond => absurd hcond.2 (by decide)]
        rfl
      | cons d cs =>
        have hdigit := h.after_one.peek uniform_isDigit
        rw [hdigit, pointed]
        by_cases hd : isDigit d = true
        · rw [if_pos ⟨rfl, hd⟩, if_pos hd, advance_after h (by decide) (by decide)]
          show advanceWhile text isDigit (r.after ['.']) = _
          rw [advanceWhile_after uniform_isDigit (by decide) (by decide) h.after_one,
            ← r.after_cons]
        · rw [if_neg fun hcond => hd hcond.2, if_neg hd]
          rfl
    · have hne : peek text r ≠ '.' := by
        rw [beq_eq_false_iff_ne.2 hc, beq_eq_false_iff_ne] at hpeek
        exact hpeek
      have hnone : pointed (c :: cs) = [] := by
        unfold pointed
        split
        · rename_i heq
          cases heq
          exact absurd rfl hc
        · rfl
      rw [fraction, if_neg fun hcond => hne hcond.1, hnone]
      rfl

theorem number_eq (cs : List Char) :
    (Lexer.number cs).kind = .token (.number
        (Number.ofNumeral (cs.takeWhile isDigit) ((pointed (cs.dropWhile isDigit)).drop 1))) ∧
      (Lexer.number cs).taken = cs.takeWhile isDigit ++ pointed (cs.dropWhile isDigit) := by
  unfold Lexer.number
  dsimp only
  split
  · rename_i d more heq
    rw [heq]
    show _ ∧ _ = _ ++ (if _ then _ else _)
    by_cases hd : isDigit d = true
    · rw [if_pos hd, if_pos hd]
      simp [pointed, hd]
    · rw [if_neg hd, if_neg hd, List.append_nil]
      simp [pointed, hd]
  · rename_i hne
    have hnone : pointed (cs.dropWhile isDigit) = [] := by
      unfold pointed
      split
      · rename_i heq
        exact absurd heq (hne _ _)
      · rfl
    rw [hnone]
    exact ⟨rfl, (List.append_nil _).symm⟩

/-- The value of a number is read off its slice as it is off its characters. -/
theorem numeralFloat_eq (cs ds : List Char) :
    numeralFloat (String.ofList (cs.takeWhile isDigit ++ pointed ds)) =
      Number.ofNumeral (cs.takeWhile isDigit) ((pointed ds).drop 1) := by
  have hpoint : (pointed ds).takeWhile isDigit = [] := by
    unfold pointed
    split
    · split <;> rfl
    · rfl
  have hdigits : ∀ d ∈ cs.takeWhile isDigit, isDigit d = true := forall_takeWhile cs
  have hdrop : (pointed ds).dropWhile isDigit = pointed ds := by
    have hsplit := List.takeWhile_append_dropWhile (p := isDigit) (l := pointed ds)
    rwa [hpoint, List.nil_append] at hsplit
  rw [numeralFloat, String.toList_ofList, List.takeWhile_append_of_pos hdigits, hpoint,
    List.append_nil, List.dropWhile_append_of_pos hdigits, hdrop]

theorem number_after (hstart : r.start = r.curr) (h : At text r.curr (c :: cs))
    (hc : isDigit c = true) :
    number text (r.after [c]) =
      some ((Lexer.number (c :: cs)).kind, r.after (Lexer.number (c :: cs)).taken) := by
  have hsplit :
      At text r.curr ((Lexer.number (c :: cs)).taken ++ (Lexer.number (c :: cs)).rest) := by
    rw [← nextPiece_of_isDigit hc, taken_append_rest]
    exact h
  have hat : At text r.curr ((c :: cs).takeWhile isDigit ++ (c :: cs).dropWhile isDigit) := by
    rw [List.takeWhile_append_dropWhile]
    exact h
  have hloop : advanceWhile text isDigit (r.after [c]) =
      some (r.after ((c :: cs).takeWhile isDigit)) := by
    rw [advanceWhile_after uniform_isDigit (by decide) (by decide) h.after_one, ← r.after_cons,
      List.takeWhile_cons, hc, if_pos rfl]
  obtain ⟨hkind, htaken⟩ := number_eq (c :: cs)
  have hslice : slice? text r.start (r.after (Lexer.number (c :: cs)).taken).curr =
      some (String.ofList (Lexer.number (c :: cs)).taken) := by
    rw [Reader.after_curr, hstart]
    exact hsplit.slice?
  rw [number, hloop]
  show (fraction text (r.after _)).bind _ = _
  rw [fraction_after hat.after, ← Reader.after_append, ← htaken]
  show (slice? text r.start (r.after _).curr).bind _ = _
  rw [hslice, Option.bind_some, hkind, htaken, numeralFloat_eq]

/-! ### Every piece -/

theorem unexpected_after (hstart : r.start = r.curr) (h : At text r.curr (c :: cs)) (x : Nat) :
    unexpected text { r with curr := x } =
      some (.wrong (.unexpectedCharacter c), { r with curr := r.curr + width [c] }) := by
  have hslice : slice? text r.start text.utf8ByteSize = some (String.ofList (c :: cs)) := by
    rw [h.size, hstart]
    exact At.slice? (by rwa [List.append_nil] : At text r.curr ((c :: cs) ++ []))
  rw [unexpected]
  show (slice? text r.start text.utf8ByteSize).bind _ = _
  rw [hslice, Option.bind_some, String.toList_ofList, hstart, width_cons, width_nil]
  rfl

theorem isNameStart_of_le (h : 128 ≤ c.toNat) : isNameStart c = false := by
  have hrest := isNameRest_of_le h
  rw [isNameRest, Bool.or_eq_false_iff] at hrest
  exact hrest.1

/-- A byte beyond ASCII starts no token. -/
theorem scanAfter_of_le (h : 128 ≤ c.toNat) (r : Reader) :
    scanAfter text c r = unexpected text r := by
  unfold scanAfter
  split
  iterate 20 exact absurd h (by decide)
  rw [isDigit_of_le h, isNameStart_of_le h]
  rfl

theorem nextPiece_of_le (h : 128 ≤ c.toNat) (cs : List Char) :
    nextPiece c cs = ⟨.wrong (.unexpectedCharacter c), [c], cs⟩ := by
  have hblank : isBlank c = false := by
    rw [Bool.eq_false_iff]
    intro hblank
    rcases isBlank_cases hblank with rfl | rfl | rfl | rfl <;> exact absurd h (by decide)
  unfold nextPiece
  split
  iterate 16 exact absurd h (by decide)
  rw [hblank, isDigit_of_le h, isNameStart_of_le h]
  rfl

/-- What follows an ASCII character is read as it is off the characters. -/
theorem scanAfter_eq (hstart : r.start = r.curr) (h : At text r.curr (c :: cs))
    (hline : c ≠ '\n') :
    scanAfter text c (r.after [c]) =
      some ((nextPiece c cs).kind, r.after (nextPiece c cs).taken) := by
  unfold scanAfter
  split
  iterate 10 rfl
  iterate 4 exact either_after _ _ h
  iterate 3 rfl
  · exact absurd rfl hline
  · exact slash_after h
  · exact string_after hstart h
  split
  · rename_i hdigit
    rw [nextPiece_of_isDigit hdigit]
    exact number_after hstart h hdigit
  split
  · rename_i hname
    rw [nextPiece_of_isNameStart hname]
    exact name_after hstart h (by rw [isNameRest, hname]; rfl)
  · rename_i hdigit hname
    have hblank : ¬ isBlank c = true := by
      intro hblank
      rcases isBlank_cases hblank with rfl | rfl | rfl | rfl <;> contradiction
    have hpiece : nextPiece c cs = ⟨.wrong (.unexpectedCharacter c), [c], cs⟩ := by
      unfold nextPiece
      split
      iterate 16 contradiction
      rw [if_neg hblank, if_neg hdigit, if_neg hname]
    rw [hpiece, r.after_of_not_mem (by simpa using hline.symm)]
    exact unexpected_after hstart h _

/-- In front of a character the scanner takes the piece that starts there. -/
theorem scanToken_eq (hstart : r.start = r.curr) (h : At text r.curr (c :: cs)) :
    scanToken text r = some ((nextPiece c cs).kind, r.after (nextPiece c cs).taken) := by
  by_cases hc : c.toNat < 128
  · by_cases hline : c = '\n'
    · subst hline
      rw [scanToken, advance_of_at h hc]
      rfl
    · rw [scanToken, advance_after h hc hline]
      exact scanAfter_eq hstart h hline
  · obtain ⟨b, hmem, hb⟩ := h.byteAt?
    have hletter : 128 ≤ (letter b).toNat := by
      rw [toNat_letter]
      exact le_of_mem_utf8EncodeChar hmem (by omega)
    have hline : '\n' ∉ [c] := by
      rw [List.mem_singleton]
      rintro rfl
      exact hc (by decide)
    rw [scanToken, advance, hb]
    show scanAfter text (letter b) _ = _
    rw [scanAfter_of_le hletter, unexpected_after hstart h, nextPiece_of_le (by omega),
      r.after_of_not_mem hline]

end Lox.Scanner
