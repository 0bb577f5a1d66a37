import Lox.Proofs.Token.Munch
import Mathlib

/-!
# Writing tokens and reading them again

No lexeme goes on over the space after a token (`Lexeme.length_le_of_space`). So the tokens of a
source text, written with a space between any two, are read back as they are (`scan_written`),
whatever stood between them in the text.
-/

set_option autoImplicit false

namespace Lox.Lexer

/-! ## Lexemes and spaces -/

section

variable {kind : TokenKind} {cs : List Char}

/-- A token that begins with neither a letter nor a digit is a punctuation mark or a string. -/
theorem Lexeme.of_symbol {c : Char} (h : Lexeme (.token kind) (c :: cs))
    (hname : isNameStart c = false) (hdigit : isDigit c = false) :
    (∃ p : Punct, c :: cs = p.spelling.toList) ∨
      ∃ body, '"' ∉ body ∧ c :: cs = '"' :: (body ++ ['"']) := by
  generalize htext : c :: cs = text at h
  cases h with
  | punct p => exact .inl ⟨p, rfl⟩
  | string hb => exact .inr ⟨_, hb, rfl⟩
  | keyword k =>
    obtain ⟨d, ds, hspelling, hd, -⟩ := Keyword.spelling_cases k
    cases htext.trans hspelling
    exact absurd hd (by simp [hname])
  | identifier hc =>
    cases htext
    exact absurd hc (by simp [hname])
  | whole hne hd =>
    subst htext
    exact absurd (hd c List.mem_cons_self) (by simp [hdigit])
  | decimal hw _ hwd _ =>
    obtain ⟨d, ds, rfl⟩ := List.exists_cons_of_ne_nil hw
    cases htext
    exact absurd (hwd c List.mem_cons_self) (by simp [hdigit])

/-- A token that begins with a quote is a string. -/
theorem Lexeme.of_quote (h : Lexeme (.token kind) ('"' :: cs)) :
    ∃ body, '"' ∉ body ∧ cs = body ++ ['"'] := by
  rcases h.of_symbol (by decide) (by decide) with ⟨p, htext⟩ | ⟨body, hbody, htext⟩
  · cases p <;> cases htext
  · exact ⟨body, hbody, (List.cons.inj htext).2⟩

/-- A token that begins with a slash is no more than that. -/
theorem Lexeme.of_slash (h : Lexeme (.token kind) ('/' :: cs)) : cs = [] := by
  rcases h.of_symbol (by decide) (by decide) with ⟨p, htext⟩ | ⟨body, -, htext⟩
  · cases p <;> cases htext
    rfl
  · cases htext

end

/-- A space is a lexeme, and it is in strings and comments. -/
theorem Lexeme.of_mem_space {kind : PieceKind} {text : List Char} (h : Lexeme kind text)
    (hspace : ' ' ∈ text) : text = [' '] ∨ (∃ body, '"' ∉ body ∧ text = '"' :: (body ++ ['"'])) ∨
      ∃ body, text = '/' :: '/' :: body := by
  cases h with
  | punct p => cases p <;> exact absurd hspace (by decide)
  | keyword k => cases k <;> exact absurd hspace (by decide)
  | identifier hc hcs =>
    rcases List.mem_cons.1 hspace with rfl | hmem
    · exact absurd hc (by decide)
    · exact absurd (hcs _ hmem) (by decide)
  | string hb => exact .inr (.inl ⟨_, hb, rfl⟩)
  | whole _ hd => exact absurd (hd _ hspace) (by decide)
  | decimal _ _ hwd hfd =>
    rcases List.mem_append.1 hspace with hmem | hmem
    · exact absurd (hwd _ hmem) (by decide)
    · rcases List.mem_cons.1 hmem with heq | hmem
      · exact absurd heq (by decide)
      · exact absurd (hfd _ hmem) (by decide)
  | blank =>
    rw [List.mem_singleton] at hspace
    exact .inl (hspace ▸ rfl)
  | comment => exact .inr (.inr ⟨_, rfl⟩)

/-- Before a space or the end of the text a token is the longest lexeme. -/
theorem Lexeme.length_le_of_space {kind : TokenKind} {kind' : PieceKind}
    {text text' rest : List Char} (h : Lexeme (.token kind) text)
    (hrest : ∀ c ∈ rest.head?, c = ' ') (h' : Lexeme kind' text')
    (hstart : text' <+: text ++ rest) : text'.length ≤ text.length := by
  by_contra hlong
  obtain ⟨c, cs, rfl⟩ := List.exists_cons_of_ne_nil h.ne_nil
  obtain ⟨more, rfl⟩ : ∃ more, text' = c :: cs ++ ' ' :: more := by
    obtain ⟨tail, rfl⟩ := List.prefix_of_prefix_length_le (List.prefix_append _ rest) hstart
      (by omega)
    cases tail with
    | nil => simp at hlong
    | cons d more =>
      obtain ⟨others, hothers⟩ := (List.prefix_append_right_inj _).1 hstart
      rw [hrest d (by rw [← hothers]; rfl)]
      exact ⟨more, rfl⟩
  rcases h'.of_mem_space (by simp) with htext | ⟨body, hbody, htext⟩ | ⟨body, htext⟩
  · simp at htext
  · -- the string would have ended before the space
    rw [List.cons_append] at htext
    obtain ⟨rfl, htail⟩ := List.cons.inj htext
    obtain ⟨inner, hinner, rfl⟩ := h.of_quote
    rw [List.append_assoc, List.singleton_append] at htail
    have hdrop := (takeWhile_until hinner (' ' :: more)).2
    rw [htail, (takeWhile_until hbody []).2] at hdrop
    simp at hdrop
  · rw [List.cons_append] at htext
    obtain ⟨rfl, htail⟩ := List.cons.inj htext
    rw [h.of_slash] at htail
    exact absurd (List.cons.inj htail).1 (by decide)

/-! ## Reading what is written -/

/-- A token before a space or the end of the text is read as a token. -/
theorem scanFrom_token {kind : TokenKind} {text rest : List Char} (h : Lexeme (.token kind) text)
    (hrest : ∀ c ∈ rest.head?, c = ' ') (line : Nat) :
    scanFrom line (text ++ rest) =
      .ok ⟨kind, String.ofList text, line + text.count '\n'⟩ ::
        scanFrom (line + text.count '\n') rest := by
  obtain ⟨c, cs, rfl⟩ := List.exists_cons_of_ne_nil h.ne_nil
  have hright : Span.Right ⟨.token kind, c :: cs⟩ rest :=
    .lexeme h fun _ _ h' hstart => h.length_le_of_space hrest h' hstart
  have hpiece : nextPiece c (cs ++ rest) = ⟨.token kind, c :: cs, rest⟩ := hright.nextPiece_eq rfl
  rw [List.cons_append, scanFrom, hpiece]
  rfl

/-- A space is a blank. -/
theorem scanFrom_space (line : Nat) (cs : List Char) :
    scanFrom line (' ' :: cs) = scanFrom line cs := by
  rw [scanFrom]
  rfl

/-- Tokens as a text, with a space between any two. -/
def written (ts : List Token) : String :=
  " ".intercalate (ts.map (·.lexeme))

/-- A token without its place: its kind, with the payload, and its lexeme. -/
def content (t : Token) : TokenKind × String :=
  (t.kind, t.lexeme)

/-- Tokens that are lexemes are read back from the text in which they are written. -/
theorem scanFrom_written {ts : List Token}
    (h : ∀ t ∈ ts, Lexeme (.token t.kind) t.lexeme.toList) (line : Nat) :
    ∃ (us : List Token) (last : Nat), us.map content = ts.map content ∧
      scanFrom line (written ts).toList = us.map .ok ++ [.ok ⟨.eof, "", last⟩] := by
  induction ts generalizing line with
  | nil =>
    refine ⟨[], line, rfl, ?_⟩
    show scanFrom line [] = _
    rw [scanFrom]
    rfl
  | cons t ts ih =>
    obtain ⟨ht, hts⟩ := List.forall_mem_cons.1 h
    obtain ⟨us, last, hsame, hrest⟩ := ih hts (line + t.lexeme.toList.count '\n')
    refine ⟨⟨t.kind, t.lexeme, line + t.lexeme.toList.count '\n'⟩ :: us, last, ?_, ?_⟩
    · rw [List.map_cons, hsame, List.map_cons]
      rfl
    cases ts with
    | nil =>
      have htext : (written [t]).toList = t.lexeme.toList ++ (written []).toList := by
        simp [written]
      rw [htext, scanFrom_token ht (by simp [written]), hrest, String.ofList_toList]
      rfl
    | cons u ts =>
      have htext : (written (t :: u :: ts)).toList
          = t.lexeme.toList ++ ' ' :: (written (u :: ts)).toList := by
        simp [written, String.intercalate_cons_cons]
      rw [htext, scanFrom_token ht (by simp), scanFrom_space, hrest, String.ofList_toList]
      rfl

/-! ## The tokens of a source text -/

/-- Every token but the end of the source is a lexeme. -/
theorem scanFrom_lexeme (line : Nat) (cs : List Char) :
    ∀ t, (Except.ok t : Item) ∈ scanFrom line cs → t.kind ≠ .eof →
      Lexeme (.token t.kind) t.lexeme.toList := by
  fun_induction scanFrom line cs with
  | case1 line =>
    intro t ht hne
    simp only [List.mem_singleton, Except.ok.injEq] at ht
    subst ht
    exact absurd rfl hne
  | case2 line c cs p line' item hitem ih =>
    intro t ht hne
    rcases List.mem_cons.1 ht with rfl | ht
    · rcases nextPiece_lexeme c cs with hlexeme | ⟨-, -, hpiece⟩ | ⟨-, hpiece⟩
      · unfold Piece.item? at hitem
        split at hitem <;> cases hitem
        rename_i kind hkind
        rw [String.toList_ofList, ← hkind]
        exact hlexeme
      · unfold Piece.item? at hitem
        simp only [p, hpiece] at hitem
        cases hitem
      · unfold Piece.item? at hitem
        simp only [p, hpiece] at hitem
        cases hitem
    · exact ih t ht hne
  | case3 line c cs p line' hitem ih => exact ih

theorem scan_lexeme {source : String} {t : Token} (ht : t ∈ tokens (scan source))
    (hne : t.kind ≠ .eof) : Lexeme (.token t.kind) t.lexeme.toList := by
  obtain ⟨item, hitem, hsome⟩ := List.mem_filterMap.1 ht
  split at hsome <;> cases hsome
  exact scanFrom_lexeme _ _ t hitem hne

/-- The tokens of a source text before its end. -/
def sourceTokens (source : String) : List Token :=
  (tokens (scan source)).filter fun t => t.kind ≠ .eof

theorem tokens_map_ok (ts : List Token) (items : List Item) :
    tokens (ts.map .ok ++ items) = ts ++ tokens items := by
  rw [tokens, List.filterMap_append, List.filterMap_map]
  simp [tokens]

theorem errors_map_ok (ts : List Token) (items : List Item) :
    errors (ts.map .ok ++ items) = errors items := by
  rw [errors, List.filterMap_append, List.filterMap_map]
  simp [errors]

/-- **Written tokens are read back.** The tokens of a source text, written with a space between any
two, give no lexical error and the same tokens again, up to their lines, and then the end. -/
theorem scan_written (source : String) :
    errors (scan (written (sourceTokens source))) = [] ∧
      (tokens (scan (written (sourceTokens source)))).map content
        = (sourceTokens source).map content ++ [(.eof, "")] := by
  have hlexemes : ∀ t ∈ sourceTokens source, Lexeme (.token t.kind) t.lexeme.toList := by
    intro t ht
    obtain ⟨ht, hne⟩ := List.mem_filter.1 ht
    exact scan_lexeme ht (of_decide_eq_true hne)
  obtain ⟨us, last, hsame, hscan⟩ := scanFrom_written hlexemes 1
  rw [scan, hscan]
  constructor
  · rw [errors_map_ok]
    rfl
  · rw [tokens_map_ok, List.map_append, hsame]
    rfl

/-- What stands between the tokens is lost, and what stands in them is not. -/
example : written (sourceTokens "a=\"// \n\"//b\n!= é super.c") = "a = \"// \n\" != super . c" := by
  cbv

/-- A dot next to a number, a mark next to an equals sign and a string of two lines, read back. -/
example : (tokens (scan (written (sourceTokens "1.f 2.5.g<==\"a\nb\";")))).map content
    = [(.number (.ofBits 0x3FF0000000000000), "1"), (.punct .dot, "."), (.identifier, "f"),
      (.number (.ofBits 0x4004000000000000), "2.5"), (.punct .dot, "."), (.identifier, "g"),
      (.punct .lessEqual, "<="), (.punct .equal, "="), (.string "a\nb", "\"a\nb\""),
      (.punct .semicolon, ";"), (.eof, "")] := by
  decide +kernel

end Lox.Lexer
