import Lox.Token.Lexer

/-!
# Spelling

A reserved word is spelled in one way and no identifier is spelled like one. Tokens made by the
scanner are `Spelled` so; tokens from elsewhere need not be.
-/

set_option autoImplicit false

namespace Lox

/-- The spelling fits the kind, as far as reserved words and identifiers go. -/
def Token.Spelled (t : Token) : Prop :=
  match t.kind with
  | .keyword k => t.lexeme = k.spelling
  | .identifier => ∀ k : Keyword, t.lexeme ≠ k.spelling
  | _ => True

/-- The kind is neither a name's nor the end. -/
def TokenKind.IsPlain : TokenKind → Prop
  | .keyword _ | .identifier | .eof => False
  | _ => True

theorem Token.Spelled.keyword {t : Token} {k : Keyword} (h : t.Spelled)
    (hk : t.kind = .keyword k) : t.lexeme = k.spelling := by
  unfold Token.Spelled at h
  simpa only [hk] using h

theorem Token.Spelled.identifier {t : Token} (h : t.Spelled) (hk : t.kind = .identifier)
    (k : Keyword) : t.lexeme ≠ k.spelling := by
  unfold Token.Spelled at h
  simp only [hk] at h
  exact h k

theorem Keyword.mem_all (k : Keyword) : k ∈ Keyword.all := by
  cases k <;> decide

theorem Keyword.spelling_of_ofSpelling? {s : String} {k : Keyword}
    (h : Keyword.ofSpelling? s = some k) : s = k.spelling := by
  have := List.find?_some h
  exact (beq_iff_eq.1 this).symm

theorem Keyword.ne_spelling_of_ofSpelling? {s : String} (h : Keyword.ofSpelling? s = none)
    (k : Keyword) : s ≠ k.spelling := by
  have hne := List.find?_eq_none.1 h k k.mem_all
  exact fun hs => hne (beq_iff_eq.2 hs.symm)

namespace Lexer

theorem name_spelled {cs : List Char} {kind : TokenKind} (line : Nat)
    (h : (name cs).kind = .token kind) :
    Token.Spelled ⟨kind, String.ofList (name cs).taken, line⟩ := by
  cases hk : Keyword.ofSpelling? (String.ofList (cs.takeWhile isNameRest)) with
  | some k =>
    simp only [name, hk, PieceKind.token.injEq] at h
    subst h
    exact Keyword.spelling_of_ofSpelling? hk
  | none =>
    simp only [name, hk, PieceKind.token.injEq] at h
    subst h
    exact Keyword.ne_spelling_of_ofSpelling? hk

/-- Only names are identifiers or reserved words, and no piece is the end. -/
theorem nextPiece_kind (c : Char) (cs : List Char) :
    nextPiece c cs = name (c :: cs) ∨
      ∀ kind, (nextPiece c cs).kind = .token kind → kind.IsPlain := by
  unfold nextPiece
  split
  iterate 10
    right
    intro kind h
    cases h
    trivial
  iterate 4
    right
    intro kind h
    unfold withEqual at h
    split at h <;> cases h <;> trivial
  · right
    intro kind h
    unfold slash at h
    split at h <;> cases h
    trivial
  · right
    intro kind h
    unfold string at h
    dsimp only at h
    split at h <;> cases h
    trivial
  · split
    · right
      intro kind h
      cases h
    · split
      · right
        intro kind h
        unfold number at h
        dsimp only at h
        split at h
        · split at h <;> cases h <;> trivial
        · cases h
          trivial
      · split
        · left
          rfl
        · right
          intro kind h
          cases h

theorem nextPiece_spelled {c : Char} {cs : List Char} {kind : TokenKind} (line : Nat)
    (h : (nextPiece c cs).kind = .token kind) :
    Token.Spelled ⟨kind, String.ofList (nextPiece c cs).taken, line⟩ := by
  rcases nextPiece_kind c cs with hname | hother
  · rw [hname] at h ⊢
    exact name_spelled line h
  · have hplain := hother kind h
    unfold Token.Spelled
    cases kind with
    | keyword k => exact hplain.elim
    | identifier => exact hplain.elim
    | _ => trivial

theorem scanFrom_spelled (line : Nat) (cs : List Char) :
    ∀ t, (Except.ok t : Item) ∈ scanFrom line cs → t.Spelled := by
  fun_induction scanFrom line cs with
  | case1 line =>
    intro t ht
    simp only [List.mem_singleton, Except.ok.injEq] at ht
    subst ht
    trivial
  | case2 line c cs p line' item hitem ih =>
    intro t ht
    rcases List.mem_cons.1 ht with rfl | ht
    · unfold Piece.item? at hitem
      split at hitem <;> cases hitem
      exact nextPiece_spelled _ ‹_›
    · exact ih t ht
  | case3 line c cs p line' hitem ih => exact ih

/-- The tokens of a source text are spelled as their kinds are. -/
theorem scan_spelled (source : String) : ∀ t ∈ tokens (scan source), t.Spelled := by
  intro t ht
  obtain ⟨item, hitem, h⟩ := List.mem_filterMap.1 ht
  split at h <;> cases h
  exact scanFrom_spelled _ _ t hitem

end Lexer
end Lox
