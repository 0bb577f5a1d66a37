import Lox.Proofs.Lines.Grammar
import Lox.Proofs.Lines.Scan
import Lox.Proofs.Scope.Globals
import Lox.Proofs.Scope.Widen
import Lox.Proofs.Session.Accepted

/-!
# Compiling two texts as one

A text after another one on a new line compiles to the program of the first and then that of the
second on later lines, where the second is accepted with the globals that the first leaves or fewer
(`compile_join`). What is accepted as one begins with the program of the first, unless the second
begins with an `else` (`compile_join_split`).
-/

set_option autoImplicit false

namespace Lox

open Grammar

/-- The two texts, on different lines. -/
def joinLines (a b : String) : String :=
  a ++ "\n" ++ b

/-- How many lines later the second of two texts on different lines starts. -/
def linesBefore (a : String) : Nat :=
  lineCount a + 1

/-- The program on later lines. -/
abbrev laterBy (n : Nat) : List Stmt → List Stmt :=
  Stmt.relabelAll (· + n)

variable {a b : String} {globals globals' : List String} {program program' : List Stmt}

/-! ## Reading -/

theorem beforeEnd_append {front : List Token} (hfront : ∀ t ∈ front, t.kind ≠ .eof)
    (ts : List Token) : beforeEnd (front ++ ts) = front ++ beforeEnd ts :=
  List.takeWhile_append_of_pos fun t ht => decide_eq_true (hfront t ht)

theorem beforeEnd_relabel (ρ : Nat → Nat) (ts : List Token) :
    beforeEnd (relabelTokens ρ ts) = relabelTokens ρ (beforeEnd ts) := by
  rw [beforeEnd, relabelTokens, List.takeWhile_map]
  rfl

/-- The tokens of two texts on different lines, up to the end. -/
theorem beforeEnd_join (ha : Lexer.errors (Lexer.scan a) = []) (b : String) :
    beforeEnd (Lexer.tokens (Lexer.scan (joinLines a b)))
      = beforeEnd (Lexer.tokens (Lexer.scan a))
        ++ relabelTokens (· + linesBefore a) (beforeEnd (Lexer.tokens (Lexer.scan b))) := by
  obtain ⟨front, hfront, halone, hjoined, -⟩ := Lexer.tokens_join ha b
  have hend : beforeEnd [(⟨.eof, "", 1 + lineCount a⟩ : Token)] = [] := rfl
  rw [joinLines, hjoined, halone, beforeEnd_append hfront, beforeEnd_append hfront, hend,
    List.append_nil, ← beforeEnd_relabel]
  rfl

theorem readSource_join (ha : readSource Grammar.parse a = .ok program)
    (hb : readSource Grammar.parse b = .ok program') :
    readSource Grammar.parse (joinLines a b)
      = .ok (program ++ laterBy (linesBefore a) program') := by
  obtain ⟨ha, hea⟩ := readSource_ok_iff.1 ha
  obtain ⟨hb, heb⟩ := readSource_ok_iff.1 hb
  have ha := parse_ok_iff.1 ha
  have hb := parse_ok_iff.1 hb
  refine readSource_ok_iff.2 ⟨parse_ok_iff.2 ?_, ?_⟩
  · rw [beforeEnd_join hea]
    exact Forms.append (hb.relabel (· + linesBefore a)) ha
  · obtain ⟨-, -, -, -, herrors⟩ := Lexer.tokens_join hea b
    exact herrors.2 heb

/-- The first token of the text, if there is one, is no `else`. -/
def StartsWithoutElse (b : String) : Prop :=
  NoElse (Lexer.tokens (Lexer.scan b))

theorem StartsWithoutElse.later (hb : StartsWithoutElse b) (n : Nat) :
    NoElse (relabelTokens (· + n) (beforeEnd (Lexer.tokens (Lexer.scan b)))) := by
  unfold StartsWithoutElse at hb
  rw [← beforeEnd_relabel]
  cases hts : Lexer.tokens (Lexer.scan b) with
  | nil => exact nofun
  | cons t ts =>
    rw [hts] at hb
    intro u hu
    rw [relabelTokens, List.map_cons, beforeEnd, List.takeWhile_cons] at hu
    split at hu
    · cases hu
      exact hb t rfl
    · cases hu

theorem readSource_join_split (ha : readSource Grammar.parse a = .ok program)
    (hb : StartsWithoutElse b) (hab : readSource Grammar.parse (joinLines a b) = .ok program') :
    ∃ rest, program' = program ++ rest := by
  obtain ⟨ha, hea⟩ := readSource_ok_iff.1 ha
  have hab := parse_ok_iff.1 (readSource_ok hab)
  rw [beforeEnd_join hea] at hab
  obtain ⟨rest, hrest, -⟩ := Forms.split (hb.later _) (parse_ok_iff.1 ha) hab
  exact ⟨rest, hrest⟩

/-! ## Compiling -/

theorem compile_join (ha : compile globals a = .ok program)
    (hb : compile globals' b = .ok program')
    (hg : ∀ x ∈ globals', x ∈ globals ∨ x ∈ Stmt.bindsAll program) :
    compile globals (joinLines a b)
      = .ok (program ++ laterBy (linesBefore a) program') := by
  obtain ⟨tree, hreadA, herrorsA, rfl⟩ := compile_ok_iff.1 ha
  obtain ⟨tree', hreadB, herrorsB, rfl⟩ := compile_ok_iff.1 hb
  have hadds := Stmt.resolveAll_adds tree .top (s := .top globals) rfl
  have hwithin : (Scopes.top globals').Within (resolve globals tree).value.2 := by
    refine ⟨hadds.top, fun x hx => (hadds.globals x).2 ?_⟩
    have hbinds : Stmt.bindsAll (resolve globals tree).value.1 = Stmt.bindsAll tree :=
      Stmt.bindsAll_resolveAll ..
    rw [← hbinds]
    exact hg x hx
  obtain ⟨herrors, hvalue, -⟩ :=
    Stmt.resolveAll_carries (· + linesBefore a) tree' .top hwithin herrorsB
  obtain ⟨hvalue', herrors'⟩ := Stmt.resolveAll_append .top
    (laterBy (linesBefore a) tree') tree (.top globals)
  refine compile_ok_iff.2 ⟨_, readSource_join hreadA hreadB, ?_, ?_⟩
  · show (Stmt.resolveAll _ _ _).errors = []
    rw [herrors']
    exact List.append_eq_nil_iff.2 ⟨herrorsA, herrors⟩
  · show (Stmt.resolveAll _ _ _).value.1 = _
    rw [hvalue']
    exact congrArg (_ ++ ·) hvalue

theorem compile_join_split (ha : compile globals a = .ok program) (hb : StartsWithoutElse b)
    (hab : compile globals (joinLines a b) = .ok program') :
    ∃ rest, program' = program ++ rest := by
  obtain ⟨tree, hreadA, -, rfl⟩ := compile_ok_iff.1 ha
  obtain ⟨joined, hread, -, rfl⟩ := compile_ok_iff.1 hab
  obtain ⟨rest, rfl⟩ := readSource_join_split hreadA hb hread
  exact ⟨_, (Stmt.resolveAll_append .top rest tree (.top globals)).1⟩

end Lox
