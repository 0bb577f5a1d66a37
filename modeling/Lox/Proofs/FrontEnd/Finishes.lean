import Lox.Proofs.FrontEnd.Balance
import Lox.Proofs.FrontEnd.Items
import Lox.Proofs.FrontEnd.Ranges

/-!
# The front end always finishes

On every text, every list of tokens and every tree the front end comes to an end, looks nothing up
out of range and gives what `scan`, `parse`, `parseExpression` and `resolve` give
(`frontEnd_finishes`). The scanner goes by byte indices, the parser by token indices, and the
resolver by a stack of scopes; each of them is followed step by step by the definition that works
on what is left of its input.
-/

set_option autoImplicit false

namespace Lox

open Lexer Indexed

/-- The front end always finishes and never looks up anything out of range.

Scanning a text ends with the items of `scan`. Each call finds every byte and slice that it looks
up, and one that gives an item moves forwards from an index within the text.

Whatever the tokens are, no rule of the parser moves backwards or behind the first end token, and
neither does taking a token; a declaration in front of the first end token takes a token at least.
Parsing ends with what `parse` or `parseExpression` gives, as soon as calls may nest deep enough
for the number of tokens.

Resolving a statement leaves the kinds of the function and of the class as they were, and the stack
of scopes, too, but for the names that the statement itself binds in the innermost scope. Resolving
a program ends with what `resolve` gives, and no scope is left. -/
theorem frontEnd_finishes (text : String) (ts : List Token) (D : Nat)
    (hD : sufficientDepth ts ≤ D) (globals : List String) (program : List Stmt) :
    (Scanner.scanAll text .first = some (scan text) ∧
      ∀ n, ∃ r r', Scanner.afterCalls text .first n = some r ∧
        Scanner.next text r = some ((Cursor.start text).nth n, r') ∧
        (((Cursor.start text).nth n).isSome = true →
          r.curr ≤ text.utf8ByteSize ∧ r.curr < r'.curr)) ∧
    ((∀ s : State, s.current ≤ (Grammar.beforeEnd ts).length →
        (Step.advance (withEnd ts) s).EndsBetween s.current (Grammar.beforeEnd ts).length ∧
        (∀ kind, (Step.accepts kind (withEnd ts) s).EndsBetween s.current
          (Grammar.beforeEnd ts).length) ∧
        (∀ kind cause, (Step.consume kind cause (withEnd ts) s).EndsBetween s.current
          (Grammar.beforeEnd ts).length) ∧
        ∀ {α : Type} (rule : Rule α), (run D rule (withEnd ts) s).EndsBetween s.current
          (Grammar.beforeEnd ts).length) ∧
      (∀ s : State, s.current < (Grammar.beforeEnd ts).length →
        ∃ o s', run D .declaration (withEnd ts) s = .parsed o s' ∧ s.current < s'.current) ∧
      readAll .program D ts = some (Grammar.parse ts) ∧
      readAll .wholeExpression D ts = some (Grammar.parseExpression ts)) ∧
    ((∀ (x : Stmt) (r : Resolver), ∃ r', x.visit r =
          ((x.resolve r.context r.visible).value.1, r') ∧
        r'.function = r.function ∧ r'.enclosingClass = r.enclosingClass ∧
        SameStack x.binds r.scopes r'.scopes) ∧
      Stmt.visitAll program (.start globals) = ((resolve globals program).value.1,
        { Resolver.start (resolve globals program).value.2.globals with
          errors := (resolve globals program).errors })) := by
  refine ⟨⟨Scanner.scanAll_eq text, Scanner.next_advances text⟩,
    ⟨fun s hs => ?_, fun s hs => ?_, ?_, ?_⟩,
    fun x r => ?_, visitAll_eq_resolve globals program⟩
  · have hinput : s.current ≤ (Input.ofTokens ts).before.length := hs
    exact ⟨advance_endsBetween hinput, accepts_endsBetween hinput, consume_endsBetween hinput,
      fun rule => run_endsBetween hD rule s hs⟩
  · exact declaration_advances hD s hs
  · exact readAll_eq hD .program Grammar.program fun _ _ => rfl
  · exact readAll_eq hD .wholeExpression Grammar.wholeExpression fun _ _ => rfl
  · exact x.visit_balanced r

/-- An opening brace, an end token and another token behind it. -/
def unclosedBlock : List Token :=
  [⟨.punct .leftBrace, "\x7b", 1⟩, ⟨.eof, "", 1⟩, ⟨.punct .semicolon, ";", 2⟩]

theorem frontEnd_finishes_unclosed :
    sufficientDepth unclosedBlock ≤ 416 ∧
      readAll .program 416 unclosedBlock =
        some (.error [.syntactic ⟨.eof, "", 1⟩ .blockEnd]) ∧
      (∃ o s', run 416 .declaration (withEnd unclosedBlock) ⟨0, []⟩ = .parsed o s' ∧
        0 < s'.current) ∧
      ∃ r', (Stmt.block [.var ⟨.identifier, "a", 1⟩ none]).visit
          ⟨[thisScope], ["clock"], .method, .plain, []⟩ =
          (.block [.var ⟨.identifier, "a", 1⟩ none], r') ∧
        r'.function = .method ∧ r'.enclosingClass = .plain ∧
        SameStack [] [thisScope] r'.scopes := by
  obtain ⟨-, ⟨-, hdeclaration, hparse, -⟩, hvisit, -⟩ :=
    frontEnd_finishes "é" unclosedBlock 416 (by decide) [] []
  refine ⟨by decide, hparse, hdeclaration ⟨0, []⟩ (by decide), hvisit _ _⟩

end Lox
