import Lox.Proofs.FrontEnd.Rules

/-!
# Every rule ends within range

Given depth enough for the number of tokens, every rule of the parser by token indices ends at an
index between the one it started at and that of the first end token, whatever the tokens are
(`run_endsBetween`); neither the depth runs out nor is a token looked up outside of the list. A
declaration in front of the first end token leaves it further on (`declaration_advances`), and
whole inputs are read as by the grammar (`readAll_eq`).
-/

set_option autoImplicit false

namespace Lox.Indexed

open Grammar Step

/-! ## Readers last -/

variable {x : Input} {n d : Nat}

/-- A reader that only skips tokens. -/
theorem within_skipping {f : List Token → List Token} (hf : ∀ ts, f ts <:+ ts) :
    Parse.Within n 0 (fun ts => .parsed () (f ts) []) :=
  fun ts _ => ⟨hf ts, (hf ts).length_le⟩

theorem finishCallReader_within (callee : Expr) (h : 32 * n + 16 ≤ d) :
    Parse.Within n 0 (finishCallReader callee d) := by
  have hclose : ∀ (arguments : List Expr) (m : Nat), Parse.Within m 0 (do
      let paren ← Parse.expect (.punct .rightParen) .argumentsEnd
      pure (Expr.call callee paren arguments)) := fun arguments m =>
    ((Parse.Within.expect _ _).mono (Nat.zero_le 1)).bindLeft fun _ _ _ => .pure _
  unfold finishCallReader
  refine (Parse.Within.sees _).bindLeft fun empty m hm => ?_
  dsimp only
  split
  · exact (Parse.Within.pure _).bindLeft fun arguments m' _ => hclose arguments m'
  · refine ((argumentList_within d m 0 (by omega)).mono (Nat.zero_le 1)).bindLeft ?_
    exact fun arguments m' _ => hclose arguments m'

theorem wholeExpression_within (h : 32 * n + 15 ≤ d) :
    Parse.Within n 0 (Grammar.wholeExpression d) := by
  unfold Grammar.wholeExpression
  refine ((expression_within d n h).mono (Nat.zero_le 1)).bindLeft fun value m hm => ?_
  exact .peek_bind ⟨List.suffix_refl _, Nat.le_refl _⟩ fun t ts hts => List.suffix_refl _

theorem recover_takesFrom {α : Type} {p : Parse α} {ts : List Token} (h : Parse.TakesFrom 0 ts p) :
    Parse.TakesFrom 0 ts (Parse.recover p) := by
  unfold Parse.TakesFrom at h ⊢
  unfold Parse.recover
  cases hp : p ts with
  | parsed a rest faults =>
    rw [hp] at h
    exact h
  | failed cause rest faults =>
    rw [hp] at h
    have hsuffix := ((Parse.synchronize_suffix rest).trans (List.tail_suffix rest)).trans h
    exact ⟨hsuffix, hsuffix.length_le⟩
  | exhausted =>
    rw [hp] at h
    exact h.elim

theorem recover_ne_failed {α : Type} (p : Parse α) (ts : List Token) {cause : SyntaxCause}
    {rest : List Token} {faults : List Fault} :
    Parse.recover p ts ≠ .failed cause rest faults := by
  unfold Parse.recover
  split <;> exact nofun

theorem declaration_within (h : 32 * n + 18 ≤ d) : Parse.Within n 0 (Grammar.declaration d) := by
  obtain ⟨d, rfl⟩ : ∃ d', d = d' + 1 := ⟨d - 1, by omega⟩
  rw [Grammar.declaration]
  exact fun ts hts => recover_takesFrom
    ((declarationOrFail_within d n (by omega)).mono (Nat.zero_le 1) ts hts)

/-- With depth enough for all tokens, no reader runs out of it. -/
theorem Rule.reader_within {α : Type} (rule : Rule α) (previous : Token) (h : 32 * n + 32 ≤ d) :
    Parse.Within n 0 (rule.reader previous d) := by
  cases rule with
  | program => exact program_within d n (by omega)
  | wholeExpression => exact wholeExpression_within (by omega)
  | declaration => exact declaration_within (by omega)
  | synchronize =>
    exact within_skipping fun ts => (Parse.synchronize_suffix ts).trans (List.tail_suffix ts)
  | skip => exact within_skipping (Parse.skipToBoundary_suffix previous)
  | classDeclaration => exact (classDeclaration_within d n (by omega)).mono (Nat.zero_le 1)
  | methods => exact methodList_within d n (by omega)
  | function role => exact (function_within d n role (by omega)).mono (Nat.zero_le 1)
  | parameters count => exact (parameterList_within d n count (by omega)).mono (Nat.zero_le 1)
  | varDeclaration => exact (varDeclaration_within d n (by omega)).mono (Nat.zero_le 1)
  | statement => exact (statement_within d n (by omega)).mono (Nat.zero_le 1)
  | forStatement => exact (forStatement_within d n (by omega)).mono (Nat.zero_le 1)
  | ifStatement => exact (ifStatement_within d n (by omega)).mono (Nat.zero_le 1)
  | whileStatement => exact (whileStatement_within d n (by omega)).mono (Nat.zero_le 1)
  | printStatement => exact printStatement_within d n previous (by omega)
  | returnStatement => exact returnStatement_within d n previous (by omega)
  | expressionStatement => exact (expressionStatement_within d n (by omega)).mono (Nat.zero_le 1)
  | block => exact (block_within d n (by omega)).mono (Nat.zero_le 1)
  | expression => exact (expression_within d n (by omega)).mono (Nat.zero_le 1)
  | assignment => exact (expression_within d n (by omega)).mono (Nat.zero_le 1)
  | level l => exact (binary_within d n l (by omega)).mono (Nat.zero_le 1)
  | operations l left => exact binaryTail_within d n l left (by omega)
  | unary => exact (unary_within d n (by omega)).mono (Nat.zero_le 1)
  | call =>
    refine ((primary_within d n (by omega)).mono (Nat.zero_le 1)).bindLeft fun callee m hm => ?_
    exact callTail_within d m callee (by omega)
  | suffixes callee => exact callTail_within d n callee (by omega)
  | finishCall callee => exact finishCallReader_within callee (by omega)
  | arguments count => exact (argumentList_within d n count (by omega)).mono (Nat.zero_le 1)
  | primary => exact (primary_within d n (by omega)).mono (Nat.zero_le 1)

/-! ## The tokens of an input -/

/-- The tokens with an end token, taken apart at the first one. -/
theorem split_withEnd (ts : List Token) :
    ∃ rest, withEnd ts = beforeEnd ts ++ endToken ts :: rest := by
  cases hfind : ts.find? fun t => t.kind = .eof with
  | some t =>
    obtain ⟨ht, front, rest, rfl, hfront⟩ := List.find?_eq_some_iff_append.1 hfind
    have hbefore : beforeEnd (front ++ t :: rest) = front := by
      rw [beforeEnd, List.takeWhile_append_of_pos (by simpa using hfront),
        List.takeWhile_cons_of_neg (by simpa using ht), List.append_nil]
    have hend : endToken (front ++ t :: rest) = t := by
      rw [endToken, hfind]
    rw [hbefore, hend, withEnd]
    split
    · exact ⟨rest, rfl⟩
    · exact ⟨_, by rw [List.append_assoc, List.cons_append]⟩
  | none =>
    have hne : ∀ t ∈ ts, t.kind ≠ .eof := by simpa using hfind
    have hbefore : beforeEnd ts = ts := by
      rw [beforeEnd, ← List.append_nil ts, List.takeWhile_append_of_pos (by simpa using hne)]
      rfl
    have hlast : ts.getLast?.any (fun t => t.kind = .eof) = false := by
      cases hlast : ts.getLast? with
      | none => rfl
      | some t => simpa using hne t (List.mem_of_getLast? hlast)
    rw [hbefore, withEnd, hlast, endToken, hfind]
    exact ⟨[], rfl⟩

theorem endToken_kind (ts : List Token) : (endToken ts).kind = .eof := by
  unfold endToken
  split
  · rename_i t ht
    simpa using List.find?_some ht
  · rfl

/-- An input from any list of tokens. -/
def Input.ofTokens (ts : List Token) : Input where
  tokens := withEnd ts
  before := beforeEnd ts
  atEnd := endToken ts
  split := split_withEnd ts
  ne_eof t ht := by simpa using List.all_eq_true.1 List.all_takeWhile t ht
  eof := endToken_kind ts

theorem length_beforeEnd_le (ts : List Token) : (beforeEnd ts).length ≤ ts.length :=
  (List.takeWhile_prefix _).length_le

/-! ## Rules by indices -/

/-- A step ends, at an index from `first` to `last`. -/
def Outcome.EndsBetween {α : Type} (first last : Nat) : Outcome α → Prop
  | .parsed _ s => first ≤ s.current ∧ s.current ≤ last
  | .failed _ s => first ≤ s.current ∧ s.current ≤ last
  | .outOfRange => False
  | .exhausted => False

theorem Follows.endsBetween {α : Type} {s : State} {p : Step α} {q : Parse α}
    (h : Follows x s p q) (hq : Parse.TakesFrom 0 (x.before.drop s.current) q) :
    (p x.tokens s).EndsBetween s.current x.before.length := by
  unfold Follows at h
  unfold Parse.TakesFrom at hq
  cases hread : q (x.before.drop s.current) with
  | parsed a rest faults =>
    rw [hread] at h
    obtain ⟨k, hle, hk, -, ho⟩ := h
    rw [ho]
    exact ⟨hle, hk⟩
  | failed cause rest faults =>
    rw [hread] at h
    obtain ⟨k, hle, hk, -, ho⟩ := h
    rw [ho]
    exact ⟨hle, hk⟩
  | exhausted =>
    rw [hread] at hq
    exact hq.elim

/-! ### Single tokens -/

section

variable {s : State} (hs : s.current ≤ x.before.length)
include hs

theorem advance_endsBetween :
    (advance x.tokens s).EndsBetween s.current x.before.length := by
  cases h : x.before.drop s.current with
  | nil =>
    rw [advance_end hs h]
    exact ⟨Nat.le_refl _, hs⟩
  | cons t ts =>
    rw [advance_head h]
    exact ⟨Nat.le_succ _, Input.lt_of_drop h⟩

theorem accepts_endsBetween (kind : TokenKind) :
    (accepts kind x.tokens s).EndsBetween s.current x.before.length := by
  cases h : x.before.drop s.current with
  | nil =>
    rw [accepts_end hs h kind]
    exact ⟨Nat.le_refl _, hs⟩
  | cons t ts =>
    rw [accepts_head h kind]
    split
    · exact ⟨Nat.le_succ _, Input.lt_of_drop h⟩
    · exact ⟨Nat.le_refl _, hs⟩

theorem consume_endsBetween (kind : TokenKind) (cause : SyntaxCause) :
    (consume kind cause x.tokens s).EndsBetween s.current x.before.length := by
  refine (Follows.consume hs kind cause).endsBetween ?_
  exact ((Parse.Within.expect kind cause).mono (Nat.zero_le 1)) _ (Nat.le_refl _)

end

/-! ### Rules -/

/-- A depth that suffices for some tokens. -/
def sufficientDepth (ts : List Token) : Nat :=
  104 * (ts.length + 1)

section

variable {ts : List Token} {D : Nat} (hD : sufficientDepth ts ≤ D)
include hD

theorem run_follows_depthFor {α : Type} (rule : Rule α) (s : State)
    (hs : s.current ≤ (beforeEnd ts).length) :
    Follows (.ofTokens ts) s (run D rule)
      (rule.reader ((Input.ofTokens ts).previous s) (depthFor (beforeEnd ts))) := by
  refine run_follows rule _ D ?_ s hs
  have hlength := length_beforeEnd_le ts
  have hextra := rule.extra_le
  unfold sufficientDepth at hD
  show 3 * (32 * ((beforeEnd ts).length + 1)) + (beforeEnd ts).length + 4 + rule.extra ≤ D
  omega

/-- Every rule ends at an index between where it started and the first end token. -/
theorem run_endsBetween {α : Type} (rule : Rule α) (s : State)
    (hs : s.current ≤ (beforeEnd ts).length) :
    (run D rule (withEnd ts) s).EndsBetween s.current (beforeEnd ts).length := by
  refine (run_follows_depthFor hD rule s hs).endsBetween ?_
  refine rule.reader_within _ (Nat.le_refl _) _ ?_
  exact (List.drop_suffix _ _).length_le

/-- A declaration in front of the first end token takes a token at least, whether it is read or
skipped after an error. -/
theorem declaration_advances (s : State) (hs : s.current < (beforeEnd ts).length) :
    ∃ o s', run D .declaration (withEnd ts) s = .parsed o s' ∧ s.current < s'.current := by
  have hfollows : Follows (.ofTokens ts) s (run D .declaration)
      (Parse.recover (Grammar.declarationOrFail (32 * (beforeEnd ts).length + 31))) :=
    run_follows_depthFor hD .declaration s (Nat.le_of_lt hs)
  have htakes : Parse.TakesFrom 1 ((beforeEnd ts).drop s.current)
      (Parse.recover (Grammar.declarationOrFail (32 * (beforeEnd ts).length + 31))) := by
    rw [List.drop_eq_getElem_cons hs]
    refine (declarationOrFail_within _ (beforeEnd ts).length (by omega) _ ?_).recover
    rw [← List.drop_eq_getElem_cons hs]
    exact (List.drop_suffix _ _).length_le
  unfold Follows at hfollows
  unfold Parse.TakesFrom at htakes
  have hbefore : (Input.ofTokens ts).before = beforeEnd ts := rfl
  rw [hbefore] at hfollows
  cases hread : Parse.recover (Grammar.declarationOrFail (32 * (beforeEnd ts).length + 31))
      ((beforeEnd ts).drop s.current) with
  | parsed o rest faults =>
    rw [hread] at hfollows htakes
    obtain ⟨k, hle, hk, rfl, ho⟩ := hfollows
    refine ⟨o, _, ho, ?_⟩
    have hlength := htakes.2
    rw [hbefore, List.length_drop, List.length_drop] at hlength
    show s.current < k
    omega
  | failed cause rest faults => exact absurd hread (recover_ne_failed _ _)
  | exhausted =>
    rw [hread] at htakes
    exact htakes.elim

/-- A whole input is read as the reader of the rule reads it. -/
theorem readAll_eq {α : Type} (rule : Rule α) (q : Nat → Parse α)
    (hq : ∀ previous d, rule.reader previous d = q d) :
    readAll rule D ts = some (Grammar.readAll q ts) := by
  have hwithin := rule.reader_within ((Input.ofTokens ts).previous ⟨0, []⟩)
    (Nat.le_refl (depthFor (beforeEnd ts))) (beforeEnd ts) (Nat.le_refl _)
  have hfollows := run_follows_depthFor hD rule ⟨0, []⟩ (Nat.zero_le _)
  unfold Follows at hfollows
  unfold Parse.TakesFrom at hwithin
  rw [hq] at hwithin hfollows
  have hdrop : (Input.ofTokens ts).before.drop (⟨0, []⟩ : State).current = beforeEnd ts := rfl
  rw [hdrop] at hfollows
  unfold readAll Grammar.readAll
  cases hread : q (depthFor (beforeEnd ts)) (beforeEnd ts) with
  | parsed a rest faults =>
    rw [hread] at hfollows
    obtain ⟨k, -, -, -, ho⟩ := hfollows
    have ho : run D rule (withEnd ts) ⟨0, []⟩ = _ := ho
    simp only [ho, hread]
    cases faults with
    | nil => rfl
    | cons f fs => rfl
  | failed cause rest faults =>
    rw [hread] at hfollows
    obtain ⟨k, -, -, -, ho⟩ := hfollows
    have ho : run D rule (withEnd ts) ⟨0, []⟩ = _ := ho
    simp only [ho, hread, List.map_append]
    rfl
  | exhausted =>
    rw [hread] at hwithin
    exact hwithin.elim

end

end Lox.Indexed
