import Lox.Proofs.Grammar.Reading

/-!
# Depth and progress of the grammar

No reader of the grammar runs out of the depth that `parse` gives it. Each reader needs
`rulesPerToken` for every token of its input and a number of its own, its rank, for the rules that
may nest before a token is taken: from 1 for those that take a token first to 19 for a block. The
rank falls from a rule to those that it starts with, and every loop of a rule takes a token
(`expression_within`, `statement_within`, `program_within`).
-/

set_option autoImplicit false

namespace Lox

open Parse

namespace Parse

variable {β : Type} {n k : Nat}

/-- A branch on whether a token is taken: the branch for a taken one has one token less to read. -/
theorem Within.acceptIf_bind {passes : Token → Bool} {f : Option Token → Parse β}
    (hsome : ∀ t m, m + 1 ≤ n → Within m (k - 1) (f (some t))) (hnone : Within n k (f none)) :
    Within n k (Parse.acceptIf passes >>= f) := by
  intro ts hts
  unfold TakesFrom
  cases ts with
  | nil =>
    rw [bind_of_reads (acceptIf_none (by simp))]
    exact hnone [] hts
  | cons t ts =>
    by_cases h : passes t = true
    · rw [bind_of_reads (acceptIf_head h)]
      exact (Takes.cons t (hsome t ts.length hts ts (Nat.le_refl _))).mono (by omega)
    · rw [bind_of_reads (acceptIf_none (by simpa using h))]
      exact hnone _ hts

theorem Within.accept_bind {kind : TokenKind} {f : Option Token → Parse β}
    (hsome : ∀ t m, m + 1 ≤ n → Within m (k - 1) (f (some t))) (hnone : Within n k (f none)) :
    Within n k (Parse.accept kind >>= f) :=
  acceptIf_bind hsome hnone

/-- A branch on the next token. -/
theorem Within.peek_bind {f : Option Token → Parse β} (hnil : TakesFrom k [] (f none))
    (hcons : ∀ t ts, ts.length + 1 ≤ n → TakesFrom k (t :: ts) (f (some t))) :
    Within n k (Parse.peek >>= f) := by
  intro ts hts
  unfold TakesFrom
  cases ts with
  | nil =>
    rw [bind_of_reads (show Reads Parse.peek [] none [] from rfl)]
    exact hnil
  | cons t ts =>
    rw [bind_of_reads (peek_head t ts)]
    exact hcons t ts hts

/-- The next token is dropped before the rest is read. -/
theorem TakesFrom.advance_bind {p : Parse β} {t : Token} {ts : List Token}
    (hp : Within ts.length k p) : TakesFrom (k + 1) (t :: ts) (advance >>= fun _ => p) := by
  unfold TakesFrom
  rw [bind_of_reads (advance_head t ts)]
  exact Takes.cons t (hp ts (Nat.le_refl _))

end Parse

namespace Grammar

/-- The level's place in the order from the loosest to the tightest. -/
def Level.rank : Level → Nat
  | .or => 0
  | .and => 1
  | .equality => 2
  | .comparison => 3
  | .term => 4
  | .factor => 5

theorem Level.rank_tighter {l l' : Level} (h : l.tighter = some l') : l'.rank = l.rank + 1 := by
  cases l <;> cases h <;> rfl

theorem Level.rank_le (l : Level) : l.rank ≤ 5 := by
  cases l <;> decide

theorem Level.rank_of_tighter_none {l : Level} (h : l.tighter = none) : l.rank = 5 := by
  cases l <;> first | rfl | cases h

/-! ## Expressions -/

mutual

theorem expression_within : ∀ (d n : Nat), 32 * n + 15 ≤ d → Within n 1 (expression d)
  | 0, n, h => by omega
  | d + 1, n, h => by
    rw [expression]
    refine (binary_within d n .or (by simp only [Level.rank]; omega)).bindLeft fun left m hm => ?_
    refine .accept_bind (fun equal m' hm' => ?_) (.pure left)
    refine (expression_within d m' (by omega)).mono (Nat.zero_le 1) |>.bindLeft fun value _ _ => ?_
    split
    · exact .pure _
    · exact (Within.noteAt _ _).bindLeft fun _ _ _ => .pure _

theorem binary_within : ∀ (d n : Nat) (l : Level), 32 * n + 14 ≤ d + 2 * l.rank →
    Within n 1 (binary d l)
  | 0, n, l, h => by have := l.rank_le; omega
  | d + 1, n, l, h => by
    have := l.rank_le
    rw [binary]
    refine (operand_within d n l (by omega)).bindLeft fun left m hm => ?_
    exact binaryTail_within d m l left (by omega)

theorem binaryTail_within : ∀ (d n : Nat) (l : Level) (left : Expr), 32 * n + 1 ≤ d →
    Within n 0 (binaryTail d l left)
  | 0, n, l, left, h => by omega
  | d + 1, n, l, left, h => by
    rw [binaryTail]
    refine .acceptIf_bind (fun operator m hm => ?_) (.pure left)
    refine (operand_within d m l (by omega)).mono (Nat.zero_le 1) |>.bindLeft fun right m' hm' => ?_
    exact binaryTail_within d m' l _ (by omega)

theorem operand_within : ∀ (d n : Nat) (l : Level), 32 * n + 13 ≤ d + 2 * l.rank →
    Within n 1 (operand d l)
  | 0, n, l, h => by have := l.rank_le; omega
  | d + 1, n, l, h => by
    rw [operand]
    split
    · rename_i l' hl
      have := Level.rank_tighter hl
      exact binary_within d n l' (by omega)
    · rename_i hl
      have := Level.rank_of_tighter_none hl
      exact unary_within d n (by omega)

theorem unary_within : ∀ (d n : Nat), 32 * n + 2 ≤ d → Within n 1 (unary d)
  | 0, n, h => by omega
  | d + 1, n, h => by
    rw [unary]
    refine .acceptIf_bind (fun operator m hm => ?_) ?_
    · exact (unary_within d m (by omega)).mono (Nat.zero_le 1) |>.bindLeft fun _ _ _ => .pure _
    · refine (primary_within d n (by omega)).bindLeft fun callee m hm => ?_
      exact callTail_within d m callee (by omega)

theorem callTail_within : ∀ (d n : Nat) (callee : Expr), 32 * n + 1 ≤ d →
    Within n 0 (callTail d callee)
  | 0, n, callee, h => by omega
  | d + 1, n, callee, h => by
    rw [callTail]
    refine .accept_bind (fun lparen m hm => ?_) (.accept_bind (fun dot m hm => ?_) (.pure callee))
    · have hclose : ∀ (arguments : List Expr) (m' : Nat), m' ≤ m →
          Within m' 0 (do
            let paren ← expect (.punct .rightParen) .argumentsEnd
            callTail d (.call callee paren arguments)) := fun arguments m' hm' =>
        ((Within.expect _ _).mono (Nat.zero_le 1)).bindLeft fun paren m'' hm'' =>
          callTail_within d m'' _ (by omega)
      refine (Within.sees _).bindLeft fun empty m' hm' => ?_
      dsimp only
      split
      · exact (Within.pure _).bindLeft fun arguments m'' hm'' => hclose arguments m'' (by omega)
      · refine (argumentList_within d m' 0 (by omega)).mono (Nat.zero_le 1) |>.bindLeft ?_
        exact fun arguments m'' hm'' => hclose arguments m'' (by omega)
    · refine ((Within.expect _ _).mono (Nat.zero_le 1)).bindLeft fun name m' hm' => ?_
      exact callTail_within d m' _ (by omega)

theorem argumentList_within : ∀ (d n count : Nat), 32 * n + 16 ≤ d →
    Within n 1 (argumentList d count)
  | 0, n, count, h => by omega
  | d + 1, n, count, h => by
    have hlist : Within n 1 (do
        let argument ← expression d
        match ← accept (.punct .comma) with
        | none => pure [argument]
        | some _ => return argument :: (← argumentList d (count + 1))) := by
      refine (expression_within d n (by omega)).bindLeft fun argument m hm => ?_
      refine .accept_bind (fun comma m' hm' => ?_) (.pure _)
      refine (argumentList_within d m' (count + 1) (by omega)).mono (Nat.zero_le 1) |>.bindLeft ?_
      exact fun _ _ _ => .pure _
    rw [argumentList]
    split
    · exact Within.peek.bindRight fun _ => (Within.noteAt _ _).bindRight fun _ => hlist
    · exact hlist

theorem primary_within : ∀ (d n : Nat), 32 * n + 1 ≤ d → Within n 1 (primary d)
  | 0, n, h => by omega
  | d + 1, n, h => by
    rw [primary]
    refine .peek_bind (List.suffix_refl _) fun t ts hts => ?_
    dsimp only
    split
    · exact TakesFrom.advance_bind (.pure _)
    · split
      · refine TakesFrom.advance_bind ?_
        refine ((Within.expect _ _).mono (Nat.zero_le 1)).bindLeft fun _ _ _ => ?_
        exact ((Within.expect _ _).mono (Nat.zero_le 1)).bindLeft fun _ _ _ => .pure _
      · split
        · refine TakesFrom.advance_bind ?_
          refine (expression_within d ts.length (by omega)).mono (Nat.zero_le 1) |>.bindLeft ?_
          intro inner m hm
          exact ((Within.expect _ _).mono (Nat.zero_le 1)).bindLeft fun _ _ _ => .pure _
        · exact Within.fail _ _ hts

end

/-! ## Parts of statements -/

theorem expressionUnless_within (d n : Nat) (kind : TokenKind) (h : 32 * n + 15 ≤ d) :
    Within n 0 (expressionUnless d kind) := by
  unfold expressionUnless
  refine (Within.sees kind).bindLeft fun empty m hm => ?_
  split
  · exact .pure _
  · refine (expression_within d m (by omega)).mono (Nat.zero_le 1) |>.bindLeft ?_
    exact fun _ _ _ => .pure _

theorem parameterList_within : ∀ (d n count : Nat), 32 * n + 1 ≤ d →
    Within n 1 (parameterList d count)
  | 0, n, count, h => by omega
  | d + 1, n, count, h => by
    have hlist : Within n 1 (do
        let parameter ← expect .identifier .parameterName
        match ← accept (.punct .comma) with
        | none => pure [parameter]
        | some _ => return parameter :: (← parameterList d (count + 1))) := by
      refine (Within.expect _ _).bindLeft fun parameter m hm => ?_
      refine .accept_bind (fun comma m' hm' => ?_) (.pure _)
      refine (parameterList_within d m' (count + 1) (by omega)).mono (Nat.zero_le 1) |>.bindLeft ?_
      exact fun _ _ _ => .pure _
    rw [parameterList]
    split
    · exact Within.peek.bindRight fun _ => (Within.noteAt _ _).bindRight fun _ => hlist
    · exact hlist

theorem varDeclaration_within (d n : Nat) (h : 32 * n + 15 ≤ d) :
    Within n 1 (varDeclaration d) := by
  unfold varDeclaration
  refine (Within.expect _ _).bindLeft fun name m hm => ?_
  have hend : ∀ (initializer : Option Expr) (m' : Nat), Within m' 0 (do
      let _ ← expect (.punct .semicolon) .variableEnd
      pure (Stmt.var name initializer)) := fun initializer m' =>
    ((Within.expect _ _).mono (Nat.zero_le 1)).bindLeft fun _ _ _ => .pure _
  refine .accept_bind (fun equal m' hm' => ?_) ?_
  · refine ((expression_within d m' (by omega)).mono (Nat.zero_le 1)).map.bindLeft ?_
    exact fun initializer m'' hm'' => hend initializer m''
  · exact (Within.pure _).bindLeft fun initializer m'' hm'' => hend initializer m''

theorem expressionStatement_within (d n : Nat) (h : 32 * n + 15 ≤ d) :
    Within n 1 (expressionStatement d) := by
  unfold expressionStatement
  refine (expression_within d n h).bindLeft fun value m hm => ?_
  exact ((Within.expect _ _).mono (Nat.zero_le 1)).bindLeft fun _ _ _ => .pure _

theorem printStatement_within (d n : Nat) (keyword : Token) (h : 32 * n + 15 ≤ d) :
    Within n 0 (printStatement d keyword) := by
  unfold printStatement
  refine ((expression_within d n h).mono (Nat.zero_le 1)).bindLeft fun value m hm => ?_
  exact ((Within.expect _ _).mono (Nat.zero_le 1)).bindLeft fun _ _ _ => .pure _

theorem returnStatement_within (d n : Nat) (keyword : Token) (h : 32 * n + 15 ≤ d) :
    Within n 0 (returnStatement d keyword) := by
  unfold returnStatement
  refine (expressionUnless_within d n _ h).bindLeft fun value m hm => ?_
  exact ((Within.expect _ _).mono (Nat.zero_le 1)).bindLeft fun _ _ _ => .pure _

theorem forInitializer_within (d n : Nat) (h : 32 * n + 15 ≤ d) :
    Within n 0 (forInitializer d) := by
  unfold forInitializer
  refine .accept_bind (fun _ m hm => .pure _) (.accept_bind (fun _ m hm => ?_) ?_)
  · exact ((varDeclaration_within d m (by omega)).mono (Nat.zero_le 1)).map
  · exact ((expressionStatement_within d n h).mono (Nat.zero_le 1)).map

/-! ## Declarations and statements -/

mutual

theorem declarationOrFail_within : ∀ (d n : Nat), 32 * n + 17 ≤ d →
    Within n 1 (declarationOrFail d)
  | 0, n, h => by omega
  | d + 1, n, h => by
    rw [declarationOrFail]
    refine .accept_bind (fun _ m hm => ?_) (.accept_bind (fun _ m hm => ?_)
      (.accept_bind (fun _ m hm => ?_) ?_))
    · exact (classDeclaration_within d m (by omega)).mono (Nat.zero_le 1)
    · exact ((function_within d m _ (by omega)).mono (Nat.zero_le 1)).map
    · exact (varDeclaration_within d m (by omega)).mono (Nat.zero_le 1)
    · exact statement_within d n (by omega)

theorem classDeclaration_within : ∀ (d n : Nat), 32 * n + 1 ≤ d → Within n 1 (classDeclaration d)
  | 0, n, h => by omega
  | d + 1, n, h => by
    rw [classDeclaration]
    refine (Within.expect _ _).bindLeft fun name m hm => ?_
    have hbody : ∀ (superclass : Option Expr) (m' : Nat), m' ≤ m → Within m' 0 (do
        let _ ← expect (.punct .leftBrace) .classBodyStart
        let methods ← methodList d
        let _ ← expect (.punct .rightBrace) .classBodyEnd
        pure (Stmt.classDecl name superclass methods)) := by
      intro superclass m' hm'
      refine ((Within.expect _ _).mono (Nat.zero_le 1)).bindLeft fun _ m'' hm'' => ?_
      refine (methodList_within d m'' (by omega)).bindLeft fun methods _ _ => ?_
      exact ((Within.expect _ _).mono (Nat.zero_le 1)).bindLeft fun _ _ _ => .pure _
    refine .accept_bind (fun _ m' hm' => ?_) ?_
    · refine ((Within.expect _ _).mono (Nat.zero_le 1)).bindLeft fun superclass m'' hm'' => ?_
      exact (Within.pure _).bindLeft fun superclass m₃ hm₃ => hbody superclass m₃ (by omega)
    · exact (Within.pure _).bindLeft fun superclass m₃ hm₃ => hbody superclass m₃ (by omega)

theorem methodList_within : ∀ (d n : Nat), 32 * n + 2 ≤ d → Within n 0 (methodList d)
  | 0, n, h => by omega
  | d + 1, n, h => by
    rw [methodList]
    refine .peek_bind ⟨List.suffix_refl _, Nat.le_refl _⟩ fun t ts hts => ?_
    dsimp only
    split
    · exact ⟨List.suffix_refl _, Nat.le_refl _⟩
    · have hlist : Within n 1 (do
          let method ← function d .method
          return method :: (← methodList d)) :=
        (function_within d n _ (by omega)).bindLeft fun method m hm =>
          (methodList_within d m (by omega)).bindLeft fun _ _ _ => .pure _
      exact (hlist.mono (Nat.zero_le 1)) _ hts

theorem function_within : ∀ (d n : Nat) (role : FunctionRole), 32 * n + 1 ≤ d →
    Within n 1 (function d role)
  | 0, n, role, h => by omega
  | d + 1, n, role, h => by
    rw [function]
    refine (Within.expect _ _).bindLeft fun name m hm => ?_
    refine ((Within.expect _ _).mono (Nat.zero_le 1)).bindLeft fun _ m₂ hm₂ => ?_
    have hbody : ∀ (params : List Token) (m' : Nat), m' ≤ m → Within m' 0 (do
        let _ ← expect (.punct .rightParen) .parametersEnd
        let _ ← expect (.punct .leftBrace) (.functionBodyStart role)
        let body ← block d
        pure (FunctionDecl.mk name params body)) := by
      intro params m' hm'
      refine ((Within.expect _ _).mono (Nat.zero_le 1)).bindLeft fun _ _ _ => ?_
      refine ((Within.expect _ _).mono (Nat.zero_le 1)).bindLeft fun _ m₄ hm₄ => ?_
      refine ((block_within d m₄ (by omega)).mono (Nat.zero_le 1)).bindLeft ?_
      exact fun _ _ _ => .pure _
    refine (Within.sees _).bindLeft fun empty m₃ hm₃ => ?_
    dsimp only
    split
    · exact (Within.pure _).bindLeft fun params m' hm' => hbody params m' (by omega)
    · refine ((parameterList_within d m₃ 0 (by omega)).mono (Nat.zero_le 1)).bindLeft ?_
      exact fun params m' hm' => hbody params m' (by omega)

theorem statement_within : ∀ (d n : Nat), 32 * n + 16 ≤ d → Within n 1 (statement d)
  | 0, n, h => by omega
  | d + 1, n, h => by
    have hexpression := expressionStatement_within d n (by omega)
    rw [statement]
    refine .peek_bind (hexpression [] (Nat.zero_le _)) fun t ts hts => ?_
    dsimp only
    split
    · exact TakesFrom.advance_bind ((forStatement_within d _ (by omega)).mono (Nat.zero_le 1))
    · exact TakesFrom.advance_bind ((ifStatement_within d _ (by omega)).mono (Nat.zero_le 1))
    · exact TakesFrom.advance_bind ((whileStatement_within d _ (by omega)).mono (Nat.zero_le 1))
    · exact TakesFrom.advance_bind (returnStatement_within d _ t (by omega))
    · exact TakesFrom.advance_bind ((block_within d _ (by omega)).mono (Nat.zero_le 1)).map
    · exact TakesFrom.advance_bind (printStatement_within d _ t (by omega))
    · exact hexpression _ hts

theorem forStatement_within : ∀ (d n : Nat), 32 * n + 1 ≤ d → Within n 1 (forStatement d)
  | 0, n, h => by omega
  | d + 1, n, h => by
    rw [forStatement]
    refine (Within.expect _ _).bindLeft fun _ m₁ h₁ => ?_
    refine (forInitializer_within d m₁ (by omega)).bindLeft fun initializer m₂ h₂ => ?_
    refine (expressionUnless_within d m₂ _ (by omega)).bindLeft fun condition m₃ h₃ => ?_
    refine ((Within.expect _ _).mono (Nat.zero_le 1)).bindLeft fun _ m₄ h₄ => ?_
    refine (expressionUnless_within d m₄ _ (by omega)).bindLeft fun increment m₅ h₅ => ?_
    refine ((Within.expect _ _).mono (Nat.zero_le 1)).bindLeft fun _ m₆ h₆ => ?_
    refine ((statement_within d m₆ (by omega)).mono (Nat.zero_le 1)).bindLeft ?_
    exact fun _ _ _ => .pure _

theorem ifStatement_within : ∀ (d n : Nat), 32 * n + 1 ≤ d → Within n 1 (ifStatement d)
  | 0, n, h => by omega
  | d + 1, n, h => by
    rw [ifStatement]
    refine (Within.expect _ _).bindLeft fun _ m₁ h₁ => ?_
    refine ((expression_within d m₁ (by omega)).mono (Nat.zero_le 1)).bindLeft ?_
    intro condition m₂ h₂
    refine ((Within.expect _ _).mono (Nat.zero_le 1)).bindLeft fun _ m₃ h₃ => ?_
    refine ((statement_within d m₃ (by omega)).mono (Nat.zero_le 1)).bindLeft ?_
    intro thenBranch m₄ h₄
    refine .accept_bind (fun _ m₅ h₅ => ?_) (.pure _)
    refine ((statement_within d m₅ (by omega)).mono (Nat.zero_le 1)).bindLeft ?_
    exact fun _ _ _ => .pure _

theorem whileStatement_within : ∀ (d n : Nat), 32 * n + 1 ≤ d → Within n 1 (whileStatement d)
  | 0, n, h => by omega
  | d + 1, n, h => by
    rw [whileStatement]
    refine (Within.expect _ _).bindLeft fun _ m₁ h₁ => ?_
    refine ((expression_within d m₁ (by omega)).mono (Nat.zero_le 1)).bindLeft ?_
    intro condition m₂ h₂
    refine ((Within.expect _ _).mono (Nat.zero_le 1)).bindLeft fun _ m₃ h₃ => ?_
    refine ((statement_within d m₃ (by omega)).mono (Nat.zero_le 1)).bindLeft ?_
    exact fun _ _ _ => .pure _

theorem block_within : ∀ (d n : Nat), 32 * n + 19 ≤ d → Within n 1 (block d)
  | 0, n, h => by omega
  | 1, n, h => by omega
  | d + 2, n, h => by
    rw [block]
    refine .peek_bind (List.suffix_refl _) fun t ts hts => ?_
    dsimp only
    split
    · exact TakesFrom.advance_bind (.pure _)
    · rw [declaration]
      have hfirst := (declarationOrFail_within d n (by omega) (t :: ts) hts).recover
      refine hfirst.bind (j := 0) fun first m hm => ?_
      simp only [List.length_cons] at hm
      have hblock := (block_within (d + 1) m (by omega)).mono (Nat.zero_le 1)
      exact hblock.bindLeft fun _ _ _ => .pure _

end

theorem program_within : ∀ (d n : Nat), 32 * n + 19 ≤ d → Within n 0 (program d)
  | 0, n, h => by omega
  | 1, n, h => by omega
  | d + 2, n, h => by
    rw [program]
    refine .peek_bind ⟨List.suffix_refl _, Nat.le_refl _⟩ fun t ts hts => ?_
    dsimp only
    rw [declaration]
    have hfirst := (declarationOrFail_within d n (by omega) (t :: ts) hts).recover
    refine Takes.mono (hfirst.bind (j := 0) fun first m hm => ?_) (Nat.zero_le 1)
    simp only [List.length_cons] at hm
    exact (program_within (d + 1) m (by omega)).bindLeft fun _ _ _ => .pure _

/-- The depth that `parse` gives lasts. -/
theorem program_depthFor (ts : List Token) : program (depthFor ts) ts ≠ .exhausted := by
  intro h
  have hw := program_within (depthFor ts) ts.length (by unfold depthFor rulesPerToken; omega) ts
    (Nat.le_refl _)
  unfold TakesFrom at hw
  rw [h] at hw
  exact hw

end Grammar
end Lox
