import Lox.Proofs.FrontEnd.Follows

/-!
# Every rule follows its reader

`Rule.reader` is the reader of token lists that a rule by indices corresponds to. A rule follows its
reader from every index up to the first end token, once its own depth is large enough
(`run_follows`). The readers share their depth out differently: up to three rules by indices nest
where a reader spends one level, and skipping after an error takes one for each token
(`Input.need`).
For each rule there is one lemma that says that it follows its reader if the rules that it calls
follow theirs, at a smaller depth (`Serves`) or, for the short rules, at the same one.
-/

set_option autoImplicit false

namespace Lox.Indexed

open Grammar Step

/-! ## Readers -/

/-- Skipping after an error, as a reader. -/
def synchronizeReader : Parse Unit :=
  fun ts => .parsed () (Parse.synchronize ts) []

/-- The loop of skipping after an error, as a reader. -/
def skipReader (previous : Token) : Parse Unit :=
  fun ts => .parsed () (Parse.skipToBoundary previous ts) []

/-- A call's arguments and closing parenthesis. -/
def finishCallReader (callee : Expr) (depth : Nat) : Parse Expr := do
  let arguments ← if ← Parse.sees (.punct .rightParen) then pure [] else argumentList depth 0
  let paren ← Parse.expect (.punct .rightParen) .argumentsEnd
  pure (.call callee paren arguments)

/-- The reader that a rule corresponds to, where the token before it is `previous`. -/
def Rule.reader (previous : Token) : {α : Type} → Rule α → Nat → Parse α
  | _, .program, depth => Grammar.program depth
  | _, .wholeExpression, depth => Grammar.wholeExpression depth
  | _, .declaration, depth => Grammar.declaration depth
  | _, .synchronize, _ => synchronizeReader
  | _, .skip, _ => skipReader previous
  | _, .classDeclaration, depth => Grammar.classDeclaration depth
  | _, .methods, depth => methodList depth
  | _, .function role, depth => Grammar.function depth role
  | _, .parameters count, depth => parameterList depth count
  | _, .varDeclaration, depth => Grammar.varDeclaration depth
  | _, .statement, depth => Grammar.statement depth
  | _, .forStatement, depth => Grammar.forStatement depth
  | _, .ifStatement, depth => Grammar.ifStatement depth
  | _, .whileStatement, depth => Grammar.whileStatement depth
  | _, .printStatement, depth => Grammar.printStatement depth previous
  | _, .returnStatement, depth => Grammar.returnStatement depth previous
  | _, .expressionStatement, depth => Grammar.expressionStatement depth
  | _, .block, depth => Grammar.block depth
  | _, .expression, depth => Grammar.expression depth
  | _, .assignment, depth => Grammar.expression depth
  | _, .level l, depth => binary depth l
  | _, .operations l left, depth => binaryTail depth l left
  | _, .unary, depth => Grammar.unary depth
  | _, .call, depth => do
    let callee ← Grammar.primary depth
    callTail depth callee
  | _, .suffixes callee, depth => callTail depth callee
  | _, .finishCall callee, depth => finishCallReader callee depth
  | _, .arguments count, depth => argumentList depth count
  | _, .primary, depth => Grammar.primary depth

variable {x : Input} {s : State} {d D : Nat}

/-! ## Skipping -/

theorem skip_follows : ∀ (D : Nat) (s : State), s.current ≤ x.before.length →
    x.before.length + 1 ≤ D + s.current →
    Follows x s (run D .skip) (skipReader (x.previous s))
  | 0, s, hs, hD => by omega
  | D + 1, s, hs, hD => by
    unfold Follows skipReader
    show Agrees x s (skip (run D) x.tokens s) _
    cases h : x.before.drop s.current with
    | nil =>
      rw [skip, bind_of_parsed (isAtEnd_end hs h)]
      exact .parsed hs h ()
    | cons t ts =>
      have hnext := skip_follows D ⟨s.current + 1, s.errors⟩ (Input.lt_of_drop h)
        (by show _ ≤ D + (s.current + 1); omega)
      unfold Follows skipReader at hnext
      rw [previous_head h, Input.drop_succ h] at hnext
      rw [skip, bind_of_parsed (isAtEnd_head h), Parse.skipToBoundary]
      show Agrees x s ((previous >>= fun p => if p.kind = .punct .semicolon then pure ()
        else peek >>= fun t => if Parse.startsStatement t = true then pure ()
        else advance >>= fun _ => run D .skip) x.tokens s) _
      rw [bind_of_parsed (previous_eq hs)]
      by_cases hsemicolon : (x.previous s).kind = .punct .semicolon
      · rw [if_pos hsemicolon, if_pos (.inl hsemicolon)]
        exact .parsed hs h ()
      · rw [if_neg hsemicolon, bind_of_parsed (peek_head h)]
        by_cases hword : Parse.startsStatement t = true
        · rw [if_pos hword, if_pos (.inr hword)]
          exact .parsed hs h ()
        · rw [if_neg hword, if_neg (by rintro (h | h) <;> contradiction),
            bind_of_parsed (advance_head h)]
          exact hnext.later (Nat.le_succ _)

theorem synchronize_follows (hs : s.current ≤ x.before.length)
    (hD : x.before.length + 2 ≤ D) : Follows x s (run D .synchronize) synchronizeReader := by
  obtain ⟨D, rfl⟩ : ∃ D', D = D' + 1 := ⟨D - 1, by omega⟩
  unfold Follows synchronizeReader
  show Agrees x s (synchronize (run D) x.tokens s) _
  cases h : x.before.drop s.current with
  | nil =>
    have hskip := skip_follows D s hs (by omega)
    unfold Follows skipReader at hskip
    rw [h] at hskip
    rw [synchronize, bind_of_parsed (advance_end hs h)]
    exact hskip
  | cons t ts =>
    have hskip := skip_follows D ⟨s.current + 1, s.errors⟩ (Input.lt_of_drop h) (by omega)
    unfold Follows skipReader at hskip
    rw [previous_head h, Input.drop_succ h] at hskip
    rw [synchronize, bind_of_parsed (advance_head h)]
    exact hskip.later (Nat.le_succ _)

/-! ## Rules that call another one at the depth of their own reader -/

section

variable {read : {α : Type} → Rule α → Step α}
variable (hexpression : ∀ s : State, s.current ≤ x.before.length →
  Follows x s (read .expression) (Grammar.expression d))
variable (hs : s.current ≤ x.before.length)
include hs

section

include hexpression

theorem varDeclaration_follows :
    Follows x s (varDeclaration read) (Grammar.varDeclaration d) := by
  unfold varDeclaration Grammar.varDeclaration
  refine .bind (.consume hs _ _) fun name s₁ h₁ => ?_
  have hend : ∀ (initializer : Option Expr) (s' : State), s'.current ≤ x.before.length →
      Follows x s' (do
        let _ ← consume (.punct .semicolon) .variableEnd
        pure (Stmt.var name initializer)) (do
        let _ ← Parse.expect (.punct .semicolon) .variableEnd
        pure (Stmt.var name initializer)) :=
    fun initializer s' h' => .bind (.consume h' _ _) fun _ s₂ h₂ => .pure h₂ _
  refine .accepts h₁ (fun _ s₂ h₂ _ => ?_) (.bind (.pure h₁ _) hend)
  exact .bind (hexpression s₂ h₂).map hend

theorem expressionStatement_follows :
    Follows x s (expressionStatement read) (Grammar.expressionStatement d) :=
  .bind (hexpression s hs) fun _ _ h₁ => .bind (.consume h₁ _ _) fun _ _ h₂ => .pure h₂ _

theorem printStatement_follows :
    Follows x s (printStatement read) (Grammar.printStatement d (x.previous s)) :=
  .look (previous_eq hs) (.bind (hexpression s hs) fun _ _ h₁ =>
    .bind (.consume h₁ _ _) fun _ _ h₂ => .pure h₂ _)

theorem expressionUnless_follows (kind : TokenKind) :
    Follows x s (expressionUnless read kind) (Grammar.expressionUnless d kind) := by
  unfold expressionUnless Grammar.expressionUnless
  refine .bind (.check hs kind) fun found s₁ h₁ => ?_
  cases found with
  | true => exact .pure h₁ _
  | false => exact .bind (hexpression s₁ h₁) fun value s₂ h₂ => .pure h₂ _

theorem returnStatement_follows :
    Follows x s (returnStatement read) (Grammar.returnStatement d (x.previous s)) :=
  .look (previous_eq hs) (.bind (expressionUnless_follows hexpression hs _) fun _ _ h₁ =>
    .bind (.consume h₁ _ _) fun _ _ h₂ => .pure h₂ _)

theorem wholeExpression_follows :
    Follows x s (wholeExpression read) (Grammar.wholeExpression d) := by
  refine .bind (hexpression s hs) fun value s₁ h₁ => ?_
  refine .isAtEnd h₁ (fun _ => .pure h₁ _) fun t ts hdrop => ?_
  exact .peekFail h₁ _

end

theorem call_follows
    (hprimary : ∀ s : State, s.current ≤ x.before.length →
      Follows x s (read .primary) (Grammar.primary d))
    (hsuffixes : ∀ (callee : Expr) (s : State), s.current ≤ x.before.length →
      Follows x s (read (.suffixes callee)) (callTail d callee)) :
    Follows x s (call read) (Grammar.primary d >>= callTail d) :=
  .bind (hprimary s hs) hsuffixes

theorem finishCall_follows (callee : Expr)
    (harguments : ∀ (count : Nat) (s : State), s.current ≤ x.before.length →
      Follows x s (read (.arguments count)) (argumentList d count)) :
    Follows x s (finishCall read callee) (finishCallReader callee d) := by
  unfold finishCall finishCallReader
  have hclose : ∀ (arguments : List Expr) (s' : State), s'.current ≤ x.before.length →
      Follows x s' (do
        let paren ← consume (.punct .rightParen) .argumentsEnd
        pure (Expr.call callee paren arguments)) (do
        let paren ← Parse.expect (.punct .rightParen) .argumentsEnd
        pure (Expr.call callee paren arguments)) :=
    fun arguments s' h' => .bind (.consume h' _ _) fun paren s₁ h₁ => .pure h₁ _
  refine .bind (.check hs _) fun empty s₁ h₁ => ?_
  cases empty with
  | true => exact .bind (.pure h₁ _) hclose
  | false => exact .bind (harguments 0 s₁ h₁) hclose

end

/-! ## Serving rules -/

/-- `read` follows the reader of every rule at all depths up to `d`. -/
def Serves (x : Input) (read : {α : Type} → Rule α → Step α) (d : Nat) : Prop :=
  ∀ e, e ≤ d → ∀ {α : Type} (rule : Rule α) (s : State), s.current ≤ x.before.length →
    Follows x s (read rule) (rule.reader (x.previous s) e)

/-- One or more elements with commas between them, after `count` others. -/
theorem commaList_follows {α : Type} {element : Step α} {more : Step (List α)}
    {elementReader : Parse α} {moreReader : Parse (List α)} (hs : s.current ≤ x.before.length)
    (count : Nat) (cause : SyntaxCause)
    (helement : ∀ s' : State, s'.current ≤ x.before.length → Follows x s' element elementReader)
    (hmore : ∀ s' : State, s'.current ≤ x.before.length → Follows x s' more moreReader) :
    Follows x s (do
      if maxArguments ≤ count then record (← peek) cause
      let first ← element
      if ← accepts (.punct .comma) then
        let others ← more
        pure (first :: others)
      else pure [first]) (do
      if maxArguments ≤ count then Parse.noteAt (← Parse.peek) cause
      let first ← elementReader
      match ← Parse.accept (.punct .comma) with
      | none => pure [first]
      | some _ => return first :: (← moreReader)) := by
  have hlist : ∀ s' : State, s'.current ≤ x.before.length → Follows x s' (do
      let first ← element
      if ← accepts (.punct .comma) then
        let others ← more
        pure (first :: others)
      else pure [first]) (do
      let first ← elementReader
      match ← Parse.accept (.punct .comma) with
      | none => pure [first]
      | some _ => return first :: (← moreReader)) := by
    intro s' h'
    refine .bind (helement s' h') fun first s₁ h₁ => ?_
    refine .accepts h₁ (fun _ s₂ h₂ _ => ?_) (.pure h₁ _)
    exact .bind (hmore s₂ h₂) fun others s₃ h₃ => .pure h₃ _
  split
  · exact .record hs hlist
  · exact hlist s hs

theorem finishCallReader_bind (callee : Expr) (e : Nat) :
    (finishCallReader callee e >>= callTail e) = (do
      let arguments ← if ← Parse.sees (.punct .rightParen) then pure [] else argumentList e 0
      let paren ← Parse.expect (.punct .rightParen) .argumentsEnd
      callTail e (.call callee paren arguments)) := by
  rw [finishCallReader, Parse.bind_assoc]
  congr 1
  funext empty
  dsimp only
  split <;> simp only [Parse.bind_assoc, Parse.pure_bind]

section

variable {read : {α : Type} → Rule α → Step α} (h : Serves x read d)
  (hs : s.current ≤ x.before.length)
include h hs

theorem Serves.rule {α : Type} (rule : Rule α) :
    Follows x s (read rule) (rule.reader (x.previous s) d) :=
  h d (Nat.le_refl d) rule s hs

theorem Serves.expression : Follows x s (read .expression) (Grammar.expression d) :=
  h.rule hs .expression

/-! ## Expressions -/

theorem assignment_follows : Follows x s (assignment read) (Grammar.expression (d + 1)) := by
  rw [Grammar.expression]
  unfold assignment
  refine .bind (h.rule hs (.level .or)) fun left s₁ h₁ => ?_
  refine .accepts h₁ (fun equal s₂ h₂ hequal => ?_) (.pure h₁ _)
  refine .look (previous_eq h₂) (.bind (h.rule h₂ .assignment) fun value s₃ h₃ => ?_)
  rw [hequal]
  cases assignment? left value with
  | some assigned => exact .pure h₃ _
  | none => exact .note h₃ rfl fun s₄ h₄ => .pure h₄ _

theorem operandRule_follows (l : Level) : Follows x s (read (operandRule l)) (operand d l) := by
  cases d with
  | zero => exact .exhausted
  | succ e =>
    rw [operand, operandRule]
    cases l.tighter with
    | some tighter => exact h e (Nat.le_succ e) (.level tighter) s hs
    | none => exact h e (Nat.le_succ e) .unary s hs

theorem level_follows (l : Level) : Follows x s (level read l) (binary (d + 1) l) := by
  rw [binary]
  exact .bind (operandRule_follows h hs l) fun left s₁ h₁ => h.rule h₁ (.operations l left)

theorem operations_follows (l : Level) (left : Expr) :
    Follows x s (operations read l left) (binaryTail (d + 1) l left) := by
  rw [binaryTail]
  refine .takeAny hs (fun operator s₁ h₁ => ?_) (.pure hs _)
  exact .bind (operandRule_follows h h₁ l) fun right s₂ h₂ => h.rule h₂ (.operations l _)

theorem unary_follows : Follows x s (unary read) (Grammar.unary (d + 1)) := by
  rw [Grammar.unary]
  refine .acceptIf hs acceptsSign_end (fun t ts ht => acceptsSign_head ht)
    (fun operator s₁ h₁ hoperator => ?_) (h.rule hs .call)
  refine .look (previous_eq h₁) (.bind (h.rule h₁ .unary) fun right s₂ h₂ => ?_)
  rw [hoperator]
  exact .pure h₂ _

theorem suffixes_follows (callee : Expr) :
    Follows x s (suffixes read callee) (callTail (d + 1) callee) := by
  rw [callTail]
  refine .accepts hs (fun _ s₁ h₁ _ => ?_) (.accepts hs (fun _ s₁ h₁ _ => ?_) (.pure hs _))
  · have hcall : Follows x s₁ (read (.finishCall callee) >>= fun e => read (.suffixes e))
        (finishCallReader callee d >>= callTail d) :=
      .bind (h.rule h₁ (.finishCall callee)) fun e s₂ h₂ => h.rule h₂ (.suffixes e)
    rwa [finishCallReader_bind] at hcall
  · exact .bind (.consume h₁ _ _) fun name s₂ h₂ => h.rule h₂ (.suffixes _)

theorem arguments_follows (count : Nat) :
    Follows x s (arguments read count) (argumentList (d + 1) count) := by
  rw [argumentList]
  exact commaList_follows hs count _ (fun _ h' => h.expression h')
    fun _ h' => h.rule h' (.arguments (count + 1))

theorem primary_follows : Follows x s (primary read) (Grammar.primary (d + 1)) := by
  rw [Grammar.primary]
  unfold primary
  cases hdrop : x.before.drop s.current with
  | nil =>
    refine .look (peek_end hs hdrop) (.idle (c := none) (by rw [hdrop]; rfl) ?_)
    have hfail : Follows x s (fail x.atEnd .expression : Step Expr) (Parse.fail .expression) :=
      .fail hs (by rw [hdrop]; rfl)
    simpa [leaf?, x.eof] using hfail
  | cons t ts =>
    refine .look (peek_head hdrop) (.idle (c := some t) (by rw [hdrop]; rfl) ?_)
    dsimp only
    cases leaf? t with
    | some e => exact .take hdrop fun s₁ h₁ _ => .pure h₁ _
    | none =>
      dsimp only
      split
      · refine .take hdrop fun s₁ h₁ _ => .bind (.consume h₁ _ _) fun _ s₂ h₂ => ?_
        exact .bind (.consume h₂ _ _) fun method s₃ h₃ => .pure h₃ _
      · split
        · refine .take hdrop fun s₁ h₁ _ => .bind (h.expression h₁) fun inner s₂ h₂ => ?_
          exact .bind (.consume h₂ _ _) fun _ s₃ h₃ => .pure h₃ _
        · exact .fail hs (by rw [hdrop]; rfl)

/-! ## Parts of statements -/

theorem parameters_follows (count : Nat) :
    Follows x s (parameters read count) (parameterList (d + 1) count) := by
  rw [parameterList]
  exact commaList_follows hs count _ (fun _ h' => .consume h' _ _)
    fun _ h' => h.rule h' (.parameters (count + 1))

/-! ## Statements -/

theorem forInitializer_follows :
    Follows x s (forInitializer read) (Grammar.forInitializer d) := by
  unfold forInitializer Grammar.forInitializer
  refine .accepts hs (fun _ s₁ h₁ _ => .pure h₁ _) ?_
  refine .accepts hs (fun _ s₁ h₁ _ => ?_) ?_
  · exact (h.rule h₁ .varDeclaration).map
  · exact (h.rule hs .expressionStatement).map

theorem statement_follows : Follows x s (statement read) (Grammar.statement (d + 1)) := by
  rw [Grammar.statement]
  unfold statement
  have hexpression := h.rule hs .expressionStatement
  cases hdrop : x.before.drop s.current with
  | nil =>
    have hnone : ∀ kind, ∀ t ∈ (x.before.drop s.current).head?, t.kind ≠ kind := by simp [hdrop]
    refine .idle (c := none) (by rw [hdrop]; rfl) ?_
    exact .refuse hs (hnone _) (.refuse hs (hnone _) (.refuse hs (hnone _) (.refuse hs (hnone _)
      (.refuse hs (hnone _) (.refuse hs (hnone _) hexpression)))))
  | cons t ts =>
    have hne : ∀ kind, t.kind ≠ kind → ∀ t ∈ (x.before.drop s.current).head?, t.kind ≠ kind := by
      simp [hdrop]
    refine .idle (c := some t) (by rw [hdrop]; rfl) ?_
    dsimp only
    -- the words are tried in the order of the cases
    split
    case h_1 ht => exact .taken hdrop ht fun s₁ h₁ _ => h.rule h₁ .forStatement
    case h_2 ht =>
      refine .refuse hs (hne _ (by simp [ht])) ?_
      exact .taken hdrop ht fun s₁ h₁ _ => h.rule h₁ .ifStatement
    case h_3 ht =>
      refine .refuse hs (hne _ (by simp [ht])) (.refuse hs (hne _ (by simp [ht])) ?_)
      exact .taken hdrop ht fun s₁ h₁ _ => h.rule h₁ .whileStatement
    case h_4 ht =>
      refine .refuse hs (hne _ (by simp [ht])) (.refuse hs (hne _ (by simp [ht])) ?_)
      refine .refuse hs (hne _ (by simp [ht])) ?_
      exact .taken hdrop ht fun s₁ h₁ hprevious => hprevious ▸ h.rule h₁ .returnStatement
    case h_5 ht =>
      refine .refuse hs (hne _ (by simp [ht])) (.refuse hs (hne _ (by simp [ht])) ?_)
      refine .refuse hs (hne _ (by simp [ht])) (.refuse hs (hne _ (by simp [ht])) ?_)
      exact .taken hdrop ht fun s₁ h₁ _ => (h.rule h₁ .block).map
    case h_6 ht =>
      refine .refuse hs (hne _ (by simp [ht])) (.refuse hs (hne _ (by simp [ht])) ?_)
      refine .refuse hs (hne _ (by simp [ht])) (.refuse hs (hne _ (by simp [ht])) ?_)
      refine .refuse hs (hne _ (by simp [ht])) ?_
      exact .taken hdrop ht fun s₁ h₁ hprevious => hprevious ▸ h.rule h₁ .printStatement
    case h_7 hfor hif hwhile hreturn hbrace hprint =>
      exact .refuse hs (hne _ hfor) (.refuse hs (hne _ hif) (.refuse hs (hne _ hwhile)
        (.refuse hs (hne _ hreturn) (.refuse hs (hne _ hbrace)
          (.refuse hs (hne _ hprint) hexpression)))))

theorem forStatement_follows : Follows x s (forStatement read) (Grammar.forStatement (d + 1)) := by
  rw [Grammar.forStatement]
  refine .bind (.consume hs _ _) fun _ s₁ h₁ => ?_
  refine .bind (forInitializer_follows h h₁) fun initializer s₂ h₂ => ?_
  refine .bind (expressionUnless_follows (fun _ => h.expression) h₂ _) fun condition s₃ h₃ => ?_
  refine .bind (.consume h₃ _ _) fun _ s₄ h₄ => ?_
  refine .bind (expressionUnless_follows (fun _ => h.expression) h₄ _) fun increment s₅ h₅ => ?_
  refine .bind (.consume h₅ _ _) fun _ s₆ h₆ => ?_
  exact .bind (h.rule h₆ .statement) fun body s₇ h₇ => .pure h₇ _

theorem ifStatement_follows : Follows x s (ifStatement read) (Grammar.ifStatement (d + 1)) := by
  rw [Grammar.ifStatement]
  refine .bind (.consume hs _ _) fun _ s₁ h₁ => ?_
  refine .bind (h.expression h₁) fun condition s₂ h₂ => ?_
  refine .bind (.consume h₂ _ _) fun _ s₃ h₃ => ?_
  refine .bind (h.rule h₃ .statement) fun thenBranch s₄ h₄ => ?_
  refine .accepts h₄ (fun _ s₅ h₅ _ => ?_) (.pure h₄ _)
  exact .bind (h.rule h₅ .statement) fun elseBranch s₆ h₆ => .pure h₆ _

theorem whileStatement_follows :
    Follows x s (whileStatement read) (Grammar.whileStatement (d + 1)) := by
  rw [Grammar.whileStatement]
  refine .bind (.consume hs _ _) fun _ s₁ h₁ => ?_
  refine .bind (h.expression h₁) fun condition s₂ h₂ => ?_
  refine .bind (.consume h₂ _ _) fun _ s₃ h₃ => ?_
  exact .bind (h.rule h₃ .statement) fun body s₄ h₄ => .pure h₄ _

theorem block_follows : Follows x s (block read) (Grammar.block (d + 1)) := by
  have hend : Follows x s (do
      let _ ← consume (.punct .rightBrace) .blockEnd
      pure ([] : List Stmt)) (do
      let _ ← Parse.expect (.punct .rightBrace) .blockEnd
      pure []) :=
    .bind (.consume hs _ _) fun _ s₁ h₁ => .pure h₁ _
  rw [Grammar.block]
  unfold block
  cases hdrop : x.before.drop s.current with
  | nil =>
    refine .look (check_end hs hdrop _) (.look (isAtEnd_end hs hdrop) ?_)
    refine .idle (c := none) (by rw [hdrop]; rfl) ?_
    unfold Follows at hend ⊢
    rw [hdrop] at hend ⊢
    exact hend
  | cons t ts =>
    refine .look (check_head hdrop _) (.idle (c := some t) (by rw [hdrop]; rfl) ?_)
    dsimp only
    by_cases hbrace : t.kind = .punct .rightBrace
    · rw [decide_eq_true hbrace, if_pos rfl, if_pos hbrace]
      have hbind : (Parse.expect (.punct .rightBrace) .blockEnd >>= fun _ => pure []) (t :: ts) =
          (Parse.advance >>= fun _ => (pure [] : Parse (List Stmt))) (t :: ts) :=
        Parse.bind_of_reads (Parse.expect_head hbrace)
      unfold Follows at hend ⊢
      rw [hdrop, hbind] at hend
      rwa [hdrop]
    · rw [decide_eq_false hbrace, if_neg Bool.false_ne_true, if_neg hbrace]
      refine .look (isAtEnd_head hdrop) (.bind (h.rule hs .declaration) fun first s₁ h₁ => ?_)
      exact .bind (h.rule h₁ .block) fun others s₂ h₂ => .pure h₂ _

/-! ## Declarations -/

theorem declarationOrFail_follows :
    Follows x s (declarationOrFail read) (Grammar.declarationOrFail (d + 1)) := by
  rw [Grammar.declarationOrFail]
  refine .accepts hs (fun _ s₁ h₁ _ => h.rule h₁ .classDeclaration) ?_
  refine .accepts hs (fun _ s₁ h₁ _ => (h.rule h₁ (.function .function)).map) ?_
  exact .accepts hs (fun _ s₁ h₁ _ => h.rule h₁ .varDeclaration) (h.rule hs .statement)

theorem declaration_follows : Follows x s (declaration read) (Grammar.declaration (d + 1)) := by
  rw [Grammar.declaration]
  cases d with
  | zero => exact .exhausted
  | succ e =>
    have hlower : Serves x read e := fun e' he' => h e' (Nat.le_succ_of_le he')
    exact .recover (declarationOrFail_follows hlower hs) fun s₁ h₁ => h.rule h₁ .synchronize

theorem classDeclaration_follows :
    Follows x s (classDeclaration read) (Grammar.classDeclaration (d + 1)) := by
  rw [Grammar.classDeclaration]
  refine .bind (.consume hs _ _) fun name s₁ h₁ => ?_
  have hbody : ∀ (superclass : Option Expr) (s' : State), s'.current ≤ x.before.length →
      Follows x s' (do
        let _ ← consume (.punct .leftBrace) .classBodyStart
        let methods ← read .methods
        let _ ← consume (.punct .rightBrace) .classBodyEnd
        pure (Stmt.classDecl name superclass methods)) (do
        let _ ← Parse.expect (.punct .leftBrace) .classBodyStart
        let methods ← methodList d
        let _ ← Parse.expect (.punct .rightBrace) .classBodyEnd
        pure (Stmt.classDecl name superclass methods)) := by
    intro superclass s' h'
    refine .bind (.consume h' _ _) fun _ s₂ h₂ => ?_
    refine .bind (h.rule h₂ .methods) fun methods s₃ h₃ => ?_
    exact .bind (.consume h₃ _ _) fun _ s₄ h₄ => .pure h₄ _
  refine .accepts h₁ (fun _ s₂ h₂ _ => ?_) (.bind (.pure h₁ _) fun superclass => hbody superclass)
  refine .bind (.consume h₂ _ _) fun superclass s₃ h₃ => ?_
  exact .bind (.pure h₃ _) fun superclass => hbody superclass

theorem methods_follows : Follows x s (methods read) (methodList (d + 1)) := by
  rw [methodList]
  unfold methods
  cases hdrop : x.before.drop s.current with
  | nil =>
    refine .look (check_end hs hdrop _) (.look (isAtEnd_end hs hdrop) ?_)
    exact .idle (c := none) (by rw [hdrop]; rfl) (.pure hs _)
  | cons t ts =>
    refine .look (check_head hdrop _) (.idle (c := some t) (by rw [hdrop]; rfl) ?_)
    dsimp only
    by_cases hbrace : t.kind = .punct .rightBrace
    · rw [decide_eq_true hbrace, if_pos rfl, if_pos hbrace]
      exact .pure hs _
    · rw [decide_eq_false hbrace, if_neg Bool.false_ne_true, if_neg hbrace]
      refine .look (isAtEnd_head hdrop) (.bind (h.rule hs (.function .method)) fun m s₁ h₁ => ?_)
      exact .bind (h.rule h₁ .methods) fun others s₂ h₂ => .pure h₂ _

theorem function_follows (role : FunctionRole) :
    Follows x s (function read role) (Grammar.function (d + 1) role) := by
  rw [Grammar.function]
  refine .bind (.consume hs _ _) fun name s₁ h₁ => ?_
  refine .bind (.consume h₁ _ _) fun _ s₂ h₂ => ?_
  have hbody : ∀ (params : List Token) (s' : State), s'.current ≤ x.before.length →
      Follows x s' (do
        let _ ← consume (.punct .rightParen) .parametersEnd
        let _ ← consume (.punct .leftBrace) (.functionBodyStart role)
        let body ← read .block
        pure (FunctionDecl.mk name params body)) (do
        let _ ← Parse.expect (.punct .rightParen) .parametersEnd
        let _ ← Parse.expect (.punct .leftBrace) (.functionBodyStart role)
        let body ← Grammar.block d
        pure (FunctionDecl.mk name params body)) := by
    intro params s' h'
    refine .bind (.consume h' _ _) fun _ s₃ h₃ => ?_
    refine .bind (.consume h₃ _ _) fun _ s₄ h₄ => ?_
    exact .bind (h.rule h₄ .block) fun body s₅ h₅ => .pure h₅ _
  refine .bind (.check h₂ _) fun empty s₃ h₃ => ?_
  cases empty with
  | true => exact .bind (.pure h₃ _) fun params => hbody params
  | false => exact .bind (h.rule h₃ (.parameters 0)) fun params => hbody params

theorem program_follows : Follows x s (program read) (Grammar.program (d + 1)) := by
  rw [Grammar.program]
  refine .isAtEnd hs (fun _ => .pure hs _) fun t ts _ => ?_
  refine .bind (h.rule hs .declaration) fun first s₁ h₁ => ?_
  exact .bind (h.rule h₁ .program) fun others s₂ h₂ => .pure h₂ _

end

/-! ## Every rule -/

/-- How many rules by indices may nest before one is called whose reader has less depth. -/
def Rule.extra : {α : Type} → Rule α → Nat
  | _, .expression | _, .call | _, .finishCall _ => 1
  | _, .wholeExpression | _, .varDeclaration | _, .printStatement | _, .returnStatement
  | _, .expressionStatement => 2
  | _, _ => 0

theorem Rule.extra_le {α : Type} (rule : Rule α) : rule.extra ≤ 2 := by
  cases rule <;> simp [extra]

/-- A depth at which a rule follows its reader of a depth. -/
def Input.need (x : Input) {α : Type} (rule : Rule α) (d : Nat) : Nat :=
  3 * d + x.before.length + 4 + rule.extra

/-- What a rule does follows its reader, if the rules that it calls do. -/
theorem body_follows {α : Type} (rule : Rule α) (hD : x.before.length + 2 ≤ D)
    (hlower : ∀ e, e + 1 = d → Serves x (run D) e)
    (hsame : ∀ {β : Type} (rule' : Rule β), rule'.extra < rule.extra → ∀ s : State,
      s.current ≤ x.before.length → Follows x s (run D rule') (rule'.reader (x.previous s) d))
    (hs : s.current ≤ x.before.length) :
    Follows x s (run (D + 1) rule) (rule.reader (x.previous s) d) := by
  -- the readers of depth zero are exhausted
  have hcore : ∀ {p : Step α} {q : Nat → Parse α}, q 0 = Parse.exhausted →
      (∀ e, Serves x (run D) e → Follows x s p (q (e + 1))) → Follows x s p (q d) := by
    intro p q hzero hsucc
    cases d with
    | zero => rw [hzero]; exact .exhausted
    | succ e => exact hsucc e (hlower e rfl)
  cases rule with
  | program => exact hcore rfl fun e h => program_follows h hs
  | wholeExpression => exact wholeExpression_follows (hsame .expression (by decide)) hs
  | declaration => exact hcore rfl fun e h => declaration_follows h hs
  | synchronize => exact synchronize_follows hs (by omega)
  | skip => exact skip_follows (D + 1) s hs (by omega)
  | classDeclaration => exact hcore rfl fun e h => classDeclaration_follows h hs
  | methods => exact hcore rfl fun e h => methods_follows h hs
  | function role =>
    exact hcore (q := (Grammar.function · role)) rfl fun e h => function_follows h hs role
  | parameters count => exact hcore rfl fun e h => parameters_follows h hs count
  | varDeclaration => exact varDeclaration_follows (hsame .expression (by decide)) hs
  | statement => exact hcore rfl fun e h => statement_follows h hs
  | forStatement => exact hcore rfl fun e h => forStatement_follows h hs
  | ifStatement => exact hcore rfl fun e h => ifStatement_follows h hs
  | whileStatement => exact hcore rfl fun e h => whileStatement_follows h hs
  | printStatement => exact printStatement_follows (hsame .expression (by decide)) hs
  | returnStatement => exact returnStatement_follows (hsame .expression (by decide)) hs
  | expressionStatement => exact expressionStatement_follows (hsame .expression (by decide)) hs
  | block => exact hcore rfl fun e h => block_follows h hs
  | expression => exact hsame .assignment (by decide) s hs
  | assignment => exact hcore rfl fun e h => assignment_follows h hs
  | level l => exact hcore rfl fun e h => level_follows h hs l
  | operations l left => exact hcore rfl fun e h => operations_follows h hs l left
  | unary => exact hcore rfl fun e h => unary_follows h hs
  | call =>
    exact call_follows hs (hsame .primary (by decide)) fun callee =>
      hsame (.suffixes callee) Nat.zero_lt_one
  | suffixes callee => exact hcore rfl fun e h => suffixes_follows h hs callee
  | finishCall callee =>
    exact finishCall_follows hs callee fun count => hsame (.arguments count) Nat.zero_lt_one
  | arguments count => exact hcore rfl fun e h => arguments_follows h hs count
  | primary => exact hcore rfl fun e h => primary_follows h hs

/-- Every rule follows its reader. -/
theorem run_follows {α : Type} (rule : Rule α) (d D : Nat) (hD : x.need rule d ≤ D)
    (s : State) (hs : s.current ≤ x.before.length) :
    Follows x s (run D rule) (rule.reader (x.previous s) d) := by
  unfold Input.need at hD
  obtain ⟨D, rfl⟩ : ∃ D', D = D' + 1 := ⟨D - 1, by omega⟩
  refine body_follows rule (by omega) ?_ ?_ hs
  · rintro e rfl e' he' β rule' s' hs'
    have := rule'.extra_le
    exact run_follows rule' e' D (by unfold Input.need; omega) s' hs'
  · intro β rule' hlt s' hs'
    exact run_follows rule' d D (by unfold Input.need; omega) s' hs'
termination_by (d, rule.extra)

end Lox.Indexed
