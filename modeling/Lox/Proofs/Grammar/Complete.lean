import Lox.Proofs.Grammar.Progress
import Lox.Proofs.Grammar.Sound

/-!
# Derivations are read

The other direction: what a rule derives, its reader reads back with the same tree, whenever what
follows cannot continue the phrase (`Derives.completes`, `Forms.completes`). With soundness and
depth, `parse` accepts exactly the programs of the grammar (`parse_iff`).

A left-grouped chain grows at its end and the reader loops from its front, so for the chains the
induction hypothesis carries a continuation: the loop, resumed after the tokens of a chain with the
chain's tree, gives what the reader gives for the whole.
-/

set_option autoImplicit false

namespace Lox.Grammar

open Parse

/-! ## What can follow -/

/-- A token that can continue an operand of a level of rank at least `n`. -/
def Continues (n : Nat) (k : TokenKind) : Prop :=
  k = .punct .leftParen ∨ k = .punct .dot ∨ ∃ l : Level, n ≤ l.rank ∧ Joins l k

/-- The next token continues no operand of a level of rank at least `n`. -/
def Stops (n : Nat) (rest : List Token) : Prop :=
  ∀ t ∈ rest.head?, ¬ Continues n t.kind

theorem Stops.mono {m n : Nat} {rest : List Token} (h : Stops m rest) (hm : m ≤ n) :
    Stops n rest := by
  rintro t ht (hl | hd | ⟨l, hn, hop⟩)
  · exact h t ht (.inl hl)
  · exact h t ht (.inr (.inl hd))
  · exact h t ht (.inr (.inr ⟨l, by omega, hop⟩))

theorem Stops.leftParen {n : Nat} {rest : List Token} (h : Stops n rest) :
    ∀ t ∈ rest.head?, t.kind ≠ .punct .leftParen :=
  fun t ht hk => h t ht (.inl hk)

theorem Stops.dot {n : Nat} {rest : List Token} (h : Stops n rest) :
    ∀ t ∈ rest.head?, t.kind ≠ .punct .dot :=
  fun t ht hk => h t ht (.inr (.inl hk))

theorem Stops.has {l : Level} {rest : List Token} (h : Stops l.rank rest) :
    ∀ t ∈ rest.head?, l.has t = false := by
  intro t ht
  rw [Bool.eq_false_iff]
  exact fun hop => h t ht (.inr (.inr ⟨l, Nat.le_refl _, has_iff.1 hop⟩))

/-- An operator belongs to one level. -/
theorem Joins.unique {l l' : Level} {k : TokenKind} (h : Joins l k) (h' : Joins l' k) : l = l' := by
  cases h <;> cases h' <;> rfl

theorem Joins.stops {l : Level} {op : Token} {ts : List Token} (h : Joins l op.kind) :
    Stops (l.rank + 1) (op :: ts) := by
  intro t ht
  cases ht
  rintro (hk | hk | ⟨l', hl, hop⟩)
  · rw [hk] at h; cases h
  · rw [hk] at h; cases h
  · cases h.unique hop
    omega

/-- A token that ends an expression wherever it stands. -/
def Closes (k : TokenKind) : Prop :=
  k = .punct .semicolon ∨ k = .punct .rightParen ∨ k = .punct .comma

/-- The next token continues no expression. -/
def Ends (rest : List Token) : Prop :=
  Stops 0 rest ∧ ∀ t ∈ rest.head?, t.kind ≠ .punct .equal

theorem Closes.ends {t : Token} {ts : List Token} (h : Closes t.kind) : Ends (t :: ts) := by
  constructor
  · intro t' ht
    cases ht
    rintro (hk | hk | ⟨l, -, hop⟩)
    · simp [hk, Closes] at h
    · simp [hk, Closes] at h
    · rcases h with h | h | h <;> rw [h] at hop <;> cases hop
  · intro t' ht hk
    cases ht
    simp [hk, Closes] at h

/-- The tokens that begin an expression. -/
def Begins : TokenKind → Prop
  | .number _ | .string _ | .identifier => True
  | .keyword k => k = .trueWord ∨ k = .falseWord ∨ k = .nilWord ∨ k = .thisWord ∨ k = .superWord
  | .punct p => p = .leftParen ∨ p = .bang ∨ p = .minus
  | .eof => False

theorem Begins.ne_punct {k : TokenKind} {p : Punct} (h : Begins k)
    (hp : ¬ (p = .leftParen ∨ p = .bang ∨ p = .minus)) : k ≠ .punct p := by
  rintro rfl
  exact hp h

theorem Begins.ne_keyword {k : TokenKind} {word : Keyword} (h : Begins k)
    (hw : ¬ (word = .trueWord ∨ word = .falseWord ∨ word = .nilWord ∨ word = .thisWord ∨
      word = .superWord)) : k ≠ .keyword word := by
  rintro rfl
  exact hw h

/-- A phrase begins with a token that begins an expression. -/
theorem Derives.begins {p : Phrase} {ts : List Token} {e : p.Tree} (h : Derives p ts e) :
    ∃ t us, ts = t :: us ∧ Begins t.kind := by
  induction h with
  | assign hn | identifier hn => exact ⟨_, _, rfl, by rw [hn]; trivial⟩
  | disjunction _ ih | single _ ih | orOperand _ ih | andOperand _ ih | equalityOperand _ ih
  | comparisonOperand _ ih | termOperand _ ih | factorOperand _ ih | unaryCall _ ih
  | callPrimary _ ih | argument _ ih => exact ih
  | set _ _ _ _ _ ih | logical _ _ _ _ ih | binary _ _ _ _ ih | callEmpty _ _ _ ih
  | call _ _ _ _ _ ih | get _ _ _ ih | argumentCons _ _ _ ih =>
    obtain ⟨t, us, rfl, ht⟩ := ih
    exact ⟨t, _, rfl, ht⟩
  | unary hop => exact ⟨_, _, rfl, by rcases hop with h | h <;> rw [h] <;> simp [Begins]⟩
  | number h | string h | true h | false h | nil h | this h | grouping h | super h =>
    exact ⟨_, _, rfl, by rw [h]; simp [Begins]⟩

theorem primary_head {ts : List Token} {e : Expr} (h : Derives .primary ts e) :
    ∃ t us, ts = t :: us ∧ isUnary t = false := by
  cases h with
  | number h | string h | true h | false h | nil h | this h | identifier h | grouping h | super h =>
    exact ⟨_, _, rfl, by simp [isUnary, h]⟩

/-! ## Expressions -/

/-- Every reading of the tokens `ts` as the phrase `p` gives the tree `e`, if what follows does not
continue the phrase. For a chain that may grow at its end: whatever its loop gives after it, the
reader gives. -/
def Completes : (p : Phrase) → List Token → p.Tree → Prop
  | .expression, ts, e => ∀ rest, Ends rest → ∀ d,
    Gives (expression d) (ts ++ rest) (.parsed e rest [])
  | .level l, ts, e => ∀ rest r, Stops (l.rank + 1) rest → (∀ d, Gives (binaryTail d l e) rest r) →
      ∀ d, Gives (Grammar.binary d l) (ts ++ rest) r
  | .operand l, ts, e => ∀ rest, Stops (l.rank + 1) rest →
      ∀ d, Gives (operand d l) (ts ++ rest) (.parsed e rest [])
  | .unary, ts, e => ∀ rest, Stops 6 rest →
      ∀ d, Gives (Grammar.unary d) (ts ++ rest) (.parsed e rest [])
  | .call, ts, e => ∀ rest r, (∀ d, Gives (callTail d e) rest r) →
      ∀ d, Gives (Grammar.unary d) (ts ++ rest) r
  | .primary, ts, e => ∀ rest d, Gives (primary d) (ts ++ rest) (.parsed e rest [])
  | .arguments, ts, es => ∀ rest count, (∀ t ∈ rest.head?, t.kind = .punct .rightParen) →
      count + es.length ≤ 255 → ∀ d, Gives (argumentList d count) (ts ++ rest) (.parsed es rest [])

namespace Completes

/-- A chain that is not continued. -/
theorem stop {l : Level} {ts rest : List Token} {e : Expr} (h : Completes (.level l) ts e)
    (hrest : Stops l.rank rest) (d : Nat) :
    Gives (Grammar.binary d l) (ts ++ rest) (.parsed e rest []) := by
  refine h rest _ (hrest.mono (Nat.le_succ _)) (fun d => ?_) d
  cases d with
  | zero => exact .inl rfl
  | succ d =>
    rw [binaryTail]
    exact .step (acceptIf_none hrest.has) (.pure _ _)

theorem disjunction {ts : List Token} {e : Expr} (h : Completes (.level .or) ts e) :
    Completes .expression ts e := by
  intro rest hrest d
  cases d with
  | zero => exact .inl rfl
  | succ d =>
    rw [expression]
    exact .bind (h.stop hrest.1 d) (.step (accept_none hrest.2) (.pure _ _))

theorem assignment {us ts : List Token} {equal : Token} {target value e : Expr}
    (h₁ : Completes (.level .or) us target) (he : equal.kind = .punct .equal)
    (h₂ : Completes .expression ts value) (ha : assignment? target value = some e) :
    Completes .expression (us ++ equal :: ts) e := by
  intro rest hrest d
  cases d with
  | zero => exact .inl rfl
  | succ d =>
    have hstop : Stops 0 (equal :: (ts ++ rest)) := by
      intro t ht
      cases ht
      rw [he]
      rintro (h | h | ⟨l, -, hop⟩)
      · cases h
      · cases h
      · cases hop
    rw [expression, List.append_assoc, List.cons_append]
    refine .bind (h₁.stop hstop d) (.step (accept_head he) (.bind (h₂ rest hrest d) ?_))
    rw [ha]
    exact .pure _ _

theorem single {l : Level} {ts : List Token} {e : Expr} (h : Completes (.operand l) ts e) :
    Completes (.level l) ts e := by
  intro rest r hrest htail d
  cases d with
  | zero => exact .inl rfl
  | succ d =>
    rw [Grammar.binary]
    exact .bind (h rest hrest d) (htail d)

theorem node {l : Level} {us ts : List Token} {op : Token} {left right : Expr}
    (h₁ : Completes (.level l) us left) (hop : Joins l op.kind)
    (h₂ : Completes (.operand l) ts right) :
    Completes (.level l) (us ++ op :: ts) (l.node left op right) := by
  intro rest r hrest htail d
  rw [List.append_assoc, List.cons_append]
  refine h₁ _ _ hop.stops (fun d => ?_) d
  cases d with
  | zero => exact .inl rfl
  | succ d =>
    rw [binaryTail]
    exact .step (acceptIf_head (has_iff.2 hop)) (.bind (h₂ rest hrest d) (htail d))

theorem ofTighter {l l' : Level} {ts : List Token} {e : Expr} (hl : l.tighter = some l')
    (h : Completes (.level l') ts e) : Completes (.operand l) ts e := by
  intro rest hrest d
  rw [← Level.rank_tighter hl] at hrest
  cases d with
  | zero => exact .inl rfl
  | succ d =>
    rw [operand]
    simp only [hl]
    exact h.stop hrest d

theorem ofUnary {ts : List Token} {e : Expr} (h : Completes .unary ts e) :
    Completes (.operand .factor) ts e := by
  intro rest hrest d
  cases d with
  | zero => exact .inl rfl
  | succ d => exact h rest hrest d

theorem unary {op : Token} {ts : List Token} {right : Expr}
    (hop : op.kind = .punct .bang ∨ op.kind = .punct .minus) (h : Completes .unary ts right) :
    Completes .unary (op :: ts) (.unary op right) := by
  intro rest hrest d
  cases d with
  | zero => exact .inl rfl
  | succ d =>
    rw [Grammar.unary]
    exact .step (acceptIf_head (isUnary_iff.2 hop)) (.bind (h rest hrest d) (.pure _ _))

theorem unaryCall {ts : List Token} {e : Expr} (h : Completes .call ts e) :
    Completes .unary ts e := by
  intro rest hrest d
  refine h rest _ (fun d => ?_) d
  cases d with
  | zero => exact .inl rfl
  | succ d =>
    rw [callTail]
    exact .step (accept_none hrest.leftParen) (.step (accept_none hrest.dot) (.pure _ _))

/-- A call is an operand of every level. -/
theorem level {ts : List Token} {e : Expr} (h : Completes .call ts e) (l : Level) :
    Completes (.level l) ts e := by
  have factor : Completes (.level .factor) ts e := h.unaryCall.ofUnary.single
  have term : Completes (.level .term) ts e := (factor.ofTighter rfl).single
  have comparison : Completes (.level .comparison) ts e := (term.ofTighter rfl).single
  have equality : Completes (.level .equality) ts e := (comparison.ofTighter rfl).single
  have and : Completes (.level .and) ts e := (equality.ofTighter rfl).single
  cases l with
  | or => exact (and.ofTighter rfl).single
  | and => exact and
  | equality => exact equality
  | comparison => exact comparison
  | term => exact term
  | factor => exact factor

theorem callPrimary {ts : List Token} {e : Expr} (hd : Derives .primary ts e)
    (h : Completes .primary ts e) : Completes .call ts e := by
  intro rest r htail d
  cases d with
  | zero => exact .inl rfl
  | succ d =>
    obtain ⟨t, us, rfl, ht⟩ := primary_head hd
    rw [Grammar.unary]
    refine .step (acceptIf_none fun t' ht' => ?_) (.bind (h rest d) (htail d))
    cases ht'
    exact ht

theorem callEmpty {ts : List Token} {callee : Expr} {lparen rparen : Token}
    (h : Completes .call ts callee) (hl : lparen.kind = .punct .leftParen)
    (hr : rparen.kind = .punct .rightParen) :
    Completes .call (ts ++ [lparen, rparen]) (.call callee rparen []) := by
  intro rest r htail d
  rw [List.append_assoc]
  refine h _ _ (fun d => ?_) d
  cases d with
  | zero => exact .inl rfl
  | succ d =>
    rw [callTail]
    refine .step (accept_head hl) (.step (sees_head _ _ _) ?_)
    rw [hr]
    exact .step rfl (.step (expect_head hr) (htail d))

theorem call {us ts : List Token} {callee : Expr} {arguments : List Expr} {lparen rparen : Token}
    (h : Completes .call us callee) (hl : lparen.kind = .punct .leftParen)
    (hd : Derives .arguments ts arguments) (ha : Completes .arguments ts arguments)
    (hn : arguments.length ≤ 255) (hr : rparen.kind = .punct .rightParen) :
    Completes .call (us ++ lparen :: (ts ++ [rparen])) (.call callee rparen arguments) := by
  intro rest r htail d
  have happend : us ++ lparen :: (ts ++ [rparen]) ++ rest
      = us ++ lparen :: (ts ++ rparen :: rest) := by simp
  rw [happend]
  refine h _ _ (fun d => ?_) d
  cases d with
  | zero => exact .inl rfl
  | succ d =>
    obtain ⟨t, ts', rfl, ht⟩ := hd.begins
    have hrest : ∀ t ∈ (rparen :: rest).head?, t.kind = .punct .rightParen := by
      intro t ht
      cases ht
      exact hr
    rw [callTail]
    refine .step (accept_head hl) (.step (sees_head _ _ _) ?_)
    rw [decide_eq_false (ht.ne_punct (by decide))]
    exact .bind (ha _ _ hrest (by omega) d) (.step (expect_head hr) (htail d))

theorem get {ts : List Token} {object : Expr} {dot name : Token} (h : Completes .call ts object)
    (hd : dot.kind = .punct .dot) (hn : name.kind = .identifier) :
    Completes .call (ts ++ [dot, name]) (.get object name) := by
  intro rest r htail d
  rw [List.append_assoc]
  refine h _ _ (fun d => ?_) d
  cases d with
  | zero => exact .inl rfl
  | succ d =>
    have hnone : ∀ t ∈ (dot :: name :: rest).head?, t.kind ≠ .punct .leftParen := by
      intro t ht
      cases ht
      rw [hd]
      decide
    rw [callTail]
    exact .step (accept_none hnone) (.step (accept_head hd) (.step (expect_head hn) (htail d)))

theorem argument {ts : List Token} {e : Expr} (h : Completes .expression ts e) :
    Completes .arguments ts [e] := by
  intro rest count hrest hcount d
  cases d with
  | zero => exact .inl rfl
  | succ d =>
    have hends : Ends rest := by
      cases rest with
      | nil => exact ⟨nofun, nofun⟩
      | cons t rest => exact Closes.ends (.inr (.inl (hrest t rfl)))
    have hnone : ∀ t ∈ rest.head?, t.kind ≠ .punct .comma := by
      intro t ht
      rw [hrest t ht]
      decide
    rw [argumentList, if_neg (by simp only [maxArguments, List.length_singleton] at *; omega)]
    exact .bind (h rest hends d) (.step (accept_none hnone) (.pure _ _))

theorem argumentCons {us ts : List Token} {comma : Token} {e : Expr} {es : List Expr}
    (h : Completes .expression us e) (hc : comma.kind = .punct .comma)
    (hs : Completes .arguments ts es) : Completes .arguments (us ++ comma :: ts) (e :: es) := by
  intro rest count hrest hcount d
  cases d with
  | zero => exact .inl rfl
  | succ d =>
    simp only [List.length_cons] at hcount
    rw [argumentList, if_neg (by simp only [maxArguments]; omega), List.append_assoc,
      List.cons_append]
    exact .bind (h _ (Closes.ends (.inr (.inr hc))) d) (.step (accept_head hc)
      (.bind (hs rest _ hrest (by omega) d) (.pure _ _)))

theorem leaf {t : Token} {e : Expr} (h : leaf? t = some e) : Completes .primary [t] e := by
  intro rest d
  cases d with
  | zero => exact .inl rfl
  | succ d =>
    rw [primary]
    refine .step (peek_head t rest) ?_
    simp only [h]
    exact .step (advance_head t rest) (.pure _ _)

theorem grouping {lparen rparen : Token} {ts : List Token} {inner : Expr}
    (hl : lparen.kind = .punct .leftParen) (h : Completes .expression ts inner)
    (hr : rparen.kind = .punct .rightParen) :
    Completes .primary (lparen :: (ts ++ [rparen])) (.grouping inner) := by
  intro rest d
  cases d with
  | zero => exact .inl rfl
  | succ d =>
    rw [primary, List.cons_append, List.append_assoc]
    refine .step (peek_head _ _) ?_
    simp only [leaf?, hl]
    exact .step (advance_head _ _) (.bind (h _ (Closes.ends (.inr (.inl hr))) d)
      (.step (expect_head hr) (.pure _ _)))

theorem super {keyword dot method : Token} (hk : keyword.kind = .keyword .superWord)
    (hd : dot.kind = .punct .dot) (hm : method.kind = .identifier) :
    Completes .primary [keyword, dot, method] (.super keyword method none) := by
  intro rest d
  cases d with
  | zero => exact .inl rfl
  | succ d =>
    rw [primary]
    refine .step (peek_head _ _) ?_
    simp only [leaf?, hk, if_true]
    exact .step (advance_head _ _) (.step (expect_head hd) (.step (expect_head hm) (.pure _ _)))

end Completes

theorem Derives.completes {p : Phrase} {ts : List Token} {e : p.Tree} (h : Derives p ts e) :
    Completes p ts e := by
  induction h with
  | assign hn he _ hv =>
    have hcall : Completes .call [_] (.variable _ none) :=
      .callPrimary (.identifier hn) (.leaf (by simp [leaf?, hn]))
    exact .assignment (hcall.level .or) he hv rfl
  | @set us ts dot name equal object value _ hd hn he _ ho hv =>
    have happend : us ++ dot :: name :: equal :: ts = us ++ [dot, name] ++ equal :: ts := by simp
    rw [happend]
    exact .assignment ((ho.get hd hn).level .or) he hv rfl
  | disjunction _ ih => exact ih.disjunction
  | single _ ih => exact ih.single
  | @logical l us ts op left right hl _ hop _ h₁ h₂ =>
    have hnode : l.node left op right = .logical left op right := by
      rcases hl with rfl | rfl <;> rfl
    exact hnode ▸ h₁.node hop h₂
  | @binary l us ts op left right hl _ hop _ h₁ h₂ =>
    have hnode : l.node left op right = .binary left op right := by
      cases l <;> first | rfl | simp at hl
    exact hnode ▸ h₁.node hop h₂
  | orOperand _ ih | andOperand _ ih | equalityOperand _ ih | comparisonOperand _ ih
  | termOperand _ ih => exact ih.ofTighter rfl
  | factorOperand _ ih => exact ih.ofUnary
  | unary hop _ ih => exact ih.unary hop
  | unaryCall _ ih => exact ih.unaryCall
  | callPrimary h ih => exact .callPrimary h ih
  | callEmpty _ hl hr ih => exact ih.callEmpty hl hr
  | call _ hl hd hn hr ih ha => exact ih.call hl hd ha hn hr
  | get _ hd hn ih => exact ih.get hd hn
  | argument _ ih => exact ih.argument
  | argumentCons _ hc _ ih ihs => exact ih.argumentCons hc ihs
  | number h | string h | true h | false h | nil h | this h | identifier h =>
    exact .leaf (by simp [leaf?, h])
  | grouping hl _ hr ih => exact .grouping hl ih hr
  | super hk hd hm => exact .super hk hd hm

/-! ## Parts of declarations -/

variable {ts rest : List Token}

theorem Derives.expression_completes {e : Expr} (h : Derives .expression ts e) (hrest : Ends rest)
    (d : Nat) : Gives (expression d) (ts ++ rest) (.parsed e rest []) :=
  h.completes rest hrest d

/-- An optional expression before the token that would stand in its place. -/
theorem DerivesOption.completes {o : Option Expr} {t : Token} {p : Punct} (h : DerivesOption ts o)
    (ht : t.kind = .punct p) (hp : p = .semicolon ∨ p = .rightParen) (d : Nat) :
    Gives (expressionUnless d (.punct p)) (ts ++ t :: rest) (.parsed o (t :: rest) []) := by
  have hends : Ends (t :: rest) := by
    rcases hp with rfl | rfl
    · exact Closes.ends (.inl ht)
    · exact Closes.ends (.inr (.inl ht))
  unfold expressionUnless
  cases h with
  | none =>
    refine .step (sees_head _ _ _) ?_
    rw [ht, decide_eq_true rfl]
    exact .pure _ _
  | some h =>
    obtain ⟨first, us, rfl, hfirst⟩ := h.begins
    refine .step (sees_head _ _ _) ?_
    rw [decide_eq_false (hfirst.ne_punct (by rcases hp with rfl | rfl <;> decide))]
    exact .bind (h.expression_completes hends d) (.pure _ _)

theorem Parameters.completes {ps : List Token} (h : Parameters ts ps) :
    ∀ {count : Nat}, (∀ t ∈ rest.head?, t.kind = .punct .rightParen) → count + ps.length ≤ 255 →
      ∀ d, Gives (parameterList d count) (ts ++ rest) (.parsed ps rest []) := by
  induction h with
  | one hp =>
    intro count hrest hcount d
    cases d with
    | zero => exact .inl rfl
    | succ d =>
      have hnone : ∀ t ∈ rest.head?, t.kind ≠ .punct .comma := by
        intro t ht
        rw [hrest t ht]
        decide
      simp only [List.length_singleton] at hcount
      rw [parameterList, if_neg (by simp only [maxArguments]; omega)]
      exact .step (expect_head hp) (.step (accept_none hnone) (.pure _ _))
  | cons hp hc _ ih =>
    intro count hrest hcount d
    cases d with
    | zero => exact .inl rfl
    | succ d =>
      simp only [List.length_cons] at hcount
      rw [parameterList, if_neg (by simp only [maxArguments]; omega)]
      exact .step (expect_head hp) (.step (accept_head hc) (.bind (ih hrest (by omega) d)
        (.pure _ _)))

theorem Parameters.head {ps : List Token} (h : Parameters ts ps) :
    ∃ t us, ts = t :: us ∧ t.kind = .identifier := by
  cases h with
  | one hp | cons hp => exact ⟨_, _, rfl, hp⟩

theorem VarDeclaration.completes {s : Stmt} (h : VarDeclaration ts s) :
    ∃ word us, ts = word :: us ∧ word.kind = .keyword .varWord ∧
      ∀ rest d, Gives (varDeclaration d) (us ++ rest) (.parsed s rest []) := by
  cases h with
  | bare hw hn hs =>
    refine ⟨_, _, rfl, hw, fun rest d => ?_⟩
    unfold varDeclaration
    refine .step (expect_head hn) (.step (accept_none fun t ht => ?_) (.step rfl
      (.step (expect_head hs) (.pure _ _))))
    cases ht
    rw [hs]
    decide
  | initialized hw hn he hv hs =>
    refine ⟨_, _, rfl, hw, fun rest d => ?_⟩
    unfold varDeclaration
    rw [List.cons_append, List.cons_append, List.append_assoc]
    exact .step (expect_head hn) (.step (accept_head he)
      (.bind (hv.expression_completes (Closes.ends (.inl hs)) d).map
        (.step (expect_head hs) (.pure _ _))))

theorem ExpressionStatement.completes {s : Stmt} (h : ExpressionStatement ts s) (d : Nat) :
    Gives (expressionStatement d) (ts ++ rest) (.parsed s rest []) := by
  cases h with
  | mk hv hs =>
    unfold expressionStatement
    rw [List.append_assoc]
    exact .bind (hv.expression_completes (Closes.ends (.inl hs)) d)
      (.step (expect_head hs) (.pure _ _))

theorem ExpressionStatement.begins {s : Stmt} (h : ExpressionStatement ts s) :
    ∃ t us, ts = t :: us ∧ Begins t.kind := by
  cases h with
  | mk hv hs =>
    obtain ⟨t, us, rfl, ht⟩ := hv.begins
    exact ⟨t, _, rfl, ht⟩

theorem ForInitializer.completes {o : Option Stmt} (h : ForInitializer ts o) (d : Nat) :
    Gives (forInitializer d) (ts ++ rest) (.parsed o rest []) := by
  unfold forInitializer
  cases h with
  | none hs => exact .step (accept_head hs) (.pure _ _)
  | var h =>
    obtain ⟨word, us, rfl, hw, hread⟩ := h.completes
    refine .step (accept_none fun t ht => ?_) (.step (accept_head hw) (hread rest d).map)
    cases ht
    rw [hw]
    decide
  | expression h =>
    obtain ⟨t, us, rfl, ht⟩ := h.begins
    refine .step (accept_none fun t' ht' => ?_) (.step (accept_none fun t' ht' => ?_)
      (h.completes d).map)
    · cases ht'
      exact ht.ne_punct (by decide)
    · cases ht'
      exact ht.ne_keyword (by decide)

/-! ## Declarations and statements -/

/-- The tokens that begin a declaration; none of them is an `else` or a closing brace. -/
def BeginsDeclaration (k : TokenKind) : Prop :=
  Begins k ∨ k = .punct .leftBrace ∨
    ∃ word, k = .keyword word ∧ (word = .classWord ∨ word = .funWord ∨ word = .varWord ∨
      word = .forWord ∨ word = .ifWord ∨ word = .whileWord ∨ word = .printWord ∨
      word = .returnWord)

theorem BeginsDeclaration.ne_else {k : TokenKind} (h : BeginsDeclaration k) :
    k ≠ .keyword .elseWord := by
  rintro rfl
  rcases h with h | h | ⟨word, hk, h⟩
  · exact h.ne_keyword (by decide) rfl
  · cases h
  · cases hk; simp at h

theorem BeginsDeclaration.ne_rightBrace {k : TokenKind} (h : BeginsDeclaration k) :
    k ≠ .punct .rightBrace := by
  rintro rfl
  rcases h with h | h | ⟨word, hk, h⟩
  · exact h.ne_punct (by decide) rfl
  · cases h
  · cases hk

theorem Forms.statement_head {dangling : Bool} {s : Stmt} (h : Forms (.statement dangling) ts s) :
    ∃ t us, ts = t :: us ∧ BeginsDeclaration t.kind ∧ t.kind ≠ .keyword .classWord ∧
      t.kind ≠ .keyword .funWord ∧ t.kind ≠ .keyword .varWord := by
  cases h with
  | expression h =>
    obtain ⟨t, us, rfl, ht⟩ := h.begins
    exact ⟨t, us, rfl, .inl ht, ht.ne_keyword (by decide), ht.ne_keyword (by decide),
      ht.ne_keyword (by decide)⟩
  | blockStatement h =>
    cases h with
    | block hl => exact ⟨_, _, rfl, by simp [BeginsDeclaration, hl]⟩
  | print hw | ret hw | loop hw | ifThen hw | ifElse hw | forLoop hw =>
    exact ⟨_, _, rfl, by simp [BeginsDeclaration, hw]⟩

theorem Forms.declaration_head {s : Stmt} (h : Forms .declaration ts s) :
    ∃ t us, ts = t :: us ∧ BeginsDeclaration t.kind := by
  cases h with
  | classDecl hw | funDecl hw => exact ⟨_, _, rfl, by simp [BeginsDeclaration, hw]⟩
  | varDecl h =>
    obtain ⟨word, us, rfl, hw, -⟩ := h.completes
    exact ⟨word, us, rfl, by simp [BeginsDeclaration, hw]⟩
  | statement h =>
    obtain ⟨t, us, rfl, ht, -⟩ := h.statement_head
    exact ⟨t, us, rfl, ht⟩

theorem Forms.declarations_noElse {ss : List Stmt} (h : Forms .declarations ts ss)
    (hrest : NoElse rest) : NoElse (ts ++ rest) := by
  cases h with
  | declarationsNil => exact hrest
  | declarationsCons h _ =>
    obtain ⟨t, us, rfl, ht⟩ := h.declaration_head
    intro t' ht'
    cases ht'
    exact ht.ne_else

theorem noElse_of_rightBrace {t : Token} (h : t.kind = .punct .rightBrace) :
    NoElse (t :: rest) := by
  intro t' ht'
  cases ht'
  rw [h]
  decide

/-- Every reading of the tokens `ts` as the clause `c` gives the tree `x`, if no `else` follows
that would belong to it. -/
def Forms.Completes : (c : Clause) → List Token → c.Tree → Prop
  | .declaration, ts, s => ∀ rest, NoElse rest →
      ∀ d, Gives (declarationOrFail d) (ts ++ rest) (.parsed s rest [])
  | .statement dangling, ts, s => ∀ rest, (dangling = true → NoElse rest) →
      ∀ d, Gives (Grammar.statement d) (ts ++ rest) (.parsed s rest [])
  | .function, ts, f => ∀ rest d role,
      Gives (Grammar.function d role) (ts ++ rest) (.parsed f rest [])
  | .block, ts, body => ∃ lbrace us, ts = lbrace :: us ∧ lbrace.kind = .punct .leftBrace ∧
      ∀ rest d, Gives (Grammar.block d) (us ++ rest) (.parsed body rest [])
  | .declarations, ts, ss => (∀ d, Gives (program d) ts (.parsed ss [] [])) ∧
      ∀ rbrace, rbrace.kind = .punct .rightBrace →
        ∀ rest d, Gives (Grammar.block d) (ts ++ rbrace :: rest) (.parsed ss rest [])
  | .methods, ts, ms => ∀ rbrace, rbrace.kind = .punct .rightBrace →
      ∀ rest d, Gives (methodList d) (ts ++ rbrace :: rest) (.parsed ms (rbrace :: rest) [])

namespace Forms.Completes

theorem ofStatement {dangling : Bool} {s : Stmt} (hf : Forms (.statement dangling) ts s)
    (h : Completes (.statement dangling) ts s) : Completes .declaration ts s := by
  intro rest hrest d
  cases d with
  | zero => exact .inl rfl
  | succ d =>
    obtain ⟨t, us, rfl, -, hclass, hfun, hvar⟩ := hf.statement_head
    have hnone : ∀ {kind : TokenKind}, t.kind ≠ kind →
        ∀ t' ∈ (t :: (us ++ rest)).head?, t'.kind ≠ kind := by
      intro kind hkind t' ht'
      cases ht'
      exact hkind
    rw [declarationOrFail]
    exact .step (accept_none (hnone hclass)) (.step (accept_none (hnone hfun))
      (.step (accept_none (hnone hvar)) (h rest (fun _ => hrest) d)))

theorem ofVarDeclaration {s : Stmt} (h : VarDeclaration ts s) : Completes .declaration ts s := by
  intro rest _ d
  cases d with
  | zero => exact .inl rfl
  | succ d =>
    obtain ⟨word, us, rfl, hw, hread⟩ := h.completes
    have hnone : ∀ {kind : TokenKind}, kind ≠ .keyword .varWord →
        ∀ t ∈ (word :: (us ++ rest)).head?, t.kind ≠ kind := by
      intro kind hkind t ht
      cases ht
      rw [hw]
      exact hkind.symm
    rw [declarationOrFail]
    exact .step (accept_none (hnone (by decide))) (.step (accept_none (hnone (by decide)))
      (.step (accept_head hw) (hread rest d)))

theorem funDecl {word : Token} {decl : FunctionDecl} (hw : word.kind = .keyword .funWord)
    (h : Completes .function ts decl) : Completes .declaration (word :: ts) (.function decl) := by
  intro rest _ d
  cases d with
  | zero => exact .inl rfl
  | succ d =>
    have hnone : ∀ t ∈ (word :: (ts ++ rest)).head?, t.kind ≠ .keyword .classWord := by
      intro t ht
      cases ht
      rw [hw]
      decide
    rw [declarationOrFail]
    exact .step (accept_none hnone) (.step (accept_head hw) (h rest d _).map)

/-- What a class declaration reads from the opening brace on. -/
theorem classBody {name lbrace rbrace : Token} {superclass : Option Expr}
    {methods : List FunctionDecl} (hl : lbrace.kind = .punct .leftBrace)
    (hm : Completes .methods ts methods) (hr : rbrace.kind = .punct .rightBrace) (d : Nat) :
    Gives (do
        let _ ← expect (.punct .leftBrace) .classBodyStart
        let methods ← methodList d
        let _ ← expect (.punct .rightBrace) .classBodyEnd
        pure (Stmt.classDecl name superclass methods)) (lbrace :: (ts ++ rbrace :: rest))
      (.parsed (.classDecl name superclass methods) rest []) :=
  .step (expect_head hl) (.bind (hm rbrace hr rest d) (.step (expect_head hr) (.pure _ _)))

theorem classDecl {word name lbrace rbrace : Token} {us : List Token} {superclass : Option Expr}
    {methods : List FunctionDecl} (hw : word.kind = .keyword .classWord)
    (hn : name.kind = .identifier) (hs : SuperclassClause us superclass)
    (hl : lbrace.kind = .punct .leftBrace) (hm : Completes .methods ts methods)
    (hr : rbrace.kind = .punct .rightBrace) :
    Completes .declaration (word :: name :: (us ++ lbrace :: (ts ++ [rbrace])))
      (.classDecl name superclass methods) := by
  intro rest _ d
  have happend : word :: name :: (us ++ lbrace :: (ts ++ [rbrace])) ++ rest
      = word :: name :: (us ++ lbrace :: (ts ++ rbrace :: rest)) := by simp
  rw [happend]
  match d with
  | 0 => exact .inl rfl
  | 1 =>
    rw [declarationOrFail, classDeclaration]
    exact .step (accept_head hw) (.inl rfl)
  | d + 2 =>
    rw [declarationOrFail, classDeclaration]
    refine .step (accept_head hw) (.step (expect_head hn) ?_)
    cases hs with
    | none =>
      refine .step (accept_none fun t ht => ?_) (.step rfl (classBody hl hm hr d))
      cases ht
      rw [hl]
      decide
    | some hless hsuper =>
      exact .step (accept_head hless) (.step (expect_head hsuper) (.step rfl
        (classBody hl hm hr d)))

/-- What a function reads after its parameters. -/
theorem functionBody {name rparen : Token} {params : List Token} {body : List Stmt}
    {role : FunctionRole} (hr : rparen.kind = .punct .rightParen)
    (hb : Completes .block ts body) (d : Nat) :
    Gives (do
        let _ ← expect (.punct .rightParen) .parametersEnd
        let _ ← expect (.punct .leftBrace) (.functionBodyStart role)
        let body ← Grammar.block d
        pure (FunctionDecl.mk name params body)) (rparen :: (ts ++ rest))
      (.parsed ⟨name, params, body⟩ rest []) := by
  obtain ⟨lbrace, us, rfl, hl, hread⟩ := hb
  exact .step (expect_head hr) (.step (expect_head hl) (.bind (hread rest d) (.pure _ _)))

theorem function {name lparen rparen : Token} {us params : List Token} {body : List Stmt}
    (hn : name.kind = .identifier) (hl : lparen.kind = .punct .leftParen)
    (hp : ParameterClause us params) (hr : rparen.kind = .punct .rightParen)
    (hb : Completes .block ts body) :
    Completes .function (name :: lparen :: (us ++ rparen :: ts)) ⟨name, params, body⟩ := by
  intro rest d role
  have happend : name :: lparen :: (us ++ rparen :: ts) ++ rest
      = name :: lparen :: (us ++ rparen :: (ts ++ rest)) := by simp
  rw [happend]
  cases d with
  | zero => exact .inl rfl
  | succ d =>
    rw [Grammar.function]
    refine .step (expect_head hn) (.step (expect_head hl) ?_)
    cases hp with
    | none =>
      refine .step (sees_head _ _ _) ?_
      rw [hr, decide_eq_true rfl]
      exact .step rfl (functionBody hr hb d)
    | some hp hcount =>
      obtain ⟨p, us, rfl, hk⟩ := hp.head
      have hparen : ∀ t ∈ (rparen :: (ts ++ rest)).head?, t.kind = .punct .rightParen := by
        intro t ht
        cases ht
        exact hr
      refine .step (sees_head _ _ _) ?_
      rw [hk, decide_eq_false (by decide)]
      exact .bind (hp.completes hparen (by omega) d) (functionBody hr hb d)

theorem block {lbrace rbrace : Token} {body : List Stmt} (hl : lbrace.kind = .punct .leftBrace)
    (h : Completes .declarations ts body) (hr : rbrace.kind = .punct .rightBrace) :
    Completes .block (lbrace :: (ts ++ [rbrace])) body := by
  refine ⟨_, _, rfl, hl, fun rest d => ?_⟩
  rw [List.append_assoc]
  exact h.2 rbrace hr rest d

theorem declarationsNil : Completes .declarations [] [] := by
  constructor
  · intro d
    cases d with
    | zero => exact .inl rfl
    | succ d => exact .inr rfl
  · intro rbrace hr rest d
    cases d with
    | zero => exact .inl rfl
    | succ d =>
      rw [Grammar.block]
      refine .step (peek_head _ _) ?_
      simp only [hr, if_true]
      exact .step (advance_head _ _) (.pure _ _)

theorem declaration {s : Stmt} (h : Completes .declaration ts s) (hrest : NoElse rest) (d : Nat) :
    Gives (Grammar.declaration d) (ts ++ rest) (.parsed (some s) rest []) := by
  cases d with
  | zero => exact .inl rfl
  | succ d =>
    rw [Grammar.declaration]
    exact (h rest hrest d).recover

theorem declarationsCons {us : List Token} {s : Stmt} {ss : List Stmt}
    (hf : Forms .declaration us s) (hfs : Forms .declarations ts ss)
    (h : Completes .declaration us s) (hs : Completes .declarations ts ss) :
    Completes .declarations (us ++ ts) (s :: ss) := by
  obtain ⟨t, us, rfl, ht⟩ := hf.declaration_head
  constructor
  · intro d
    cases d with
    | zero => exact .inl rfl
    | succ d =>
      have hrest : NoElse ts := by
        have hts : NoElse (ts ++ []) := hfs.declarations_noElse nofun
        rwa [List.append_nil] at hts
      rw [program]
      exact .step (peek_head _ _) (.bind (h.declaration hrest d) (.bind (hs.1 d) (.pure _ _)))
  · intro rbrace hr rest d
    rw [List.append_assoc]
    cases d with
    | zero => exact .inl rfl
    | succ d =>
      rw [Grammar.block]
      refine .step (peek_head _ _) ?_
      simp only [ht.ne_rightBrace, if_false]
      exact .bind (h.declaration (hfs.declarations_noElse (noElse_of_rightBrace hr)) d)
        (.bind (hs.2 rbrace hr rest d) (.pure _ _))

theorem methodsNil : Completes .methods [] [] := by
  intro rbrace hr rest d
  cases d with
  | zero => exact .inl rfl
  | succ d =>
    rw [methodList]
    refine .step (peek_head _ _) ?_
    simp only [hr, if_true]
    exact .pure _ _

theorem methodsCons {us : List Token} {m : FunctionDecl} {ms : List FunctionDecl}
    (hf : Forms .function us m) (h : Completes .function us m) (hs : Completes .methods ts ms) :
    Completes .methods (us ++ ts) (m :: ms) := by
  intro rbrace hr rest d
  rw [List.append_assoc]
  cases d with
  | zero => exact .inl rfl
  | succ d =>
    cases hf with
    | function hn =>
      rw [methodList]
      refine .step (peek_head _ _) ?_
      simp only [hn, reduceCtorEq, if_false]
      exact .bind (h _ d _) (.bind (hs rbrace hr rest d) (.pure _ _))

theorem expression {s : Stmt} (h : ExpressionStatement ts s) :
    Completes (.statement false) ts s := by
  intro rest _ d
  cases d with
  | zero => exact .inl rfl
  | succ d =>
    obtain ⟨t, us, hts, ht⟩ := h.begins
    have hread : Gives (expressionStatement d) (ts ++ rest) (.parsed s rest []) := h.completes d
    subst hts
    rw [Grammar.statement]
    refine .step (peek_head _ _) ?_
    dsimp only
    split
    · exact absurd ‹_› (ht.ne_keyword (by decide))
    · exact absurd ‹_› (ht.ne_keyword (by decide))
    · exact absurd ‹_› (ht.ne_keyword (by decide))
    · exact absurd ‹_› (ht.ne_keyword (by decide))
    · exact absurd ‹_› (ht.ne_punct (by decide))
    · exact absurd ‹_› (ht.ne_keyword (by decide))
    · exact hread

theorem print {word semicolon : Token} {value : Expr} (hw : word.kind = .keyword .printWord)
    (hv : Derives .expression ts value) (hs : semicolon.kind = .punct .semicolon) :
    Completes (.statement false) (word :: (ts ++ [semicolon])) (.print word value) := by
  intro rest _ d
  rw [List.cons_append, List.append_assoc]
  cases d with
  | zero => exact .inl rfl
  | succ d =>
    rw [Grammar.statement]
    refine .step (peek_head _ _) ?_
    simp only [hw]
    unfold printStatement
    exact .step (advance_head _ _) (.bind (hv.expression_completes (Closes.ends (.inl hs)) d)
      (.step (expect_head hs) (.pure _ _)))

theorem ret {word semicolon : Token} {value : Option Expr} (hw : word.kind = .keyword .returnWord)
    (hv : DerivesOption ts value) (hs : semicolon.kind = .punct .semicolon) :
    Completes (.statement false) (word :: (ts ++ [semicolon])) (.ret word value) := by
  intro rest _ d
  rw [List.cons_append, List.append_assoc]
  cases d with
  | zero => exact .inl rfl
  | succ d =>
    rw [Grammar.statement]
    refine .step (peek_head _ _) ?_
    simp only [hw]
    unfold returnStatement
    exact .step (advance_head _ _) (.bind (hv.completes hs (.inl rfl) d)
      (.step (expect_head hs) (.pure _ _)))

theorem blockStatement {body : List Stmt} (h : Completes .block ts body) :
    Completes (.statement false) ts (.block body) := by
  intro rest _ d
  obtain ⟨lbrace, us, rfl, hl, hread⟩ := h
  cases d with
  | zero => exact .inl rfl
  | succ d =>
    rw [Grammar.statement]
    refine .step (peek_head _ _) ?_
    simp only [hl]
    exact .step (advance_head _ _) (hread rest d).map

variable {us : List Token} {dangling : Bool}

theorem loop {word lparen rparen : Token} {condition : Expr} {body : Stmt}
    (hw : word.kind = .keyword .whileWord) (hl : lparen.kind = .punct .leftParen)
    (hc : Derives .expression us condition) (hr : rparen.kind = .punct .rightParen)
    (hb : Completes (.statement dangling) ts body) :
    Completes (.statement dangling) (word :: lparen :: (us ++ rparen :: ts))
      (.loop condition body) := by
  intro rest hrest d
  have happend : word :: lparen :: (us ++ rparen :: ts) ++ rest
      = word :: lparen :: (us ++ rparen :: (ts ++ rest)) := by simp
  rw [happend]
  match d with
  | 0 => exact .inl rfl
  | 1 =>
    rw [Grammar.statement]
    refine .step (peek_head _ _) ?_
    simp only [hw]
    exact .step (advance_head _ _) (.inl rfl)
  | d + 2 =>
    rw [Grammar.statement]
    refine .step (peek_head _ _) ?_
    simp only [hw]
    rw [whileStatement]
    exact .step (advance_head _ _) (.step (expect_head hl)
      (.bind (hc.expression_completes (Closes.ends (.inr (.inl hr))) d)
        (.step (expect_head hr) (.bind (hb rest hrest d) (.pure _ _)))))

/-- The condition and the branch of an `if`, before what may follow the branch. -/
theorem ifCondition {word lparen rparen : Token} {vs : List Token} {condition : Expr}
    {thenBranch : Stmt} {r : Reading Stmt} (hw : word.kind = .keyword .ifWord)
    (hl : lparen.kind = .punct .leftParen) (hc : Derives .expression us condition)
    (hr : rparen.kind = .punct .rightParen) (ht : Completes (.statement dangling) ts thenBranch)
    (hvs : dangling = true → NoElse vs)
    (hread : ∀ d, Gives (do
        match ← accept (.keyword .elseWord) with
        | some _ => return .conditional condition thenBranch (some (← Grammar.statement d))
        | none => pure (.conditional condition thenBranch none)) vs r) (d : Nat) :
    Gives (Grammar.statement d) (word :: lparen :: (us ++ rparen :: (ts ++ vs))) r := by
  match d with
  | 0 => exact .inl rfl
  | 1 =>
    rw [Grammar.statement]
    refine .step (peek_head _ _) ?_
    simp only [hw]
    exact .step (advance_head _ _) (.inl rfl)
  | d + 2 =>
    rw [Grammar.statement]
    refine .step (peek_head _ _) ?_
    simp only [hw]
    rw [ifStatement]
    exact .step (advance_head _ _) (.step (expect_head hl)
      (.bind (hc.expression_completes (Closes.ends (.inr (.inl hr))) d)
        (.step (expect_head hr) (.bind (ht vs hvs d) (hread d)))))

theorem ifThen {word lparen rparen : Token} {condition : Expr} {thenBranch : Stmt}
    (hw : word.kind = .keyword .ifWord) (hl : lparen.kind = .punct .leftParen)
    (hc : Derives .expression us condition) (hr : rparen.kind = .punct .rightParen)
    (ht : Completes (.statement dangling) ts thenBranch) :
    Completes (.statement true) (word :: lparen :: (us ++ rparen :: ts))
      (.conditional condition thenBranch none) := by
  intro rest hrest d
  have happend : word :: lparen :: (us ++ rparen :: ts) ++ rest
      = word :: lparen :: (us ++ rparen :: (ts ++ rest)) := by simp
  rw [happend]
  exact ifCondition hw hl hc hr ht (fun _ => hrest rfl)
    (fun d => .step (accept_none (hrest rfl)) (.pure _ _)) d

theorem ifElse {word lparen rparen elseWord : Token} {vs : List Token} {condition : Expr}
    {thenBranch elseBranch : Stmt} (hw : word.kind = .keyword .ifWord)
    (hl : lparen.kind = .punct .leftParen) (hc : Derives .expression us condition)
    (hr : rparen.kind = .punct .rightParen) (ht : Completes (.statement false) ts thenBranch)
    (he : elseWord.kind = .keyword .elseWord) (hs : Completes (.statement dangling) vs elseBranch) :
    Completes (.statement dangling) (word :: lparen :: (us ++ rparen :: (ts ++ elseWord :: vs)))
      (.conditional condition thenBranch (some elseBranch)) := by
  intro rest hrest d
  have happend : word :: lparen :: (us ++ rparen :: (ts ++ elseWord :: vs)) ++ rest
      = word :: lparen :: (us ++ rparen :: (ts ++ elseWord :: (vs ++ rest))) := by simp
  rw [happend]
  exact ifCondition hw hl hc hr ht (fun h => absurd h Bool.false_ne_true)
    (fun d => .step (accept_head he) (.bind (hs rest hrest d) (.pure _ _))) d

theorem forLoop {word lparen semicolon rparen : Token} {vs ws : List Token}
    {initializer : Option Stmt} {condition increment : Option Expr} {body : Stmt}
    (hw : word.kind = .keyword .forWord) (hl : lparen.kind = .punct .leftParen)
    (hi : ForInitializer us initializer) (hc : DerivesOption vs condition)
    (hs : semicolon.kind = .punct .semicolon) (hn : DerivesOption ws increment)
    (hr : rparen.kind = .punct .rightParen) (hb : Completes (.statement dangling) ts body) :
    Completes (.statement dangling)
      (word :: lparen :: (us ++ (vs ++ semicolon :: (ws ++ rparen :: ts))))
      (withInitializer (.loop (condition.getD (.literal .true)) (withIncrement body increment))
        initializer) := by
  intro rest hrest d
  have happend : word :: lparen :: (us ++ (vs ++ semicolon :: (ws ++ rparen :: ts))) ++ rest
      = word :: lparen :: (us ++ (vs ++ semicolon :: (ws ++ rparen :: (ts ++ rest)))) := by simp
  rw [happend, ← forLoop_eq]
  match d with
  | 0 => exact .inl rfl
  | 1 =>
    rw [Grammar.statement]
    refine .step (peek_head _ _) ?_
    simp only [hw]
    exact .step (advance_head _ _) (.inl rfl)
  | d + 2 =>
    rw [Grammar.statement]
    refine .step (peek_head _ _) ?_
    simp only [hw]
    rw [forStatement]
    exact .step (advance_head _ _) (.step (expect_head hl) (.bind (hi.completes d)
      (.bind (hc.completes hs (.inl rfl) d) (.step (expect_head hs)
        (.bind (hn.completes hr (.inr rfl) d) (.step (expect_head hr)
          (.bind (hb rest hrest d) (.pure _ _))))))))

end Forms.Completes

theorem Forms.completes {c : Clause} {x : c.Tree} (h : Forms c ts x) : Forms.Completes c ts x := by
  induction h with
  | classDecl hw hn hs hl _ hr ih => exact .classDecl hw hn hs hl ih hr
  | funDecl hw _ ih => exact .funDecl hw ih
  | varDecl h => exact .ofVarDeclaration h
  | statement h ih => exact .ofStatement h ih
  | function hn hl hp hr _ ih => exact .function hn hl hp hr ih
  | block hl _ hr ih => exact .block hl ih hr
  | declarationsNil => exact .declarationsNil
  | declarationsCons h hs ih ihs => exact .declarationsCons h hs ih ihs
  | methodsNil => exact .methodsNil
  | methodsCons h _ ih ihs => exact .methodsCons h ih ihs
  | expression h => exact .expression h
  | print hw hv hs => exact .print hw hv hs
  | ret hw hv hs => exact .ret hw hv hs
  | blockStatement _ ih => exact .blockStatement ih
  | loop hw hl hc hr _ ih => exact .loop hw hl hc hr ih
  | ifThen hw hl hc hr _ ih => exact .ifThen hw hl hc hr ih
  | ifElse hw hl hc hr _ he _ iht ihe => exact .ifElse hw hl hc hr iht he ihe
  | forLoop hw hl hi hc hs hn hr _ ih => exact .forLoop hw hl hi hc hs hn hr ih

/-! ## Programs -/

theorem beforeEnd_end {before : List Token} {eof : Token} (hbefore : ∀ t ∈ before, t.kind ≠ .eof)
    (heof : eof.kind = .eof) : beforeEnd (before ++ [eof]) = before := by
  unfold beforeEnd
  rw [List.takeWhile_append_of_pos fun t ht => decide_eq_true (hbefore t ht),
    List.takeWhile_cons_of_neg (by simp [heof]), List.append_nil]

theorem endToken_end {before : List Token} {eof : Token} (hbefore : ∀ t ∈ before, t.kind ≠ .eof)
    (heof : eof.kind = .eof) : endToken (before ++ [eof]) = eof := by
  have hnone : before.find? (fun t => t.kind = .eof) = none := by
    rw [List.find?_eq_none]
    intro t ht
    simpa using hbefore t ht
  unfold endToken
  rw [List.find?_append, hnone, Option.none_or, List.find?_cons_of_pos (by simpa using heof)]

theorem parse_error_ne_nil {ts : List Token} {errors : List CompileError}
    (h : parse ts = .error errors) : errors ≠ [] := by
  have hdepth := program_depthFor (beforeEnd ts)
  simp only [parse, readAll] at h
  split at h
  · cases h
  · rename_i faults hfaults hread
    cases h
    simpa using hfaults
  · cases h
    simp
  · exact absurd ‹_› hdepth

theorem parse_ok_iff {ts : List Token} {program : List Stmt} :
    parse ts = .ok program ↔ DerivesProgram (beforeEnd ts) program := by
  constructor
  · intro h
    simp only [parse, readAll] at h
    split at h <;> cases h
    rename_i rest hread
    exact (program_sound _ hread).2
  · intro h
    have hread : Reads (Grammar.program (depthFor (beforeEnd ts))) (beforeEnd ts) program [] :=
      ((Forms.completes h).1 _).resolve_left (program_depthFor _)
    unfold Reads at hread
    simp only [parse, readAll, hread]

/-- `parse` accepts the token lists that derive a program up to their first end token, with the
tree of the derivation, and reports an error at least for every other list. -/
theorem parse_iff (ts : List Token) :
    (∀ program, parse ts = .ok program ↔
      DerivesProgram (ts.takeWhile fun t => t.kind ≠ .eof) program) ∧
    ((¬ ∃ program, DerivesProgram (ts.takeWhile fun t => t.kind ≠ .eof) program) →
      ∃ errors, parse ts = .error errors ∧ errors ≠ []) := by
  refine ⟨fun program => parse_ok_iff, fun hnone => ?_⟩
  cases h : parse ts with
  | ok program => exact absurd ⟨program, parse_ok_iff.1 h⟩ hnone
  | error errors => exact ⟨errors, rfl, parse_error_ne_nil h⟩

end Lox.Grammar
