import Lox.Proofs.Grammar.Complete
import Lox.Proofs.Grammar.Viable

/-!
# Phrases of the relaxed grammar pass

The other direction: a phrase of the relaxed grammar is read to its end with nothing but notes,
before everything that cannot continue it. `Passes p follow ts` says so of the readers `p` and the
tokens `ts`; what is read and which notes are made depends neither on what follows nor on the depth.

The relaxed grammar leaves open to which `if` an `else` belongs, and a reader gives it to the
nearest. `Attached` is the form of a statement that the reader finds, and every statement has that
form (`Attached.attach`).
-/

set_option autoImplicit false

namespace Lox.Parse

open Grammar

variable {α β : Type}

/-- Nothing but notes, all of them at tokens. -/
def AtTokens (fs : List Fault) : Prop :=
  ∀ f ∈ fs, f.cause.isNote = true ∧ f.token ≠ none

theorem AtTokens.nil : AtTokens [] := by
  intro f hf
  cases hf

theorem AtTokens.append {fs fs' : List Fault} (h : AtTokens fs) (h' : AtTokens fs') :
    AtTokens (fs ++ fs') := by
  intro f hf
  rcases List.mem_append.1 hf with hf | hf
  · exact h f hf
  · exact h' f hf

theorem AtTokens.find? {fs : List Fault} (h : AtTokens fs) :
    fs.find? (fun f => !f.cause.isNote) = none :=
  find?_notes fun f hf => (h f hf).1

/-- The readers `p` read `ts` with nothing but notes before any rest that `follow` holds of. -/
def Passes (p : Nat → Parse α) (follow : List Token → Prop) (ts : List Token) : Prop :=
  ∃ a fs, AtTokens fs ∧ ∀ rest, follow rest → ∀ d, Gives (p d) (ts ++ rest) (.parsed a rest fs)

/-- Whatever follows. -/
abbrev Anywhere (_ : List Token) : Prop := True

namespace Passes

variable {p q : Nat → Parse α} {f : Nat → α → Parse β} {step : Parse α}
variable {follow follow₁ : List Token → Prop} {us ts : List Token} {t : Token} {a : α}

theorem mono (h : Passes p follow₁ ts) (hfollow : ∀ rest, follow rest → follow₁ rest) :
    Passes p follow ts := by
  obtain ⟨a, fs, hfs, h⟩ := h
  exact ⟨a, fs, hfs, fun rest hrest => h rest (hfollow rest hrest)⟩

theorem succ (hp : ∀ d, p (d + 1) = q d) (hzero : p 0 = exhausted) (h : Passes q follow ts) :
    Passes p follow ts := by
  obtain ⟨a, fs, hfs, h⟩ := h
  refine ⟨a, fs, hfs, fun rest hrest d => ?_⟩
  cases d with
  | zero => exact .inl (by rw [hzero]; rfl)
  | succ d =>
    rw [hp]
    exact h rest hrest d

protected theorem pure (a : α) : Passes (fun _ => (pure a : Parse α)) follow [] :=
  ⟨a, [], .nil, fun rest _ _ => .pure a rest⟩

protected theorem bind (hp : Passes p follow₁ us)
    (hf : ∀ a, Passes (fun d => f d a) follow ts)
    (hfollow : ∀ rest, follow rest → follow₁ (ts ++ rest)) :
    Passes (fun d => p d >>= f d) follow (us ++ ts) := by
  obtain ⟨a, fs, hfs, hp⟩ := hp
  obtain ⟨b, fs', hfs', hf⟩ := hf a
  refine ⟨b, fs ++ fs', hfs.append hfs', fun rest hrest d => ?_⟩
  rw [List.append_assoc]
  exact .bind_parsed (hp _ (hfollow rest hrest) d) (hf rest hrest d)

/-- The second reader takes nothing. -/
theorem bindNil (hp : Passes p follow₁ us) (hf : ∀ a, Passes (fun d => f d a) follow [])
    (hfollow : ∀ rest, follow rest → follow₁ rest) :
    Passes (fun d => p d >>= f d) follow us := by
  have h := hp.bind hf hfollow
  rwa [List.append_nil] at h

protected theorem map {g : α → β} (hp : Passes p follow us) :
    Passes (fun d => g <$> p d) follow us :=
  bindNil (f := fun _ a => Pure.pure (g a)) hp (fun a => .pure (g a)) fun _ h => h

/-- A token is taken. -/
theorem take (hstep : ∀ rest, Reads step (t :: rest) a rest)
    (h : Passes (fun d => f d a) follow ts) :
    Passes (fun d => step >>= f d) follow (t :: ts) := by
  obtain ⟨b, fs, hfs, h⟩ := h
  exact ⟨b, fs, hfs, fun rest hrest d => .step (hstep (ts ++ rest)) (h rest hrest d)⟩

/-- Nothing is taken. -/
theorem look (hstep : ∀ rest, follow rest → Reads step (ts ++ rest) a (ts ++ rest))
    (h : Passes (fun d => f d a) follow ts) : Passes (fun d => step >>= f d) follow ts := by
  obtain ⟨b, fs, hfs, h⟩ := h
  exact ⟨b, fs, hfs, fun rest hrest d => .step (hstep rest hrest) (h rest hrest d)⟩

theorem pureBind (h : Passes (fun d => f d a) follow ts) :
    Passes (fun d => Pure.pure a >>= f d) follow ts :=
  look (fun _ _ => reads_pure.2 ⟨rfl, rfl⟩) h

theorem peek {f : Nat → Option Token → Parse β}
    (h : Passes (fun d => f d (some t)) follow (t :: ts)) :
    Passes (fun d => Parse.peek >>= f d) follow (t :: ts) :=
  look (fun rest _ => peek_head t (ts ++ rest)) h

theorem advance {f : Nat → Unit → Parse β} (h : Passes (fun d => f d ()) follow ts) :
    Passes (fun d => Parse.advance >>= f d) follow (t :: ts) :=
  take (advance_head t) h

theorem sees {kind : TokenKind} {f : Nat → Bool → Parse β}
    (h : Passes (fun d => f d (decide (t.kind = kind))) follow (t :: ts)) :
    Passes (fun d => Parse.sees kind >>= f d) follow (t :: ts) :=
  look (fun rest _ => sees_head kind t (ts ++ rest)) h

theorem accept {kind : TokenKind} {f : Nat → Option Token → Parse β} (ht : t.kind = kind)
    (h : Passes (fun d => f d (some t)) follow ts) :
    Passes (fun d => Parse.accept kind >>= f d) follow (t :: ts) :=
  take (fun _ => accept_head ht) h

/-- Another token comes first. -/
theorem skip {kind : TokenKind} {f : Nat → Option Token → Parse β} (ht : t.kind ≠ kind)
    (h : Passes (fun d => f d none) follow (t :: ts)) :
    Passes (fun d => Parse.accept kind >>= f d) follow (t :: ts) := by
  refine look (fun rest _ => accept_none fun t' ht' => ?_) h
  cases ht'
  exact ht

/-- The token does not follow. -/
theorem stop {kind : TokenKind} {f : Nat → Option Token → Parse β}
    (hfollow : ∀ rest, follow rest → ∀ t ∈ rest.head?, t.kind ≠ kind)
    (h : Passes (fun d => f d none) follow []) :
    Passes (fun d => Parse.accept kind >>= f d) follow [] :=
  look (fun rest hrest => accept_none (hfollow rest hrest)) h

theorem expect {kind : TokenKind} {cause : SyntaxCause} {f : Nat → Token → Parse β}
    (ht : t.kind = kind) (h : Passes (fun d => f d t) follow ts) :
    Passes (fun d => Parse.expect kind cause >>= f d) follow (t :: ts) :=
  take (fun _ => expect_head ht) h

theorem note {cause : SyntaxCause} {f : Nat → Unit → Parse β} (hc : cause.isNote = true)
    (h : Passes (fun d => f d ()) follow ts) :
    Passes (fun d => noteAt (some t) cause >>= f d) follow ts := by
  have hnote : Passes (fun _ => noteAt (some t) cause) Anywhere [] := by
    refine ⟨(), [⟨some t, cause⟩], ?_, fun rest _ d => .inr rfl⟩
    intro f hf
    rw [List.mem_singleton] at hf
    subst hf
    exact ⟨hc, Option.some_ne_none t⟩
  exact hnote.bind (fun _ => h) fun _ _ => trivial

theorem recover (h : Passes p follow ts) : Passes (fun d => Parse.recover (p d)) follow ts := by
  obtain ⟨a, fs, hfs, h⟩ := h
  exact ⟨some a, fs, hfs, fun rest hrest d => (h rest hrest d).recover⟩

end Passes

end Lox.Parse

namespace Lox.Grammar.Relaxed

open Parse

variable {us ts : List Token}

/-! ## Expressions -/

theorem IsLeaf.leaf? {t : Token} (h : IsLeaf t.kind) : ∃ e, leaf? t = some e := by
  unfold Grammar.leaf?
  cases hkind : t.kind with
  | keyword word =>
    rw [hkind] at h
    rcases h with rfl | rfl | rfl | rfl <;> exact ⟨_, rfl⟩
  | punct p =>
    rw [hkind] at h
    exact h.elim
  | eof =>
    rw [hkind] at h
    exact h.elim
  | _ => exact ⟨_, rfl⟩

theorem IsLeaf.begins {k : TokenKind} (h : IsLeaf k) : Begins k := by
  cases k with
  | keyword word =>
    rcases h with h | h | h | h <;> rw [h] <;> simp [Begins]
  | punct p => exact h.elim
  | eof => exact h.elim
  | _ => trivial

/-- A phrase that is not the rest of one begins with a token that begins an expression. -/
theorem Derives.begins {p : Phrase} (h : Derives p ts) :
    match p with
    | .operations _ | .suffixes => True
    | _ => ∃ t us, ts = t :: us ∧ Begins t.kind := by
  induction h with
  | operationsNil | operationsCons | suffixesNil | callEmpty | callWith | get => trivial
  | value _ ih | tighter _ _ ih | tightest _ _ ih | unaryCall _ ih | argument _ ih => exact ih
  | assignment _ _ _ ih | level _ _ ih | call _ _ ih | argumentsCons _ _ _ ih =>
    obtain ⟨t, us, rfl, ht⟩ := ih
    exact ⟨t, _, rfl, ht⟩
  | unary hop => exact ⟨_, _, rfl, by rcases hop with h | h <;> rw [h] <;> simp [Begins]⟩
  | leaf h => exact ⟨_, _, rfl, h.begins⟩
  | grouping h => exact ⟨_, _, rfl, by rw [h]; simp [Begins]⟩
  | super h => exact ⟨_, _, rfl, by rw [h]; simp [Begins]⟩

theorem Derives.expression_begins (h : Derives .expression ts) :
    ∃ t us, ts = t :: us ∧ Begins t.kind :=
  h.begins

theorem Derives.primary_head (h : Derives .primary ts) :
    ∃ t us, ts = t :: us ∧ isUnary t = false := by
  have hnot : ∀ {t : Token}, (t.kind = .punct .bang ∨ t.kind = .punct .minus → False) →
      isUnary t = false := fun h => Bool.eq_false_iff.2 fun hu => h (isUnary_iff.1 hu)
  cases h with
  | leaf h =>
    refine ⟨_, _, rfl, hnot ?_⟩
    rintro (hk | hk) <;> rw [hk] at h <;> exact h
  | grouping h | super h =>
    refine ⟨_, _, rfl, hnot ?_⟩
    rintro (hk | hk) <;> rw [hk] at h <;> cases h

/-- What follows the operands of a level does not continue the last of them. -/
theorem Derives.operations_stops {l : Level} {rest : List Token} (h : Derives (.operations l) ts)
    (hrest : Stops l.rank rest) : Stops (l.rank + 1) (ts ++ rest) := by
  cases h with
  | operationsNil => exact hrest.mono (Nat.le_succ _)
  | operationsCons hop => exact hop.stops

/-- What closes the arguments of a call. -/
def ClosesCall (rest : List Token) : Prop :=
  ∀ t ∈ rest.head?, t.kind = .punct .rightParen

theorem ClosesCall.ends {rest : List Token} (h : ClosesCall rest) : Ends rest := by
  cases rest with
  | nil => exact ⟨fun _ ht => (by cases ht), fun _ ht => (by cases ht)⟩
  | cons t rest => exact Closes.ends (.inr (.inl (h t rfl)))

theorem ClosesCall.noComma {rest : List Token} (h : ClosesCall rest) :
    ∀ t ∈ rest.head?, t.kind ≠ .punct .comma := by
  intro t ht
  rw [h t ht]
  decide

theorem closesCall_cons {t : Token} {rest : List Token} (ht : t.kind = .punct .rightParen) :
    ClosesCall (t :: rest) := by
  intro t' ht'
  cases ht'
  exact ht

theorem stops_equal {t : Token} {rest : List Token} (ht : t.kind = .punct .equal) :
    Stops 0 (t :: rest) := by
  intro t' ht'
  cases ht'
  rw [ht]
  rintro (h | h | ⟨l, -, hop⟩)
  · cases h
  · cases h
  · cases hop

/-- How the reader of a phrase passes over its tokens. -/
def Phrase.Passed : Phrase → List Token → Prop
  | .expression, ts => Passes Grammar.expression Ends ts
  | .level l, ts => Passes (fun d => binary d l) (Stops l.rank) ts
  | .operations l, ts => ∀ left, Passes (fun d => binaryTail d l left) (Stops l.rank) ts
  | .operand l, ts => Passes (fun d => Grammar.operand d l) (Stops (l.rank + 1)) ts
  | .unary, ts | .call, ts => Passes Grammar.unary (Stops 6) ts
  | .suffixes, ts => ∀ callee, Passes (fun d => callTail d callee) (Stops 6) ts
  | .primary, ts => Passes Grammar.primary Anywhere ts
  | .arguments, ts => ∀ count, Passes (fun d => argumentList d count) ClosesCall ts

/-- A list with a cap on its entries notes at the next entry that there are too many. -/
theorem counted_passes {α : Type} {p : Nat → Parse α} {follow : List Token → Prop} {t : Token}
    {count : Nat} {cause : SyntaxCause} (hc : cause.isNote = true)
    (h : Passes p follow (t :: ts)) :
    Passes (fun d => if maxArguments ≤ count then (do let t ← peek; noteAt t cause; p d) else p d)
      follow (t :: ts) := by
  by_cases hcount : maxArguments ≤ count
  · simp only [hcount, if_true]
    exact .peek (.note hc h)
  · simp only [hcount, if_false]
    exact h

namespace Phrase.Passed

theorem value (h : Passed (.level .or) ts) : Passed .expression ts := by
  refine .succ (fun d => by rw [Grammar.expression]) rfl ?_
  exact h.bindNil (fun left => .stop (fun rest hrest => hrest.2) (.pure left))
    fun rest hrest => hrest.1

theorem assignment {equal : Token} (h₁ : Passed (.level .or) us)
    (he : equal.kind = .punct .equal) (h₂ : Passed .expression ts) :
    Passed .expression (us ++ equal :: ts) := by
  refine .succ (fun d => by rw [Grammar.expression]) rfl ?_
  refine h₁.bind (fun left => .accept he ?_) fun rest _ => stops_equal he
  refine h₂.bindNil (fun value => ?_) fun _ hrest => hrest
  cases assignment? left value with
  | some assigned => exact .pure assigned
  | none => exact .note rfl (.pure left)

theorem level {l : Level} (h : Passed (.operand l) us) (hd : Derives (.operations l) ts)
    (hs : Passed (.operations l) ts) : Passed (.level l) (us ++ ts) := by
  refine .succ (fun d => by rw [Grammar.binary]) rfl ?_
  exact h.bind hs fun rest hrest => hd.operations_stops hrest

theorem operationsNil {l : Level} : Passed (.operations l) [] := by
  intro left
  refine .succ (fun d => by rw [Grammar.binaryTail]) rfl ?_
  exact .look (fun rest hrest => acceptIf_none hrest.has) (.pure left)

theorem operationsCons {l : Level} {op : Token} (hop : Joins l op.kind)
    (h : Passed (.operand l) us) (hd : Derives (.operations l) ts)
    (hs : Passed (.operations l) ts) : Passed (.operations l) (op :: (us ++ ts)) := by
  intro left
  refine .succ (fun d => by rw [Grammar.binaryTail]) rfl ?_
  refine .take (fun rest => acceptIf_head (has_iff.2 hop)) ?_
  exact h.bind (fun right => hs _) fun rest hrest => hd.operations_stops hrest

theorem tighter {l l' : Level} (hl : l.tighter = some l') (h : Passed (.level l') ts) :
    Passed (.operand l) ts := by
  refine .succ (fun d => by rw [Grammar.operand]) rfl ?_
  simp only [hl]
  have hlevel : Passes (fun d => binary d l') (Stops l'.rank) ts := h
  rwa [Level.rank_tighter hl] at hlevel

theorem tightest {l : Level} (hl : l.tighter = none) (h : Passed .unary ts) :
    Passed (.operand l) ts := by
  refine .succ (fun d => by rw [Grammar.operand]) rfl ?_
  simp only [hl]
  rw [Level.rank_of_tighter_none hl]
  exact h

theorem unary {op : Token} (hop : op.kind = .punct .bang ∨ op.kind = .punct .minus)
    (h : Passed .unary ts) : Passed .unary (op :: ts) := by
  refine .succ (fun d => by rw [Grammar.unary]) rfl ?_
  refine .take (fun rest => acceptIf_head (isUnary_iff.2 hop)) ?_
  exact h.bindNil (fun right => .pure _) fun _ hrest => hrest

theorem call (hd : Derives .primary us) (h : Passed .primary us) (hs : Passed .suffixes ts) :
    Passed .call (us ++ ts) := by
  obtain ⟨t, us, rfl, ht⟩ := hd.primary_head
  refine .succ (fun d => by rw [Grammar.unary]) rfl ?_
  refine .look (fun rest _ => acceptIf_none fun t' ht' => ?_) ?_
  · cases ht'
    exact ht
  · exact h.bind hs fun _ _ => trivial

theorem suffixesNil : Passed .suffixes [] := by
  intro callee
  refine .succ (fun d => by rw [Grammar.callTail]) rfl ?_
  exact .stop (fun rest hrest => hrest.leftParen) (.stop (fun rest hrest => hrest.dot)
    (.pure callee))

theorem callEmpty {lparen rparen : Token} (hl : lparen.kind = .punct .leftParen)
    (hr : rparen.kind = .punct .rightParen) (hs : Passed .suffixes ts) :
    Passed .suffixes (lparen :: rparen :: ts) := by
  intro callee
  refine .succ (fun d => by rw [Grammar.callTail]) rfl (.accept hl (.sees ?_))
  simp only [hr, decide_true, if_true]
  exact .pureBind (.expect hr (hs _))

theorem callWith {lparen rparen : Token} (hl : lparen.kind = .punct .leftParen)
    (hd : Derives .arguments us) (ha : Passed .arguments us)
    (hr : rparen.kind = .punct .rightParen) (hs : Passed .suffixes ts) :
    Passed .suffixes (lparen :: (us ++ rparen :: ts)) := by
  intro callee
  obtain ⟨t, us, rfl, ht⟩ := hd.begins
  refine .succ (fun d => by rw [Grammar.callTail]) rfl (.accept hl (.sees ?_))
  rw [decide_eq_false (ht.ne_punct (by decide))]
  simp only [Bool.false_eq_true, if_false]
  exact (ha 0).bind (fun arguments => .expect hr (hs _)) fun rest _ => closesCall_cons hr

theorem get {dot name : Token} (hd : dot.kind = .punct .dot) (hn : name.kind = .identifier)
    (hs : Passed .suffixes ts) : Passed .suffixes (dot :: name :: ts) := by
  intro callee
  refine .succ (fun d => by rw [Grammar.callTail]) rfl ?_
  exact .skip (by rw [hd]; decide) (.accept hd (.expect hn (hs _)))

theorem argument (hd : Derives .expression ts) (h : Passed .expression ts) :
    Passed .arguments ts := by
  intro count
  obtain ⟨t, us, rfl, -⟩ := hd.expression_begins
  refine .succ (fun d => by rw [Grammar.argumentList]) rfl (counted_passes rfl ?_)
  exact h.bindNil (fun e => .stop (fun rest hrest => hrest.noComma) (.pure _))
    fun rest hrest => hrest.ends

theorem argumentsCons {comma : Token} (hd : Derives .expression us) (h : Passed .expression us)
    (hc : comma.kind = .punct .comma) (hs : Passed .arguments ts) :
    Passed .arguments (us ++ comma :: ts) := by
  intro count
  obtain ⟨t, us, rfl, -⟩ := hd.expression_begins
  refine .succ (fun d => by rw [Grammar.argumentList]) rfl (counted_passes rfl ?_)
  refine h.bind (fun e => .accept hc ?_) fun rest _ => Closes.ends (.inr (.inr hc))
  exact (hs _).bindNil (fun es => .pure _) fun _ hrest => hrest

theorem leaf {t : Token} (h : IsLeaf t.kind) : Passed .primary [t] := by
  obtain ⟨e, he⟩ := h.leaf?
  refine .succ (fun d => by rw [Grammar.primary]) rfl (.peek ?_)
  simp only [he]
  exact .advance (.pure e)

theorem grouping {lparen rparen : Token} (hl : lparen.kind = .punct .leftParen)
    (h : Passed .expression ts) (hr : rparen.kind = .punct .rightParen) :
    Passed .primary (lparen :: (ts ++ [rparen])) := by
  refine .succ (fun d => by rw [Grammar.primary]) rfl (.peek ?_)
  simp only [leaf?, hl]
  refine .advance ?_
  exact h.bind (fun inner => .expect hr (.pure _)) fun rest _ => Closes.ends (.inr (.inl hr))

theorem super {keyword dot method : Token} (hk : keyword.kind = .keyword .superWord)
    (hd : dot.kind = .punct .dot) (hm : method.kind = .identifier) :
    Passed .primary [keyword, dot, method] := by
  refine .succ (fun d => by rw [Grammar.primary]) rfl (.peek ?_)
  simp only [leaf?, hk, if_true]
  exact .advance (.expect hd (.expect hm (.pure _)))

end Phrase.Passed

theorem Derives.passes {p : Phrase} (h : Derives p ts) : p.Passed ts := by
  induction h with
  | value _ ih => exact ih.value
  | assignment _ he _ ih₁ ih₂ => exact ih₁.assignment he ih₂
  | level _ hd ih ihs => exact ih.level hd ihs
  | operationsNil => exact .operationsNil
  | operationsCons hop _ hd ih ihs => exact .operationsCons hop ih hd ihs
  | tighter hl _ ih => exact ih.tighter hl
  | tightest hl _ ih => exact ih.tightest hl
  | unary hop _ ih => exact ih.unary hop
  | unaryCall _ ih => exact ih
  | call hd _ ih ihs => exact .call hd ih ihs
  | suffixesNil => exact .suffixesNil
  | callEmpty hl hr _ ih => exact .callEmpty hl hr ih
  | callWith hl hd hr _ iha ih => exact .callWith hl hd iha hr ih
  | get hd hn _ ih => exact .get hd hn ih
  | argument hd ih => exact .argument hd ih
  | argumentsCons hd hc _ ih ihs => exact .argumentsCons hd ih hc ihs
  | leaf h => exact .leaf h
  | grouping hl _ hr ih => exact .grouping hl ih hr
  | super hk hd hm => exact .super hk hd hm

/-! ## Parts of declarations -/

variable {follow : List Token → Prop}

theorem Derives.expression_passes (h : Derives .expression ts) : Passes expression Ends ts :=
  h.passes

/-- An optional expression before the token that would stand in its place. -/
theorem DerivesOption.passes {p : Punct} (h : DerivesOption us)
    (hp : p = .semicolon ∨ p = .rightParen) :
    Passes (fun d => expressionUnless d (.punct p))
      (fun rest => ∃ t rest', rest = t :: rest' ∧ t.kind = .punct p) us := by
  unfold expressionUnless
  cases h with
  | none =>
    refine .look (a := true) ?_ ?_
    · rintro rest ⟨t, rest', rfl, ht⟩
      exact reads_sees.2 ⟨by simp [ht], rfl⟩
    · simp only [if_true]
      exact .pure _
  | some h =>
    have hread := h.expression_passes
    obtain ⟨t, us, rfl, ht⟩ := h.expression_begins
    refine .sees ?_
    rw [decide_eq_false (ht.ne_punct (by rcases hp with rfl | rfl <;> decide))]
    simp only [Bool.false_eq_true, if_false]
    refine hread.bindNil (fun e => .pure _) ?_
    rintro rest ⟨t, rest', rfl, ht⟩
    rcases hp with rfl | rfl
    · exact Closes.ends (.inl ht)
    · exact Closes.ends (.inr (.inl ht))

theorem parameters_passes {ps : List Token} (h : Parameters ts ps) :
    ∀ count, Passes (fun d => parameterList d count) ClosesCall ts := by
  induction h with
  | one hp =>
    intro count
    refine .succ (fun d => by rw [parameterList]) rfl (counted_passes rfl ?_)
    exact .expect hp (.stop (fun rest hrest => hrest.noComma) (.pure _))
  | cons hp hc _ ih =>
    intro count
    refine .succ (fun d => by rw [parameterList]) rfl (counted_passes rfl ?_)
    refine .expect hp (.accept hc ?_)
    exact (ih _).bindNil (fun ps => .pure _) fun _ hrest => hrest

theorem VarDeclaration.passes (h : VarDeclaration ts) :
    ∃ word us, ts = word :: us ∧ word.kind = .keyword .varWord ∧
      Passes (fun d => varDeclaration d) Anywhere us := by
  cases h with
  | bare hw hn hs =>
    refine ⟨_, _, rfl, hw, ?_⟩
    unfold varDeclaration
    exact .expect hn (.skip (by rw [hs]; decide) (.pureBind (.expect hs (.pure _))))
  | initialized hw hn he hv hs =>
    refine ⟨_, _, rfl, hw, ?_⟩
    unfold varDeclaration
    refine .expect hn (.accept he ?_)
    exact hv.expression_passes.map.bind (fun value => .expect hs (.pure _))
      fun rest _ => Closes.ends (.inl hs)

theorem ExpressionStatement.passes (h : ExpressionStatement ts) :
    Passes (fun d => expressionStatement d) Anywhere ts := by
  cases h with
  | mk hv hs =>
    unfold expressionStatement
    exact hv.expression_passes.bind (fun value => .expect hs (.pure _))
      fun rest _ => Closes.ends (.inl hs)

theorem ExpressionStatement.begins (h : ExpressionStatement ts) :
    ∃ t us, ts = t :: us ∧ Begins t.kind := by
  cases h with
  | mk hv hs =>
    obtain ⟨t, us, rfl, ht⟩ := hv.expression_begins
    exact ⟨t, _, rfl, ht⟩

theorem ForInitializer.passes (h : ForInitializer ts) :
    Passes (fun d => forInitializer d) Anywhere ts := by
  unfold forInitializer
  cases h with
  | none hs => exact .accept hs (.pure _)
  | var h =>
    obtain ⟨word, us, rfl, hw, hread⟩ := h.passes
    exact .skip (by rw [hw]; decide) (.accept hw hread.map)
  | expression h =>
    have hread := h.passes
    obtain ⟨t, us, rfl, ht⟩ := h.begins
    exact .skip (ht.ne_punct (by decide)) (.skip (ht.ne_keyword (by decide)) hread.map)

/-! ## Statements -/

/-- A loop, whatever its body is. -/
theorem LoopHead.passes (h : LoopHead us) (hb : Passes statement follow ts) :
    Passes statement follow (us ++ ts) := by
  cases h with
  | whileHead hw hl hc hr =>
    simp only [List.cons_append, List.append_assoc, List.nil_append]
    refine .succ (fun d => by rw [statement]) rfl (.peek ?_)
    simp only [hw]
    refine .advance (.succ (fun d => by rw [whileStatement]) rfl (.expect hl ?_))
    refine hc.expression_passes.bind (fun condition => .expect hr ?_)
      fun rest _ => Closes.ends (.inr (.inl hr))
    exact hb.bindNil (fun body => .pure _) fun _ hrest => hrest
  | forHead hw hl hi hc hs hn hr =>
    simp only [List.cons_append, List.append_assoc, List.nil_append]
    refine .succ (fun d => by rw [statement]) rfl (.peek ?_)
    simp only [hw]
    refine .advance (.succ (fun d => by rw [forStatement]) rfl (.expect hl ?_))
    refine hi.passes.bind (fun initializer => ?_) fun _ _ => trivial
    refine (hc.passes (.inl rfl)).bind (fun condition => .expect hs ?_)
      fun rest _ => ⟨_, _, rfl, hs⟩
    refine (hn.passes (.inr rfl)).bind (fun increment => .expect hr ?_)
      fun rest _ => ⟨_, _, rfl, hr⟩
    exact hb.bindNil (fun body => .pure _) fun _ hrest => hrest

/-- An `if`, whatever its branches are. -/
theorem IfHead.passes (h : IfHead us)
    (hb : ∀ condition, Passes (fun d => do
      let thenBranch ← statement d
      match ← accept (.keyword .elseWord) with
      | some _ => return Stmt.conditional condition thenBranch (some (← statement d))
      | none => pure (Stmt.conditional condition thenBranch none)) follow ts) :
    Passes statement follow (us ++ ts) := by
  cases h with
  | mk hw hl hc hr =>
    simp only [List.cons_append, List.append_assoc, List.nil_append]
    refine .succ (fun d => by rw [statement]) rfl (.peek ?_)
    simp only [hw]
    refine .advance (.succ (fun d => by rw [ifStatement]) rfl (.expect hl ?_))
    exact hc.expression_passes.bind (fun condition => .expect hr (hb condition))
      fun rest _ => Closes.ends (.inr (.inl hr))

/-- `Attached dangling ts`: the tokens `ts` are a statement in which each `else` belongs to the
nearest `if`; `dangling` says whether an `else` after it would belong to it. -/
inductive Attached : Bool → List Token → Prop
  | closed {ts : List Token} (h : Passes statement Anywhere ts) : Attached false ts
  | loop {dangling : Bool} {us ts : List Token} (h : LoopHead us) (hb : Attached dangling ts) :
      Attached dangling (us ++ ts)
  | ifThen {dangling : Bool} {us ts : List Token} (h : IfHead us) (ht : Attached dangling ts) :
      Attached true (us ++ ts)
  | ifElse {dangling : Bool} {us ts vs : List Token} {elseWord : Token} (h : IfHead us)
      (ht : Attached false ts) (he : elseWord.kind = .keyword .elseWord)
      (hs : Attached dangling vs) : Attached dangling (us ++ (ts ++ elseWord :: vs))

namespace Attached

variable {dangling : Bool} {vs : List Token} {elseWord : Token}

/-- An `else` after a dangling statement has a place inside it. -/
theorem attach {branch : Bool} (he : elseWord.kind = .keyword .elseWord)
    (hvs : Attached branch vs) {b : Bool} (h : Attached b ts) (hb : b = true) :
    ∃ dangling, Attached dangling (ts ++ elseWord :: vs) := by
  induction h with
  | closed => cases hb
  | loop hhead _ ih =>
    obtain ⟨dangling, ih⟩ := ih hb
    rw [List.append_assoc]
    exact ⟨dangling, .loop hhead ih⟩
  | @ifThen inner us ts hhead ht ih =>
    rw [List.append_assoc]
    cases inner with
    | true =>
      obtain ⟨dangling, ih⟩ := ih rfl
      exact ⟨true, .ifThen hhead ih⟩
    | false => exact ⟨branch, .ifElse hhead ht he hvs⟩
  | ifElse hhead ht he' _ _ ih =>
    obtain ⟨dangling, ih⟩ := ih hb
    rw [List.append_assoc, List.append_assoc, List.cons_append]
    exact ⟨dangling, .ifElse hhead ht he' ih⟩

theorem passes (h : Attached dangling ts) :
    Passes statement (fun rest => dangling = true → NoElse rest) ts := by
  induction h with
  | closed h => exact h.mono fun _ _ => trivial
  | loop hhead _ ih => exact hhead.passes ih
  | ifThen hhead _ ih =>
    refine hhead.passes fun condition => ?_
    refine ih.bindNil (fun thenBranch => .stop (fun rest hrest => hrest rfl) (.pure _)) ?_
    exact fun rest hrest _ => hrest rfl
  | ifElse hhead _ he _ iht ihs =>
    refine hhead.passes fun condition => ?_
    refine iht.bind (fun thenBranch => .accept he ?_) fun rest _ h => absurd h Bool.false_ne_true
    exact ihs.bindNil (fun elseBranch => .pure _) fun _ hrest => hrest

end Attached

/-! ## Declarations -/

theorem Forms.statement_head (h : Forms .statement ts) :
    ∃ t us, ts = t :: us ∧ BeginsDeclaration t.kind ∧ t.kind ≠ .keyword .classWord ∧
      t.kind ≠ .keyword .funWord ∧ t.kind ≠ .keyword .varWord := by
  cases h with
  | expression h =>
    obtain ⟨t, us, rfl, ht⟩ := h.begins
    exact ⟨t, us, rfl, .inl ht, ht.ne_keyword (by decide), ht.ne_keyword (by decide),
      ht.ne_keyword (by decide)⟩
  | blockStatement h =>
    cases h with
    | block hl => exact ⟨_, _, rfl, by simp [BeginsDeclaration, hl]⟩
  | print hw | ret hw => exact ⟨_, _, rfl, by simp [BeginsDeclaration, hw]⟩
  | loop h =>
    cases h with
    | whileHead hw | forHead hw => exact ⟨_, _, rfl, by simp [BeginsDeclaration, hw]⟩
  | ifThen h | ifElse h =>
    cases h with
    | mk hw => exact ⟨_, _, rfl, by simp [BeginsDeclaration, hw]⟩

theorem Forms.declaration_head (h : Forms .declaration ts) :
    ∃ t us, ts = t :: us ∧ BeginsDeclaration t.kind := by
  cases h with
  | classDecl hw | funDecl hw => exact ⟨_, _, rfl, by simp [BeginsDeclaration, hw]⟩
  | varDecl h =>
    obtain ⟨word, us, rfl, hw, -⟩ := h.passes
    exact ⟨word, us, rfl, by simp [BeginsDeclaration, hw]⟩
  | statement h =>
    obtain ⟨t, us, rfl, ht, -⟩ := h.statement_head
    exact ⟨t, us, rfl, ht⟩

theorem Forms.declarations_noElse {rest : List Token} (h : Forms .declarations ts)
    (hrest : NoElse rest) : NoElse (ts ++ rest) := by
  cases h with
  | declarationsNil => exact hrest
  | declarationsCons h _ =>
    obtain ⟨t, us, rfl, ht⟩ := h.declaration_head
    intro t' ht'
    cases ht'
    exact ht.ne_else

/-- The next token is a closing brace. -/
def ClosesClass (rest : List Token) : Prop :=
  ∃ t rest', rest = t :: rest' ∧ t.kind = .punct .rightBrace

/-- How the reader of a clause passes over its tokens. -/
def Clause.Passed : Clause → List Token → Prop
  | .declaration, ts => Passes declarationOrFail NoElse ts
  | .statement, ts => ∃ dangling, Attached dangling ts
  | .function, ts => ∀ role, Passes (fun d => Grammar.function d role) Anywhere ts
  | .block, ts => ∃ lbrace us, ts = lbrace :: us ∧ lbrace.kind = .punct .leftBrace ∧
      Passes Grammar.block Anywhere us
  | .declarations, ts => Passes program (fun rest => rest = []) ts ∧
      ∀ rbrace, rbrace.kind = .punct .rightBrace → Passes Grammar.block Anywhere (ts ++ [rbrace])
  | .methods, ts => Passes methodList ClosesClass ts

namespace Clause.Passed

/-- What a class declaration reads from the opening brace on. -/
theorem classBody {name lbrace rbrace : Token} {superclass : Option Expr}
    (hl : lbrace.kind = .punct .leftBrace) (hm : Passed .methods ts)
    (hr : rbrace.kind = .punct .rightBrace) : Passes (fun d => do
      let _ ← expect (.punct .leftBrace) .classBodyStart
      let methods ← methodList d
      let _ ← expect (.punct .rightBrace) .classBodyEnd
      pure (Stmt.classDecl name superclass methods)) NoElse (lbrace :: (ts ++ [rbrace])) :=
  .expect hl (hm.bind (fun _ => .expect hr (.pure _)) fun _ _ => ⟨_, _, rfl, hr⟩)

theorem classDecl {word name lbrace rbrace : Token} {superclass : Option Expr}
    (hw : word.kind = .keyword .classWord) (hn : name.kind = .identifier)
    (hs : SuperclassClause us superclass) (hl : lbrace.kind = .punct .leftBrace)
    (hm : Passed .methods ts) (hr : rbrace.kind = .punct .rightBrace) :
    Passed .declaration (word :: name :: (us ++ lbrace :: (ts ++ [rbrace]))) := by
  refine .succ (fun d => by rw [declarationOrFail]) rfl (.accept hw ?_)
  refine .succ (fun d => by rw [classDeclaration]) rfl (.expect hn ?_)
  cases hs with
  | none => exact .skip (by rw [hl]; decide) (.pureBind (classBody hl hm hr))
  | some hless hsuper =>
    exact .accept hless (.expect hsuper (.pureBind (classBody hl hm hr)))

theorem funDecl {word : Token} (hw : word.kind = .keyword .funWord) (h : Passed .function ts) :
    Passed .declaration (word :: ts) := by
  refine .succ (fun d => by rw [declarationOrFail]) rfl ?_
  exact .skip (by rw [hw]; decide) (.accept hw ((h _).map.mono fun _ _ => trivial))

theorem varDecl (h : VarDeclaration ts) : Passed .declaration ts := by
  obtain ⟨word, us, rfl, hw, hread⟩ := h.passes
  refine .succ (fun d => by rw [declarationOrFail]) rfl ?_
  exact .skip (by rw [hw]; decide) (.skip (by rw [hw]; decide)
    (.accept hw (hread.mono fun _ _ => trivial)))

theorem ofStatement (hf : Forms .statement ts) (h : Passed .statement ts) :
    Passed .declaration ts := by
  obtain ⟨dangling, h⟩ := h
  have hread : Passes Grammar.statement NoElse ts := h.passes.mono fun _ hrest _ => hrest
  obtain ⟨t, us, rfl, -, hclass, hfun, hvar⟩ := hf.statement_head
  refine .succ (fun d => by rw [declarationOrFail]) rfl ?_
  exact .skip hclass (.skip hfun (.skip hvar hread))

/-- What a function reads after its parameters. -/
theorem functionBody {name rparen : Token} {params : List Token} {role : FunctionRole}
    (hr : rparen.kind = .punct .rightParen) (hb : Passed .block ts) : Passes (fun d => do
      let _ ← expect (.punct .rightParen) .parametersEnd
      let _ ← expect (.punct .leftBrace) (.functionBodyStart role)
      let body ← Grammar.block d
      pure (FunctionDecl.mk name params body)) Anywhere (rparen :: ts) := by
  obtain ⟨lbrace, us, rfl, hl, hread⟩ := hb
  exact .expect hr (.expect hl (hread.bindNil (fun body => .pure _) fun _ _ => trivial))

theorem function {name lparen rparen : Token} (hn : name.kind = .identifier)
    (hl : lparen.kind = .punct .leftParen) (hp : ParameterClause us)
    (hr : rparen.kind = .punct .rightParen) (hb : Passed .block ts) :
    Passed .function (name :: lparen :: (us ++ rparen :: ts)) := by
  intro role
  refine .succ (fun d => by rw [Grammar.function]) rfl (.expect hn (.expect hl ?_))
  cases hp with
  | none =>
    refine .sees ?_
    simp only [hr, decide_true, if_true]
    exact .pureBind (functionBody hr hb)
  | some hp =>
    have hread := parameters_passes hp 0
    obtain ⟨p, us, rfl, hk⟩ := hp.head
    refine .sees ?_
    rw [hk, decide_eq_false (by decide)]
    simp only [Bool.false_eq_true, if_false]
    exact hread.bind (fun params => functionBody hr hb) fun rest _ => closesCall_cons hr

theorem block {lbrace rbrace : Token} (hl : lbrace.kind = .punct .leftBrace)
    (h : Passed .declarations ts) (hr : rbrace.kind = .punct .rightBrace) :
    Passed .block (lbrace :: (ts ++ [rbrace])) :=
  ⟨_, _, rfl, hl, h.2 rbrace hr⟩

theorem declarationsNil : Passed .declarations [] := by
  constructor
  · refine .succ (fun d => by rw [program]) rfl (.look (a := none) ?_ (.pure _))
    rintro rest rfl
    exact reads_peek.2 ⟨rfl, rfl⟩
  · intro rbrace hr
    refine .succ (fun d => by rw [Grammar.block]) rfl (.peek ?_)
    simp only [hr, if_true]
    exact .advance (.pure _)

theorem declarationsCons (hf : Forms .declaration us) (hfs : Forms .declarations ts)
    (h : Passed .declaration us) (hs : Passed .declarations ts) :
    Passed .declarations (us ++ ts) := by
  have hread : Passes Grammar.declaration NoElse us :=
    .succ (fun d => by rw [Grammar.declaration]) rfl (Passes.recover h)
  obtain ⟨t, us, rfl, ht⟩ := hf.declaration_head
  constructor
  · refine .succ (fun d => by rw [program]) rfl (.peek ?_)
    refine hread.bind (fun first => hs.1.bindNil (fun others => .pure _) fun _ hrest => hrest) ?_
    rintro rest rfl
    exact hfs.declarations_noElse fun t ht => by cases ht
  · intro rbrace hr
    rw [List.append_assoc]
    refine .succ (fun d => by rw [Grammar.block]) rfl (.peek ?_)
    simp only [ht.ne_rightBrace, if_false]
    refine hread.bind (fun first => (hs.2 rbrace hr).bindNil (fun others => .pure _)
      fun _ hrest => hrest) fun rest _ => ?_
    rw [List.append_assoc]
    exact hfs.declarations_noElse (noElse_of_rightBrace hr)

theorem methodsNil : Passed .methods [] := by
  refine ⟨[], [], .nil, ?_⟩
  rintro rest ⟨t, rest', rfl, ht⟩ d
  cases d with
  | zero => exact .inl rfl
  | succ d =>
    rw [methodList]
    refine .step (peek_head _ _) ?_
    simp only [ht, if_true]
    exact .pure _ _

theorem methodsCons (hf : Forms .function us) (h : Passed .function us)
    (hs : Passed .methods ts) : Passed .methods (us ++ ts) := by
  cases hf with
  | function hn =>
    refine .succ (fun d => by rw [methodList]) rfl (.peek ?_)
    simp only [hn, reduceCtorEq, if_false]
    exact (h _).bind (fun method => hs.bindNil (fun methods => .pure _) fun _ hrest => hrest)
      fun _ _ => trivial

theorem expression (h : ExpressionStatement ts) : Passed .statement ts := by
  have hread := h.passes
  obtain ⟨t, us, rfl, ht⟩ := h.begins
  refine ⟨false, .closed (.succ (fun d => by rw [Grammar.statement]) rfl (.peek ?_))⟩
  dsimp only
  -- no word of a statement comes first
  cases hk : t.kind with
  | keyword word =>
    cases word <;> first | exact hread | exact absurd hk (ht.ne_keyword (by decide))
  | punct p => cases p <;> first | exact hread | exact absurd hk (ht.ne_punct (by decide))
  | _ => exact hread

theorem print {word semicolon : Token} (hw : word.kind = .keyword .printWord)
    (hv : Derives .expression ts) (hs : semicolon.kind = .punct .semicolon) :
    Passed .statement (word :: (ts ++ [semicolon])) := by
  refine ⟨false, .closed (.succ (fun d => by rw [Grammar.statement]) rfl (.peek ?_))⟩
  simp only [hw]
  unfold printStatement
  exact .advance (hv.expression_passes.bind (fun value => .expect hs (.pure _))
    fun rest _ => Closes.ends (.inl hs))

theorem ret {word semicolon : Token} (hw : word.kind = .keyword .returnWord)
    (hv : DerivesOption ts) (hs : semicolon.kind = .punct .semicolon) :
    Passed .statement (word :: (ts ++ [semicolon])) := by
  refine ⟨false, .closed (.succ (fun d => by rw [Grammar.statement]) rfl (.peek ?_))⟩
  simp only [hw]
  unfold returnStatement
  exact .advance ((hv.passes (.inl rfl)).bind (fun value => .expect hs (.pure _))
    fun rest _ => ⟨_, _, rfl, hs⟩)

theorem blockStatement (h : Passed .block ts) : Passed .statement ts := by
  obtain ⟨lbrace, us, rfl, hl, hread⟩ := h
  refine ⟨false, .closed (.succ (fun d => by rw [Grammar.statement]) rfl (.peek ?_))⟩
  simp only [hl]
  exact .advance hread.map

theorem loop (h : LoopHead us) (hb : Passed .statement ts) : Passed .statement (us ++ ts) := by
  obtain ⟨dangling, hb⟩ := hb
  exact ⟨dangling, .loop h hb⟩

theorem ifThen (h : IfHead us) (ht : Passed .statement ts) : Passed .statement (us ++ ts) := by
  obtain ⟨dangling, ht⟩ := ht
  exact ⟨true, .ifThen h ht⟩

theorem ifElse {elseWord : Token} {vs : List Token} (h : IfHead us) (ht : Passed .statement ts)
    (he : elseWord.kind = .keyword .elseWord) (hs : Passed .statement vs) :
    Passed .statement (us ++ (ts ++ elseWord :: vs)) := by
  obtain ⟨inner, ht⟩ := ht
  obtain ⟨dangling, hs⟩ := hs
  cases inner with
  | true =>
    obtain ⟨dangling, hbranch⟩ := Attached.attach he hs ht rfl
    exact ⟨true, .ifThen h hbranch⟩
  | false => exact ⟨dangling, .ifElse h ht he hs⟩

end Clause.Passed

theorem Forms.passes {c : Clause} (h : Forms c ts) : c.Passed ts := by
  induction h with
  | classDecl hw hn hs hl _ hr ih => exact .classDecl hw hn hs hl ih hr
  | funDecl hw _ ih => exact .funDecl hw ih
  | varDecl h => exact .varDecl h
  | statement h ih => exact .ofStatement h ih
  | function hn hl hp hr _ ih => exact .function hn hl hp hr ih
  | block hl _ hr ih => exact .block hl ih hr
  | declarationsNil => exact .declarationsNil
  | declarationsCons h hs ih ihs => exact .declarationsCons h hs ih ihs
  | methodsNil => exact .methodsNil
  | methodsCons h _ ih ihs => exact .methodsCons h ih ihs
  | expression h => exact .expression h
  | print hw hv hs => exact .print hw hv hs
  | ret hw hv hs => exact .ret hw hv hs
  | blockStatement _ ih => exact .blockStatement ih
  | loop hhead _ ih => exact .loop hhead ih
  | ifThen hhead _ ih => exact .ifThen hhead ih
  | ifElse hhead _ he _ iht ihs => exact .ifElse hhead iht he ihs

end Lox.Grammar.Relaxed
