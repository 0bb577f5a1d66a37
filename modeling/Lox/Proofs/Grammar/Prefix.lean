import Lox.Proofs.Grammar.Sound
import Lox.Proofs.Grammar.Viable

/-!
# Readers follow the relaxed grammar

Every reader of the grammar `Tracks` its rule of the relaxed grammar: what it reads is a phrase of
the rule, and where it fails, the tokens before are the beginning of one. The readers that start
after a word or a name follow the rule from there on. The induction is on the depth, with one case
for each reader; the cases follow the steps of the reader.
-/

set_option autoImplicit false

namespace Lox.Grammar.Relaxed

open Parse

instance : Nonempty Token := ⟨sample .eof⟩

instance : Nonempty Expr := ⟨.literal .nil⟩

instance : Nonempty Stmt := ⟨.block []⟩

instance : Nonempty FunctionDecl := ⟨⟨sample .eof, [], []⟩⟩

/-! ## Expressions -/

/-- A list with a cap on its entries notes at the next entry that there are too many. -/
theorem counted_tracks {α : Type} {S : List Token → Prop} {inside : Prop} {p : Nat → Parse α}
    {n : Nat} {count : Nat} {cause : SyntaxCause} (hc : cause.isNote = true)
    (h : ∀ ts, Tracks S inside p n ts) (ts : List Token) :
    Tracks S inside (fun d => if maxArguments ≤ count then
      (do let t ← peek; noteAt t cause; p d) else p d) n ts := by
  by_cases hcount : maxArguments ≤ count
  · simp only [hcount, if_true]
    exact .peek (.note hc List.head?_eq_none_iff.1 h)
  · simp only [hcount, if_false]
    exact h ts

theorem isLeaf_of_leaf? {t : Token} {e : Expr} (h : leaf? t = some e) : IsLeaf t.kind := by
  unfold leaf? at h
  split at h <;> simp_all [IsLeaf]

mutual

theorem expression_tracks : ∀ (n : Nat) (inside : Prop) (ts : List Token),
    Tracks (Derives .expression) inside expression n ts
  | 0, _, _ => .zero (Derives.inhabited _) rfl
  | n + 1, inside, ts => by
    refine .succ (fun d => by rw [expression]) rfl ?_
    refine .bind (binary_tracks n .or inside ts) fun left us rest hus => ?_
    refine .accept (fun equal rest he => ?_) (.pure ?_)
    · refine .bind (expression_tracks n _ rest) fun value vs rest hvs => ?_
      have hassignment : Derives .expression (us ++ equal :: (vs ++ [])) := by
        rw [List.append_nil]
        exact .assignment hus he hvs
      cases ha : assignment? left value with
      | some assigned => exact .pure hassignment
      | none => exact .note rfl nofun fun rest => .pure hassignment
    · rw [List.append_nil]
      exact .value hus

theorem binary_tracks : ∀ (n : Nat) (l : Level) (inside : Prop) (ts : List Token),
    Tracks (Derives (.level l)) inside (fun d => binary d l) n ts
  | 0, l, _, _ => .zero (Derives.inhabited _) rfl
  | n + 1, l, inside, ts => by
    refine .succ (fun d => by rw [binary]) rfl ?_
    refine .bind (operand_tracks n l inside ts) fun left us rest hus => ?_
    exact (binaryTail_tracks n l left inside rest).mono fun vs hvs => .level hus hvs

theorem binaryTail_tracks : ∀ (n : Nat) (l : Level) (left : Expr) (inside : Prop) (ts : List Token),
    Tracks (Derives (.operations l)) inside (fun d => binaryTail d l left) n ts
  | 0, l, left, _, _ => .zero (Derives.inhabited _) rfl
  | n + 1, l, left, inside, ts => by
    refine .succ (fun d => by rw [binaryTail]) rfl ?_
    refine .acceptIf (fun operator rest hop => ?_) (.pure .operationsNil)
    refine .bind (operand_tracks n l _ rest) fun right us rest hus => ?_
    exact (binaryTail_tracks n l _ _ rest).mono fun vs hvs =>
      .operationsCons (has_iff.1 hop) hus hvs

theorem operand_tracks : ∀ (n : Nat) (l : Level) (inside : Prop) (ts : List Token),
    Tracks (Derives (.operand l)) inside (fun d => operand d l) n ts
  | 0, l, _, _ => .zero (Derives.inhabited _) rfl
  | n + 1, l, inside, ts => by
    refine .succ (fun d => by rw [operand]) rfl ?_
    cases hl : l.tighter with
    | some l' => exact (binary_tracks n l' inside ts).mono fun us hus => .tighter hl hus
    | none => exact (unary_tracks n inside ts).mono fun us hus => .tightest hl hus

theorem unary_tracks : ∀ (n : Nat) (inside : Prop) (ts : List Token),
    Tracks (Derives .unary) inside unary n ts
  | 0, _, _ => .zero (Derives.inhabited _) rfl
  | n + 1, inside, ts => by
    refine .succ (fun d => by rw [unary]) rfl ?_
    refine .acceptIf (fun operator rest hop => ?_) ?_
    · refine .bind (unary_tracks n _ rest) fun right us rest hus => .pure ?_
      rw [List.append_nil]
      exact .unary (isUnary_iff.1 hop) hus
    · refine .bind (primary_tracks n inside ts) fun callee us rest hus => ?_
      exact (callTail_tracks n callee inside rest).mono fun vs hvs => .unaryCall (.call hus hvs)

theorem callTail_tracks : ∀ (n : Nat) (callee : Expr) (inside : Prop) (ts : List Token),
    Tracks (Derives .suffixes) inside (fun d => callTail d callee) n ts
  | 0, callee, _, _ => .zero (Derives.inhabited _) rfl
  | n + 1, callee, inside, ts => by
    refine .succ (fun d => by rw [callTail]) rfl ?_
    refine .accept (fun lparen rest hl => ?_) (.accept (fun dot rest hd => ?_)
      (.pure .suffixesNil))
    · refine .sees fun empty => ?_
      cases empty with
      | true =>
        simp only [if_true]
        refine .pureBind (.expect rfl fun rparen rest hr => ?_)
        exact (callTail_tracks n _ _ rest).mono fun vs hvs => .callEmpty hl hr hvs
      | false =>
        simp only [Bool.false_eq_true, if_false]
        refine .bind (argumentList_tracks n 0 _ rest) fun arguments us rest hus => ?_
        refine .expect rfl fun rparen rest hr => ?_
        exact (callTail_tracks n _ _ rest).mono fun vs hvs => .callWith hl hus hr hvs
    · refine .expect rfl fun name rest hn => ?_
      exact (callTail_tracks n _ _ rest).mono fun vs hvs => .get hd hn hvs

theorem argumentList_tracks : ∀ (n count : Nat) (inside : Prop) (ts : List Token),
    Tracks (Derives .arguments) inside (fun d => argumentList d count) n ts
  | 0, count, _, _ => .zero (Derives.inhabited _) rfl
  | n + 1, count, inside, ts => by
    have hlist : ∀ ts, Tracks (Derives .arguments) inside (fun d => do
        let argument ← expression d
        match ← accept (.punct .comma) with
        | none => pure [argument]
        | some _ => return argument :: (← argumentList d (count + 1))) n ts := by
      intro ts
      refine .bind (expression_tracks n inside ts) fun argument us rest hus => ?_
      refine .accept (fun comma rest hc => ?_) (.pure ?_)
      · refine .bind (argumentList_tracks n (count + 1) _ rest) fun others vs rest hvs => .pure ?_
        rw [List.append_nil]
        exact .argumentsCons hus hc hvs
      · rw [List.append_nil]
        exact .argument hus
    refine .succ (fun d => by rw [argumentList]) rfl ?_
    exact counted_tracks rfl hlist ts

theorem primary_tracks : ∀ (n : Nat) (inside : Prop) (ts : List Token),
    Tracks (Derives .primary) inside primary n ts
  | 0, _, _ => .zero (Derives.inhabited _) rfl
  | n + 1, inside, ts => by
    refine .succ (fun d => by rw [primary]) rfl (.peek ?_)
    cases ts with
    | nil => exact .fail rfl (Derives.inhabited _)
    | cons t ts =>
      simp only [List.head?_cons]
      cases hleaf : leaf? t with
      | some e => exact .advance (.pure (.leaf (isLeaf_of_leaf? hleaf)))
      | none =>
        by_cases hsuper : t.kind = .keyword .superWord
        · simp only [hsuper, if_true]
          refine .advance (.expect rfl fun dot rest hd => .expect rfl fun method rest hm => ?_)
          exact .pure (.super hsuper hd hm)
        · simp only [hsuper, if_false]
          by_cases hparen : t.kind = .punct .leftParen
          · simp only [hparen, if_true]
            refine .advance (.bind (expression_tracks n _ ts) fun inner us rest hus => ?_)
            exact .expect rfl fun rparen rest hr => .pure (.grouping hparen hus hr)
          · simp only [hparen, if_false]
            exact .fail rfl (Derives.inhabited _)

end

/-! ## Parts of statements -/

variable (n : Nat) (inside : Prop) (ts : List Token)

theorem expressionUnless_tracks (kind : TokenKind) :
    Tracks DerivesOption inside (fun d => expressionUnless d kind) n ts := by
  unfold expressionUnless
  refine .sees fun absent => ?_
  cases absent with
  | true =>
    simp only [if_true]
    exact .pure .none
  | false =>
    simp only [Bool.false_eq_true, if_false]
    refine .bind (expression_tracks n inside ts) fun e us rest hus => .pure ?_
    rw [List.append_nil]
    exact .some hus

theorem parameterList_tracks : ∀ (n count : Nat) (inside : Prop) (ts : List Token),
    Tracks (fun us => ∃ ps, Parameters us ps) inside (fun d => parameterList d count) n ts
  | 0, count, _, _ => .zero ⟨[sample .identifier], _, .one rfl⟩ rfl
  | n + 1, count, inside, ts => by
    have hlist : ∀ ts, Tracks (fun us => ∃ ps, Parameters us ps) inside (fun d => do
        let parameter ← expect .identifier .parameterName
        match ← accept (.punct .comma) with
        | none => pure [parameter]
        | some _ => return parameter :: (← parameterList d (count + 1))) n ts := by
      intro ts
      refine .expect rfl fun parameter rest hp => .accept (fun comma rest hc => ?_) (.pure ?_)
      · refine .bind (parameterList_tracks n (count + 1) _ rest) fun others us rest hus => .pure ?_
        obtain ⟨ps, hps⟩ := hus
        rw [List.append_nil]
        exact ⟨_, .cons hp hc hps⟩
      · exact ⟨_, .one hp⟩
    refine .succ (fun d => by rw [parameterList]) rfl ?_
    exact counted_tracks rfl hlist ts

theorem varDeclaration_tracks {word : Token} (hw : word.kind = .keyword .varWord) :
    Tracks (fun us => VarDeclaration (word :: us)) inside (fun d => varDeclaration d) n ts := by
  unfold varDeclaration
  refine .expect rfl fun name rest hn => .accept (fun equal rest he => ?_) ?_
  · refine .bind (expression_tracks n _ rest).map fun value us rest hus => ?_
    exact .expect rfl fun semicolon rest hs => .pure (.initialized hw hn he hus hs)
  · exact .pureBind (.expect rfl fun semicolon rest hs => .pure (.bare hw hn hs))

theorem expressionStatement_tracks :
    Tracks ExpressionStatement inside (fun d => expressionStatement d) n ts := by
  unfold expressionStatement
  refine .bind (expression_tracks n inside ts) fun value us rest hus => ?_
  exact .expect rfl fun semicolon rest hs => .pure (.mk hus hs)

theorem printStatement_tracks {word : Token} (hw : word.kind = .keyword .printWord) :
    Tracks (fun us => Forms .statement (word :: us)) inside (fun d => printStatement d word) n
      ts := by
  unfold printStatement
  refine .bind (expression_tracks n inside ts) fun value us rest hus => ?_
  exact .expect rfl fun semicolon rest hs => .pure (.print hw hus hs)

theorem returnStatement_tracks {word : Token} (hw : word.kind = .keyword .returnWord) :
    Tracks (fun us => Forms .statement (word :: us)) inside (fun d => returnStatement d word) n
      ts := by
  unfold returnStatement
  refine .bind (expressionUnless_tracks n inside ts _) fun value us rest hus => ?_
  exact .expect rfl fun semicolon rest hs => .pure (.ret hw hus hs)

theorem forInitializer_tracks :
    Tracks ForInitializer inside (fun d => forInitializer d) n ts := by
  unfold forInitializer
  refine .accept (fun semicolon rest hs => .pure (.none hs)) (.accept (fun word rest hw => ?_) ?_)
  · exact ((varDeclaration_tracks n _ rest hw).mono fun us hus => .var hus).map
  · exact ((expressionStatement_tracks n inside ts).mono fun us hus => .expression hus).map

/-! ## Declarations and statements -/

/-- What follows the opening brace of a block. -/
def EndsBlock (ts : List Token) : Prop :=
  ∃ us rbrace, ts = us ++ [rbrace] ∧ Forms .declarations us ∧ rbrace.kind = .punct .rightBrace

theorem EndsBlock.cons {us vs : List Token} (h : Forms .declaration us) (hvs : EndsBlock vs) :
    EndsBlock (us ++ vs) := by
  obtain ⟨ws, rbrace, rfl, hws, hr⟩ := hvs
  exact ⟨us ++ ws, rbrace, by simp, .declarationsCons h hws, hr⟩

theorem EndsBlock.block {lbrace : Token} {ts : List Token} (h : EndsBlock ts)
    (hl : lbrace.kind = .punct .leftBrace) : Forms .block (lbrace :: ts) := by
  obtain ⟨us, rbrace, rfl, hus, hr⟩ := h
  exact .block hl hus hr

theorem EndsBlock.inhabited : ∃ ts, EndsBlock ts :=
  ⟨_, [], sample (.punct .rightBrace), rfl, .declarationsNil, rfl⟩

mutual

theorem declaration_tracks : ∀ (n : Nat) (inside : Prop) (ts : List Token), inside →
    Tracks (Forms .declaration) inside declaration n ts
  | 0, _, _, _ => .zero (Forms.inhabited _) rfl
  | n + 1, inside, ts, hi =>
    .succ (fun d => by rw [declaration]) rfl (.recover hi (declarationOrFail_tracks n inside ts))

theorem declarationOrFail_tracks : ∀ (n : Nat) (inside : Prop) (ts : List Token),
    Tracks (Forms .declaration) inside declarationOrFail n ts
  | 0, _, _ => .zero (Forms.inhabited _) rfl
  | n + 1, inside, ts => by
    refine .succ (fun d => by rw [declarationOrFail]) rfl ?_
    refine .accept (fun word rest hw => classDeclaration_tracks n _ rest hw) (.accept
      (fun word rest hw => ?_) (.accept (fun word rest hw => ?_) ?_))
    · exact ((function_tracks n .function _ rest).mono fun us hus => .funDecl hw hus).map
    · exact (varDeclaration_tracks n _ rest hw).mono fun us hus => .varDecl hus
    · exact (statement_tracks n inside ts).mono fun us hus => .statement hus

theorem classDeclaration_tracks : ∀ (n : Nat) (inside : Prop) (ts : List Token) {word : Token},
    word.kind = .keyword .classWord →
      Tracks (fun us => Forms .declaration (word :: us)) inside classDeclaration n ts
  | 0, _, _, word, hw => by
    refine .zero ⟨sample .identifier :: ([] ++ sample (.punct .leftBrace) ::
      ([] ++ [sample (.punct .rightBrace)])), ?_⟩ rfl
    exact .classDecl hw rfl .none rfl .methodsNil rfl
  | n + 1, inside, ts, word, hw => by
    refine .succ (fun d => by rw [classDeclaration]) rfl ?_
    refine .expect rfl fun name rest hn => ?_
    have hbody : ∀ (superclass : Option Expr) {us : List Token} (inside : Prop) (rest : List Token),
        SuperclassClause us superclass →
        Tracks (fun vs => Forms .declaration (word :: name :: (us ++ vs))) inside (fun d => do
          let _ ← expect (.punct .leftBrace) .classBodyStart
          let methods ← methodList d
          let _ ← expect (.punct .rightBrace) .classBodyEnd
          pure (Stmt.classDecl name superclass methods)) n rest := by
      intro superclass us inside rest hs
      refine .expect rfl fun lbrace rest hl => ?_
      refine .bind (methodList_tracks n _ rest) fun methods vs rest hvs => ?_
      exact .expect rfl fun rbrace rest hr => .pure (.classDecl hw hn hs hl hvs hr)
    refine .accept (fun less rest hless => .expect rfl fun superclass rest hsuper => ?_) ?_
    · exact .pureBind (hbody _ _ rest (.some hless hsuper))
    · exact .pureBind (hbody _ _ _ .none)

theorem methodList_tracks : ∀ (n : Nat) (inside : Prop) (ts : List Token),
    Tracks (Forms .methods) inside methodList n ts
  | 0, _, _ => .zero (Forms.inhabited _) rfl
  | n + 1, inside, ts => by
    refine .succ (fun d => by rw [methodList]) rfl (.peek ?_)
    cases ts with
    | nil => exact .pure .methodsNil
    | cons t ts =>
      simp only [List.head?_cons]
      by_cases hr : t.kind = .punct .rightBrace
      · simp only [hr, if_true]
        exact .pure .methodsNil
      · simp only [hr, if_false]
        refine .bind (function_tracks n .method inside (t :: ts)) fun method us rest hus => ?_
        refine .bind (methodList_tracks n inside rest) fun methods vs rest hvs => .pure ?_
        rw [List.append_nil]
        exact .methodsCons hus hvs

theorem function_tracks : ∀ (n : Nat) (role : FunctionRole) (inside : Prop) (ts : List Token),
    Tracks (Forms .function) inside (fun d => function d role) n ts
  | 0, _, _, _ => .zero (Forms.inhabited _) rfl
  | n + 1, role, inside, ts => by
    refine .succ (fun d => by rw [function]) rfl ?_
    refine .expect rfl fun name rest hn => .expect rfl fun lparen rest hl => ?_
    have hbody : ∀ (params : List Token) {us : List Token} (inside : Prop) (rest : List Token),
        ParameterClause us →
        Tracks (fun vs => Forms .function (name :: lparen :: (us ++ vs))) inside (fun d => do
          let _ ← expect (.punct .rightParen) .parametersEnd
          let _ ← expect (.punct .leftBrace) (.functionBodyStart role)
          let body ← block d
          pure (FunctionDecl.mk name params body)) n rest := by
      intro params us inside rest hp
      refine .expect rfl fun rparen rest hr => .expect rfl fun lbrace rest hlb => ?_
      refine .bind (block_tracks n _ rest (.inr hlb)) fun body vs rest hvs => .pure ?_
      rw [List.append_nil]
      exact .function hn hl hp hr (hvs.block hlb)
    refine .sees fun empty => ?_
    cases empty with
    | true =>
      simp only [if_true]
      exact .pureBind (hbody _ _ _ .none)
    | false =>
      simp only [Bool.false_eq_true, if_false]
      refine .bind (parameterList_tracks n 0 _ rest) fun params us rest hus => ?_
      obtain ⟨ps, hps⟩ := hus
      exact hbody _ _ _ (.some hps)

theorem statement_tracks : ∀ (n : Nat) (inside : Prop) (ts : List Token),
    Tracks (Forms .statement) inside statement n ts
  | 0, _, _ => .zero (Forms.inhabited _) rfl
  | n + 1, inside, ts => by
    have hexpression : Tracks (Forms .statement) inside expressionStatement n ts :=
      (expressionStatement_tracks n inside ts).mono fun us hus => .expression hus
    refine .succ (fun d => by rw [statement]) rfl (.peek ?_)
    cases ts with
    | nil => exact hexpression
    | cons t ts =>
      simp only [List.head?_cons]
      cases hk : t.kind with
      | keyword word =>
        cases word
        case forWord => exact .advance (forStatement_tracks n _ ts hk)
        case ifWord => exact .advance (ifStatement_tracks n _ ts hk)
        case whileWord => exact .advance (whileStatement_tracks n _ ts hk)
        case returnWord => exact .advance (returnStatement_tracks n _ ts hk)
        case printWord => exact .advance (printStatement_tracks n _ ts hk)
        all_goals exact hexpression
      | punct p =>
        cases p
        case leftBrace =>
          refine .advance (.map ?_)
          exact (block_tracks n _ ts (.inr hk)).mono fun us hus => .blockStatement (hus.block hk)
        all_goals exact hexpression
      | _ => exact hexpression

theorem forStatement_tracks : ∀ (n : Nat) (inside : Prop) (ts : List Token) {word : Token},
    word.kind = .keyword .forWord →
      Tracks (fun us => Forms .statement (word :: us)) inside forStatement n ts
  | 0, _, _, word, hw => by
    obtain ⟨us, hus⟩ := exists_forHead hw
    obtain ⟨body, hbody⟩ := Forms.inhabited .statement
    exact .zero ⟨us ++ body, .loop hus hbody⟩ rfl
  | n + 1, inside, ts, word, hw => by
    refine .succ (fun d => by rw [forStatement]) rfl ?_
    refine .expect rfl fun lparen rest hl => ?_
    refine .bind (forInitializer_tracks n _ rest) fun initializer us rest hus => ?_
    refine .bind (expressionUnless_tracks n _ rest _) fun condition vs rest hvs => ?_
    refine .expect rfl fun semicolon rest hs => ?_
    refine .bind (expressionUnless_tracks n _ rest _) fun increment ws rest hws => ?_
    refine .expect rfl fun rparen rest hr => ?_
    refine .bind (statement_tracks n _ rest) fun body xs rest hxs => .pure ?_
    have hloop := Forms.loop (.forHead hw hl hus hvs hs hws hr) hxs
    simpa using hloop

theorem ifStatement_tracks : ∀ (n : Nat) (inside : Prop) (ts : List Token) {word : Token},
    word.kind = .keyword .ifWord →
      Tracks (fun us => Forms .statement (word :: us)) inside ifStatement n ts
  | 0, _, _, word, hw => by
    obtain ⟨us, hus⟩ := exists_ifHead hw
    obtain ⟨body, hbody⟩ := Forms.inhabited .statement
    exact .zero ⟨us ++ body, .ifThen hus hbody⟩ rfl
  | n + 1, inside, ts, word, hw => by
    refine .succ (fun d => by rw [ifStatement]) rfl ?_
    refine .expect rfl fun lparen rest hl => ?_
    refine .bind (expression_tracks n _ rest) fun condition us rest hus => ?_
    refine .expect rfl fun rparen rest hr => ?_
    refine .bind (statement_tracks n _ rest) fun thenBranch vs rest hvs => ?_
    refine .accept (fun elseWord rest he => ?_) (.pure ?_)
    · refine .bind (statement_tracks n _ rest) fun elseBranch ws rest hws => .pure ?_
      have hif := Forms.ifElse (.mk hw hl hus hr) hvs he hws
      simpa using hif
    · have hif := Forms.ifThen (.mk hw hl hus hr) hvs
      simpa using hif

theorem whileStatement_tracks : ∀ (n : Nat) (inside : Prop) (ts : List Token) {word : Token},
    word.kind = .keyword .whileWord →
      Tracks (fun us => Forms .statement (word :: us)) inside whileStatement n ts
  | 0, _, _, word, hw => by
    obtain ⟨us, hus⟩ := exists_whileHead hw
    obtain ⟨body, hbody⟩ := Forms.inhabited .statement
    exact .zero ⟨us ++ body, .loop hus hbody⟩ rfl
  | n + 1, inside, ts, word, hw => by
    refine .succ (fun d => by rw [whileStatement]) rfl ?_
    refine .expect rfl fun lparen rest hl => ?_
    refine .bind (expression_tracks n _ rest) fun condition us rest hus => ?_
    refine .expect rfl fun rparen rest hr => ?_
    refine .bind (statement_tracks n _ rest) fun body vs rest hvs => .pure ?_
    have hloop := Forms.loop (.whileHead hw hl hus hr) hvs
    simpa using hloop

theorem block_tracks : ∀ (n : Nat) (inside : Prop) (ts : List Token), inside →
    Tracks EndsBlock inside block n ts
  | 0, _, _, _ => .zero EndsBlock.inhabited rfl
  | n + 1, inside, ts, hi => by
    refine .succ (fun d => by rw [block]) rfl (.peek ?_)
    cases ts with
    | nil => exact .fail rfl EndsBlock.inhabited
    | cons t ts =>
      simp only [List.head?_cons]
      by_cases hr : t.kind = .punct .rightBrace
      · simp only [hr, if_true]
        exact .advance (.pure ⟨[], t, rfl, .declarationsNil, hr⟩)
      · simp only [hr, if_false]
        refine .bind (declaration_tracks n inside (t :: ts) hi) fun first us rest hus => ?_
        refine .bind (block_tracks n inside rest hi) fun others vs rest hvs => .pure ?_
        rw [List.append_nil]
        exact hvs.cons hus

end

/-- A program is read as far as it can be one. The recovery of its declarations is outside of
braces. -/
theorem program_tracks : ∀ (n : Nat) (ts : List Token), Tracks IsProgram True program n ts
  | 0, _ => .zero (Forms.inhabited _) rfl
  | n + 1, ts => by
    refine .succ (fun d => by rw [program]) rfl (.peek ?_)
    cases ts with
    | nil => exact .pure .declarationsNil
    | cons t ts =>
      refine .bind (declaration_tracks n True (t :: ts) trivial) fun first us rest hus => ?_
      refine .bind (program_tracks n rest) fun others vs rest hvs => .pure ?_
      rw [List.append_nil]
      exact .declarationsCons hus hvs

end Lox.Grammar.Relaxed
