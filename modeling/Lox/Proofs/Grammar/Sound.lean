import Lox.Proofs.Grammar.Derivation
import Lox.Proofs.Grammar.Reading

/-!
# Readings are derivations

What a reader of the grammar reads without faults, its rule derives: the tokens taken are a prefix
of the input, and the value is their tree (`expression_sound`, `statement_sound`, `program_sound`).
A statement is moreover not followed by an `else` that it could have taken.
-/

set_option autoImplicit false

namespace Lox.Grammar

open Parse

/-! ## Operators -/

theorem has_iff {l : Level} {t : Token} : l.has t = true ↔ Joins l t.kind := by
  constructor
  · intro h
    cases l <;>
      simp only [Level.has, Level.operators, List.contains_eq_mem, List.mem_cons, List.not_mem_nil,
        or_false, decide_eq_true_eq] at h
    · rw [h]; exact .or
    · rw [h]; exact .and
    · rcases h with h | h <;> rw [h] <;> constructor
    · rcases h with h | h | h | h <;> rw [h] <;> constructor
    · rcases h with h | h <;> rw [h] <;> constructor
    · rcases h with h | h <;> rw [h] <;> constructor
  · intro h
    generalize hk : t.kind = k at h
    cases h <;> simp [Level.has, Level.operators, hk]

theorem isUnary_iff {t : Token} :
    isUnary t = true ↔ t.kind = .punct .bang ∨ t.kind = .punct .minus := by
  simp [isUnary]

/-- An operator and its operands on one level, whichever node the level makes. -/
theorem Derives.node {l : Level} {us ts : List Token} {op : Token} {left right : Expr}
    (h₁ : Derives (.level l) us left) (hop : Joins l op.kind)
    (h₂ : Derives (.operand l) ts right) :
    Derives (.level l) (us ++ op :: ts) (l.node left op right) := by
  cases l with
  | or => exact .logical (.inl rfl) h₁ hop h₂
  | and => exact .logical (.inr rfl) h₁ hop h₂
  | _ => exact .binary (by decide) h₁ hop h₂

theorem Derives.ofTighter {l l' : Level} {ts : List Token} {e : Expr} (hl : l.tighter = some l')
    (h : Derives (.level l') ts e) : Derives (.operand l) ts e := by
  cases l with
  | or => cases hl; exact .orOperand h
  | and => cases hl; exact .andOperand h
  | equality => cases hl; exact .equalityOperand h
  | comparison => cases hl; exact .comparisonOperand h
  | term => cases hl; exact .termOperand h
  | factor => cases hl

theorem Derives.ofTightest {l : Level} {ts : List Token} {e : Expr} (hl : l.tighter = none)
    (h : Derives .unary ts e) : Derives (.operand l) ts e := by
  cases l with
  | factor => exact .factorOperand h
  | _ => cases hl

theorem leaf?_sound {t : Token} {e : Expr} (h : leaf? t = some e) : Derives .primary [t] e := by
  unfold leaf? at h
  split at h <;> cases h
  · exact .false ‹_›
  · exact .true ‹_›
  · exact .nil ‹_›
  · exact .this ‹_›
  · exact .number ‹_›
  · exact .string ‹_›
  · exact .identifier ‹_›

/-! ## Assignment targets -/

/-- Trees that are made by no operator. -/
def Expr.IsCall : Expr → Prop
  | .logical .. | .binary .. | .unary .. => False
  | _ => True

/-- A chain of operators without an operator is a call. -/
theorem Derives.call_of_isCall {p : Phrase} {ts : List Token} {e : p.Tree} (h : Derives p ts e) :
    match p, e with
    | .level _, e | .operand _, e | .unary, e => Expr.IsCall e → Derives .call ts e
    | _, _ => True := by
  induction h with
  | single _ ih => exact ih
  | logical => exact False.elim
  | binary => exact False.elim
  | orOperand _ ih => exact ih
  | andOperand _ ih => exact ih
  | equalityOperand _ ih => exact ih
  | comparisonOperand _ ih => exact ih
  | termOperand _ ih => exact ih
  | factorOperand _ ih => exact ih
  | unary => exact False.elim
  | unaryCall h _ => exact fun _ => h
  | _ => trivial

theorem Derives.variable_inv {ts : List Token} {name : Token} {depth : Option Nat}
    (h : Derives (.level .or) ts (.variable name depth)) :
    ts = [name] ∧ name.kind = .identifier := by
  have hc : Derives .call ts (.variable name depth) := h.call_of_isCall trivial
  cases hc with
  | callPrimary hp =>
    cases hp with
    | identifier hn => exact ⟨rfl, hn⟩

theorem Derives.get_inv {ts : List Token} {object : Expr} {name : Token}
    (h : Derives (.level .or) ts (.get object name)) :
    ∃ us dot, ts = us ++ [dot, name] ∧ Derives .call us object ∧ dot.kind = .punct .dot ∧
      name.kind = .identifier := by
  have hc : Derives .call ts (.get object name) := h.call_of_isCall trivial
  cases hc with
  | callPrimary hp => cases hp
  | get ho hd hn => exact ⟨_, _, rfl, ho, hd, hn⟩

/-- An assignment is derived from a target that can be assigned. -/
theorem assignment?_sound {us ts : List Token} {equal : Token} {left value e : Expr}
    (h₁ : Derives (.level .or) us left) (he : equal.kind = .punct .equal)
    (h₂ : Derives .expression ts value) (h : assignment? left value = some e) :
    Derives .expression (us ++ equal :: ts) e := by
  unfold assignment? at h
  split at h <;> cases h
  · obtain ⟨rfl, hn⟩ := h₁.variable_inv
    exact .assign hn he h₂
  · obtain ⟨us', dot, rfl, ho, hd, hn⟩ := h₁.get_inv
    rw [List.append_assoc]
    exact .set ho hd hn he h₂

/-! ## Expressions -/

mutual

theorem expression_sound : ∀ (d : Nat) {ts rest : List Token} {e : Expr},
    Reads (expression d) ts e rest → ∃ used, ts = used ++ rest ∧ Derives .expression used e
  | 0, _, _, _, h => absurd h not_reads_exhausted
  | d + 1, ts, rest, e, h => by
    rw [expression] at h
    rw [reads_bind] at h
    obtain ⟨left, mid, hleft, h⟩ := h
    obtain ⟨us, rfl, hd⟩ := binary_sound d .or hleft
    rw [reads_bind] at h
    obtain ⟨o, mid', ho, h⟩ := h
    rcases reads_accept.1 ho with ⟨equal, rfl, rfl, he⟩ | ⟨rfl, rfl, -⟩
    · rw [reads_bind] at h
      obtain ⟨value, mid₂, hvalue, h⟩ := h
      obtain ⟨vs, rfl, hv⟩ := expression_sound d hvalue
      split at h
      · rename_i assigned ha
        obtain ⟨rfl, rfl⟩ := reads_pure.1 h
        exact ⟨us ++ equal :: vs, by simp, assignment?_sound hd he hv ha⟩
      · rw [reads_bind] at h
        obtain ⟨u, mid₃, hnote, -⟩ := h
        exact absurd hnote not_reads_noteAt
    · obtain ⟨rfl, rfl⟩ := reads_pure.1 h
      exact ⟨us, rfl, .disjunction hd⟩

theorem binary_sound : ∀ (d : Nat) (l : Level) {ts rest : List Token} {e : Expr},
    Reads (binary d l) ts e rest → ∃ used, ts = used ++ rest ∧ Derives (.level l) used e
  | 0, _, _, _, _, h => absurd h not_reads_exhausted
  | d + 1, l, ts, rest, e, h => by
    rw [binary] at h
    rw [reads_bind] at h
    obtain ⟨left, mid, hleft, h⟩ := h
    obtain ⟨us, rfl, hd⟩ := operand_sound d l hleft
    obtain ⟨vs, rfl, hv⟩ := binaryTail_sound d l h
    exact ⟨us ++ vs, by simp, hv (.single hd)⟩

/-- What `binaryTail` takes continues every chain that ends in `left`. -/
theorem binaryTail_sound : ∀ (d : Nat) (l : Level) {left : Expr} {ts rest : List Token} {e : Expr},
    Reads (binaryTail d l left) ts e rest → ∃ used, ts = used ++ rest ∧
      ∀ {before : List Token}, Derives (.level l) before left →
        Derives (.level l) (before ++ used) e
  | 0, _, _, _, _, _, h => absurd h not_reads_exhausted
  | d + 1, l, left, ts, rest, e, h => by
    rw [binaryTail] at h
    rw [reads_bind] at h
    obtain ⟨o, mid, ho, h⟩ := h
    rcases reads_acceptIf.1 ho with ⟨operator, rfl, rfl, hop⟩ | ⟨rfl, rfl, -⟩
    · rw [reads_bind] at h
      obtain ⟨right, mid', hright, h⟩ := h
      obtain ⟨us, rfl, hr⟩ := operand_sound d l hright
      obtain ⟨vs, rfl, hv⟩ := binaryTail_sound d l h
      refine ⟨operator :: (us ++ vs), by simp, fun {before} hb => ?_⟩
      have := hv (hb.node (has_iff.1 hop) hr)
      rwa [List.append_assoc, List.cons_append] at this
    · obtain ⟨rfl, rfl⟩ := reads_pure.1 h
      exact ⟨[], rfl, fun hb => by rwa [List.append_nil]⟩

theorem operand_sound : ∀ (d : Nat) (l : Level) {ts rest : List Token} {e : Expr},
    Reads (operand d l) ts e rest → ∃ used, ts = used ++ rest ∧ Derives (.operand l) used e
  | 0, _, _, _, _, h => absurd h not_reads_exhausted
  | d + 1, l, ts, rest, e, h => by
    rw [operand] at h
    split at h
    · rename_i l' hl
      obtain ⟨us, rfl, hd⟩ := binary_sound d l' h
      exact ⟨us, rfl, .ofTighter hl hd⟩
    · rename_i hl
      obtain ⟨us, rfl, hd⟩ := unary_sound d h
      exact ⟨us, rfl, .ofTightest hl hd⟩

theorem unary_sound : ∀ (d : Nat) {ts rest : List Token} {e : Expr},
    Reads (unary d) ts e rest → ∃ used, ts = used ++ rest ∧ Derives .unary used e
  | 0, _, _, _, h => absurd h not_reads_exhausted
  | d + 1, ts, rest, e, h => by
    rw [unary] at h
    rw [reads_bind] at h
    obtain ⟨o, mid, ho, h⟩ := h
    rcases reads_acceptIf.1 ho with ⟨operator, rfl, rfl, hop⟩ | ⟨rfl, rfl, -⟩
    · rw [reads_bind] at h
      obtain ⟨right, mid', hright, h⟩ := h
      obtain ⟨us, rfl, hr⟩ := unary_sound d hright
      obtain ⟨rfl, rfl⟩ := reads_pure.1 h
      exact ⟨operator :: us, rfl, .unary (isUnary_iff.1 hop) hr⟩
    · rw [reads_bind] at h
      obtain ⟨callee, mid', hcallee, h⟩ := h
      obtain ⟨us, rfl, hc⟩ := primary_sound d hcallee
      obtain ⟨vs, rfl, hv⟩ := callTail_sound d h
      exact ⟨us ++ vs, by simp, .unaryCall (hv (.callPrimary hc))⟩

/-- What `callTail` takes continues every call that ends in `callee`. -/
theorem callTail_sound : ∀ (d : Nat) {callee : Expr} {ts rest : List Token} {e : Expr},
    Reads (callTail d callee) ts e rest → ∃ used, ts = used ++ rest ∧
      ∀ {before : List Token}, Derives .call before callee → Derives .call (before ++ used) e
  | 0, _, _, _, _, h => absurd h not_reads_exhausted
  | d + 1, callee, ts, rest, e, h => by
    rw [callTail] at h
    rw [reads_bind] at h
    obtain ⟨o, mid, ho, h⟩ := h
    rcases reads_accept.1 ho with ⟨lparen, rfl, rfl, hl⟩ | ⟨rfl, rfl, -⟩
    · rw [reads_bind] at h
      obtain ⟨empty, mid₁, hempty, h⟩ := h
      obtain ⟨-, rfl⟩ := reads_sees.1 hempty
      dsimp only at h
      split at h
      · rw [reads_bind] at h
        obtain ⟨arguments, mid₂, ha, h⟩ := h
        obtain ⟨rfl, rfl⟩ := reads_pure.1 ha
        rw [reads_bind] at h
        obtain ⟨rparen, mid₃, hread, h⟩ := h
        obtain ⟨rfl, hr⟩ := reads_expect.1 hread
        obtain ⟨vs, rfl, hv⟩ := callTail_sound d h
        refine ⟨lparen :: rparen :: vs, rfl, fun {before} hb => ?_⟩
        have := hv (.callEmpty hb hl hr)
        rwa [List.append_assoc] at this
      · rw [reads_bind] at h
        obtain ⟨arguments, mid₂, hread, h⟩ := h
        obtain ⟨us, rfl, ha, hn⟩ := argumentList_sound d hread
        rw [reads_bind] at h
        obtain ⟨rparen, mid₃, hread, h⟩ := h
        obtain ⟨rfl, hr⟩ := reads_expect.1 hread
        obtain ⟨vs, rfl, hv⟩ := callTail_sound d h
        refine ⟨lparen :: (us ++ rparen :: vs), by simp, fun {before} hb => ?_⟩
        have := hv (.call hb hl ha (by omega) hr)
        simpa only [List.append_assoc, List.cons_append, List.nil_append] using this
    · rw [reads_bind] at h
      obtain ⟨o, mid', ho, h⟩ := h
      rcases reads_accept.1 ho with ⟨dot, rfl, rfl, hd⟩ | ⟨rfl, rfl, -⟩
      · rw [reads_bind] at h
        obtain ⟨name, mid', hread, h⟩ := h
        obtain ⟨rfl, hn⟩ := reads_expect.1 hread
        obtain ⟨vs, rfl, hv⟩ := callTail_sound d h
        refine ⟨dot :: name :: vs, rfl, fun {before} hb => ?_⟩
        have := hv (.get hb hd hn)
        rwa [List.append_assoc] at this
      · obtain ⟨rfl, rfl⟩ := reads_pure.1 h
        exact ⟨[], rfl, fun hb => by rwa [List.append_nil]⟩

theorem argumentList_sound : ∀ (d : Nat) {count : Nat} {ts rest : List Token} {es : List Expr},
    Reads (argumentList d count) ts es rest →
      ∃ used, ts = used ++ rest ∧ Derives .arguments used es ∧ count + es.length ≤ 255
  | 0, _, _, _, _, h => absurd h not_reads_exhausted
  | d + 1, count, ts, rest, es, h => by
    rw [argumentList] at h
    split at h
    · rw [reads_bind] at h
      obtain ⟨t, mid, -, h⟩ := h
      rw [reads_bind] at h
      obtain ⟨u, mid', hnote, -⟩ := h
      exact absurd hnote not_reads_noteAt
    · rename_i hcount
      unfold maxArguments at hcount
      rw [reads_bind] at h
      obtain ⟨argument, mid, hread, h⟩ := h
      obtain ⟨us, rfl, ha⟩ := expression_sound d hread
      rw [reads_bind] at h
      obtain ⟨o, mid', ho, h⟩ := h
      rcases reads_accept.1 ho with ⟨comma, rfl, rfl, hc⟩ | ⟨rfl, rfl, -⟩
      · rw [reads_bind] at h
        obtain ⟨others, mid₂, hothers, h⟩ := h
        obtain ⟨vs, rfl, hv, hn⟩ := argumentList_sound d hothers
        obtain ⟨rfl, rfl⟩ := reads_pure.1 h
        refine ⟨us ++ comma :: vs, by simp, .argumentCons ha hc hv, ?_⟩
        simp only [List.length_cons]
        omega
      · obtain ⟨rfl, rfl⟩ := reads_pure.1 h
        exact ⟨us, rfl, .argument ha, by simp only [List.length_singleton]; omega⟩

theorem primary_sound : ∀ (d : Nat) {ts rest : List Token} {e : Expr},
    Reads (primary d) ts e rest → ∃ used, ts = used ++ rest ∧ Derives .primary used e
  | 0, _, _, _, h => absurd h not_reads_exhausted
  | d + 1, ts, rest, e, h => by
    rw [primary] at h
    rw [reads_bind] at h
    obtain ⟨o, mid, ho, h⟩ := h
    obtain ⟨rfl, rfl⟩ := reads_peek.1 ho
    cases ts with
    | nil => exact absurd h not_reads_fail
    | cons t ts =>
      dsimp only [List.head?_cons] at h
      split at h
      · rename_i leaf hleaf
        rw [reads_bind] at h
        obtain ⟨u, mid, hread, h⟩ := h
        obtain rfl : ts = mid := reads_advance.1 hread
        obtain ⟨rfl, rfl⟩ := reads_pure.1 h
        exact ⟨[t], rfl, leaf?_sound hleaf⟩
      · split at h
        · rename_i hsuper
          rw [reads_bind] at h
          obtain ⟨u, mid, hread, h⟩ := h
          obtain rfl : ts = mid := reads_advance.1 hread
          rw [reads_bind] at h
          obtain ⟨dot, mid, hread, h⟩ := h
          obtain ⟨rfl, hd⟩ := reads_expect.1 hread
          rw [reads_bind] at h
          obtain ⟨method, mid, hread, h⟩ := h
          obtain ⟨rfl, hm⟩ := reads_expect.1 hread
          obtain ⟨rfl, rfl⟩ := reads_pure.1 h
          exact ⟨[t, dot, method], rfl, .super hsuper hd hm⟩
        · split at h
          · rename_i hparen
            rw [reads_bind] at h
            obtain ⟨u, mid, hread, h⟩ := h
            obtain rfl : ts = mid := reads_advance.1 hread
            rw [reads_bind] at h
            obtain ⟨inner, mid, hread, h⟩ := h
            obtain ⟨us, rfl, hi⟩ := expression_sound d hread
            rw [reads_bind] at h
            obtain ⟨rparen, mid, hread, h⟩ := h
            obtain ⟨rfl, hr⟩ := reads_expect.1 hread
            obtain ⟨rfl, rfl⟩ := reads_pure.1 h
            exact ⟨t :: (us ++ [rparen]), by simp, .grouping hparen hi hr⟩
          · exact absurd h not_reads_fail

end

/-! ## Parts of declarations and statements -/

theorem expressionUnless_sound {d : Nat} {kind : TokenKind} {ts rest : List Token}
    {o : Option Expr} (h : Reads (expressionUnless d kind) ts o rest) :
    ∃ used, ts = used ++ rest ∧ DerivesOption used o := by
  unfold expressionUnless at h
  rw [reads_bind] at h
  obtain ⟨b, mid, hread, h⟩ := h
  obtain ⟨-, rfl⟩ := reads_sees.1 hread
  split at h
  · obtain ⟨rfl, rfl⟩ := reads_pure.1 h
    exact ⟨[], rfl, .none⟩
  · rw [reads_bind] at h
    obtain ⟨e, mid, hread, h⟩ := h
    obtain ⟨us, rfl, he⟩ := expression_sound d hread
    obtain ⟨rfl, rfl⟩ := reads_pure.1 h
    exact ⟨us, rfl, .some he⟩

theorem parameterList_sound : ∀ (d : Nat) {count : Nat} {ts rest ps : List Token},
    Reads (parameterList d count) ts ps rest →
      ∃ used, ts = used ++ rest ∧ Parameters used ps ∧ count + ps.length ≤ 255
  | 0, _, _, _, _, h => absurd h not_reads_exhausted
  | d + 1, count, ts, rest, ps, h => by
    rw [parameterList] at h
    split at h
    · rw [reads_bind] at h
      obtain ⟨t, mid, -, h⟩ := h
      rw [reads_bind] at h
      obtain ⟨u, mid', hnote, -⟩ := h
      exact absurd hnote not_reads_noteAt
    · rename_i hcount
      unfold maxArguments at hcount
      rw [reads_bind] at h
      obtain ⟨p, mid, hread, h⟩ := h
      obtain ⟨rfl, hp⟩ := reads_expect.1 hread
      rw [reads_bind] at h
      obtain ⟨o, mid', ho, h⟩ := h
      rcases reads_accept.1 ho with ⟨comma, rfl, rfl, hc⟩ | ⟨rfl, rfl, -⟩
      · rw [reads_bind] at h
        obtain ⟨others, mid₂, hothers, h⟩ := h
        obtain ⟨vs, rfl, hv, hn⟩ := parameterList_sound d hothers
        obtain ⟨rfl, rfl⟩ := reads_pure.1 h
        refine ⟨p :: comma :: vs, rfl, .cons hp hc hv, ?_⟩
        simp only [List.length_cons]
        omega
      · obtain ⟨rfl, rfl⟩ := reads_pure.1 h
        exact ⟨[p], rfl, .one hp, by simp only [List.length_singleton]; omega⟩

theorem varDeclaration_sound {d : Nat} {ts rest : List Token} {s : Stmt}
    (h : Reads (varDeclaration d) ts s rest) :
    ∃ used, ts = used ++ rest ∧
      ∀ {word : Token}, word.kind = .keyword .varWord → VarDeclaration (word :: used) s := by
  unfold varDeclaration at h
  rw [reads_bind] at h
  obtain ⟨name, mid, hread, h⟩ := h
  obtain ⟨rfl, hn⟩ := reads_expect.1 hread
  rw [reads_bind] at h
  obtain ⟨o, mid', ho, h⟩ := h
  rcases reads_accept.1 ho with ⟨equal, rfl, rfl, he⟩ | ⟨rfl, rfl, -⟩
  · dsimp only at h
    rw [reads_bind] at h
    obtain ⟨initializer, mid, hread, h⟩ := h
    rw [reads_map] at hread
    obtain ⟨value, hread, rfl⟩ := hread
    obtain ⟨us, rfl, hv⟩ := expression_sound d hread
    rw [reads_bind] at h
    obtain ⟨semicolon, mid, hread, h⟩ := h
    obtain ⟨rfl, hs⟩ := reads_expect.1 hread
    obtain ⟨rfl, rfl⟩ := reads_pure.1 h
    exact ⟨name :: equal :: (us ++ [semicolon]), by simp, fun hw => .initialized hw hn he hv hs⟩
  · dsimp only at h
    rw [reads_bind] at h
    obtain ⟨initializer, mid, hread, h⟩ := h
    obtain ⟨rfl, rfl⟩ := reads_pure.1 hread
    rw [reads_bind] at h
    obtain ⟨semicolon, mid, hread, h⟩ := h
    obtain ⟨rfl, hs⟩ := reads_expect.1 hread
    obtain ⟨rfl, rfl⟩ := reads_pure.1 h
    exact ⟨[name, semicolon], rfl, fun hw => .bare hw hn hs⟩

theorem expressionStatement_sound {d : Nat} {ts rest : List Token} {s : Stmt}
    (h : Reads (expressionStatement d) ts s rest) :
    ∃ used, ts = used ++ rest ∧ ExpressionStatement used s := by
  unfold expressionStatement at h
  rw [reads_bind] at h
  obtain ⟨value, mid, hread, h⟩ := h
  obtain ⟨us, rfl, hv⟩ := expression_sound d hread
  rw [reads_bind] at h
  obtain ⟨semicolon, mid, hread, h⟩ := h
  obtain ⟨rfl, hs⟩ := reads_expect.1 hread
  obtain ⟨rfl, rfl⟩ := reads_pure.1 h
  exact ⟨us ++ [semicolon], by simp, .mk hv hs⟩

theorem printStatement_sound {d : Nat} {word : Token} {ts rest : List Token} {s : Stmt}
    (hw : word.kind = .keyword .printWord) (h : Reads (printStatement d word) ts s rest) :
    ∃ used, ts = used ++ rest ∧ Forms (.statement false) (word :: used) s := by
  unfold printStatement at h
  rw [reads_bind] at h
  obtain ⟨value, mid, hread, h⟩ := h
  obtain ⟨us, rfl, hv⟩ := expression_sound d hread
  rw [reads_bind] at h
  obtain ⟨semicolon, mid, hread, h⟩ := h
  obtain ⟨rfl, hs⟩ := reads_expect.1 hread
  obtain ⟨rfl, rfl⟩ := reads_pure.1 h
  exact ⟨us ++ [semicolon], by simp, .print hw hv hs⟩

theorem returnStatement_sound {d : Nat} {word : Token} {ts rest : List Token} {s : Stmt}
    (hw : word.kind = .keyword .returnWord) (h : Reads (returnStatement d word) ts s rest) :
    ∃ used, ts = used ++ rest ∧ Forms (.statement false) (word :: used) s := by
  unfold returnStatement at h
  rw [reads_bind] at h
  obtain ⟨value, mid, hread, h⟩ := h
  obtain ⟨us, rfl, hv⟩ := expressionUnless_sound hread
  rw [reads_bind] at h
  obtain ⟨semicolon, mid, hread, h⟩ := h
  obtain ⟨rfl, hs⟩ := reads_expect.1 hread
  obtain ⟨rfl, rfl⟩ := reads_pure.1 h
  exact ⟨us ++ [semicolon], by simp, .ret hw hv hs⟩

theorem forInitializer_sound {d : Nat} {ts rest : List Token} {o : Option Stmt}
    (h : Reads (forInitializer d) ts o rest) :
    ∃ used, ts = used ++ rest ∧ ForInitializer used o := by
  unfold forInitializer at h
  rw [reads_bind] at h
  obtain ⟨t, mid, ho, h⟩ := h
  rcases reads_accept.1 ho with ⟨semicolon, rfl, rfl, hs⟩ | ⟨rfl, rfl, -⟩
  · obtain ⟨rfl, rfl⟩ := reads_pure.1 h
    exact ⟨[semicolon], rfl, .none hs⟩
  · dsimp only at h
    rw [reads_bind] at h
    obtain ⟨t, mid, ho, h⟩ := h
    rcases reads_accept.1 ho with ⟨word, rfl, rfl, hw⟩ | ⟨rfl, rfl, -⟩
    · obtain ⟨s, hread, rfl⟩ := reads_map.1 h
      obtain ⟨us, rfl, hs⟩ := varDeclaration_sound hread
      exact ⟨word :: us, rfl, .var (hs hw)⟩
    · obtain ⟨s, hread, rfl⟩ := reads_map.1 h
      obtain ⟨us, rfl, hs⟩ := expressionStatement_sound hread
      exact ⟨us, rfl, .expression hs⟩

theorem forLoop_eq (initializer : Option Stmt) (condition increment : Option Expr) (body : Stmt) :
    forLoop initializer condition increment body =
      withInitializer (.loop (condition.getD (.literal .true)) (withIncrement body increment))
        initializer := by
  cases initializer <;> cases increment <;> rfl

/-! ## Declarations and statements -/

/-- No `else` comes next. -/
def NoElse (rest : List Token) : Prop :=
  ∀ t ∈ rest.head?, t.kind ≠ .keyword .elseWord

mutual

theorem declarationOrFail_sound : ∀ (d : Nat) {ts rest : List Token} {s : Stmt},
    Reads (declarationOrFail d) ts s rest → ∃ used, ts = used ++ rest ∧ Forms .declaration used s
  | 0, _, _, _, h => absurd h not_reads_exhausted
  | d + 1, ts, rest, s, h => by
    rw [declarationOrFail, reads_bind] at h
    obtain ⟨t, mid, ho, h⟩ := h
    rcases reads_accept.1 ho with ⟨word, rfl, rfl, hw⟩ | ⟨rfl, rfl, -⟩
    · obtain ⟨us, rfl, hs⟩ := classDeclaration_sound d h
      exact ⟨word :: us, rfl, hs hw⟩
    · dsimp only at h
      rw [reads_bind] at h
      obtain ⟨t, mid, ho, h⟩ := h
      rcases reads_accept.1 ho with ⟨word, rfl, rfl, hw⟩ | ⟨rfl, rfl, -⟩
      · obtain ⟨f, hread, rfl⟩ := reads_map.1 h
        obtain ⟨us, rfl, hf⟩ := function_sound d hread
        exact ⟨word :: us, rfl, .funDecl hw hf⟩
      · dsimp only at h
        rw [reads_bind] at h
        obtain ⟨t, mid, ho, h⟩ := h
        rcases reads_accept.1 ho with ⟨word, rfl, rfl, hw⟩ | ⟨rfl, rfl, -⟩
        · obtain ⟨us, rfl, hs⟩ := varDeclaration_sound h
          exact ⟨word :: us, rfl, .varDecl (hs hw)⟩
        · obtain ⟨us, dangling, rfl, hs, -⟩ := statement_sound d h
          exact ⟨us, rfl, .statement hs⟩

theorem classDeclaration_sound : ∀ (d : Nat) {ts rest : List Token} {s : Stmt},
    Reads (classDeclaration d) ts s rest → ∃ used, ts = used ++ rest ∧
      ∀ {word : Token}, word.kind = .keyword .classWord → Forms .declaration (word :: used) s
  | 0, _, _, _, h => absurd h not_reads_exhausted
  | d + 1, ts, rest, s, h => by
    rw [classDeclaration, reads_bind] at h
    obtain ⟨name, mid, hread, h⟩ := h
    obtain ⟨rfl, hn⟩ := reads_expect.1 hread
    have hbody : ∀ {superclass : Option Expr} {ts : List Token}, Reads (do
        let _ ← expect (.punct .leftBrace) .classBodyStart
        let methods ← methodList d
        let _ ← expect (.punct .rightBrace) .classBodyEnd
        pure (Stmt.classDecl name superclass methods)) ts s rest →
        ∃ used, ts = used ++ rest ∧ ∀ {word : Token} {us : List Token},
          word.kind = .keyword .classWord → SuperclassClause us superclass →
          Forms .declaration (word :: name :: (us ++ used)) s := by
      intro superclass ts h
      rw [reads_bind] at h
      obtain ⟨lbrace, mid, hread, h⟩ := h
      obtain ⟨rfl, hl⟩ := reads_expect.1 hread
      rw [reads_bind] at h
      obtain ⟨methods, mid, hread, h⟩ := h
      obtain ⟨us, rfl, hm⟩ := methodList_sound d hread
      rw [reads_bind] at h
      obtain ⟨rbrace, mid, hread, h⟩ := h
      obtain ⟨rfl, hr⟩ := reads_expect.1 hread
      obtain ⟨rfl, rfl⟩ := reads_pure.1 h
      exact ⟨lbrace :: (us ++ [rbrace]), by simp, fun hw hs => .classDecl hw hn hs hl hm hr⟩
    rw [reads_bind] at h
    obtain ⟨t, mid, ho, h⟩ := h
    rcases reads_accept.1 ho with ⟨less, rfl, rfl, hl⟩ | ⟨rfl, rfl, -⟩
    · dsimp only at h
      rw [reads_bind] at h
      obtain ⟨superName, mid, hread, h⟩ := h
      obtain ⟨rfl, hs⟩ := reads_expect.1 hread
      rw [reads_bind] at h
      obtain ⟨superclass, mid, hread, h⟩ := h
      obtain ⟨rfl, rfl⟩ := reads_pure.1 hread
      obtain ⟨us, rfl, hclass⟩ := hbody h
      exact ⟨name :: less :: superName :: us, rfl, fun hw => hclass hw (.some hl hs)⟩
    · dsimp only at h
      rw [reads_bind] at h
      obtain ⟨superclass, mid, hread, h⟩ := h
      obtain ⟨rfl, rfl⟩ := reads_pure.1 hread
      obtain ⟨us, rfl, hclass⟩ := hbody h
      exact ⟨name :: us, rfl, fun hw => hclass hw .none⟩

theorem methodList_sound : ∀ (d : Nat) {ts rest : List Token} {ms : List FunctionDecl},
    Reads (methodList d) ts ms rest → ∃ used, ts = used ++ rest ∧ Forms .methods used ms
  | 0, _, _, _, h => absurd h not_reads_exhausted
  | d + 1, ts, rest, ms, h => by
    rw [methodList, reads_bind] at h
    obtain ⟨t, mid, ho, h⟩ := h
    obtain ⟨rfl, rfl⟩ := reads_peek.1 ho
    split at h
    · obtain ⟨rfl, rfl⟩ := reads_pure.1 h
      exact ⟨[], rfl, .methodsNil⟩
    · split at h
      · obtain ⟨rfl, rfl⟩ := reads_pure.1 h
        exact ⟨[], rfl, .methodsNil⟩
      · rw [reads_bind] at h
        obtain ⟨m, mid, hread, h⟩ := h
        obtain ⟨us, rfl, hm⟩ := function_sound d hread
        rw [reads_bind] at h
        obtain ⟨ms', mid, hread, h⟩ := h
        obtain ⟨vs, rfl, hms⟩ := methodList_sound d hread
        obtain ⟨rfl, rfl⟩ := reads_pure.1 h
        exact ⟨us ++ vs, by simp, .methodsCons hm hms⟩

theorem function_sound : ∀ (d : Nat) {role : FunctionRole} {ts rest : List Token}
    {f : FunctionDecl}, Reads (function d role) ts f rest →
      ∃ used, ts = used ++ rest ∧ Forms .function used f
  | 0, _, _, _, _, h => absurd h not_reads_exhausted
  | d + 1, role, ts, rest, f, h => by
    rw [function, reads_bind] at h
    obtain ⟨name, mid, hread, h⟩ := h
    obtain ⟨rfl, hn⟩ := reads_expect.1 hread
    rw [reads_bind] at h
    obtain ⟨lparen, mid, hread, h⟩ := h
    obtain ⟨rfl, hl⟩ := reads_expect.1 hread
    have hbody : ∀ {params ts : List Token}, Reads (do
        let _ ← expect (.punct .rightParen) .parametersEnd
        let _ ← expect (.punct .leftBrace) (.functionBodyStart role)
        let body ← block d
        pure (FunctionDecl.mk name params body)) ts f rest →
        ∃ used, ts = used ++ rest ∧ ∀ {us : List Token}, ParameterClause us params →
          Forms .function (name :: lparen :: (us ++ used)) f := by
      intro params ts h
      rw [reads_bind] at h
      obtain ⟨rparen, mid, hread, h⟩ := h
      obtain ⟨rfl, hr⟩ := reads_expect.1 hread
      rw [reads_bind] at h
      obtain ⟨lbrace, mid, hread, h⟩ := h
      obtain ⟨rfl, hlb⟩ := reads_expect.1 hread
      rw [reads_bind] at h
      obtain ⟨body, mid, hread, h⟩ := h
      obtain ⟨us, rbrace, rfl, hb, hrb⟩ := block_sound d hread
      obtain ⟨rfl, rfl⟩ := reads_pure.1 h
      exact ⟨rparen :: lbrace :: (us ++ [rbrace]), by simp,
        fun hp => .function hn hl hp hr (.block hlb hb hrb)⟩
    rw [reads_bind] at h
    obtain ⟨empty, mid, hread, h⟩ := h
    obtain ⟨-, rfl⟩ := reads_sees.1 hread
    dsimp only at h
    split at h
    · rw [reads_bind] at h
      obtain ⟨params, mid, hread, h⟩ := h
      obtain ⟨rfl, rfl⟩ := reads_pure.1 hread
      obtain ⟨us, rfl, hf⟩ := hbody h
      exact ⟨name :: lparen :: us, rfl, hf .none⟩
    · rw [reads_bind] at h
      obtain ⟨params, mid, hread, h⟩ := h
      obtain ⟨vs, rfl, hp, hcount⟩ := parameterList_sound d hread
      obtain ⟨us, rfl, hf⟩ := hbody h
      exact ⟨name :: lparen :: (vs ++ us), by simp, hf (.some hp (by omega))⟩

theorem statement_sound : ∀ (d : Nat) {ts rest : List Token} {s : Stmt},
    Reads (statement d) ts s rest → ∃ used dangling, ts = used ++ rest ∧
      Forms (.statement dangling) used s ∧ (dangling = true → NoElse rest)
  | 0, _, _, _, h => absurd h not_reads_exhausted
  | d + 1, ts, rest, s, h => by
    have hexpression : Reads (expressionStatement d) ts s rest → ∃ used dangling,
        ts = used ++ rest ∧ Forms (.statement dangling) used s ∧
          (dangling = true → NoElse rest) := by
      intro h
      obtain ⟨us, rfl, hs⟩ := expressionStatement_sound h
      exact ⟨us, false, rfl, .expression hs, nofun⟩
    rw [statement, reads_bind] at h
    obtain ⟨o, mid, ho, h⟩ := h
    obtain ⟨rfl, rfl⟩ := reads_peek.1 ho
    cases ts with
    | nil => exact hexpression h
    | cons t ts =>
      dsimp only [List.head?_cons] at h
      split at h <;> try exact hexpression h
      all_goals
        rw [reads_bind] at h
        obtain ⟨u, mid, hread, h⟩ := h
        obtain rfl : ts = mid := reads_advance.1 hread
      · obtain ⟨us, dangling, rfl, hs, hrest⟩ := forStatement_sound d h
        exact ⟨t :: us, dangling, rfl, hs ‹_›, hrest⟩
      · obtain ⟨us, dangling, rfl, hs, hrest⟩ := ifStatement_sound d h
        exact ⟨t :: us, dangling, rfl, hs ‹_›, hrest⟩
      · obtain ⟨us, dangling, rfl, hs, hrest⟩ := whileStatement_sound d h
        exact ⟨t :: us, dangling, rfl, hs ‹_›, hrest⟩
      · obtain ⟨us, rfl, hs⟩ := returnStatement_sound ‹_› h
        exact ⟨t :: us, false, rfl, hs, nofun⟩
      · obtain ⟨body, hread, rfl⟩ := reads_map.1 h
        obtain ⟨us, rbrace, rfl, hb, hr⟩ := block_sound d hread
        exact ⟨t :: (us ++ [rbrace]), false, by simp, .blockStatement (.block ‹_› hb hr), nofun⟩
      · obtain ⟨us, rfl, hs⟩ := printStatement_sound ‹_› h
        exact ⟨t :: us, false, rfl, hs, nofun⟩

theorem forStatement_sound : ∀ (d : Nat) {ts rest : List Token} {s : Stmt},
    Reads (forStatement d) ts s rest → ∃ used dangling, ts = used ++ rest ∧
      (∀ {word : Token}, word.kind = .keyword .forWord →
        Forms (.statement dangling) (word :: used) s) ∧ (dangling = true → NoElse rest)
  | 0, _, _, _, h => absurd h not_reads_exhausted
  | d + 1, ts, rest, s, h => by
    rw [forStatement, reads_bind] at h
    obtain ⟨lparen, mid, hread, h⟩ := h
    obtain ⟨rfl, hl⟩ := reads_expect.1 hread
    rw [reads_bind] at h
    obtain ⟨initializer, mid, hread, h⟩ := h
    obtain ⟨us, rfl, hi⟩ := forInitializer_sound hread
    rw [reads_bind] at h
    obtain ⟨condition, mid, hread, h⟩ := h
    obtain ⟨vs, rfl, hc⟩ := expressionUnless_sound hread
    rw [reads_bind] at h
    obtain ⟨semicolon, mid, hread, h⟩ := h
    obtain ⟨rfl, hs⟩ := reads_expect.1 hread
    rw [reads_bind] at h
    obtain ⟨increment, mid, hread, h⟩ := h
    obtain ⟨ws, rfl, hn⟩ := expressionUnless_sound hread
    rw [reads_bind] at h
    obtain ⟨rparen, mid, hread, h⟩ := h
    obtain ⟨rfl, hr⟩ := reads_expect.1 hread
    rw [reads_bind] at h
    obtain ⟨body, mid, hread, h⟩ := h
    obtain ⟨xs, dangling, rfl, hb, hrest⟩ := statement_sound d hread
    obtain ⟨rfl, rfl⟩ := reads_pure.1 h
    refine ⟨lparen :: (us ++ (vs ++ semicolon :: (ws ++ rparen :: xs))), dangling, by simp,
      fun hw => ?_, hrest⟩
    rw [forLoop_eq]
    exact .forLoop hw hl hi hc hs hn hr hb

theorem ifStatement_sound : ∀ (d : Nat) {ts rest : List Token} {s : Stmt},
    Reads (ifStatement d) ts s rest → ∃ used dangling, ts = used ++ rest ∧
      (∀ {word : Token}, word.kind = .keyword .ifWord →
        Forms (.statement dangling) (word :: used) s) ∧ (dangling = true → NoElse rest)
  | 0, _, _, _, h => absurd h not_reads_exhausted
  | d + 1, ts, rest, s, h => by
    rw [ifStatement, reads_bind] at h
    obtain ⟨lparen, mid, hread, h⟩ := h
    obtain ⟨rfl, hl⟩ := reads_expect.1 hread
    rw [reads_bind] at h
    obtain ⟨condition, mid, hread, h⟩ := h
    obtain ⟨us, rfl, hc⟩ := expression_sound d hread
    rw [reads_bind] at h
    obtain ⟨rparen, mid, hread, h⟩ := h
    obtain ⟨rfl, hr⟩ := reads_expect.1 hread
    rw [reads_bind] at h
    obtain ⟨thenBranch, mid, hread, h⟩ := h
    obtain ⟨vs, dangling, rfl, ht, hdangling⟩ := statement_sound d hread
    rw [reads_bind] at h
    obtain ⟨o, mid, ho, h⟩ := h
    rcases reads_accept.1 ho with ⟨elseWord, rfl, rfl, he⟩ | ⟨rfl, rfl, hnone⟩
    · -- an `else` follows, so the branch before it is not dangling
      have hclosed : dangling = false := by
        cases dangling with
        | false => rfl
        | true => exact absurd he (hdangling rfl elseWord rfl)
      subst hclosed
      dsimp only at h
      rw [reads_bind] at h
      obtain ⟨elseBranch, mid, hread, h⟩ := h
      obtain ⟨ws, dangling, rfl, hs, hrest⟩ := statement_sound d hread
      obtain ⟨rfl, rfl⟩ := reads_pure.1 h
      exact ⟨lparen :: (us ++ rparen :: (vs ++ elseWord :: ws)), dangling, by simp,
        fun hw => .ifElse hw hl hc hr ht he hs, hrest⟩
    · obtain ⟨rfl, rfl⟩ := reads_pure.1 h
      exact ⟨lparen :: (us ++ rparen :: vs), true, by simp, fun hw => .ifThen hw hl hc hr ht,
        fun _ => hnone⟩

theorem whileStatement_sound : ∀ (d : Nat) {ts rest : List Token} {s : Stmt},
    Reads (whileStatement d) ts s rest → ∃ used dangling, ts = used ++ rest ∧
      (∀ {word : Token}, word.kind = .keyword .whileWord →
        Forms (.statement dangling) (word :: used) s) ∧ (dangling = true → NoElse rest)
  | 0, _, _, _, h => absurd h not_reads_exhausted
  | d + 1, ts, rest, s, h => by
    rw [whileStatement, reads_bind] at h
    obtain ⟨lparen, mid, hread, h⟩ := h
    obtain ⟨rfl, hl⟩ := reads_expect.1 hread
    rw [reads_bind] at h
    obtain ⟨condition, mid, hread, h⟩ := h
    obtain ⟨us, rfl, hc⟩ := expression_sound d hread
    rw [reads_bind] at h
    obtain ⟨rparen, mid, hread, h⟩ := h
    obtain ⟨rfl, hr⟩ := reads_expect.1 hread
    rw [reads_bind] at h
    obtain ⟨body, mid, hread, h⟩ := h
    obtain ⟨vs, dangling, rfl, hb, hrest⟩ := statement_sound d hread
    obtain ⟨rfl, rfl⟩ := reads_pure.1 h
    exact ⟨lparen :: (us ++ rparen :: vs), dangling, by simp, fun hw => .loop hw hl hc hr hb, hrest⟩

/-- What `block` takes is the rest of a block after its opening brace. -/
theorem block_sound : ∀ (d : Nat) {ts rest : List Token} {body : List Stmt},
    Reads (block d) ts body rest → ∃ us rbrace, ts = us ++ rbrace :: rest ∧
      Forms .declarations us body ∧ rbrace.kind = .punct .rightBrace
  | 0, _, _, _, h => absurd h not_reads_exhausted
  | 1, ts, rest, body, h => by
    rw [block, reads_bind] at h
    obtain ⟨o, mid, ho, h⟩ := h
    obtain ⟨rfl, rfl⟩ := reads_peek.1 ho
    cases ts with
    | nil => exact absurd h not_reads_fail
    | cons t ts =>
      dsimp only [List.head?_cons] at h
      split at h
      · rename_i hr
        rw [reads_bind] at h
        obtain ⟨u, mid, hread, h⟩ := h
        obtain rfl : ts = mid := reads_advance.1 hread
        obtain ⟨rfl, rfl⟩ := reads_pure.1 h
        exact ⟨[], t, rfl, .declarationsNil, hr⟩
      · rw [reads_bind] at h
        obtain ⟨first, mid, hread, -⟩ := h
        exact absurd hread not_reads_exhausted
  | d + 2, ts, rest, body, h => by
    rw [block, reads_bind] at h
    obtain ⟨o, mid, ho, h⟩ := h
    obtain ⟨rfl, rfl⟩ := reads_peek.1 ho
    cases ts with
    | nil => exact absurd h not_reads_fail
    | cons t ts =>
      dsimp only [List.head?_cons] at h
      split at h
      · rename_i hr
        rw [reads_bind] at h
        obtain ⟨u, mid, hread, h⟩ := h
        obtain rfl : ts = mid := reads_advance.1 hread
        obtain ⟨rfl, rfl⟩ := reads_pure.1 h
        exact ⟨[], t, rfl, .declarationsNil, hr⟩
      · rw [reads_bind] at h
        obtain ⟨first, mid, hread, h⟩ := h
        rw [declaration, reads_recover] at hread
        obtain ⟨s, rfl, hread⟩ := hread
        obtain ⟨us, hus, hs⟩ := declarationOrFail_sound d hread
        rw [reads_bind] at h
        obtain ⟨others, mid', hread, hpure⟩ := h
        obtain ⟨vs, rbrace, rfl, hothers, hr⟩ := block_sound (d + 1) hread
        obtain ⟨rfl, rfl⟩ := reads_pure.1 hpure
        exact ⟨us ++ vs, rbrace, by simp [hus], .declarationsCons hs hothers, hr⟩

end

theorem declaration_sound {d : Nat} {ts rest : List Token} {o : Option Stmt}
    (h : Reads (declaration d) ts o rest) :
    ∃ s used, o = some s ∧ ts = used ++ rest ∧ Forms .declaration used s := by
  cases d with
  | zero => exact absurd h not_reads_exhausted
  | succ d =>
    rw [declaration] at h
    obtain ⟨s, rfl, hread⟩ := reads_recover.1 h
    obtain ⟨us, rfl, hs⟩ := declarationOrFail_sound d hread
    exact ⟨s, us, rfl, rfl, hs⟩

theorem program_sound : ∀ (d : Nat) {ts rest : List Token} {ss : List Stmt},
    Reads (program d) ts ss rest → rest = [] ∧ DerivesProgram ts ss
  | 0, _, _, _, h => absurd h not_reads_exhausted
  | d + 1, ts, rest, ss, h => by
    rw [program, reads_bind] at h
    obtain ⟨o, mid, ho, h⟩ := h
    obtain ⟨rfl, rfl⟩ := reads_peek.1 ho
    cases ts with
    | nil =>
      obtain ⟨rfl, rfl⟩ := reads_pure.1 h
      exact ⟨rfl, .declarationsNil⟩
    | cons t ts =>
      dsimp only [List.head?_cons] at h
      rw [reads_bind] at h
      obtain ⟨first, mid, hread, h⟩ := h
      obtain ⟨s, us, rfl, hus, hs⟩ := declaration_sound hread
      rw [reads_bind] at h
      obtain ⟨others, mid', hread, h⟩ := h
      obtain ⟨rfl, hothers⟩ := program_sound d hread
      obtain ⟨rfl, rfl⟩ := reads_pure.1 h
      exact ⟨rfl, hus ▸ .declarationsCons hs hothers⟩

end Lox.Grammar
