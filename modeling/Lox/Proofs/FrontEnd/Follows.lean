import Lox.Proofs.FrontEnd.Indexed
import Lox.Proofs.Grammar.Progress
import Lox.Proofs.Grammar.Viable

/-!
# Indices follow the rest of the input

A parser by token indices and a reader of token lists stay together: as long as the index is not
behind the first end token, what is left for the reader are the tokens from the index up to there.
`Follows` says so of one step. It also says that the index moves neither backwards nor behind the
first end token, and that no token is looked up outside of the list, since the step ends as the
reading does. Steps are combined by `Follows.bind`; each primitive step has its own lemma.
-/

set_option autoImplicit false

namespace Lox

theorem Reading.after_after {α : Type} (r : Reading α) (faults faults' : List Fault) :
    (r.after faults').after faults = r.after (faults ++ faults') := by
  cases r <;> simp only [after, List.append_assoc]

theorem Parse.bind_assoc {α β γ : Type} (p : Parse α) (f : α → Parse β) (g : β → Parse γ) :
    p >>= f >>= g = p >>= fun a => f a >>= g := by
  funext ts
  cases hp : p ts with
  | parsed a rest faults =>
    have hpf := bind_of_parsed (f := f) hp
    rw [bind_of_parsed hp]
    cases hf : f a rest with
    | parsed b rest' faults' =>
      rw [hf] at hpf
      rw [bind_of_parsed hf, bind_of_parsed hpf, Reading.after_after]
    | failed cause rest' faults' =>
      rw [hf] at hpf
      rw [bind_of_failed hf, bind_of_failed hpf]
      rfl
    | exhausted =>
      rw [hf] at hpf
      rw [bind_of_exhausted hf, bind_of_exhausted hpf]
      rfl
  | failed cause rest faults => rw [bind_of_failed (bind_of_failed hp), bind_of_failed hp]
  | exhausted => rw [bind_of_exhausted (bind_of_exhausted hp), bind_of_exhausted hp]

theorem Parse.pure_bind {α β : Type} (a : α) (f : α → Parse β) : pure a >>= f = f a := by
  funext ts
  exact bind_of_reads (reads_pure.2 ⟨rfl, rfl⟩)

end Lox

namespace Lox.Indexed

open Grammar Step

/-- A list of tokens taken apart at its first end token. -/
structure Input where
  tokens : List Token
  /-- The tokens before the first end token. -/
  before : List Token
  atEnd : Token
  split : ∃ rest, tokens = before ++ atEnd :: rest
  ne_eof : ∀ t ∈ before, t.kind ≠ .eof
  eof : atEnd.kind = .eof

variable {x : Input} {α β : Type} {s : State} {t : Token} {ts : List Token}

/-! ## Tokens at an index -/

theorem Input.lt_of_drop (h : x.before.drop s.current = t :: ts) :
    s.current < x.before.length := by
  refine Nat.lt_of_not_le fun hge => ?_
  rw [List.drop_eq_nil_of_le hge] at h
  cases h

theorem Input.getElem?_of_drop (h : x.before.drop s.current = t :: ts) :
    x.tokens[s.current]? = some t := by
  obtain ⟨rest, htokens⟩ := x.split
  rw [htokens, List.getElem?_append_left (Input.lt_of_drop h), ← List.head?_drop, h]
  rfl

theorem Input.kind_of_drop (h : x.before.drop s.current = t :: ts) : t.kind ≠ .eof :=
  x.ne_eof t (List.mem_of_mem_drop (h ▸ List.mem_cons_self))

theorem Input.drop_succ (h : x.before.drop s.current = t :: ts) :
    x.before.drop (s.current + 1) = ts := by
  rw [← List.tail_drop, h]
  rfl

theorem Input.getElem?_of_end (hs : s.current ≤ x.before.length)
    (h : x.before.drop s.current = []) : x.tokens[s.current]? = some x.atEnd := by
  obtain ⟨rest, htokens⟩ := x.split
  have hlength : s.current = x.before.length := Nat.le_antisymm hs (List.drop_eq_nil_iff.1 h)
  rw [htokens, hlength, List.getElem?_append_right (Nat.le_refl _), Nat.sub_self]
  rfl

/-- The token that `previous` gives at an index. -/
def Input.previous (x : Input) (s : State) : Token :=
  x.tokens[s.current - 1]?.getD x.atEnd

/-! ## Running steps -/

theorem bind_of_parsed {p : Step α} {f : α → Step β} {tokens : List Token} {s' : State} {a : α}
    (h : p tokens s = .parsed a s') : (p >>= f) tokens s = f a tokens s' := by
  show Step.bind p f tokens s = _
  rw [Step.bind, h]

theorem bind_of_failed {p : Step α} {f : α → Step β} {tokens : List Token} {s' : State}
    {e : CompileError} (h : p tokens s = .failed e s') : (p >>= f) tokens s = .failed e s' := by
  show Step.bind p f tokens s = _
  rw [Step.bind, h]

theorem previous_eq (hs : s.current ≤ x.before.length) :
    Step.previous x.tokens s = .parsed (x.previous s) s := by
  obtain ⟨rest, htokens⟩ := x.split
  have hlt : s.current - 1 < x.tokens.length := by
    rw [htokens, List.length_append, List.length_cons]
    omega
  rw [Step.previous, Input.previous, List.getElem?_eq_getElem hlt]
  rfl

section head

variable (h : x.before.drop s.current = t :: ts)
include h

theorem peek_head : peek x.tokens s = .parsed t s := by
  rw [peek, Input.getElem?_of_drop h]

theorem isAtEnd_head : isAtEnd x.tokens s = .parsed false s := by
  rw [isAtEnd, bind_of_parsed (peek_head h), decide_eq_false (Input.kind_of_drop h)]
  rfl

theorem check_head (kind : TokenKind) :
    check kind x.tokens s = .parsed (decide (t.kind = kind)) s := by
  rw [check, bind_of_parsed (isAtEnd_head h)]
  show (peek >>= fun t => pure (decide (t.kind = kind))) x.tokens s = _
  rw [bind_of_parsed (peek_head h)]
  rfl

theorem previous_head : x.previous ⟨s.current + 1, s.errors⟩ = t := by
  rw [Input.previous, Nat.add_sub_cancel, Input.getElem?_of_drop h]
  rfl

theorem advance_head :
    advance x.tokens s = .parsed t ⟨s.current + 1, s.errors⟩ := by
  have hs : (⟨s.current + 1, s.errors⟩ : State).current ≤ x.before.length := Input.lt_of_drop h
  rw [advance, bind_of_parsed (isAtEnd_head h)]
  show Step.previous x.tokens ⟨s.current + 1, s.errors⟩ = _
  rw [previous_eq hs, previous_head h]

theorem checkAny_head : ∀ kinds : List TokenKind,
    checkAny kinds x.tokens s = .parsed (kinds.contains t.kind) s
  | [] => rfl
  | kind :: kinds => by
    rw [checkAny, bind_of_parsed (check_head h kind), List.contains_cons]
    by_cases hkind : t.kind = kind
    · rw [decide_eq_true hkind, beq_iff_eq.2 hkind]
      rfl
    · rw [decide_eq_false hkind, beq_eq_false_iff_ne.2 hkind]
      exact checkAny_head kinds

theorem accepts_head (kind : TokenKind) :
    accepts kind x.tokens s =
      if t.kind = kind then .parsed true ⟨s.current + 1, s.errors⟩ else .parsed false s := by
  rw [accepts, bind_of_parsed (check_head h kind)]
  by_cases hkind : t.kind = kind
  · rw [decide_eq_true hkind, if_pos hkind]
    show (advance >>= fun _ => pure true) x.tokens s = _
    rw [bind_of_parsed (advance_head h)]
    rfl
  · rw [decide_eq_false hkind, if_neg hkind]
    rfl

theorem acceptsSign_head :
    acceptsSign x.tokens s =
      if isUnary t = true then .parsed true ⟨s.current + 1, s.errors⟩ else .parsed false s := by
  have hbang := accepts_head h (.punct .bang)
  rw [acceptsSign, isUnary]
  by_cases hkind : t.kind = .punct .bang
  · rw [if_pos hkind] at hbang
    rw [bind_of_parsed hbang, decide_eq_true hkind]
    rfl
  · rw [if_neg hkind] at hbang
    rw [bind_of_parsed hbang, decide_eq_false hkind]
    simpa using accepts_head h (.punct .minus)

end head

section atEnd

variable (hs : s.current ≤ x.before.length) (h : x.before.drop s.current = [])
include hs h

theorem peek_end : peek x.tokens s = .parsed x.atEnd s := by
  rw [peek, Input.getElem?_of_end hs h]

theorem isAtEnd_end : isAtEnd x.tokens s = .parsed true s := by
  rw [isAtEnd, bind_of_parsed (peek_end hs h), decide_eq_true x.eof]
  rfl

theorem check_end (kind : TokenKind) : check kind x.tokens s = .parsed false s := by
  rw [check, bind_of_parsed (isAtEnd_end hs h)]
  rfl

theorem advance_end : advance x.tokens s = .parsed (x.previous s) s := by
  rw [advance, bind_of_parsed (isAtEnd_end hs h)]
  exact previous_eq hs

theorem accepts_end (kind : TokenKind) : accepts kind x.tokens s = .parsed false s := by
  rw [accepts, bind_of_parsed (check_end hs h kind)]
  rfl

theorem checkAny_end : ∀ kinds : List TokenKind, checkAny kinds x.tokens s = .parsed false s
  | [] => rfl
  | kind :: kinds => by
    rw [checkAny, bind_of_parsed (check_end hs h kind)]
    exact checkAny_end kinds

theorem acceptsSign_end : acceptsSign x.tokens s = .parsed false s := by
  rw [acceptsSign, bind_of_parsed (accepts_end hs h _)]
  exact accepts_end hs h _

end atEnd

/-! ## Following a reading -/

/-- The errors that some faults are. -/
def Input.errors (x : Input) (faults : List Fault) : List CompileError :=
  faults.map (Fault.error x.atEnd)

theorem Input.append_errors_nil (x : Input) (errors : List CompileError) :
    errors ++ x.errors [] = errors :=
  List.append_nil errors

theorem Input.append_errors_append (x : Input) (errors : List CompileError)
    (faults faults' : List Fault) :
    errors ++ x.errors (faults ++ faults') = errors ++ x.errors faults ++ x.errors faults' := by
  rw [Input.errors, List.map_append, ← List.append_assoc]
  rfl

/-- An outcome by indices that started at `s` is the outcome of a reading. -/
def Agrees (x : Input) (s : State) (o : Outcome α) : Reading α → Prop
  | .parsed a rest faults => ∃ k, s.current ≤ k ∧ k ≤ x.before.length ∧ rest = x.before.drop k ∧
      o = .parsed a ⟨k, s.errors ++ x.errors faults⟩
  | .failed cause rest faults => ∃ k, s.current ≤ k ∧ k ≤ x.before.length ∧
      rest = x.before.drop k ∧
      o = .failed (Fault.error x.atEnd ⟨rest.head?, cause⟩) ⟨k, s.errors ++ x.errors faults⟩
  | .exhausted => True

theorem Agrees.after {o : Outcome α} {r : Reading α} {k : Nat} {faults : List Fault}
    (h : Agrees x ⟨k, s.errors ++ x.errors faults⟩ o r) (hle : s.current ≤ k) :
    Agrees x s o (r.after faults) := by
  cases r with
  | parsed a rest faults' =>
    obtain ⟨k', hle', hk', hrest, ho⟩ := h
    refine ⟨k', Nat.le_trans hle hle', hk', hrest, ?_⟩
    rw [ho, x.append_errors_append]
  | failed cause rest faults' =>
    obtain ⟨k', hle', hk', hrest, ho⟩ := h
    refine ⟨k', Nat.le_trans hle hle', hk', hrest, ?_⟩
    rw [ho, x.append_errors_append]
  | exhausted => trivial

/-- An outcome that started further on. -/
theorem Agrees.later {o : Outcome α} {r : Reading α} {k : Nat} (h : Agrees x ⟨k, s.errors⟩ o r)
    (hle : s.current ≤ k) : Agrees x s o r := by
  rw [← x.append_errors_nil s.errors] at h
  have hafter := h.after hle
  cases r <;> exact hafter

/-- A reading that takes nothing. -/
theorem Agrees.parsed (hs : s.current ≤ x.before.length) {rest : List Token}
    (hrest : x.before.drop s.current = rest) (a : α) :
    Agrees x s (.parsed a s) (.parsed a rest []) :=
  ⟨s.current, Nat.le_refl _, hs, hrest.symm, by rw [x.append_errors_nil]⟩

theorem Agrees.failed (hs : s.current ≤ x.before.length) {rest : List Token} {cause : SyntaxCause}
    {e : CompileError} (hrest : x.before.drop s.current = rest)
    (he : e = Fault.error x.atEnd ⟨rest.head?, cause⟩) :
    Agrees x s (.failed e s : Outcome α) (.failed cause rest []) :=
  ⟨s.current, Nat.le_refl _, hs, hrest.symm,
    by rw [he, x.append_errors_nil]⟩

/-- From `s` the step `p` does what `q` does, if the depth of `q` lasts. -/
def Follows (x : Input) (s : State) (p : Step α) (q : Parse α) : Prop :=
  Agrees x s (p x.tokens s) (q (x.before.drop s.current))

namespace Follows

variable {p : Step α} {q : Parse α} {k : Nat}

theorem exhausted : Follows x s p Parse.exhausted :=
  trivial

protected theorem pure (hs : s.current ≤ x.before.length) (a : α) :
    Follows x s (pure a) (pure a) :=
  .parsed hs rfl a

/-- A step of known outcome on either side. -/
theorem step {γ : Type} {q : Parse γ} {f : α → Step β} {g : γ → Parse β} {a : α} {c : γ}
    {faults : List Fault} (hle : s.current ≤ k)
    (hp : p x.tokens s = .parsed a ⟨k, s.errors ++ x.errors faults⟩)
    (hq : q (x.before.drop s.current) = .parsed c (x.before.drop k) faults)
    (h : Follows x ⟨k, s.errors ++ x.errors faults⟩ (f a) (g c)) :
    Follows x s (p >>= f) (q >>= g) := by
  unfold Follows at h ⊢
  rw [bind_of_parsed hp, Parse.bind_of_parsed hq]
  exact h.after hle

theorem bind {f : α → Step β} {g : α → Parse β} (hp : Follows x s p q)
    (hf : ∀ a s', s'.current ≤ x.before.length → Follows x s' (f a) (g a)) :
    Follows x s (p >>= f) (q >>= g) := by
  unfold Follows at hp
  cases hq : q (x.before.drop s.current) with
  | parsed a rest faults =>
    rw [hq] at hp
    obtain ⟨k, hle, hk, rfl, hp⟩ := hp
    exact step hle hp hq (hf a _ hk)
  | failed cause rest faults =>
    rw [hq] at hp
    obtain ⟨k, hle, hk, rfl, hp⟩ := hp
    unfold Follows
    rw [bind_of_failed hp, Parse.bind_of_failed hq]
    exact ⟨k, hle, hk, rfl, rfl⟩
  | exhausted =>
    unfold Follows
    rw [Parse.bind_of_exhausted hq]
    trivial

theorem map {f : α → β} (hp : Follows x s p q) : Follows x s (f <$> p) (f <$> q) :=
  hp.bind fun _ _ hs => .pure hs _

/-- A step without faults on either side. -/
theorem quiet {γ : Type} {q : Parse γ} {f : α → Step β} {g : γ → Parse β} {a : α} {c : γ}
    (hle : s.current ≤ k) (hp : p x.tokens s = .parsed a ⟨k, s.errors⟩)
    (hq : Parse.Reads q (x.before.drop s.current) c (x.before.drop k))
    (h : Follows x ⟨k, s.errors⟩ (f a) (g c)) : Follows x s (p >>= f) (q >>= g) := by
  rw [← x.append_errors_nil s.errors] at hp h
  exact step hle hp hq h

/-- A look at the tokens that the reading does not take. -/
theorem look {f : α → Step β} {q : Parse β} {a : α} (hp : p x.tokens s = .parsed a s)
    (h : Follows x s (f a) q) : Follows x s (p >>= f) q := by
  unfold Follows at h ⊢
  rwa [bind_of_parsed hp]

/-- A step of the reading that takes nothing. -/
theorem idle {γ : Type} {q : Parse γ} {p : Step β} {g : γ → Parse β} {c : γ}
    (hq : Parse.Reads q (x.before.drop s.current) c (x.before.drop s.current))
    (h : Follows x s p (g c)) : Follows x s p (q >>= g) := by
  unfold Follows at h ⊢
  rwa [Parse.bind_of_reads hq]

variable {kind : TokenKind} {p₁ p₂ : Step β} {g : Option Token → Parse β}

/-- A failure at the next token. -/
theorem fail (hs : s.current ≤ x.before.length) {cause : SyntaxCause}
    (ht : (x.before.drop s.current).head?.getD x.atEnd = t) :
    Follows x s (Step.fail t cause : Step β) (Parse.fail cause) :=
  .failed hs rfl (ht ▸ rfl)

/-- A failure at the next token, for which it is looked up. -/
theorem peekFail (hs : s.current ≤ x.before.length) (cause : SyntaxCause) :
    Follows x s (Step.peek >>= fun t => (Step.fail t cause : Step β)) (Parse.fail cause) := by
  cases h : x.before.drop s.current with
  | nil => exact look (peek_end hs h) (.fail hs (by rw [h]; rfl))
  | cons t ts => exact look (peek_head h) (.fail hs (by rw [h]; rfl))

/-- The next token is taken. -/
theorem take {p : Step β} {q : Parse β} (h : x.before.drop s.current = t :: ts)
    (hp : ∀ s', s'.current ≤ x.before.length → x.previous s' = t → Follows x s' p q) :
    Follows x s (advance >>= fun _ => p) (Parse.advance >>= fun _ => q) := by
  have hadvance : Parse.Reads Parse.advance (x.before.drop s.current) ()
      (x.before.drop (s.current + 1)) := by
    rw [h, Input.drop_succ h]
    exact Parse.advance_head t ts
  exact quiet (Nat.le_succ _) (advance_head h) hadvance
    (hp _ (Input.lt_of_drop h) (previous_head h))

theorem check (hs : s.current ≤ x.before.length) (kind : TokenKind) :
    Follows x s (Step.check kind) (Parse.sees kind) := by
  unfold Follows
  cases h : x.before.drop s.current with
  | nil =>
    rw [check_end hs h]
    exact .parsed hs h _
  | cons t ts =>
    rw [check_head h, Parse.sees, List.head?_cons, Option.any_some]
    exact .parsed hs h _

theorem consume (hs : s.current ≤ x.before.length) (kind : TokenKind) (cause : SyntaxCause) :
    Follows x s (Step.consume kind cause) (Parse.expect kind cause) := by
  have hfail := peekFail (β := Token) hs cause
  unfold Step.consume
  cases h : x.before.drop s.current with
  | nil =>
    refine look (check_end hs h kind) ?_
    unfold Follows at hfail ⊢
    rwa [h] at hfail ⊢
  | cons t ts =>
    refine look (check_head h kind) ?_
    unfold Follows at hfail ⊢
    rw [h] at hfail ⊢
    by_cases hkind : t.kind = kind
    · rw [decide_eq_true hkind, if_pos rfl, advance_head h, Parse.expect, if_pos hkind]
      refine ⟨s.current + 1, Nat.le_succ _, Input.lt_of_drop h, (Input.drop_succ h).symm, ?_⟩
      rw [x.append_errors_nil]
    · rw [decide_eq_false hkind, Parse.expect, if_neg hkind]
      exact hfail

/-- A branch on whether a token is taken; in its branch it is the previous one. -/
theorem acceptIf {p : Step Bool} {passes : Token → Bool} (hs : s.current ≤ x.before.length)
    (hend : s.current ≤ x.before.length → x.before.drop s.current = [] →
      p x.tokens s = .parsed false s)
    (hnext : ∀ t ts, x.before.drop s.current = t :: ts → p x.tokens s =
      if passes t = true then .parsed true ⟨s.current + 1, s.errors⟩ else .parsed false s)
    (hsome : ∀ t s', s'.current ≤ x.before.length → x.previous s' = t →
      Follows x s' p₁ (g (some t)))
    (hnone : Follows x s p₂ (g none)) :
    Follows x s (p >>= fun taken => if taken = true then p₁ else p₂)
      (Parse.acceptIf passes >>= g) := by
  cases h : x.before.drop s.current with
  | nil =>
    refine quiet (Nat.le_refl _) (hend hs h) ?_ hnone
    rw [h]
    exact Parse.acceptIf_none (by simp)
  | cons t ts =>
    have hp := hnext t ts h
    by_cases hpasses : passes t = true
    · rw [if_pos hpasses] at hp
      refine quiet (Nat.le_succ _) hp ?_ (hsome t _ (Input.lt_of_drop h) (previous_head h))
      rw [h, Input.drop_succ h]
      exact Parse.acceptIf_head hpasses
    · rw [if_neg hpasses] at hp
      refine quiet (Nat.le_refl _) hp ?_ hnone
      rw [h]
      exact Parse.acceptIf_none (by simpa using hpasses)

/-- A branch on whether the next token is of a kind. -/
theorem accepts (hs : s.current ≤ x.before.length)
    (hsome : ∀ t s', s'.current ≤ x.before.length → x.previous s' = t →
      Follows x s' p₁ (g (some t)))
    (hnone : Follows x s p₂ (g none)) :
    Follows x s (Step.accepts kind >>= fun taken => if taken = true then p₁ else p₂)
      (Parse.accept kind >>= g) := by
  refine acceptIf hs (accepts_end · · kind) (fun t ts h => ?_) hsome hnone
  simpa using accepts_head h kind

/-- A branch on whether the next token is of a kind, which it is not. -/
theorem refuse (hs : s.current ≤ x.before.length) {q : Parse β}
    (h : ∀ t ∈ (x.before.drop s.current).head?, t.kind ≠ kind) (hp : Follows x s p₂ q) :
    Follows x s (Step.accepts kind >>= fun taken => if taken = true then p₁ else p₂) q := by
  cases hdrop : x.before.drop s.current with
  | nil => exact look (accepts_end hs hdrop kind) hp
  | cons t ts =>
    have hkind : t.kind ≠ kind := h t (by rw [hdrop]; rfl)
    exact look ((accepts_head hdrop kind).trans (if_neg hkind)) hp

/-- A branch on whether the next token is of a kind, which it is. -/
theorem taken (h : x.before.drop s.current = t :: ts) (hkind : t.kind = kind) {q : Parse β}
    (hp : ∀ s', s'.current ≤ x.before.length → x.previous s' = t → Follows x s' p₁ q) :
    Follows x s (Step.accepts kind >>= fun taken => if taken = true then p₁ else p₂)
      (Parse.advance >>= fun _ => q) := by
  have hadvance : Parse.Reads Parse.advance (x.before.drop s.current) ()
      (x.before.drop (s.current + 1)) := by
    rw [h, Input.drop_succ h]
    exact Parse.advance_head t ts
  exact quiet (Nat.le_succ _) ((accepts_head h kind).trans (if_pos hkind)) hadvance
    (hp _ (Input.lt_of_drop h) (previous_head h))

/-- A branch on whether the next token is one of some kinds. -/
theorem takeAny {kinds : List TokenKind} {f : Token → Step β} (hs : s.current ≤ x.before.length)
    (hsome : ∀ t s', s'.current ≤ x.before.length → Follows x s' (f t) (g (some t)))
    (hnone : Follows x s p₂ (g none)) :
    Follows x s (checkAny kinds >>= fun found => if found = true then advance >>= f else p₂)
      (Parse.acceptIf (fun t => kinds.contains t.kind) >>= g) := by
  cases h : x.before.drop s.current with
  | nil =>
    refine quiet (Nat.le_refl _) (checkAny_end hs h kinds) ?_ hnone
    rw [h]
    exact Parse.acceptIf_none (by simp)
  | cons t ts =>
    refine look (checkAny_head h kinds) ?_
    cases hpasses : kinds.contains t.kind with
    | true =>
      refine quiet (Nat.le_succ _) (advance_head h) ?_ (hsome t _ (Input.lt_of_drop h))
      rw [h, Input.drop_succ h]
      exact Parse.acceptIf_head hpasses
    | false =>
      refine idle ?_ hnone
      rw [h]
      exact Parse.acceptIf_none (by simpa using hpasses)

/-- A branch on whether the end has been reached. -/
theorem isAtEnd (hs : s.current ≤ x.before.length)
    (hend : x.before.drop s.current = [] → Follows x s p₁ (g none))
    (hnext : ∀ t ts, x.before.drop s.current = t :: ts → Follows x s p₂ (g (some t))) :
    Follows x s (Step.isAtEnd >>= fun ended => if ended = true then p₁ else p₂)
      (Parse.peek >>= g) := by
  cases h : x.before.drop s.current with
  | nil =>
    refine quiet (Nat.le_refl _) (isAtEnd_end hs h) ?_ (hend h)
    rw [h]
    rfl
  | cons t ts =>
    refine quiet (Nat.le_refl _) (isAtEnd_head h) ?_ (hnext t ts h)
    rw [h]
    rfl

/-- A fault that is noted at a token, or at the end. -/
theorem note {noted : Option Token} {cause : SyntaxCause} {f : Unit → Step β} {g : Unit → Parse β}
    (hs : s.current ≤ x.before.length) (ht : noted.getD x.atEnd = t)
    (h : ∀ s', s'.current ≤ x.before.length → Follows x s' (f ()) (g ())) :
    Follows x s (Step.record t cause >>= f) (Parse.noteAt noted cause >>= g) := by
  subst ht
  exact step (Nat.le_refl _) (by rfl) rfl (h _ hs)

/-- A fault that is noted at the next token. -/
theorem record {cause : SyntaxCause} {f : Unit → Step β} {g : Unit → Parse β}
    (hs : s.current ≤ x.before.length)
    (h : ∀ s', s'.current ≤ x.before.length → Follows x s' (f ()) (g ())) :
    Follows x s (Step.peek >>= fun t => Step.record t cause >>= f)
      (Parse.peek >>= fun t => Parse.noteAt t cause >>= g) := by
  cases hdrop : x.before.drop s.current with
  | nil =>
    exact look (peek_end hs hdrop) (idle (c := none) (by rw [hdrop]; rfl) (note hs rfl h))
  | cons t ts =>
    exact look (peek_head hdrop) (idle (c := some t) (by rw [hdrop]; rfl) (note hs rfl h))

/-- A declaration that fails is recorded and skipped. -/
theorem recover {synchronize : Step Unit} (hp : Follows x s p q)
    (hskip : ∀ s', s'.current ≤ x.before.length → Follows x s' synchronize
      (fun ts => .parsed () (Parse.synchronize ts) [])) :
    Follows x s (Step.recover p synchronize) (Parse.recover q) := by
  unfold Follows Step.recover Parse.recover at *
  cases hq : q (x.before.drop s.current) with
  | parsed a rest faults =>
    rw [hq] at hp
    obtain ⟨k, hle, hk, rfl, hp⟩ := hp
    rw [hp]
    exact ⟨k, hle, hk, rfl, rfl⟩
  | failed cause rest faults =>
    rw [hq] at hp
    obtain ⟨k, hle, hk, rfl, hp⟩ := hp
    have hsync := hskip
      ⟨k, s.errors ++ x.errors (faults ++ [⟨(x.before.drop k).head?, cause⟩])⟩ hk
    obtain ⟨k', hle', hk', hrest, hsync⟩ := hsync
    refine ⟨k', Nat.le_trans hle hle', hk', hrest, ?_⟩
    rw [x.append_errors_nil] at hsync
    rw [hp]
    show (synchronize >>= fun _ => pure none) x.tokens
      ⟨k, s.errors ++ x.errors faults ++ x.errors [⟨(x.before.drop k).head?, cause⟩]⟩ = _
    rw [← x.append_errors_append, bind_of_parsed hsync]
    rfl
  | exhausted => trivial

end Follows

end Lox.Indexed
