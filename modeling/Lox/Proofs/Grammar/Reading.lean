import Lox.Syntax.Grammar

/-!
# Readers

What the steps of a phrase reader do. `Reads` is a reading without faults, taken apart into its
steps by `reads_bind` and one lemma for each kind of step. `Gives` runs a reader whose steps are
known, and `Within n k p` says that on inputs of up to `n` tokens the reader `p` has depth enough,
gives back an end of its input, and takes `k` tokens at least when it succeeds.
-/

set_option autoImplicit false

namespace Lox.Parse

variable {α β : Type}

/-! ## Readings without faults -/

/-- `p` reads `a` off `ts`, leaves `rest`, and notes no fault. -/
def Reads (p : Parse α) (ts : List Token) (a : α) (rest : List Token) : Prop :=
  p ts = .parsed a rest []

theorem reads_bind {p : Parse α} {f : α → Parse β} {ts rest : List Token} {b : β} :
    Reads (p >>= f) ts b rest ↔ ∃ a mid, Reads p ts a mid ∧ Reads (f a) mid b rest := by
  show Parse.bind p f ts = _ ↔ _
  unfold Parse.bind Reads
  constructor
  · intro h
    split at h
    · rename_i a mid faults hp
      split at h
      · rename_i b' rest' faults' hf
        simp only [Reading.parsed.injEq, List.append_eq_nil_iff] at h
        obtain ⟨rfl, rfl, rfl, rfl⟩ := h
        exact ⟨a, mid, hp, hf⟩
      · cases h
      · cases h
    · cases h
    · cases h
  · rintro ⟨a, mid, hp, hf⟩
    simp [hp, hf]

theorem reads_pure {a b : α} {ts rest : List Token} :
    Reads (pure a : Parse α) ts b rest ↔ a = b ∧ ts = rest := by
  show Reading.parsed a ts [] = _ ↔ _
  simp

theorem reads_map {p : Parse α} {f : α → β} {ts rest : List Token} {b : β} :
    Reads (f <$> p) ts b rest ↔ ∃ a, Reads p ts a rest ∧ f a = b := by
  show Reads (p >>= fun a => pure (f a)) ts b rest ↔ _
  simp only [reads_bind, reads_pure]
  constructor
  · rintro ⟨a, mid, hp, rfl, rfl⟩
    exact ⟨a, hp, rfl⟩
  · rintro ⟨a, hp, rfl⟩
    exact ⟨a, rest, hp, rfl, rfl⟩

theorem reads_acceptIf {passes : Token → Bool} {ts rest : List Token} {o : Option Token} :
    Reads (acceptIf passes) ts o rest ↔
      (∃ t, o = some t ∧ ts = t :: rest ∧ passes t = true) ∨
        (o = none ∧ ts = rest ∧ ∀ t ∈ ts.head?, passes t = false) := by
  unfold Reads
  cases ts with
  | nil =>
    simp only [acceptIf, Reading.parsed.injEq, and_true, List.head?_nil, Option.mem_def,
      reduceCtorEq, false_implies, implies_true]
    grind
  | cons t ts =>
    by_cases h : passes t = true
    · simp only [acceptIf, h, if_true, Reading.parsed.injEq, and_true, List.head?_cons,
        Option.mem_def, Option.some.injEq, forall_eq']
      grind
    · simp only [acceptIf, h, and_true, List.head?_cons, Option.mem_def, Option.some.injEq,
        forall_eq']
      grind

theorem reads_accept {kind : TokenKind} {ts rest : List Token} {o : Option Token} :
    Reads (accept kind) ts o rest ↔
      (∃ t, o = some t ∧ ts = t :: rest ∧ t.kind = kind) ∨
        (o = none ∧ ts = rest ∧ ∀ t ∈ ts.head?, t.kind ≠ kind) := by
  simp [accept, reads_acceptIf]

theorem reads_expect {kind : TokenKind} {cause : SyntaxCause} {ts rest : List Token} {t : Token} :
    Reads (expect kind cause) ts t rest ↔ ts = t :: rest ∧ t.kind = kind := by
  unfold Reads
  cases ts with
  | nil => simp [expect]
  | cons u us =>
    unfold expect
    split <;> simp only [List.cons.injEq] <;> grind

theorem reads_sees {kind : TokenKind} {ts rest : List Token} {b : Bool} :
    Reads (sees kind) ts b rest ↔ (ts.head?.any fun t => t.kind = kind) = b ∧ ts = rest := by
  simp [Reads, sees]

theorem reads_peek {ts rest : List Token} {o : Option Token} :
    Reads peek ts o rest ↔ ts.head? = o ∧ ts = rest := by
  simp [Reads, peek]

theorem reads_advance {ts rest : List Token} {u : Unit} :
    Reads advance ts u rest ↔ ts.tail = rest := by
  simp [Reads, advance]

theorem not_reads_noteAt {token : Option Token} {cause : SyntaxCause} {ts rest : List Token}
    {u : Unit} : ¬ Reads (noteAt token cause) ts u rest := by
  simp [Reads, noteAt]

theorem not_reads_fail {cause : SyntaxCause} {ts rest : List Token} {a : α} :
    ¬ Reads (fail cause : Parse α) ts a rest := by
  simp [Reads, fail]

theorem not_reads_exhausted {ts rest : List Token} {a : α} :
    ¬ Reads (exhausted : Parse α) ts a rest := by
  simp [Reads, exhausted]

/-- Recovery notes a fault, so a reading without faults did not recover. -/
theorem reads_recover {p : Parse α} {ts rest : List Token} {o : Option α} :
    Reads (recover p) ts o rest ↔ ∃ a, o = some a ∧ Reads p ts a rest := by
  unfold Reads recover
  constructor
  · intro h
    split at h
    · rename_i a rest' faults hp
      cases h
      exact ⟨a, rfl, hp⟩
    · simp at h
    · cases h
  · rintro ⟨a, rfl, hp⟩
    rw [hp]

/-! ## Running known steps -/

theorem bind_of_reads {p : Parse α} {f : α → Parse β} {ts mid : List Token} {a : α}
    (h : Reads p ts a mid) : (p >>= f) ts = f a mid := by
  show Parse.bind p f ts = _
  unfold Parse.bind
  unfold Reads at h
  rw [h]
  cases hf : f a mid <;> simp only [hf, List.nil_append]

/-- `p` reads `ts` as `r`, if its depth lasts. -/
def Gives (p : Parse α) (ts : List Token) (r : Reading α) : Prop :=
  p ts = .exhausted ∨ p ts = r

theorem Gives.bind {p : Parse α} {f : α → Parse β} {ts mid : List Token} {a : α} {r : Reading β}
    (hp : Gives p ts (.parsed a mid [])) (hf : Gives (f a) mid r) : Gives (p >>= f) ts r := by
  rcases hp with hp | hp
  · left
    show Parse.bind p f ts = _
    unfold Parse.bind
    rw [hp]
  · unfold Gives
    rw [bind_of_reads hp]
    exact hf

/-- A step of known outcome is taken. -/
theorem Gives.step {p : Parse α} {f : α → Parse β} {ts mid : List Token} {a : α} {r : Reading β}
    (hp : Reads p ts a mid) (hf : Gives (f a) mid r) : Gives (p >>= f) ts r :=
  .bind (.inr hp) hf

theorem Gives.pure (a : α) (ts : List Token) : Gives (pure a) ts (.parsed a ts []) :=
  .inr rfl

theorem Gives.map {p : Parse α} {f : α → β} {ts rest : List Token} {a : α}
    (h : Gives p ts (.parsed a rest [])) : Gives (f <$> p) ts (.parsed (f a) rest []) :=
  h.bind (f := fun a => Pure.pure (f a)) (.pure _ _)

theorem Gives.recover {p : Parse α} {ts rest : List Token} {a : α} {fs : List Fault}
    (h : Gives p ts (.parsed a rest fs)) :
    Gives (Parse.recover p) ts (.parsed (some a) rest fs) := by
  rcases h with h | h
  · left; unfold Parse.recover; rw [h]
  · right; unfold Parse.recover; rw [h]

theorem Gives.recover_failed {p : Parse α} {ts rest : List Token} {cause : SyntaxCause}
    {fs : List Fault} (h : Gives p ts (.failed cause rest fs)) :
    Gives (Parse.recover p) ts
      (.parsed none (synchronize rest) (fs ++ [⟨rest.head?, cause⟩])) := by
  rcases h with h | h
  · left; unfold Parse.recover; rw [h]
  · right; unfold Parse.recover; rw [h]

theorem accept_head {kind : TokenKind} {t : Token} {ts : List Token} (h : t.kind = kind) :
    Reads (accept kind) (t :: ts) (some t) ts :=
  reads_accept.2 (.inl ⟨t, rfl, rfl, h⟩)

theorem accept_none {kind : TokenKind} {ts : List Token} (h : ∀ t ∈ ts.head?, t.kind ≠ kind) :
    Reads (accept kind) ts none ts :=
  reads_accept.2 (.inr ⟨rfl, rfl, h⟩)

theorem acceptIf_head {passes : Token → Bool} {t : Token} {ts : List Token}
    (h : passes t = true) : Reads (acceptIf passes) (t :: ts) (some t) ts :=
  reads_acceptIf.2 (.inl ⟨t, rfl, rfl, h⟩)

theorem acceptIf_none {passes : Token → Bool} {ts : List Token}
    (h : ∀ t ∈ ts.head?, passes t = false) : Reads (acceptIf passes) ts none ts :=
  reads_acceptIf.2 (.inr ⟨rfl, rfl, h⟩)

theorem expect_head {kind : TokenKind} {cause : SyntaxCause} {t : Token} {ts : List Token}
    (h : t.kind = kind) : Reads (expect kind cause) (t :: ts) t ts :=
  reads_expect.2 ⟨rfl, h⟩

theorem sees_head (kind : TokenKind) (t : Token) (ts : List Token) :
    Reads (sees kind) (t :: ts) (decide (t.kind = kind)) (t :: ts) := by
  simp [reads_sees]

theorem peek_head (t : Token) (ts : List Token) : Reads peek (t :: ts) (some t) (t :: ts) := rfl

theorem advance_head (t : Token) (ts : List Token) : Reads advance (t :: ts) () ts := rfl

/-! ## Depth and progress -/

/-- A reading of `ts` that is not exhausted, leaves an end of `ts`, and has taken at least `k`
tokens if it has a value. -/
def Takes (k : Nat) (ts : List Token) : Reading α → Prop
  | .parsed _ rest _ => rest <:+ ts ∧ rest.length + k ≤ ts.length
  | .failed _ rest _ => rest <:+ ts
  | .exhausted => False

theorem Takes.mono {j k : Nat} {ts : List Token} {r : Reading α} (h : Takes k ts r) (hj : j ≤ k) :
    Takes j ts r := by
  cases r with
  | parsed a rest faults => exact ⟨h.1, by have := h.2; omega⟩
  | failed cause rest faults => exact h
  | exhausted => exact h

theorem Takes.cons {k : Nat} {ts : List Token} {r : Reading α} (t : Token) (h : Takes k ts r) :
    Takes (k + 1) (t :: ts) r := by
  cases r with
  | parsed a rest faults =>
    exact ⟨h.1.trans (List.suffix_cons t ts), by have := h.2; simp only [List.length_cons]; omega⟩
  | failed cause rest faults => exact List.IsSuffix.trans h (List.suffix_cons t ts)
  | exhausted => exact h

/-- The reading of `ts` by `p` takes `k` tokens. -/
def TakesFrom (k : Nat) (ts : List Token) (p : Parse α) : Prop :=
  Takes k ts (p ts)

/-- On inputs of up to `n` tokens the readings of `p` take `k` tokens. -/
def Within (n k : Nat) (p : Parse α) : Prop :=
  ∀ ts, ts.length ≤ n → TakesFrom k ts p

theorem TakesFrom.bind {k j : Nat} {ts : List Token} {p : Parse α} {f : α → Parse β}
    (hp : TakesFrom k ts p) (hf : ∀ a m, m + k ≤ ts.length → Within m j (f a)) :
    TakesFrom (k + j) ts (p >>= f) := by
  show Takes _ _ (Parse.bind p f ts)
  unfold TakesFrom at hp
  unfold Parse.bind
  cases hmid : p ts with
  | parsed a mid faults =>
    rw [hmid] at hp
    obtain ⟨hsuffix, hlength⟩ := hp
    have hrest := hf a mid.length (by omega) mid (Nat.le_refl _)
    unfold TakesFrom at hrest
    cases hend : f a mid with
    | parsed b rest faults' =>
      rw [hend] at hrest
      simp only [hend]
      exact ⟨hrest.1.trans hsuffix, by have := hrest.2; omega⟩
    | failed cause rest faults' =>
      rw [hend] at hrest
      simp only [hend]
      exact List.IsSuffix.trans hrest hsuffix
    | exhausted => rw [hend] at hrest; exact hrest.elim
  | failed cause rest faults => rw [hmid] at hp; exact hp
  | exhausted => rw [hmid] at hp; exact hp.elim

namespace Within

variable {n k j : Nat}

theorem bind {p : Parse α} {f : α → Parse β} (hp : Within n k p)
    (hf : ∀ a m, m + k ≤ n → Within m j (f a)) : Within n (k + j) (p >>= f) :=
  fun ts hts => (hp ts hts).bind fun a m hm => hf a m (by omega)

theorem mono {p : Parse α} (hp : Within n k p) (h : j ≤ k) : Within n j p :=
  fun ts hts => Takes.mono (hp ts hts) h

/-- Two steps, the first of which takes enough. -/
theorem bindLeft {p : Parse α} {f : α → Parse β} (hp : Within n k p)
    (hf : ∀ a m, m + k ≤ n → Within m 0 (f a)) : Within n k (p >>= f) :=
  bind hp hf

/-- Two steps, the second of which takes enough. -/
theorem bindRight {p : Parse α} {f : α → Parse β} (hp : Within n 0 p)
    (hf : ∀ a, Within n k (f a)) : Within n k (p >>= f) := by
  have h : Within n (0 + k) (p >>= f) :=
    bind hp fun a m hm ts hts => hf a ts (by omega)
  rwa [Nat.zero_add] at h

protected theorem pure (a : α) : Within n 0 (pure a : Parse α) :=
  fun ts _ => ⟨List.suffix_refl ts, Nat.le_refl _⟩

theorem map {p : Parse α} {f : α → β} (hp : Within n k p) : Within n k (f <$> p) :=
  hp.bindLeft fun _ _ _ => .pure _

theorem fail (cause : SyntaxCause) : Within n k (fail cause : Parse α) :=
  fun ts _ => List.suffix_refl ts

theorem noteAt (token : Option Token) (cause : SyntaxCause) : Within n 0 (noteAt token cause) :=
  fun ts _ => ⟨List.suffix_refl ts, Nat.le_refl _⟩

theorem peek : Within n 0 peek :=
  fun ts _ => ⟨List.suffix_refl ts, Nat.le_refl _⟩

theorem sees (kind : TokenKind) : Within n 0 (sees kind) :=
  fun ts _ => ⟨List.suffix_refl ts, Nat.le_refl _⟩

theorem expect (kind : TokenKind) (cause : SyntaxCause) : Within n 1 (expect kind cause) := by
  intro ts _
  cases ts with
  | nil => exact List.suffix_refl _
  | cons t ts =>
    unfold TakesFrom Parse.expect
    by_cases h : t.kind = kind
    · simp only [h, if_true]
      exact ⟨List.suffix_cons t ts, by simp⟩
    · simp only [h, if_false]
      exact List.suffix_refl _

end Within

/-! ## Recovery -/

theorem skipToBoundary_suffix (previous : Token) (ts : List Token) :
    skipToBoundary previous ts <:+ ts := by
  induction ts generalizing previous with
  | nil => exact List.suffix_refl _
  | cons t ts ih =>
    unfold skipToBoundary
    split
    · exact List.suffix_refl _
    · exact (ih t).trans (List.suffix_cons t ts)

/-- Recovery drops the token at fault at least. -/
theorem synchronize_suffix (ts : List Token) : synchronize ts <:+ ts.tail := by
  cases ts with
  | nil => exact List.suffix_refl _
  | cons t ts => exact skipToBoundary_suffix t ts

/-- A phrase that is read or given up takes a token, if there is one. -/
theorem TakesFrom.recover {p : Parse α} {t : Token} {ts : List Token}
    (hp : TakesFrom 1 (t :: ts) p) : TakesFrom 1 (t :: ts) (Parse.recover p) := by
  unfold TakesFrom at hp
  unfold TakesFrom Parse.recover
  cases hmid : p (t :: ts) with
  | parsed a rest faults => rw [hmid] at hp; exact hp
  | failed cause rest faults =>
    rw [hmid] at hp
    have hs := synchronize_suffix rest
    refine ⟨hs.trans ((List.tail_suffix rest).trans hp), ?_⟩
    have h₁ := hs.length_le
    have h₂ := List.IsSuffix.length_le hp
    simp only [List.length_tail, List.length_cons] at h₁ h₂ ⊢
    omega
  | exhausted => rw [hmid] at hp; exact hp

end Lox.Parse
