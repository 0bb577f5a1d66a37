import Lox.Proofs.Grammar.Reading
import Lox.Proofs.Grammar.Relaxed

/-!
# Readers that stop at the first impossible token

`Tracks S inside p n ts` ties the readers `p`, one for each depth, to a set `S` of phrases. Reading
`ts` at depth `n` has one of three outcomes, unless the depth runs out (`Outcome`). The reader takes
a phrase of `S`; or it fails after tokens that begin a phrase of `S`; or a reader of a declaration
inside it failed there and recovered, for which the tokens have to be `inside` braces or to hold an
opening one. Each outcome depends on one token of what follows at most: the same tokens end in the
same way before every rest with the same head, at any depth (`Settled`).

There is one lemma for each way to build a reader. A step that takes a token leaves the phrases that
start with it (`Tracks.take`), a step that only looks leaves all of them (`Tracks.look`), and in a
sequence the second reader is tied to what can follow the phrase read first (`Tracks.bind`).
-/

set_option autoImplicit false

namespace Lox

variable {α β : Type}

/-! ## Notes and other faults -/

/-- The faults are notes, and a note at the end was made when nothing was left. -/
def Noted (rest : List Token) (fs : List Fault) : Prop :=
  ∀ f ∈ fs, f.cause.isNote = true ∧ (f.token = none → rest = [])

/-- The first fault that is more than a note is at this token. -/
def FirstAt (token : Option Token) (fs : List Fault) : Prop :=
  ∃ cause, fs.find? (fun f => !f.cause.isNote) = some ⟨token, cause⟩

theorem find?_notes {fs : List Fault} (h : ∀ f ∈ fs, f.cause.isNote = true) :
    fs.find? (fun f => !f.cause.isNote) = none := by
  rw [List.find?_eq_none]
  intro f hf
  simp [h f hf]

theorem Noted.nil (rest : List Token) : Noted rest [] := by
  intro f hf
  cases hf

theorem Noted.find? {rest : List Token} {fs : List Fault} (h : Noted rest fs) :
    fs.find? (fun f => !f.cause.isNote) = none :=
  find?_notes fun f hf => (h f hf).1

/-- Notes made earlier, and notes made on what they left. -/
theorem Noted.append {us rest : List Token} {fs fs' : List Fault} (h : Noted (us ++ rest) fs)
    (h' : Noted rest fs') : Noted rest (fs ++ fs') := by
  intro f hf
  rcases List.mem_append.1 hf with hf | hf
  · exact ⟨(h f hf).1, fun ht => (List.append_eq_nil_iff.1 ((h f hf).2 ht)).2⟩
  · exact h' f hf

theorem FirstAt.append {token : Option Token} {fs : List Fault} (h : FirstAt token fs)
    (fs' : List Fault) : FirstAt token (fs ++ fs') := by
  obtain ⟨cause, h⟩ := h
  exact ⟨cause, by rw [List.find?_append, h, Option.some_or]⟩

theorem FirstAt.after {token : Option Token} {rest : List Token} {fs fs' : List Fault}
    (h : FirstAt token fs') (hn : Noted rest fs) : FirstAt token (fs ++ fs') := by
  obtain ⟨cause, h⟩ := h
  exact ⟨cause, by rw [List.find?_append, hn.find?, Option.none_or, h]⟩

namespace Reading

/-- The faults noted on the way. -/
def faults : Reading α → List Fault
  | .parsed _ _ fs => fs
  | .failed _ _ fs => fs
  | .exhausted => []

/-- A reading that comes after these faults. -/
def after (fs : List Fault) : Reading α → Reading α
  | .parsed a rest fs' => .parsed a rest (fs ++ fs')
  | .failed cause rest fs' => .failed cause rest (fs ++ fs')
  | .exhausted => .exhausted

end Reading

theorem FirstAt.after_reading {token : Option Token} {rest : List Token} {fs : List Fault}
    {r : Reading α} (h : FirstAt token r.faults) (hn : Noted rest fs) :
    FirstAt token (r.after fs).faults := by
  cases r with
  | parsed a rest fs' => exact h.after hn
  | failed cause rest fs' => exact h.after hn
  | exhausted =>
    obtain ⟨cause, h⟩ := h
    cases h

namespace Parse

/-! ## Sequences -/

section

variable {p : Parse α} {f : α → Parse β} {ts rest : List Token} {fs : List Fault}

theorem bind_of_parsed {a : α} (h : p ts = .parsed a rest fs) :
    (p >>= f) ts = (f a rest).after fs := by
  show Parse.bind p f ts = _
  unfold Parse.bind
  rw [h]
  cases hf : f a rest <;> simp only [hf, Reading.after]

theorem bind_of_failed {cause : SyntaxCause} (h : p ts = .failed cause rest fs) :
    (p >>= f) ts = .failed cause rest fs := by
  show Parse.bind p f ts = _
  unfold Parse.bind
  rw [h]

theorem bind_of_exhausted (h : p ts = .exhausted) : (p >>= f) ts = .exhausted := by
  show Parse.bind p f ts = _
  unfold Parse.bind
  rw [h]

/-- Both readers are known, with the faults that they note. -/
theorem Gives.bind_parsed {a : α} {b : β} {mid : List Token} {fs' : List Fault}
    (hp : Gives p ts (.parsed a mid fs)) (hf : Gives (f a) mid (.parsed b rest fs')) :
    Gives (p >>= f) ts (.parsed b rest (fs ++ fs')) := by
  rcases hp with hp | hp
  · exact .inl (bind_of_exhausted hp)
  · unfold Gives
    rw [bind_of_parsed hp]
    rcases hf with hf | hf
    · exact .inl (congrArg (Reading.after fs) hf)
    · exact .inr (congrArg (Reading.after fs) hf)

theorem parsed_bind {b : β} (h : (p >>= f) ts = .parsed b rest fs) :
    ∃ a mid fs₁ fs₂, p ts = .parsed a mid fs₁ ∧ f a mid = .parsed b rest fs₂ := by
  cases hp : p ts with
  | parsed a mid fs₁ =>
    rw [bind_of_parsed hp] at h
    cases hf : f a mid with
    | parsed b' rest' fs₂ =>
      rw [hf] at h
      cases h
      exact ⟨a, mid, fs₁, fs₂, rfl, hf⟩
    | failed cause rest' fs₂ => rw [hf] at h; cases h
    | exhausted => rw [hf] at h; cases h
  | failed cause rest' fs₁ => rw [bind_of_failed hp] at h; cases h
  | exhausted => rw [bind_of_exhausted hp] at h; cases h

/-- What comes later does not change the first fault. -/
theorem firstAt_bind {token : Option Token} (h : FirstAt token (p ts).faults) :
    (p >>= f) ts = .exhausted ∨ FirstAt token ((p >>= f) ts).faults := by
  cases hp : p ts with
  | parsed a rest fs =>
    rw [hp] at h
    rw [bind_of_parsed hp]
    cases f a rest with
    | parsed b rest' fs' => exact .inr (h.append fs')
    | failed cause rest' fs' => exact .inr (h.append fs')
    | exhausted => exact .inl rfl
  | failed cause rest fs =>
    rw [hp] at h
    rw [bind_of_failed hp]
    exact .inr h
  | exhausted => exact .inl (bind_of_exhausted hp)

end

/-! ## Outcomes -/

/-- The tokens `us` are read as `R` says before every rest with the head of `rest`, at any depth
that lasts. -/
def Settled (p : Nat → Parse α) (us rest : List Token) (R : List Token → Reading α → Prop) : Prop :=
  ∀ rest', rest'.head? = rest.head? → ∀ d,
    p d (us ++ rest') = .exhausted ∨ R rest' (p d (us ++ rest'))

/-- How the readers `p` for the phrases `S` end on `ts`, and after which tokens. -/
inductive Outcome (S : List Token → Prop) (inside : Prop) (p : Nat → Parse α) (ts : List Token) :
    Prop
  | parsed {us rest : List Token} {a : α} {fs : List Fault} (hts : ts = us ++ rest) (hs : S us)
      (hn : Noted rest fs) (run : Settled p us rest fun rest' r => r = .parsed a rest' fs)
  | failed {us vs rest : List Token} {cause : SyntaxCause} {fs : List Fault}
      (hts : ts = us ++ rest) (hs : S (us ++ vs)) (hn : Noted rest fs)
      (hc : cause.isNote = false)
      (run : Settled p us rest fun rest' r => r = .failed cause rest' fs)
  | broken {us vs rest : List Token} (hts : ts = us ++ rest) (hs : S (us ++ vs))
      (hb : inside ∨ ∃ t ∈ ts, t.kind = .punct .leftBrace)
      (run : Settled p us rest fun _ r => FirstAt rest.head? r.faults)

/-- Reading `ts` at depth `n` follows the phrases of `S`, of which there are some. -/
structure Tracks (S : List Token → Prop) (inside : Prop) (p : Nat → Parse α) (n : Nat)
    (ts : List Token) : Prop where
  viable : ∃ vs, S vs
  outcome : p n ts ≠ .exhausted → Outcome S inside p ts

theorem head?_append_congr (us : List Token) {rest rest' : List Token}
    (h : rest'.head? = rest.head?) : (us ++ rest').head? = (us ++ rest).head? := by
  rw [List.head?_append, List.head?_append, h]

namespace Settled

variable {p q : Nat → Parse α} {us vs rest : List Token} {R R' : List Token → Reading α → Prop}

theorem mono (h : Settled p us rest R) (hR : ∀ rest' r, R rest' r → R' rest' r) :
    Settled p us rest R' := by
  intro rest' hrest d
  exact (h rest' hrest d).imp_right (hR rest' _)

/-- At the rest at hand. -/
theorem here (h : Settled p us rest R) {n : Nat} (hn : p n (us ++ rest) ≠ .exhausted) :
    R rest (p n (us ++ rest)) :=
  (h rest rfl n).resolve_left hn

theorem succ (h : Settled q us rest R) (hzero : p 0 = exhausted) (hp : ∀ d, p (d + 1) = q d) :
    Settled p us rest R := by
  intro rest' hrest d
  cases d with
  | zero => exact .inl (by rw [hzero]; rfl)
  | succ d =>
    rw [hp]
    exact h rest' hrest d

theorem bind {f : Nat → α → Parse β} {a : α} {fs : List Fault}
    {Q : List Token → Reading β → Prop}
    (hp : Settled p us (vs ++ rest) fun rest' r => r = .parsed a rest' fs)
    (hf : Settled (fun d => f d a) vs rest Q) :
    Settled (fun d => p d >>= f d) (us ++ vs) rest fun rest' r =>
      ∃ r', Q rest' r' ∧ r = r'.after fs := by
  intro rest' hrest d
  rw [List.append_assoc]
  rcases hp (vs ++ rest') (head?_append_congr vs hrest) d with h | h
  · exact .inl (bind_of_exhausted h)
  · show (p d >>= f d) (us ++ (vs ++ rest')) = _ ∨ ∃ r', Q rest' r' ∧ (p d >>= f d) _ = _
    rw [bind_of_parsed h]
    rcases hf rest' hrest d with h' | h'
    · exact .inl (congrArg (Reading.after fs) h')
    · exact .inr ⟨_, h', rfl⟩

end Settled

namespace Tracks

variable {S S₁ : List Token → Prop} {inside : Prop} {n : Nat} {ts : List Token}
variable {p q : Nat → Parse α} {f : Nat → α → Parse β}

theorem zero (hv : ∃ vs, S vs) (hp : p 0 = exhausted) : Tracks S inside p 0 ts :=
  ⟨hv, fun h => absurd (by rw [hp]; rfl) h⟩

theorem succ (hp : ∀ d, p (d + 1) = q d) (hzero : p 0 = exhausted) (h : Tracks S inside q n ts) :
    Tracks S inside p (n + 1) ts := by
  refine ⟨h.viable, fun hn => ?_⟩
  rw [hp] at hn
  cases h.outcome hn with
  | parsed hts hs hnoted run => exact .parsed hts hs hnoted (run.succ hzero hp)
  | failed hts hs hnoted hc run => exact .failed hts hs hnoted hc (run.succ hzero hp)
  | broken hts hs hb run => exact .broken hts hs hb (run.succ hzero hp)

theorem mono (h : Tracks S₁ inside p n ts) (hS : ∀ us, S₁ us → S us) : Tracks S inside p n ts := by
  obtain ⟨vs, hvs⟩ := h.viable
  refine ⟨⟨vs, hS vs hvs⟩, fun hn => ?_⟩
  cases h.outcome hn with
  | parsed hts hs hnoted run => exact .parsed hts (hS _ hs) hnoted run
  | failed hts hs hnoted hc run => exact .failed hts (hS _ hs) hnoted hc run
  | broken hts hs hb run => exact .broken hts (hS _ hs) hb run

protected theorem pure {a : α} (hs : S []) : Tracks S inside (fun _ => pure a) n ts :=
  ⟨⟨[], hs⟩, fun _ => .parsed (List.nil_append ts).symm hs (Noted.nil ts) fun _ _ _ => .inr rfl⟩

protected theorem fail {cause : SyntaxCause} (hc : cause.isNote = false) (hv : ∃ vs, S vs) :
    Tracks S inside (fun _ => (fail cause : Parse α)) n ts := by
  obtain ⟨vs, hvs⟩ := hv
  exact ⟨⟨vs, hvs⟩, fun _ => .failed (List.nil_append ts).symm hvs (Noted.nil ts) hc
    fun _ _ _ => .inr rfl⟩

/-- The second reader follows what can stand after the phrase that the first has read. -/
protected theorem bind [Nonempty α] (hp : Tracks S₁ inside p n ts)
    (hf : ∀ a us rest, S₁ us → Tracks (fun vs => S (us ++ vs)) inside (fun d => f d a) n rest) :
    Tracks S inside (fun d => p d >>= f d) n ts := by
  -- a phrase of the first reader extends to a phrase of the whole
  have hviable : ∀ us, S₁ us → ∃ vs, S (us ++ vs) := by
    intro us hus
    obtain ⟨a⟩ := ‹Nonempty α›
    exact (hf a us [] hus).viable
  refine ⟨?_, fun hn => ?_⟩
  · obtain ⟨us, hus⟩ := hp.viable
    obtain ⟨vs, hvs⟩ := hviable us hus
    exact ⟨us ++ vs, hvs⟩
  have hfirst : p n ts ≠ .exhausted := fun h => hn (bind_of_exhausted h)
  cases hp.outcome hfirst with
  | @parsed us rest a fs hts hus hnoted run =>
    subst hts
    have hsecond : f n a rest ≠ .exhausted := by
      intro h
      apply hn
      show (p n >>= f n) (us ++ rest) = _
      rw [bind_of_parsed (run.here hfirst), h]
      rfl
    cases (hf a us rest hus).outcome hsecond with
    | @parsed vs rest' b fs' hrest hs hnoted' run' =>
      subst hrest
      refine .parsed (a := b) (List.append_assoc us vs rest').symm hs (hnoted.append hnoted')
        ((run.bind run').mono ?_)
      rintro rest'' r ⟨r', rfl, rfl⟩
      rfl
    | @failed vs ws rest' cause fs' hrest hs hnoted' hc run' =>
      subst hrest
      rw [← List.append_assoc] at hs
      refine .failed (List.append_assoc us vs rest').symm hs (hnoted.append hnoted') hc
        ((run.bind run').mono ?_)
      rintro rest'' r ⟨r', rfl, rfl⟩
      rfl
    | @broken vs ws rest' hrest hs hb run' =>
      subst hrest
      rw [← List.append_assoc] at hs
      refine .broken (List.append_assoc us vs rest').symm hs (hb.imp_right ?_)
        ((run.bind run').mono ?_)
      · rintro ⟨t, ht, hk⟩
        exact ⟨t, List.mem_append_right us ht, hk⟩
      · rintro rest'' r ⟨r', hr, rfl⟩
        exact hr.after_reading hnoted
  | @failed us vs rest cause fs hts hs hnoted hc run =>
    obtain ⟨ws, hws⟩ := hviable _ hs
    rw [List.append_assoc] at hws
    refine .failed hts hws hnoted hc fun rest' hrest d => ?_
    rcases run rest' hrest d with h | h
    · exact .inl (bind_of_exhausted h)
    · exact .inr (bind_of_failed h)
  | @broken us vs rest hts hs hb run =>
    obtain ⟨ws, hws⟩ := hviable _ hs
    rw [List.append_assoc] at hws
    refine .broken hts hws hb fun rest' hrest d => ?_
    rcases run rest' hrest d with h | h
    · exact .inl (bind_of_exhausted h)
    · exact firstAt_bind h

protected theorem map [Nonempty α] {g : α → β} (h : Tracks S inside p n ts) :
    Tracks S inside (fun d => g <$> p d) n ts := by
  refine Tracks.bind (f := fun _ a => Pure.pure (g a)) h fun a us rest hus => .pure ?_
  rwa [List.append_nil]

/-! ### Single steps -/

variable {step : Parse α} {a : α} {t : Token}

/-- A token is taken. -/
theorem take (hstep : ∀ rest, Reads step (t :: rest) a rest)
    (h : Tracks (fun vs => S (t :: vs)) (inside ∨ t.kind = .punct .leftBrace) (fun d => f d a) n
      ts) : Tracks S inside (fun d => step >>= f d) n (t :: ts) := by
  obtain ⟨vs, hvs⟩ := h.viable
  refine ⟨⟨t :: vs, hvs⟩, fun hn => ?_⟩
  have hrun : ∀ {us rest : List Token} {R : List Token → Reading β → Prop},
      Settled (fun d => f d a) us rest R → Settled (fun d => step >>= f d) (t :: us) rest R := by
    intro us rest R run rest' hrest d
    show (step >>= f d) (t :: (us ++ rest')) = _ ∨ R rest' ((step >>= f d) (t :: (us ++ rest')))
    rw [bind_of_reads (hstep _)]
    exact run rest' hrest d
  have hcons : ∀ {us rest : List Token}, ts = us ++ rest → t :: ts = t :: us ++ rest := by
    rintro us rest rfl
    rfl
  rw [bind_of_reads (hstep _)] at hn
  cases h.outcome hn with
  | parsed hts hs hnoted run => exact .parsed (hcons hts) hs hnoted (hrun run)
  | failed hts hs hnoted hc run => exact .failed (hcons hts) hs hnoted hc (hrun run)
  | broken hts hs hb run =>
    refine .broken (hcons hts) hs ?_ (hrun run)
    rcases hb with (hb | hb) | ⟨t', ht', hb⟩
    · exact .inl hb
    · exact .inr ⟨t, List.mem_cons_self, hb⟩
    · exact .inr ⟨t', List.mem_cons_of_mem t ht', hb⟩

/-- Nothing is taken, and one token is looked at. -/
theorem look (hstep : ∀ rest, rest.head? = ts.head? → Reads step rest a rest)
    (h : Tracks S inside (fun d => f d a) n ts) : Tracks S inside (fun d => step >>= f d) n ts := by
  refine ⟨h.viable, fun hn => ?_⟩
  have hrun : ∀ {us rest : List Token} {R : List Token → Reading β → Prop}, ts = us ++ rest →
      Settled (fun d => f d a) us rest R → Settled (fun d => step >>= f d) us rest R := by
    rintro us rest R rfl run rest' hrest d
    show (step >>= f d) (us ++ rest') = _ ∨ R rest' ((step >>= f d) (us ++ rest'))
    rw [bind_of_reads (hstep _ (head?_append_congr us hrest))]
    exact run rest' hrest d
  rw [bind_of_reads (hstep ts rfl)] at hn
  cases h.outcome hn with
  | parsed hts hs hnoted run => exact .parsed hts hs hnoted (hrun hts run)
  | failed hts hs hnoted hc run => exact .failed hts hs hnoted hc (hrun hts run)
  | broken hts hs hb run => exact .broken hts hs hb (hrun hts run)

/-- A value at hand is handed on. -/
theorem pureBind (h : Tracks S inside (fun d => f d a) n ts) :
    Tracks S inside (fun d => Pure.pure a >>= f d) n ts :=
  look (fun _ _ => reads_pure.2 ⟨rfl, rfl⟩) h

theorem peek {f : Nat → Option Token → Parse β}
    (h : Tracks S inside (fun d => f d ts.head?) n ts) :
    Tracks S inside (fun d => Parse.peek >>= f d) n ts :=
  look (fun _ hrest => reads_peek.2 ⟨hrest, rfl⟩) h

theorem advance {f : Nat → Unit → Parse β}
    (h : Tracks (fun vs => S (t :: vs)) (inside ∨ t.kind = .punct .leftBrace) (fun d => f d ()) n
      ts) : Tracks S inside (fun d => Parse.advance >>= f d) n (t :: ts) :=
  take (advance_head t) h

theorem sees {kind : TokenKind} {f : Nat → Bool → Parse β}
    (h : ∀ b, Tracks S inside (fun d => f d b) n ts) :
    Tracks S inside (fun d => Parse.sees kind >>= f d) n ts :=
  look (fun _ hrest => reads_sees.2 ⟨by rw [hrest], rfl⟩) (h _)

theorem acceptIf {passes : Token → Bool} {f : Nat → Option Token → Parse β}
    (hsome : ∀ t rest, passes t = true → Tracks (fun vs => S (t :: vs))
      (inside ∨ t.kind = .punct .leftBrace) (fun d => f d (some t)) n rest)
    (hnone : Tracks S inside (fun d => f d none) n ts) :
    Tracks S inside (fun d => Parse.acceptIf passes >>= f d) n ts := by
  by_cases h : ∃ t ∈ ts.head?, passes t = true
  · obtain ⟨t, ht, hpasses⟩ := h
    obtain ⟨rest, rfl⟩ := List.head?_eq_some_iff.1 ht
    exact take (fun rest => acceptIf_head hpasses) (hsome t rest hpasses)
  · refine look (fun rest hrest => acceptIf_none fun t ht => ?_) hnone
    rw [hrest] at ht
    exact Bool.eq_false_iff.2 fun hpasses => h ⟨t, ht, hpasses⟩

theorem accept {kind : TokenKind} {f : Nat → Option Token → Parse β}
    (hsome : ∀ t rest, t.kind = kind → Tracks (fun vs => S (t :: vs))
      (inside ∨ t.kind = .punct .leftBrace) (fun d => f d (some t)) n rest)
    (hnone : Tracks S inside (fun d => f d none) n ts) :
    Tracks S inside (fun d => Parse.accept kind >>= f d) n ts :=
  acceptIf (fun t rest ht => hsome t rest (of_decide_eq_true ht)) hnone

theorem expect {kind : TokenKind} {cause : SyntaxCause} {f : Nat → Token → Parse β}
    (hc : cause.isNote = false)
    (h : ∀ t rest, t.kind = kind → Tracks (fun vs => S (t :: vs))
      (inside ∨ t.kind = .punct .leftBrace) (fun d => f d t) n rest) :
    Tracks S inside (fun d => Parse.expect kind cause >>= f d) n ts := by
  by_cases hkind : ∃ t ∈ ts.head?, t.kind = kind
  · obtain ⟨t, ht, hkind⟩ := hkind
    obtain ⟨rest, rfl⟩ := List.head?_eq_some_iff.1 ht
    exact take (fun rest => expect_head hkind) (h t rest hkind)
  · obtain ⟨vs, hvs⟩ := (h (Grammar.Relaxed.sample kind) [] rfl).viable
    refine ⟨⟨_, hvs⟩, fun _ => .failed (List.nil_append ts).symm hvs (Noted.nil ts) hc ?_⟩
    intro rest hrest d
    refine .inr (bind_of_failed ?_)
    cases rest with
    | nil => rfl
    | cons t rest =>
      have ht : ¬ t.kind = kind := fun ht => hkind ⟨t, hrest.symm, ht⟩
      show (if t.kind = kind then _ else _) = _
      rw [if_neg ht]

/-- A note is made; it is at the end only if nothing is left. -/
theorem note {token : Option Token} {cause : SyntaxCause} {f : Nat → Unit → Parse β}
    (hc : cause.isNote = true) (htoken : token = none → ts = [])
    (h : ∀ rest, Tracks S inside (fun d => f d ()) n rest) :
    Tracks S inside (fun d => noteAt token cause >>= f d) n ts := by
  have hnote : Noted ts [⟨token, cause⟩] := by
    intro f hf
    rw [List.mem_singleton] at hf
    subst hf
    exact ⟨hc, htoken⟩
  have hstep : Tracks (fun us => us = []) inside (fun _ => noteAt token cause) n ts :=
    ⟨⟨[], rfl⟩, fun _ => .parsed (List.nil_append ts).symm rfl hnote fun _ _ _ => .inr rfl⟩
  refine hstep.bind fun _ us rest hus => ?_
  subst hus
  exact h rest

/-- A failure becomes a fault, and reading goes on after it. -/
theorem recover (hi : inside) (h : Tracks S inside p n ts) :
    Tracks S inside (fun d => Parse.recover (p d)) n ts := by
  refine ⟨h.viable, fun hn => ?_⟩
  have hfirst : p n ts ≠ .exhausted := by
    intro h
    apply hn
    show Parse.recover (p n) ts = _
    unfold Parse.recover
    rw [h]
  cases h.outcome hfirst with
  | @parsed us rest a fs hts hs hnoted run =>
    refine .parsed (a := some a) hts hs hnoted fun rest' hrest d => ?_
    unfold Parse.recover
    rcases run rest' hrest d with h | h
    · exact .inl (by rw [h])
    · exact .inr (by rw [h])
  | @failed us vs rest cause fs hts hs hnoted hc run =>
    refine .broken hts hs (.inl hi) fun rest' hrest d => ?_
    unfold Parse.recover
    rcases run rest' hrest d with h | h
    · exact .inl (by rw [h])
    · have hfault : FirstAt rest.head? [⟨rest.head?, cause⟩] := ⟨cause, by simp [hc]⟩
      rw [h]
      refine .inr ?_
      show FirstAt rest.head? (fs ++ [⟨rest'.head?, cause⟩])
      rw [hrest]
      exact hfault.after hnoted
  | broken hts hs hb run =>
    refine .broken hts hs hb fun rest' hrest d => ?_
    unfold Parse.recover
    rcases run rest' hrest d with h | h
    · exact .inl (by rw [h])
    · cases hp : p d _ with
      | parsed a rest fs =>
        rw [hp] at h
        exact .inr h
      | failed cause rest fs =>
        rw [hp] at h
        exact .inr (h.append _)
      | exhausted => exact .inl rfl

end Tracks

end Parse
end Lox
