import Lox.Proofs.Grammar.Passing
import Lox.Proofs.Grammar.Prefix

/-!
# Stretches

A stretch is a token list whose only semicolon is its last token, without braces, `for`, `else` and
end tokens. It holds one declaration at most, right or wrong.

* `IsStretch.forms`: when a declaration begins with a whole stretch, the stretch is a declaration.
  So a reading that fails in a stretch fails before its end, and does not depend on what follows.
* `IsStretch.synchronize`: recovery in a stretch stops inside it or right after it.
-/

set_option autoImplicit false

namespace Lox.Grammar

open Parse

/-- The tokens that may stand in a stretch before its semicolon. -/
def IsPlain (k : TokenKind) : Prop :=
  k ≠ .punct .semicolon ∧ k ≠ .punct .leftBrace ∧ k ≠ .punct .rightBrace ∧
    k ≠ .keyword .forWord ∧ k ≠ .keyword .elseWord ∧ k ≠ .eof

/-- The only semicolon is the last token, and there are no braces, `for`, `else` and end tokens. -/
def IsStretch (ts : List Token) : Prop :=
  ∃ front semicolon, ts = front ++ [semicolon] ∧ semicolon.kind = .punct .semicolon ∧
    ∀ t ∈ front, IsPlain t.kind

/-- The tokens hold no semicolon. -/
def NoSemicolon (ts : List Token) : Prop :=
  ∀ t ∈ ts, t.kind ≠ .punct .semicolon

@[simp] theorem noSemicolon_nil : NoSemicolon [] := by
  simp [NoSemicolon]

@[simp] theorem noSemicolon_cons {t : Token} {ts : List Token} :
    NoSemicolon (t :: ts) ↔ t.kind ≠ .punct .semicolon ∧ NoSemicolon ts := by
  simp [NoSemicolon]

@[simp] theorem noSemicolon_append {us ts : List Token} :
    NoSemicolon (us ++ ts) ↔ NoSemicolon us ∧ NoSemicolon ts := by
  simp only [NoSemicolon, List.mem_append, or_imp, forall_and]

namespace IsStretch

variable {us vs ts g : List Token}

theorem mem (h : IsStretch g) {t : Token} (ht : t ∈ g) :
    t.kind ≠ .punct .leftBrace ∧ t.kind ≠ .keyword .forWord ∧ t.kind ≠ .keyword .elseWord ∧
      t.kind ≠ .eof := by
  obtain ⟨front, semicolon, rfl, hs, hplain⟩ := h
  rcases List.mem_append.1 ht with ht | ht
  · have := hplain t ht
    exact ⟨this.2.1, this.2.2.2.1, this.2.2.2.2⟩
  · rw [List.mem_singleton.1 ht, hs]
    decide

theorem ne_nil (h : IsStretch g) : g ≠ [] := by
  obtain ⟨front, semicolon, rfl, -⟩ := h
  exact List.append_ne_nil_of_right_ne_nil _ (List.cons_ne_nil _ _)

theorem not_noSemicolon (h : IsStretch g) : ¬ NoSemicolon g := by
  obtain ⟨front, semicolon, rfl, hs, -⟩ := h
  intro hno
  exact hno semicolon (List.mem_append_right _ List.mem_cons_self) hs

/-- What is left of a stretch is one, and the tokens before it are plain. -/
theorem split (h : IsStretch (us ++ g)) (hg : g ≠ []) :
    IsStretch g ∧ ∀ t ∈ us, IsPlain t.kind := by
  obtain ⟨front, semicolon, hfront, hs, hplain⟩ := h
  rcases List.append_eq_append_iff.1 hfront with ⟨xs, rfl, hxs⟩ | ⟨xs, rfl, hxs⟩
  · exact ⟨⟨xs, semicolon, hxs, hs, fun t ht => hplain t (List.mem_append_right us ht)⟩,
      fun t ht => hplain t (List.mem_append_left xs ht)⟩
  · cases xs with
    | nil =>
      rw [List.append_nil]
      exact ⟨⟨[], semicolon, hxs.symm, hs, fun t ht => by cases ht⟩, hplain⟩
    | cons x xs =>
      have hnil : xs ++ g = [] := (List.cons.inj hxs).2.symm
      exact absurd (List.append_eq_nil_iff.1 hnil).2 hg

/-- A stretch at the head of a list goes past the tokens without a semicolon. -/
theorem past (h : IsStretch g) (hus : NoSemicolon us) (heq : us ++ ts = g ++ vs) :
    ∃ g', g = us ++ g' ∧ ts = g' ++ vs ∧ IsStretch g' := by
  rcases List.append_eq_append_iff.1 heq with ⟨g', rfl, hts⟩ | ⟨xs, rfl, -⟩
  · refine ⟨g', rfl, hts, (h.split ?_).1⟩
    rintro rfl
    rw [List.append_nil] at h
    exact h.not_noSemicolon hus
  · exact absurd (noSemicolon_append.1 hus).1 h.not_noSemicolon

/-- The token after those without a semicolon belongs to the stretch. -/
theorem mem_past {t : Token} (h : IsStretch g) (hus : NoSemicolon us)
    (heq : us ++ t :: ts = g ++ vs) : t ∈ g := by
  obtain ⟨g', rfl, heq', hg'⟩ := h.past hus heq
  cases g' with
  | nil => exact absurd rfl hg'.ne_nil
  | cons t' g' =>
    obtain ⟨rfl, -⟩ := List.cons.inj heq'
    exact List.mem_append_right us List.mem_cons_self

/-- A list that ends at its first semicolon is the stretch at its head. -/
theorem eq_of_semicolon {semicolon : Token} (h : IsStretch g) (hus : NoSemicolon us)
    (heq : us ++ [semicolon] = g ++ vs) : us ++ [semicolon] = g := by
  obtain ⟨g', rfl, heq', hg'⟩ := h.past hus heq
  cases g' with
  | nil => exact absurd rfl hg'.ne_nil
  | cons t' g' =>
    obtain ⟨rfl, hnil⟩ := List.cons.inj heq'
    rw [(List.append_eq_nil_iff.1 hnil.symm).1]

end IsStretch

/-! ## Recovery -/

/-- Recovery before the semicolon of a stretch stops at a word inside it or right after it. -/
theorem skipToBoundary_stretch {semicolon : Token} (hs : semicolon.kind = .punct .semicolon) :
    ∀ {front : List Token} {previous : Token}, (∀ t ∈ front, IsPlain t.kind) →
      IsPlain previous.kind → ∃ r, (r = [] ∨ IsStretch r) ∧ r.length ≤ front.length + 1 ∧
        ∀ ts, skipToBoundary previous (front ++ semicolon :: ts) = r ++ ts
  | [], previous, _, hprevious => by
    refine ⟨[], .inl rfl, Nat.zero_le _, fun ts => ?_⟩
    have hgo : ¬ (previous.kind = .punct .semicolon ∨ startsStatement semicolon = true) := by
      rintro (h | h)
      · exact hprevious.1 h
      · simp [startsStatement, hs] at h
    rw [List.nil_append, List.nil_append, skipToBoundary, if_neg hgo]
    cases ts with
    | nil => rfl
    | cons t ts => rw [skipToBoundary, if_pos (.inl hs)]
  | t :: front, previous, hplain, hprevious => by
    by_cases ht : startsStatement t = true
    · refine ⟨t :: front ++ [semicolon], .inr ⟨_, _, rfl, hs, hplain⟩, by simp, fun ts => ?_⟩
      rw [List.cons_append, skipToBoundary, if_pos (.inr ht)]
      simp
    · have hgo : ¬ (previous.kind = .punct .semicolon ∨ startsStatement t = true) := by
        rintro (h | h)
        · exact hprevious.1 h
        · exact ht h
      obtain ⟨r, hr, hlength, hskip⟩ := skipToBoundary_stretch hs
        (fun t' ht' => hplain t' (List.mem_cons_of_mem t ht')) (hplain t List.mem_cons_self)
      refine ⟨r, hr, Nat.le_trans hlength (by simp), fun ts => ?_⟩
      rw [List.cons_append, skipToBoundary, if_neg hgo]
      exact hskip ts

/-- Recovery in a stretch leaves the end of it, and everything after it. -/
theorem IsStretch.synchronize {g : List Token} (h : IsStretch g) :
    ∃ r, (r = [] ∨ IsStretch r) ∧ r.length < g.length ∧
      ∀ ts, Parse.synchronize (g ++ ts) = r ++ ts := by
  obtain ⟨front, semicolon, rfl, hs, hplain⟩ := h
  cases front with
  | nil =>
    refine ⟨[], .inl rfl, by simp, fun ts => ?_⟩
    show skipToBoundary semicolon ts = ts
    cases ts with
    | nil => rfl
    | cons t ts => rw [skipToBoundary, if_pos (.inl hs)]
  | cons t front =>
    obtain ⟨r, hr, hlength, hskip⟩ := skipToBoundary_stretch hs
      (fun t' ht' => hplain t' (List.mem_cons_of_mem t ht')) (hplain t List.mem_cons_self)
    refine ⟨r, hr, by simp; omega, fun ts => ?_⟩
    rw [List.append_assoc]
    exact hskip ts

end Lox.Grammar

namespace Lox.Grammar.Relaxed

variable {ts : List Token}

/-! ## Phrases without a semicolon -/

theorem IsLeaf.ne_semicolon {k : TokenKind} (h : IsLeaf k) : k ≠ .punct .semicolon := by
  rintro rfl
  exact h

theorem Joins.ne_semicolon {l : Level} {k : TokenKind} (h : Joins l k) :
    k ≠ .punct .semicolon := by
  rintro rfl
  cases h

theorem Derives.noSemicolon {p : Phrase} (h : Derives p ts) : NoSemicolon ts := by
  induction h with
  | value _ ih | tighter _ _ ih | tightest _ _ ih | unaryCall _ ih | argument _ ih => exact ih
  | assignment _ he _ ih₁ ih₂ => simp [he, ih₁, ih₂]
  | level _ _ ih ihs | call _ _ ih ihs => simp [ih, ihs]
  | operationsNil | suffixesNil => simp
  | operationsCons hop _ _ ih ihs => simp [Joins.ne_semicolon hop, ih, ihs]
  | unary hop _ ih => rcases hop with h | h <;> simp [h, ih]
  | callEmpty hl hr _ ih => simp [hl, hr, ih]
  | callWith hl _ hr _ iha ih => simp [hl, hr, iha, ih]
  | get hd hn _ ih => simp [hd, hn, ih]
  | argumentsCons _ hc _ ih ihs => simp [hc, ih, ihs]
  | leaf h => simp [h.ne_semicolon]
  | grouping hl _ hr ih => simp [hl, hr, ih]
  | super hk hd hm => simp [hk, hd, hm]

theorem DerivesOption.noSemicolon (h : DerivesOption ts) : NoSemicolon ts := by
  cases h with
  | none => simp
  | some h => exact h.noSemicolon

theorem parameters_noSemicolon {ps : List Token} (h : Parameters ts ps) : NoSemicolon ts := by
  induction h with
  | one hp => simp [hp]
  | cons hp hc _ ih => simp [hp, hc, ih]

theorem ParameterClause.noSemicolon (h : ParameterClause ts) : NoSemicolon ts := by
  cases h with
  | none => simp
  | some h => exact parameters_noSemicolon h

theorem superclassClause_noSemicolon {superclass : Option Expr}
    (h : SuperclassClause ts superclass) : NoSemicolon ts := by
  cases h with
  | none => simp
  | some hl hn => simp [hl, hn]

theorem IfHead.noSemicolon (h : IfHead ts) : NoSemicolon ts := by
  cases h with
  | mk hw hl hc hr => simp [hw, hl, hr, hc.noSemicolon]

/-! ## Declarations and the stretches at their head -/

/-- A declaration that is read to its end has a semicolon or an opening brace. -/
theorem Forms.exists_boundary {c : Clause} (h : Forms c ts) : match c with
    | .declaration | .statement | .block | .function =>
      ∃ t ∈ ts, t.kind = .punct .semicolon ∨ t.kind = .punct .leftBrace
    | .declarations | .methods => True := by
  induction h with
  | declarationsNil | declarationsCons | methodsNil | methodsCons => trivial
  | statement _ ih | blockStatement _ ih => exact ih
  | classDecl _ _ _ hl | block hl => exact ⟨_, by simp, .inr hl⟩
  | funDecl _ _ ih =>
    obtain ⟨t, ht, hk⟩ := ih
    exact ⟨t, List.mem_cons_of_mem _ ht, hk⟩
  | function _ _ _ _ _ ih | loop _ _ ih | ifThen _ _ ih | ifElse _ _ _ _ ih =>
    obtain ⟨t, ht, hk⟩ := ih
    exact ⟨t, by simp [ht], hk⟩
  | varDecl h =>
    cases h with
    | bare _ _ hs | initialized _ _ _ _ hs => exact ⟨_, by simp, .inl hs⟩
  | expression h =>
    cases h with
    | mk _ hs => exact ⟨_, by simp, .inl hs⟩
  | print _ _ hs | ret _ _ hs => exact ⟨_, by simp, .inl hs⟩

/-- A declaration that begins with a whole stretch begins with a declaration. -/
theorem Forms.of_stretch {c : Clause} (h : Forms c ts) : match c with
    | .declaration | .statement =>
      ∀ {g vs : List Token}, IsStretch g → ts = g ++ vs → Forms c g
    | _ => True := by
  induction h with
  | function | block | declarationsNil | declarationsCons | methodsNil | methodsCons => trivial
  | statement _ ih => exact fun hg heq => .statement (ih hg heq)
  | @classDecl word name lbrace rbrace us ts _ hw hn hs hl hm hr =>
    intro g vs hg heq
    have hus : NoSemicolon (word :: name :: us) := by
      simp [hw, hn, superclassClause_noSemicolon hs]
    exact absurd hl (hg.mem (hg.mem_past hus heq)).1
  | @funDecl word _ hw h =>
    intro g vs hg heq
    cases h with
    | @function name lparen rparen us ts hn hlp hp hr hb =>
      cases hb with
      | @block lbrace rbrace ts hl hd hrb =>
        have hus : NoSemicolon (word :: name :: lparen :: (us ++ [rparen])) := by
          simp [hw, hn, hlp, hr, hp.noSemicolon]
        have heq' : word :: name :: lparen :: (us ++ [rparen]) ++ lbrace :: (ts ++ [rbrace])
            = g ++ vs := by
          rw [← heq]
          simp
        exact absurd hl (hg.mem (hg.mem_past hus heq')).1
  | varDecl h =>
    intro g vs hg heq
    cases h with
    | @bare word name semicolon hw hn hs =>
      have hus : NoSemicolon [word, name] := by simp [hw, hn]
      rw [← hg.eq_of_semicolon hus heq]
      exact .varDecl (.bare hw hn hs)
    | @initialized word name equal semicolon ts hw hn he hv hs =>
      have hus : NoSemicolon (word :: name :: equal :: ts) := by simp [hw, hn, he, hv.noSemicolon]
      rw [← hg.eq_of_semicolon hus heq]
      exact .varDecl (.initialized hw hn he hv hs)
  | expression h =>
    intro g vs hg heq
    cases h with
    | mk hv hs =>
      rw [← hg.eq_of_semicolon hv.noSemicolon heq]
      exact .expression (.mk hv hs)
  | @print word semicolon ts hw hv hs =>
    intro g vs hg heq
    have hus : NoSemicolon (word :: ts) := by simp [hw, hv.noSemicolon]
    rw [← hg.eq_of_semicolon hus heq]
    exact .print hw hv hs
  | @ret word semicolon ts hw hv hs =>
    intro g vs hg heq
    have hus : NoSemicolon (word :: ts) := by simp [hw, hv.noSemicolon]
    rw [← hg.eq_of_semicolon hus heq]
    exact .ret hw hv hs
  | blockStatement h =>
    intro g vs hg heq
    cases h with
    | block hl => exact absurd hl (hg.mem (hg.mem_past noSemicolon_nil heq)).1
  | loop h hb ih =>
    intro g vs hg heq
    cases h with
    | whileHead hw hl hc hr =>
      have hus := LoopHead.whileHead hw hl hc hr
      obtain ⟨g', rfl, heq', hg'⟩ := hg.past (by simp [hw, hl, hr, hc.noSemicolon]) heq
      exact .loop hus (ih hg' heq')
    | forHead hw => exact absurd hw (hg.mem (hg.mem_past noSemicolon_nil heq)).2.1
  | ifThen h ht ih =>
    intro g vs hg heq
    obtain ⟨g', rfl, heq', hg'⟩ := hg.past h.noSemicolon heq
    exact .ifThen h (ih hg' heq')
  | @ifElse us ts vs elseWord h ht he hs ih =>
    intro g ws hg heq
    obtain ⟨g', rfl, heq', hg'⟩ := hg.past h.noSemicolon heq
    rcases List.append_eq_append_iff.1 heq' with ⟨xs, rfl, hxs⟩ | ⟨xs, rfl, -⟩
    · cases xs with
      | nil =>
        rw [List.append_nil] at hg' ⊢
        exact .ifThen h ht
      | cons x xs =>
        obtain ⟨rfl, -⟩ := List.cons.inj hxs
        exact absurd he (hg'.mem (List.mem_append_right ts List.mem_cons_self)).2.2.1
    · exact .ifThen h (ih hg' rfl)

end Lox.Grammar.Relaxed
