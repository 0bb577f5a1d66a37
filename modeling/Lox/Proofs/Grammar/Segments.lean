import Lox.Proofs.Grammar.Stretch
import Mathlib

/-!
# Segments are read independently

A segment is a token list that parses, or a stretch, right or wrong. The errors in a list of
segments are those that each segment has alone, in order, and if there are none the statements are
those of the segments (`parse_segments`).

`Adds ts ss fs` says that the tokens `ts` add the statements `ss` and the faults `fs` to whatever
follows them. Declarations add theirs one after the other (`Adds.declaration`); what is left of a
stretch after recovery is a shorter stretch, so that a stretch adds something is an induction on
its length (`IsStretch.adds`).
-/

set_option autoImplicit false

namespace Lox.Grammar

open Parse
open Relaxed (sample)

/-! ## What tokens add to a program -/

/-- The tokens `ts` add the statements `ss` and the faults `fs`, all at tokens, to those of every
program after them. -/
def Adds (ts : List Token) (ss : List Stmt) (fs : List Fault) : Prop :=
  (∀ f ∈ fs, f.token ≠ none) ∧ ∀ rest, NoElse rest → ∀ ss' fs',
    (∀ d, Gives (program d) rest (.parsed ss' [] fs')) →
      ∀ d, Gives (program d) (ts ++ rest) (.parsed (ss ++ ss') [] (fs ++ fs'))

namespace Adds

variable {us ts : List Token} {ss ss' : List Stmt} {fs fs' : List Fault}

theorem nil : Adds [] [] [] := by
  refine ⟨?_, fun rest _ ss fs h => h⟩
  intro f hf
  cases hf

/-- Tokens after which no `else` comes first, and then others. -/
theorem append (h : Adds us ss fs) (h' : Adds ts ss' fs')
    (hts : ∀ rest, NoElse rest → NoElse (ts ++ rest)) :
    Adds (us ++ ts) (ss ++ ss') (fs ++ fs') := by
  constructor
  · intro f hf
    rcases List.mem_append.1 hf with hf | hf
    · exact h.1 f hf
    · exact h'.1 f hf
  · intro rest hrest ss'' fs'' hread
    rw [List.append_assoc, List.append_assoc, List.append_assoc]
    exact h.2 _ (hts rest hrest) _ _ (h'.2 rest hrest _ _ hread)

/-- The errors of the tokens alone do not depend on the end token after them. -/
theorem errors_eq (h : Adds ts ss fs) (atEnd atEnd' : Token) :
    fs.map (Fault.error atEnd) = fs.map (Fault.error atEnd') := by
  refine List.map_congr_left fun f hf => ?_
  obtain ⟨t, ht⟩ := Option.ne_none_iff_exists'.1 (h.1 f hf)
  rw [Fault.error, Fault.error, ht]
  rfl

/-- The tokens alone give what they add. -/
theorem parse (h : Adds ts ss fs) (hts : ∀ t ∈ ts, t.kind ≠ .eof) {eof : Token}
    (heof : eof.kind = .eof) : Grammar.parse (ts ++ [eof]) =
      match fs.map (Fault.error eof) with
      | [] => .ok ss
      | errors => .error errors := by
  have hnil : ∀ d, Gives (program d) [] (.parsed [] [] []) := by
    intro d
    cases d with
    | zero => exact .inl rfl
    | succ d => exact .inr rfl
  have hread := (h.2 [] (fun t ht => by cases ht) [] [] hnil (depthFor ts)).resolve_left
    (by rw [List.append_nil]; exact program_depthFor ts)
  rw [List.append_nil, List.append_nil, List.append_nil] at hread
  simp only [Grammar.parse, readAll, beforeEnd_end hts heof, endToken_end hts heof, hread]
  cases fs <;> rfl

/-- A declaration is read, or given up, and the rest of the tokens after it. -/
theorem declaration {o : Option Stmt} (hts : ts ≠ []) (hfs : ∀ f ∈ fs, f.token ≠ none)
    (hread : ∀ rest, NoElse rest →
      ∀ d, Gives (Grammar.declaration d) (ts ++ rest) (.parsed o (us ++ rest) fs))
    (hus : Adds us ss fs') : Adds ts (o.toList ++ ss) (fs ++ fs') := by
  constructor
  · intro f hf
    rcases List.mem_append.1 hf with hf | hf
    · exact hfs f hf
    · exact hus.1 f hf
  · intro rest hrest ss' fs'' h d
    have hrest' := hus.2 rest hrest ss' fs'' h
    cases d with
    | zero => exact .inl rfl
    | succ d =>
      cases ts with
      | nil => exact absurd rfl hts
      | cons t ts =>
        rw [program, List.append_assoc, List.append_assoc]
        refine .step (peek_head t (ts ++ rest)) ?_
        have hfirst := (hread rest hrest d).bind_parsed
          (f := fun o => do let others ← program d; pure (o.toList ++ others))
          ((hrest' d).bind_parsed (.pure _ _))
        rwa [List.append_nil] at hfirst

end Adds

/-- The statements of a program are added without faults. -/
theorem Forms.adds {c : Clause} {ts : List Token} {x : c.Tree} (h : Forms c ts x) :
    match c, x with
    | .declarations, ss => Adds ts ss []
    | _, _ => True := by
  induction h with
  | declarationsNil => exact .nil
  | @declarationsCons us ts s ss h hs _ ih =>
    obtain ⟨t, us, rfl, -⟩ := h.declaration_head
    have hadds : Adds (t :: us ++ ts) ((some s).toList ++ ss) ([] ++ []) := by
      refine Adds.declaration (List.cons_ne_nil _ _) (fun f hf => ?_) (fun rest hrest d => ?_) ih
      · cases hf
      · rw [List.append_assoc]
        exact Completes.declaration h.completes (hs.declarations_noElse hrest) d
    exact hadds
  | _ => trivial

/-- A declaration of the relaxed grammar adds its statement. -/
theorem Relaxed.Forms.adds {g : List Token} (h : Relaxed.Forms .declaration g) :
    ∃ ss fs, Adds g ss fs := by
  obtain ⟨s, fs, hfs, hread⟩ := h.passes
  obtain ⟨t, us, rfl, -⟩ := h.declaration_head
  have hadds : Adds (t :: us) ((some s).toList ++ []) (fs ++ []) := by
    refine Adds.declaration (List.cons_ne_nil t us) (fun f hf => (hfs f hf).2)
      (fun rest hrest d => ?_) .nil
    cases d with
    | zero => exact .inl rfl
    | succ d =>
      rw [Grammar.declaration]
      exact (hread rest hrest d).recover
  exact ⟨_, _, hadds⟩

/-- A stretch adds its errors, or its statement. -/
theorem IsStretch.adds {g : List Token} (h : IsStretch g) : ∃ ss fs, Adds g ss fs := by
  have hlasts : declarationOrFail (32 * g.length + 17) g ≠ .exhausted := by
    intro hexhausted
    have hwithin := declarationOrFail_within _ g.length (Nat.le_refl _) g (Nat.le_refl _)
    unfold TakesFrom at hwithin
    rw [hexhausted] at hwithin
    exact hwithin
  cases (Relaxed.declarationOrFail_tracks (32 * g.length + 17) False g).outcome hlasts with
  | @parsed us rest s fs hts hs hnoted run =>
    -- a declaration has a semicolon or an opening brace, so it is the whole stretch
    subst hts
    obtain ⟨t, ht, hk⟩ := hs.exists_boundary
    cases rest with
    | nil =>
      rw [List.append_nil]
      exact hs.adds
    | cons t' rest =>
      have hplain := (h.split (List.cons_ne_nil t' rest)).2 t ht
      exact (hk.elim hplain.1 hplain.2.1).elim
  | @failed us vs rest cause fs hts hs hnoted hc run =>
    subst hts
    cases rest with
    | nil =>
      -- the stretch would be a declaration, and would have been read
      rw [List.append_nil] at h ⊢
      exact (hs.of_stretch h rfl).adds
    | cons t rest =>
      obtain ⟨r, hr, hlength, hsynchronize⟩ :=
        (h.split (List.cons_ne_nil t rest)).1.synchronize
      obtain ⟨ss, fs', hadds⟩ : ∃ ss fs', Adds r ss fs' := by
        rcases hr with rfl | hr
        · exact ⟨[], [], .nil⟩
        · have hless : r.length < (us ++ t :: rest).length := by
            rw [List.length_append]
            omega
          exact hr.adds
      have hall : Adds (us ++ t :: rest) ((none : Option Stmt).toList ++ ss)
          ((fs ++ [⟨some t, cause⟩]) ++ fs') := by
        refine Adds.declaration (List.append_ne_nil_of_right_ne_nil us (List.cons_ne_nil t rest))
          (fun f hf => ?_) (fun x _ d => ?_) hadds
        · rcases List.mem_append.1 hf with hf | hf
          · exact fun hnone => List.cons_ne_nil t rest ((hnoted f hf).2 hnone)
          · rw [List.mem_singleton.1 hf]
            exact Option.some_ne_none t
        · cases d with
          | zero => exact .inl rfl
          | succ d =>
            rw [Grammar.declaration, ← hsynchronize x, List.append_assoc]
            exact Gives.recover_failed (run (t :: rest ++ x) rfl d)
      exact ⟨_, _, hall⟩
  | broken hts hs hb run =>
    rcases hb with hb | ⟨t, ht, hb⟩
    · exact hb.elim
    · exact absurd hb (h.mem ht).1
termination_by g.length

/-! ## Segments -/

/-- Tokens that parse alone or are a stretch, and the end token after them when they are alone. -/
structure Segment where
  tokens : List Token
  eof : Token
  isEnd : eof.kind = .eof
  alone : ((∀ t ∈ tokens, t.kind ≠ .eof) ∧ ∃ program, parse (tokens ++ [eof]) = .ok program) ∨
    IsStretch tokens

namespace Segment

/-- The errors of a segment alone. -/
def errors (s : Segment) : List CompileError :=
  match parse (s.tokens ++ [s.eof]) with
  | .ok _ => []
  | .error errors => errors

/-- The statements of a segment alone. -/
def statements (s : Segment) : List Stmt :=
  match parse (s.tokens ++ [s.eof]) with
  | .ok program => program
  | .error _ => []

theorem ne_eof (s : Segment) : ∀ t ∈ s.tokens, t.kind ≠ .eof := by
  rcases s.alone with ⟨hts, -⟩ | h
  · exact hts
  · exact fun t ht => (h.mem ht).2.2.2

/-- A segment that parses is a program. -/
theorem derives {s : Segment} {program : List Stmt}
    (h : parse (s.tokens ++ [s.eof]) = .ok program) : DerivesProgram s.tokens program := by
  have hderives := parse_ok_iff.1 h
  rwa [beforeEnd_end s.ne_eof s.isEnd] at hderives

theorem noElse (s : Segment) {rest : List Token} (hrest : NoElse rest) :
    NoElse (s.tokens ++ rest) := by
  rcases s.alone with ⟨-, program, h⟩ | h
  · exact (derives h).declarations_noElse hrest
  · obtain ⟨t, us, hts⟩ := List.exists_cons_of_ne_nil h.ne_nil
    intro t' ht'
    rw [hts] at ht'
    cases ht'
    exact (h.mem (hts ▸ List.mem_cons_self)).2.2.1

theorem noElse_all (segments : List Segment) {rest : List Token} (hrest : NoElse rest) :
    NoElse (segments.flatMap tokens ++ rest) := by
  induction segments with
  | nil => exact hrest
  | cons s segments ih =>
    rw [List.flatMap_cons, List.append_assoc]
    exact s.noElse ih

theorem adds (s : Segment) : ∃ ss fs, Adds s.tokens ss fs := by
  rcases s.alone with ⟨-, program, h⟩ | h
  · exact ⟨program, [], (derives h).adds⟩
  · exact h.adds

/-- The errors of a segment are its faults, whatever the end token is. -/
theorem errors_eq {s : Segment} {ss : List Stmt} {fs : List Fault} (h : Adds s.tokens ss fs)
    (atEnd : Token) : s.errors = fs.map (Fault.error atEnd) := by
  unfold errors
  rw [h.parse s.ne_eof s.isEnd, h.errors_eq atEnd s.eof]
  cases fs <;> rfl

theorem statements_eq {s : Segment} {ss : List Stmt} (h : Adds s.tokens ss []) :
    s.statements = ss := by
  unfold statements
  rw [h.parse s.ne_eof s.isEnd]
  rfl

/-- The segments of a list add their errors and statements in order. -/
theorem adds_all (segments : List Segment) : ∃ ss fs, Adds (segments.flatMap tokens) ss fs ∧
    (∀ atEnd, segments.flatMap errors = fs.map (Fault.error atEnd)) ∧
    (fs = [] → segments.flatMap statements = ss) := by
  induction segments with
  | nil => exact ⟨[], [], .nil, fun _ => rfl, fun _ => rfl⟩
  | cons s segments ih =>
    obtain ⟨ss, fs, hs⟩ := s.adds
    obtain ⟨ss', fs', hsegments, herrors, hstatements⟩ := ih
    refine ⟨ss ++ ss', fs ++ fs', hs.append hsegments fun rest => noElse_all segments,
      fun atEnd => ?_, fun hnil => ?_⟩
    · rw [List.flatMap_cons, errors_eq hs atEnd, herrors atEnd, List.map_append]
    · obtain ⟨rfl, rfl⟩ := List.append_eq_nil_iff.1 hnil
      rw [List.flatMap_cons, statements_eq hs, hstatements rfl]

end Segment

/-- The errors in a list of segments are those of the segments alone, in order; if there are none,
the statements are those of the segments. -/
theorem parse_segments (segments : List Segment) {eof : Token} (heof : eof.kind = .eof) :
    parse (segments.flatMap Segment.tokens ++ [eof]) =
      match segments.flatMap Segment.errors with
      | [] => .ok (segments.flatMap Segment.statements)
      | errors => .error errors := by
  obtain ⟨ss, fs, hadds, herrors, hstatements⟩ := Segment.adds_all segments
  have hts : ∀ t ∈ segments.flatMap Segment.tokens, t.kind ≠ .eof := by
    intro t ht
    obtain ⟨s, -, ht⟩ := List.mem_flatMap.1 ht
    exact s.ne_eof t ht
  rw [hadds.parse hts heof, herrors eof]
  cases fs with
  | nil => rw [hstatements rfl]
  | cons f fs => rfl

/-- The segments `var = a;`, `{ }`, `print ;` and `(a) = a;` have one error each, but for the
second. -/
theorem parse_segments_three_errors : ∃ segments : List Segment,
    segments.length = 4 ∧ (sample .eof).kind = .eof ∧
    segments.flatMap Segment.errors =
      [.syntactic (sample (.punct .equal)) .variableName,
        .syntactic (sample (.punct .semicolon)) .expression,
        .syntactic (sample (.punct .equal)) .invalidAssignmentTarget] ∧
    parse (segments.flatMap Segment.tokens ++ [sample .eof]) =
      .error [.syntactic (sample (.punct .equal)) .variableName,
        .syntactic (sample (.punct .semicolon)) .expression,
        .syntactic (sample (.punct .equal)) .invalidAssignmentTarget] := by
  have hplain : ∀ {front : List Token}, (∀ t ∈ front, IsPlain t.kind) →
      IsStretch (front ++ [sample (.punct .semicolon)]) := fun h => ⟨_, _, rfl, rfl, h⟩
  let first : Segment := ⟨[sample (.keyword .varWord), sample (.punct .equal),
    sample .identifier] ++ [sample (.punct .semicolon)], sample .eof, rfl,
    .inr (hplain (by simp [sample, IsPlain]))⟩
  let second : Segment := ⟨[sample (.punct .leftBrace), sample (.punct .rightBrace)], sample .eof,
    rfl, .inl ⟨by simp [sample], [.block []], by cbv⟩⟩
  let third : Segment := ⟨[sample (.keyword .printWord)] ++ [sample (.punct .semicolon)],
    sample .eof, rfl, .inr (hplain (by simp [sample, IsPlain]))⟩
  let fourth : Segment := ⟨[sample (.punct .leftParen), sample .identifier,
    sample (.punct .rightParen), sample (.punct .equal), sample .identifier] ++
    [sample (.punct .semicolon)], sample .eof, rfl, .inr (hplain (by simp [sample, IsPlain]))⟩
  have herrors : [first, second, third, fourth].flatMap Segment.errors =
      [.syntactic (sample (.punct .equal)) .variableName,
        .syntactic (sample (.punct .semicolon)) .expression,
        .syntactic (sample (.punct .equal)) .invalidAssignmentTarget] := by
    cbv
  have hend : (sample .eof).kind = .eof := rfl
  have hall := parse_segments [first, second, third, fourth] hend
  rw [herrors] at hall
  exact ⟨[first, second, third, fourth], rfl, hend, herrors, hall⟩

end Lox.Grammar
