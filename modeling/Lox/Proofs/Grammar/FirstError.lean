import Lox.Proofs.Grammar.Passing
import Lox.Proofs.Grammar.Prefix
import Mathlib

/-!
# The first syntax error

The first error that is more than a note stands at the first impossible token of its input
(`parse_first_error`): what comes before it begins a program of the relaxed grammar, and with it
nothing does. The token where a reading stops is found by `program_tracks`. That no program has it
there is the converse, `Forms.passes`: a program would have been read to its end, yet before the
same next token the reading stops.
-/

set_option autoImplicit false

namespace Lox

/-- The faults of a reading, with the one that it fails with. -/
def Reading.reported {α : Type} : Reading α → List Fault
  | .parsed _ _ fs => fs
  | .failed cause rest fs => fs ++ [⟨rest.head?, cause⟩]
  | .exhausted => []

namespace Grammar

open Parse Relaxed

theorem parse_error_reported {ts : List Token} {errors : List CompileError}
    (h : parse ts = .error errors) :
    errors = (program (depthFor (beforeEnd ts)) (beforeEnd ts)).reported.map
      (Fault.error (endToken ts)) := by
  simp only [parse, readAll] at h
  split at h
  · cases h
  · rename_i hread
    cases h
    rw [hread]
    rfl
  · rename_i hread
    cases h
    rw [hread]
    rfl
  · rename_i hread
    cases h
    rw [hread]
    rfl

/-- The first error that is more than a note is the first such fault. -/
theorem find?_errors (atEnd : Token) (fs : List Fault) :
    (fs.map (Fault.error atEnd)).find? (fun e => !e.isNote)
      = (fs.find? fun f => !f.cause.isNote).map (Fault.error atEnd) := by
  rw [List.find?_map]
  rfl

theorem firstAt_reported {α : Type} {token : Option Token} {r : Reading α}
    (h : FirstAt token r.faults) : FirstAt token r.reported := by
  cases r with
  | parsed a rest fs => exact h
  | failed cause rest fs => exact h.append _
  | exhausted => exact h

/-- No program goes on with the token before which the reading does not pass. -/
theorem not_isProgram {us rest : List Token} {R : List Token → Reading (List Stmt) → Prop}
    (run : Settled program us rest R)
    (hR : ∀ rest' ss fs, AtTokens fs → ¬ R rest' (.parsed ss [] fs)) {rest' : List Token}
    (hrest : rest'.head? = rest.head?) : ¬ IsProgram (us ++ rest') := by
  intro hprogram
  obtain ⟨ss, fs, hfs, hread⟩ := hprogram.passes.1
  have hlasts := program_depthFor (us ++ rest')
  have hparsed := (hread [] rfl (depthFor (us ++ rest'))).resolve_left (by rwa [List.append_nil])
  rw [List.append_nil] at hparsed
  have hstop := (run rest' hrest (depthFor (us ++ rest'))).resolve_left hlasts
  rw [hparsed] at hstop
  exact hR rest' ss fs hfs hstop

/-- Where the reading of a list with faults that are more than notes goes wrong: the tokens before
begin a program, and none goes on with what comes next. -/
theorem first_fault {ts : List Token} {f : Fault}
    (h : (program (depthFor ts) ts).reported.find? (fun f => !f.cause.isNote) = some f) :
    ∃ us rest, ts = us ++ rest ∧ f.token = rest.head? ∧ (∃ vs, IsProgram (us ++ vs)) ∧
      ∀ rest', rest'.head? = rest.head? → ¬ IsProgram (us ++ rest') := by
  have hlasts := program_depthFor ts
  cases (program_tracks (depthFor ts) ts).outcome hlasts with
  | @parsed us rest ss fs hts _ hnoted run =>
    subst hts
    rw [run.here hlasts] at h
    rw [show Reading.reported (.parsed ss rest fs) = fs from rfl, hnoted.find?] at h
    cases h
  | @failed us vs rest cause fs hts hs hnoted hc run =>
    subst hts
    rw [run.here hlasts] at h
    have hfault : FirstAt rest.head? (fs ++ [⟨rest.head?, cause⟩]) :=
      FirstAt.after ⟨cause, by simp [hc]⟩ hnoted
    obtain ⟨cause', hfault⟩ := hfault
    rw [show Reading.reported (.failed cause rest fs : Reading (List Stmt))
      = fs ++ [⟨rest.head?, cause⟩] from rfl, hfault] at h
    cases h
    refine ⟨us, rest, rfl, rfl, ⟨vs, hs⟩, fun rest' hrest => not_isProgram run ?_ hrest⟩
    intro rest' ss fs' _ h
    cases h
  | @broken us vs rest hts hs hb run =>
    subst hts
    obtain ⟨cause, hfault⟩ := firstAt_reported (run.here hlasts)
    rw [hfault] at h
    cases h
    refine ⟨us, rest, rfl, rfl, ⟨vs, hs⟩, fun rest' hrest => not_isProgram run ?_ hrest⟩
    rintro rest' ss fs hfs ⟨cause, hfirst⟩
    rw [show Reading.faults (.parsed ss [] fs) = fs from rfl, hfs.find?] at hfirst
    cases hfirst

/-- A program is read to the end. -/
theorem program_rest : ∀ (d : Nat) {ts rest : List Token} {ss : List Stmt} {fs : List Fault},
    program d ts = .parsed ss rest fs → rest = []
  | 0, _, _, _, _, h => by cases h
  | d + 1, ts, rest, ss, fs, h => by
    rw [program, bind_of_reads (show Reads peek ts ts.head? ts from rfl)] at h
    cases ts with
    | nil =>
      cases h
      rfl
    | cons t ts =>
      obtain ⟨first, mid, fs, fs', -, h⟩ := parsed_bind h
      obtain ⟨others, rest', fs, fs', hothers, h⟩ := parsed_bind h
      obtain rfl : rest' = rest := by
        cases h
        rfl
      exact program_rest d hothers

/-- The relaxed grammar is what is read with notes alone. -/
theorem isProgram_iff {ts : List Token} :
    IsProgram ts ↔ ∀ f ∈ (program (depthFor ts) ts).reported, f.cause.isNote = true := by
  have hlasts := program_depthFor ts
  constructor
  · intro h
    obtain ⟨ss, fs, hfs, hread⟩ := h.passes.1
    have hparsed := hread [] rfl (depthFor ts)
    rw [List.append_nil] at hparsed
    rw [hparsed.resolve_left hlasts]
    exact fun f hf => (hfs f hf).1
  · intro h
    have hnone := find?_notes h
    cases (program_tracks (depthFor ts) ts).outcome hlasts with
    | @parsed us rest ss fs hts hs _ run =>
      subst hts
      obtain rfl := program_rest _ (run.here hlasts)
      rwa [List.append_nil]
    | @failed us vs rest cause fs hts _ _ hc run =>
      subst hts
      have hfault := h ⟨rest.head?, cause⟩ (by rw [run.here hlasts]; simp [Reading.reported])
      rw [hc] at hfault
      cases hfault
    | @broken us vs rest hts _ _ run =>
      subst hts
      obtain ⟨cause, hfault⟩ := firstAt_reported (run.here hlasts)
      rw [hnone] at hfault
      cases hfault

/-- The grammar is within the relaxed one. -/
theorem DerivesProgram.isProgram {ts : List Token} {ss : List Stmt} (h : DerivesProgram ts ss) :
    IsProgram ts := by
  rw [isProgram_iff, ((Grammar.Forms.completes h).1 _).resolve_left (program_depthFor ts)]
  intro f hf
  cases hf

/-- The first error that is more than a note stands at a token before which the input begins a
program of the relaxed grammar. With that token nothing does; and if it is the end, the tokens
before it are no program. -/
theorem parse_first_error {before : List Token} {eof : Token} {errors : List CompileError}
    {error : CompileError} (hbefore : ∀ t ∈ before, t.kind ≠ .eof) (heof : eof.kind = .eof)
    (h : parse (before ++ [eof]) = .error errors)
    (hfirst : errors.find? (fun e => !e.isNote) = some error) :
    ∃ i t cause, error = .syntactic t cause ∧ (before ++ [eof])[i]? = some t ∧
      (∃ vs, IsProgram ((before ++ [eof]).take i ++ vs)) ∧
      (t.kind ≠ .eof → ¬ ∃ vs, IsProgram ((before ++ [eof]).take (i + 1) ++ vs)) ∧
      (t.kind = .eof → ¬ IsProgram ((before ++ [eof]).take i)) := by
  rw [parse_error_reported h, beforeEnd_end hbefore heof, endToken_end hbefore heof,
    find?_errors, Option.map_eq_some_iff] at hfirst
  obtain ⟨f, hf, rfl⟩ := hfirst
  obtain ⟨us, rest, rfl, htoken, hviable, himpossible⟩ := first_fault hf
  cases rest with
  | nil =>
    have htake : (us ++ [] ++ [eof]).take us.length = us := by simp
    refine ⟨us.length, eof, f.cause, ?_, by simp, ?_, fun hne => absurd heof hne, fun _ => ?_⟩
    · rw [Fault.error, htoken]
      rfl
    · rwa [htake]
    · rw [htake]
      have hnone := himpossible [] rfl
      rwa [List.append_nil] at hnone
  | cons t rest =>
    have ht : t.kind ≠ .eof := hbefore t (List.mem_append_right us List.mem_cons_self)
    have htake : (us ++ t :: rest ++ [eof]).take us.length = us := by simp
    have htake' : (us ++ t :: rest ++ [eof]).take (us.length + 1) = us ++ [t] := by
      rw [show us ++ t :: rest ++ [eof] = us ++ [t] ++ (rest ++ [eof]) by simp]
      exact List.take_left' (by simp)
    refine ⟨us.length, t, f.cause, ?_, by simp, ?_, fun _ => ?_, fun h => absurd h ht⟩
    · rw [Fault.error, htoken]
      rfl
    · rwa [htake]
    · rintro ⟨vs, hvs⟩
      rw [htake', List.append_assoc] at hvs
      exact himpossible (t :: vs) rfl hvs

/-- `(a) = b; print ;` has a note at its `=`, and then an error at its last token. -/
theorem parse_first_error_after_note :
    ∃ (before : List Token) (eof : Token) (note error : CompileError),
      (∀ t ∈ before, t.kind ≠ .eof) ∧ eof.kind = .eof ∧
      parse (before ++ [eof]) = .error [note, error] ∧ note.isNote = true ∧
      [note, error].find? (fun e => !e.isNote) = some error ∧
      ∃ i t cause, error = .syntactic t cause ∧ (before ++ [eof])[i]? = some t ∧
        (∃ vs, IsProgram ((before ++ [eof]).take i ++ vs)) ∧
        (t.kind ≠ .eof → ¬ ∃ vs, IsProgram ((before ++ [eof]).take (i + 1) ++ vs)) ∧
        (t.kind = .eof → ¬ IsProgram ((before ++ [eof]).take i)) := by
  let before := [sample (.punct .leftParen), sample .identifier, sample (.punct .rightParen),
    sample (.punct .equal), sample .identifier, sample (.punct .semicolon),
    sample (.keyword .printWord), sample (.punct .semicolon)]
  have hbefore : ∀ t ∈ before, t.kind ≠ .eof := by
    simp [before, sample]
  have hread : parse (before ++ [sample .eof]) = .error
      [.syntactic (sample (.punct .equal)) .invalidAssignmentTarget,
        .syntactic (sample (.punct .semicolon)) .expression] := by
    cbv
  exact ⟨before, sample .eof, _, _, hbefore, rfl, hread, rfl, rfl,
    parse_first_error hbefore rfl hread rfl⟩

end Grammar
end Lox
