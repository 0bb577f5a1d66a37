import Lox.Proofs.Lexical.Simulation
import Lox.Proofs.Session.Accepted

/-!
# Sessions run lexically

Every session shows what lexical evaluation shows: for any source texts, one after another, the same
outcomes with the same errors and the same output (`transcript_lexical`). Between two texts the
machine and the world agree, and the current frame is the global one (`Matches`); a rejected text
changes nothing, and one that stops at an error leaves states that agree again.
-/

set_option autoImplicit false

namespace Lox

/-! ## Transcripts -/

/-- What a session shows of source texts that run one after another, each with its fuel: the
outcomes, and the output after each text. -/
def Session.transcript (s : Session) : List (Nat × String) → Option (List (Outcome × Output))
  | [] => some []
  | (fuel, source) :: rest =>
    match s.run fuel source with
    | some (outcome, s) => (s.transcript rest).map ((outcome, s.machine.output) :: ·)
    | none => none

namespace Lexical

/-- What lexical evaluation shows of source texts. -/
def World.transcript (w : World) : List (Nat × String) → Option (List (Outcome × Output))
  | [] => some []
  | (fuel, source) :: rest =>
    match w.run fuel source with
    | some (outcome, w) => (w.transcript rest).map ((outcome, w.output) :: ·)
    | none => none

/-! ## Between two texts -/

/-- A session and a world that agree, with nothing running. -/
def Matches (s : Session) (w : World) : Prop :=
  ∃ cells, Agree cells s.machine w ∧ s.machine.current = Machine.globalFrame

theorem Matches.start (output : Output) (clock : Clock) :
    Matches (.start output clock) (.start output clock) := by
  refine ⟨#[], ?_, rfl⟩
  constructor
  · rfl
  · rfl
  · rfl
  · intro l g x hl
    simp at hl
  · intro l g x hl
    simp at hl
  · intro l l' c hl
    simp at hl
  · intro l g hl
    simp at hl
  · intro i
    simp only [Session.start, Machine.start, World.start, Array.getElem?_empty]
    exact .none
  · intro i
    simp only [Session.start, Machine.start, World.start, Array.getElem?_empty]
    exact .none
  · rfl
  · rfl
  · rfl

variable {s : Session} {w : World} {cells : Array Cell} {m : Machine}

/-- The place where programs start. -/
theorem Agree.top (h : Agree cells m w) (hc : m.current = Machine.globalFrame) :
    Here cells m w [] .empty :=
  ⟨⟨.top .., nofun, ⟨fun _ => hc, fun _ => rfl⟩, hc ▸ h.globalFrame_lt⟩, h⟩

theorem Matches.globalNames (h : Matches s w) : s.machine.globalNames = w.globals.names := by
  obtain ⟨cells, hagree, -⟩ := h
  rw [Machine.globalNames, Frames.names_eq, hagree.globals]
  rfl

/-- The checker is told the same global names. -/
theorem Matches.compile (h : Matches s w) (source : String) :
    s.compile source = Lox.compile w.globals.names source := by
  rw [Session.compile, h.globalNames]

/-- A program runs alike; no `return` is left at its end. -/
theorem Here.interpret (h : Here cells m w [] .empty) {program : List Stmt}
    (hp : Stmt.AllScoped false [] program) (fuel : Nat) :
    Tracks (some m.current) cells m Same (Lox.interpret fuel program m)
      (Lexical.interpret fuel program w) := by
  unfold Lox.interpret Lexical.interpret
  refine (executeAll_tracks fuel h hp).bind fun hr hend => ?_
  cases hend with
  | next => exact .pure hr.agree rfl
  | returned value keyword hinside => cases hinside

/-- A text has the same outcome, and the states match again. -/
theorem Matches.run (h : Matches s w) (fuel : Nat) (source : String) :
    Option.Rel (fun a b => a.1 = b.1 ∧ Matches a.2 b.2) (s.run fuel source)
      (w.run fuel source) := by
  unfold Session.run World.run
  rw [h.compile]
  cases hcompile : Lox.compile w.globals.names source with
  | error errors => exact .some ⟨rfl, h⟩
  | ok program =>
    obtain ⟨cells, hagree, hcurrent⟩ := h
    have hrun := (hagree.top hcurrent).interpret (compile_scoped hcompile) fuel
    dsimp only
    unfold Session.interpret
    generalize Lox.interpret fuel program s.machine = r at hrun ⊢
    generalize Lexical.interpret fuel program w = r' at hrun ⊢
    cases hrun with
    | ok hr => exact .some ⟨rfl, _, hr.agree, hr.current.trans hcurrent⟩
    | error hr => exact .some ⟨rfl, _, hr.agree, hr.current.trans hcurrent⟩
    | outOfFuel => exact .none

theorem Matches.exists_world (h : Matches s w) {fuel : Nat} {source : String} {outcome : Outcome}
    {s' : Session} (hr : s.run fuel source = some (outcome, s')) :
    ∃ w', w.run fuel source = some (outcome, w') ∧ Matches s' w' := by
  have hrun := h.run fuel source
  rw [hr] at hrun
  generalize w.run fuel source = r at hrun ⊢
  cases hrun with
  | @some _ right hsame =>
    exact ⟨right.2, congrArg (fun o => some (o, right.2)) hsame.1.symm, hsame.2⟩

theorem Matches.atClock {s : Session} (h : Matches s w) (clock : Clock) :
    Matches (s.atClock clock) { w with clock } := by
  obtain ⟨cells, hagree, hcurrent⟩ := h
  exact ⟨cells, { hagree with clock := rfl }, hcurrent⟩

theorem Matches.output (h : Matches s w) : s.machine.output = w.output := by
  obtain ⟨cells, hagree, -⟩ := h
  exact hagree.output

theorem Matches.transcript : ∀ (sources : List (Nat × String)) {s : Session} {w : World},
    Matches s w → s.transcript sources = w.transcript sources
  | [], _, _, _ => rfl
  | (fuel, source) :: rest, s, w, h => by
    have hrun := h.run fuel source
    simp only [Session.transcript, World.transcript]
    generalize s.run fuel source = r at hrun ⊢
    generalize w.run fuel source = r' at hrun ⊢
    cases hrun with
    | none => rfl
    | @some a b hab =>
      obtain ⟨outcome, s'⟩ := a
      obtain ⟨outcome', w'⟩ := b
      obtain ⟨rfl, hmatches⟩ := hab
      dsimp only
      rw [Matches.transcript rest hmatches, hmatches.output]

/-- **Sessions are lexically scoped**: a session shows what lexical evaluation shows. -/
theorem transcript_lexical (output : Output) (clock : Clock) (sources : List (Nat × String)) :
    (Session.start output clock).transcript sources
      = (World.start output clock).transcript sources :=
  (Matches.start output clock).transcript sources

/-- The function keeps the names of the place where it was declared. -/
example : ((World.start .unlimited (.stopped 0)).transcript
    [(40, "var a = true; \x7b fun show() \x7b print a; \x7d var a = nil; show(); \x7d")]).map
      (·.map (·.2.bytes)) = some ["true\n".toUTF8] := by
  cbv

end Lexical
end Lox
