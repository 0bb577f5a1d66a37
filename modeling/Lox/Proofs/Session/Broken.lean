import Lox.Proofs.Session.Cut
import Lox.Proofs.Session.Pieces

/-!
# Broken outputs

A program that runs in a new session does the same whatever its output takes, up to the first write
that is refused (`run_broken`). That write ends the run, with an error at the line of its `print`.
The comparison is with any output that never fails, and it also holds of programs that never end: it
is about all that is started within the fuel.
-/

set_option autoImplicit false

namespace Lox

/-- All that a program starts in a session. -/
def Session.trail (s : Session) (fuel : Nat) (program : List Stmt) : Trace :=
  (Task.stmts program).trail fuel s.machine

variable {output wide : Output} {clock : Clock}

/-- What is printed is the beginning of what is printed when no write fails. -/
theorem exists_rest (hwide : wide.NeverFails) {source : String} {bytes : ByteArray}
    {fuel fuel' : Nat} {outcome outcome' : Outcome} {s s₁ : Session}
    (hr : (Session.start output clock).run fuel source = some (outcome, s))
    (hbytes : s.machine.output = output.printed bytes)
    (hr₁ : (Session.start wide clock).run fuel' source = some (outcome', s₁)) :
    ∃ rest, s₁.machine.output = wide.printed (bytes ++ rest) := by
  have hcut := Session.run_cut (s := .start wide clock) (o := output) (.inr hwide)
    (max fuel fuel') source
  rw [Session.run_of_le hr₁ (Nat.le_max_right ..)] at hcut
  change Session.Cut _ _ _ ((Session.start output clock).run _ source) at hcut
  rw [Session.run_of_le hr (Nat.le_max_left ..)] at hcut
  cases hcut with
  | same _ _ hs ho =>
    obtain rfl := Output.printed_inj (hbytes.symm.trans ho.printed)
    exact ⟨.empty, by rw [ByteArray.append_empty]; exact hs.printed⟩
  | refused _ _ ho hr =>
    obtain rfl := Output.printed_inj (hbytes.symm.trans ho.printed)
    obtain ⟨rest, hrest⟩ := hr _ _ rfl
    exact ⟨rest, hrest.printed⟩

/-- **A broken output only cuts a run short.** With an output that never fails, and the same
readings of the clock, the run has the same outcome and prints the same, or both do not end within
the fuel; everything is started on the same machines then, but for what they have as their outputs.
Otherwise a write is refused: the two runs are in step up to the `print` of that write, and with it
the run ends. The bytes that have been taken are the beginning of those that the output that never
fails takes. -/
theorem run_broken (output : Output) (hwide : wide.NeverFails) (clock : Clock) {source : String}
    {program : List Stmt} (hprogram : (Session.start output clock).compile source = .ok program)
    (fuel : Nat) :
    (∃ outcome s s₁ bytes, (Session.start output clock).run fuel source = some (outcome, s) ∧
      (Session.start wide clock).run fuel source = some (outcome, s₁) ∧
      s.machine.output = output.printed bytes ∧ s₁.machine.output = wide.printed bytes ∧
      Lockstep output wide ((Session.start output clock).trail fuel program)
        ((Session.start wide clock).trail fuel program)) ∨
    ((Session.start output clock).run fuel source = none ∧
      (Session.start wide clock).run fuel source = none ∧
      Lockstep output wide ((Session.start output clock).trail fuel program)
        ((Session.start wide clock).trail fuel program)) ∨
    ∃ e keyword s bytes, (Session.start output clock).run fuel source = some (.failed e, s) ∧
      e.line = keyword.line ∧ e.cause.message = "Failed to write output: " ++ output.reason ∧
      s.machine.output = output.printed bytes ∧ s.machine.output.IsClosed ∧
      Leads output wide ((Session.start output clock).trail fuel program)
        ((Session.start wide clock).trail fuel program) ∧
      Refusal output wide ((Session.start output clock).trail fuel program)
        ((Session.start wide clock).trail fuel program) keyword bytes s.machine ∧
      ∀ fuel' outcome s₁, (Session.start wide clock).run fuel' source = some (outcome, s₁) →
        ∃ rest, s₁.machine.output = wide.printed (bytes ++ rest) := by
  have hrun := Session.run_of_compile hprogram fuel
  -- what is compiled does not depend on the output
  have hcompile : (Session.start wide clock).compile source = .ok program := hprogram
  have hwhole := Session.run_of_compile hcompile fuel
  have hcut := interpret_cuts fuel program (Session.start wide clock).machine output (.inr hwide)
  change Result.Cut _ _ _ ((Session.start wide clock).trail fuel program)
    (interpret fuel program (Session.start output clock).machine)
    ((Session.start output clock).trail fuel program) at hcut
  unfold Session.interpret at hrun hwhole
  generalize interpret fuel program (Session.start wide clock).machine = r at hcut hwhole
  generalize interpret fuel program (Session.start output clock).machine = r' at hcut hrun
  cases hcut with
  | ok a _ hs ho hts =>
    exact .inl ⟨.success, _, _, _, hrun, hwhole, ho.printed, hs.printed, hts⟩
  | error e _ hs ho hts =>
    exact .inl ⟨.failed e, _, _, _, hrun, hwhole, ho.printed, hs.printed, hts⟩
  | @refused _ keyword e m' bytes _ _ he hclosed ho _ hts hlast =>
    subst he
    refine .inr (.inr ⟨_, keyword, ⟨m'⟩, bytes, hrun, rfl, rfl, ho.printed, hclosed, hts, hlast,
      ?_⟩)
    exact fun fuel' outcome s₁ hs₁ => exists_rest hwide hrun ho.printed hs₁
  | outOfFuel hts => exact .inr (.inl ⟨hrun, hwhole, hts⟩)

/-- A write of which a part is taken, in a call in a loop that would never end. -/
theorem run_broken_endless : Output.unlimited.NeverFails ∧ ∃ program e keyword s,
    (Session.start (.sized 18 "full") (.stopped 0)).compile
      "fun hello() \x7b\nprint hello; \x7d while (true) hello();" = .ok program ∧
    (Session.start (.sized 18 "full") (.stopped 0)).run 20
      "fun hello() \x7b\nprint hello; \x7d while (true) hello();" = some (.failed e, s) ∧
    e.line = keyword.line ∧ e.cause.message = "Failed to write output: full" ∧
    s.machine.output.bytes = "<fn hello>\n<fn hel".toUTF8 ∧
    Refusal (.sized 18 "full") .unlimited
      ((Session.start (.sized 18 "full") (.stopped 0)).trail 20 program)
      ((Session.start .unlimited (.stopped 0)).trail 20 program)
      keyword "<fn hello>\n<fn hel".toUTF8 s.machine := by
  have hends : ((Session.start (.sized 18 "full") (.stopped 0)).run 20
      "fun hello() \x7b\nprint hello; \x7d while (true) hello();").map (·.2.machine.output.bytes)
        = some "<fn hello>\n<fn hel".toUTF8 := by
    cbv
  have hwhole : ((Session.start .unlimited (.stopped 0)).run 20
      "fun hello() \x7b\nprint hello; \x7d while (true) hello();").isNone = true := by
    cbv
  obtain ⟨program, hprogram⟩ : ∃ program,
      (Session.start (.sized 18 "full") (.stopped 0)).compile
        "fun hello() \x7b\nprint hello; \x7d while (true) hello();" = .ok program := ⟨_, by cbv⟩
  refine ⟨Output.unlimited_neverFails, ?_⟩
  rcases run_broken (.sized 18 "full") Output.unlimited_neverFails (.stopped 0) hprogram 20 with
    ⟨_, _, _, _, -, hrun₁, -⟩ | ⟨hrun, -⟩ |
    ⟨e, keyword, s, bytes, hrun, hline, hcause, hbytes, -, -, hlast, -⟩
  · rw [hrun₁] at hwhole
    cases hwhole
  · rw [hrun] at hends
    cases hends
  · rw [hrun] at hends
    have houtput : s.machine.output.bytes = "<fn hello>\n<fn hel".toUTF8 := Option.some.inj hends
    have hsame : bytes = "<fn hello>\n<fn hel".toUTF8 := by
      rw [← houtput, hbytes]
      exact ByteArray.empty_append.symm
    exact ⟨program, e, keyword, s, hprogram, hrun, hline, hcause, houtput, hsame ▸ hlast⟩

end Lox
