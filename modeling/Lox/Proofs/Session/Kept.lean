import Lox.Proofs.Run.Growth
import Lox.Session

/-!
# What a text leaves in place

Between two texts nothing runs (`Session.Idle`): the machine is sound and the frame of the globals
is current. A text keeps that, and every global that there was; the new ones are among the names
that the statements of its program bind (`Session.Idle.run`).
-/

set_option autoImplicit false

namespace Lox

/-! ## Global names -/

theorem Bindings.mem_names {α : Type} {b : Bindings α} {x : String} :
    x ∈ b.names ↔ (b.get? x).isSome := by
  obtain ⟨entries⟩ := b
  show x ∈ entries.map (·.1) ↔ (entries.lookup x).isSome
  induction entries with
  | nil => simp
  | cons e rest ih =>
    obtain ⟨n, v⟩ := e
    by_cases hx : x = n
    · simp [hx]
    · rw [Bindings.lookup_cons_ne v rest hx, List.map_cons, List.mem_cons, ih]
      exact or_iff_right hx

theorem Machine.mem_globalNames {m : Machine} {x : String} :
    x ∈ m.globalNames ↔ (m.frames.here? globalFrame x).isSome := by
  rw [globalNames, Frames.names_eq, Frames.here?_eq]
  cases m.frames.bindings? globalFrame with
  | none => simp
  | some b => exact Bindings.mem_names

/-! ## Programs -/

theorem interpret_ends (fuel : Nat) (program : List Stmt) {m : Machine} (h : m.Sound) :
    Ends (Stmt.bindsAll program) m (fun _ _ => True) (interpret fuel program m) := by
  unfold interpret
  refine (executeAll_ends fuel program h).bind fun {flow _} _ hs _ => ?_
  cases flow with
  | next => exact .pure hs trivial
  | returned value keyword => exact .fault hs ..

namespace Session

variable {s s' : Session} {fuel : Nat} {source : String} {program : List Stmt} {outcome : Outcome}

/-- Nothing runs: the frame of the globals is current. -/
structure Idle (s : Session) : Prop where
  sound : s.machine.Sound
  current : s.machine.current = Machine.globalFrame

theorem Idle.start (output : Output) (clock : Clock) : (Session.start output clock).Idle :=
  ⟨.start output clock, rfl⟩

/-- The session goes on with the machine that a program leaves. -/
theorem left?_of_interpret (hr : s.interpret fuel program = some (outcome, s')) :
    (Lox.interpret fuel program s.machine).left? = some s'.machine := by
  unfold Session.interpret at hr
  split at hr
  · rename_i hrun
    cases hr
    exact congrArg Result.left? hrun
  · rename_i hrun
    cases hr
    exact congrArg Result.left? hrun
  · cases hr

theorem Idle.interpret (h : s.Idle) (hr : s.interpret fuel program = some (outcome, s')) :
    s.machine.Keeps (Stmt.bindsAll program) s'.machine ∧ s'.Idle := by
  have hends := interpret_ends fuel program h.sound
  obtain ⟨hk, hs⟩ := hends.of_left? (left?_of_interpret hr)
  exact ⟨hk, hs, hk.current.trans h.current⟩

/-- An accepted text keeps the globals, and new ones are among the names that it binds. -/
theorem Idle.run (h : s.Idle) (hc : s.compile source = .ok program)
    (hr : s.run fuel source = some (outcome, s')) :
    s.machine.Keeps (Stmt.bindsAll program) s'.machine ∧ s'.Idle := by
  rw [Session.run_of_compile hc] at hr
  exact h.interpret hr

/-- What a program leaves of the global names. -/
theorem globalNames_of_keeps {names : List String} {m m' : Machine} (h : m.Keeps names m')
    (hs : m.Sound) (x : String) :
    (x ∈ m.globalNames → x ∈ m'.globalNames) ∧
      (x ∈ m'.globalNames → x ∈ m.globalNames ∨ x ∈ names) := by
  simp only [Machine.mem_globalNames]
  refine ⟨h.still, fun hx => ?_⟩
  exact (h.new (Nat.zero_lt_of_lt hs.current) hx).imp_right And.right

end Session
end Lox
