import Lox.Proofs.Run.Declared
import Lox.Proofs.Scope.Globals
import Lox.Proofs.Session.Pieces
import Mathlib

/-!
# The global names that the checker knows

Between two texts the global frame binds exactly the names that the checker takes for granted in the
next one. A text that ends well adds the names of its top-level declarations, which are those that
the checker added; one that fails adds the names of the declarations before the failing statement;
and nothing else in a run touches the names of the global frame (`run_globalNames`).
-/

set_option autoImplicit false

namespace Lox

open Lexical

/-! ## Tasks at the top -/

/-- The names that a task declares in the scope in which it runs. -/
def Task.declaredNames : Task → List String
  | .stmt s => Stmt.declaredNames [s]
  | .stmts ss => Stmt.declaredNames ss
  | _ => []

/-- A statement of the program itself, or the last of its statements. -/
def Task.OfProgram (program : List Stmt) : Task → Prop
  | .stmt s => s ∈ program
  | .stmts ss => ss <:+ program
  | _ => False

section

variable {m m' : Machine} {t t' : Task} {program : List Stmt}

/-- What a ready task may bind is what it declares. -/
theorem Lexical.Ready.binds_eq (h : Ready m t) : t.binds = t.declaredNames := by
  cases h with
  | stmt _ hs => exact hs.binds_eq
  | loop _ _ hb hd => exact hb.binds_eq.trans (Stmt.declaredNames_singleton_of_none hd)
  | stmts _ hs => exact hs.bindsAll_eq
  | _ => rfl

/-- A task starts another one in the same frame or in a new one. -/
theorem Starts.current (h : Starts m t m' t') (hm : m.Sound) (ht : t.Held m) :
    m'.current = m.current ∨ m.frames.next ≤ m'.current := by
  cases h with
  | binaryRight hl | logicalRight hl | arguments hl | setValue hl | exprsTail hl | thenBranch hl
  | elseBranch hl | loopBody hl => exact .inl ((evaluate_ends _ _ hm).of_ok hl).1.current
  | call hc ha =>
    obtain ⟨hk, hm, -⟩ := (evaluate_ends _ _ hm).of_ok hc
    obtain ⟨hk', -⟩ := (evaluateAll_ends _ _ hm).of_ok ha
    exact .inl (hk'.current.trans hk.current)
  | function hc => exact .inl ((hm.checkCall ht.1 _ _).of_ok hc).1.current
  | construct hc hthis hinit hbind =>
    obtain ⟨hk₁, hm, hf⟩ := (hm.checkCall ht.1 _ _).of_ok hc
    obtain ⟨hk₂, hm, hthis⟩ := (hm.makeInstance hf).of_ok hthis
    obtain ⟨hk₃, hm, hinit⟩ := (hm.initializerOf _).of_ok hinit
    obtain ⟨hk₄, -⟩ := (hm.bindMethod (hinit _ rfl) (hthis.mono hk₃.toHolds)).of_ok hbind
    exact .inl ((((hk₁.trans hk₂).trans hk₃).trans hk₄).current)
  | body hf | block hf =>
    cases hf
    exact .inr (Nat.le_refl _)
  | loopAgain hc _ hb =>
    obtain ⟨hk, hm, -⟩ := (evaluate_ends _ _ hm).of_ok hc
    exact .inl (((execute_ends _ _ hm).of_ok hb).1.current.trans hk.current)
  | stmtsTail hs => exact .inl ((execute_ends _ _ hm).of_ok hs).1.current
  | _ => exact .inl rfl

/-- In the same frame a task starts a part of the program when it is one, and otherwise a task that
declares nothing. -/
theorem Starts.ofProgram (h : Starts m t m' t') (hready : Ready m t)
    (ht : t.OfProgram program ∨ t.declaredNames = []) :
    (t'.OfProgram program ∨ t'.declaredNames = []) ∨ m'.current = m.frames.next := by
  cases h with
  | body hf | block hf =>
    cases hf
    exact .inr rfl
  | @thenBranch _ _ _ elseBranch =>
    cases hready with | stmt _ hs
    cases elseBranch with
    | none =>
      simp only [Stmt.Scoped] at hs
      exact .inl (.inr (Stmt.declaredNames_singleton_of_none hs.2.2))
    | some elseBranch =>
      simp only [Stmt.Scoped] at hs
      exact .inl (.inr (Stmt.declaredNames_singleton_of_none hs.2.1.2))
  | elseBranch =>
    cases hready with | stmt _ hs
    simp only [Stmt.Scoped] at hs
    exact .inl (.inr (Stmt.declaredNames_singleton_of_none hs.2.2.2))
  | loopBody =>
    cases hready with | loop _ _ _ hd
    exact .inl (.inr (Stmt.declaredNames_singleton_of_none hd))
  | @stmtsHead s ss =>
    refine .inl (ht.imp (fun hsuffix => ?_) fun hnone => ?_)
    · exact hsuffix.subset (List.mem_cons_self ..)
    · exact (List.append_eq_nil_iff.1 ((Stmt.declaredNames_cons s ss).symm.trans hnone)).1
  | @stmtsTail _ s ss =>
    refine .inl (ht.imp (fun hsuffix => ?_) fun hnone => ?_)
    · exact (List.suffix_cons s ss).trans hsuffix
    · exact (List.append_eq_nil_iff.1 ((Stmt.declaredNames_cons s ss).symm.trans hnone)).2
  | _ => exact .inl (.inr rfl)

/-- What a program visits in the global frame is a part of the program or declares nothing. -/
theorem Visits.ofProgram (hm : m.Sound) (hready : Ready m (.stmts program))
    (hv : Visits m (.stmts program) m' t) :
    (m'.Sound ∧ t.Held m') ∧ (m'.current = Machine.globalFrame →
      t.OfProgram program ∨ t.declaredNames = []) := by
  induction hv with
  | refl => exact ⟨⟨hm, trivial⟩, fun _ => .inl (List.suffix_refl _)⟩
  | @tail m₁ m₂ t₁ t₂ hvisits hs ih =>
    obtain ⟨⟨hm₁, ht₁⟩, htop⟩ := ih
    refine ⟨hs.sound hm₁ ht₁, fun hglobal => ?_⟩
    -- a new frame is not the global one
    have hnext : m₁.frames.next ≠ Machine.globalFrame :=
      Nat.ne_of_gt (Nat.zero_lt_of_lt hm₁.current)
    rcases hs.current hm₁ ht₁ with hcurrent | hnew
    · have hstarted :=
        hs.ofProgram (hready.visits hvisits) (htop (hcurrent.symm.trans hglobal))
      exact hstarted.resolve_right fun h => hnext (h.symm.trans hglobal)
    · rw [hglobal] at hnew
      exact absurd (Nat.le_zero.1 hnew) hnext

/-- A task of a program changes the global names only where it is the program itself that declares
them. -/
theorem Visits.globalNames {start : Machine} (hm : start.Sound)
    (hready : Ready start (.stmts program)) (hv : Visits start (.stmts program) m t) {fuel : Nat}
    (hrun : t.left? fuel m = some m') (x : String) :
    (x ∈ m.globalNames → x ∈ m'.globalNames) ∧
      (x ∈ m'.globalNames → x ∈ m.globalNames ∨
        m.current = Machine.globalFrame ∧ t.OfProgram program ∧ x ∈ t.declaredNames) := by
  obtain ⟨⟨hsound, hheld⟩, htop⟩ := hv.ofProgram hm hready
  obtain ⟨hkeeps, -⟩ := hsound.run hheld hrun
  rw [(hready.visits hv).binds_eq] at hkeeps
  simp only [Machine.mem_globalNames]
  refine ⟨hkeeps.still, fun hx => ?_⟩
  refine (hkeeps.new (Nat.zero_lt_of_lt hsound.current) hx).imp_right fun ⟨hglobal, hnames⟩ => ?_
  refine ⟨hglobal.symm, ?_, hnames⟩
  rcases htop hglobal.symm with hof | hnone
  · exact hof
  · exact absurd (hnone ▸ hnames) List.not_mem_nil

end

/-! ## Programs -/

/-- Filling slots changes no declaration. -/
theorem Stmt.map_declared_resolveAll (c : Context) : ∀ (xs : List Stmt) (s : Scopes),
    (Stmt.resolveAll c s xs).value.1.map Stmt.declared = xs.map Stmt.declared
  | [], _ => rfl
  | x :: xs, s =>
    congrArg₂ List.cons (Stmt.resolve_declared c s x) (Stmt.map_declared_resolveAll c xs _)

theorem Stmt.declaredNames_congr {xs ys : List Stmt}
    (h : xs.map Stmt.declared = ys.map Stmt.declared) :
    Stmt.declaredNames xs = Stmt.declaredNames ys := by
  have hnames : ∀ zs : List Stmt, Stmt.declaredNames zs =
      (zs.map Stmt.declared).filterMap fun name => name.map (·.lexeme) := by
    intro zs
    rw [List.filterMap_map]
    rfl
  rw [hnames, hnames, h]

/-- After an accepted program the checker knows the names that it declares. -/
theorem mem_resolve_globals {globals : List String} {parsed : List Stmt}
    (hshaped : Stmt.AllShaped parsed) (herrors : (resolve globals parsed).errors = [])
    (x : String) : x ∈ (resolve globals parsed).value.2.globals ↔
      x ∈ globals ∨ x ∈ Stmt.declaredNames parsed := by
  have hadds : Scopes.Adds _ (.top globals) (resolve globals parsed).value.2 :=
    Stmt.resolveAll_adds parsed .top rfl
  have hbinds := (resolve_scoped hshaped herrors).bindsAll_eq
  rw [resolve, Stmt.bindsAll_resolveAll,
    Stmt.declaredNames_congr (Stmt.map_declared_resolveAll ..)] at hbinds
  rw [hadds.globals, hbinds]
  rfl

/-- The program stops at an error in its statement with this index, counted from 0, after those
before it have ended well. -/
def FailsAt (program : List Stmt) (m : Machine) (k : Nat) (e : RuntimeError) (m' : Machine) :
    Prop :=
  ∃ s m₁ fuel fuel', executeAll fuel (program.take k) m = .ok .next m₁ ∧ program[k]? = some s ∧
    execute fuel' s m₁ = .error e m'

section

variable {s s' : Session} {source : String} {program : List Stmt}

/-- After a success the global frame binds what the program declares. -/
theorem Session.Idle.globalNames_success (h : s.Idle) (hscoped : Stmt.AllScoped false [] program)
    {fuel : Nat} (hr : s.interpret fuel program = some (.success, s')) (x : String) :
    x ∈ s'.machine.globalNames ↔
      x ∈ s.machine.globalNames ∨ x ∈ Stmt.declaredNames program := by
  simp only [Session.interpret, interpret_eq] at hr
  cases hrun : executeAll fuel program s.machine with
  | ok flow m =>
    rw [hrun] at hr
    cases flow with
    | next =>
      cases hr
      obtain ⟨hadds, -⟩ := executeAll_adds hscoped h.sound hrun
      simp only [Machine.mem_globalNames, ← h.current]
      exact hadds.here?_iff h.sound x
    | returned value keyword => cases hr
  | error e m =>
    rw [hrun] at hr
    cases hr
  | outOfFuel =>
    rw [hrun] at hr
    cases hr

/-- An error other than that of a `return` at the end is raised in one of the statements. -/
theorem Session.exists_failsAt {fuel : Nat} {e : RuntimeError}
    (hr : s.interpret fuel program = some (.failed e, s')) (hblame : e.cause.blamesTree = false) :
    ∃ k, FailsAt program s.machine k e s'.machine := by
  simp only [Session.interpret, interpret_eq] at hr
  cases hrun : executeAll fuel program s.machine with
  | ok flow m =>
    rw [hrun] at hr
    cases flow with
    | next => cases hr
    | returned value keyword =>
      cases hr
      cases hblame
  | error e m =>
    rw [hrun] at hr
    cases hr
    obtain ⟨before, y, after, m₁, fuel', rfl, hbefore, hfails⟩ := executeAll_failed hrun
    refine ⟨before.length, y, m₁, fuel, fuel', ?_, ?_, hfails⟩
    · rw [List.take_left' rfl]
      exact hbefore
    · simp
  | outOfFuel =>
    rw [hrun] at hr
    cases hr

/-- After an error in a statement the global frame binds what those before it declare. -/
theorem Session.Idle.globalNames_failed (h : s.Idle) (hscoped : Stmt.AllScoped false [] program)
    {k : Nat} {e : RuntimeError} {m : Machine} (hf : FailsAt program s.machine k e m)
    (x : String) : x ∈ m.globalNames ↔
      x ∈ s.machine.globalNames ∨ x ∈ Stmt.declaredNames (program.take k) := by
  obtain ⟨y, m₁, fuel, fuel', hbefore, hy, hfails⟩ := hf
  obtain ⟨hlt, hy⟩ := List.getElem?_eq_some_iff.1 hy
  have hparts : program = program.take k ++ y :: program.drop (k + 1) := by
    rw [← hy, List.getElem_cons_drop, List.take_append_drop]
  rw [hparts] at hscoped
  obtain ⟨hscoped, hscopedAt⟩ := hscoped.of_append
  obtain ⟨hadds, hsound⟩ := executeAll_adds hscoped h.sound hbefore
  have hadding := execute_adding fuel' hscopedAt hsound
  rw [hfails] at hadding
  cases hadding with | error hkeeps _
  simp only [Machine.mem_globalNames, ← h.current]
  exact (hadds.after hkeeps).here?_iff h.sound x

/-- **The global frame binds what the checker knows.** After a text that ran to its end, the global
names are those from before and those of its top-level declarations, which is what the checker that
accepted it ended with; after a text that stopped in a statement, they are those from before and
those that the statements before that one declare. Of all that a run visits, only the program's own
statements add a global name, and nothing removes one. -/
theorem run_globalNames (hs : s.Reachable) (hc : s.compile source = .ok program) :
    ∃ parsed, readSource Grammar.parse source = .ok parsed ∧
      (resolve s.machine.globalNames parsed).value.1 = program ∧
      (∀ fuel s', s.run fuel source = some (.success, s') → ∀ x,
        (x ∈ s'.machine.globalNames ↔
          x ∈ s.machine.globalNames ∨ x ∈ Stmt.declaredNames parsed) ∧
        (x ∈ s'.machine.globalNames ↔
          x ∈ (resolve s.machine.globalNames parsed).value.2.globals)) ∧
      (∀ fuel e s', s.run fuel source = some (.failed e, s') →
        (∃ k, FailsAt program s.machine k e s'.machine) ∧
        ∀ k, FailsAt program s.machine k e s'.machine → ∀ x, x ∈ s'.machine.globalNames ↔
          x ∈ s.machine.globalNames ∨ x ∈ Stmt.declaredNames (parsed.take k)) ∧
      ∀ m t fuel m', Visits s.machine (.stmts program) m t → t.left? fuel m = some m' → ∀ x,
        (x ∈ m.globalNames → x ∈ m'.globalNames) ∧
        (x ∈ m'.globalNames → x ∈ m.globalNames ∨
          m.current = Machine.globalFrame ∧ t.OfProgram program ∧ x ∈ t.declaredNames) := by
  obtain ⟨parsed, hread, herrors, hprogram⟩ := compile_ok_iff.1 hc
  have hdeclared : program.map Stmt.declared = parsed.map Stmt.declared :=
    hprogram ▸ Stmt.map_declared_resolveAll ..
  refine ⟨parsed, hread, hprogram, fun fuel s' hr x => ?_, fun fuel e s' hr => ⟨?_, ?_⟩, ?_⟩
  · rw [Session.run_of_compile hc] at hr
    have hnames := hs.idle.globalNames_success (compile_scoped hc) hr x
    rw [Stmt.declaredNames_congr hdeclared] at hnames
    rw [mem_resolve_globals (readSource_shaped hread) herrors, ← hnames]
    exact ⟨Iff.rfl, Iff.rfl⟩
  · have hblame := (hs.failed hc hr).1
    rw [Session.run_of_compile hc] at hr
    exact Session.exists_failsAt hr hblame
  · intro k hfails x
    have hnames := hs.idle.globalNames_failed (compile_scoped hc) hfails x
    have htake : (program.take k).map Stmt.declared = (parsed.take k).map Stmt.declared := by
      rw [List.map_take, hdeclared, List.map_take]
    rwa [Stmt.declaredNames_congr htake] at hnames
  · intro m t fuel m' hv hleft x
    exact hv.globalNames hs.idle.sound (hs.ready hc) hleft x

/-- A text that stops after a function, a class and a call have run: neither the local variable of
the call nor the variable that comes too late is a global name. -/
theorem run_globalNames_failed : ∃ (program parsed : List Stmt) (s' : Session) (k : Nat),
    (Session.start .unlimited (.stopped 0)).compile
        "var a; fun f() \x7b var b; \x7d class C \x7b\x7d f(); nil.x; var d;" = .ok program ∧
    (resolve ["clock"] parsed).value.1 = program ∧
    FailsAt program (Session.start .unlimited (.stopped 0)).machine k ⟨1, .notAnInstance⟩
      s'.machine ∧
    s'.machine.globalNames = ["clock", "a", "f", "C"] ∧
    ∀ x, x ∈ ["clock", "a", "f", "C"] ↔
      x ∈ ["clock"] ∨ x ∈ Stmt.declaredNames (parsed.take k) := by
  have hok : ((Session.start .unlimited (.stopped 0)).compile
      "var a; fun f() \x7b var b; \x7d class C \x7b\x7d f(); nil.x; var d;").isOk = true := by
    cbv
  have hrun : ((Session.start .unlimited (.stopped 0)).run 20
      "var a; fun f() \x7b var b; \x7d class C \x7b\x7d f(); nil.x; var d;").map
        (fun r => (r.1, r.2.machine.globalNames))
      = some (.failed ⟨1, .notAnInstance⟩, ["clock", "a", "f", "C"]) := by
    cbv
  obtain ⟨program, hc⟩ : ∃ program, (Session.start .unlimited (.stopped 0)).compile
      "var a; fun f() \x7b var b; \x7d class C \x7b\x7d f(); nil.x; var d;" = .ok program := by
    revert hok
    cases (Session.start .unlimited (.stopped 0)).compile _ with
    | ok program => exact fun _ => ⟨program, rfl⟩
    | error errors => exact fun h => (Bool.false_ne_true h).elim
  obtain ⟨⟨outcome, s'⟩, hr, hends⟩ := Option.map_eq_some_iff.1 hrun
  obtain ⟨rfl, hnames⟩ := Prod.mk.inj hends
  obtain ⟨parsed, -, hprogram, -, hfailed, -⟩ := run_globalNames (.start .unlimited (.stopped 0)) hc
  obtain ⟨⟨k, hk⟩, hglobals⟩ := hfailed _ _ _ hr
  refine ⟨program, parsed, s', k, hc, hprogram, hk, hnames, ?_⟩
  rw [← hnames]
  exact hglobals k hk

end
end Lox
