import Lox.Proofs.Run.OwnReads
import Lox.Proofs.Session.Pieces
import Mathlib

/-!
# A variable's name in its own initializer is defined

Where the checker lets the initializer of a local variable read the global variable of the same
name, that variable is bound whenever the read runs (`own_read_global`). The checker knows the name
when it comes to the read; the read itself may run much later, in a function that a later text
calls. What makes this right is that the function cannot be a value before the global variable is
bound: `Task.Covered` says it of everything that a run visits.
-/

set_option autoImplicit false

namespace Lox

/-! ## Tasks -/

/-- The own reads in what a task runs are of bound global names. -/
def Task.Covered (m : Machine) : Task → Prop
  | .expr pending e => ∀ y ∈ e.globalReads, pending = some y → y ∈ m.globalNames
  | .exprs pending es => ∀ e ∈ es, ∀ y ∈ e.globalReads, pending = some y → y ∈ m.globalNames
  | .call _ _ _ => True
  | .invoke f _ => f.decl.ownReads ⊆ m.globalNames
  | .stmt s => s.CoveredAt m
  | .loop _ body => body.ownReads ⊆ m.globalNames
  | .stmts ss => Stmt.AllCoveredAt m ss

section

variable {m m' : Machine} {t t' : Task}

/-- A part of an expression, after other parts of it. -/
theorem Task.Covered.part {p : Option String} {e e' : Expr} (h : (Task.expr p e).Covered m)
    (ho : m.Onward m') (hsub : e'.globalReads ⊆ e.globalReads) : (Task.expr p e').Covered m' :=
  fun y hy hp => ho.names (h y (hsub hy) hp)

/-- Outside of initializers nothing is read as its own name. -/
theorem Task.covered_none (e : Expr) : (Task.expr none e).Covered m :=
  fun _ _ hp => nomatch hp

/-- What a covered task starts is covered. -/
theorem Starts.covered (h : Starts m t m' t') (hm : m.Covers) (ht : t.Covered m) :
    m'.Covers ∧ t'.Covered m' := by
  cases h with
  | grouping | unary | assigned | getObject => exact ⟨hm, ht.part (.refl m) (List.Subset.refl _)⟩
  | binaryLeft | logicalLeft | setObject | callee =>
    exact ⟨hm, ht.part (.refl m) (by simp [Expr.globalReads, Expr.references])⟩
  | binaryRight hl | logicalRight hl | setValue hl =>
    obtain ⟨ho, hm, -⟩ := (evaluate_covering _ _ hm).of_ok hl
    exact ⟨hm, ht.part ho (by simp [Expr.globalReads, Expr.references])⟩
  | @arguments _ _ callee paren arguments _ _ hc =>
    obtain ⟨ho, hm, -⟩ := (evaluate_covering _ _ hm).of_ok hc
    refine ⟨hm, fun e he => Task.Covered.part (e := .call callee paren arguments) ht ho ?_⟩
    have hreads : (Expr.call callee paren arguments).globalReads = callee.globalReads ++
        (Expr.referencesAll arguments).filterMap Reference.globalRead? :=
      List.filterMap_append
    rw [hreads]
    exact List.subset_append_of_subset_right _ (Expr.globalReads_subset he)
  | call hc ha =>
    obtain ⟨-, hm, -⟩ := (evaluate_covering _ _ hm).of_ok hc
    obtain ⟨-, hm, -⟩ := (evaluateAll_covering _ _ hm).of_ok ha
    exact ⟨hm, trivial⟩
  | exprsHead => exact ⟨hm, ht _ (List.mem_cons_self ..)⟩
  | exprsTail he =>
    obtain ⟨ho, hm, -⟩ := (evaluate_covering _ _ hm).of_ok he
    exact ⟨hm, fun e he y hy hp => ho.names (ht e (List.mem_cons_of_mem _ he) y hy hp)⟩
  | function hc =>
    obtain ⟨-, hm, hf⟩ := (hm.checkCall _ _ _).of_ok hc
    exact ⟨hm, hf _ rfl⟩
  | construct hc hthis hinit hbind =>
    obtain ⟨-, hm, -⟩ := (hm.checkCall _ _ _).of_ok hc
    obtain ⟨-, hm, -⟩ := (hm.makeInstance _).of_ok hthis
    obtain ⟨-, hm, hf⟩ := (hm.initializerOf _).of_ok hinit
    obtain ⟨-, hm, hbound⟩ := (hm.bindMethod (hf _ rfl) _).of_ok hbind
    exact ⟨hm, hbound⟩
  | @body _ f _ _ hf =>
    obtain ⟨ho, hm, -⟩ := (hm.newFrame _ _).of_ok hf
    exact ⟨hm.enter _, .inl (List.Subset.trans (f.decl.ownReads_eq ▸ ht) ho.names)⟩
  | expression | printed | condition | returned | superclass | loopCondition =>
    exact ⟨hm, Task.covered_none _⟩
  | @initializer name value =>
    refine ⟨hm, fun y hy hp => ?_⟩
    unfold Machine.pending at hp
    split at hp
    · cases hp
    · rename_i hlocal
      cases hp
      have hown : name.lexeme ∈ (Stmt.var name (some value)).ownReads := by
        simp [Stmt.ownReads, hy]
      exact (ht _ hown).resolve_right fun htop => hlocal htop.1
  | block hf =>
    obtain ⟨ho, hm, -⟩ := (hm.newFrame _ _).of_ok hf
    exact ⟨hm.enter _, .inl (List.Subset.trans (Stmt.CoveredAt.of_none ht rfl) ho.names)⟩
  | @thenBranch _ _ _ elseBranch _ _ hc =>
    obtain ⟨ho, hm, -⟩ := (evaluate_covering _ _ hm).of_ok hc
    refine ⟨hm, Stmt.coveredAt_of_subset (List.Subset.trans ?_ ho.names)⟩
    have hreads := Stmt.CoveredAt.of_none ht rfl
    cases elseBranch with
    | none => exact hreads
    | some elseBranch => exact (List.append_subset.1 hreads).1
  | elseBranch hc =>
    obtain ⟨ho, hm, -⟩ := (evaluate_covering _ _ hm).of_ok hc
    have hreads := Stmt.CoveredAt.of_none ht rfl
    exact ⟨hm, Stmt.coveredAt_of_subset
      (List.Subset.trans (List.append_subset.1 hreads).2 ho.names)⟩
  | loop => exact ⟨hm, Stmt.CoveredAt.of_none (s := .loop _ _) ht rfl⟩
  | loopBody hc =>
    obtain ⟨ho, hm, -⟩ := (evaluate_covering _ _ hm).of_ok hc
    exact ⟨hm, Stmt.coveredAt_of_subset (List.Subset.trans ht ho.names)⟩
  | loopAgain hc _ hb =>
    obtain ⟨ho, hm, -⟩ := (evaluate_covering _ _ hm).of_ok hc
    have hbody := Stmt.coveredAt_of_subset (List.Subset.trans ht ho.names)
    obtain ⟨ho', hm, -⟩ := (execute_covering _ _ hm hbody).of_ok hb
    exact ⟨hm, List.Subset.trans (List.Subset.trans ht ho.names) ho'.names⟩
  | stmtsHead => exact ⟨hm, Stmt.AllCoveredAt.head ht⟩
  | stmtsTail hs =>
    obtain ⟨ho, hm, hflow⟩ := (execute_covering _ _ hm (Stmt.AllCoveredAt.head ht)).of_ok hs
    exact ⟨hm, Stmt.AllCoveredAt.tail ht ho (hflow rfl)⟩

theorem Visits.covered (h : Visits m t m' t') (hm : m.Covers) (ht : t.Covered m) :
    m'.Covers ∧ t'.Covered m' := by
  induction h with
  | refl => exact ⟨hm, ht⟩
  | tail _ hs ih => exact hs.covered ih.1 ih.2

end

/-! ## Sessions -/

section

variable {s : Session} {source : String} {program : List Stmt}

theorem Machine.Covers.start (output : Output) (clock : Clock) :
    (Machine.start output clock).Covers where
  globalFrame := Nat.zero_lt_one
  functions := nofun
  methods := nofun

/-- An accepted program is covered where it starts to run. -/
theorem Session.Idle.covered (h : s.Idle) (hc : s.compile source = .ok program) :
    Stmt.AllCoveredAt s.machine program := by
  obtain ⟨parsed, hread, herrors, rfl⟩ := compile_ok_iff.1 hc
  exact .inr ⟨h.current, resolve_covered (readSource_shaped hread) herrors⟩

/-- Between two texts all functions are covered, whatever has become of the texts before. -/
theorem Session.Reachable.covers (h : s.Reachable) : s.machine.Covers := by
  induction h with
  | start output clock => exact .start output clock
  | @run s s' fuel source outcome hs hr ih =>
    cases hcompile : s.compile source with
    | ok program =>
      rw [Session.run_of_compile hcompile] at hr
      have hcovering := executeAll_covering fuel program ih (hs.idle.covered hcompile)
      have hrun : Covering.Plain s.machine (Lox.interpret fuel program s.machine) := by
        unfold Lox.interpret
        refine hcovering.bind fun {flow _} _ hc _ => ?_
        cases flow with
        | next => exact .pure hc trivial
        | returned value keyword => exact .fault hc ..
      exact (hrun.of_left? (Session.left?_of_interpret hr)).2
    | error errors =>
      rw [Session.run_of_rejected hcompile] at hr
      cases hr
      exact ih
  | later _ clock ih => exact ⟨ih.globalFrame, ih.functions, ih.methods⟩

/-- **Own reads are defined.** In every session, whenever the initializer of a local variable reads
the global variable of the same name, that variable is bound, and the read gives its value. -/
theorem own_read_global (hs : s.Reachable) (hc : s.compile source = .ok program) {m : Machine}
    {name : Token} (hv : Visits s.machine (.stmts program) m
      (.expr (some name.lexeme) (.variable name none))) :
    ∃ v, m.frames.here? Machine.globalFrame name.lexeme = some v ∧
      ∀ fuel, evaluate (fuel + 1) (.variable name none) m = .ok v m := by
  obtain ⟨hm, hcovered⟩ := hv.covered hs.covers (hs.idle.covered hc)
  have hread : name.lexeme ∈ (Expr.variable name none).globalReads := by
    simp [Expr.globalReads, Expr.references, Reference.globalRead?]
  have hbound := Machine.mem_globalNames.1 (hcovered name.lexeme hread rfl)
  obtain ⟨v, hv⟩ := Option.isSome_iff_exists.1 hbound
  refine ⟨v, hv, fun fuel => ?_⟩
  have hget : m.frames.get? Machine.globalFrame name.lexeme = some v := by
    rw [Frames.get?, hv]
  simp only [Lox.evaluate, Eval.readVariable, hget]

/-- The function of an earlier text reads the global variable in the initializer of its own one. -/
theorem own_read_global_later : ∃ s program m v,
    (Session.start .unlimited (.stopped 0)).run 20 "var x; fun f() \x7b var x = x; \x7d"
      = some (.success, s) ∧
    s.compile "f();" = .ok program ∧
    Visits s.machine (.stmts program) m
      (.expr (some "x") (.variable ⟨.identifier, "x", 1⟩ none)) ∧
    m.current ≠ Machine.globalFrame ∧ m.frames.here? Machine.globalFrame "x" = some v ∧
    evaluate 1 (.variable ⟨.identifier, "x", 1⟩ none) m = .ok v m := by
  have hrun : ((Session.start .unlimited (.stopped 0)).run 20
      "var x; fun f() \x7b var x = x; \x7d").map (fun r =>
        (r.1, r.2.machine.frames.get? 0 "f", r.2.machine.frames.next,
        r.2.machine.functions[0]?.map fun f => (f.decl.params, f.decl.body)))
        = some (.success, some (.functionRef 0), 1, some ([], [.var ⟨.identifier, "x", 1⟩
            (some (.variable ⟨.identifier, "x", 1⟩ none))])) := by
    cbv
  obtain ⟨⟨outcome, s⟩, hr, hends⟩ := Option.map_eq_some_iff.1 hrun
  simp only [Prod.mk.injEq] at hends
  obtain ⟨rfl, hf, hnext, hfunction⟩ := hends
  obtain ⟨f, hf₀, hdecl⟩ := Option.map_eq_some_iff.1 hfunction
  obtain ⟨hparams, hbody⟩ := Prod.mk.inj hdecl
  have hread : readSource Grammar.parse "f();" = .ok [.expression
      (.call (.variable ⟨.identifier, "f", 1⟩ none) ⟨.punct .rightParen, ")", 1⟩ [])] := by
    cbv
  have hc : s.compile "f();" = .ok [.expression (.call (.variable ⟨.identifier, "f", 1⟩ none)
      ⟨.punct .rightParen, ")", 1⟩ [])] :=
    compile_ok_iff.2 ⟨_, hread, rfl, rfl⟩
  have hcallee : evaluate 1 (.variable ⟨.identifier, "f", 1⟩ none) s.machine
      = .ok (.functionRef 0) s.machine := by
    simp only [evaluate, Eval.readVariable, Machine.globalFrame, hf]
  have hcall : Eval.checkCall (.functionRef 0) ⟨.punct .rightParen, ")", 1⟩ 0 s.machine
      = .ok (.function f) s.machine := by
    simp [Eval.checkCall, Eval.callable?, hf₀, hparams]
  obtain ⟨m, hcurrent, hv⟩ : ∃ m, m.current = s.machine.frames.next ∧ Visits s.machine
      (.stmts [.expression (.call (.variable ⟨.identifier, "f", 1⟩ none)
        ⟨.punct .rightParen, ")", 1⟩ [])]) m (.stmts f.decl.body) :=
    ⟨_, rfl, .tail (.tail (.tail (.tail (.tail .refl .stmtsHead) .expression) (.call hcallee rfl))
      (.function hcall)) (.body rfl)⟩
  rw [hnext] at hcurrent
  have hpending : m.pending ⟨.identifier, "x", 1⟩ = some (Token.lexeme ⟨.identifier, "x", 1⟩) := by
    simp [Machine.pending, hcurrent, Machine.globalFrame]
  rw [hbody] at hv
  have hvisits := Visits.tail (hv.tail .stmtsHead) .initializer
  rw [hpending] at hvisits
  have hreachable := Session.Reachable.run (.start .unlimited (.stopped 0)) hr
  obtain ⟨v, hbound, hvalue⟩ := own_read_global hreachable hc hvisits
  refine ⟨s, _, m, v, hr, hc, hvisits, ?_, hbound, hvalue 0⟩
  rw [hcurrent]
  exact Nat.one_ne_zero

end

end Lox
