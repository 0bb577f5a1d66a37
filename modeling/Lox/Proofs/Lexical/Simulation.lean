import Lox.Proofs.Lexical.Declarations

/-!
# The machine runs programs lexically

From states that agree at a place, a scoped expression or statement runs alike on the machine and in
the world (`evaluate_tracks`, `execute_tracks`). Both evaluators use their fuel alike, so the
induction is on the fuel, with one theorem for each function of the evaluators.
-/

set_option autoImplicit false

namespace Lox.Lexical

variable {cells : Array Cell} {m : Machine} {w : World} {n : Nest} {visible : Names}

/-- Nothing is pending outside of initializers. -/
theorem Here.pending_none : Here.Pending n none :=
  nofun

/-- What is pending in the initializer of a variable that can be declared. -/
theorem Here.pending_of_fresh {name : String} (h : n.Fresh name) :
    Here.Pending n (n.pending name) := by
  intro x hx
  unfold Nest.pending at hx
  split at hx
  · cases hx
  · cases hx
    exact ⟨‹_›, h⟩

/-- The names at a place stay where they are while the same frame is current. -/
theorem At.keep {own : Option FrameId} {cells' : Array Cell} {m' : Machine} {w' : World}
    {visible' : Names} (h : At cells m n visible) (hr : Reached own cells m cells' m' w')
    (h' : At cells' m' n visible') : At cells' m' n visible := by
  refine ⟨?_, h'.names, h'.top, h'.current⟩
  rw [hr.current]
  exact h.places.mono hr.grows

/-- Statements end alike, whatever names they leave behind. -/
inductive SameEnd (insideFunction : Bool) : Lox.Flow → Flow → Prop
  | next (visible : Names) : SameEnd insideFunction .next (.next visible)
  | returned (value : Value) (keyword : Token) (h : insideFunction = true) :
      SameEnd insideFunction (.returned value keyword) (.returned value keyword)

mutual

theorem evaluate_tracks : ∀ (fuel : Nat) {cells : Array Cell} {m : Machine} {w : World} {n : Nest}
    {visible : Names} {pending : Option String} {e : Expr}, Here cells m w n visible →
      Here.Pending n pending → e.Scoped n pending →
      Tracks none cells m Same (Lox.evaluate fuel e m) (Lexical.evaluate fuel visible pending e w)
  | 0, _, _, _, _, _, _, _, _, _, _ => .outOfFuel
  | fuel + 1, cells, m, w, n, visible, pending, e, h, hp, he => by
    match e, he with
    | .literal value, _ => exact .pure h.agree rfl
    | .grouping inner, he =>
      simp only [Expr.Scoped] at he
      rw [Lox.evaluate, Lexical.evaluate]
      exact evaluate_tracks fuel h hp he
    | .unary operator right, he =>
      simp only [Expr.Scoped] at he
      rw [Lox.evaluate, Lexical.evaluate]
      refine (evaluate_tracks fuel h hp he.2).bind fun hr hv => ?_
      cases hv
      exact .ofExcept hr.agree (Value.unary_error he.1)
    | .binary left operator right, he =>
      simp only [Expr.Scoped] at he
      rw [Lox.evaluate, Lexical.evaluate]
      refine (evaluate_tracks fuel h hp he.1).bind fun hr hv => ?_
      cases hv
      refine (evaluate_tracks fuel (h.later hr) hp he.2.2).bind fun hr hv => ?_
      cases hv
      exact .ofExcept hr.agree (Value.binary_error he.2.1)
    | .logical left operator right, he =>
      simp only [Expr.Scoped] at he
      rw [Lox.evaluate, Lexical.evaluate]
      refine (evaluate_tracks fuel h hp he.1).bind fun hr hv => ?_
      cases hv
      split
      · exact .pure hr.agree rfl
      · exact evaluate_tracks fuel (h.later hr) hp he.2
    | .variable name depth, he =>
      simp only [Expr.Scoped] at he
      rw [Lox.evaluate, Lexical.evaluate, he]
      exact h.read name
    | .assign name value depth, he =>
      simp only [Expr.Scoped] at he
      obtain ⟨hname, hvalue, rfl⟩ := he
      rw [Lox.evaluate, Lexical.evaluate]
      refine (evaluate_tracks fuel h hp hvalue).bind fun hr hv => ?_
      cases hv
      refine ((h.later hr).write hp hname _).bind fun hr' _ => ?_
      exact .pure hr'.agree rfl
    | .call callee paren arguments, he =>
      simp only [Expr.Scoped] at he
      rw [Lox.evaluate, Lexical.evaluate]
      refine (evaluate_tracks fuel h hp he.1).bind fun hr hv => ?_
      cases hv
      refine (evaluateAll_tracks fuel (h.later hr) hp he.2).bind fun hr' hvs => ?_
      cases hvs
      exact call_tracks fuel hr'.agree
    | .get object name, he =>
      simp only [Expr.Scoped] at he
      rw [Lox.evaluate, Lexical.evaluate]
      refine (evaluate_tracks fuel h hp he).bind fun {_ _ _ v _} hr hv => ?_
      cases hv
      cases v with
      | instanceRef i => exact hr.agree.getProperty i name
      | _ => exact .fault hr.agree _ rfl
    | .set object name value, he =>
      simp only [Expr.Scoped] at he
      rw [Lox.evaluate, Lexical.evaluate]
      refine (evaluate_tracks fuel h hp he.1).bind fun {_ _ _ v _} hr hv => ?_
      cases hv
      cases v with
      | instanceRef i =>
        refine (evaluate_tracks fuel (h.later hr) hp he.2).bind fun hr' hv => ?_
        cases hv
        refine (hr'.agree.setField i name.lexeme _).bind fun hr'' _ => ?_
        exact .pure hr''.agree rfl
      | _ => exact .fault hr.agree _ rfl
    | .this keyword depth, he =>
      simp only [Expr.Scoped] at he
      obtain ⟨hk, d, rfl, hd⟩ := he
      rw [Lox.evaluate, Lexical.evaluate, ← hd, ← hk]
      exact h.read keyword
    | .super keyword method depth, he =>
      simp only [Expr.Scoped] at he
      obtain ⟨d, rfl, hsuper, hthis⟩ := he
      rw [Lox.evaluate, Lexical.evaluate]
      exact h.superMethod hsuper hthis keyword method

theorem evaluateAll_tracks : ∀ (fuel : Nat) {cells : Array Cell} {m : Machine} {w : World}
    {n : Nest} {visible : Names} {pending : Option String} {es : List Expr},
      Here cells m w n visible → Here.Pending n pending → Expr.AllScoped n pending es →
      Tracks none cells m Same (Lox.evaluateAll fuel es m)
        (Lexical.evaluateAll fuel visible pending es w)
  | 0, _, _, _, _, _, _, _, _, _, _ => .outOfFuel
  | fuel + 1, cells, m, w, n, visible, pending, es, h, hp, hes => by
    cases es with
    | nil => exact .pure h.agree rfl
    | cons e es =>
      simp only [Expr.AllScoped] at hes
      rw [Lox.evaluateAll, Lexical.evaluateAll]
      refine (evaluate_tracks fuel h hp hes.1).bind fun hr hv => ?_
      cases hv
      refine (evaluateAll_tracks fuel (h.later hr) hp hes.2).bind fun hr' hvs => ?_
      cases hvs
      exact .pure hr'.agree rfl

theorem call_tracks : ∀ (fuel : Nat) {cells : Array Cell} {m : Machine} {w : World}
    {callee : Value} {paren : Token} {arguments : List Value}, Agree cells m w →
      Tracks none cells m Same (Lox.call fuel callee paren arguments m)
        (Lexical.call fuel callee paren arguments w)
  | 0, _, _, _, _, _, _, _ => .outOfFuel
  | fuel + 1, cells, m, w, callee, paren, arguments, h => by
    rw [Lox.call, Lexical.call]
    refine (h.checkCall callee paren arguments.length).bind fun hr hcallable => ?_
    generalize harity : arguments.length = arity at hcallable
    cases hcallable with
    | native f => exact hr.agree.callNative f
    | function hfg => exact invoke_tracks fuel hr.agree hfg harity
    | construct c hinit =>
      refine (hr.agree.newInstance c).bind fun hr' hthis => ?_
      obtain ⟨rfl, hclasses⟩ := hthis
      refine (hr'.agree.initializerOf c).bind fun {_ _ _ f g} hr'' hfg => ?_
      obtain ⟨hfg, hf⟩ := hfg
      cases hfg with
      | none => exact .pure hr''.agree rfl
      | some hfg =>
        rw [Machine.findMethod?_congr hclasses] at hf
        refine (hr''.agree.bindMethod hfg _).bind fun hr₃ hbound => ?_
        obtain ⟨hobject, hdecl⟩ := hbound
        have hlength := harity.trans (hinit _ hf.symm)
        rw [← hdecl] at hlength
        refine (invoke_tracks fuel hr₃.agree hobject hlength).bind fun hr₄ _ => ?_
        exact .pure hr₄.agree rfl

theorem invoke_tracks : ∀ (fuel : Nat) {cells : Array Cell} {m : Machine} {w : World}
    {f : Function} {g : Closure} {arguments : List Value}, Agree cells m w →
      SameObject cells m.frames f g → arguments.length = f.decl.params.length →
      Tracks none cells m Same (Lox.invoke fuel f arguments m) (Lexical.invoke fuel g arguments w)
  | 0, _, _, _, _, _, _, _, _, _ => .outOfFuel
  | fuel + 1, cells, m, w, f, g, arguments, h, hfg, hlength => by
    obtain ⟨n, hfunction, -⟩ := id hfg
    obtain ⟨hnodup, hsuper, hbody⟩ := hfunction.arguments hlength
    rw [Lox.invoke, Lexical.invoke, ← hfunction.decl, ← hfunction.init]
    refine h.inFrame hfunction.places hnodup hsuper fun {cells' m' w' visible'} hr hhere => ?_
    have hrun := (executeAll_tracks fuel hhere hbody).within
    refine hrun.bind fun hr' hend => ?_
    by_cases hinit : f.isInitializer = true
    · rw [if_pos hinit, if_pos hinit]
      exact hr'.agree.boundInstance ((hfg.mono hr.grows).mono hr'.grows) hinit
    · rw [if_neg hinit, if_neg hinit]
      cases hend with
      | next => exact .pure hr'.agree rfl
      | returned => exact .pure hr'.agree rfl

theorem execute_tracks : ∀ (fuel : Nat) {cells : Array Cell} {m : Machine} {w : World} {n : Nest}
    {visible : Names} {insideFunction : Bool} {s : Stmt}, Here cells m w n visible →
      s.Scoped insideFunction n →
      Tracks (some m.current) cells m (SameFlow (n.after s) insideFunction)
        (Lox.execute fuel s m) (Lexical.execute fuel n.isEmpty visible s w)
  | 0, _, _, _, _, _, _, _, _, _ => .outOfFuel
  | fuel + 1, cells, m, w, n, visible, insideFunction, s, h, hs => by
    match s, hs with
    | .expression value, hs =>
      simp only [Stmt.Scoped] at hs
      rw [Lox.execute, Lexical.execute]
      refine (evaluate_tracks fuel h Here.pending_none hs).step fun hr _ => ?_
      exact .pure hr.agree (.next (h.later hr).toAt)
    | .print keyword value, hs =>
      simp only [Stmt.Scoped] at hs
      rw [Lox.execute, Lexical.execute]
      refine (evaluate_tracks fuel h Here.pending_none hs).step fun hr hv => ?_
      cases hv
      refine (hr.agree.printLine keyword _).step fun hr' _ => ?_
      exact .pure hr'.agree (.next ((h.later hr).later hr').toAt)
    | .var name none, hs =>
      simp only [Stmt.Scoped] at hs
      rw [Lox.execute, Lexical.execute]
      refine (h.define hs.1 .nil).bind fun hr hat => ?_
      exact .pure hr.agree (.next hat.1)
    | .var name (some e), hs =>
      simp only [Stmt.Scoped] at hs
      obtain ⟨hd, hinit⟩ := hs
      have hpending : (if n.isEmpty = true then none else some name.lexeme)
          = n.pending name.lexeme := by
        cases n <;> rfl
      rw [Lox.execute, Lexical.execute, hpending]
      refine (evaluate_tracks fuel h (Here.pending_of_fresh hd.2) hinit).step fun hr hv => ?_
      cases hv
      rw [← hr.current]
      refine ((h.later hr).define hd _).bind fun hr' hat => ?_
      exact .pure hr'.agree (.next hat.1)
    | .block body, hs =>
      simp only [Stmt.Scoped] at hs
      have hrun : Tracks none cells m (fun _ _ => SameEnd insideFunction)
          ((Eval.newFrame m.current [] >>= fun frame =>
            Eval.within frame (Lox.executeAll fuel body)) m)
          ((Lexical.allocateAll visible [] >>= fun visible =>
            Lexical.executeAll fuel false visible body) w) :=
        h.agree.inFrame h.places List.nodup_nil nofun fun _ hhere =>
          (executeAll_tracks fuel hhere hs).within
      rw [Lox.execute, Lexical.execute]
      refine Tracks.currentFrame (hrun.relabel fun hr hend => ?_)
      cases hend with
      | next => exact ⟨_, rfl, .next (h.later hr).toAt⟩
      | returned value keyword hinside => exact ⟨_, rfl, .returned _ _ hinside⟩
    | .conditional condition thenBranch none, hs =>
      simp only [Stmt.Scoped] at hs
      rw [Lox.execute, Lexical.execute]
      refine (evaluate_tracks fuel h Here.pending_none hs.1).step fun hr hv => ?_
      cases hv
      split
      · have hrun := execute_tracks fuel (h.later hr) hs.2.1
        rw [Nest.after_of_none hs.2.2, hr.current] at hrun
        exact hrun
      · exact .pure hr.agree (.next (h.later hr).toAt)
    | .conditional condition thenBranch (some elseBranch), hs =>
      simp only [Stmt.Scoped] at hs
      rw [Lox.execute, Lexical.execute]
      refine (evaluate_tracks fuel h Here.pending_none hs.1).step fun hr hv => ?_
      cases hv
      split
      · have hrun := execute_tracks fuel (h.later hr) hs.2.1.1
        rw [Nest.after_of_none hs.2.1.2, hr.current] at hrun
        exact hrun
      · have hrun := execute_tracks fuel (h.later hr) hs.2.2.1
        rw [Nest.after_of_none hs.2.2.2, hr.current] at hrun
        exact hrun
    | .loop condition body, hs =>
      simp only [Stmt.Scoped] at hs
      rw [Lox.execute, Lexical.execute]
      exact executeLoop_tracks fuel h hs.1 hs.2.1 hs.2.2
    | .function decl, hs =>
      simp only [Stmt.Scoped] at hs
      exact h.execute_function hs.1 hs.2 fuel
    | .ret keyword none, hs =>
      simp only [Stmt.Scoped] at hs
      exact .pure h.agree (.returned _ _ hs.1)
    | .ret keyword (some e), hs =>
      simp only [Stmt.Scoped] at hs
      rw [Lox.execute, Lexical.execute]
      refine (evaluate_tracks fuel h Here.pending_none hs.2).step fun hr hv => ?_
      cases hv
      exact .pure hr.agree (.returned _ _ hs.1)
    | .classDecl name none methods, hs =>
      simp only [Stmt.Scoped] at hs
      exact h.execute_class hs.1 hs.2.2 fuel
    | .classDecl name (some superclass) methods, hs =>
      simp only [Stmt.Scoped] at hs
      obtain ⟨hd, hsuper, hm⟩ := hs
      rw [Lox.execute, Lexical.execute]
      refine (evaluate_tracks fuel h Here.pending_none hsuper).step fun {_ _ _ v _} hr hv => ?_
      cases hv
      cases v with
      | classRef above =>
        rw [← hr.current]
        exact (h.later hr).execute_subclass hd hm above
      | _ => exact .fault hr.agree _ rfl

theorem executeLoop_tracks : ∀ (fuel : Nat) {cells : Array Cell} {m : Machine} {w : World}
    {n : Nest} {visible : Names} {insideFunction : Bool} {condition : Expr} {body : Stmt},
      Here cells m w n visible → condition.Scoped n none → body.Scoped insideFunction n →
      body.declared = none →
      Tracks (some m.current) cells m (SameFlow n insideFunction)
        (Lox.executeLoop fuel condition body m)
        (Lexical.executeLoop fuel n.isEmpty visible condition body w)
  | 0, _, _, _, _, _, _, _, _, _, _, _, _ => .outOfFuel
  | fuel + 1, cells, m, w, n, visible, insideFunction, condition, body, h, hc, hb, hd => by
    rw [Lox.executeLoop, Lexical.executeLoop]
    refine (evaluate_tracks fuel h Here.pending_none hc).step fun hr hv => ?_
    cases hv
    split
    · have hrun := execute_tracks fuel (h.later hr) hb
      rw [Nest.after_of_none hd, hr.current] at hrun
      refine hrun.bind fun hr' hflow => ?_
      cases hflow with
      | next hat =>
        have hhere : Here _ _ _ n visible := ⟨(h.later hr).toAt.keep hr' hat, hr'.agree⟩
        have hagain := executeLoop_tracks fuel hhere hc hb hd
        rw [hr'.current, hr.current] at hagain
        exact hagain
      | returned value keyword hinside => exact .pure hr'.agree (.returned _ _ hinside)
    · exact .pure hr.agree (.next (h.later hr).toAt)

theorem executeAll_tracks : ∀ (fuel : Nat) {cells : Array Cell} {m : Machine} {w : World}
    {n : Nest} {visible : Names} {insideFunction : Bool} {ss : List Stmt},
      Here cells m w n visible → Stmt.AllScoped insideFunction n ss →
      Tracks (some m.current) cells m (fun _ _ => SameEnd insideFunction)
        (Lox.executeAll fuel ss m) (Lexical.executeAll fuel n.isEmpty visible ss w)
  | 0, _, _, _, _, _, _, _, _, _ => .outOfFuel
  | fuel + 1, cells, m, w, n, visible, insideFunction, ss, h, hss => by
    cases ss with
    | nil => exact .pure h.agree (.next visible)
    | cons s ss =>
      simp only [Stmt.AllScoped] at hss
      rw [Lox.executeAll, Lexical.executeAll]
      refine (execute_tracks fuel h hss.1).bind fun hr hflow => ?_
      cases hflow with
      | next hat =>
        have hrest := executeAll_tracks fuel ⟨hat, hr.agree⟩ hss.2
        rw [Nest.isEmpty_after, hr.current] at hrest
        exact hrest
      | returned value keyword hinside => exact .pure hr.agree (.returned _ _ hinside)

end

end Lox.Lexical
