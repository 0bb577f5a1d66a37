import Lox.Proofs.Run.Growth
import Lox.Proofs.Scope.Nest
import Mathlib.Logic.Basic

/-!
# The names that statements leave

`Machine.Adds names m m'` is the exact form of `Machine.Keeps`: of the frames that were there
before, the current one is the only one that binds more names, and it binds all of `names`. A scoped
statement that ends well adds the name that it declares, and one that fails adds nothing
(`execute_adding`); so statements in order add what they declare, up to the one that fails
(`executeAll_adds`, `executeAll_failed`).
-/

set_option autoImplicit false

namespace Lox

/-! ## Bound names -/

/-- In a scoped program branches and loop bodies declare nothing, so a statement can only bind the
name that it declares. -/
theorem Stmt.Scoped.binds_eq : ∀ {s : Stmt} {insideFunction : Bool} {n : Nest},
    s.Scoped insideFunction n → s.binds = Stmt.declaredNames [s]
  | .expression _, _, _, _ | .print _ _, _, _, _ | .block _, _, _, _ | .ret _ _, _, _, _
  | .var _ _, _, _, _ | .function _, _, _, _ | .classDecl _ _ _, _, _, _ => rfl
  | .conditional condition thenBranch none, _, _, h => by
    simp only [Stmt.Scoped] at h
    obtain ⟨-, hthen, hd⟩ := h
    have hbinds := hthen.binds_eq
    rw [declaredNames_singleton_of_none hd] at hbinds
    exact hbinds
  | .conditional condition thenBranch (some elseBranch), _, _, h => by
    simp only [Stmt.Scoped] at h
    obtain ⟨-, ⟨hthen, hd⟩, helse, hd'⟩ := h
    have hbinds := hthen.binds_eq
    have hbinds' := helse.binds_eq
    rw [declaredNames_singleton_of_none hd] at hbinds
    rw [declaredNames_singleton_of_none hd'] at hbinds'
    rw [Stmt.binds, hbinds, hbinds']
    rfl
  | .loop condition body, _, _, h => by
    simp only [Stmt.Scoped] at h
    obtain ⟨-, hbody, hd⟩ := h
    have hbinds := hbody.binds_eq
    rw [declaredNames_singleton_of_none hd] at hbinds
    exact hbinds

theorem Stmt.AllScoped.bindsAll_eq : ∀ {ss : List Stmt} {insideFunction : Bool} {n : Nest},
    Stmt.AllScoped insideFunction n ss → Stmt.bindsAll ss = Stmt.declaredNames ss
  | [], _, _, _ => rfl
  | s :: ss, _, _, h => by
    simp only [Stmt.AllScoped] at h
    rw [Stmt.declaredNames_cons, ← h.1.binds_eq, ← h.2.bindsAll_eq]
    rfl

/-! ## Added names -/

/-- The current frame binds these names besides those from before, and no other frame from before
binds a new one. -/
structure Machine.Adds (names : List String) (m m' : Machine) : Prop extends m.Keeps names m' where
  bound : ∀ x ∈ names, (m'.frames.here? m.current x).isSome

namespace Machine.Adds

variable {names names' : List String} {m m' m'' : Machine}

theorem nothing (h : m.Keeps [] m') : m.Adds [] m' :=
  { h with bound := nofun }

theorem trans (h : m.Adds names m') (h' : m'.Adds names' m'') : m.Adds (names ++ names') m'' where
  toKeeps := (h.toKeeps.mono fun _ hx => List.mem_append_left _ hx).trans
    (h'.toKeeps.mono fun _ hx => List.mem_append_right _ hx)
  bound := by
    intro x hx
    rcases List.mem_append.1 hx with hx | hx
    · exact h'.still (h.bound x hx)
    · rw [← h.current]
      exact h'.bound x hx

theorem before (h : m.Adds names m') (hk : m''.Keeps [] m) : m''.Adds names m' where
  toKeeps := (hk.mono nofun).trans h.toKeeps
  bound := by
    rw [← hk.current]
    exact h.bound

theorem after (h : m.Adds names m') (hk : m'.Keeps [] m'') : m.Adds names m'' where
  toKeeps := h.toKeeps.trans (hk.mono nofun)
  bound := fun x hx => hk.still (h.bound x hx)

theorem define (h : m.Sound) (x : String) (v : Value) :
    m.Adds [x] { m with frames := m.frames.define m.current x v } where
  toKeeps := .define m x v
  bound := by
    intro y hy
    rw [List.mem_singleton.1 hy]
    exact Option.isSome_of_eq_some (Frames.here?_define_self m.frames x v h.current)

/-- What the current frame then binds. -/
theorem here?_iff (h : m.Adds names m') (hs : m.Sound) (x : String) :
    (m'.frames.here? m.current x).isSome ↔ (m.frames.here? m.current x).isSome ∨ x ∈ names := by
  constructor
  · intro hx
    exact (h.new hs.current hx).imp_right And.right
  · rintro (hx | hx)
    · exact h.still hx
    · exact h.bound x hx

end Machine.Adds

/-- A run of a statement adds these names when it goes on to the next one, and otherwise nothing. -/
inductive Adding (names : List String) (m : Machine) : Result Flow → Prop
  | next {m' : Machine} (h : m.Adds names m') (hs : m'.Sound) : Adding names m (.ok .next m')
  | returned {value : Value} {keyword : Token} {m' : Machine} (hk : m.Keeps [] m')
      (hs : m'.Sound) : Adding names m (.ok (.returned value keyword) m')
  | error {e : RuntimeError} {m' : Machine} (hk : m.Keeps [] m') (hs : m'.Sound) :
      Adding names m (.error e m')
  | outOfFuel : Adding names m .outOfFuel

namespace Adding

variable {α : Type} {names : List String} {m m' : Machine} {Q : α → Machine → Prop}

theorem before {r : Result Flow} (h : Adding names m' r) (hk : m.Keeps [] m') :
    Adding names m r := by
  cases h with
  | next h hs => exact .next (h.before hk) hs
  | returned hk' hs => exact .returned (hk.trans hk') hs
  | error hk' hs => exact .error (hk.trans hk') hs
  | outOfFuel => exact .outOfFuel

/-- After a run that binds nothing. -/
theorem bind {x : Eval α} {f : α → Eval Flow} (h : Ends [] m Q (x m))
    (hf : ∀ {a m'}, m.Keeps [] m' → m'.Sound → Q a m' → Adding names m' (f a m')) :
    Adding names m ((x >>= f) m) := by
  show Adding names m (Eval.bind x f m)
  unfold Eval.bind
  generalize x m = r at h ⊢
  cases h with
  | ok hk hs hq => exact (hf hk hs hq).before hk
  | error hk hs => exact .error hk hs
  | outOfFuel => exact .outOfFuel

theorem currentFrame {f : FrameId → Eval Flow} (h : Adding names m (f m.current m)) :
    Adding names m ((Eval.currentFrame >>= f) m) :=
  h

theorem fault (hs : m.Sound) (token : Token) (cause : RuntimeCause) :
    Adding names m (Eval.fault token cause m) :=
  .error (.refl ..) hs

/-- A definition that ends the statement. -/
theorem define (h : m.Sound) (x : String) {v : Value} (hv : v.Made m) :
    Adding [x] m ((Eval.define x v >>= fun _ => pure Flow.next) m) :=
  .next (.define h x v) (h.define hv)

/-- A statement that binds nothing. -/
theorem of_ends {r : Result Flow} (h : Ends.Flows [] m r) : Adding [] m r := by
  cases h with
  | @ok flow _ hk hs _ =>
    cases flow with
    | next => exact .next (.nothing hk) hs
    | returned value keyword => exact .returned hk hs
  | error hk hs => exact .error hk hs
  | outOfFuel => exact .outOfFuel

end Adding

/-! ## Statements -/

section

variable {m m' : Machine}

/-- The class takes the place of the `nil` that its name was bound to first, so the assignment
cannot fail. -/
private theorem Machine.Adds.class {m₀ : Machine} {name : Token} (h : m₀.Adds [name.lexeme] m)
    (hsound : m.Sound) {info : Class}
    (hs : ∀ above, info.superclass = some above → above < m.classes.size)
    (hm : ∀ x f, info.methods.get? x = some f → f.Made m) :
    Adding [name.lexeme] m₀ ((Eval.newClass info >>= fun c =>
      Eval.assignVisible name c >>= fun _ => pure Flow.next) m) := by
  obtain ⟨hk, hsound', hc⟩ := (hsound.makeClass hs hm).of_ok rfl
  have hbound : (m.frames.here? m.current name.lexeme).isSome := by
    rw [h.current]
    exact h.bound _ (List.mem_singleton_self _)
  obtain ⟨old, hold⟩ := Option.isSome_iff_exists.1 hbound
  have hrun : (Eval.newClass info >>= fun c => Eval.assignVisible name c >>= fun _ =>
      pure Flow.next) m = .ok .next { m with
        frames := m.frames.define m.current name.lexeme (.classRef m.classes.size)
        classes := m.classes.push info } := by
    show Eval.bind (Eval.assignVisible name _) _ _ = _
    simp only [Eval.bind, Eval.assignVisible, Frames.assign?_of_here? hold]
    rfl
  rw [hrun]
  refine .next ((h.after hk).after ?_) (hsound'.define hc)
  exact .redefine (hk.still hbound) _

/-- The statements that declare a name bind it last, when nothing can go wrong any more. -/
theorem execute_adding_declared (fuel : Nat) {s : Stmt} {name : Token}
    (hd : s.declared = some name) (h : m.Sound) :
    Adding [name.lexeme] m (execute fuel s m) := by
  cases fuel with
  | zero => exact .outOfFuel
  | succ fuel =>
    match s with
    | .var name none =>
      cases hd
      rw [execute]
      exact .define h _ Value.nil_made
    | .var name (some initializer) =>
      cases hd
      rw [execute]
      exact .bind (evaluate_ends fuel initializer h) fun _ hs hv => .define hs _ hv
    | .function decl =>
      cases hd
      rw [execute]
      refine .currentFrame ?_
      refine .bind (h.makeFunction (f := ⟨decl, m.current, false⟩) h.current) fun _ hs hv => ?_
      exact .define hs _ hv
    | .classDecl name none methods =>
      cases hd
      rw [execute]
      have hs := h.define (f := m.current) (x := name.lexeme) (v := .nil) trivial
      exact (Machine.Adds.define h name.lexeme .nil).class hs nofun
        (methodTable_made hs.current methods)
    | .classDecl name (some superclass) methods =>
      cases hd
      rw [execute]
      refine .bind (evaluate_ends fuel superclass h) fun {v m₁} _ hs hv => ?_
      cases v with
      | classRef above =>
        have hadds := Machine.Adds.define hs name.lexeme .nil
        have hs := hs.define (f := m₁.current) (x := name.lexeme) (v := .nil) trivial
        have hbinding : ∀ b ∈ [("super", Value.classRef above)], b.2.Made
            { m₁ with frames := m₁.frames.define m₁.current name.lexeme .nil } := by
          intro b hb
          rw [List.mem_singleton.1 hb]
          exact hv
        obtain ⟨hk, hs, hclosure⟩ := (hs.newFrame hs.current hbinding).of_ok rfl
        refine (hadds.after hk).class hs ?_ (methodTable_made hclosure.2 methods)
        rintro _ ⟨⟩
        exact hv
      | _ => exact .fault hs ..

/-- A statement adds the name that it declares when it ends well, and otherwise nothing. -/
theorem execute_adding (fuel : Nat) {s : Stmt} {insideFunction : Bool} {n : Nest}
    (hs : s.Scoped insideFunction n) (h : m.Sound) :
    Adding (Stmt.declaredNames [s]) m (execute fuel s m) := by
  cases hd : s.declared with
  | some name =>
    have hnames : Stmt.declaredNames [s] = [name.lexeme] := by simp [Stmt.declaredNames, hd]
    rw [hnames]
    exact execute_adding_declared fuel hd h
  | none =>
    have hends := execute_ends fuel s h
    rw [hs.binds_eq] at hends
    rw [Stmt.declaredNames_singleton_of_none hd] at hends ⊢
    exact .of_ends hends

/-- Statements that end well, one after another, add all names that they declare. -/
theorem executeAll_adds : ∀ {fuel : Nat} {ss : List Stmt} {insideFunction : Bool} {n : Nest}
    {m m' : Machine}, Stmt.AllScoped insideFunction n ss → m.Sound →
      executeAll fuel ss m = .ok .next m' → m.Adds (Stmt.declaredNames ss) m' ∧ m'.Sound
  | 0, _, _, _, _, _, _, _, hr => nomatch hr
  | _ + 1, [], _, _, _, _, _, h, hr => by
    cases hr
    exact ⟨.nothing (.refl ..), h⟩
  | fuel + 1, s :: ss, _, _, m, m', hss, h, hr => by
    simp only [Stmt.AllScoped] at hss
    have hadding := execute_adding fuel hss.1 h
    rw [executeAll] at hr
    change Eval.bind (execute fuel s) _ m = _ at hr
    unfold Eval.bind at hr
    generalize execute fuel s m = r at hadding hr
    cases hadding with
    | next hadds hs =>
      obtain ⟨hadds', hs'⟩ := executeAll_adds hss.2 hs hr
      rw [Stmt.declaredNames_cons]
      exact ⟨hadds.trans hadds', hs'⟩
    | returned => cases hr
    | error => cases hr
    | outOfFuel => cases hr

/-- Statements fail at one of them, after those before it have ended well. -/
theorem executeAll_failed : ∀ {fuel : Nat} {ss : List Stmt} {m m' : Machine} {e : RuntimeError},
    executeAll fuel ss m = .error e m' → ∃ before s after m₁ fuel', ss = before ++ s :: after ∧
      executeAll fuel before m = .ok .next m₁ ∧ execute fuel' s m₁ = .error e m'
  | 0, _, _, _, _, hr => nomatch hr
  | _ + 1, [], _, _, _, hr => nomatch hr
  | fuel + 1, s :: ss, m, m', e, hr => by
    rw [executeAll] at hr
    change Eval.bind (execute fuel s) _ m = _ at hr
    unfold Eval.bind at hr
    cases hs : execute fuel s m with
    | ok flow m₁ =>
      rw [hs] at hr
      cases flow with
      | next =>
        obtain ⟨before, s', after, m₂, fuel', rfl, hbefore, hfails⟩ := executeAll_failed hr
        refine ⟨s :: before, s', after, m₂, fuel', rfl, ?_, hfails⟩
        rw [executeAll]
        show Eval.bind (execute fuel s) _ m = _
        unfold Eval.bind
        rw [hs]
        exact hbefore
      | returned value keyword => cases hr
    | error e' m₁ =>
      rw [hs] at hr
      cases hr
      exact ⟨[], s, ss, m, fuel, rfl, rfl, hs⟩
    | outOfFuel =>
      rw [hs] at hr
      cases hr

end

end Lox
