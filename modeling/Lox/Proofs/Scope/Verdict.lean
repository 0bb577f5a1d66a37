import Lox.Proofs.Scope.At

/-!
# Which programs the checker rejects

The checker reports no error exactly for the programs that keep the rules of scope
(`resolve_errors_eq_nil_iff`). One direction is an induction on where a statement lies, the other
one follows the walk.
-/

set_option autoImplicit false

namespace Lox

/-! ## Soundness -/

section

variable {known : List String} {program : List Stmt}

/-- Every statement of a program without errors is checked at its place. -/
theorem Lies.checked (hshaped : Stmt.AllShaped program)
    (hok : (resolve known program).errors = []) {p : Site} {x : Stmt} (h : Lies program p x) :
    ∃ c s, Scopes.At s c known p ∧ x.Shaped ∧ (x.resolve c s).errors = [] := by
  induction h with
  | top h =>
    subst h
    obtain ⟨s', hat', hx, he⟩ := Scopes.At.start.inside hshaped hok
    exact ⟨_, s', hat', hx, he⟩
  | block _ ih =>
    obtain ⟨c, s, hat, hx, he⟩ := ih
    simp only [Stmt.Shaped] at hx
    simp only [Stmt.resolve, Checked.errors_bind, Checked.errors_pure, List.append_nil] at he
    obtain ⟨s', hat', hx', he'⟩ := hat.enterBlock.inside hx he
    exact ⟨_, s', hat', hx', he'⟩
  | @thenBranch _ condition _ elseBranch _ ih =>
    obtain ⟨c, s, hat, hx, he⟩ := ih
    cases elseBranch with
    | none =>
      simp only [Stmt.Shaped] at hx
      simp only [Stmt.resolve, Checked.errors_bind, Checked.errors_pure, List.append_nil,
        List.append_eq_nil_iff] at he
      exact ⟨c, s, hat, hx.2.1, he.2⟩
    | some elseBranch =>
      simp only [Stmt.Shaped] at hx
      simp only [Stmt.resolve, Checked.errors_bind, Checked.errors_pure, List.append_nil,
        List.append_eq_nil_iff] at he
      exact ⟨c, s, hat, hx.2.1.1, he.2.1⟩
  | @elseBranch _ condition thenBranch _ _ ih =>
    obtain ⟨c, s, hat, hx, he⟩ := ih
    simp only [Stmt.Shaped] at hx
    simp only [Stmt.resolve, Checked.errors_bind, Checked.errors_pure, List.append_nil,
      List.append_eq_nil_iff] at he
    -- the branch before declares nothing, so the place is still the same
    have hthen := (hat.resolve hx.2.1.1 he.2.1).2
    rw [Site.after, hx.2.1.2] at hthen
    exact ⟨c, _, hthen, hx.2.2.1, he.2.2⟩
  | loopBody _ ih =>
    obtain ⟨c, s, hat, hx, he⟩ := ih
    simp only [Stmt.Shaped] at hx
    simp only [Stmt.resolve, Checked.errors_bind, Checked.errors_pure, List.append_nil,
      List.append_eq_nil_iff] at he
    exact ⟨c, s, hat, hx.2.1, he.2⟩
  | function _ ih =>
    obtain ⟨c, s, hat, hx, he⟩ := ih
    simp only [Stmt.Shaped, FunctionDecl.Shaped] at hx
    simp only [Stmt.resolve, Checked.errors_bind, Checked.errors_pure, List.append_nil,
      List.append_eq_nil_iff, FunctionDecl.resolve_errors_iff] at he
    obtain ⟨hdeclare, hparams, hbody⟩ := he
    obtain ⟨s', hat', hx', he'⟩ :=
      ((hat.declare hdeclare).2.enterFunction hparams).inside hx.2.2 hbody
    exact ⟨_, s', hat', hx', he'⟩
  | @method _ name _ superclass methods _ _ _ _ _ hm ih =>
    obtain ⟨c, s, hat, hx, he⟩ := ih
    obtain ⟨hdeclare, -, hmethods⟩ := (hat.classDecl_errors_iff hx).1 he
    obtain ⟨hparams, hbody⟩ := FunctionDecl.resolve_errors_iff.1 (hmethods _ hm)
    have hm' := hx.methods _ hm
    simp only [FunctionDecl.Shaped] at hm'
    obtain ⟨s', hat', hx', he'⟩ :=
      ((hat.declare hdeclare).2.enterMethod hparams).inside hm'.2.2 hbody
    exact ⟨_, s', hat', hx', he'⟩

/-- A function whose parameters and body have no errors declares no name twice. -/
theorem Scopes.At.declaresOnce {s : Scopes} {c : Context} {p : Site} {b : Body} {f : FunctionDecl}
    (h : s.At c known (p.enter b f.params)) (hparams : (f.params.map (·.lexeme)).Nodup)
    (hx : f.Shaped) (he : (Stmt.resolveAll c s f.body).errors = []) : f.DeclaresOnce := by
  obtain ⟨name, params, body⟩ := f
  simp only [FunctionDecl.Shaped] at hx
  have hparams' : (p.enter b params).Takes [] := by simpa [Site.Takes, Site.enter] using hparams
  exact Site.takes_function.1 (h.takes hparams' hx.2.2 he)

/-- The rules about `this` and `super`. -/
theorem Scopes.At.evaluates {s : Scopes} {c : Context} {p : Site} (h : s.At c known p) {x : Stmt}
    (hx : x.Shaped) (he : (x.resolve c s).errors = []) {own : Option Token} {e : Expr}
    (hev : x.Evaluates own e) {r : Reference} (hr : r ∈ e.references) :
    (r.kind = .this → p.InMethod) ∧
      (r.kind = .super → ∃ superclass, p.clause? = some (some superclass)) := by
  cases hev with
  | expression | print =>
    simp only [Stmt.resolve, Checked.errors_bind, Checked.errors_pure, List.append_nil] at he
    exact h.admitted_iff.1 ((Expr.resolve_errors_iff _).1 he r hr)
  | initializer =>
    simp only [Stmt.Shaped] at hx
    simp only [Stmt.resolve, Expr.resolveOpt, Checked.errors_bind, Checked.errors_pure,
      List.append_nil, List.append_eq_nil_iff] at he
    obtain ⟨hthis, hsuper, -⟩ :=
      (h.initializer_iff hx.1 he.1).1 ((Expr.resolve_errors_iff _).1 he.2 r hr)
    exact ⟨hthis, hsuper⟩
  | condition _ _ elseBranch =>
    have hcondition : r.Admitted s c.enclosingClass := by
      cases elseBranch <;>
      · simp only [Stmt.resolve, Checked.errors_bind, Checked.errors_pure, List.append_nil,
          List.append_eq_nil_iff] at he
        exact (Expr.resolve_errors_iff _).1 he.1 r hr
    exact h.admitted_iff.1 hcondition
  | loop =>
    simp only [Stmt.resolve, Checked.errors_bind, Checked.errors_pure, List.append_nil,
      List.append_eq_nil_iff] at he
    exact h.admitted_iff.1 ((Expr.resolve_errors_iff _).1 he.1 r hr)
  | ret =>
    have hvalue : (e.resolve s c.enclosingClass).errors = [] := by
      by_cases hinside : c.insideFunction = true
      · simpa [Stmt.resolve, Expr.resolveOpt, hinside] using he
      · simp [Stmt.resolve, hinside] at he
    exact h.admitted_iff.1 ((Expr.resolve_errors_iff _).1 hvalue r hr)
  | superclass =>
    simp only [Stmt.Shaped] at hx
    obtain ⟨-, ⟨above, rfl, -⟩, -⟩ := hx
    rw [List.mem_singleton.1 hr]
    constructor <;> intro hkind <;> cases hkind

/-- A program without errors keeps the rules. -/
theorem WellScoped.of_errors_eq_nil (hshaped : Stmt.AllShaped program)
    (hok : (resolve known program).errors = []) : WellScoped known program where
  blocks := by
    intro p body h
    obtain ⟨c, s, hat, hx, he⟩ := h.checked hshaped hok
    simp only [Stmt.Shaped] at hx
    simp only [Stmt.resolve, Checked.errors_bind, Checked.errors_pure, List.append_nil] at he
    have hempty : (p.enter .block []).Takes [] := by simp [Site.Takes, Site.enter]
    exact Site.takes_block.1 (hat.enterBlock.takes hempty hx he)
  functions := by
    intro p f h
    obtain ⟨c, s, hat, hx, he⟩ := h.checked hshaped hok
    simp only [Stmt.resolve, Checked.errors_bind, Checked.errors_pure, List.append_nil,
      List.append_eq_nil_iff, FunctionDecl.resolve_errors_iff] at he
    obtain ⟨hdeclare, hparams, hbody⟩ := he
    have hdeclared := (hat.declare hdeclare).2
    exact (hdeclared.enterFunction hparams).declaresOnce (hdeclared.locals.declareParams hparams).1
      hx hbody
  methods := by
    intro p name superclass methods h f hf
    obtain ⟨c, s, hat, hx, he⟩ := h.checked hshaped hok
    obtain ⟨hdeclare, -, hmethods⟩ := (hat.classDecl_errors_iff hx).1 he
    obtain ⟨hparams, hbody⟩ := FunctionDecl.resolve_errors_iff.1 (hmethods f hf)
    have hdeclared := (hat.declare hdeclare).2
    exact (hdeclared.enterMethod hparams).declaresOnce
      ((hdeclared.locals.ofClass superclass).declareParams hparams).1 (hx.methods f hf) hbody
  returns := by
    intro p keyword value h
    obtain ⟨c, s, hat, hx, he⟩ := h.checked hshaped hok
    rw [← hat.function]
    by_contra hinside
    simp [Stmt.resolve, hinside] at he
  this := by
    intro p x own e r h hev hr hkind
    obtain ⟨c, s, hat, hx, he⟩ := h.checked hshaped hok
    exact (hat.evaluates hx he hev hr).1 hkind
  super := by
    intro p x own e r h hev hr hkind
    obtain ⟨c, s, hat, hx, he⟩ := h.checked hshaped hok
    exact (hat.evaluates hx he hev hr).2 hkind
  superclasses := by
    intro p name above depth methods h
    obtain ⟨c, s, hat, hx, he⟩ := h.checked hshaped hok
    obtain ⟨-, hne, -⟩ := (hat.classDecl_errors_iff hx).1 he
    exact hne above depth rfl
  initializers := by
    intro p name e r h hlocal hr hkind hname
    obtain ⟨c, s, hat, hx, he⟩ := h.checked hshaped hok
    simp only [Stmt.Shaped] at hx
    simp only [Stmt.resolve, Expr.resolveOpt, Checked.errors_bind, Checked.errors_pure,
      List.append_nil, List.append_eq_nil_iff] at he
    obtain ⟨-, -, hread⟩ :=
      (hat.initializer_iff hx.1 he.1).1 ((Expr.resolve_errors_iff _).1 he.2 r hr)
    exact hread hlocal hkind hname

end

/-! ## Completeness -/

section

variable {known : List String} {program : List Stmt}

/-- Outside of initializers the rules about `this` and `super` are all there is. -/
theorem WellScoped.value_clean (hw : WellScoped known program) {x : Stmt} {p : Site} {c : Context}
    {s : Scopes} (hl : Lies program p x) (h : s.At c known p) {e : Expr}
    (hev : x.Evaluates none e) : (e.resolve s c.enclosingClass).errors = [] := by
  rw [Expr.resolve_errors_iff]
  intro r hr
  rw [h.admitted_iff]
  exact ⟨hw.this p x none e r hl hev hr, hw.super p x none e r hl hev hr⟩

/-- The parameters of a function that declares no name twice. -/
theorem Scopes.Shows.params_clean {s : Scopes} {n : Nest} (h : s.Shows n) {f : FunctionDecl}
    (honce : f.DeclaresOnce) : ((s.push .empty).declareParams f.params).errors = [] :=
  Scopes.declareParams_errors (h.push Scope.Shows.empty) (List.nodup_append.1 honce).1 (by simp)

mutual

/-- In a program that keeps the rules, a statement whose name is new has no errors. -/
theorem Stmt.resolve_clean (hw : WellScoped known program) : ∀ {x : Stmt} {p : Site} {c : Context}
    {s : Scopes}, Lies program p x → s.At c known p → x.Shaped →
      (∀ name, x.declared = some name → p.Fresh name.lexeme) → (x.resolve c s).errors = []
  | .expression value, p, c, s, hl, h, _, _ => by
    simp only [Stmt.resolve, Checked.errors_bind, Checked.errors_pure, List.append_nil]
    exact hw.value_clean hl h (.expression value)
  | .print keyword value, p, c, s, hl, h, _, _ => by
    simp only [Stmt.resolve, Checked.errors_bind, Checked.errors_pure, List.append_nil]
    exact hw.value_clean hl h (.print keyword value)
  | .var name none, p, c, s, _, h, _, hfresh => by
    have hdeclare := h.declare_errors (hfresh name rfl)
    simp [Stmt.resolve, Expr.resolveOpt, hdeclare]
  | .var name (some value), p, c, s, hl, h, hx, hfresh => by
    simp only [Stmt.Shaped] at hx
    have hdeclare := h.declare_errors (hfresh name rfl)
    have hvalue : (value.resolve (s.declare name).value c.enclosingClass).errors = [] := by
      rw [Expr.resolve_errors_iff]
      intro r hr
      rw [h.initializer_iff hx.1 hdeclare]
      have hev := Stmt.Evaluates.initializer name value
      exact ⟨hw.this p _ _ _ r hl hev hr, hw.super p _ _ _ r hl hev hr,
        fun hlocal hkind hname => hw.initializers p name value r hl hlocal hr hkind hname⟩
    simp [Stmt.resolve, Expr.resolveOpt, hdeclare, hvalue]
  | .block body, p, c, s, hl, h, hx, _ => by
    simp only [Stmt.Shaped] at hx
    have hbody := Stmt.resolveAll_clean hw h.enterBlock hx
      (Site.takes_block.2 (hw.blocks p body hl)) (fun before x after hin => by
        subst hin
        exact .block hl)
    simp [Stmt.resolve, hbody]
  | .conditional condition thenBranch none, p, c, s, hl, h, hx, _ => by
    simp only [Stmt.Shaped] at hx
    have hcondition := hw.value_clean hl h (.condition condition thenBranch none)
    have hthen := Stmt.resolve_clean hw (.thenBranch hl) h hx.2.1 (by simp [hx.2.2])
    simp [Stmt.resolve, hcondition, hthen]
  | .conditional condition thenBranch (some elseBranch), p, c, s, hl, h, hx, _ => by
    simp only [Stmt.Shaped] at hx
    obtain ⟨-, ⟨hthenShaped, hthenNone⟩, helseShaped, helseNone⟩ := hx
    have hcondition := hw.value_clean hl h (.condition condition thenBranch (some elseBranch))
    have hthen := Stmt.resolve_clean hw (.thenBranch hl) h hthenShaped (by simp [hthenNone])
    have hafter := (h.resolve hthenShaped hthen).2
    rw [Site.after, hthenNone] at hafter
    have helse := Stmt.resolve_clean hw (.elseBranch hl) hafter helseShaped (by simp [helseNone])
    simp [Stmt.resolve, hcondition, hthen, helse]
  | .loop condition body, p, c, s, hl, h, hx, _ => by
    simp only [Stmt.Shaped] at hx
    have hcondition := hw.value_clean hl h (.loop condition body)
    have hbody := Stmt.resolve_clean hw (.loopBody hl) h hx.2.1 (by simp [hx.2.2])
    simp [Stmt.resolve, hcondition, hbody]
  | .function decl, p, c, s, hl, h, hx, hfresh => by
    have hdeclare := h.declare_errors (hfresh decl.name rfl)
    have hdeclared := (h.declare hdeclare).2
    have hparams := hdeclared.locals.params_clean (hw.functions p decl hl)
    have hdecl := FunctionDecl.resolve_clean hw (c := c) hx (hw.functions p decl hl) hparams
      (hdeclared.enterFunction hparams) (fun name params before x after hin => by
        subst hin
        exact .function hl)
    simp [Stmt.resolve, hdeclare, hdecl]
  | .ret keyword value, p, c, s, hl, h, _, _ => by
    have hinside := h.function.2 (hw.returns p keyword value hl)
    have hvalue : (Expr.resolveOpt s c.enclosingClass value).errors = [] := by
      cases value with
      | none => rfl
      | some value => simp [Expr.resolveOpt, hw.value_clean hl h (.ret keyword value)]
    simp [Stmt.resolve, hinside, hvalue]
  | .classDecl name superclass methods, p, c, s, hl, h, hx, hfresh => by
    have hdeclare := h.declare_errors (hfresh name rfl)
    rw [h.classDecl_errors_iff hx]
    refine ⟨hdeclare, ?_, ?_⟩
    · rintro above depth rfl
      exact hw.superclasses p name above depth methods hl
    · exact FunctionDecl.resolveAll_clean hw (h.declare hdeclare).2 (fun f hf => hx.methods f hf)
        (hw.methods p name superclass methods hl)
        (fun methodName params before x after hin => .method hl hin)

/-- A function that declares no name twice has no errors. -/
theorem FunctionDecl.resolve_clean (hw : WellScoped known program) : ∀ {f : FunctionDecl}
    {p : Site} {c : Context} {s : Scopes} {b : Body}, f.Shaped → f.DeclaresOnce →
      ((s.push .empty).declareParams f.params).errors = [] →
      ((s.push .empty).declareParams f.params).value.At { c with insideFunction := true } known
        (p.enter b f.params) →
      (∀ name params before x after, f = ⟨name, params, before ++ x :: after⟩ →
        Lies program ((p.enter b params).afterAll before) x) →
      (f.resolve c s).errors = []
  | ⟨name, params, body⟩, p, c, s, b, hx, honce, hparams, h, hl => by
    simp only [FunctionDecl.Shaped] at hx
    have hbody := Stmt.resolveAll_clean hw h hx.2.2 (Site.takes_function.2 honce)
      (fun before x after hin => by
        subst hin
        exact hl name params before x after rfl)
    rw [FunctionDecl.resolve_errors_iff]
    exact ⟨hparams, hbody⟩

/-- Statements that declare no name twice have no errors. -/
theorem Stmt.resolveAll_clean (hw : WellScoped known program) : ∀ {xs : List Stmt} {p : Site}
    {c : Context} {s : Scopes}, s.At c known p → Stmt.AllShaped xs →
      p.Takes (Stmt.declaredNames xs) →
      (∀ before x after, xs = before ++ x :: after → Lies program (p.afterAll before) x) →
      (Stmt.resolveAll c s xs).errors = []
  | [], _, _, _, _, _, _, _ => rfl
  | x :: xs, p, c, s, h, hshaped, htakes, hl => by
    simp only [Stmt.AllShaped] at hshaped
    have hfresh : ∀ name, x.declared = some name → p.Fresh name.lexeme := by
      intro name hname
      have hnames : Stmt.declaredNames (x :: xs) = name.lexeme :: Stmt.declaredNames xs := by
        simp [Stmt.declaredNames, hname]
      rw [hnames] at htakes
      exact htakes.fresh
    have hx := Stmt.resolve_clean hw (hl [] x xs rfl) h hshaped.1 hfresh
    rw [Stmt.declaredNames_cons, ← Site.takes_after] at htakes
    have hxs := Stmt.resolveAll_clean hw (h.resolve hshaped.1 hx).2 hshaped.2 htakes
      (fun before y after hin => by
        subst hin
        exact hl (x :: before) y after rfl)
    simp [Stmt.resolveAll, hx, hxs]

/-- Methods that declare no name twice have no errors. -/
theorem FunctionDecl.resolveAll_clean (hw : WellScoped known program) :
    ∀ {fs : List FunctionDecl} {p : Site} {c : Context} {s : Scopes} {superclass : Option Expr},
      s.At c known p → (∀ f ∈ fs, f.Shaped) → (∀ f ∈ fs, f.DeclaresOnce) →
      (∀ name params before x after, ⟨name, params, before ++ x :: after⟩ ∈ fs →
        Lies program ((p.enter (.method superclass) params).afterAll before) x) →
      ∀ f ∈ fs, (f.resolve (c.ofClass superclass) (s.ofClass superclass)).errors = []
  | [], _, _, _, _, _, _, _, _ => nofun
  | f :: fs, p, c, s, superclass, h, hshaped, honce, hl => by
    rw [List.forall_mem_cons] at hshaped honce
    have hparams := (h.locals.ofClass superclass).params_clean honce.1
    rw [List.forall_mem_cons]
    refine ⟨?_, FunctionDecl.resolveAll_clean hw h hshaped.2 honce.2
      fun name params before x after hin => hl name params before x after (.tail _ hin)⟩
    refine FunctionDecl.resolve_clean hw hshaped.1 honce.1 hparams (h.enterMethod hparams)
      fun name params before x after hin => ?_
    subst hin
    exact hl name params before x after (.head _)

end

end

/-! ## The verdict -/

/-- **The checker rejects exactly the ill-formed programs.** A parsed program has no errors, where
these global names are known, exactly when it keeps the rules of scope. -/
theorem resolve_errors_eq_nil_iff {source : String} {parsed : List Stmt} (known : List String)
    (hparse : Grammar.parse (Lexer.tokens (Lexer.scan source)) = .ok parsed) :
    (resolve known parsed).errors = [] ↔ WellScoped known parsed := by
  have hshaped := parse_shaped hparse
  constructor
  · exact WellScoped.of_errors_eq_nil hshaped
  · intro hw
    refine Stmt.resolveAll_clean hw .start hshaped (fun l hl => absurd hl (by simp [Site.start])) ?_
    rintro before x after rfl
    exact .top rfl

/-- The plain class inside the method leaves the method its `super`, and the local variable in its
own initializer means the global one, which has to be known. -/
theorem resolve_errors_eq_nil_iff_nested : ∃ parsed,
    Grammar.parse (Lexer.tokens (Lexer.scan
      "class A < B \x7b m() \x7b class C \x7b\x7d var x = x; super.m; \x7d \x7d")) = .ok parsed ∧
      WellScoped ["x"] parsed ∧ ¬ WellScoped [] parsed := by
  have hparse : Grammar.parse (Lexer.tokens (Lexer.scan
      "class A < B \x7b m() \x7b class C \x7b\x7d var x = x; super.m; \x7d \x7d")) = .ok
      [.classDecl ⟨.identifier, "A", 1⟩ (some (.variable ⟨.identifier, "B", 1⟩ none))
        [⟨⟨.identifier, "m", 1⟩, [],
          [.classDecl ⟨.identifier, "C", 1⟩ none [],
          .var ⟨.identifier, "x", 1⟩ (some (.variable ⟨.identifier, "x", 1⟩ none)),
          .expression
            (.super ⟨.keyword .superWord, "super", 1⟩ ⟨.identifier, "m", 1⟩ none)]⟩]] := by
    cbv
  refine ⟨_, hparse, (resolve_errors_eq_nil_iff ["x"] hparse).1 ?_, ?_⟩
  · cbv
  · rw [← resolve_errors_eq_nil_iff [] hparse]
    cbv
    intro h
    cases h

end Lox
