import Lox.Proofs.Scope.At

/-!
# Reads of a variable's name in its own initializer

In the initializer of a local variable its name means an outer variable. Where no outer scope
declares it, the checker leaves the slot of such a read empty and lets it pass when a global
variable of the name is known. `ownReads` lists the names of these reads, wherever they are in a
statement, also in the bodies of functions. At each of them the name was known: before the program,
or through a declaration at the top up to the statement that the read is in (`resolve_covered`).
-/

set_option autoImplicit false

namespace Lox

/-! ## The reads -/

/-- The name that is read as a variable without a slot. -/
def Reference.globalRead? (r : Reference) : Option String :=
  if r.kind = .variable ∧ r.depth = none then some r.token.lexeme else none

/-- The names that an expression reads as variables without a slot. -/
def Expr.globalReads (e : Expr) : List String :=
  e.references.filterMap Reference.globalRead?

mutual

/-- The names that the initializers of variables of the same names read without a slot. -/
def Stmt.ownReads : Stmt → List String
  | .var name (some value) => value.globalReads.filter (· == name.lexeme)
  | .block body => Stmt.ownReadsAll body
  | .conditional _ thenBranch none => thenBranch.ownReads
  | .conditional _ thenBranch (some elseBranch) => thenBranch.ownReads ++ elseBranch.ownReads
  | .loop _ body => body.ownReads
  | .function decl => decl.ownReads
  | .classDecl _ _ methods => FunctionDecl.ownReadsAll methods
  | _ => []

def FunctionDecl.ownReads : FunctionDecl → List String
  | ⟨_, _, body⟩ => Stmt.ownReadsAll body

def Stmt.ownReadsAll : List Stmt → List String
  | [] => []
  | s :: ss => s.ownReads ++ Stmt.ownReadsAll ss

def FunctionDecl.ownReadsAll : List FunctionDecl → List String
  | [] => []
  | f :: fs => f.ownReads ++ FunctionDecl.ownReadsAll fs

end

theorem Expr.globalReads_subset : ∀ {es : List Expr} {e : Expr}, e ∈ es →
    e.globalReads ⊆ (Expr.referencesAll es).filterMap Reference.globalRead?
  | e' :: es, e, he => by
    rw [Expr.referencesAll, List.filterMap_append]
    rcases List.mem_cons.1 he with rfl | he
    · exact List.subset_append_left _ _
    · exact List.subset_append_of_subset_right _ (Expr.globalReads_subset he)

theorem FunctionDecl.ownReads_eq (f : FunctionDecl) : f.ownReads = Stmt.ownReadsAll f.body := by
  cases f
  rfl

theorem FunctionDecl.ownReads_subset : ∀ {fs : List FunctionDecl} {f : FunctionDecl}, f ∈ fs →
    f.ownReads ⊆ FunctionDecl.ownReadsAll fs
  | g :: fs, f, hf => by
    rcases List.mem_cons.1 hf with rfl | hf
    · exact List.subset_append_left _ _
    · exact List.subset_append_of_subset_right _ (FunctionDecl.ownReads_subset hf)

/-- The own reads of each statement of a program are of names that are known by the end of it. -/
def Stmt.Covered : List String → List Stmt → Prop
  | _, [] => True
  | known, s :: ss =>
    s.ownReads ⊆ Stmt.declaredNames [s] ++ known ∧
      Stmt.Covered (Stmt.declaredNames [s] ++ known) ss

/-! ## Expressions -/

section

variable {s : Scopes} {c : ClassContext} {x : String}

theorem Reference.mem_globalRead? {r : Reference} :
    r.globalRead? = some x ↔ r.kind = .variable ∧ r.depth = none ∧ r.token.lexeme = x := by
  unfold Reference.globalRead?
  split
  · rename_i h
    simp [h.1, h.2]
  · rename_i h
    constructor
    · intro hx
      cases hx
    · rintro ⟨hkind, hdepth, -⟩
      exact absurd ⟨hkind, hdepth⟩ h

/-- A pending name whose slot stays empty without an error is a known global name. -/
theorem Scopes.readSlot_pending {name : Token} {slot : Option Nat}
    (hpending : s.isPending name.lexeme = true) (he : (s.readSlot name slot).errors = [])
    (hslot : (s.readSlot name slot).value = none) : name.lexeme ∈ s.globals := by
  have hadmitted := (s.readSlot_errors_iff name slot).1 he hpending
  refine hadmitted.resolve_left fun houter => ?_
  obtain ⟨d, hd⟩ := Option.isSome_iff_exists.1 houter
  simp [Scopes.readSlot, hpending, hd] at hslot

mutual

theorem Expr.resolve_globalReads (hpending : s.isPending x = true) : ∀ e : Expr,
    (e.resolve s c).errors = [] → x ∈ (e.resolve s c).value.globalReads → x ∈ s.globals
  | .literal _, _, hx => absurd hx List.not_mem_nil
  | .grouping inner, he, hx => by
    simp only [Expr.resolve, Checked.errors_bind, Checked.errors_pure, List.append_nil] at he
    exact Expr.resolve_globalReads hpending inner he hx
  | .unary _ right, he, hx => by
    simp only [Expr.resolve, Checked.errors_bind, Checked.errors_pure, List.append_nil] at he
    exact Expr.resolve_globalReads hpending right he hx
  | .binary left _ right, he, hx | .logical left _ right, he, hx => by
    simp only [Expr.resolve, Checked.errors_bind, Checked.errors_pure, List.append_nil,
      List.append_eq_nil_iff] at he
    simp only [Expr.resolve, Checked.value_bind, Checked.value_pure, Expr.globalReads,
      Expr.references, List.filterMap_append, List.mem_append] at hx
    rcases hx with hx | hx
    · exact Expr.resolve_globalReads hpending left he.1 hx
    · exact Expr.resolve_globalReads hpending right he.2 hx
  | .variable name depth, he, hx => by
    simp only [Expr.resolve, Checked.errors_bind, Checked.errors_pure, List.append_nil] at he
    simp only [Expr.resolve, Checked.value_bind, Checked.value_pure, Expr.globalReads,
      Expr.references, List.mem_filterMap, List.mem_singleton, exists_eq_left,
      Reference.mem_globalRead?] at hx
    obtain ⟨-, hslot, rfl⟩ := hx
    exact Scopes.readSlot_pending hpending he hslot
  | .assign name value depth, he, hx => by
    simp only [Expr.resolve, Checked.errors_bind, Checked.errors_pure, List.append_nil] at he
    exact Expr.resolve_globalReads hpending value he hx
  | .call callee _ arguments, he, hx => by
    simp only [Expr.resolve, Checked.errors_bind, Checked.errors_pure, List.append_nil,
      List.append_eq_nil_iff] at he
    simp only [Expr.resolve, Checked.value_bind, Checked.value_pure, Expr.globalReads,
      Expr.references, List.filterMap_append, List.mem_append] at hx
    rcases hx with hx | hx
    · exact Expr.resolve_globalReads hpending callee he.1 hx
    · exact Expr.resolveAll_globalReads hpending arguments he.2 hx
  | .get object _, he, hx => by
    simp only [Expr.resolve, Checked.errors_bind, Checked.errors_pure, List.append_nil] at he
    exact Expr.resolve_globalReads hpending object he hx
  | .set object _ value, he, hx => by
    simp only [Expr.resolve, Checked.errors_bind, Checked.errors_pure, List.append_nil,
      List.append_eq_nil_iff] at he
    simp only [Expr.resolve, Checked.value_bind, Checked.value_pure, Expr.globalReads,
      Expr.references, List.filterMap_append, List.mem_append] at hx
    rcases hx with hx | hx
    · exact Expr.resolve_globalReads hpending object he.2 hx
    · exact Expr.resolve_globalReads hpending value he.1 hx
  | .this _ _, _, hx => by
    cases c <;> exact absurd hx (by simp [Expr.resolve, Expr.globalReads, Expr.references,
      Reference.globalRead?])
  | .super _ _ _, _, hx => by
    cases c <;> exact absurd hx (by simp [Expr.resolve, Expr.globalReads, Expr.references,
      Reference.globalRead?])

theorem Expr.resolveAll_globalReads (hpending : s.isPending x = true) : ∀ es : List Expr,
    (Expr.resolveAll s c es).errors = [] →
      x ∈ (Expr.referencesAll (Expr.resolveAll s c es).value).filterMap Reference.globalRead? →
        x ∈ s.globals
  | [], _, hx => absurd hx List.not_mem_nil
  | e :: es, he, hx => by
    simp only [Expr.resolveAll, Checked.errors_bind, Checked.errors_pure, List.append_nil,
      List.append_eq_nil_iff] at he
    simp only [Expr.resolveAll, Checked.value_bind, Checked.value_pure, Expr.referencesAll,
      List.filterMap_append, List.mem_append] at hx
    rcases hx with hx | hx
    · exact Expr.resolve_globalReads hpending e he.1 hx
    · exact Expr.resolveAll_globalReads hpending es he.2 hx

end

end

/-! ## Statements -/

section

variable {s : Scopes} {c : Context} {y : String}

/-- A local variable is pending in its initializer. -/
theorem Scopes.isPending_declare_self {name : Token} (hlocal : s.locals ≠ [])
    (he : (s.declare name).errors = []) :
    (s.declare name).value.isPending name.lexeme = true := by
  obtain ⟨locals, globals⟩ := s
  cases locals with
  | nil => exact absurd rfl hlocal
  | cons scope outer =>
    by_cases hmem : scope.contains name.lexeme = true
    · simp [Scopes.declare, hmem] at he
    · simp [Scopes.declare, hmem, Scopes.isPending, Bindings.get?_insert]

/-- What a declaration adds to the known global names. -/
theorem Scopes.mem_globals_declare {name : Token}
    (hy : y ∈ ((s.declare name).value.define name).globals) :
    y ∈ s.globals ∨ s.locals = [] ∧ y = name.lexeme := by
  by_cases hlocal : s.locals = []
  · obtain ⟨locals, globals⟩ := s
    cases hlocal
    have hmem : y ∈ globals.insert name.lexeme := hy
    rw [List.mem_insert_iff] at hmem
    exact hmem.symm.imp_right fun h => ⟨rfl, h⟩
  · obtain ⟨hdeclare, hglobals⟩ := Scopes.local_declare hlocal name
    rw [(Scopes.local_define hdeclare name).2, hglobals] at hy
    exact .inl hy

/-- A statement in a local scope leaves the known global names as they are. -/
theorem Stmt.resolve_local {x : Stmt} (hlocal : s.locals ≠ []) (hx : x.Shaped) :
    (x.resolve c s).value.2.locals ≠ [] ∧ (x.resolve c s).value.2.globals = s.globals := by
  rw [Stmt.resolve_state c hx]
  cases x.declared with
  | none => exact ⟨hlocal, rfl⟩
  | some name =>
    obtain ⟨hdeclare, hglobals⟩ := Scopes.local_declare hlocal name
    obtain ⟨hdefine, hglobals'⟩ := Scopes.local_define hdeclare name
    exact ⟨hdefine, hglobals'.trans hglobals⟩

mutual

/-- An own read is of a known global name, or of the name of the statement itself, at the top. -/
theorem Stmt.resolve_ownReads : ∀ {x : Stmt} {c : Context} {s : Scopes}, x.Shaped →
    (x.resolve c s).errors = [] → y ∈ (x.resolve c s).value.1.ownReads →
      y ∈ s.globals ∨ s.locals = [] ∧ y ∈ Stmt.declaredNames [x]
  | .expression _, _, _, _, _, hy | .print _ _, _, _, _, _, hy
  | .var _ none, _, _, _, _, hy => absurd hy List.not_mem_nil
  | .ret _ _, c, s, _, _, hy => by
    by_cases hinside : c.insideFunction = true <;>
      simp [Stmt.resolve, hinside, Stmt.ownReads] at hy
  | .var name (some value), c, s, _, he, hy => by
    simp only [Stmt.resolve, Expr.resolveOpt, Checked.errors_bind, Checked.errors_pure,
      List.append_nil, List.append_eq_nil_iff] at he
    simp only [Stmt.resolve, Expr.resolveOpt, Checked.value_bind, Checked.value_pure,
      Stmt.ownReads, List.mem_filter, beq_iff_eq] at hy
    obtain ⟨hread, rfl⟩ := hy
    by_cases hlocal : s.locals = []
    · exact .inr ⟨hlocal, List.mem_singleton_self _⟩
    · have hpending := Scopes.isPending_declare_self hlocal he.1
      have hknown := Expr.resolve_globalReads hpending value he.2 hread
      rw [(Scopes.local_declare hlocal name).2] at hknown
      exact .inl hknown
  | .block body, c, s, hx, he, hy => by
    simp only [Stmt.Shaped] at hx
    simp only [Stmt.resolve, Checked.errors_bind, Checked.errors_pure, List.append_nil] at he
    exact .inl (Stmt.resolveAll_ownReads (s := s.push .empty) (List.cons_ne_nil _ _) hx he hy)
  | .conditional _ thenBranch none, c, s, hx, he, hy => by
    simp only [Stmt.Shaped] at hx
    simp only [Stmt.resolve, Checked.errors_bind, Checked.errors_pure, List.append_nil,
      List.append_eq_nil_iff] at he
    have hthen := Stmt.resolve_ownReads hx.2.1 he.2 hy
    rw [Stmt.declaredNames_singleton_of_none hx.2.2] at hthen
    exact .inl (hthen.resolve_right fun h => List.not_mem_nil h.2)
  | .conditional _ thenBranch (some elseBranch), c, s, hx, he, hy => by
    simp only [Stmt.Shaped] at hx
    obtain ⟨-, ⟨hthenShaped, hthenNone⟩, helseShaped, helseNone⟩ := hx
    simp only [Stmt.resolve, Checked.errors_bind, Checked.errors_pure, List.append_nil,
      List.append_eq_nil_iff] at he
    have hstate := Stmt.resolve_state c (s := s) hthenShaped
    simp only [hthenNone] at hstate
    simp only [Stmt.resolve, Checked.value_bind, Checked.value_pure, Stmt.ownReads,
      List.mem_append] at hy
    rcases hy with hy | hy
    · have hthen := Stmt.resolve_ownReads hthenShaped he.2.1 hy
      rw [Stmt.declaredNames_singleton_of_none hthenNone] at hthen
      exact .inl (hthen.resolve_right fun h => List.not_mem_nil h.2)
    · have helse := Stmt.resolve_ownReads helseShaped he.2.2 hy
      rw [Stmt.declaredNames_singleton_of_none helseNone, hstate] at helse
      exact .inl (helse.resolve_right fun h => List.not_mem_nil h.2)
  | .loop _ body, c, s, hx, he, hy => by
    simp only [Stmt.Shaped] at hx
    simp only [Stmt.resolve, Checked.errors_bind, Checked.errors_pure, List.append_nil,
      List.append_eq_nil_iff] at he
    have hbody := Stmt.resolve_ownReads hx.2.1 he.2 hy
    rw [Stmt.declaredNames_singleton_of_none hx.2.2] at hbody
    exact .inl (hbody.resolve_right fun h => List.not_mem_nil h.2)
  | .function decl, c, s, hx, he, hy => by
    simp only [Stmt.resolve, Checked.errors_bind, Checked.errors_pure, List.append_nil,
      List.append_eq_nil_iff] at he
    have hknown := FunctionDecl.resolve_ownReads hx he.2 hy
    refine (Scopes.mem_globals_declare hknown).imp_right fun h => ⟨h.1, ?_⟩
    rw [h.2]
    exact List.mem_singleton_self _
  | .classDecl name none methods, c, s, hx, he, hy => by
    simp only [Stmt.Shaped] at hx
    simp only [Stmt.resolve, Checked.errors_bind, Checked.errors_pure, List.append_nil,
      List.append_eq_nil_iff] at he
    have hknown := FunctionDecl.resolveAll_ownReads hx.2 he.2 hy
    refine (Scopes.mem_globals_declare hknown).imp_right fun h => ⟨h.1, ?_⟩
    rw [h.2]
    exact List.mem_singleton_self _
  | .classDecl name (some superclass) methods, c, s, hx, he, hy => by
    simp only [Stmt.Shaped] at hx
    simp only [Stmt.resolve, Checked.errors_bind, Checked.errors_pure, List.append_nil,
      List.append_eq_nil_iff] at he
    have hknown := FunctionDecl.resolveAll_ownReads hx.2.2 he.2.2.2 hy
    refine (Scopes.mem_globals_declare hknown).imp_right fun h => ⟨h.1, ?_⟩
    rw [h.2]
    exact List.mem_singleton_self _

theorem FunctionDecl.resolve_ownReads : ∀ {f : FunctionDecl} {c : Context} {s : Scopes}, f.Shaped →
    (f.resolve c s).errors = [] → y ∈ (f.resolve c s).value.ownReads → y ∈ s.globals
  | ⟨_, params, body⟩, c, s, hf, he, hy => by
    simp only [FunctionDecl.Shaped] at hf
    simp only [FunctionDecl.resolve, Checked.errors_bind, Checked.errors_pure, List.append_nil,
      List.append_eq_nil_iff] at he
    obtain ⟨hlocal, hglobals⟩ :=
      Scopes.local_declareParams params (s := s.push .empty) (List.cons_ne_nil _ _)
    have hknown := Stmt.resolveAll_ownReads hlocal hf.2.2 he.2 hy
    rw [hglobals] at hknown
    exact hknown

/-- In a local scope the known global names stay the same from one statement to the next. -/
theorem Stmt.resolveAll_ownReads : ∀ {xs : List Stmt} {c : Context} {s : Scopes}, s.locals ≠ [] →
    Stmt.AllShaped xs → (Stmt.resolveAll c s xs).errors = [] →
      y ∈ Stmt.ownReadsAll (Stmt.resolveAll c s xs).value.1 → y ∈ s.globals
  | [], _, _, _, _, _, hy => absurd hy List.not_mem_nil
  | x :: xs, c, s, hlocal, hxs, he, hy => by
    simp only [Stmt.AllShaped] at hxs
    simp only [Stmt.resolveAll, Checked.errors_bind, Checked.errors_pure, List.append_nil,
      List.append_eq_nil_iff] at he
    simp only [Stmt.resolveAll, Checked.value_bind, Checked.value_pure, Stmt.ownReadsAll,
      List.mem_append] at hy
    rcases hy with hy | hy
    · exact (Stmt.resolve_ownReads hxs.1 he.1 hy).resolve_right fun h => hlocal h.1
    · obtain ⟨hlocal', hglobals⟩ := Stmt.resolve_local (c := c) hlocal hxs.1
      have hknown := Stmt.resolveAll_ownReads hlocal' hxs.2 he.2 hy
      rw [hglobals] at hknown
      exact hknown

theorem FunctionDecl.resolveAll_ownReads : ∀ {fs : List FunctionDecl} {c : Context} {s : Scopes},
    FunctionDecl.AllShaped fs → (FunctionDecl.resolveAll c s fs).errors = [] →
      y ∈ FunctionDecl.ownReadsAll (FunctionDecl.resolveAll c s fs).value → y ∈ s.globals
  | [], _, _, _, _, hy => absurd hy List.not_mem_nil
  | f :: fs, c, s, hfs, he, hy => by
    simp only [FunctionDecl.AllShaped] at hfs
    simp only [FunctionDecl.resolveAll, Checked.errors_bind, Checked.errors_pure, List.append_nil,
      List.append_eq_nil_iff] at he
    simp only [FunctionDecl.resolveAll, Checked.value_bind, Checked.value_pure,
      FunctionDecl.ownReadsAll, List.mem_append] at hy
    rcases hy with hy | hy
    · exact FunctionDecl.resolve_ownReads hfs.1 he.1 hy
    · exact FunctionDecl.resolveAll_ownReads hfs.2 he.2 hy

end

/-- At the top a statement adds the name that it declares to the known ones. -/
theorem Stmt.mem_globals_resolve {x : Stmt} (hx : x.Shaped)
    (hy : y ∈ (x.resolve c s).value.2.globals) : y ∈ s.globals ∨ y ∈ Stmt.declaredNames [x] := by
  rw [Stmt.resolve_state c hx] at hy
  cases hd : x.declared with
  | none =>
    rw [hd] at hy
    exact .inl hy
  | some name =>
    rw [hd] at hy
    refine (Scopes.mem_globals_declare hy).imp_right fun h => ?_
    rw [h.2]
    simp [Stmt.declaredNames, hd]

/-- At the top, statement by statement. -/
theorem Stmt.resolveAll_covered : ∀ {xs : List Stmt} {c : Context} {s : Scopes}
    {known : List String}, s.locals = [] → s.globals ⊆ known → Stmt.AllShaped xs →
      (Stmt.resolveAll c s xs).errors = [] → Stmt.Covered known (Stmt.resolveAll c s xs).value.1
  | [], _, _, _, _, _, _, _ => trivial
  | x :: xs, c, s, known, htop, hknown, hxs, he => by
    simp only [Stmt.AllShaped] at hxs
    simp only [Stmt.resolveAll, Checked.errors_bind, Checked.errors_pure, List.append_nil,
      List.append_eq_nil_iff] at he
    have hnames : Stmt.declaredNames [(x.resolve c s).value.1] = Stmt.declaredNames [x] := by
      simp only [Stmt.declaredNames, List.filterMap_cons, Stmt.resolve_declared]
    simp only [Stmt.resolveAll, Checked.value_bind, Checked.value_pure, Stmt.Covered, hnames]
    constructor
    · intro y hy
      rw [List.mem_append]
      rcases Stmt.resolve_ownReads hxs.1 he.1 hy with hglobal | hown
      · exact .inr (hknown hglobal)
      · exact .inl hown.2
    · refine Stmt.resolveAll_covered (Stmt.resolve_adds x c htop).top (fun y hy => ?_) hxs.2 he.2
      rw [List.mem_append]
      exact (Stmt.mem_globals_resolve hxs.1 hy).symm.imp_right fun h => hknown h

/-- **Own reads are covered** in a parsed program without errors. -/
theorem resolve_covered {globals : List String} {parsed : List Stmt}
    (hshaped : Stmt.AllShaped parsed) (he : (resolve globals parsed).errors = []) :
    Stmt.Covered globals (resolve globals parsed).value.1 :=
  Stmt.resolveAll_covered (s := .top globals) rfl (List.Subset.refl globals) hshaped he

end

end Lox
