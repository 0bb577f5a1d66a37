import Lox.Proofs.Lexical.Follow

/-!
# A repeated run follows the first

What runs without the clock does in mirrored worlds what `Follows` says. The induction is on the
fuel, with one theorem for each function of the evaluator.
-/

set_option autoImplicit false

namespace Lox.Lexical

/-- Statements end alike. -/
inductive TwinFlow (k : Counts) : Flow → Flow → Prop
  | next {visible visible' : Names} (h : TwinNames k visible visible') :
      TwinFlow k (.next visible) (.next visible')
  | returned {v v' : Value} (h : Twin k v v') (keyword : Token) :
      TwinFlow k (.returned v keyword) (.returned v' keyword)

/-- The parameters with twin arguments. -/
theorem zip_twin {k : Counts} {vs vs' : List Value} (h : List.Forall₂ (Twin k) vs vs') :
    ∀ names : List String, List.Forall₂ (fun e e' => e'.1 = e.1 ∧ Twin k e.2 e'.2)
      (names.zip vs) (names.zip vs') := by
  induction h with
  | nil => intro names; cases names <;> exact .nil
  | cons hv _ ih =>
    intro names
    cases names with
    | nil => exact .nil
    | cons name names => exact .cons ⟨rfl, hv⟩ (ih names)

/-- Methods without the clock that see the same names. -/
theorem methodTable_twin {k : Counts} {visible visible' : Names}
    (hvisible : TwinNames k visible visible') {methods : List FunctionDecl}
    (hm : Clockless (FunctionDecl.referencesAll methods)) :
    Paired (TwinClosure k) (methodTable visible methods) (methodTable visible' methods) :=
  foldl_insert_rel (fun d hd => ⟨rfl, rfl, hvisible, hm.methods d hd⟩) Paired.empty

variable {o : Output} {w : World}

mutual

theorem evaluate_follows : ∀ (fuel : Nat) {a b : World} {visible visible' : Names}
    {pending : Option String} {e : Expr}, Mirrors o w a b →
      TwinNames w.counts visible visible' → Clockless e.references →
      Follows o w (Twin w.counts) (Lexical.evaluate fuel visible pending e a)
        (Lexical.evaluate fuel visible' pending e b)
  | 0, _, _, _, _, _, _, _, _, _ => .outOfFuel
  | fuel + 1, a, b, visible, visible', pending, e, h, hvisible, he => by
    cases e with
    | literal value => exact .pure h (.literal value)
    | grouping inner => exact evaluate_follows fuel h hvisible he
    | unary operator right =>
      simp only [Expr.references] at he
      rw [Lexical.evaluate, Lexical.evaluate]
      exact (evaluate_follows fuel h hvisible he).bind fun h hv => .ofExcept h (hv.unary operator)
    | binary left operator right =>
      rw [Lexical.evaluate, Lexical.evaluate]
      simp only [Expr.references, clockless_append] at he
      refine (evaluate_follows fuel h hvisible he.1).bind fun h hv => ?_
      refine (evaluate_follows fuel h hvisible he.2).bind fun h hu => ?_
      exact .ofExcept h (hv.binary operator hu)
    | logical left operator right =>
      rw [Lexical.evaluate, Lexical.evaluate]
      simp only [Expr.references, clockless_append] at he
      refine (evaluate_follows fuel h hvisible he.1).bind fun h hv => ?_
      rw [hv.isTruthy]
      split
      · exact .pure h hv
      · exact evaluate_follows fuel h hvisible he.2
    | «variable» name depth =>
      simp only [Expr.references, clockless_cons] at he
      exact h.read hvisible he.1
    | assign name value depth =>
      rw [Lexical.evaluate, Lexical.evaluate]
      simp only [Expr.references, clockless_cons] at he
      refine (evaluate_follows fuel h hvisible he.2).bind fun h hv => ?_
      exact (h.write hvisible pending name hv).bind fun h _ => .pure h hv
    | call callee paren arguments =>
      rw [Lexical.evaluate, Lexical.evaluate]
      simp only [Expr.references, clockless_append] at he
      refine (evaluate_follows fuel h hvisible he.1).bind fun h hv => ?_
      refine (evaluateAll_follows fuel h hvisible he.2).bind fun h hvs => ?_
      exact call_follows fuel h hv hvs
    | get object name =>
      simp only [Expr.references] at he
      rw [Lexical.evaluate, Lexical.evaluate]
      refine (evaluate_follows fuel h hvisible he).bind fun h hv => ?_
      cases hv with
      | «instance» i => exact h.getProperty i name
      | _ => exact .fault h name _
    | set object name value =>
      rw [Lexical.evaluate, Lexical.evaluate]
      simp only [Expr.references, clockless_append] at he
      refine (evaluate_follows fuel h hvisible he.1).bind fun h hv => ?_
      cases hv with
      | «instance» i =>
        refine (evaluate_follows fuel h hvisible he.2).bind fun h hu => ?_
        exact (h.setField i name.lexeme hu).bind fun h _ => .pure h hu
      | _ => exact .fault h name _
    | this keyword depth =>
      simp only [Expr.references, clockless_cons] at he
      exact h.read hvisible he.1
    | super keyword method depth => exact h.superMethod hvisible keyword method

theorem evaluateAll_follows : ∀ (fuel : Nat) {a b : World} {visible visible' : Names}
    {pending : Option String} {es : List Expr}, Mirrors o w a b →
      TwinNames w.counts visible visible' → Clockless (Expr.referencesAll es) →
      Follows o w (List.Forall₂ (Twin w.counts)) (Lexical.evaluateAll fuel visible pending es a)
        (Lexical.evaluateAll fuel visible' pending es b)
  | 0, _, _, _, _, _, _, _, _, _ => .outOfFuel
  | fuel + 1, a, b, visible, visible', pending, [], h, hvisible, he => .pure h .nil
  | fuel + 1, a, b, visible, visible', pending, e :: es, h, hvisible, he => by
    rw [Lexical.evaluateAll, Lexical.evaluateAll]
    simp only [Expr.referencesAll, clockless_append] at he
    refine (evaluate_follows fuel h hvisible he.1).bind fun h hv => ?_
    exact (evaluateAll_follows fuel h hvisible he.2).bind fun h hvs => .pure h (.cons hv hvs)

theorem call_follows : ∀ (fuel : Nat) {a b : World} {v v' : Value} {paren : Token}
    {vs vs' : List Value}, Mirrors o w a b → Twin w.counts v v' →
      List.Forall₂ (Twin w.counts) vs vs' →
      Follows o w (Twin w.counts) (Lexical.call fuel v paren vs a)
        (Lexical.call fuel v' paren vs' b)
  | 0, _, _, _, _, _, _, _, _, _, _ => .outOfFuel
  | fuel + 1, a, b, v, v', paren, vs, vs', h, hv, hvs => by
    rw [Lexical.call, Lexical.call, ← hvs.length_eq]
    refine (h.checkCall hv paren vs.length).bind fun h hf => ?_
    cases hf with
    | closure hf => exact invoke_follows fuel h hf hvs
    | construct c =>
      refine (h.newInstance c).bind fun h hthis => ?_
      refine (h.initializerOf c).bind fun h hinit => ?_
      cases hinit with
      | none => exact .pure h hthis
      | some hf =>
        refine (h.bindMethod hf hthis).bind fun h hf => ?_
        exact (invoke_follows fuel h hf hvs).bind fun h _ => .pure h hthis

theorem invoke_follows : ∀ (fuel : Nat) {a b : World} {f f' : Closure} {vs vs' : List Value},
    Mirrors o w a b → TwinClosure w.counts f f' → List.Forall₂ (Twin w.counts) vs vs' →
      Follows o w (Twin w.counts) (Lexical.invoke fuel f vs a) (Lexical.invoke fuel f' vs' b)
  | 0, _, _, _, _, _, _, _, _, _ => .outOfFuel
  | fuel + 1, a, b, f, f', vs, vs', h, hf, hvs => by
    have hbody : Clockless (Stmt.referencesAll f.decl.body) := by
      have hbody := hf.clockless
      cases hd : f.decl
      rwa [hd] at hbody
    rw [Lexical.invoke, Lexical.invoke, hf.decl, hf.init]
    refine (h.allocateAll hf.visible (zip_twin hvs _)).bind fun h hvisible => ?_
    refine (executeAll_follows fuel h hvisible hbody).bind fun h hflow => ?_
    split
    · exact h.boundInstance hf
    · cases hflow with
      | next => exact .pure h .nil
      | returned hv => exact .pure h hv

theorem execute_follows : ∀ (fuel : Nat) {a b : World} {atTop : Bool} {visible visible' : Names}
    {s : Stmt}, Mirrors o w a b → TwinNames w.counts visible visible' →
      Clockless s.references →
      Follows o w (TwinFlow w.counts) (Lexical.execute fuel atTop visible s a)
        (Lexical.execute fuel atTop visible' s b)
  | 0, _, _, _, _, _, _, _, _, _ => .outOfFuel
  | fuel + 1, a, b, atTop, visible, visible', s, h, hvisible, hs => by
    match s, hs with
    | .expression value, hs =>
      rw [Lexical.execute, Lexical.execute]
      exact (evaluate_follows fuel h hvisible hs).bind fun h _ => .pure h (.next hvisible)
    | .print keyword value, hs =>
      rw [Lexical.execute, Lexical.execute]
      refine (evaluate_follows fuel h hvisible hs).bind fun h hv => ?_
      exact (h.printLine keyword hv).bind fun h _ => .pure h (.next hvisible)
    | .var name none, hs =>
      rw [Lexical.execute, Lexical.execute]
      exact (h.declare atTop hvisible name.lexeme .nil).bind fun h hnames => .pure h (.next hnames)
    | .var name (some e), hs =>
      rw [Lexical.execute, Lexical.execute]
      refine (evaluate_follows fuel h hvisible hs).bind fun h hv => ?_
      exact (h.declare atTop hvisible name.lexeme hv).bind fun h hnames => .pure h (.next hnames)
    | .block body, hs =>
      rw [Lexical.execute, Lexical.execute]
      refine (executeAll_follows fuel h hvisible hs).bind fun h hflow => ?_
      cases hflow with
      | next => exact .pure h (.next hvisible)
      | returned hv keyword => exact .pure h (.returned hv keyword)
    | .conditional condition thenBranch none, hs =>
      rw [Lexical.execute, Lexical.execute]
      simp only [Stmt.references, clockless_append] at hs
      refine (evaluate_follows fuel h hvisible hs.1).bind fun h hv => ?_
      rw [hv.isTruthy]
      split
      · exact execute_follows fuel h hvisible hs.2
      · exact .pure h (.next hvisible)
    | .conditional condition thenBranch (some elseBranch), hs =>
      rw [Lexical.execute, Lexical.execute]
      simp only [Stmt.references, clockless_append] at hs
      refine (evaluate_follows fuel h hvisible hs.1.1).bind fun h hv => ?_
      rw [hv.isTruthy]
      split
      · exact execute_follows fuel h hvisible hs.1.2
      · exact execute_follows fuel h hvisible hs.2
    | .loop condition body, hs =>
      simp only [Stmt.references, clockless_append] at hs
      exact executeLoop_follows fuel h hvisible hs.1 hs.2
    | .function decl, hs =>
      rw [Lexical.execute, Lexical.execute]
      refine (h.declare atTop hvisible decl.name.lexeme .nil).bind fun {u v _ _} h hnames => ?_
      have hclosure : TwinClosure w.counts ⟨decl, u, false⟩ ⟨decl, v, false⟩ :=
        ⟨rfl, rfl, hnames, hs⟩
      refine (h.newFunction hclosure).bind fun h hf => ?_
      exact (h.write hnames none decl.name hf).bind fun h _ => .pure h (.next hnames)
    | .ret keyword none, hs => exact .pure h (.returned .nil keyword)
    | .ret keyword (some e), hs =>
      rw [Lexical.execute, Lexical.execute]
      exact (evaluate_follows fuel h hvisible hs).bind fun h hv => .pure h (.returned hv keyword)
    | .classDecl name none methods, hs =>
      rw [Lexical.execute, Lexical.execute]
      simp only [Stmt.references, Expr.referencesOpt, List.nil_append] at hs
      refine (h.declare atTop hvisible name.lexeme .nil).bind fun {u v _ _} h hnames => ?_
      have hclass : TwinClass w.counts ⟨name.lexeme, none, methodTable u methods⟩
          ⟨name.lexeme, none, methodTable v methods⟩ :=
        ⟨rfl, rfl, methodTable_twin hnames hs⟩
      refine (h.newClass hclass).bind fun h hc => ?_
      exact (h.write hnames none name hc).bind fun h _ => .pure h (.next hnames)
    | .classDecl name (some superclass) methods, hs =>
      rw [Lexical.execute, Lexical.execute]
      simp only [Stmt.references, Expr.referencesOpt, clockless_append] at hs
      refine (evaluate_follows fuel h hvisible hs.1).bind fun h hv => ?_
      cases hv with
      | «class» above =>
        refine (h.declare atTop hvisible name.lexeme .nil).bind fun h hnames => ?_
        refine (h.allocate hnames "super" (.class above)).bind fun {u v _ _} h hinner => ?_
        have hclass : TwinClass w.counts ⟨name.lexeme, some above, methodTable u methods⟩
            ⟨name.lexeme, some (above + w.counts.classes), methodTable v methods⟩ :=
          ⟨rfl, rfl, methodTable_twin hinner hs.2⟩
        refine (h.newClass hclass).bind fun h hc => ?_
        exact (h.write hnames none name hc).bind fun h _ => .pure h (.next hnames)
      | _ => exact .fault h _ _

theorem executeLoop_follows : ∀ (fuel : Nat) {a b : World} {atTop : Bool}
    {visible visible' : Names} {condition : Expr} {body : Stmt}, Mirrors o w a b →
      TwinNames w.counts visible visible' → Clockless condition.references →
      Clockless body.references →
      Follows o w (TwinFlow w.counts) (Lexical.executeLoop fuel atTop visible condition body a)
        (Lexical.executeLoop fuel atTop visible' condition body b)
  | 0, _, _, _, _, _, _, _, _, _, _, _ => .outOfFuel
  | fuel + 1, a, b, atTop, visible, visible', condition, body, h, hvisible, hc, hb => by
    rw [Lexical.executeLoop, Lexical.executeLoop]
    refine (evaluate_follows fuel h hvisible hc).bind fun h hv => ?_
    rw [hv.isTruthy]
    split
    · refine (execute_follows fuel h hvisible hb).bind fun h hflow => ?_
      cases hflow with
      | next => exact executeLoop_follows fuel h hvisible hc hb
      | returned hv keyword => exact .pure h (.returned hv keyword)
    · exact .pure h (.next hvisible)

theorem executeAll_follows : ∀ (fuel : Nat) {a b : World} {atTop : Bool}
    {visible visible' : Names} {ss : List Stmt}, Mirrors o w a b →
      TwinNames w.counts visible visible' → Clockless (Stmt.referencesAll ss) →
      Follows o w (TwinFlow w.counts) (Lexical.executeAll fuel atTop visible ss a)
        (Lexical.executeAll fuel atTop visible' ss b)
  | 0, _, _, _, _, _, _, _, _, _ => .outOfFuel
  | fuel + 1, a, b, atTop, visible, visible', [], h, hvisible, _ => .pure h (.next hvisible)
  | fuel + 1, a, b, atTop, visible, visible', s :: ss, h, hvisible, hs => by
    rw [Lexical.executeAll, Lexical.executeAll]
    simp only [Stmt.referencesAll, clockless_append] at hs
    refine (execute_follows fuel h hvisible hs.1).bind fun h hflow => ?_
    cases hflow with
    | next hnames => exact executeAll_follows fuel h hnames hs.2
    | returned hv keyword => exact .pure h (.returned hv keyword)

end

end Lox.Lexical
