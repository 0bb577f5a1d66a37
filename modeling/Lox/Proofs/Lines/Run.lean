import Lox.Proofs.Lines.Machine

/-!
# Programs on other lines

The seven functions of the evaluator do on other lines what they do on the lines they are given.
The induction is on the fuel.
-/

set_option autoImplicit false

namespace Lox

open Eval

variable {ρ : Nat → Nat}

/-- A step whose value has no lines. -/
theorem Eval.Relabels.step {α β β' : Type} {h : β → β'} {x y : Eval α} {f : α → Eval β}
    {f' : α → Eval β'} (hx : Relabels ρ id x y) (hf : ∀ a, Relabels ρ h (f a) (f' a)) :
    Relabels ρ h (x >>= f) (y >>= f') :=
  hx.bind hf

mutual

theorem evaluate_relabel : ∀ (fuel : Nat) (e : Expr),
    Relabels ρ id (evaluate fuel e) (evaluate fuel (e.relabel ρ))
  | 0, _ => .outOfFuel
  | fuel + 1, e => by
    cases e with
    | literal value => exact .pure id value.value
    | grouping inner => exact evaluate_relabel fuel inner
    | unary operator right =>
      rw [Expr.relabel, evaluate, evaluate]
      exact (evaluate_relabel fuel right).step fun v => .ofExcept (Value.unary_relabel operator v)
    | binary left operator right =>
      rw [Expr.relabel, evaluate, evaluate]
      refine (evaluate_relabel fuel left).step fun v => ?_
      refine (evaluate_relabel fuel right).step fun u => ?_
      exact .ofExcept (Value.binary_relabel operator v u)
    | logical left operator right =>
      rw [Expr.relabel, evaluate, evaluate]
      refine (evaluate_relabel fuel left).step fun v => ?_
      rw [Token.relabel_kind]
      split
      · exact .pure id v
      · exact evaluate_relabel fuel right
    | «variable» name depth => exact .readVariable name depth
    | assign name value depth =>
      rw [Expr.relabel, evaluate, evaluate]
      refine (evaluate_relabel fuel value).step fun v => ?_
      exact (Relabels.writeVariable name depth v).step fun _ => .pure id v
    | call callee paren arguments =>
      rw [Expr.relabel, evaluate, evaluate]
      refine (evaluate_relabel fuel callee).step fun v => ?_
      refine (evaluateAll_relabel fuel arguments).step fun vs => ?_
      exact call_relabel fuel v paren vs
    | get object name =>
      rw [Expr.relabel, evaluate, evaluate]
      refine (evaluate_relabel fuel object).step fun v => ?_
      cases v with
      | instanceRef i => exact .getProperty i name
      | _ => exact .fault name _
    | set object name value =>
      rw [Expr.relabel, evaluate, evaluate]
      refine (evaluate_relabel fuel object).step fun v => ?_
      cases v with
      | instanceRef i =>
        refine (evaluate_relabel fuel value).step fun u => ?_
        exact (Relabels.setField i name.lexeme u).step fun _ => .pure id u
      | _ => exact .fault name _
    | this keyword depth => exact .readVariable keyword depth
    | super keyword method depth => exact .superMethod keyword method depth

theorem evaluateAll_relabel : ∀ (fuel : Nat) (es : List Expr),
    Relabels ρ id (evaluateAll fuel es) (evaluateAll fuel (Expr.relabelAll ρ es))
  | 0, _ => .outOfFuel
  | _ + 1, [] => .pure id []
  | fuel + 1, e :: es => by
    rw [Expr.relabelAll, evaluateAll, evaluateAll]
    refine (evaluate_relabel fuel e).step fun v => ?_
    exact (evaluateAll_relabel fuel es).step fun vs => .pure id (v :: vs)

theorem call_relabel : ∀ (fuel : Nat) (callee : Value) (paren : Token) (arguments : List Value),
    Relabels ρ id (call fuel callee paren arguments)
      (call fuel callee (paren.relabel ρ) arguments)
  | 0, _, _, _ => .outOfFuel
  | fuel + 1, callee, paren, arguments => by
    rw [call, call]
    refine (Relabels.checkCall callee paren arguments.length).bind fun f => ?_
    cases f with
    | native f => exact .callNative f
    | function f => exact invoke_relabel fuel f arguments
    | construct c =>
      refine (Relabels.newInstance c).step fun this => ?_
      refine (Relabels.initializerOf c).bind fun initializer => ?_
      cases initializer with
      | none => exact .pure id this
      | some initializer =>
        refine (Relabels.bindMethod initializer this).bind fun f => ?_
        exact (invoke_relabel fuel f arguments).step fun _ => .pure id this

theorem invoke_relabel : ∀ (fuel : Nat) (f : Function) (arguments : List Value),
    Relabels ρ id (invoke fuel f arguments) (invoke fuel (f.relabel ρ) arguments)
  | 0, _, _ => .outOfFuel
  | fuel + 1, ⟨decl, closure, isInitializer⟩, arguments => by
    have hbody : Relabels ρ (Flow.relabel ρ) _ _ := executeAll_relabel fuel decl.body
    rw [invoke, invoke]
    simp only [Function.relabel, FunctionDecl.relabel_params, FunctionDecl.relabel_body,
      map_relabel_lexeme]
    refine (Relabels.newFrame _ _).step fun frame => ?_
    refine (Relabels.within frame hbody).bind fun flow => ?_
    cases isInitializer with
    | true => exact .boundInstance ⟨decl, closure, true⟩
    | false =>
      cases flow with
      | next => exact .pure id Value.nil
      | returned value keyword => exact .pure id value

theorem execute_relabel : ∀ (fuel : Nat) (s : Stmt),
    Relabels ρ (Flow.relabel ρ) (execute fuel s) (execute fuel (s.relabel ρ))
  | 0, _ => .outOfFuel
  | fuel + 1, s => by
    match s with
    | .expression value =>
      rw [Stmt.relabel, execute, execute]
      exact (evaluate_relabel fuel value).step fun _ => .pure (Flow.relabel ρ) .next
    | .print keyword value =>
      rw [Stmt.relabel, execute, execute]
      refine (evaluate_relabel fuel value).step fun v => ?_
      exact (Relabels.printLine keyword v).step fun _ => .pure (Flow.relabel ρ) .next
    | .var name none =>
      exact (Relabels.define name.lexeme .nil).step fun _ => .pure (Flow.relabel ρ) .next
    | .var name (some value) =>
      rw [Stmt.relabel, Expr.relabelOpt, execute, execute]
      refine (evaluate_relabel fuel value).step fun v => ?_
      exact (Relabels.define name.lexeme v).step fun _ => .pure (Flow.relabel ρ) .next
    | .block body =>
      rw [Stmt.relabel, execute, execute]
      refine Relabels.currentFrame.step fun current => ?_
      refine (Relabels.newFrame current []).step fun frame => ?_
      exact .within frame (executeAll_relabel fuel body)
    | .conditional condition thenBranch none =>
      rw [Stmt.relabel, execute, execute]
      refine (evaluate_relabel fuel condition).step fun v => ?_
      split
      · exact execute_relabel fuel thenBranch
      · exact .pure (Flow.relabel ρ) .next
    | .conditional condition thenBranch (some elseBranch) =>
      rw [Stmt.relabel, execute, execute]
      refine (evaluate_relabel fuel condition).step fun v => ?_
      split
      · exact execute_relabel fuel thenBranch
      · exact execute_relabel fuel elseBranch
    | .loop condition body => exact executeLoop_relabel fuel condition body
    | .function decl =>
      rw [Stmt.relabel, execute, execute]
      refine Relabels.currentFrame.step fun current => ?_
      refine (Relabels.newFunction ⟨decl, current, false⟩).step fun f => ?_
      rw [FunctionDecl.relabel_name]
      exact (Relabels.define decl.name.lexeme f).step fun _ => .pure (Flow.relabel ρ) .next
    | .ret keyword none => exact .pure (Flow.relabel ρ) (.returned .nil keyword)
    | .ret keyword (some value) =>
      rw [Stmt.relabel, Expr.relabelOpt, execute, execute]
      exact (evaluate_relabel fuel value).step fun v =>
        .pure (Flow.relabel ρ) (.returned v keyword)
    | .classDecl name none methods =>
      rw [Stmt.relabel, Expr.relabelOpt, execute, execute]
      refine (Relabels.define name.lexeme .nil).step fun _ => ?_
      refine Relabels.currentFrame.step fun current => ?_
      rw [methodTable_relabel]
      refine (Relabels.newClass ⟨name.lexeme, none, methodTable current methods⟩).step fun c => ?_
      exact (Relabels.assignVisible name c).step fun _ => .pure (Flow.relabel ρ) .next
    | .classDecl name (some superclass) methods =>
      rw [Stmt.relabel, Expr.relabelOpt, execute, execute]
      refine (evaluate_relabel fuel superclass).step fun v => ?_
      cases v with
      | classRef above =>
        refine (Relabels.define name.lexeme .nil).step fun _ => ?_
        refine Relabels.currentFrame.step fun current => ?_
        refine (Relabels.newFrame current [("super", .classRef above)]).step fun closure => ?_
        rw [methodTable_relabel]
        refine (Relabels.newClass
          ⟨name.lexeme, some above, methodTable closure methods⟩).step fun c => ?_
        exact (Relabels.assignVisible name c).step fun _ => .pure (Flow.relabel ρ) .next
      | _ =>
        dsimp only
        rw [superclassToken_relabel]
        exact .fault _ _

theorem executeLoop_relabel : ∀ (fuel : Nat) (condition : Expr) (body : Stmt),
    Relabels ρ (Flow.relabel ρ) (executeLoop fuel condition body)
      (executeLoop fuel (condition.relabel ρ) (body.relabel ρ))
  | 0, _, _ => .outOfFuel
  | fuel + 1, condition, body => by
    rw [executeLoop, executeLoop]
    refine (evaluate_relabel fuel condition).step fun v => ?_
    split
    · refine (execute_relabel fuel body).bind fun flow => ?_
      cases flow with
      | next => exact executeLoop_relabel fuel condition body
      | returned value keyword => exact .pure (Flow.relabel ρ) (.returned value keyword)
    · exact .pure (Flow.relabel ρ) .next

theorem executeAll_relabel : ∀ (fuel : Nat) (ss : List Stmt),
    Relabels ρ (Flow.relabel ρ) (executeAll fuel ss) (executeAll fuel (Stmt.relabelAll ρ ss))
  | 0, _ => .outOfFuel
  | _ + 1, [] => .pure (Flow.relabel ρ) .next
  | fuel + 1, s :: ss => by
    rw [Stmt.relabelAll, executeAll, executeAll]
    refine (execute_relabel fuel s).bind fun flow => ?_
    cases flow with
    | next => exact executeAll_relabel fuel ss
    | returned value keyword => exact .pure (Flow.relabel ρ) (.returned value keyword)

end

/-- **Lines have no part in a run**: a program on other lines does the same on the machine with
those lines, and an error is on the image of its line. -/
theorem interpret_relabel (ρ : Nat → Nat) (fuel : Nat) (program : List Stmt) :
    Relabels ρ id (interpret fuel program) (interpret fuel (Stmt.relabelAll ρ program)) := by
  unfold interpret
  refine (executeAll_relabel fuel program).bind fun flow => ?_
  cases flow with
  | next => exact .pure id ()
  | returned value keyword => exact .fault keyword _

end Lox
