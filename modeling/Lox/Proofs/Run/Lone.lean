import Lox.Proofs.Run.Fuel

/-!
# Expressions by themselves

Where no function and no class has been declared, calls make instances at most. So every expression
has a value or stops at an error, with fuel for its size, and prints nothing (`evaluate_plain`).
-/

set_option autoImplicit false

namespace Lox

/-- Nothing has been declared or printed on the machine, and its output accepts everything. -/
structure Machine.Plain (m : Machine) : Prop where
  functions : m.functions = #[]
  classes : m.classes = #[]
  output : m.output = .unlimited

theorem Machine.start_plain (clock : Clock) : (Machine.start .unlimited clock).Plain :=
  ⟨rfl, rfl, rfl⟩

/-- Without classes there are no methods. -/
theorem Machine.Plain.findMethod? {m : Machine} (hm : m.Plain) (c : ClassId) (name : String) :
    m.findMethod? c name = none := by
  rw [Machine.findMethod?, hm.classes]
  rfl

/-- The run ends, and leaves a plain machine. -/
def Result.EndsPlain {α : Type} : Result α → Prop
  | .ok _ m => m.Plain
  | .error _ m => m.Plain
  | .outOfFuel => False

namespace Eval

variable {α β : Type} {m : Machine}

theorem plain_bind {x : Eval α} {f : α → Eval β} (hx : (x m).EndsPlain)
    (hf : ∀ a m, m.Plain → (f a m).EndsPlain) : ((x >>= f) m).EndsPlain := by
  show (Eval.bind x f m).EndsPlain
  unfold Eval.bind
  cases hr : x m with
  | ok a m' =>
    rw [hr] at hx
    exact hf a m' hx
  | error e m' =>
    rw [hr] at hx
    exact hx
  | outOfFuel =>
    rw [hr] at hx
    exact hx.elim

theorem ofExcept_plain (hm : m.Plain) (r : Except RuntimeError Value) :
    (ofExcept r m).EndsPlain := by
  cases r with
  | ok v => exact hm
  | error e => exact hm

theorem readVariable_plain (hm : m.Plain) (name : Token) (depth : Option Nat) :
    (readVariable name depth m).EndsPlain := by
  unfold readVariable
  repeat' split
  all_goals exact hm

theorem writeVariable_plain (hm : m.Plain) (name : Token) (depth : Option Nat) (value : Value) :
    (writeVariable name depth value m).EndsPlain := by
  unfold writeVariable
  repeat' split
  all_goals exact ⟨hm.functions, hm.classes, hm.output⟩

theorem boundMethod_plain (hm : m.Plain) (c : ClassId) (name : Token) (this : Value) :
    (boundMethod c name this m).EndsPlain := by
  unfold boundMethod
  rw [hm.findMethod?]
  exact hm

theorem getProperty_plain (hm : m.Plain) (i : InstanceId) (name : Token) :
    (getProperty i name m).EndsPlain := by
  unfold getProperty
  split
  · exact hm
  split
  · exact hm
  · exact boundMethod_plain hm _ _ _

theorem superMethod_plain (hm : m.Plain) (keyword method : Token) (depth : Option Nat) :
    (superMethod keyword method depth m).EndsPlain := by
  unfold superMethod
  split
  · exact hm
  split
  · split
    · exact hm
    split
    · exact boundMethod_plain hm _ _ _
    · exact hm
  · exact hm

/-- No value is a function object. -/
theorem callable?_plain (hm : m.Plain) (callee : Value) (f : Function) (arity : Nat) :
    callable? m callee ≠ some (.function f, arity) := by
  cases callee <;> simp [callable?, hm.functions]

/-- A call runs a native function, or makes an instance of a class without an initializer. -/
theorem call_plain (hm : m.Plain) (fuel : Nat) (callee : Value) (paren : Token)
    (arguments : List Value) : (call (fuel + 1) callee paren arguments m).EndsPlain := by
  rw [call]
  show (Eval.bind _ _ m).EndsPlain
  unfold Eval.bind checkCall
  cases hc : callable? m callee with
  | none => exact hm
  | some found =>
    obtain ⟨f, arity⟩ := found
    by_cases hcount : arguments.length = arity
    · simp only [hcount, if_true]
      cases f with
      | native f =>
        cases f
        exact Machine.Plain.mk hm.functions hm.classes hm.output
      | function f => exact absurd hc (callable?_plain hm callee f arity)
      | construct c =>
        have hm' : Machine.Plain { m with instances := m.instances.push ⟨c, .empty⟩ } :=
          ⟨hm.functions, hm.classes, hm.output⟩
        refine plain_bind (x := newInstance c) hm' fun this m hm => ?_
        have hnone : initializerOf c m = .ok none m := by
          rw [initializerOf, hm.findMethod?]
        show (Eval.bind (initializerOf c) _ m).EndsPlain
        unfold Eval.bind
        rw [hnone]
        exact hm
    · simp only [hcount, if_false]
      exact hm

end Eval

open Eval

theorem Expr.sizeOf_pos (e : Expr) : 0 < sizeOf e := by
  cases e <;> simp +arith

mutual

/-- An expression ends, with fuel for its size. -/
theorem evaluate_plain : ∀ (fuel : Nat) (e : Expr) (m : Machine), sizeOf e ≤ fuel → m.Plain →
    (evaluate fuel e m).EndsPlain
  | 0, e, _, hsize, _ => absurd hsize (Nat.not_le.2 e.sizeOf_pos)
  | fuel + 1, e, m, hsize, hm => by
    cases e with
    | literal value => exact hm
    | grouping inner =>
      simp only [Expr.grouping.sizeOf_spec] at hsize
      exact evaluate_plain fuel inner m (by omega) hm
    | unary operator right =>
      simp only [Expr.unary.sizeOf_spec] at hsize
      simp only [evaluate]
      exact plain_bind (evaluate_plain fuel right m (by omega) hm) fun _ _ hm =>
        ofExcept_plain hm _
    | binary left operator right =>
      simp only [Expr.binary.sizeOf_spec] at hsize
      simp only [evaluate]
      refine plain_bind (evaluate_plain fuel left m (by omega) hm) fun _ m hm => ?_
      exact plain_bind (evaluate_plain fuel right m (by omega) hm) fun _ _ hm =>
        ofExcept_plain hm _
    | logical left operator right =>
      simp only [Expr.logical.sizeOf_spec] at hsize
      simp only [evaluate]
      refine plain_bind (evaluate_plain fuel left m (by omega) hm) fun _ m hm => ?_
      split
      · exact hm
      · exact evaluate_plain fuel right m (by omega) hm
    | «variable» name depth => exact readVariable_plain hm name depth
    | assign name value depth =>
      simp only [Expr.assign.sizeOf_spec] at hsize
      simp only [evaluate]
      refine plain_bind (evaluate_plain fuel value m (by omega) hm) fun _ m hm => ?_
      exact plain_bind (writeVariable_plain hm name depth _) fun _ _ hm => hm
    | call callee paren arguments =>
      simp only [Expr.call.sizeOf_spec] at hsize
      simp only [evaluate]
      refine plain_bind (evaluate_plain fuel callee m (by omega) hm) fun _ m hm => ?_
      refine plain_bind (evaluateAll_plain fuel arguments m (by omega) hm) fun _ m hm => ?_
      obtain ⟨rest, rfl⟩ : ∃ rest, fuel = rest + 1 :=
        ⟨fuel - 1, by have := Expr.sizeOf_pos callee; omega⟩
      exact call_plain hm rest _ paren _
    | get object name =>
      simp only [Expr.get.sizeOf_spec] at hsize
      simp only [evaluate]
      refine plain_bind (evaluate_plain fuel object m (by omega) hm) fun v m hm => ?_
      cases v with
      | instanceRef i => exact getProperty_plain hm i name
      | _ => exact hm
    | set object name value =>
      simp only [Expr.set.sizeOf_spec] at hsize
      simp only [evaluate]
      refine plain_bind (evaluate_plain fuel object m (by omega) hm) fun v m hm => ?_
      cases v with
      | instanceRef i =>
        refine plain_bind (evaluate_plain fuel value m (by omega) hm) fun _ m hm => ?_
        exact plain_bind (x := setField i name.lexeme _)
          ⟨hm.functions, hm.classes, hm.output⟩ fun _ _ hm => hm
      | _ => exact hm
    | this keyword depth => exact readVariable_plain hm keyword depth
    | super keyword method depth => exact superMethod_plain hm keyword method depth

theorem evaluateAll_plain : ∀ (fuel : Nat) (es : List Expr) (m : Machine), sizeOf es ≤ fuel →
    m.Plain → (evaluateAll fuel es m).EndsPlain
  | 0, es, _, hsize, _ => by cases es <;> simp at hsize
  | _ + 1, [], _, _, hm => hm
  | fuel + 1, e :: es, m, hsize, hm => by
    simp only [List.cons.sizeOf_spec] at hsize
    simp only [evaluateAll]
    refine plain_bind (evaluate_plain fuel e m (by omega) hm) fun _ m hm => ?_
    exact plain_bind (evaluateAll_plain fuel es m (by omega) hm) fun _ _ hm => hm

end

end Lox
