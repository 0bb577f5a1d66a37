import Lox.Proofs.Lexical.Twin
import Lox.Run.Eval

/-!
# Machines with the same objects

Two machines are `Parallel` when their objects have the same numbers, and differ in their functions
and methods only. Then a method is found in both or in none, values are printed the same where
functions keep their names, and calls take the same number of arguments where functions keep their
parameters.
-/

set_option autoImplicit false

namespace Lox

/-- The same class, with related methods. -/
structure Class.Parallel (G : Function → Function → Prop) (c c' : Class) : Prop where
  name : c'.name = c.name
  superclass : c'.superclass = c.superclass
  methods : Lexical.Paired G c.methods c'.methods

/-- The same is called; functions are related. -/
inductive Eval.Callable.Parallel (F : Function → Function → Prop) :
    Eval.Callable → Eval.Callable → Prop
  | native (f : Native) : Eval.Callable.Parallel F (.native f) (.native f)
  | function {f f' : Function} (h : F f f') : Eval.Callable.Parallel F (.function f) (.function f')
  | construct (c : ClassId) : Eval.Callable.Parallel F (.construct c) (.construct c)

/-- The same objects in both machines, with functions related by `F` and methods by `G`. -/
structure Machine.Parallel (F G : Function → Function → Prop) (m m' : Machine) : Prop where
  functions : Lexical.Shifted F 0 m.functions m'.functions
  classes : Lexical.Shifted (Class.Parallel G) 0 m.classes m'.classes
  instances : m'.instances = m.instances

variable {F F' G G' : Function → Function → Prop} {m m' : Machine}

theorem Class.Parallel.mono {c c' : Class} (h : c.Parallel G c')
    (hG : ∀ {f f'}, G f f' → G' f f') : c.Parallel G' c' := by
  refine ⟨h.name, h.superclass, fun x => ?_⟩
  have hx := h.methods x
  generalize c.methods.get? x = f at hx ⊢
  generalize c'.methods.get? x = f' at hx ⊢
  cases hx with
  | none => exact .none
  | some hf => exact .some (hG hf)

theorem Class.Parallel.self {c : Class} (h : ∀ x f, c.methods.get? x = some f → G f f) :
    c.Parallel G c := by
  refine ⟨rfl, rfl, fun x => ?_⟩
  have hx := h x
  generalize c.methods.get? x = f at hx ⊢
  cases f with
  | none => exact .none
  | some f => exact .some (hx f rfl)

namespace Machine.Parallel

theorem mono (h : m.Parallel F G m') (hF : ∀ {f f'}, F f f' → F' f f')
    (hG : ∀ {f f'}, G f f' → G' f f') : m.Parallel F' G' m' :=
  ⟨h.functions.mono fun _ hf => hF hf, h.classes.mono fun _ hc => hc.mono hG, h.instances⟩

theorem self (hF : ∀ {i : Nat} {f}, m.functions[i]? = some f → F f f)
    (hG : ∀ {c : Nat} {info x f}, m.classes[c]? = some info → info.methods.get? x = some f →
      G f f) : m.Parallel F G m where
  functions := by
    refine ⟨rfl, fun i => ?_⟩
    rw [Nat.add_zero]
    cases hf : m.functions[i]? with
    | none => exact .none
    | some f => exact .some (hF hf)
  classes := by
    refine ⟨rfl, fun i => ?_⟩
    rw [Nat.add_zero]
    cases hc : m.classes[i]? with
    | none => exact .none
    | some c => exact .some (.self fun _ _ hf => hG hc hf)
  instances := rfl

theorem function? (h : m.Parallel F G m') (i : FunctionId) :
    Option.Rel F m.functions[i]? m'.functions[i]? :=
  h.functions.get i

theorem class? (h : m.Parallel F G m') (c : ClassId) :
    Option.Rel (Class.Parallel G) m.classes[c]? m'.classes[c]? :=
  h.classes.get c

/-- A method is found in both machines or in none. -/
theorem findMethod? (h : m.Parallel F G m') (c : ClassId) (name : String) :
    Option.Rel G (m.findMethod? c name) (m'.findMethod? c name) := by
  induction c using Nat.strongRecOn with
  | ind c ih =>
    rw [Machine.findMethod?, Machine.findMethod?]
    have hclass := h.class? c
    generalize m.classes[c]? = info at hclass ⊢
    generalize m'.classes[c]? = info' at hclass ⊢
    cases hclass with
    | none => exact .none
    | @some info info' hclass =>
      have hmethod := hclass.methods name
      dsimp only
      rw [hclass.superclass]
      generalize info.methods.get? name = f at hmethod ⊢
      generalize info'.methods.get? name = f' at hmethod ⊢
      cases hmethod with
      | some hf => exact .some hf
      | none =>
        cases info.superclass with
        | none => exact .none
        | some above =>
          dsimp only
          by_cases hlt : above < c
          · rw [if_pos hlt, if_pos hlt]
            exact ih above hlt
          · rw [if_neg hlt, if_neg hlt]
            exact .none

theorem className (h : m.Parallel F G m') (c : ClassId) : m'.className c = m.className c := by
  have hclass := h.class? c
  unfold Machine.className
  generalize m.classes[c]? = info at hclass ⊢
  generalize m'.classes[c]? = info' at hclass ⊢
  cases hclass with
  | none => rfl
  | some hclass => exact hclass.name

theorem pieces (h : m.Parallel F G m') (hname : ∀ {f f'}, F f f' → f'.decl.name = f.decl.name)
    (v : Value) : m'.pieces v = m.pieces v := by
  cases v with
  | bool b => cases b <;> rfl
  | functionRef i =>
    have hf := h.function? i
    simp only [Machine.pieces]
    generalize m.functions[i]? = f at hf ⊢
    generalize m'.functions[i]? = f' at hf ⊢
    cases hf with
    | none => rfl
    | some hf => simp only [Option.map_some, hname hf]
  | classRef c => simp only [Machine.pieces, h.className]
  | instanceRef i => simp only [Machine.pieces, h.instances, h.className]
  | _ => rfl

theorem callable? (h : m.Parallel F G m')
    (hf : ∀ {f f'}, F f f' → f'.decl.params.length = f.decl.params.length)
    (hg : ∀ {f f'}, G f f' → f'.decl.params.length = f.decl.params.length) (v : Value) :
    Option.Rel (fun f f' => f.1.Parallel F f'.1 ∧ f'.2 = f.2) (Eval.callable? m v)
      (Eval.callable? m' v) := by
  cases v with
  | native f => exact .some ⟨.native f, rfl⟩
  | functionRef i =>
    have hi := h.function? i
    simp only [Eval.callable?]
    generalize m.functions[i]? = f at hi ⊢
    generalize m'.functions[i]? = f' at hi ⊢
    cases hi with
    | none => exact .none
    | some hi => exact .some ⟨.function hi, hf hi⟩
  | classRef c =>
    have hc := h.findMethod? c initializerName
    refine .some ⟨.construct c, ?_⟩
    generalize m.findMethod? c initializerName = f at hc ⊢
    generalize m'.findMethod? c initializerName = f' at hc ⊢
    cases hc with
    | none => rfl
    | some hc => simp only [Option.map_some, hg hc]
  | _ => exact .none

end Machine.Parallel
end Lox
