import Lox.Proofs.Lexical.Declarations
import Lox.Proofs.Run.Output
import Lox.Proofs.Scope.Names

/-!
# A run and its repetition

When a program runs a second time in a world, its objects get other numbers, by a fixed offset, and
it finds the globals that the first run left. `Mirrors o w a b` says how far the two have to agree
for the second run to go on like the first: `a` is a world in the first run, which started with the
output `o`, and `b` one in the second, which started from `w`. The globals of `a` are also in `b`,
with twin values; those that only `b` has come from `w`. The clock is the one variable for which the
values need not be twins, so what runs has to be `Clockless`.
-/

set_option autoImplicit false

namespace Lox

/-! ## Programs without the clock -/

/-- None of the slots is for the clock. -/
def Clockless (references : List Reference) : Prop :=
  ∀ r ∈ references, r.token.lexeme ≠ Native.clock.name

@[simp] theorem clockless_cons {r : Reference} {rs : List Reference} :
    Clockless (r :: rs) ↔ r.token.lexeme ≠ Native.clock.name ∧ Clockless rs :=
  List.forall_mem_cons

@[simp] theorem clockless_append {rs rs' : List Reference} :
    Clockless (rs ++ rs') ↔ Clockless rs ∧ Clockless rs' :=
  List.forall_mem_append

theorem Clockless.methods {methods : List FunctionDecl}
    (h : Clockless (FunctionDecl.referencesAll methods)) :
    ∀ d ∈ methods, Clockless d.references := by
  induction methods with
  | nil => exact nofun
  | cons d methods ih =>
    rw [FunctionDecl.referencesAll, clockless_append] at h
    exact List.forall_mem_cons.2 ⟨h.1, ih h.2⟩

namespace Lexical

/-! ## Tables and maps -/

section Shifted

variable {α β : Type} {R : α → β → Prop} {n : Nat} {xs : Array α} {ys : Array β}

/-- From the entry with a number on, the second table has entries related to those of the first. -/
structure Shifted (R : α → β → Prop) (n : Nat) (xs : Array α) (ys : Array β) : Prop where
  size : ys.size = xs.size + n
  get : ∀ i : Nat, Option.Rel R xs[i]? ys[i + n]?

theorem Shifted.start (ys : Array β) : Shifted R ys.size #[] ys where
  size := (Nat.zero_add _).symm
  get := by
    intro i
    rw [Array.getElem?_eq_none (Nat.zero_le i), Array.getElem?_eq_none (Nat.le_add_left ..)]
    exact .none

theorem Shifted.self {S : α → α → Prop} (h : ∀ x, S x x) : Shifted S 0 xs xs where
  size := rfl
  get := by
    intro i
    rw [Nat.add_zero]
    cases xs[i]? with
    | none => exact .none
    | some x => exact .some (h x)

theorem Shifted.push (h : Shifted R n xs ys) {x : α} {y : β} (hxy : R x y) :
    Shifted R n (xs.push x) (ys.push y) where
  size := by
    rw [Array.size_push, Array.size_push, h.size]
    omega
  get := by
    intro i
    rw [Array.getElem?_push, Array.getElem?_push, h.size]
    by_cases hi : i = xs.size
    · rw [if_pos hi, if_pos (by omega)]
      exact .some hxy
    · rw [if_neg hi, if_neg (by omega)]
      exact h.get i

theorem Shifted.set (h : Shifted R n xs ys) (i : Nat) {x : α} {y : β} (hxy : R x y) :
    Shifted R n (xs.setIfInBounds i x) (ys.setIfInBounds (i + n) y) where
  size := by
    rw [Array.size_setIfInBounds, Array.size_setIfInBounds, h.size]
  get := by
    intro j
    rw [Array.getElem?_setIfInBounds, Array.getElem?_setIfInBounds, h.size]
    by_cases hj : i = j
    · subst hj
      rw [if_pos rfl, if_pos rfl]
      by_cases hi : i < xs.size
      · rw [if_pos hi, if_pos (by omega)]
        exact .some hxy
      · rw [if_neg hi, if_neg (by omega)]
        exact .none
    · rw [if_neg hj, if_neg (by omega)]
      exact h.get j

theorem Shifted.modify (h : Shifted R n xs ys) (i : Nat) {f : α → α} {g : β → β}
    (hfg : ∀ {x y}, R x y → R (f x) (g y)) :
    Shifted R n (xs.modify i f) (ys.modify (i + n) g) where
  size := by
    rw [Array.size_modify, Array.size_modify, h.size]
  get := by
    intro j
    have hj := h.get j
    rw [Array.getElem?_modify, Array.getElem?_modify]
    by_cases hij : i = j
    · rw [if_pos hij, if_pos (by omega)]
      generalize xs[j]? = x at hj ⊢
      generalize ys[j + n]? = y at hj ⊢
      cases hj with
      | none => exact .none
      | some hxy => exact .some (hfg hxy)
    · rw [if_neg hij, if_neg (by omega)]
      exact hj

theorem Shifted.mono {R' : α → β → Prop} (h : Shifted R n xs ys)
    (hR : ∀ {i : Nat} {x : α} {y : β}, xs[i]? = some x → R x y → R' x y) :
    Shifted R' n xs ys where
  size := h.size
  get := by
    intro i
    have hi := h.get i
    have hx := @hR i
    generalize xs[i]? = x at hi hx ⊢
    generalize ys[i + n]? = y at hi ⊢
    cases hi with
    | none => exact .none
    | some hxy => exact .some (hx rfl hxy)

/-- The same names, with related values. -/
def Paired (R : α → β → Prop) (b : Bindings α) (b' : Bindings β) : Prop :=
  ∀ x, Option.Rel R (b.get? x) (b'.get? x)

theorem Paired.empty : Paired R .empty .empty :=
  fun _ => .none

theorem Paired.insert {b : Bindings α} {b' : Bindings β} (h : Paired R b b') (name : String)
    {x : α} {y : β} (hxy : R x y) : Paired R (b.insert name x) (b'.insert name y) := by
  intro other
  rw [Bindings.get?_insert, Bindings.get?_insert]
  split
  · exact .some hxy
  · exact h other

end Shifted

/-! ## Twins -/

/-- How many objects of each kind a world has. -/
structure Counts where
  store : Nat
  functions : Nat
  classes : Nat
  instances : Nat

/-- The numbers that the next objects of a world get. -/
def World.counts (w : World) : Counts :=
  ⟨w.store.size, w.functions.size, w.classes.size, w.instances.size⟩

variable (k : Counts)

/-- A value of the first run and the value in its place in the second. No value is native, since
only the clock is. -/
inductive Twin : Value → Value → Prop
  | nil : Twin .nil .nil
  | bool (b : Bool) : Twin (.bool b) (.bool b)
  | number (x : Float) : Twin (.number x) (.number x)
  | string (s : String) : Twin (.string s) (.string s)
  | function (f : FunctionId) : Twin (.functionRef f) (.functionRef (f + k.functions))
  | class (c : ClassId) : Twin (.classRef c) (.classRef (c + k.classes))
  | instance (i : InstanceId) : Twin (.instanceRef i) (.instanceRef (i + k.instances))

/-- The same names at a place, with other locations. -/
abbrev TwinNames : Names → Names → Prop :=
  Paired fun l l' => l' = l + k.store

/-- One declaration, closed over the same names. -/
structure TwinClosure (f f' : Closure) : Prop where
  decl : f'.decl = f.decl
  init : f'.isInitializer = f.isInitializer
  visible : TwinNames k f.visible f'.visible
  clockless : Clockless f.decl.references

/-- Classes with the same methods. -/
structure TwinClass (c c' : Class) : Prop where
  name : c'.name = c.name
  superclass : c'.superclass = c.superclass.map (· + k.classes)
  methods : Paired (TwinClosure k) c.methods c'.methods

/-- Instances with the same fields. -/
structure TwinInstance (i i' : Instance) : Prop where
  ofClass : i'.ofClass = i.ofClass + k.classes
  fields : Paired (Twin k) i.fields i'.fields

/-- How far a world `a` of the first run, which started with the output `o`, and a world `b` of the
second, which started from `w`, agree. -/
structure Mirrors (o : Output) (w a b : World) : Prop where
  globals : ∀ {x v}, a.globals.get? x = some v →
    ∃ v', b.globals.get? x = some v' ∧ (x ≠ Native.clock.name → Twin w.counts v v')
  left : ∀ {x}, a.globals.get? x = none → (b.globals.get? x).isSome →
    (w.globals.get? x).isSome
  store : Shifted (Twin w.counts) w.counts.store a.store b.store
  functions : Shifted (TwinClosure w.counts) w.counts.functions a.functions b.functions
  classes : Shifted (TwinClass w.counts) w.counts.classes a.classes b.classes
  instances : Shifted (TwinInstance w.counts) w.counts.instances a.instances b.instances
  output : ∃ bytes, a.output = o.printed bytes ∧ b.output = w.output.printed bytes ∧
    (bytes ≠ .empty → w.output.isOpen w.output.written = true)

variable {k}

theorem Twin.isTruthy {v v' : Value} (h : Twin k v v') : v'.isTruthy = v.isTruthy := by
  cases h <;> rfl

theorem Twin.literal (value : Literal) : Twin k value.value value.value := by
  cases value <;> constructor

theorem Twin.equals {v v' u u' : Value} (h : Twin k v v') (hu : Twin k u u') :
    v'.equals u' = v.equals u := by
  cases h <;> cases hu <;> simp [Value.equals]

/-! ## Operators -/

/-- The same error, or related values. -/
inductive SameResult (R : Value → Value → Prop) :
    Except RuntimeError Value → Except RuntimeError Value → Prop
  | ok {v v' : Value} (h : R v v') : SameResult R (.ok v) (.ok v')
  | error (e : RuntimeError) : SameResult R (.error e) (.error e)

theorem Twin.unary (operator : Token) {v v' : Value} (h : Twin k v v') :
    SameResult (Twin k) (Value.unary operator v) (Value.unary operator v') := by
  unfold Value.unary
  rw [h.isTruthy]
  split
  · cases h with
    | number x => exact .ok (.number _)
    | _ => exact .error _
  · exact .ok (.bool _)
  · exact .error _

theorem arithmetic_same (operator : Token) (x y : Float) :
    SameResult (Twin k) (Value.arithmetic operator x y) (Value.arithmetic operator x y) := by
  unfold Value.arithmetic
  split
  iterate 3 exact .ok (.number _)
  iterate 4 exact .ok (.bool _)
  exact .error _

theorem Twin.binary (operator : Token) {v v' u u' : Value} (h : Twin k v v') (hu : Twin k u u') :
    SameResult (Twin k) (Value.binary operator v u) (Value.binary operator v' u') := by
  unfold Value.binary
  rw [h.equals hu]
  split
  · exact .ok (.bool _)
  · exact .ok (.bool _)
  · cases h with
    | number x =>
      cases hu with
      | number y => exact .ok (.number _)
      | _ => exact .error _
    | string s =>
      cases hu with
      | string t => exact .ok (.string _)
      | _ => exact .error _
    | _ => exact .error _
  · cases h with
    | number x =>
      cases hu with
      | number y => exact arithmetic_same operator x y
      | _ => exact .error _
    | _ => exact .error _

end Lexical
end Lox
