import Lox.Proofs.Run.Sound

/-!
# More fuel

A run that does not use up its fuel gives the same with more (`interpret_lasts`). Statements side by
side run one after another (`executeAll_append`).
-/

set_option autoImplicit false

namespace Lox

/-! ## Results that last -/

section Lasts

variable {α β : Type}

/-- Unless the first result is that the fuel has been used up, the second is the same. -/
def Result.Lasts (r r' : Result α) : Prop :=
  r = .outOfFuel ∨ r' = r

theorem Result.Lasts.refl (r : Result α) : r.Lasts r :=
  .inr rfl

theorem Result.Lasts.trans {r r' r'' : Result α} (h : r.Lasts r') (h' : r'.Lasts r'') :
    r.Lasts r'' := by
  rcases h with h | rfl
  · exact .inl h
  · exact h'

theorem Eval.lasts_bind {x x' : Eval α} {f f' : α → Eval β} {m : Machine}
    (h : (x m).Lasts (x' m)) (hf : ∀ a m, (f a m).Lasts (f' a m)) :
    ((x >>= f) m).Lasts ((x' >>= f') m) := by
  show (Eval.bind x f m).Lasts (Eval.bind x' f' m)
  unfold Eval.bind
  rcases h with h | h
  · rw [h]
    exact .inl rfl
  · rw [h]
    cases x m with
    | ok a m => exact hf a m
    | error e m => exact .refl _
    | outOfFuel => exact .refl _

/-- The parts that take no fuel give the same. -/
theorem Eval.lasts_step {x : Eval α} {f f' : α → Eval β} {m : Machine}
    (hf : ∀ a m, (f a m).Lasts (f' a m)) : ((x >>= f) m).Lasts ((x >>= f') m) :=
  lasts_bind (.refl _) hf

theorem Eval.lasts_within {frame : FrameId} {x x' : Eval α} {m : Machine}
    (h : ∀ m, (x m).Lasts (x' m)) : (within frame x m).Lasts (within frame x' m) := by
  unfold within
  dsimp only
  rcases h { m with current := frame } with h | h
  · rw [h]
    exact .inl rfl
  · rw [h]
    exact .refl _

end Lasts

/-! ## The evaluator -/

open Eval

mutual

theorem evaluate_lasts : ∀ (fuel : Nat) (e : Expr) (m : Machine),
    (evaluate fuel e m).Lasts (evaluate (fuel + 1) e m)
  | 0, _, _ => .inl rfl
  | fuel + 1, e, m => by
    cases e with
    | literal value => exact .refl _
    | grouping inner => exact evaluate_lasts fuel inner m
    | unary operator right =>
      simp only [evaluate]
      exact lasts_bind (evaluate_lasts fuel right m) fun _ _ => .refl _
    | binary left operator right =>
      simp only [evaluate]
      refine lasts_bind (evaluate_lasts fuel left m) fun _ m => ?_
      exact lasts_bind (evaluate_lasts fuel right m) fun _ _ => .refl _
    | logical left operator right =>
      simp only [evaluate]
      refine lasts_bind (evaluate_lasts fuel left m) fun _ m => ?_
      split
      · exact .refl _
      · exact evaluate_lasts fuel right m
    | «variable» name depth => exact .refl _
    | assign name value depth =>
      simp only [evaluate]
      exact lasts_bind (evaluate_lasts fuel value m) fun _ _ => .refl _
    | call callee paren arguments =>
      simp only [evaluate]
      refine lasts_bind (evaluate_lasts fuel callee m) fun callee m => ?_
      refine lasts_bind (evaluateAll_lasts fuel arguments m) fun arguments m => ?_
      exact call_lasts fuel callee paren arguments m
    | get object name =>
      simp only [evaluate]
      exact lasts_bind (evaluate_lasts fuel object m) fun _ _ => .refl _
    | set object name value =>
      simp only [evaluate]
      refine lasts_bind (evaluate_lasts fuel object m) fun v m => ?_
      cases v with
      | instanceRef i => exact lasts_bind (evaluate_lasts fuel value m) fun _ _ => .refl _
      | _ => exact .refl _
    | this keyword depth => exact .refl _
    | super keyword method depth => exact .refl _

theorem evaluateAll_lasts : ∀ (fuel : Nat) (es : List Expr) (m : Machine),
    (evaluateAll fuel es m).Lasts (evaluateAll (fuel + 1) es m)
  | 0, _, _ => .inl rfl
  | _ + 1, [], _ => .refl _
  | fuel + 1, e :: es, m => by
    simp only [evaluateAll]
    refine lasts_bind (evaluate_lasts fuel e m) fun _ m => ?_
    exact lasts_bind (evaluateAll_lasts fuel es m) fun _ _ => .refl _

theorem call_lasts : ∀ (fuel : Nat) (callee : Value) (paren : Token) (arguments : List Value)
    (m : Machine),
    (call fuel callee paren arguments m).Lasts (call (fuel + 1) callee paren arguments m)
  | 0, _, _, _, _ => .inl rfl
  | fuel + 1, callee, paren, arguments, m => by
    rw [call, call]
    refine lasts_step fun f m => ?_
    cases f with
    | native f => exact .refl _
    | function f => exact invoke_lasts fuel f arguments m
    | construct c =>
      refine lasts_step fun this m => lasts_step fun initializer m => ?_
      cases initializer with
      | none => exact .refl _
      | some initializer =>
        refine lasts_step fun f m => ?_
        exact lasts_bind (invoke_lasts fuel f arguments m) fun _ _ => .refl _

theorem invoke_lasts : ∀ (fuel : Nat) (f : Function) (arguments : List Value) (m : Machine),
    (invoke fuel f arguments m).Lasts (invoke (fuel + 1) f arguments m)
  | 0, _, _, _ => .inl rfl
  | fuel + 1, f, arguments, m => by
    rw [invoke, invoke]
    refine lasts_step fun frame m => ?_
    exact lasts_bind (lasts_within fun m => executeAll_lasts fuel f.decl.body m) fun _ _ => .refl _

theorem execute_lasts : ∀ (fuel : Nat) (s : Stmt) (m : Machine),
    (execute fuel s m).Lasts (execute (fuel + 1) s m)
  | 0, _, _ => .inl rfl
  | fuel + 1, s, m => by
    match s with
    | .expression value | .print _ value | .var _ (some value) | .ret _ (some value) =>
      simp only [execute]
      exact lasts_bind (evaluate_lasts fuel value m) fun _ _ => .refl _
    | .var _ none | .ret _ none | .function _ | .classDecl _ none _ => exact .refl _
    | .block body =>
      simp only [execute]
      refine lasts_step fun _ m => lasts_step fun frame m => ?_
      exact lasts_within fun m => executeAll_lasts fuel body m
    | .conditional condition thenBranch elseBranch =>
      simp only [execute]
      refine lasts_bind (evaluate_lasts fuel condition m) fun _ m => ?_
      split
      · exact execute_lasts fuel thenBranch m
      · cases elseBranch with
        | none => exact .refl _
        | some elseBranch => exact execute_lasts fuel elseBranch m
    | .loop condition body => exact executeLoop_lasts fuel condition body m
    | .classDecl name (some superclass) methods =>
      simp only [execute]
      refine lasts_bind (evaluate_lasts fuel superclass m) fun v m => ?_
      cases v <;> exact .refl _

theorem executeLoop_lasts : ∀ (fuel : Nat) (condition : Expr) (body : Stmt) (m : Machine),
    (executeLoop fuel condition body m).Lasts (executeLoop (fuel + 1) condition body m)
  | 0, _, _, _ => .inl rfl
  | fuel + 1, condition, body, m => by
    rw [executeLoop, executeLoop]
    refine lasts_bind (evaluate_lasts fuel condition m) fun _ m => ?_
    split
    · refine lasts_bind (execute_lasts fuel body m) fun flow m => ?_
      cases flow with
      | next => exact executeLoop_lasts fuel condition body m
      | returned value keyword => exact .refl _
    · exact .refl _

theorem executeAll_lasts : ∀ (fuel : Nat) (ss : List Stmt) (m : Machine),
    (executeAll fuel ss m).Lasts (executeAll (fuel + 1) ss m)
  | 0, _, _ => .inl rfl
  | _ + 1, [], _ => .refl _
  | fuel + 1, s :: ss, m => by
    simp only [executeAll]
    refine lasts_bind (execute_lasts fuel s m) fun flow m => ?_
    cases flow with
    | next => exact executeAll_lasts fuel ss m
    | returned value keyword => exact .refl _

end

theorem evaluate_lasts_add (fuel more : Nat) (e : Expr) (m : Machine) :
    (evaluate fuel e m).Lasts (evaluate (fuel + more) e m) := by
  induction more with
  | zero => exact .refl _
  | succ more ih => exact ih.trans (evaluate_lasts (fuel + more) e m)

/-- An expression that ends well has one value, whatever the fuel. -/
theorem evaluate_ok_unique {fuel fuel' : Nat} {e : Expr} {m m₁ m₂ : Machine} {v₁ v₂ : Value}
    (h₁ : evaluate fuel e m = .ok v₁ m₁) (h₂ : evaluate fuel' e m = .ok v₂ m₂) :
    v₁ = v₂ ∧ m₁ = m₂ := by
  have hboth₁ := evaluate_lasts_add fuel fuel' e m
  have hboth₂ := evaluate_lasts_add fuel' fuel e m
  rw [Nat.add_comm fuel' fuel] at hboth₂
  rw [h₁] at hboth₁
  rw [h₂] at hboth₂
  have hsame := (hboth₁.resolve_left nofun).symm.trans (hboth₂.resolve_left nofun)
  cases hsame
  exact ⟨rfl, rfl⟩

theorem executeAll_lasts_add (fuel more : Nat) (ss : List Stmt) (m : Machine) :
    (executeAll fuel ss m).Lasts (executeAll (fuel + more) ss m) := by
  induction more with
  | zero => exact .refl _
  | succ more ih => exact ih.trans (executeAll_lasts (fuel + more) ss m)

/-! ## Statements side by side -/

/-- Statements run after those before them have ended well. -/
theorem executeAll_append (ss' : List Stmt) : ∀ (ss : List Stmt) (fuel : Nat),
    executeAll (fuel + ss.length) (ss ++ ss') =
      executeAll (fuel + ss.length) ss >>= fun
        | .next => executeAll fuel ss'
        | .returned value keyword => pure (.returned value keyword)
  | [], 0 => rfl
  | [], fuel + 1 => rfl
  | s :: ss, fuel => by
    rw [List.cons_append, List.length_cons, ← Nat.add_assoc, executeAll, executeAll,
      Eval.bind_assoc]
    refine congrArg (execute (fuel + ss.length) s >>= ·) (funext fun flow => ?_)
    cases flow with
    | next => exact executeAll_append ss' ss fuel
    | returned value keyword => rfl

/-- A run of statements, ended by what follows them. -/
theorem interpret_eq (fuel : Nat) (ss : List Stmt) (m : Machine) :
    interpret fuel ss m =
      match executeAll fuel ss m with
      | .ok .next m => .ok () m
      | .ok (.returned _ keyword) m => .error (keyword.fault .returnAtTopLevel) m
      | .error e m => .error e m
      | .outOfFuel => .outOfFuel := by
  show Eval.bind _ _ m = _
  unfold Eval.bind
  cases executeAll fuel ss m with
  | ok flow m => cases flow <;> rfl
  | _ => rfl

theorem interpret_lasts {fuel fuel' : Nat} (hfuel : fuel ≤ fuel') (ss : List Stmt) (m : Machine) :
    (interpret fuel ss m).Lasts (interpret fuel' ss m) := by
  obtain ⟨more, rfl⟩ := Nat.exists_eq_add_of_le hfuel
  exact lasts_bind (executeAll_lasts_add fuel more ss m) fun _ _ => .refl _

/-- A program goes on where one that it begins with ends. -/
theorem interpret_append {ss : List Stmt} {m : Machine} {fuel more : Nat}
    (hended : interpret fuel ss m ≠ .outOfFuel) (hfuel : fuel ≤ more + ss.length)
    (ss' : List Stmt) :
    interpret (more + ss.length) (ss ++ ss') m =
      match interpret fuel ss m with
      | .ok _ m => interpret more ss' m
      | .error e m => .error e m
      | .outOfFuel => .outOfFuel := by
  obtain ⟨rest, hrest⟩ := Nat.exists_eq_add_of_le hfuel
  have hlasts : executeAll fuel ss m = .outOfFuel ∨
      executeAll (more + ss.length) ss m = executeAll fuel ss m :=
    hrest ▸ executeAll_lasts_add fuel rest ss m
  have happend : executeAll (more + ss.length) (ss ++ ss') m = Eval.bind _ _ m :=
    congrFun (executeAll_append ss' ss more) m
  unfold Eval.bind at happend
  rw [interpret_eq] at hended
  rw [interpret_eq, interpret_eq fuel, happend]
  rcases hlasts with hout | hsame
  · rw [hout] at hended
    exact absurd rfl hended
  · rw [hsame]
    cases executeAll fuel ss m with
    | ok flow m =>
      cases flow with
      | next => exact (interpret_eq more ss' m).symm
      | returned value keyword => rfl
    | _ => rfl

end Lox
