import Lox.Proofs.Run.Visits

/-!
# The course of a run

`Task.trail` lists the tasks that running a task starts, itself first, in the order in which they
are started and with the machines on which they are. A run that does not end has a trail too: it
goes as far as the fuel. All that is listed is visited (`Task.visits_of_mem_trail`).
-/

set_option autoImplicit false

namespace Lox

open Eval

/-- Tasks in the order in which they are started, with the machines on which they are. -/
abbrev Trace := List (Machine × Task)

/-- What a run starts, if it is on this machine. -/
def Trail := Machine → Trace

namespace Trail

variable {α : Type}

/-- Nothing is started. -/
protected def none : Trail :=
  fun _ => []

/-- A task is started, and then others. -/
def start (t : Task) (τ : Trail) : Trail :=
  fun m => (m, t) :: τ m

/-- What is started once a run has ended well. -/
def after (x : Eval α) (τ : α → Trail) : Trail := fun m =>
  match x m with
  | .ok a m' => τ a m'
  | .error _ _ => []
  | .outOfFuel => []

/-- What is started by a run, and then what is started once it has ended well. -/
def andThen (σ : Trail) (x : Eval α) (τ : α → Trail) : Trail :=
  fun m => σ m ++ after x τ m

/-- What is started with another current frame. -/
def inFrame (frame : FrameId) (τ : Trail) : Trail :=
  fun m => τ { m with current := frame }

end Trail

/-- What a task starts by running its parts, if `τ` says what each of them starts. -/
def Task.parts (fuel : Nat) (τ : Task → Trail) : Task → Trail
  | .expr _ (.literal _) | .expr _ (.variable _ _) | .expr _ (.this _ _)
  | .expr _ (.super _ _ _) => .none
  | .expr p (.grouping inner) => τ (.expr p inner)
  | .expr p (.unary _ right) => τ (.expr p right)
  | .expr p (.binary left _ right) =>
    .andThen (τ (.expr p left)) (evaluate fuel left) fun _ => τ (.expr p right)
  | .expr p (.logical left operator right) =>
    .andThen (τ (.expr p left)) (evaluate fuel left) fun v =>
      if v.isTruthy = decide (operator.kind = .keyword .orWord) then .none
      else τ (.expr p right)
  | .expr p (.assign _ value _) => τ (.expr p value)
  | .expr p (.call callee paren arguments) =>
    .andThen (τ (.expr p callee)) (evaluate fuel callee) fun f =>
      .andThen (τ (.exprs p arguments)) (evaluateAll fuel arguments) fun vs => τ (.call f paren vs)
  | .expr p (.get object _) => τ (.expr p object)
  | .expr p (.set object _ value) =>
    .andThen (τ (.expr p object)) (evaluate fuel object) fun
      | .instanceRef _ => τ (.expr p value)
      | _ => .none
  | .exprs _ [] => .none
  | .exprs p (e :: es) => .andThen (τ (.expr p e)) (evaluate fuel e) fun _ => τ (.exprs p es)
  | .call callee paren arguments => .after (checkCall callee paren arguments.length) fun
      | .native _ => .none
      | .function f => τ (.invoke f arguments)
      | .construct c => .after (newInstance c) fun this => .after (initializerOf c) fun
          | some initializer =>
            .after (bindMethod initializer this) fun f => τ (.invoke f arguments)
          | none => .none
  | .invoke f arguments =>
    .after (newFrame f.closure ((f.decl.params.map (·.lexeme)).zip arguments)) fun frame =>
      .inFrame frame (τ (.stmts f.decl.body))
  | .stmt (.expression value) => τ (.expr none value)
  | .stmt (.print _ value) => τ (.expr none value)
  | .stmt (.var _ none) => .none
  | .stmt (.var name (some value)) => fun m => τ (.expr (m.pending name) value) m
  | .stmt (.block body) => .after currentFrame fun current => .after (newFrame current [])
      fun frame => .inFrame frame (τ (.stmts body))
  | .stmt (.conditional condition thenBranch none) =>
    .andThen (τ (.expr none condition)) (evaluate fuel condition) fun v =>
      if v.isTruthy then τ (.stmt thenBranch) else .none
  | .stmt (.conditional condition thenBranch (some elseBranch)) =>
    .andThen (τ (.expr none condition)) (evaluate fuel condition) fun v =>
      if v.isTruthy then τ (.stmt thenBranch) else τ (.stmt elseBranch)
  | .stmt (.loop condition body) => τ (.loop condition body)
  | .stmt (.function _) => .none
  | .stmt (.ret _ none) => .none
  | .stmt (.ret _ (some value)) => τ (.expr none value)
  | .stmt (.classDecl _ none _) => .none
  | .stmt (.classDecl _ (some superclass) _) => τ (.expr none superclass)
  | .loop condition body =>
    .andThen (τ (.expr none condition)) (evaluate fuel condition) fun v =>
      if v.isTruthy then .andThen (τ (.stmt body)) (execute fuel body) fun
        | .next => τ (.loop condition body)
        | .returned _ _ => .none
      else .none
  | .stmts [] => .none
  | .stmts (s :: ss) => .andThen (τ (.stmt s)) (execute fuel s) fun
      | .next => τ (.stmts ss)
      | .returned _ _ => .none

/-- The tasks that running a task starts, itself first. -/
def Task.trail : Nat → Task → Trail
  | 0, _ => .none
  | fuel + 1, t => .start t (t.parts fuel (trail fuel))

/-! ## Trails and visits -/

namespace Trail

variable {α : Type} {s : Machine × Task} {m : Machine}

theorem mem_after {x : Eval α} {τ : α → Trail} :
    s ∈ after x τ m ↔ ∃ a m', x m = .ok a m' ∧ s ∈ τ a m' := by
  unfold after
  cases x m with
  | ok a m' =>
    simp only [Result.ok.injEq]
    exact ⟨fun h => ⟨a, m', ⟨rfl, rfl⟩, h⟩, fun ⟨_, _, ⟨ha, hm⟩, h⟩ => ha ▸ hm ▸ h⟩
  | error e m' => simp
  | outOfFuel => simp

theorem mem_andThen {σ : Trail} {x : Eval α} {τ : α → Trail} :
    s ∈ andThen σ x τ m ↔ s ∈ σ m ∨ ∃ a m', x m = .ok a m' ∧ s ∈ τ a m' := by
  rw [andThen, List.mem_append, mem_after]

theorem not_mem_none (m : Machine) : s ∉ Trail.none m :=
  List.not_mem_nil

end Trail

open Trail in
/-- The parts of a task are what it starts. -/
theorem Task.starts_of_mem_parts {fuel : Nat} {τ : Task → Trail} {m : Machine}
    {s : Machine × Task} :
    ∀ {t : Task}, s ∈ t.parts fuel τ m → ∃ m' t', Starts m t m' t' ∧ s ∈ τ t' m'
  | .expr _ (.literal _), h | .expr _ (.variable _ _), h | .expr _ (.this _ _), h
  | .expr _ (.super _ _ _), h | .exprs _ [], h | .stmts [], h => absurd h (not_mem_none m)
  | .expr p (.grouping inner), h => ⟨_, _, .grouping, h⟩
  | .expr p (.unary operator right), h => ⟨_, _, .unary, h⟩
  | .expr p (.binary left operator right), h => by
    rcases mem_andThen.1 h with h | ⟨v, m', hl, h⟩
    · exact ⟨_, _, .binaryLeft, h⟩
    · exact ⟨_, _, .binaryRight hl, h⟩
  | .expr p (.logical left operator right), h => by
    rcases mem_andThen.1 h with h | ⟨v, m', hl, h⟩
    · exact ⟨_, _, .logicalLeft, h⟩
    · split at h
      · exact absurd h (not_mem_none _)
      · exact ⟨_, _, .logicalRight hl ‹_›, h⟩
  | .expr p (.assign name value depth), h => ⟨_, _, .assigned, h⟩
  | .expr p (.call callee paren arguments), h => by
    rcases mem_andThen.1 h with h | ⟨f, m', hc, h⟩
    · exact ⟨_, _, .callee, h⟩
    · rcases mem_andThen.1 h with h | ⟨vs, m'', ha, h⟩
      · exact ⟨_, _, .arguments hc, h⟩
      · exact ⟨_, _, .call hc ha, h⟩
  | .expr p (.get object name), h => ⟨_, _, .getObject, h⟩
  | .expr p (.set object name value), h => by
    rcases mem_andThen.1 h with h | ⟨v, m', ho, h⟩
    · exact ⟨_, _, .setObject, h⟩
    · cases v with
      | instanceRef i => exact ⟨_, _, .setValue ho, h⟩
      | _ => exact absurd h (not_mem_none _)
  | .exprs p (e :: es), h => by
    rcases mem_andThen.1 h with h | ⟨v, m', he, h⟩
    · exact ⟨_, _, .exprsHead, h⟩
    · exact ⟨_, _, .exprsTail he, h⟩
  | .call callee paren arguments, h => by
    obtain ⟨f, m₁, hc, h⟩ := mem_after.1 h
    cases f with
    | native f => exact absurd h (not_mem_none _)
    | function f => exact ⟨_, _, .function hc, h⟩
    | construct c =>
      obtain ⟨this, m₂, hthis, h⟩ := mem_after.1 h
      obtain ⟨initializer, m₃, hinit, h⟩ := mem_after.1 h
      cases initializer with
      | none => exact absurd h (not_mem_none _)
      | some initializer =>
        obtain ⟨g, m₄, hbind, h⟩ := mem_after.1 h
        exact ⟨_, _, .construct hc hthis hinit hbind, h⟩
  | .invoke f arguments, h => by
    rw [Task.parts] at h
    obtain ⟨frame, m', hf, h⟩ := mem_after.1 h
    exact ⟨_, _, .body hf, h⟩
  | .stmt (.expression value), h => ⟨_, _, .expression, h⟩
  | .stmt (.print keyword value), h => ⟨_, _, .printed, h⟩
  | .stmt (.var name none), h | .stmt (.function _), h | .stmt (.ret _ none), h
  | .stmt (.classDecl _ none _), h => absurd h (not_mem_none m)
  | .stmt (.var name (some value)), h => ⟨_, _, .initializer, h⟩
  | .stmt (.block body), h => by
    rw [Task.parts] at h
    obtain ⟨current, m', hcurrent, h⟩ := mem_after.1 h
    cases hcurrent
    obtain ⟨frame, m'', hf, h⟩ := mem_after.1 h
    exact ⟨_, _, .block hf, h⟩
  | .stmt (.conditional condition thenBranch none), h => by
    rcases mem_andThen.1 h with h | ⟨v, m', hc, h⟩
    · exact ⟨_, _, .condition, h⟩
    · split at h
      · exact ⟨_, _, .thenBranch hc ‹_›, h⟩
      · exact absurd h (not_mem_none _)
  | .stmt (.conditional condition thenBranch (some elseBranch)), h => by
    rcases mem_andThen.1 h with h | ⟨v, m', hc, h⟩
    · exact ⟨_, _, .condition, h⟩
    · split at h
      · exact ⟨_, _, .thenBranch hc ‹_›, h⟩
      · exact ⟨_, _, .elseBranch hc ‹_›, h⟩
  | .stmt (.loop condition body), h => ⟨_, _, .loop, h⟩
  | .stmt (.ret _ (some value)), h => ⟨_, _, .returned, h⟩
  | .stmt (.classDecl _ (some superclass) _), h => ⟨_, _, .superclass, h⟩
  | .loop condition body, h => by
    rcases mem_andThen.1 h with h | ⟨v, m', hc, h⟩
    · exact ⟨_, _, .loopCondition, h⟩
    · split at h
      · rcases mem_andThen.1 h with h | ⟨flow, m'', hb, h⟩
        · exact ⟨_, _, .loopBody hc ‹_›, h⟩
        · cases flow with
          | next => exact ⟨_, _, .loopAgain hc ‹_› hb, h⟩
          | returned value keyword => exact absurd h (not_mem_none _)
      · exact absurd h (not_mem_none _)
  | .stmts (s :: ss), h => by
    rcases mem_andThen.1 h with h | ⟨flow, m', hs, h⟩
    · exact ⟨_, _, .stmtsHead, h⟩
    · cases flow with
      | next => exact ⟨_, _, .stmtsTail hs, h⟩
      | returned value keyword => exact absurd h (not_mem_none _)

/-- What is listed is visited. -/
theorem Task.visits_of_mem_trail {fuel : Nat} {m m' : Machine} {t t' : Task}
    (h : (m', t') ∈ t.trail fuel m) : Visits m t m' t' := by
  induction fuel generalizing m t with
  | zero => exact absurd h (Trail.not_mem_none m)
  | succ fuel ih =>
    rcases List.mem_cons.1 h with hself | hpart
    · cases hself
      exact .refl
    · obtain ⟨m₁, t₁, hs, hpart⟩ := Task.starts_of_mem_parts hpart
      exact .head hs (ih hpart)

end Lox
