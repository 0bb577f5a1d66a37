import Lox.Proofs.Run.Growth
import Lox.Proofs.Run.Output
import Lox.Proofs.Run.Trail
import Mathlib

/-!
# A narrower output cuts a run short

Only printing looks at the output. So a run with an output that accepts less is the same run, up to
the write that is refused, where it ends (`interpret_cuts`). Until then the two runs are in step:
they start the same tasks on machines that differ in their outputs only and have printed the same.
The print of the refused write is the last of them, and what it has printed is the beginning of what
the run with the wider output prints there.
-/

set_option autoImplicit false

namespace Lox

/-! ## Other outputs -/

/-- The machine with this output in place of its own. -/
def Machine.withOutput (m : Machine) (o : Output) : Machine :=
  { m with output := o }

theorem Machine.findMethod?_withOutput (m : Machine) (o : Output) (c : ClassId) (name : String) :
    (m.withOutput o).findMethod? c name = m.findMethod? c name := by
  have hclasses : (m.withOutput o).classes = m.classes := rfl
  exact findMethod?_congr hclasses c name

theorem Machine.pieces_withOutput (m : Machine) (o : Output) (v : Value) :
    (m.withOutput o).pieces v = m.pieces v := by
  cases v with
  | bool b => cases b <;> rfl
  | _ => rfl

/-- The result with this output in place of the one that the run left. -/
def Result.withOutput {α : Type} (o : Output) : Result α → Result α
  | .ok a m => .ok a (m.withOutput o)
  | .error e m => .error e (m.withOutput o)
  | .outOfFuel => .outOfFuel

/-! ## Runs in step -/

/-- The task started in one run is the task started in the other one. Their machines differ in the
outputs only, and the same has been printed since they were `o` and `w`. -/
def InStep (o w : Output) (narrow wide : Machine × Task) : Prop :=
  narrow.2 = wide.2 ∧ narrow.1 = wide.1.withOutput narrow.1.output ∧
    ∃ s, w.Took s wide.1.output ∧ o.Took s narrow.1.output

/-- Two runs are in step from start to end. -/
abbrev Lockstep (o w : Output) : Trace → Trace → Prop :=
  List.Forall₂ (InStep o w)

/-- Two runs are in step up to the end of the first. -/
def Leads (o w : Output) (narrow wide : Trace) : Prop :=
  ∃ front more, wide = front ++ more ∧ Lockstep o w narrow front

/-- The last print of a run, of which the output refuses a write: nothing is started after its value
has been evaluated, and all but the output and the current frame is left as it is then. The run with
the wider output comes to the same print, has printed the same by the time it has the value, and now
prints the line of which `bytes` ends with a part only. -/
inductive Refusal (o w : Output) (narrow wide : Trace) (keyword : Token) (bytes : ByteArray)
    (left : Machine) : Prop
  | mk {before : Trace} {fuel : Nat} {value : Expr} {v : Value} {m m' m₁ m₁' : Machine}
      {printed rest : ByteArray}
      (hlast : narrow = before ++ (Task.stmt (.print keyword value)).trail (fuel + 1) m')
      (hvalue' : evaluate fuel value m' = .ok v m₁')
      (hleft : left = { m₁' with output := left.output, current := left.current })
      (hwide : (m, .stmt (.print keyword value)) ∈ wide) (hvalue : evaluate fuel value m = .ok v m₁)
      (hsame : m₁' = m₁.withOutput m₁'.output)
      (hprinted : w.Took printed m₁.output) (hprinted' : o.Took printed m₁'.output)
      (hline : printed ++ (m₁.display v ++ "\n").toUTF8 = bytes ++ rest) (hrest : rest ≠ .empty)

/-- How a run ends, and what it starts, when it begins with the output `o` in place of that of `m`,
if the run on `m` ends in the first of these ways and starts the first of these tasks. -/
inductive Result.Cut {α : Type} (m : Machine) (o : Output) :
    Result α → Trace → Result α → Trace → Prop
  | ok (a : α) {m₁ m' : Machine} {s : ByteArray} {ts ts' : Trace}
      (hsame : m' = m₁.withOutput m'.output) (hm : m.output.Took s m₁.output)
      (ho : o.Took s m'.output) (hts : Lockstep o m.output ts' ts) :
      Cut m o (.ok a m₁) ts (.ok a m') ts'
  | error (e : RuntimeError) {m₁ m' : Machine} {s : ByteArray} {ts ts' : Trace}
      (hsame : m' = m₁.withOutput m'.output) (hm : m.output.Took s m₁.output)
      (ho : o.Took s m'.output) (hts : Lockstep o m.output ts' ts) :
      Cut m o (.error e m₁) ts (.error e m') ts'
  /-- A write is refused. The run on `m` has printed the same so far, and may print more. -/
  | refused {r : Result α} {keyword : Token} {e : RuntimeError} {m' : Machine} {s : ByteArray}
      {ts ts' : Trace} (he : e = keyword.fault (.outputFailed o.reason))
      (hclosed : m'.output.IsClosed) (ho : o.Took s m'.output)
      (hr : ∀ m₁, r.left? = some m₁ → ∃ t, m.output.Took (s ++ t) m₁.output)
      (hts : Leads o m.output ts' ts) (hlast : Refusal o m.output ts' ts keyword s m') :
      Cut m o r ts (.error e m') ts'
  | outOfFuel {ts ts' : Trace} (hts : Lockstep o m.output ts' ts) :
      Cut m o .outOfFuel ts .outOfFuel ts'

section InStep

variable {o o₁ w w₁ : Output} {s : ByteArray} {ts ts' us us' : Trace}

theorem InStep.after {a b : Machine × Task} (hw : w.Took s w₁) (ho : o.Took s o₁)
    (h : InStep o₁ w₁ a b) : InStep o w a b := by
  obtain ⟨htask, hmachine, t, hw', ho'⟩ := h
  exact ⟨htask, hmachine, s ++ t, hw.trans hw', ho.trans ho'⟩

theorem Lockstep.after (hw : w.Took s w₁) (ho : o.Took s o₁) (h : Lockstep o₁ w₁ ts' ts) :
    Lockstep o w ts' ts :=
  h.imp fun _ _ => InStep.after hw ho

/-- Where tasks are started one after another, both runs start them. -/
theorem Lockstep.append (h : Lockstep o w ts' ts) (hw : w.Took s w₁) (ho : o.Took s o₁)
    (h' : Lockstep o₁ w₁ us' us) : Lockstep o w (ts' ++ us') (ts ++ us) :=
  List.rel_append h (h'.after hw ho)

/-- A task that is started with another output. -/
theorem Lockstep.self (m : Machine) (o : Output) (t : Task) :
    Lockstep o m.output [(m.withOutput o, t)] [(m, t)] :=
  .cons ⟨rfl, rfl, .empty, .nothing _, .nothing o⟩ .nil

theorem Lockstep.leads (h : Lockstep o w ts' ts) : Leads o w ts' ts :=
  ⟨ts, [], (List.append_nil ts).symm, h⟩

theorem Leads.append (h : Leads o w ts' ts) (more : Trace) : Leads o w ts' (ts ++ more) := by
  obtain ⟨front, more', rfl, hfront⟩ := h
  exact ⟨front, more' ++ more, List.append_assoc .., hfront⟩

theorem Leads.after (h : Lockstep o w ts' ts) (hw : w.Took s w₁) (ho : o.Took s o₁)
    (h' : Leads o₁ w₁ us' us) : Leads o w (ts' ++ us') (ts ++ us) := by
  obtain ⟨front, more, rfl, hfront⟩ := h'
  exact ⟨ts ++ front, more, (List.append_assoc ..).symm, h.append hw ho hfront⟩

theorem Refusal.append {keyword : Token} {bytes : ByteArray} {left : Machine}
    (h : Refusal o w ts' ts keyword bytes left) (more : Trace) :
    Refusal o w ts' (ts ++ more) keyword bytes left := by
  obtain ⟨hlast, hvalue', hleft, hwide, hvalue, hsame, hprinted, hprinted', hline, hrest⟩ := h
  exact ⟨hlast, hvalue', hleft, List.mem_append_left more hwide, hvalue, hsame, hprinted,
    hprinted', hline, hrest⟩

theorem Refusal.after {keyword : Token} {bytes : ByteArray} {left : Machine} (ts ts' : Trace)
    (hw : w.Took s w₁) (ho : o.Took s o₁) (h : Refusal o₁ w₁ us' us keyword bytes left) :
    Refusal o w (ts' ++ us') (ts ++ us) keyword (s ++ bytes) left := by
  obtain ⟨rfl, hvalue', hleft, hwide, hvalue, hsame, hprinted, hprinted', hline, hrest⟩ := h
  refine ⟨(List.append_assoc ..).symm, hvalue', hleft, List.mem_append_right ts hwide, hvalue,
    hsame, hw.trans hprinted, ho.trans hprinted', ?_, hrest⟩
  rw [ByteArray.append_assoc, hline, ByteArray.append_assoc]

/-- The current frame that a run leaves is no matter. -/
theorem Refusal.within {keyword : Token} {bytes : ByteArray} {left : Machine}
    (h : Refusal o w ts' ts keyword bytes left) (frame : FrameId) :
    Refusal o w ts' ts keyword bytes { left with current := frame } := by
  obtain ⟨hlast, hvalue', hleft, hwide, hvalue, hsame, hprinted, hprinted', hline, hrest⟩ := h
  refine ⟨hlast, hvalue', ?_, hwide, hvalue, hsame, hprinted, hprinted', hline, hrest⟩
  rw [hleft]

end InStep

namespace Result

variable {α : Type} {r r' : Result α} {m m₁ : Machine} {o o₁ : Output} {s : ByteArray}
  {ts ts' us us' : Trace}

/-- The rest of a run, after a part that is in step and has printed the same with both outputs. -/
theorem Cut.after (hm : m.output.Took s m₁.output) (ho : o.Took s o₁)
    (hts : Lockstep o m.output ts' ts) (h : Cut m₁ o₁ r us r' us') :
    Cut m o r (ts ++ us) r' (ts' ++ us') := by
  cases h with
  | ok a hsame hm' ho' hus =>
    exact .ok a hsame (hm.trans hm') (ho.trans ho') (hts.append hm ho hus)
  | error e hsame hm' ho' hus =>
    exact .error e hsame (hm.trans hm') (ho.trans ho') (hts.append hm ho hus)
  | refused he hclosed ho' hr hus hlast =>
    rw [ho.reason] at he
    refine .refused he hclosed (ho.trans ho') (fun m₂ hm₂ => ?_) (.after hts hm ho hus)
      (hlast.after ts ts' hm ho)
    obtain ⟨t, ht⟩ := hr m₂ hm₂
    refine ⟨t, ?_⟩
    rw [ByteArray.append_assoc]
    exact hm.trans ht
  | outOfFuel hus => exact .outOfFuel (hts.append hm ho hus)

theorem Cut.took (h : Cut m o r ts r' ts') (hl : r'.left? = some m₁) :
    ∃ s, o.Took s m₁.output := by
  cases h with
  | ok a _ _ ho =>
    cases hl
    exact ⟨_, ho⟩
  | error e _ _ ho =>
    cases hl
    exact ⟨_, ho⟩
  | refused _ _ ho _ =>
    cases hl
    exact ⟨_, ho⟩
  | outOfFuel => cases hl

end Result

namespace Eval

/-- The run does not look at the output. -/
def Silent {α : Type} (x : Eval α) : Prop :=
  ∀ m o, x (m.withOutput o) = (x m).withOutput o

/-- A narrower output cuts the run short or changes nothing; `τ` is what the run starts. -/
def Cuts {α : Type} (x : Eval α) (τ : Trail) : Prop :=
  ∀ (m : Machine) (o : Output), o.Narrows m.output →
    Result.Cut m o (x m) (τ m) (x (m.withOutput o)) (τ (m.withOutput o))

variable {α β : Type}

/-! ## Runs that do not print -/

section Silent

theorem Silent.pure (a : α) : Silent (pure a) :=
  fun _ _ => rfl

theorem Silent.bind {x : Eval α} {f : α → Eval β} (hx : Silent x) (hf : ∀ a, Silent (f a)) :
    Silent (x >>= f) := by
  intro m o
  show Eval.bind x f (m.withOutput o) = (Eval.bind x f m).withOutput o
  unfold Eval.bind
  rw [hx m o]
  cases x m with
  | ok a m₁ => exact hf a m₁ o
  | error e m₁ => rfl
  | outOfFuel => rfl

theorem Silent.fault (token : Token) (cause : RuntimeCause) : Silent (fault token cause : Eval α) :=
  fun _ _ => rfl

theorem Silent.ofExcept (r : Except RuntimeError α) : Silent (ofExcept r) := by
  intro m o
  cases r <;> rfl

theorem Silent.readVariable (name : Token) (depth : Option Nat) :
    Silent (readVariable name depth) := by
  intro m o
  unfold Eval.readVariable
  dsimp only [Machine.withOutput]
  cases depth with
  | some distance =>
    dsimp only
    cases m.frames.getAt m.current distance name.lexeme <;> rfl
  | none =>
    dsimp only
    cases m.frames.get? Machine.globalFrame name.lexeme <;> rfl

theorem Silent.writeVariable (name : Token) (depth : Option Nat) (v : Value) :
    Silent (writeVariable name depth v) := by
  intro m o
  unfold Eval.writeVariable
  dsimp only [Machine.withOutput]
  cases depth with
  | some distance =>
    dsimp only
    cases m.frames.assignAt m.current distance name.lexeme v <;> rfl
  | none =>
    dsimp only
    cases m.frames.assign? Machine.globalFrame name.lexeme v <;> rfl

theorem Silent.define (name : String) (v : Value) : Silent (define name v) :=
  fun _ _ => rfl

theorem Silent.assignVisible (name : Token) (v : Value) : Silent (assignVisible name v) := by
  intro m o
  unfold Eval.assignVisible
  dsimp only [Machine.withOutput]
  cases m.frames.assign? m.current name.lexeme v <;> rfl

theorem Silent.currentFrame : Silent currentFrame :=
  fun _ _ => rfl

theorem Silent.newFrame (enclosing : FrameId) (bindings : List (String × Value)) :
    Silent (newFrame enclosing bindings) :=
  fun _ _ => rfl

theorem Silent.newFunction (f : Function) : Silent (newFunction f) :=
  fun _ _ => rfl

theorem Silent.newClass (c : Class) : Silent (newClass c) :=
  fun _ _ => rfl

theorem Silent.newInstance (c : ClassId) : Silent (newInstance c) :=
  fun _ _ => rfl

theorem Silent.setField (i : InstanceId) (name : String) (v : Value) :
    Silent (setField i name v) :=
  fun _ _ => rfl

theorem Silent.bindMethod (f : Function) (this : Value) : Silent (bindMethod f this) :=
  (Silent.newFrame _ _).bind fun _ => .pure _

theorem Silent.boundMethod (c : ClassId) (name : Token) (this : Value) :
    Silent (boundMethod c name this) := by
  intro m o
  unfold Eval.boundMethod
  rw [Machine.findMethod?_withOutput]
  cases m.findMethod? c name.lexeme with
  | none => rfl
  | some f => exact (Silent.bindMethod f this).bind (fun _ => .newFunction _) m o

theorem Silent.getProperty (i : InstanceId) (name : Token) : Silent (getProperty i name) := by
  intro m o
  unfold Eval.getProperty
  dsimp only [Machine.withOutput]
  cases m.instances[i]? with
  | none => rfl
  | some object =>
    dsimp only
    cases object.fields.get? name.lexeme with
    | some v => rfl
    | none => exact Silent.boundMethod object.ofClass name (.instanceRef i) m o

theorem Silent.superMethod (keyword method : Token) (depth : Option Nat) :
    Silent (superMethod keyword method depth) := by
  intro m o
  unfold Eval.superMethod
  cases depth with
  | none => rfl
  | some distance =>
    dsimp only [Machine.withOutput]
    cases m.frames.getAt m.current distance "super" with
    | error e => rfl
    | ok v =>
      cases v with
      | classRef c =>
        cases distance with
        | zero => rfl
        | succ closer =>
          dsimp only
          cases m.frames.getAt m.current closer "this" with
          | error e => rfl
          | ok this => exact Silent.boundMethod c method this m o
      | _ => rfl

theorem Silent.checkCall (callee : Value) (paren : Token) (count : Nat) :
    Silent (checkCall callee paren count) := by
  intro m o
  have hcallable : callable? (m.withOutput o) callee = callable? m callee := by
    cases callee with
    | classRef c =>
      unfold callable?
      dsimp only
      rw [Machine.findMethod?_withOutput]
    | _ => rfl
  unfold Eval.checkCall
  rw [hcallable]
  cases callable? m callee with
  | none => rfl
  | some f =>
    dsimp only
    split <;> rfl

theorem Silent.callNative (f : Native) : Silent (callNative f) := by
  cases f
  exact fun _ _ => rfl

theorem Silent.initializerOf (c : ClassId) : Silent (initializerOf c) := by
  intro m o
  unfold Eval.initializerOf
  rw [Machine.findMethod?_withOutput]
  rfl

theorem Silent.boundInstance (f : Function) : Silent (boundInstance f) :=
  fun _ _ => rfl

end Silent

/-! ## Runs that are cut short -/

section Cuts

variable {m m₁ : Machine} {o o₁ : Output} {s : ByteArray} {τ : Trail}

/-- A run adds to the output. -/
theorem Cuts.took {x : Eval α} (hx : Cuts x τ) (hl : (x m).left? = some m₁) :
    ∃ s, m.output.Took s m₁.output :=
  (hx m m.output (.refl _)).took hl

theorem Silent.cuts {x : Eval α} (hx : Silent x) : Cuts x .none := by
  intro m o _
  have hsame : x m = (x m).withOutput m.output := hx m m.output
  rw [hx m o]
  generalize x m = r at hsame ⊢
  cases r with
  | ok a m₁ =>
    have hm : m₁ = m₁.withOutput m.output := (Result.ok.inj hsame).2
    refine .ok a rfl ?_ (.nothing o) .nil
    rw [hm]
    exact .nothing _
  | error e m₁ =>
    have hm : m₁ = m₁.withOutput m.output := (Result.error.inj hsame).2
    refine .error e rfl ?_ (.nothing o) .nil
    rw [hm]
    exact .nothing _
  | outOfFuel => exact .outOfFuel .nil

theorem Cuts.outOfFuel : Cuts (outOfFuel : Eval α) .none :=
  fun _ _ _ => .outOfFuel .nil

/-- A task starts itself and then its parts. -/
theorem Cuts.start {x : Eval α} (hx : Cuts x τ) (t : Task) : Cuts x (.start t τ) := by
  intro m o h
  exact (hx m o h).after (.nothing _) (.nothing o) (.self m o t)

theorem Cuts.bind {x : Eval α} {f : α → Eval β} {σ : α → Trail} (hx : Cuts x τ)
    (hf : ∀ a, Cuts (f a) (σ a)) : Cuts (x >>= f) (.andThen τ x σ) := by
  intro m o h
  show Result.Cut m o (Eval.bind x f m) (τ m ++ Trail.after x σ m)
    (Eval.bind x f (m.withOutput o)) (τ (m.withOutput o) ++ Trail.after x σ (m.withOutput o))
  unfold Eval.bind Trail.after
  have hcut := hx m o h
  generalize x m = r at hcut
  generalize x (m.withOutput o) = r' at hcut
  generalize τ m = ts at hcut
  generalize τ (m.withOutput o) = ts' at hcut
  cases hcut with
  | @ok a m₁ m' s _ _ hsame hm ho hts =>
    rw [hsame]
    exact (hf a m₁ m'.output (h.took hm ho)).after hm ho hts
  | error e hsame hm ho hts =>
    simp only [List.append_nil]
    exact .error e hsame hm ho hts
  | refused he hclosed ho hr hts hlast =>
    simp only [List.append_nil]
    refine .refused he hclosed ho (fun m₂ hm₂ => ?_) (hts.append _) (hlast.append _)
    cases r with
    | ok a m₁ =>
      obtain ⟨t, ht⟩ := hr m₁ rfl
      obtain ⟨u, hu⟩ := (hf a).took hm₂
      refine ⟨t ++ u, ?_⟩
      rw [← ByteArray.append_assoc]
      exact ht.trans hu
    | error e m₁ => exact hr m₂ hm₂
    | outOfFuel => cases hm₂
  | outOfFuel hts =>
    simp only [List.append_nil]
    exact .outOfFuel hts

/-- A part that does not print, and the rest of the run. -/
theorem Silent.step {x : Eval α} {f : α → Eval β} {σ : α → Trail} (hx : Silent x)
    (hf : ∀ a, Cuts (f a) (σ a)) : Cuts (x >>= f) (.after x σ) :=
  hx.cuts.bind hf

/-- Nothing is printed after a part of the run. -/
theorem Cuts.thenSilent {x : Eval α} {f : α → Eval β} (hx : Cuts x τ) (hf : ∀ a, Silent (f a)) :
    Cuts (x >>= f) τ := by
  have hnothing : Trail.andThen τ x (fun _ => .none) = τ := by
    funext m
    unfold Trail.andThen Trail.after
    cases x m <;> exact List.append_nil _
  exact hnothing ▸ hx.bind fun a => (hf a).cuts

theorem Cuts.pure (a : α) : Cuts (pure a) .none :=
  (Silent.pure a).cuts

theorem Cuts.fault (token : Token) (cause : RuntimeCause) :
    Cuts (fault token cause : Eval α) .none :=
  (Silent.fault token cause).cuts

theorem Cuts.within (frame : FrameId) {x : Eval α} (hx : Cuts x τ) :
    Cuts (within frame x) (.inFrame frame τ) := by
  intro m o h
  have hcut := hx { m with current := frame } o h
  unfold Eval.within Trail.inFrame
  dsimp only [Machine.withOutput] at hcut ⊢
  generalize x { m with current := frame } = r at hcut ⊢
  generalize x { m with current := frame, output := o } = r' at hcut ⊢
  generalize τ { m with current := frame } = ts at hcut ⊢
  generalize τ { m with current := frame, output := o } = ts' at hcut ⊢
  cases hcut with
  | @ok a m₁ m' s _ _ hsame hm ho hts =>
    refine .ok a ?_ hm ho hts
    rw [hsame]
    rfl
  | @error e m₁ m' s _ _ hsame hm ho hts =>
    refine .error e ?_ hm ho hts
    rw [hsame]
    rfl
  | refused he hclosed ho hr hts hlast =>
    refine .refused he hclosed ho (fun m₂ hm₂ => ?_) hts (hlast.within m.current)
    cases r with
    | ok a m₁ =>
      cases hm₂
      exact hr m₁ rfl
    | error e m₁ =>
      cases hm₂
      exact hr m₁ rfl
    | outOfFuel => cases hm₂
  | outOfFuel hts => exact .outOfFuel hts

/-- What a print does with the value. -/
private abbrev printed (keyword : Token) (v : Value) : Eval Flow := do
  printLine keyword v
  return .next

theorem printed_accepted {keyword : Token} {v : Value} {p : Output}
    (h : m.output.writeLine (m.pieces v) = (p, true)) :
    printed keyword v m = .ok .next (m.withOutput p) := by
  show Eval.bind (printLine keyword v) (fun _ => pure Flow.next) m = _
  unfold Eval.bind printLine
  rw [h]
  rfl

theorem printed_refused {keyword : Token} {v : Value} {p : Output}
    (h : m.output.writeLine (m.pieces v) = (p, false)) :
    printed keyword v m = .error (keyword.fault (.outputFailed p.reason)) (m.withOutput p) := by
  show Eval.bind (printLine keyword v) (fun _ => pure Flow.next) m = _
  unfold Eval.bind printLine
  rw [h]
  rfl

theorem printed_left {keyword : Token} {v : Value}
    (hl : (printed keyword v m).left? = some m₁) :
    m₁.output = (m.output.writeLine (m.pieces v)).1 := by
  cases h : m.output.writeLine (m.pieces v) with
  | mk p accepted =>
    cases accepted with
    | true =>
      rw [printed_accepted h] at hl
      cases hl
      rfl
    | false =>
      rw [printed_refused h] at hl
      cases hl
      rfl

/-- Where a write is refused, the print is the last thing in the run. -/
theorem Cuts.print {fuel : Nat} {value : Expr}
    (hvalue : Cuts (evaluate fuel value) (Task.trail fuel (.expr none value))) (keyword : Token) :
    Cuts (execute (fuel + 1) (.print keyword value))
      (Task.trail (fuel + 1) (.stmt (.print keyword value))) := by
  intro m o h
  have hself := Lockstep.self m o (.stmt (.print keyword value))
  have hcut := hvalue m o h
  rw [execute]
  show Result.Cut m o (Eval.bind _ (fun v => printed keyword v) m)
    ([(m, _)] ++ Task.trail fuel (.expr none value) m)
    (Eval.bind _ (fun v => printed keyword v) (m.withOutput o))
    ([(m.withOutput o, _)] ++ Task.trail fuel (.expr none value) (m.withOutput o))
  unfold Eval.bind
  generalize hr : evaluate fuel value m = r at hcut
  generalize hr' : evaluate fuel value (m.withOutput o) = r' at hcut
  cases hcut with
  | @ok v m₁ m' s _ _ hsame hm ho hts =>
    have hpieces : m'.pieces v = m₁.pieces v := hsame ▸ Machine.pieces_withOutput m₁ m'.output v
    have hts := hself.append (.nothing _) (.nothing o) hts
    dsimp only
    rcases (h.took hm ho).write (m₁.pieces v ++ ["\n"]) with
      ⟨p, p', hp, hp', ht, ht'⟩ | ⟨t, u, rest, p', hp', hclosed, ht', hu, hline, hrest⟩
    · rw [printed_accepted hp, printed_accepted (hpieces ▸ hp')]
      have hsame' : m'.withOutput p' = (m₁.withOutput p).withOutput p' := by
        rw [hsame]
        rfl
      exact .ok Flow.next hsame' (hm.trans ht) (ho.trans ht') hts
    · have hrefused : printed keyword v m' = _ := printed_refused (hpieces ▸ hp')
      rw [hrefused, ht'.reason, ho.reason]
      refine .refused rfl hclosed (ho.trans ht') (fun m₂ hm₂ => ⟨u, ?_⟩) hts.leads
        ⟨(List.nil_append _).symm, hr', rfl, List.mem_cons_self, hr, hsame, hm, ho, ?_, hrest⟩
      · rw [ByteArray.append_assoc, printed_left hm₂]
        exact hm.trans hu
      · rw [String.join_append] at hline
        rw [ByteArray.append_assoc, ← hline]
        rfl
  | error e hsame hm ho hts =>
    exact .error e hsame hm ho (hself.append (.nothing _) (.nothing o) hts)
  | @refused _ _ _ _ s _ _ he hclosed ho hr hts hlast =>
    refine (Result.Cut.refused he hclosed ho (fun m₂ hm₂ => ?_) hts hlast).after (.nothing _)
      (.nothing o) hself
    cases r with
    | ok v m₁ =>
      obtain ⟨t, ht⟩ := hr m₁ rfl
      obtain ⟨u, hu⟩ := Output.write_took m₁.output (m₁.pieces v ++ ["\n"])
      refine ⟨t ++ u, ?_⟩
      rw [← ByteArray.append_assoc, printed_left hm₂]
      exact ht.trans hu
    | error e m₁ => exact hr m₂ hm₂
    | outOfFuel => cases hm₂
  | outOfFuel hts => exact .outOfFuel (hself.append (.nothing _) (.nothing o) hts)

end Cuts

end Eval

/-! ## The evaluator -/

open Eval

mutual

theorem evaluate_cuts : ∀ (fuel : Nat) (p : Option String) (e : Expr),
    Cuts (evaluate fuel e) (Task.trail fuel (.expr p e))
  | 0, _, _ => .outOfFuel
  | fuel + 1, p, e => by
    refine .start ?_ _
    cases e with
    | literal value => exact .pure value.value
    | grouping inner => exact evaluate_cuts fuel p inner
    | unary operator right =>
      rw [evaluate]
      exact (evaluate_cuts fuel p right).thenSilent fun v => .ofExcept _
    | binary left operator right =>
      rw [evaluate]
      refine (evaluate_cuts fuel p left).bind fun v => ?_
      exact (evaluate_cuts fuel p right).thenSilent fun u => .ofExcept _
    | logical left operator right =>
      rw [evaluate]
      refine (evaluate_cuts fuel p left).bind fun v => ?_
      split
      · exact .pure v
      · exact evaluate_cuts fuel p right
    | «variable» name depth => exact (Silent.readVariable name depth).cuts
    | assign name value depth =>
      rw [evaluate]
      refine (evaluate_cuts fuel p value).thenSilent fun v => ?_
      exact (Silent.writeVariable name depth v).bind fun _ => .pure v
    | call callee paren arguments =>
      rw [evaluate]
      refine (evaluate_cuts fuel p callee).bind fun v => ?_
      exact (evaluateAll_cuts fuel p arguments).bind fun vs => call_cuts fuel v paren vs
    | get object name =>
      rw [evaluate]
      refine (evaluate_cuts fuel p object).thenSilent fun v => ?_
      cases v with
      | instanceRef i => exact .getProperty i name
      | _ => exact .fault name _
    | set object name value =>
      rw [evaluate]
      refine (evaluate_cuts fuel p object).bind fun v => ?_
      cases v with
      | instanceRef i =>
        refine (evaluate_cuts fuel p value).thenSilent fun u => ?_
        exact (Silent.setField i name.lexeme u).bind fun _ => .pure u
      | _ => exact .fault name _
    | this keyword depth => exact (Silent.readVariable keyword depth).cuts
    | super keyword method depth => exact (Silent.superMethod keyword method depth).cuts

theorem evaluateAll_cuts : ∀ (fuel : Nat) (p : Option String) (es : List Expr),
    Cuts (evaluateAll fuel es) (Task.trail fuel (.exprs p es))
  | 0, _, _ => .outOfFuel
  | _ + 1, _, [] => .start (.pure []) _
  | fuel + 1, p, e :: es => by
    rw [evaluateAll]
    refine .start ((evaluate_cuts fuel p e).bind fun v => ?_) _
    exact (evaluateAll_cuts fuel p es).thenSilent fun vs => .pure (v :: vs)

theorem call_cuts : ∀ (fuel : Nat) (callee : Value) (paren : Token) (arguments : List Value),
    Cuts (call fuel callee paren arguments) (Task.trail fuel (.call callee paren arguments))
  | 0, _, _, _ => .outOfFuel
  | fuel + 1, callee, paren, arguments => by
    rw [call]
    refine .start ((Silent.checkCall callee paren arguments.length).step fun f => ?_) _
    cases f with
    | native f => exact (Silent.callNative f).cuts
    | function f => exact invoke_cuts fuel f arguments
    | construct c =>
      refine (Silent.newInstance c).step fun this => ?_
      refine (Silent.initializerOf c).step fun initializer => ?_
      cases initializer with
      | none => exact .pure this
      | some initializer =>
        refine (Silent.bindMethod initializer this).step fun f => ?_
        exact (invoke_cuts fuel f arguments).thenSilent fun _ => .pure this

theorem invoke_cuts : ∀ (fuel : Nat) (f : Function) (arguments : List Value),
    Cuts (invoke fuel f arguments) (Task.trail fuel (.invoke f arguments))
  | 0, _, _ => .outOfFuel
  | fuel + 1, f, arguments => by
    rw [invoke, Task.trail, Task.parts]
    refine .start ((Silent.newFrame _ _).step fun frame => ?_) _
    refine (Cuts.within frame (executeAll_cuts fuel f.decl.body)).thenSilent fun flow => ?_
    split
    · exact .boundInstance f
    · cases flow <;> exact .pure _

theorem execute_cuts : ∀ (fuel : Nat) (s : Stmt),
    Cuts (execute fuel s) (Task.trail fuel (.stmt s))
  | 0, _ => .outOfFuel
  | fuel + 1, .print keyword value => (evaluate_cuts fuel none value).print keyword
  | fuel + 1, .expression value => by
    rw [execute]
    exact .start ((evaluate_cuts fuel none value).thenSilent fun _ => .pure _) _
  | fuel + 1, .var name none => by
    rw [execute]
    exact .start ((Silent.define name.lexeme .nil).bind fun _ => .pure _).cuts _
  | fuel + 1, .var name (some value) => by
    rw [execute]
    refine .start (.thenSilent (fun m => evaluate_cuts fuel (m.pending name) value m) fun v => ?_) _
    exact (Silent.define name.lexeme v).bind fun _ => .pure _
  | fuel + 1, .block body => by
    rw [execute, Task.trail, Task.parts]
    refine .start (Silent.currentFrame.step fun current => ?_) _
    refine (Silent.newFrame current []).step fun frame => ?_
    exact .within frame (executeAll_cuts fuel body)
  | fuel + 1, .conditional condition thenBranch none => by
    rw [execute]
    refine .start ((evaluate_cuts fuel none condition).bind fun v => ?_) _
    split
    · exact execute_cuts fuel thenBranch
    · exact .pure _
  | fuel + 1, .conditional condition thenBranch (some elseBranch) => by
    rw [execute]
    refine .start ((evaluate_cuts fuel none condition).bind fun v => ?_) _
    split
    · exact execute_cuts fuel thenBranch
    · exact execute_cuts fuel elseBranch
  | fuel + 1, .loop condition body => .start (executeLoop_cuts fuel condition body) _
  | fuel + 1, .function decl => by
    rw [execute]
    refine .start (Silent.cuts (Silent.currentFrame.bind fun current => ?_)) _
    refine (Silent.newFunction _).bind fun f => ?_
    exact (Silent.define decl.name.lexeme f).bind fun _ => .pure _
  | fuel + 1, .ret keyword none => .start (.pure _) _
  | fuel + 1, .ret keyword (some value) => by
    rw [execute]
    exact .start ((evaluate_cuts fuel none value).thenSilent fun v => .pure _) _
  | fuel + 1, .classDecl name none methods => by
    rw [execute]
    refine .start (Silent.cuts ((Silent.define name.lexeme .nil).bind fun _ => ?_)) _
    refine Silent.currentFrame.bind fun current => ?_
    refine (Silent.newClass _).bind fun c => ?_
    exact (Silent.assignVisible name c).bind fun _ => .pure _
  | fuel + 1, .classDecl name (some superclass) methods => by
    rw [execute]
    refine .start ((evaluate_cuts fuel none superclass).thenSilent fun v => ?_) _
    cases v with
    | classRef above =>
      refine (Silent.define name.lexeme .nil).bind fun _ => ?_
      refine Silent.currentFrame.bind fun current => ?_
      refine (Silent.newFrame current _).bind fun closure => ?_
      refine (Silent.newClass _).bind fun c => ?_
      exact (Silent.assignVisible name c).bind fun _ => .pure _
    | _ => exact .fault _ _

theorem executeLoop_cuts : ∀ (fuel : Nat) (condition : Expr) (body : Stmt),
    Cuts (executeLoop fuel condition body) (Task.trail fuel (.loop condition body))
  | 0, _, _ => .outOfFuel
  | fuel + 1, condition, body => by
    rw [executeLoop]
    refine .start ((evaluate_cuts fuel none condition).bind fun v => ?_) _
    split
    · refine (execute_cuts fuel body).bind fun flow => ?_
      cases flow with
      | next => exact executeLoop_cuts fuel condition body
      | returned value keyword => exact .pure _
    · exact .pure _

theorem executeAll_cuts : ∀ (fuel : Nat) (ss : List Stmt),
    Cuts (executeAll fuel ss) (Task.trail fuel (.stmts ss))
  | 0, _ => .outOfFuel
  | _ + 1, [] => .start (.pure _) _
  | fuel + 1, s :: ss => by
    rw [executeAll]
    refine .start ((execute_cuts fuel s).bind fun flow => ?_) _
    cases flow with
    | next => exact executeAll_cuts fuel ss
    | returned value keyword => exact .pure _

end

/-- **A narrower output only cuts a run short**: the run ends as with the wider output and has
printed the same, or it ends at a print of which a write is refused and has printed the beginning.
-/
theorem interpret_cuts (fuel : Nat) (program : List Stmt) :
    Cuts (interpret fuel program) (Task.trail fuel (.stmts program)) := by
  unfold interpret
  refine (executeAll_cuts fuel program).thenSilent fun flow => ?_
  cases flow with
  | next => exact .pure ()
  | returned value keyword => exact .fault keyword _

end Lox
