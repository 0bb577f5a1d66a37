import Lox.Proofs.Lexical.Twin

/-!
# The steps of a repeated run

Each operation of the evaluator, run in mirrored worlds, gives twin results in worlds that mirror
each other again (`Follows`). Two things may end this. An error of the first run is only met again
when that run stops there, since then the second run has found no globals that the first has not
made; and the output may refuse a write of the second run.
-/

set_option autoImplicit false

namespace Lox.Lexical

open Run

/-! ## Following -/

section Follows

variable {α β α' β' : Type} {o : Output} {w a b : World}

/-- What the second run does when the first does this. -/
inductive Follows (o : Output) (w : World) (R : α → α' → Prop) :
    Option (Except RuntimeError α × World) → Option (Except RuntimeError α' × World) → Prop
  | ok {x : α} {y : α'} {a b : World} (h : Mirrors o w a b) (hxy : R x y) :
      Follows o w R (some (.ok x, a)) (some (.ok y, b))
  /-- The first run stops here if this is the world that it leaves. -/
  | error {e : RuntimeError} {a : World}
      {r : Option (Except RuntimeError α' × World)}
      (h : a = w → ∃ b, r = some (.error e, b) ∧ Mirrors o w a b) :
      Follows o w R (some (.error e, a)) r
  /-- The output is closed after what the second run has printed. -/
  | refused {r : Option (Except RuntimeError α × World)} {e : RuntimeError} {b : World}
      (h : e.cause = .outputFailed w.output.reason)
      (hclosed : ∃ bytes, b.output = w.output.printed bytes ∧ b.output.IsClosed) :
      Follows o w R r (some (.error e, b))
  | outOfFuel {r : Option (Except RuntimeError α' × World)} : Follows o w R none r

variable {R : α → α' → Prop} {S : β → β' → Prop}

theorem Follows.pure {x : α} {y : α'} (h : Mirrors o w a b) (hxy : R x y) :
    Follows o w R ((Pure.pure x : Run α) a) ((Pure.pure y : Run α') b) :=
  .ok h hxy

/-- The same error in mirrored worlds. -/
theorem Follows.stop {e : RuntimeError} (h : Mirrors o w a b) :
    Follows o w R (some (.error e, a)) (some (.error e, b)) :=
  .error fun _ => ⟨b, rfl, h⟩

theorem Follows.fault (h : Mirrors o w a b) (token : Token) (cause : RuntimeCause) :
    Follows o w R (Run.fault token cause a) (Run.fault token cause b) :=
  .stop h

theorem Follows.ofExcept (h : Mirrors o w a b) {r r' : Except RuntimeError Value}
    (hr : SameResult (Twin w.counts) r r') :
    Follows o w (Twin w.counts) (Run.ofExcept r a) (Run.ofExcept r' b) := by
  cases hr with
  | ok hv => exact .ok h hv
  | error e => exact .stop h

theorem Follows.bind {x : Run α} {x' : Run α'} {f : α → Run β} {f' : α' → Run β'}
    (h : Follows o w R (x a) (x' b))
    (hf : ∀ {u v a' b'}, Mirrors o w a' b' → R u v → Follows o w S (f u a') (f' v b')) :
    Follows o w S ((x >>= f) a) ((x' >>= f') b) := by
  show Follows o w S (Run.bind x f a) (Run.bind x' f' b)
  unfold Run.bind
  generalize x a = r at h
  generalize x' b = r' at h
  cases h with
  | ok h hxy => exact hf h hxy
  | error h =>
    refine .error fun ha => ?_
    obtain ⟨b', rfl, hb⟩ := h ha
    exact ⟨b', rfl, hb⟩
  | refused h hclosed => exact .refused h hclosed
  | outOfFuel => exact .outOfFuel

end Follows

variable {o : Output} {w a b : World} {visible visible' : Names} {v v' : Value}

/-! ## Variables -/

theorem Shifted.getD {n : Nat} {k : Counts} {xs ys : Array Value}
    (h : Shifted (Twin k) n xs ys) (i : Nat) :
    Twin k (xs[i]?.getD .nil) (ys[i + n]?.getD .nil) := by
  have hi := h.get i
  generalize xs[i]? = x at hi ⊢
  generalize ys[i + n]? = y at hi ⊢
  cases hi with
  | none => exact .nil
  | some hxy => exact hxy

/-- A global that the first run does not find when it stops there is not found in the second. -/
theorem Mirrors.absent (h : Mirrors o w a b) {x : String} (hx : a.globals.get? x = none)
    (ha : a = w) : b.globals.get? x = none := by
  rw [← Option.not_isSome_iff_eq_none]
  intro hb
  have hleft := h.left hx hb
  rw [← ha, hx] at hleft
  cases hleft

theorem Mirrors.read (h : Mirrors o w a b) (hvisible : TwinNames w.counts visible visible')
    {name : Token} (hname : name.lexeme ≠ Native.clock.name) :
    Follows o w (Twin w.counts) (Lexical.read visible name a) (Lexical.read visible' name b) := by
  have hl := hvisible name.lexeme
  unfold Lexical.read
  generalize visible.get? name.lexeme = l at hl ⊢
  generalize visible'.get? name.lexeme = l' at hl ⊢
  cases hl with
  | some hl =>
    subst hl
    exact .ok h (h.store.getD _)
  | none =>
    dsimp only
    cases hg : a.globals.get? name.lexeme with
    | some v =>
      obtain ⟨v', hb, htwin⟩ := h.globals hg
      rw [hb]
      exact .ok h (htwin hname)
    | none =>
      refine .error fun ha => ⟨b, ?_, h⟩
      rw [h.absent hg ha]

/-- A global gets twin values. -/
theorem Mirrors.insert (h : Mirrors o w a b) (name : String) (hv : Twin w.counts v v') :
    Mirrors o w { a with globals := a.globals.insert name v }
      { b with globals := b.globals.insert name v' } where
  globals := by
    intro x u hu
    simp only [Bindings.get?_insert] at hu ⊢
    split at hu
    · cases hu
      rename_i hx
      exact ⟨v', if_pos hx, fun _ => hv⟩
    · rename_i hx
      simp only [if_neg hx]
      exact h.globals hu
  left := by
    intro x hx hb
    simp only [Bindings.get?_insert] at hx hb
    split at hx
    · cases hx
    · rename_i hne
      rw [if_neg hne] at hb
      exact h.left hx hb
  store := h.store
  functions := h.functions
  classes := h.classes
  instances := h.instances
  output := h.output

theorem Mirrors.write (h : Mirrors o w a b) (hvisible : TwinNames w.counts visible visible')
    (pending : Option String) (name : Token) (hv : Twin w.counts v v') :
    Follows o w (fun _ _ => True) (Lexical.write visible pending name v a)
      (Lexical.write visible' pending name v' b) := by
  have hl := hvisible name.lexeme
  unfold Lexical.write
  by_cases hpending : pending = some name.lexeme
  · rw [if_pos hpending, if_pos hpending]
    exact .stop h
  · rw [if_neg hpending, if_neg hpending]
    generalize visible.get? name.lexeme = l at hl ⊢
    generalize visible'.get? name.lexeme = l' at hl ⊢
    cases hl with
    | some hl =>
      subst hl
      exact .ok { h with store := h.store.set _ hv } trivial
    | none =>
      dsimp only
      cases hg : a.globals.get? name.lexeme with
      | some u =>
        obtain ⟨u', hb, -⟩ := h.globals hg
        rw [hb]
        exact .ok (h.insert _ hv) trivial
      | none =>
        refine .error fun ha => ⟨b, ?_, h⟩
        rw [h.absent hg ha]

theorem Mirrors.allocate (h : Mirrors o w a b) (hvisible : TwinNames w.counts visible visible')
    (name : String) (hv : Twin w.counts v v') :
    Follows o w (TwinNames w.counts) (Lexical.allocate visible name v a)
      (Lexical.allocate visible' name v' b) :=
  .ok { h with store := h.store.push hv } (hvisible.insert name h.store.size)

theorem Mirrors.allocateAll : ∀ {bindings bindings' : List (String × Value)} {a b : World}
    {visible visible' : Names}, Mirrors o w a b → TwinNames w.counts visible visible' →
    List.Forall₂ (fun e e' => e'.1 = e.1 ∧ Twin w.counts e.2 e'.2) bindings bindings' →
    Follows o w (TwinNames w.counts) (Lexical.allocateAll visible bindings a)
      (Lexical.allocateAll visible' bindings' b)
  | _, _, a, b, visible, visible', h, hvisible, .nil => .pure h hvisible
  | (_, _) :: _, (_, _) :: _, a, b, visible, visible', h, hvisible, .cons ⟨hname, hv⟩ hrest => by
    dsimp only at hname
    subst hname
    exact (h.allocate hvisible _ hv).bind fun h hvisible => h.allocateAll hvisible hrest

theorem Mirrors.declare (h : Mirrors o w a b) (atTop : Bool)
    (hvisible : TwinNames w.counts visible visible') (name : String) (hv : Twin w.counts v v') :
    Follows o w (TwinNames w.counts) (Lexical.declare atTop visible name v a)
      (Lexical.declare atTop visible' name v' b) := by
  cases atTop with
  | true => exact .ok (h.insert name hv) hvisible
  | false => exact h.allocate hvisible name hv

/-! ## Objects -/

theorem Mirrors.newFunction (h : Mirrors o w a b) {f f' : Closure}
    (hf : TwinClosure w.counts f f') :
    Follows o w (Twin w.counts) (Lexical.newFunction f a) (Lexical.newFunction f' b) := by
  refine .ok { h with functions := h.functions.push hf } ?_
  rw [h.functions.size]
  exact .function _

theorem Mirrors.newClass (h : Mirrors o w a b) {c c' : Class} (hc : TwinClass w.counts c c') :
    Follows o w (Twin w.counts) (Lexical.newClass c a) (Lexical.newClass c' b) := by
  refine .ok { h with classes := h.classes.push hc } ?_
  rw [h.classes.size]
  exact .class _

theorem Mirrors.newInstance (h : Mirrors o w a b) (c : ClassId) :
    Follows o w (Twin w.counts) (Lexical.newInstance c a)
      (Lexical.newInstance (c + w.counts.classes) b) := by
  refine .ok { h with instances := h.instances.push ⟨rfl, .empty⟩ } ?_
  rw [h.instances.size]
  exact .instance _

theorem Mirrors.bindMethod (h : Mirrors o w a b) {f f' : Closure}
    (hf : TwinClosure w.counts f f') (hv : Twin w.counts v v') :
    Follows o w (TwinClosure w.counts) (Lexical.bindMethod f v a)
      (Lexical.bindMethod f' v' b) :=
  (h.allocate hf.visible "this" hv).bind fun h hvisible =>
    .pure h { hf with visible := hvisible }

/-- A method is found where its twin is. -/
theorem Mirrors.findMethod? (h : Mirrors o w a b) (c : ClassId) (name : String) :
    Option.Rel (TwinClosure w.counts) (a.findMethod? c name)
      (b.findMethod? (c + w.counts.classes) name) := by
  induction c using Nat.strongRecOn with
  | ind c ih =>
    rw [World.findMethod?, World.findMethod?]
    have hclass := h.classes.get c
    generalize a.classes[c]? = info at hclass ⊢
    generalize b.classes[c + w.counts.classes]? = info' at hclass ⊢
    cases hclass with
    | none => exact .none
    | @some info info' hclass =>
      have hmethod := hclass.methods name
      dsimp only
      rw [hclass.superclass]
      generalize info.methods.get? name = f at hmethod ⊢
      generalize info'.methods.get? name = f' at hmethod ⊢
      cases hmethod with
      | some hf => exact .some hf
      | none =>
        cases info.superclass with
        | none => exact .none
        | some above =>
          simp only [Option.map_some]
          by_cases hlt : above < c
          · rw [if_pos hlt, if_pos (Nat.add_lt_add_right hlt _)]
            exact ih above hlt
          · rw [if_neg hlt, if_neg fun h => hlt (Nat.lt_of_add_lt_add_right h)]
            exact .none

theorem Mirrors.boundMethod (h : Mirrors o w a b) (c : ClassId) (name : Token)
    (hv : Twin w.counts v v') :
    Follows o w (Twin w.counts) (Lexical.boundMethod c name v a)
      (Lexical.boundMethod (c + w.counts.classes) name v' b) := by
  have hmethod := h.findMethod? c name.lexeme
  unfold Lexical.boundMethod
  generalize a.findMethod? c name.lexeme = f at hmethod ⊢
  generalize b.findMethod? (c + w.counts.classes) name.lexeme = f' at hmethod ⊢
  cases hmethod with
  | none => exact .stop h
  | some hf => exact (h.bindMethod hf hv).bind fun h hf => h.newFunction hf

theorem Mirrors.getProperty (h : Mirrors o w a b) (i : InstanceId) (name : Token) :
    Follows o w (Twin w.counts) (Lexical.getProperty i name a)
      (Lexical.getProperty (i + w.counts.instances) name b) := by
  have hinstance := h.instances.get i
  unfold Lexical.getProperty
  generalize a.instances[i]? = x at hinstance ⊢
  generalize b.instances[i + w.counts.instances]? = x' at hinstance ⊢
  cases hinstance with
  | none => exact .stop h
  | @some x x' hx =>
    have hfield := hx.fields name.lexeme
    dsimp only
    rw [hx.ofClass]
    generalize x.fields.get? name.lexeme = u at hfield ⊢
    generalize x'.fields.get? name.lexeme = u' at hfield ⊢
    cases hfield with
    | some hu => exact .ok h hu
    | none => exact h.boundMethod x.ofClass name (.instance i)

theorem TwinInstance.setField {k : Counts} {x x' : Instance} (h : TwinInstance k x x')
    (name : String) (hv : Twin k v v') :
    TwinInstance k { x with fields := x.fields.insert name v }
      { x' with fields := x'.fields.insert name v' } :=
  ⟨h.ofClass, h.fields.insert name hv⟩

theorem Mirrors.setField (h : Mirrors o w a b) (i : InstanceId) (name : String)
    (hv : Twin w.counts v v') :
    Follows o w (fun _ _ => True) (Lexical.setField i name v a)
      (Lexical.setField (i + w.counts.instances) name v' b) :=
  .ok { h with instances := h.instances.modify i fun hx => hx.setField name hv } trivial

theorem Mirrors.superMethod (h : Mirrors o w a b)
    (hvisible : TwinNames w.counts visible visible') (keyword method : Token) :
    Follows o w (Twin w.counts) (Lexical.superMethod visible keyword method a)
      (Lexical.superMethod visible' keyword method b) := by
  have hsuper := hvisible "super"
  have hthis := hvisible "this"
  unfold Lexical.superMethod
  generalize visible.get? "super" = l at hsuper ⊢
  generalize visible'.get? "super" = l' at hsuper ⊢
  generalize visible.get? "this" = t at hthis ⊢
  generalize visible'.get? "this" = t' at hthis ⊢
  cases hsuper with
  | none => exact .stop h
  | @some l _ hl =>
    cases hthis with
    | none => exact .stop h
    | @some t _ ht =>
      subst hl ht
      have habove := h.store.get l
      dsimp only
      generalize a.store[l]? = u at habove ⊢
      generalize b.store[l + w.counts.store]? = u' at habove ⊢
      cases habove with
      | none => exact .stop h
      | some hu =>
        cases hu with
        | «class» c => exact h.boundMethod c method (h.store.getD t)
        | _ => exact .stop h

/-! ## Calls and output -/

/-- What twins call. -/
inductive TwinCallable (k : Counts) : Callable → Callable → Prop
  | closure {f f' : Closure} (h : TwinClosure k f f') : TwinCallable k (.closure f) (.closure f')
  | construct (c : ClassId) : TwinCallable k (.construct c) (.construct (c + k.classes))

theorem Mirrors.callable? (h : Mirrors o w a b) (hv : Twin w.counts v v') :
    Option.Rel (fun f f' => TwinCallable w.counts f.1 f'.1 ∧ f'.2 = f.2) (Lexical.callable? a v)
      (Lexical.callable? b v') := by
  cases hv with
  | function id =>
    have hf := h.functions.get id
    simp only [Lexical.callable?]
    generalize a.functions[id]? = f at hf ⊢
    generalize b.functions[id + w.counts.functions]? = f' at hf ⊢
    cases hf with
    | none => exact .none
    | some hf => exact .some ⟨.closure hf, by simp only [hf.decl]⟩
  | «class» c =>
    have hf := h.findMethod? c initializerName
    refine .some ⟨.construct c, ?_⟩
    generalize a.findMethod? c initializerName = f at hf ⊢
    generalize b.findMethod? (c + w.counts.classes) initializerName = f' at hf ⊢
    cases hf with
    | none => rfl
    | some hf => simp only [Option.map_some, hf.decl]
  | _ => exact .none

theorem Mirrors.checkCall (h : Mirrors o w a b) (hv : Twin w.counts v v') (paren : Token)
    (count : Nat) :
    Follows o w (TwinCallable w.counts) (Lexical.checkCall v paren count a)
      (Lexical.checkCall v' paren count b) := by
  have hcallable := h.callable? hv
  unfold Lexical.checkCall
  generalize Lexical.callable? a v = f at hcallable ⊢
  generalize Lexical.callable? b v' = f' at hcallable ⊢
  cases hcallable with
  | none => exact .stop h
  | @some f f' hf =>
    obtain ⟨f, arity⟩ := f
    obtain ⟨f', arity'⟩ := f'
    obtain ⟨hf, rfl⟩ := hf
    dsimp only
    by_cases hcount : count = arity'
    · rw [if_pos hcount, if_pos hcount]
      exact .ok h hf
    · rw [if_neg hcount, if_neg hcount]
      exact .stop h

theorem Mirrors.initializerOf (h : Mirrors o w a b) (c : ClassId) :
    Follows o w (Option.Rel (TwinClosure w.counts)) (Lexical.initializerOf c a)
      (Lexical.initializerOf (c + w.counts.classes) b) :=
  .ok h (h.findMethod? c initializerName)

theorem Mirrors.boundInstance (h : Mirrors o w a b) {f f' : Closure}
    (hf : TwinClosure w.counts f f') :
    Follows o w (Twin w.counts) (Lexical.boundInstance f a) (Lexical.boundInstance f' b) := by
  have hthis := hf.visible "this"
  refine .ok h ?_
  generalize f.visible.get? "this" = l at hthis ⊢
  generalize f'.visible.get? "this" = l' at hthis ⊢
  cases hthis with
  | none => exact .nil
  | some hl =>
    subst hl
    exact h.store.getD _

theorem Mirrors.className (h : Mirrors o w a b) (c : ClassId) :
    b.className (c + w.counts.classes) = a.className c := by
  have hclass := h.classes.get c
  unfold World.className
  generalize a.classes[c]? = info at hclass ⊢
  generalize b.classes[c + w.counts.classes]? = info' at hclass ⊢
  cases hclass with
  | none => rfl
  | some hclass => exact hclass.name

/-- Twins are printed alike. -/
theorem Mirrors.pieces (h : Mirrors o w a b) (hv : Twin w.counts v v') :
    b.pieces v' = a.pieces v := by
  cases hv with
  | bool b => cases b <;> rfl
  | function id =>
    have hf := h.functions.get id
    simp only [World.pieces]
    generalize a.functions[id]? = f at hf ⊢
    generalize b.functions[id + w.counts.functions]? = f' at hf ⊢
    cases hf with
    | none => rfl
    | some hf => simp only [Option.map_some, hf.decl]
  | «class» c => simp only [World.pieces, h.className]
  | «instance» i =>
    have hx := h.instances.get i
    simp only [World.pieces]
    generalize a.instances[i]? = x at hx ⊢
    generalize b.instances[i + w.counts.instances]? = x' at hx ⊢
    cases hx with
    | none => rfl
    | some hx => simp only [Option.map_some, hx.ofClass, h.className]
  | _ => rfl

theorem Mirrors.printLine (h : Mirrors o w a b) (keyword : Token) (hv : Twin w.counts v v') :
    Follows o w (fun _ _ => True) (Lexical.printLine keyword v a)
      (Lexical.printLine keyword v' b) := by
  obtain ⟨bytes, ha, hb, hopen⟩ := h.output
  have hwa := a.output.write_spec (a.pieces v ++ ["\n"])
  have hwb := b.output.write_spec (a.pieces v ++ ["\n"])
  unfold Lexical.printLine Output.writeLine
  rw [h.pieces hv]
  generalize a.output.write (a.pieces v ++ ["\n"]) = r at hwa ⊢
  generalize b.output.write (a.pieces v ++ ["\n"]) = r' at hwb ⊢
  cases hwb with
  | @refused output' front _ htook hclosed _ _ =>
    have houtput' : output' = w.output.printed (bytes ++ front) := by
      rw [htook.printed, hb, Output.printed_printed]
    refine .refused ?_ ⟨_, houtput', hclosed⟩
    rw [houtput']
    rfl
  | accepted htook' =>
    -- whether or not the second run has printed before, `w` has to be open
    have hopen' : w.output.isOpen w.output.written = true := by
      by_cases hbytes : bytes = .empty
      · rw [hbytes, Output.printed_empty] at hb
        rw [← hb]
        exact htook'.isOpen.resolve_left (Output.toUTF8_line_ne _)
      · exact hopen hbytes
    cases hwa with
    | accepted htook =>
      have houtput := htook.printed
      have houtput' := htook'.printed
      rw [ha, Output.printed_printed] at houtput
      rw [hb, Output.printed_printed] at houtput'
      exact .ok { h with output := ⟨_, houtput, houtput', fun _ => hopen'⟩ } trivial
    | refused _ hclosed _ _ =>
      refine .error fun hend => ?_
      rw [← hend, hclosed] at hopen'
      cases hopen'

end Lox.Lexical
