import Lox.Proofs.Run.Chains

/-!
# The frame that owns a name

Seen from a frame, a name belongs to the first frame outwards that binds it, its `Owner`. In frames
that are `Built` by making frames, definitions and assignments, reads by search give the value at
the owner, and a write by search changes what is read from exactly those frames that have the same
owner (`Built.owner_agrees`). Reads and writes by distance go to one frame and to no other.
-/

set_option autoImplicit false

namespace Lox.Frames

variable {α : Type} {fs fs' : Frames α} {f g o : FrameId} {x y : String} {v : α}

/-! ## Owners -/

/-- A frame itself binds a name. -/
def Binds (fs : Frames α) (f : FrameId) (x : String) : Prop :=
  (fs.here? f x).isSome

instance (fs : Frames α) (f : FrameId) (x : String) : Decidable (fs.Binds f x) :=
  inferInstanceAs (Decidable (_ = true))

/-- The first frame on the way outwards from a frame that binds the name `x`. -/
inductive Owner (fs : Frames α) (x : String) : FrameId → FrameId → Prop
  | here {f : FrameId} (h : fs.Binds f x) : Owner fs x f f
  | outwards {f outer o : FrameId} (h : ¬ fs.Binds f x) (hl : fs.enclosing? f = some outer)
      (ho : Owner fs x outer o) : Owner fs x f o

theorem Owner.binds (h : fs.Owner x f o) : fs.Binds o x := by
  induction h with
  | here h => exact h
  | outwards _ _ _ ih => exact ih

theorem Owner.unique {o' : FrameId} (h : fs.Owner x f o) (h' : fs.Owner x f o') : o = o' := by
  induction h with
  | here h =>
    cases h' with
    | here => rfl
    | outwards hn => exact absurd h hn
  | outwards hn hl _ ih =>
    cases h' with
    | here h => exact absurd h hn
    | outwards _ hl' ho' =>
      rw [hl] at hl'
      cases hl'
      exact ih ho'

/-- Who owns a name depends on the links and on which frames bind it. -/
theorem Owner.congr (hlinks : ∀ g, fs'.enclosing? g = fs.enclosing? g)
    (hbinds : ∀ g, fs'.Binds g x ↔ fs.Binds g x) (h : fs.Owner x f o) : fs'.Owner x f o := by
  induction h with
  | here h => exact .here ((hbinds _).2 h)
  | outwards hn hl _ ih =>
    exact .outwards (fun hb => hn ((hbinds _).1 hb)) ((hlinks _).trans hl) ih

theorem not_binds_iff : ¬ fs.Binds f x ↔ fs.here? f x = none := by
  rw [Binds, Bool.not_eq_true, Option.isSome_eq_false_iff, Option.isNone_iff_eq_none]

/-- Where links descend, the search ends at the owner. -/
theorem Descends.owner?_eq_some_iff (h : fs.Descends) (f : FrameId) :
    fs.owner? f x = some o ↔ fs.Owner x f o := by
  induction f using Nat.strongRecOn with
  | ind f ih =>
    rw [owner?]
    cases hhere : fs.here? f x with
    | some v =>
      have hbinds : fs.Binds f x := Option.isSome_of_eq_some hhere
      refine ⟨fun heq => ?_, fun ho => congrArg some (Owner.unique (.here hbinds) ho)⟩
      cases heq
      exact .here hbinds
    | none =>
      have hnot : ¬ fs.Binds f x := not_binds_iff.2 hhere
      cases hlink : fs.enclosing? f with
      | none =>
        refine ⟨fun hsome => absurd hsome.symm (Option.some_ne_none o), fun ho => ?_⟩
        cases ho with
        | here hb => exact absurd hb hnot
        | outwards _ hl => rw [hlink] at hl; cases hl
      | some outer =>
        have hlt : outer < f := h f outer hlink
        dsimp only
        rw [if_pos hlt, ih outer hlt]
        refine ⟨.outwards hnot hlink, fun ho => ?_⟩
        cases ho with
        | here hb => exact absurd hb hnot
        | outwards _ hl ho =>
          rw [hlink] at hl
          cases hl
          exact ho

/-- The two searches stop at the same frame. -/
theorem get?_eq_bind (fs : Frames α) (f : FrameId) (x : String) :
    fs.get? f x = (fs.owner? f x).bind fun o => fs.here? o x := by
  induction f using Nat.strongRecOn with
  | ind f ih =>
    rw [get?, owner?]
    cases hhere : fs.here? f x with
    | some v => exact hhere.symm
    | none =>
      cases fs.enclosing? f with
      | none => rfl
      | some outer =>
        dsimp only
        by_cases hlt : outer < f
        · rw [if_pos hlt, if_pos hlt, ih outer hlt]
        · rw [if_neg hlt, if_neg hlt]
          rfl

theorem Descends.get?_eq_some_iff (h : fs.Descends) :
    fs.get? f x = some v ↔ ∃ o, fs.Owner x f o ∧ fs.here? o x = some v := by
  simp only [get?_eq_bind, Option.bind_eq_some_iff, h.owner?_eq_some_iff]

theorem Descends.get?_eq_none_iff (h : fs.Descends) :
    fs.get? f x = none ↔ ∀ o, ¬ fs.Owner x f o := by
  rw [Option.eq_none_iff_forall_ne_some]
  simp only [Ne, h.get?_eq_some_iff, not_exists, not_and]
  refine ⟨fun hnone o ho => ?_, fun hnone v o ho => absurd ho (hnone o)⟩
  obtain ⟨v, hv⟩ := Option.isSome_iff_exists.1 ho.binds
  exact hnone v o ho hv

/-! ## A new value for a bound name -/

theorem Descends.define (h : fs.Descends) (f : FrameId) (x : String) (v : α) :
    (fs.define f x v).Descends := by
  intro g outer hg
  rw [enclosing?_define] at hg
  exact h g outer hg

theorem Descends.push (h : fs.Descends) {enclosing : Option FrameId}
    (he : ∀ outer, enclosing = some outer → outer < fs.next) : (fs.push enclosing).Descends := by
  intro g outer hg
  rw [enclosing?_push] at hg
  split at hg
  · rename_i hnext
    rw [hnext]
    exact he outer hg
  · exact h g outer hg

theorem insertIn_names (value : α) : ∀ {entries : List (String × α)},
    (entries.lookup x).isSome → (Bindings.insertIn x value entries).map (·.1) = entries.map (·.1)
  | [], h => by cases h
  | (n, w) :: rest, h => by
    by_cases hn : x = n
    · simp [Bindings.insertIn, hn]
    · rw [Bindings.lookup_cons_ne w rest hn] at h
      simp [Bindings.insertIn, hn, insertIn_names value h]

/-- A write where the name is bound, as assignments make it. -/
structure Redefined (fs : Frames α) (o : FrameId) (x : String) (v : α) (fs' : Frames α) : Prop where
  links : ∀ g, fs'.enclosing? g = fs.enclosing? g
  here : ∀ g y, fs'.here? g y = if g = o ∧ y = x then some v else fs.here? g y
  names : ∀ g, fs'.names g = fs.names g

theorem Binds.redefined (h : fs.Binds o x) (v : α) : fs.Redefined o x v (fs.define o x v) where
  links := enclosing?_define fs o x v
  here := by
    intro g y
    obtain ⟨w, hw⟩ := Option.isSome_iff_exists.1 h
    rw [here?_define]
    simp only [lt_of_here? hw, and_true]
  names := by
    intro g
    rw [names_eq, names_eq, bindings?_define]
    split
    · rename_i hg
      subst hg
      rw [Binds, here?_eq] at h
      cases hb : fs.bindings? o with
      | none => rfl
      | some b =>
        rw [hb] at h
        exact insertIn_names v h
    · rfl

namespace Redefined

theorem binds_iff (h : fs.Redefined o x v fs') (hx : fs.Binds o x) (g : FrameId) (y : String) :
    fs'.Binds g y ↔ fs.Binds g y := by
  rw [Binds, h.here]
  split
  · rename_i hall
    rw [hall.1, hall.2]
    exact iff_of_true rfl hx
  · rfl

theorem owner_iff (h : fs.Redefined o x v fs') (hx : fs.Binds o x) :
    fs'.Owner y g f ↔ fs.Owner y g f :=
  ⟨.congr (fun g => (h.links g).symm) fun g => (h.binds_iff hx g y).symm,
    .congr h.links fun g => h.binds_iff hx g y⟩

/-- What is read afterwards, from any frame. -/
theorem get? (h : fs.Redefined o x v fs') (hx : fs.Binds o x) (hd : fs.Descends)
    (hd' : fs'.Descends) (g : FrameId) :
    (fs.Owner x g o → fs'.get? g x = some v) ∧
      ∀ y, (y = x → ¬ fs.Owner x g o) → fs'.get? g y = fs.get? g y := by
  refine ⟨fun ho => ?_, fun y hy => ?_⟩
  · rw [hd'.get?_eq_some_iff]
    exact ⟨o, (h.owner_iff hx).2 ho, by rw [h.here, if_pos ⟨rfl, rfl⟩]⟩
  · refine Option.ext fun w => ?_
    rw [hd'.get?_eq_some_iff, hd.get?_eq_some_iff]
    refine exists_congr fun p => ?_
    rw [h.owner_iff hx]
    refine and_congr_right fun hp => ?_
    rw [h.here, if_neg]
    rintro ⟨rfl, rfl⟩
    exact hy rfl hp

end Redefined

/-! ## Built frames -/

/-- Frames made by any sequence of new frames, definitions and assignments. -/
inductive Built : Frames α → Prop
  | empty : Built .empty
  | push {fs : Frames α} (h : Built fs) {enclosing : Option FrameId}
      (he : ∀ outer, enclosing = some outer → outer < fs.next) : Built (fs.push enclosing)
  | define {fs : Frames α} (h : Built fs) {f : FrameId} (hf : f < fs.next) (x : String) (v : α) :
      Built (fs.define f x v)
  | assign {fs fs' : Frames α} (h : Built fs) {f : FrameId} {x : String} {v : α}
      (ha : fs.assign? f x v = some fs') : Built fs'
  | assignAt {fs fs' : Frames α} (h : Built fs) {f : FrameId} {d : Nat} {x : String} {v : α}
      (ha : fs.assignAt f d x v = .ok fs') : Built fs'

theorem assign?_eq_some_iff :
    fs.assign? f x v = some fs' ↔ ∃ o, fs.owner? f x = some o ∧ fs.define o x v = fs' := by
  rw [assign?]
  cases fs.owner? f x <;> simp

theorem getAt_eq_ok_iff {d : Nat} :
    fs.getAt f d x = .ok v ↔ ∃ g, fs.ancestor? f d = some g ∧ fs.here? g x = some v := by
  rw [getAt]
  cases fs.ancestor? f d with
  | none => simp
  | some g =>
    dsimp only
    cases hx : fs.here? g x <;> simp [hx]

theorem assignAt_eq_ok_iff {d : Nat} : fs.assignAt f d x v = .ok fs' ↔
    ∃ g, fs.ancestor? f d = some g ∧ fs.Binds g x ∧ fs.define g x v = fs' := by
  rw [assignAt]
  cases fs.ancestor? f d with
  | none => simp
  | some g =>
    dsimp only
    cases hx : fs.here? g x <;> simp [hx, Binds]

theorem Built.descends (h : fs.Built) : fs.Descends := by
  induction h with
  | empty =>
    intro f outer hf
    simp [enclosing?, Frames.empty] at hf
  | push _ he ih => exact ih.push he
  | define _ _ x v ih => exact ih.define _ x v
  | assign _ ha ih =>
    obtain ⟨o, -, rfl⟩ := assign?_eq_some_iff.1 ha
    exact ih.define _ _ _
  | assignAt _ ha ih =>
    obtain ⟨g, -, -, rfl⟩ := assignAt_eq_ok_iff.1 ha
    exact ih.define _ _ _

/-- A write by search goes to the owner. -/
theorem Built.assigned (h : fs.Built) (ha : fs.assign? f x v = some fs') :
    ∃ o, fs.Owner x f o ∧ fs.Redefined o x v fs' := by
  obtain ⟨o, ho, rfl⟩ := assign?_eq_some_iff.1 ha
  have howner := (h.descends.owner?_eq_some_iff f).1 ho
  exact ⟨o, howner, howner.binds.redefined v⟩

theorem Built.isSome_assign? (h : fs.Built) (f : FrameId) (x : String) (v : α) :
    (fs.assign? f x v).isSome ↔ (fs.get? f x).isSome := by
  simp only [Option.isSome_iff_exists, assign?_eq_some_iff, h.descends.get?_eq_some_iff,
    h.descends.owner?_eq_some_iff]
  constructor
  · rintro ⟨_, o, ho, rfl⟩
    obtain ⟨w, hw⟩ := Option.isSome_iff_exists.1 ho.binds
    exact ⟨w, o, ho, hw⟩
  · rintro ⟨_, o, ho, -⟩
    exact ⟨_, o, ho, rfl⟩

end Lox.Frames

namespace Lox

open Frames

/-- What the evaluator makes of a name that is not found: it stops with the machine as it was. -/
theorem Eval.not_found (m : Machine) (name : Token) (v : Value) :
    (m.frames.get? Machine.globalFrame name.lexeme = none →
      readVariable name none m = .error (name.fault (.undefinedVariable name.lexeme)) m) ∧
    (m.frames.assign? m.current name.lexeme v = none →
      assignVisible name v m = .error (name.fault (.undefinedVariable name.lexeme)) m) ∧
    ∀ d e, m.frames.assignAt m.current d name.lexeme v = .error e →
      writeVariable name (some d) v m = .error (name.fault (accessCause d name.lexeme e)) m := by
  refine ⟨fun h => ?_, fun h => ?_, fun d e h => ?_⟩
  · simp only [readVariable, h]
  · simp only [assignVisible, h]
  · simp only [writeVariable, h]

/-- **Reads and writes agree on the owner.** A read by search gives the value at the owner, if there
is one. A write by search succeeds where a read does; from then on the name is read with the new
value from the frames that have the same owner, and all else as before. A distance is counted in
links on the path outwards. A read or write by distance succeeds where the frame so far out exists
and itself binds the name, and is about that frame alone. No assignment changes which names a frame
binds, and one that fails leaves the machine as it was. -/
theorem Frames.Built.owner_agrees {fs : Frames Value} (h : fs.Built) (f : FrameId) (x : String) :
    (∀ w, fs.get? f x = some w ↔ ∃ o, fs.Owner x f o ∧ fs.here? o x = some w) ∧
    (fs.get? f x = none ↔ ∀ o, ¬ fs.Owner x f o) ∧
    (∀ v, (fs.assign? f x v).isSome ↔ (fs.get? f x).isSome) ∧
    (∀ v fs', fs.assign? f x v = some fs' → ∃ o, fs.Owner x f o ∧
      (∀ g, fs.Owner x g o → fs'.get? g x = some v) ∧
      (∀ g y, (y = x → ¬ fs.Owner x g o) → fs'.get? g y = fs.get? g y) ∧
      ∀ g, fs'.names g = fs.names g) ∧
    (∃ path, fs.Path f path ∧ ∀ d, fs.ancestor? f d = path[d]?) ∧
    (∀ d w, fs.getAt f d x = .ok w ↔ ∃ g, fs.ancestor? f d = some g ∧ fs.here? g x = some w) ∧
    (∀ d v, (∃ fs', fs.assignAt f d x v = .ok fs') ↔
      ∃ g, fs.ancestor? f d = some g ∧ fs.Binds g x) ∧
    (∀ d v fs', fs.assignAt f d x v = .ok fs' → ∃ g, fs.ancestor? f d = some g ∧
      (∀ g' y, fs'.here? g' y = if g' = g ∧ y = x then some v else fs.here? g' y) ∧
      (∀ g', fs'.enclosing? g' = fs.enclosing? g') ∧ ∀ g', fs'.names g' = fs.names g') ∧
    ∀ m : Machine, m.frames = fs → ∀ name : Token, name.lexeme = x →
      (f = Machine.globalFrame → fs.get? f x = none →
        Eval.readVariable name none m = .error (name.fault (.undefinedVariable x)) m) ∧
      (m.current = f → ∀ v,
        (fs.assign? f x v = none →
          Eval.assignVisible name v m = .error (name.fault (.undefinedVariable x)) m) ∧
        ∀ d e, fs.assignAt f d x v = .error e →
          Eval.writeVariable name (some d) v m
            = .error (name.fault (Eval.accessCause d x e)) m) := by
  refine ⟨fun _ => h.descends.get?_eq_some_iff, h.descends.get?_eq_none_iff,
    h.isSome_assign? f x, fun v fs' ha => ?_, ?_, fun _ _ => getAt_eq_ok_iff, fun d v => ?_,
    fun d v fs' ha => ?_, ?_⟩
  · obtain ⟨o, ho, hredefined⟩ := h.assigned ha
    have hread := hredefined.get? ho.binds h.descends (h.assign ha).descends
    exact ⟨o, ho, fun g => (hread g).1, fun g => (hread g).2, hredefined.names⟩
  · obtain ⟨path, hpath⟩ := h.descends.exists_path f
    exact ⟨path, hpath, hpath.ancestor?⟩
  · simp only [assignAt_eq_ok_iff]
    exact ⟨fun ⟨_, g, hg, hx, _⟩ => ⟨g, hg, hx⟩, fun ⟨g, hg, hx⟩ => ⟨_, g, hg, hx, rfl⟩⟩
  · obtain ⟨g, hg, hx, rfl⟩ := assignAt_eq_ok_iff.1 ha
    have hredefined := hx.redefined v
    exact ⟨g, hg, hredefined.here, hredefined.links, hredefined.names⟩
  · rintro m rfl name rfl
    refine ⟨?_, ?_⟩
    · rintro rfl hnone
      exact (Eval.not_found m name .nil).1 hnone
    · rintro rfl v
      exact (Eval.not_found m name v).2

/-- Two frames inside one that binds `x`, which the second of them shadows. -/
def Frames.siblings : Frames Value :=
  ((((Frames.empty.push none).define 0 "x" (.bool false)).push (some 0)).push (some 0)).define
    2 "x" .nil

theorem Frames.siblings_built : siblings.Built :=
  have hroot : Built (Frames.empty.push none : Frames Value) := .push .empty fun _ h => nomatch h
  .define (.push (.push (.define hroot (by decide) ..) fun _ h => by cases h; decide)
    fun _ h => by cases h; decide) (by decide) ..

/-- A write from the first sibling is read from the outer frame and not from the second sibling. -/
theorem Frames.Built.owner_agrees_shadowed : ∃ fs', siblings.Built ∧
    siblings.assign? 1 "x" (.bool true) = some fs' ∧ fs'.get? 0 "x" = some (.bool true) ∧
    fs'.get? 2 "x" = some .nil := by
  have hinner : siblings.Owner "x" 1 0 := .outwards (by decide) (by decide) (.here (by decide))
  have hshadow : siblings.Owner "x" 2 2 := .here (by decide)
  have howner := (siblings_built.descends.owner?_eq_some_iff 1).2 hinner
  have ha := assign?_eq_some_iff (v := Value.bool true).2 ⟨0, howner, rfl⟩
  obtain ⟨o, ho, hsame, hother, -⟩ := (siblings_built.owner_agrees 1 "x").2.2.2.1 _ _ ha
  cases ho.unique hinner
  refine ⟨_, siblings_built, ha, hsame 0 (.here (by decide)), ?_⟩
  rw [hother 2 "x" fun _ h => absurd (h.unique hshadow) (by decide)]
  exact siblings_built.descends.get?_eq_some_iff.2 ⟨2, hshadow, by decide⟩

end Lox
