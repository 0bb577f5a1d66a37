import Lox.Proofs.Lexical.Objects

/-!
# Declarations of the machine and the world

A declaration names something in the current frame of the machine and gives it a location in the
world, or names it globally in both. Functions and classes are declared before they are made, since
they see their own names.
-/

set_option autoImplicit false

namespace Lox.Lexical

variable {cells : Array Cell} {m : Machine} {w : World} {n : Nest} {visible : Names}

/-! ## Variables -/

/-- A name that the innermost scope may declare is not bound by the current frame. -/
theorem Here.not_cell (h : Here cells m w n visible) {x : String} (hn : n ≠ []) (hx : n.Fresh x)
    (l : Nat) : cells[l]? ≠ some (m.current, x) := by
  intro hl
  obtain ⟨v, hv, -⟩ := h.agree.bound hl
  rw [h.unbound hn hx] at hv
  cases hv

/-- The state after a declaration. -/
theorem Here.define (h : Here cells m w n visible) {name : Token} (hd : n.Declares name)
    (v : Value) :
    Tracks (some m.current) cells m
      (fun cells' m' _ visible' => At cells' m' (n.declare name.lexeme) visible' ∧
        (m'.frames.here? m'.current name.lexeme).isSome)
      (Eval.define name.lexeme v m) (Lexical.declare n.isEmpty visible name.lexeme v w) := by
  have hself : ((m.frames.define m.current name.lexeme v).here? m.current name.lexeme).isSome := by
    rw [Frames.here?_define_self m.frames name.lexeme v h.current]
    rfl
  have hlt : m.current < (m.frames.define m.current name.lexeme v).next := by
    rw [Frames.next_define]
    exact h.current
  cases hn : n with
  | nil =>
    subst hn
    have hcurrent : m.current = Machine.globalFrame := h.top.1 rfl
    obtain ⟨hagree, hgrows⟩ := h.agree.defineGlobal name.lexeme v
    rw [← hcurrent] at hagree hgrows
    exact .ok ⟨hagree, hgrows, rfl⟩ ⟨⟨h.places.mono hgrows, nofun, h.top, hlt⟩, hself⟩
  | cons names outer =>
    have hne : n ≠ [] := hn ▸ List.cons_ne_nil _ _
    have hf : m.current ≠ Machine.globalFrame := fun heq => hne (h.top.2 heq)
    obtain ⟨hagree, hgrows⟩ := h.agree.allocate (v := v) hf h.current (h.not_cell hne hd.2)
      (fun hname => absurd hname hd.1.2)
    have hcell : (cells.push (m.current, name.lexeme))[w.store.size]?
        = some (m.current, name.lexeme) := by
      rw [Array.getElem?_push, if_pos h.agree.size]
    have hplaces := (h.places.mono hgrows).declare hne hcell
    have hnames : ∀ x, ((m.frames.define m.current name.lexeme v).here? m.current x).isSome →
        ∀ names' ∈ (n.declare name.lexeme).head?, x ∈ names' := by
      intro x hx names' hnames'
      rw [hn] at hnames'
      cases hnames'
      rw [Frames.here?_define] at hx
      split at hx
      · rename_i hall
        exact hall.2.1 ▸ List.mem_cons_self ..
      · exact List.mem_cons_of_mem _ (h.names x hx names (by rw [hn]; rfl))
    have hat : At (cells.push (m.current, name.lexeme))
        { m with frames := m.frames.define m.current name.lexeme v } (n.declare name.lexeme)
        (visible.insert name.lexeme w.store.size) :=
      ⟨hplaces, hnames, by rw [Nest.declare_eq_nil]; exact h.top, hlt⟩
    rw [hn] at hat
    exact .ok ⟨hagree, hgrows, rfl⟩ ⟨hat, hself⟩

/-- A new value for a name that the current frame declares. -/
theorem Here.redefine {own : Option FrameId} {name : Token}
    (h : Here cells m w (n.declare name.lexeme) visible) (hname : name.IsName)
    (hbound : (m.frames.here? m.current name.lexeme).isSome) (v : Value) :
    Tracks own cells m Same
      (.ok () { m with frames := m.frames.define m.current name.lexeme v })
      (Lexical.write visible none name v w) := by
  obtain ⟨old, hold⟩ := Option.isSome_iff_exists.1 hbound
  have hpending : Here.Pending (n.declare name.lexeme) none := nofun
  have hwrite : Tracks own cells m Same _ _ := h.write hpending hname v
  unfold Eval.writeVariable at hwrite
  cases n with
  | nil =>
    have hcurrent : m.current = Machine.globalFrame := h.top.1 rfl
    rw [hcurrent] at hold
    simp only [Nest.declare, Nest.target?_none, Nest.distance?_nil,
      Frames.assign?_of_here? hold] at hwrite
    rwa [← hcurrent] at hwrite
  | cons names outer =>
    have hd : Nest.distance? (Nest.declare (names :: outer) name.lexeme) name.lexeme = some 0 := by
      rw [Nest.distance?_declare _ _ _ (List.cons_ne_nil _ _), if_pos rfl]
    simpa only [Nest.target?_none, hd,
      Frames.assignAt_of_here? (Frames.ancestor?_zero ..) hold] using hwrite

/-! ## Statements -/

/-- A statement goes on to a place with this nest in both, or returns the same from both, which only
happens inside a function. -/
inductive SameFlow (n : Nest) (insideFunction : Bool) (cells : Array Cell) (m : Machine) :
    Lox.Flow → Flow → Prop
  | next {visible : Names} (h : At cells m n visible) :
      SameFlow n insideFunction cells m .next (.next visible)
  | returned (value : Value) (keyword : Token) (h : insideFunction = true) :
      SameFlow n insideFunction cells m (.returned value keyword) (.returned value keyword)

/-! ## Functions -/

theorem Here.execute_function (h : Here cells m w n visible) {insideFunction : Bool}
    {decl : FunctionDecl} (hd : n.Declares decl.name)
    (hbody : decl.Scoped (n.declare decl.name.lexeme)) (fuel : Nat) :
    Tracks (some m.current) cells m (SameFlow (n.declare decl.name.lexeme) insideFunction)
      (Lox.execute (fuel + 1) (.function decl) m)
      (Lexical.execute (fuel + 1) n.isEmpty visible (.function decl) w) := by
  -- as in the world, the name is defined before the function is made and once more afterwards
  have hmachine : Lox.execute (fuel + 1) (.function decl) m = (do
      Eval.define decl.name.lexeme .nil
      let f ← Eval.newFunction ⟨decl, m.current, false⟩
      (fun m =>
        .ok () { m with frames := m.frames.define m.current decl.name.lexeme f } : Eval Unit)
      pure .next : Eval Lox.Flow) m := by
    show Result.ok _ _ = Result.ok _ _
    simp only [Frames.define_define]
  rw [hmachine, Lexical.execute]
  refine (h.define hd .nil).bind fun {cells₁ m₁ w₁ _ visible'} hr₁ hat => ?_
  have hhere : Here cells₁ m₁ w₁ (n.declare decl.name.lexeme) visible' := ⟨hat.1, hr₁.agree⟩
  have hobject : SameObject cells₁ m₁.frames ⟨decl, m.current, false⟩ ⟨decl, visible', false⟩ := by
    refine ⟨_, ⟨rfl, rfl, hbody, ?_⟩, nofun⟩
    rw [← hr₁.current]
    exact hat.1.places
  refine (hr₁.agree.newFunction hobject).step fun {_ m₂ _ _ _} hr₂ hf => ?_
  cases hf
  have hbound : (m₂.frames.here? m₂.current decl.name.lexeme).isSome := by
    rw [hr₂.current]
    exact hr₂.grows.keeps _ _ hat.2
  refine ((hhere.later hr₂).redefine hd.1 hbound _).step fun hr₃ _ => ?_
  exact .pure hr₃.agree (.next ((hhere.later hr₂).later hr₃).toAt)

/-! ## Classes -/

section MethodTable

variable {α β : Type} {R : α → β → Prop}

theorem foldl_insert_rel {ι : Type} {key : ι → String} {f : ι → α} {g : ι → β} :
    ∀ {xs : List ι} {b : Bindings α} {b' : Bindings β}, (∀ x ∈ xs, R (f x) (g x)) →
      (∀ name, Option.Rel R (b.get? name) (b'.get? name)) →
      ∀ name, Option.Rel R
        (((xs.map fun x => (key x, f x)).foldl (fun b e => b.insert e.1 e.2) b).get? name)
        (((xs.map fun x => (key x, g x)).foldl (fun b e => b.insert e.1 e.2) b').get? name)
  | [], _, _, _, hb => hb
  | x :: xs, b, b', hR, hb => by
    simp only [List.forall_mem_cons] at hR
    simp only [List.map_cons, List.foldl_cons]
    refine foldl_insert_rel hR.2 fun name => ?_
    rw [Bindings.get?_insert, Bindings.get?_insert]
    split
    · exact .some hR.1
    · exact hb name

end MethodTable

/-- Methods that are scoped in a nest, made at a place of that nest. -/
theorem Places.methodTable {fs : Frames Value} {f : FrameId} (h : Places cells fs n visible f)
    {methods : List FunctionDecl} (hm : FunctionDecl.AllScoped (["this"] :: n) methods)
    (x : String) :
    Option.Rel (SameMethod cells fs) ((Lox.methodTable f methods).get? x)
      ((Lexical.methodTable visible methods).get? x) :=
  foldl_insert_rel
    (fun d hd => ⟨rfl, rfl, n, FunctionDecl.allScoped_iff.1 hm d hd, h⟩)
    (fun _ => .none) x

theorem Here.assignVisible {own : Option FrameId} {name : Token}
    (h : Here cells m w (n.declare name.lexeme) visible) (hname : name.IsName)
    (hbound : (m.frames.here? m.current name.lexeme).isSome) (v : Value) :
    Tracks own cells m Same (Eval.assignVisible name v m)
      (Lexical.write visible none name v w) := by
  obtain ⟨old, hold⟩ := Option.isSome_iff_exists.1 hbound
  unfold Eval.assignVisible
  rw [Frames.assign?_of_here? hold]
  exact h.redefine hname hbound v

theorem Here.execute_class (h : Here cells m w n visible) {insideFunction : Bool} {name : Token}
    {methods : List FunctionDecl} (hd : n.Declares name)
    (hm : FunctionDecl.AllScoped (["this"] :: n.declare name.lexeme) methods) (fuel : Nat) :
    Tracks (some m.current) cells m (SameFlow (n.declare name.lexeme) insideFunction)
      (Lox.execute (fuel + 1) (.classDecl name none methods) m)
      (Lexical.execute (fuel + 1) n.isEmpty visible (.classDecl name none methods) w) := by
  rw [Lox.execute, Lexical.execute]
  refine (h.define hd .nil).bind fun {cells₁ m₁ w₁ _ visible'} hr₁ hat => ?_
  have hhere : Here cells₁ m₁ w₁ (n.declare name.lexeme) visible' := ⟨hat.1, hr₁.agree⟩
  have hclass : SameClass cells₁ m₁.frames ⟨name.lexeme, none, Lox.methodTable m₁.current methods⟩
      ⟨name.lexeme, none, Lexical.methodTable visible' methods⟩ :=
    ⟨rfl, rfl, hat.1.places.methodTable hm⟩
  refine Tracks.currentFrame ((hr₁.agree.newClass hclass).step fun {_ m₂ _ _ _} hr₂ hc => ?_)
  cases hc
  have hbound : (m₂.frames.here? m₂.current name.lexeme).isSome := by
    rw [hr₂.current]
    exact hr₂.grows.keeps _ _ hat.2
  refine ((hhere.later hr₂).assignVisible hd.1 hbound _).step fun hr₃ _ => ?_
  exact .pure hr₃.agree (.next ((hhere.later hr₂).later hr₃).toAt)

/-- The frame around the methods of a subclass. -/
theorem Here.superFrame (h : Here cells m w n visible) (above : ClassId) :
    Tracks none cells m
      (fun cells' m' frame inner => Places cells' m'.frames (["super"] :: n) inner frame)
      (Eval.newFrame m.current [("super", .classRef above)] m)
      (Lexical.allocate visible "super" (.classRef above) w) := by
  have hsuper : ∀ v, ("super", v) ∈ [("super", Value.classRef above)] → ∃ c, v = .classRef c := by
    intro v hv
    simp only [List.mem_singleton, Prod.mk.injEq, true_and] at hv
    exact ⟨above, hv⟩
  obtain ⟨cells', m', w', visible', hframe, hall, hr, hhere⟩ :=
    h.agree.enter h.places (by simp) hsuper
  have hone : Lexical.allocate visible "super" (.classRef above) w = some (.ok visible', w') := hall
  rw [hframe, hone]
  exact .ok hr hhere.places

theorem Here.execute_subclass (h : Here cells m w n visible) {insideFunction : Bool}
    {name : Token} {methods : List FunctionDecl} (hd : n.Declares name)
    (hm : FunctionDecl.AllScoped (["this"] :: ["super"] :: n.declare name.lexeme) methods)
    (above : ClassId) :
    Tracks (some m.current) cells m (SameFlow (n.declare name.lexeme) insideFunction)
      ((do
        Eval.define name.lexeme .nil
        let closure ← Eval.newFrame (← Eval.currentFrame) [("super", .classRef above)]
        let c ← Eval.newClass ⟨name.lexeme, some above, Lox.methodTable closure methods⟩
        Eval.assignVisible name c
        pure .next : Eval Lox.Flow) m)
      ((do
        let visible ← Lexical.declare n.isEmpty visible name.lexeme .nil
        let inner ← Lexical.allocate visible "super" (.classRef above)
        let c ← Lexical.newClass ⟨name.lexeme, some above, Lexical.methodTable inner methods⟩
        Lexical.write visible none name c
        pure (.next visible) : Run Flow) w) := by
  refine (h.define hd .nil).bind fun {cells₁ m₁ w₁ _ visible'} hr₁ hat => ?_
  have hhere : Here cells₁ m₁ w₁ (n.declare name.lexeme) visible' := ⟨hat.1, hr₁.agree⟩
  refine Tracks.currentFrame ((hhere.superFrame above).step
    fun {cells₂ m₂ w₂ closure inner} hr₂ hplaces => ?_)
  have hclass : SameClass cells₂ m₂.frames
      ⟨name.lexeme, some above, Lox.methodTable closure methods⟩
      ⟨name.lexeme, some above, Lexical.methodTable inner methods⟩ :=
    ⟨rfl, rfl, hplaces.methodTable hm⟩
  refine (hr₂.agree.newClass hclass).step fun {_ m₃ _ _ _} hr₃ hc => ?_
  cases hc
  have hhere₃ := (hhere.later hr₂).later hr₃
  have hbound : (m₃.frames.here? m₃.current name.lexeme).isSome := by
    rw [hr₃.current, hr₂.current]
    exact hr₃.grows.keeps _ _ (hr₂.grows.keeps _ _ hat.2)
  refine (hhere₃.assignVisible hd.1 hbound _).step fun hr₄ _ => ?_
  exact .pure hr₄.agree (.next (hhere₃.later hr₄).toAt)

end Lox.Lexical
