/-!
# Bindings

A finite map from names to values, as the list of its entries in the order in which the names first
came. Reading is `get?`, writing is `insert`; `get?_insert` says what a write does to a read of the
same name and of another.
-/

set_option autoImplicit false

namespace Lox

/-- A finite map from names. -/
structure Bindings (α : Type) where
  entries : List (String × α)
  deriving Repr

namespace Bindings

variable {α : Type}

/-- No names. -/
def empty : Bindings α := ⟨[]⟩

/-- The value bound to a name. -/
def get? (b : Bindings α) (name : String) : Option α :=
  b.entries.lookup name

/-- Whether a name is bound. -/
def contains (b : Bindings α) (name : String) : Bool :=
  (b.get? name).isSome

/-- Sets the first entry for a name, or adds one at the end. -/
def insertIn (name : String) (value : α) : List (String × α) → List (String × α)
  | [] => [(name, value)]
  | (n, v) :: rest =>
    if name == n then (n, value) :: rest else (n, v) :: insertIn name value rest

/-- Binds a name to a value, in place of an earlier binding. -/
def insert (b : Bindings α) (name : String) (value : α) : Bindings α :=
  ⟨insertIn name value b.entries⟩

/-- The map with these bindings, of which later ones win. -/
def ofList (entries : List (String × α)) : Bindings α :=
  entries.foldl (fun b e => b.insert e.1 e.2) empty

/-- The bound names, in the order in which they first came. -/
def names (b : Bindings α) : List String :=
  b.entries.map (·.1)

/-! ## Laws -/

@[simp] theorem get?_empty (name : String) : (empty : Bindings α).get? name = none := rfl

theorem lookup_cons_ne {name n : String} (v : α) (l : List (String × α)) (h : name ≠ n) :
    ((n, v) :: l).lookup name = l.lookup name := by
  rw [List.lookup_cons, beq_eq_false_iff_ne.2 h]

theorem lookup_insertIn (name other : String) (value : α) (l : List (String × α)) :
    (insertIn name value l).lookup other =
      if other = name then some value else l.lookup other := by
  induction l with
  | nil =>
    by_cases h : other = name
    · simp [insertIn, h]
    · rw [insertIn, lookup_cons_ne _ _ h, if_neg h]
  | cons e rest ih =>
    obtain ⟨n, v⟩ := e
    by_cases hn : name = n
    · subst hn
      by_cases h : other = name
      · simp [insertIn, h]
      · simp [insertIn, lookup_cons_ne _ _ h, h]
    · by_cases h : other = n
      · subst h
        have hne : other ≠ name := fun e => hn e.symm
        simp [insertIn, hn, hne]
      · simp [insertIn, hn, lookup_cons_ne _ _ h, ih]

/-- A write is read back, and reads of other names do not see it. -/
theorem get?_insert (b : Bindings α) (name other : String) (value : α) :
    (b.insert name value).get? other = if other = name then some value else b.get? other :=
  lookup_insertIn name other value b.entries

/-- Of the entries for a name the last one counts. -/
theorem get?_ofList (entries : List (String × α)) (name : String) :
    (ofList entries).get? name = entries.reverse.lookup name := by
  have hfold : ∀ b : Bindings α, (entries.foldl (fun b e => b.insert e.1 e.2) b).get? name =
      (entries.reverse.lookup name).or (b.get? name) := by
    induction entries with
    | nil => exact fun _ => rfl
    | cons e rest ih =>
      obtain ⟨n, v⟩ := e
      intro b
      rw [List.foldl_cons, ih, get?_insert, List.reverse_cons, List.lookup_append]
      cases rest.reverse.lookup name with
      | some v => rfl
      | none =>
        by_cases h : name = n
        · simp [h]
        · simp [lookup_cons_ne _ _ h, h]
  rw [ofList, hfold, get?_empty, Option.or_none]

theorem contains_insert (b : Bindings α) (name other : String) (value : α) :
    (b.insert name value).contains other = (other == name || b.contains other) := by
  by_cases h : other = name <;> simp [contains, get?_insert, h]

/-! ## Other values -/

variable {β : Type}

/-- The same names with other values. -/
def map (g : α → β) (b : Bindings α) : Bindings β :=
  ⟨b.entries.map fun e => (e.1, g e.2)⟩

theorem get?_map (g : α → β) (b : Bindings α) (name : String) :
    (b.map g).get? name = (b.get? name).map g := by
  obtain ⟨entries⟩ := b
  show (entries.map fun e => (e.1, g e.2)).lookup name = (entries.lookup name).map g
  induction entries with
  | nil => rfl
  | cons e rest ih =>
    obtain ⟨n, v⟩ := e
    simp only [List.map_cons, List.lookup_cons, ih]
    cases name == n <;> rfl

theorem insert_map (g : α → β) (b : Bindings α) (name : String) (value : α) :
    (b.insert name value).map g = (b.map g).insert name (g value) := by
  obtain ⟨entries⟩ := b
  refine congrArg Bindings.mk ?_
  show (insertIn name value entries).map _ = insertIn name (g value) (entries.map _)
  induction entries with
  | nil => rfl
  | cons e rest ih =>
    obtain ⟨n, v⟩ := e
    simp only [insertIn, List.map_cons]
    split
    · rfl
    · rw [List.map_cons, ih]

theorem ofList_map (g : α → β) (entries : List (String × α)) :
    ofList (entries.map fun e => (e.1, g e.2)) = (ofList entries).map g := by
  have hfold : ∀ b : Bindings α,
      (entries.map fun e => (e.1, g e.2)).foldl (fun b e => b.insert e.1 e.2) (b.map g)
        = (entries.foldl (fun b e => b.insert e.1 e.2) b).map g := by
    induction entries with
    | nil => exact fun _ => rfl
    | cons e rest ih =>
      intro b
      rw [List.map_cons, List.foldl_cons, List.foldl_cons, ← insert_map, ih]
  exact hfold .empty

theorem map_map {γ : Type} (g : α → β) (h : β → γ) (b : Bindings α) :
    (b.map g).map h = b.map (h ∘ g) := by
  simp [map, Function.comp_def]

theorem map_id (b : Bindings α) : b.map id = b := by
  simp [map]

end Bindings
end Lox
