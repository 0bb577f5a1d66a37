import Lox.Run.Machine

/-!
# What writes do to an output

A write adds bytes to what an output has taken and changes nothing else of it. In how many calls it
does so does not matter: it adds all of the bytes, or else the output is closed after the first of
them (`write_spec`).
-/

set_option autoImplicit false

namespace Lox

namespace Written

theorem eq_of_bytes {w w' : Written} (h : w.bytes = w'.bytes) : w = w' := by
  obtain ⟨bytes, lines, hlines⟩ := w
  obtain ⟨bytes', lines', hlines'⟩ := w'
  obtain rfl : bytes = bytes' := h
  rw [Written.mk.injEq]
  exact ⟨rfl, hlines.trans hlines'.symm⟩

theorem append_empty (w : Written) : w.append .empty = w :=
  eq_of_bytes ByteArray.append_empty

theorem append_append (w : Written) (a b : ByteArray) :
    (w.append a).append b = w.append (a ++ b) :=
  eq_of_bytes ByteArray.append_assoc

end Written

namespace Output

/-- The output when it has taken some more bytes. -/
def printed (o : Output) (bytes : ByteArray) : Output :=
  { o with written := o.written.append bytes }

theorem printed_empty (o : Output) : o.printed .empty = o := by
  simp [printed, Written.append_empty]

theorem printed_printed (o : Output) (a b : ByteArray) :
    (o.printed a).printed b = o.printed (a ++ b) := by
  simp [printed, Written.append_append]

theorem printed_inj {o : Output} {a b : ByteArray} (h : o.printed a = o.printed b) : a = b := by
  have hbytes : o.bytes ++ a = o.bytes ++ b := congrArg bytes h
  exact (ByteArray.append_right_inj _).1 hbytes

/-- Nothing more is taken. -/
def IsClosed (o : Output) : Prop := o.isOpen o.written = false

/-! ## Bytes that an output has taken -/

/-- The output after it has taken some bytes; one that is closed takes none. -/
structure Took (o : Output) (bytes : ByteArray) (o' : Output) : Prop where
  printed : o' = o.printed bytes
  isOpen : bytes = .empty ∨ o.isOpen o.written = true

section Took

variable {o o' o₁ o₂ : Output} {a b : ByteArray}

theorem Took.nothing (o : Output) : o.Took .empty o :=
  ⟨(printed_empty o).symm, .inl rfl⟩

theorem Took.trans (h : o.Took a o₁) (h' : o₁.Took b o₂) : o.Took (a ++ b) o₂ := by
  obtain ⟨rfl, hopen⟩ := h
  obtain ⟨rfl, hopen'⟩ := h'
  refine ⟨printed_printed .., ?_⟩
  rcases hopen with rfl | hopen
  · rw [printed_empty] at hopen'
    rwa [ByteArray.empty_append]
  · exact .inr hopen

theorem Took.reason (h : o.Took a o') : o'.reason = o.reason := by
  rw [h.printed]
  rfl

/-- What an output takes in a call. -/
theorem Took.call (h : o.isOpen o.written = true) (a : ByteArray) : o.Took a (o.printed a) :=
  ⟨rfl, .inr h⟩

end Took

/-! ## Writes -/

/-- How a write of these bytes may end: all of them have been taken, or some of the first, and then
the output is closed. -/
inductive Writes (o : Output) (offered : ByteArray) : Output × Bool → Prop
  | accepted {o' : Output} (h : o.Took offered o') : Writes o offered (o', true)
  | refused {o' : Output} {front rest : ByteArray} (h : o.Took front o') (hclosed : o'.IsClosed)
      (hsplit : offered = front ++ rest) (hrest : rest ≠ .empty) : Writes o offered (o', false)

/-- Bytes that are written after others have been taken. -/
theorem Writes.after {o o₁ : Output} {a b : ByteArray} {r : Output × Bool} (h : o.Took a o₁)
    (hw : o₁.Writes b r) : o.Writes (a ++ b) r := by
  cases hw with
  | accepted h' => exact .accepted (h.trans h')
  | refused h' hclosed hsplit hrest =>
    exact .refused (h.trans h') hclosed (by rw [hsplit, ByteArray.append_assoc]) hrest

theorem writeAll_spec (o : Output) (offered : ByteArray) :
    o.Writes offered (o.writeAll offered) := by
  fun_induction writeAll o offered with
  | case1 o offered hempty =>
    rw [ByteArray.size_eq_zero_iff.1 hempty]
    exact .accepted (.nothing o)
  | case2 o offered hne hopen ih =>
    have hle : o.taken offered ≤ offered.size := by
      unfold taken
      omega
    have hsplit : offered.extract 0 (o.taken offered)
        ++ offered.extract (o.taken offered) offered.size = offered := by
      rw [ByteArray.extract_append_extract, Nat.zero_min, Nat.max_eq_right hle,
        ByteArray.extract_zero_size]
    have hcall := Writes.after (Took.call hopen _) ih
    rwa [hsplit] at hcall
  | case3 o offered hne hclosed =>
    rw [Bool.not_eq_true] at hclosed
    refine .refused (.nothing o) hclosed ByteArray.empty_append.symm ?_
    rintro rfl
    exact hne rfl

/-- Of pieces that are written either all bytes are taken, or the first, and the output is
closed. -/
theorem write_spec (o : Output) (pieces : List String) :
    o.Writes (String.join pieces).toUTF8 (o.write pieces) := by
  induction pieces generalizing o with
  | nil => exact .accepted (.nothing o)
  | cons s pieces ih =>
    have hjoin : (String.join (s :: pieces)).toUTF8 = s.toUTF8 ++ (String.join pieces).toUTF8 := by
      rw [String.join_cons]
      exact String.toByteArray_append
    have hpiece := o.writeAll_spec s.toUTF8
    rw [write, hjoin]
    generalize o.writeAll s.toUTF8 = r at hpiece
    cases hpiece with
    | accepted h => exact .after h (ih _)
    | refused h hclosed hsplit hrest =>
      refine .refused h hclosed (by rw [hsplit, ByteArray.append_assoc]) fun hempty => hrest ?_
      exact (ByteArray.append_eq_empty_iff.1 hempty).1

/-- Whether or not a write is accepted as a whole, some bytes have been taken. -/
theorem write_took (o : Output) (pieces : List String) : ∃ a, o.Took a (o.write pieces).1 := by
  have hwrite := o.write_spec pieces
  generalize o.write pieces = r at hwrite
  cases hwrite with
  | accepted h => exact ⟨_, h⟩
  | refused h _ _ _ => exact ⟨_, h⟩

/-- An output that is never closed. -/
def NeverFails (o : Output) : Prop := ∀ w, o.isOpen w = true

theorem unlimited_neverFails : unlimited.NeverFails := fun _ => rfl

theorem NeverFails.took {o o' : Output} {a : ByteArray} (h : o.NeverFails) (ho : o.Took a o') :
    o'.NeverFails := by
  rw [ho.printed]
  exact h

/-- An output that is never closed takes a write as a whole. -/
theorem NeverFails.write {o : Output} (h : o.NeverFails) (pieces : List String) :
    o.write pieces = (o.printed (String.join pieces).toUTF8, true) := by
  have hwrite := o.write_spec pieces
  generalize o.write pieces = r at hwrite
  cases hwrite with
  | accepted ho => rw [ho.printed]
  | refused ho hclosed _ _ =>
    have hopen := h.took ho
    rw [IsClosed, hopen] at hclosed
    cases hclosed

/-! ## Narrower outputs -/

/-- The output `o` takes all that `o'` takes: it is the same, or it never fails. -/
def Narrows (o' o : Output) : Prop := o' = o ∨ o.NeverFails

theorem Narrows.refl (o : Output) : o.Narrows o := .inl rfl

theorem Narrows.took {o o' p p' : Output} {a : ByteArray} (h : o'.Narrows o) (ho : o.Took a p)
    (ho' : o'.Took a p') : p'.Narrows p := by
  rcases h with rfl | hwhole
  · exact .inl (ho'.printed.trans ho.printed.symm)
  · exact .inr (hwhole.took ho)

/-- A write that the narrower output accepts is accepted by the other one; of a write that it
refuses it has taken the beginning of what the other one has, and not all of the bytes. -/
theorem Narrows.write {o o' : Output} (h : o'.Narrows o) (pieces : List String) :
    (∃ p p', o.write pieces = (p, true) ∧ o'.write pieces = (p', true) ∧
      o.Took (String.join pieces).toUTF8 p ∧ o'.Took (String.join pieces).toUTF8 p') ∨
    ∃ a b rest p', o'.write pieces = (p', false) ∧ p'.IsClosed ∧ o'.Took a p' ∧
      o.Took (a ++ b) (o.write pieces).1 ∧ (String.join pieces).toUTF8 = a ++ rest ∧
      rest ≠ .empty := by
  have hwrite := o'.write_spec pieces
  rcases h with rfl | hwhole
  · generalize hr : o'.write pieces = r at hwrite ⊢
    cases hwrite with
    | accepted ho => exact .inl ⟨_, _, rfl, rfl, ho, ho⟩
    | @refused p front rest ho hclosed hsplit hrest =>
      refine .inr ⟨front, .empty, rest, p, rfl, hclosed, ho, ?_, hsplit, hrest⟩
      rwa [ByteArray.append_empty]
  · have hall : o.Took (String.join pieces).toUTF8 (o.write pieces).1 := by
      rw [hwhole.write]
      exact .call (hwhole _) _
    generalize hr : o'.write pieces = r at hwrite ⊢
    cases hwrite with
    | accepted ho => exact .inl ⟨_, _, hwhole.write pieces, rfl, .call (hwhole _) _, ho⟩
    | @refused p front rest ho hclosed hsplit hrest =>
      exact .inr ⟨front, rest, rest, p, rfl, hclosed, ho, hsplit ▸ hall, hsplit, hrest⟩

/-! ## Lines -/

/-- A line is never empty. -/
theorem toUTF8_line_ne (pieces : List String) :
    (String.join (pieces ++ ["\n"])).toUTF8 ≠ .empty := by
  intro h
  have hjoin : String.join (pieces ++ ["\n"]) = "" := String.toByteArray_inj.1 h
  rw [String.join_append, String.append_eq_empty_iff] at hjoin
  exact absurd hjoin.2 (by decide)

end Output
end Lox
