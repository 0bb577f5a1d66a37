import Lox.Token.Lexer

/-!
# Texts as bytes

A text is stored in UTF-8. `byteAt?`, `bytesBetween?` and `slice?` look into it by byte indices and
give nothing where an index is out of range; the latter two, which cut out a part of the text, also
want both its ends between two characters. Where an index is known to stand in front of some
characters (`At`), what they give is known (`At.bytesBetween?`, `At.slice?`). No byte of a character
beyond ASCII is an ASCII character, so classes of ASCII characters are counted out alike in bytes
and in characters (`takeWhile_encode`, `count_encode`).
-/

set_option autoImplicit false

namespace Lox.Scanner

/-! ## Access by index -/

/-- The bytes of a text. -/
def bytes (text : String) : List UInt8 :=
  text.toUTF8.data.toList

/-- The byte at an index. -/
def byteAt? (text : String) (i : Nat) : Option UInt8 :=
  (bytes text)[i]?

/-- Two indices within the text, in order, each of them between two characters or at an end. -/
def Bounds (text : String) (i j : Nat) : Prop :=
  i ≤ j ∧ String.Pos.Raw.IsValid text ⟨i⟩ ∧ String.Pos.Raw.IsValid text ⟨j⟩

instance (text : String) (i j : Nat) : Decidable (Bounds text i j) :=
  inferInstanceAs (Decidable (_ ∧ _ ∧ _))

/-- The bytes from one index up to another. -/
def bytesBetween? (text : String) (i j : Nat) : Option (List UInt8) :=
  if Bounds text i j then some ((bytes text).extract i j) else none

/-- The text from one index up to another. -/
def slice? (text : String) (i j : Nat) : Option String :=
  if h : Bounds text i j then
    some (text.extract (text.pos ⟨i⟩ h.2.1) (text.pos ⟨j⟩ h.2.2))
  else none

/-- The character with the code of a byte. A byte is compared with ASCII characters only. -/
def letter (b : UInt8) : Char :=
  Char.ofUInt8 b

/-! ## Characters and their bytes -/

/-- The bytes of some characters. -/
def encode (cs : List Char) : List UInt8 :=
  cs.flatMap String.utf8EncodeChar

/-- How many bytes some characters have. -/
def width (cs : List Char) : Nat :=
  (encode cs).length

@[simp] theorem encode_nil : encode [] = [] := rfl

@[simp] theorem encode_cons (c : Char) (cs : List Char) :
    encode (c :: cs) = String.utf8EncodeChar c ++ encode cs := rfl

@[simp] theorem encode_append (cs ds : List Char) : encode (cs ++ ds) = encode cs ++ encode ds :=
  List.flatMap_append

@[simp] theorem width_nil : width [] = 0 := rfl

@[simp] theorem width_cons (c : Char) (cs : List Char) :
    width (c :: cs) = c.utf8Size + width cs := by
  simp [width]

@[simp] theorem width_append (cs ds : List Char) : width (cs ++ ds) = width cs + width ds := by
  simp [width]

theorem bytes_ofList (cs : List Char) : bytes (String.ofList cs) = encode cs := by
  rw [bytes, String.toUTF8_eq_toByteArray, String.toByteArray_ofList, List.utf8Encode,
    List.toList_data_toByteArray]
  rfl

theorem bytes_eq (text : String) : bytes text = encode text.toList := by
  rw [← bytes_ofList, String.ofList_toList]

theorem utf8ByteSize_ofList (cs : List Char) : (String.ofList cs).utf8ByteSize = width cs := by
  rw [width, ← bytes_ofList, ← String.size_toByteArray]
  rfl

theorem utf8ByteSize_eq (text : String) : text.utf8ByteSize = width text.toList := by
  rw [← utf8ByteSize_ofList, String.ofList_toList]

theorem eq_of_bytes {s t : String} (h : bytes s = bytes t) : s = t := by
  have hdata : s.toByteArray.data = t.toByteArray.data := Array.toList_inj.1 h
  exact String.toByteArray_inj.1 (ByteArray.ext hdata)

theorem bytes_extract {text : String} (p q : text.Pos) :
    bytes (text.extract p q) = (bytes text).extract p.offset.byteIdx q.offset.byteIdx := by
  simp [bytes, String.toByteArray_extract]

/-! ## The text behind a place -/

/-- The index `i` stands in front of the characters `cs`, which are the rest of the text. -/
def At (text : String) (i : Nat) (cs : List Char) : Prop :=
  ∃ front, text.toList = front ++ cs ∧ i = width front

variable {text : String} {i : Nat} {cs ds : List Char}

theorem At.start (text : String) : At text 0 text.toList :=
  ⟨[], rfl, rfl⟩

theorem At.size (h : At text i cs) : text.utf8ByteSize = i + width cs := by
  obtain ⟨front, htext, rfl⟩ := h
  rw [utf8ByteSize_eq, htext, width_append]

theorem At.move (h : At text i (cs ++ ds)) : At text (i + width cs) ds := by
  obtain ⟨front, htext, rfl⟩ := h
  exact ⟨front ++ cs, by rw [htext, List.append_assoc], by rw [width_append]⟩

theorem At.bytes (h : At text i cs) : (bytes text).drop i = encode cs := by
  obtain ⟨front, htext, rfl⟩ := h
  rw [bytes_eq, htext, encode_append]
  exact List.drop_left

theorem At.isValid (h : At text i cs) : String.Pos.Raw.IsValid text ⟨i⟩ := by
  obtain ⟨front, htext, rfl⟩ := h
  rw [String.Pos.Raw.isValid_iff_exists_append]
  refine ⟨String.ofList front, String.ofList cs, ?_, ?_⟩
  · rw [← String.ofList_append, ← htext, String.ofList_toList]
  · rw [String.rawEndPos, utf8ByteSize_ofList]

theorem At.bounds (h : At text i (cs ++ ds)) : Bounds text i (i + width cs) :=
  ⟨Nat.le_add_right _ _, h.isValid, h.move.isValid⟩

theorem At.bytesBetween? (h : At text i (cs ++ ds)) :
    bytesBetween? text i (i + width cs) = some (encode cs) := by
  rw [Scanner.bytesBetween?, if_pos h.bounds, List.extract_eq_take_drop, h.bytes,
    encode_append, Nat.add_sub_cancel_left]
  exact congrArg some List.take_left

theorem At.slice? (h : At text i (cs ++ ds)) :
    slice? text i (i + width cs) = some (String.ofList cs) := by
  rw [Scanner.slice?, dif_pos h.bounds, Option.some.injEq]
  apply eq_of_bytes
  rw [bytes_extract, bytes_ofList, List.extract_eq_take_drop]
  show ((Scanner.bytes text).drop i).take (i + width cs - i) = _
  rw [h.bytes, encode_append, Nat.add_sub_cancel_left]
  exact List.take_left

/-! ## ASCII -/

/-- The bytes of a character beyond ASCII are beyond ASCII. -/
theorem le_of_mem_utf8EncodeChar {c : Char} {b : UInt8} (hb : b ∈ String.utf8EncodeChar c)
    (hc : 128 ≤ c.toNat) : 128 ≤ b.toNat := by
  have hv : ¬ c.val.toNat ≤ 127 := by
    show ¬ c.toNat ≤ 127
    omega
  simp only [String.utf8EncodeChar, hv, if_false] at hb
  split at hb
  · simp only [List.mem_cons, List.not_mem_nil, or_false] at hb
    rcases hb with rfl | rfl <;> simp only [UInt8.toNat_ofNat'] <;> omega
  split at hb
  · simp only [List.mem_cons, List.not_mem_nil, or_false] at hb
    rcases hb with rfl | rfl | rfl <;> simp only [UInt8.toNat_ofNat'] <;> omega
  · simp only [List.mem_cons, List.not_mem_nil, or_false] at hb
    rcases hb with rfl | rfl | rfl | rfl <;> simp only [UInt8.toNat_ofNat'] <;> omega

/-- An ASCII character is its only byte. -/
theorem exists_of_ascii {c : Char} (hc : c.toNat < 128) :
    ∃ b, String.utf8EncodeChar c = [b] ∧ letter b = c := by
  have hsize : c.utf8Size = 1 := by
    rw [Char.utf8Size_eq_one_iff, UInt32.le_iff_toNat_le]
    exact Nat.le_of_lt_succ hc
  refine ⟨_, String.utf8EncodeChar_eq_singleton hsize, ?_⟩
  apply Char.toNat_inj.1
  show c.val.toUInt8.toUInt32.toNat = c.val.toNat
  rw [UInt8.toNat_toUInt32, UInt32.toNat_toUInt8]
  exact Nat.mod_eq_of_lt (Nat.lt_trans hc (by decide))

theorem toNat_letter (b : UInt8) : (letter b).toNat = b.toNat :=
  UInt8.toNat_toUInt32 b

/-- A class of characters to which all characters beyond ASCII belong, or none. -/
def Uniform (p : Char → Bool) : Prop :=
  ∀ c d : Char, 128 ≤ c.toNat → 128 ≤ d.toNat → p c = p d

theorem Uniform.letter {p : Char → Bool} (hp : Uniform p) {c : Char} {b : UInt8}
    (hb : b ∈ String.utf8EncodeChar c) : p (letter b) = p c := by
  by_cases hc : c.toNat < 128
  · obtain ⟨b', hb', hletter⟩ := exists_of_ascii hc
    rw [hb', List.mem_singleton] at hb
    rw [hb, hletter]
  · refine hp _ _ ?_ (by omega)
    rw [toNat_letter]
    exact le_of_mem_utf8EncodeChar hb (by omega)

/-- A uniform class is counted out alike in bytes and in characters. -/
theorem takeWhile_encode {p : Char → Bool} (hp : Uniform p) (cs : List Char) :
    (encode cs).takeWhile (fun b => p (letter b)) = encode (cs.takeWhile p) := by
  induction cs with
  | nil => rfl
  | cons c cs ih =>
    cases hc : p c with
    | true =>
      rw [encode_cons, List.takeWhile_append_of_pos, ih, List.takeWhile_cons, hc, if_pos rfl,
        encode_cons]
      intro b hb
      rw [hp.letter hb, hc]
    | false =>
      obtain ⟨b, bs, hbs⟩ := List.exists_cons_of_ne_nil (String.utf8EncodeChar_ne_nil (c := c))
      have hb : p (Scanner.letter b) = false := by
        rw [hp.letter (hbs ▸ List.mem_cons_self), hc]
      simp [hbs, hb, hc]

/-- An ASCII character stands among the bytes as often as among the characters. -/
theorem count_encode {c : Char} (hc : c.toNat < 128) (cs : List Char) :
    (encode cs).countP (fun b => letter b == c) = cs.count c := by
  induction cs with
  | nil => rfl
  | cons d cs ih =>
    rw [encode_cons, List.countP_append, ih, List.count_cons, Nat.add_comm]
    congr 1
    by_cases hd : d.toNat < 128
    · obtain ⟨b, hb, hletter⟩ := exists_of_ascii hd
      rw [hb, List.countP_singleton, hletter]
    · have hne : (d == c) = false := by
        rw [beq_eq_false_iff_ne]
        rintro rfl
        exact hd hc
      rw [hne, if_neg (by decide), List.countP_eq_zero]
      intro b hb h
      have hb' := le_of_mem_utf8EncodeChar hb (by omega)
      rw [← toNat_letter, eq_of_beq h] at hb'
      omega

end Lox.Scanner
