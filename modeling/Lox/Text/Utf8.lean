/-!
# UTF-8

`decode` reads bytes as UTF-8, or says where they stop being UTF-8: at the first byte of the first
character that is wrong or cut off. A started character is the number of continuation bytes still
owed and the range in which the next one has to lie; the range is narrower after those first bytes
that would otherwise allow overlong forms, surrogates or numbers past the last character.
-/

set_option autoImplicit false

namespace Lox.Utf8

/-- Why bytes are not UTF-8. -/
structure DecodeError where
  /-- Where the wrong character starts. -/
  index : Nat
  /-- How many bytes are wrong; none if the bytes end inside the character. -/
  length : Option Nat
  deriving DecidableEq, Repr

/-- A decoding error in words. -/
def DecodeError.text (e : DecodeError) : String :=
  match e.length with
  | some n => "invalid utf-8 sequence of " ++ n.repr ++ " bytes from index " ++ e.index.repr
  | none => "incomplete utf-8 byte sequence from index " ++ e.index.repr

/-- A character of which some bytes have been read. -/
structure Started where
  /-- The number of bytes read. -/
  taken : Nat
  /-- The number of bytes to come. -/
  owed : Nat
  /-- The least and the greatest next byte. -/
  low : Nat
  high : Nat
  /-- The bits of the character read so far. -/
  bits : Nat

/-- What the first byte of a longer character starts. -/
def start? (b : Nat) : Option Started :=
  if 0xC2 ≤ b ∧ b ≤ 0xDF then some ⟨1, 1, 0x80, 0xBF, b % 32⟩
  else if b = 0xE0 then some ⟨1, 2, 0xA0, 0xBF, 0⟩
  else if b = 0xED then some ⟨1, 2, 0x80, 0x9F, b % 16⟩
  else if 0xE1 ≤ b ∧ b ≤ 0xEF then some ⟨1, 2, 0x80, 0xBF, b % 16⟩
  else if b = 0xF0 then some ⟨1, 3, 0x90, 0xBF, 0⟩
  else if 0xF1 ≤ b ∧ b ≤ 0xF3 then some ⟨1, 3, 0x80, 0xBF, b % 8⟩
  else if b = 0xF4 then some ⟨1, 3, 0x80, 0x8F, b % 8⟩
  else none

/-- Reads bytes, from inside a character or between two; `index` is where the character starts. -/
def decodeFrom (index : Nat) : Option Started → List UInt8 → Except DecodeError (List Char)
  | none, [] => .ok []
  | some _, [] => .error ⟨index, none⟩
  | none, b :: bs =>
    if b.toNat < 0x80 then return Char.ofNat b.toNat :: (← decodeFrom (index + 1) none bs)
    else
      match start? b.toNat with
      | some c => decodeFrom index (some c) bs
      | none => .error ⟨index, some 1⟩
  | some c, b :: bs =>
    if c.low ≤ b.toNat ∧ b.toNat ≤ c.high then
      let bits := 64 * c.bits + b.toNat % 64
      if c.owed ≤ 1 then
        return Char.ofNat bits :: (← decodeFrom (index + c.taken + 1) none bs)
      else decodeFrom index (some ⟨c.taken + 1, c.owed - 1, 0x80, 0xBF, bits⟩) bs
    else .error ⟨index, some c.taken⟩

/-- The text that bytes are in UTF-8. -/
def decode (bytes : List UInt8) : Except DecodeError String :=
  String.ofList <$> decodeFrom 0 none bytes

end Lox.Utf8
