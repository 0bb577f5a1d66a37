import Lox.Number.Magnitude
import Mathlib

/-!
# Doubles and their bits

A double is its bit pattern (`ofBits_toBits`): the fields that a word is unpacked into are packed
into that word again. The bits of a finite magnitude count its significand, and `fieldUnit` for
every step of the exponent (`bits_ofBits`); such magnitudes are `Canonical`.
-/

set_option autoImplicit false

namespace Lox.Number

open Float.Model UnpackedFloat

/-! ## Packing -/

/-- The bits of a double. -/
abbrev Word := BitVec Format.binary64.numBits

/-- A word is made up of its fields. -/
theorem packComponents_fields (b : Word) :
    packComponents .binary64 (.ofBitVec (unpackSign b)) (unpackExponent b) (unpackMantissa b)
      = b := by
  have hsign (s : BitVec 1) : (Sign.ofBitVec s).toBitVec = s := by
    rcases (by have := s.isLt; omega : s.toNat = 0 ∨ s.toNat = 1) with h | h
    · rw [BitVec.eq_of_toNat_eq (y := 0#1) h]
      rfl
    · rw [BitVec.eq_of_toNat_eq (y := 1#1) h]
      rfl
  simp only [packComponents, hsign, unpackSign, unpackExponent, unpackMantissa, BitVec.extractLsb]
  ext i hi
  grind

/-- Without a hidden bit the exponent field is zero. -/
theorem pack_subnormal (s : Sign) (m : BitVec 52) (hm : 0 < m.toNat) :
    UnpackedFloat.pack .binary64 (.finite s m.toNat (-1074) hm)
      = packComponents .binary64 s 0#11 m := by
  have hlog : m.toNat.log2 + 1 ≠ Format.binary64.mantissaBits := by
    have := (Nat.log2_lt (by omega)).2 m.isLt
    show _ ≠ 53
    omega
  unfold UnpackedFloat.pack
  dsimp only
  rw [if_neg (by decide), if_neg hlog, BitVec.ofNat_toNat, BitVec.setWidth_eq]

/-- The hidden bit is not packed. -/
theorem pack_normal (s : Sign) {e : BitVec 11} (m : BitVec 52) (he : e ≠ -1#11)
    (hpos : 0 < (1#1 ++ m).toNat) :
    UnpackedFloat.pack .binary64 (.finite s (1#1 ++ m).toNat (e.toNat - 1075) hpos)
      = packComponents .binary64 s e m := by
  have hm := m.isLt
  have hexponent : e.toNat + 1 < 2 ^ 11 := by
    have hne : e.toNat ≠ 2 ^ 11 - 1 := fun h => he (BitVec.eq_of_toNat_eq h)
    have := e.isLt
    omega
  have hfield : ((e.toNat : Int) - 1075 + Format.binary64.exponentBias + (52 : Nat)).toNat
      = e.toNat := by
    show ((e.toNat : Int) - 1075 + 1023 + 52).toNat = _
    omega
  have hmantissa : (1#1 ++ m).toNat = 2 ^ 52 + m.toNat := by
    rw [BitVec.toNat_append, ← Nat.shiftLeft_add_eq_or_of_lt hm]
    rfl
  have hlog : (1#1 ++ m).toNat.log2 + 1 = Format.binary64.mantissaBits := by
    rw [hmantissa]
    show _ = 53
    have hle := (Nat.le_log2 (n := 2 ^ 52 + m.toNat) (k := 52) (by omega)).2 (by omega)
    have hlt := (Nat.log2_lt (n := 2 ^ 52 + m.toNat) (k := 53) (by omega)).2 (by omega)
    omega
  unfold UnpackedFloat.pack
  dsimp only
  rw [hfield, if_neg (by show ¬ 2 ^ 11 ≤ _; omega), if_pos hlog, BitVec.ofNat_toNat,
    BitVec.setWidth_eq, hmantissa]
  congr 1
  apply BitVec.eq_of_toNat_eq
  rw [BitVec.toNat_ofNat]
  omega

/-- A word is packed as it was unpacked. -/
theorem pack_unpack {b : Word} (h : Format.binary64.Valid b) :
    UnpackedFloat.pack .binary64 (UnpackedFloat.unpack .binary64 b) = b := by
  have hb := packComponents_fields b
  unfold UnpackedFloat.unpack
  dsimp only
  split
  · rename_i hones
    split
    · rename_i hzero
      rw [hones, hzero] at hb
      exact hb
    · rename_i hmantissa
      exact (h.eq_packedNaN hones hmantissa).symm
  rename_i hones
  split
  · rename_i hexponent
    rw [hexponent] at hb ⊢
    split
    · rename_i hzero
      rw [hzero] at hb
      exact hb
    · exact (pack_subnormal _ _ _).trans hb
  · exact (pack_normal _ _ hones _).trans hb

/-- A double is its bit pattern. -/
theorem ofBits_toBits (x : Float) : Float.ofBits x.toBits = x := by
  obtain ⟨⟨bits, hvalid⟩⟩ := x
  have hpack := pack_unpack hvalid
  unfold Float.ofBits Float.toBits Float.Model.ofBits Float.Model.pack
  dsimp only
  simp only [hpack]

/-! ## Magnitudes -/

namespace Magnitude

/-- The significand has 53 binary digits, or fewer at the least exponent. -/
structure Canonical (x : Magnitude) : Prop where
  lt : x.significand < 2 * fieldUnit
  least : -1074 ≤ x.exponent
  full : fieldUnit ≤ x.significand ∨ x.exponent = -1074

/-- The sign-free bits of a canonical magnitude; a hidden bit counts as one in the exponent
field. -/
def bits (x : Magnitude) : Nat :=
  (x.exponent + 1074).toNat * fieldUnit + x.significand

theorem canonical_ofBits (b : Nat) : (ofBits b).Canonical := by
  have hmod : b % fieldUnit < fieldUnit := Nat.mod_lt _ (by decide)
  unfold ofBits
  dsimp only
  generalize b / fieldUnit = field
  split
  · exact ⟨by dsimp only; omega, Int.le_refl _, .inr rfl⟩
  · exact ⟨by dsimp only; omega, by dsimp only; omega, .inl (Nat.le_add_right ..)⟩

theorem bits_ofBits (b : Nat) : (ofBits b).bits = b := by
  have hsplit := Nat.div_add_mod' b fieldUnit
  unfold bits ofBits
  dsimp only
  generalize b / fieldUnit = field at hsplit ⊢
  cases field with
  | zero => simpa using hsplit
  | succ field =>
    have hfield : (((field + 1 : Nat) : Int) - 1075 + 1074).toNat = field := by omega
    rw [Nat.succ_mul] at hsplit
    rw [if_neg (Nat.succ_ne_zero field)]
    dsimp only
    rw [hfield]
    omega

end Magnitude

/-- A finite double without a sign, from the bits of its magnitude. -/
theorem ofBits_bits {x : Float} {size : Magnitude} (hx : Meaning.of x = .finite false size) :
    Float.ofBits size.bits.toUInt64 = x ∧ size.bits < infinityBits ∧ size.Canonical := by
  unfold Meaning.of Meaning.ofBits at hx
  dsimp only at hx
  split at hx
  · rename_i hlt
    obtain ⟨hsign, rfl⟩ : _ ∧ Magnitude.ofBits _ = size := by simpa using hx
    have hbits : x.toBits.toNat % signUnit = x.toBits.toNat := Nat.mod_eq_of_lt hsign
    rw [hbits] at hlt ⊢
    rw [Magnitude.bits_ofBits]
    refine ⟨?_, hlt, Magnitude.canonical_ofBits _⟩
    rw [Nat.toUInt64_eq, UInt64.ofNat_toNat, ofBits_toBits]
  · split at hx <;> cases hx

end Lox.Number
