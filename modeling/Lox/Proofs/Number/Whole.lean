import Lox.Number.Text

/-!
# Whole numbers in digits

A whole number is printed by its decimal digits, whether by way of a 64-bit integer (`fastText_eq`)
or without a bound (`generalText_eq`). So the bound between the two does not show in what is printed
(`Magnitude.text_eq`).
-/

set_option autoImplicit false

namespace Lox.Number.Magnitude

theorem ratio_snd_pos (x : Magnitude) : 0 < x.ratio.2 :=
  Nat.two_pow_pos _

/-- A whole number is its whole part. -/
theorem ratio_fst_of_isWhole {x : Magnitude} (h : x.isWhole = true) :
    x.ratio.1 = x.whole * x.ratio.2 := by
  have hmod : x.ratio.1 % x.ratio.2 = 0 := by simpa [isWhole] using h
  exact (Nat.div_mul_cancel (Nat.dvd_of_mod_eq_zero hmod)).symm

theorem whole_eq_zero_iff {x : Magnitude} (h : x.isWhole = true) :
    x.whole = 0 ↔ x.significand = 0 := by
  have hratio := ratio_fst_of_isWhole h
  have hpos := x.ratio_snd_pos
  have hpow : 0 < 2 ^ x.exponent.toNat := Nat.two_pow_pos _
  constructor
  · intro hzero
    rw [hzero, Nat.zero_mul] at hratio
    exact (Nat.mul_eq_zero.1 hratio).resolve_right (Nat.pos_iff_ne_zero.1 hpow)
  · intro hzero
    simp [whole, ratio, hzero]

/-- Nothing is rounded in a whole number. -/
theorem roundHalfEven_of_isWhole {x : Magnitude} (h : x.isWhole = true) :
    roundHalfEven x.ratio.1 x.ratio.2 = x.whole := by
  have hpos := x.ratio_snd_pos
  have hmod : x.ratio.1 % x.ratio.2 = 0 := by simpa [isWhole] using h
  unfold roundHalfEven
  dsimp only
  rw [hmod, if_pos (.inl (by omega))]
  rfl

/-! ## The bound -/

theorem whole_lt_of_isShort {x : Magnitude} (h : x.isShort = true) : x.whole < integerBound := by
  unfold whole
  rw [Nat.div_lt_iff_lt_mul x.ratio_snd_pos]
  exact of_decide_eq_true h

/-- Below the bound the 64-bit integer is the number itself. -/
theorem toInt_toInt64 {x : Magnitude} (h : x.isShort = true) (negative : Bool) :
    (x.toInt64 negative).toInt = if negative then -(x.whole : Int) else x.whole := by
  have hlt : x.whole < 9 * 10 ^ 15 := whole_lt_of_isShort h
  have hmin : Int64.minValue.toInt = -2 ^ 63 := by decide
  have hmax : Int64.maxValue.toInt = 2 ^ 63 - 1 := by decide
  apply Int64.toInt_ofIntClamp
  · rw [hmin]
    split <;> omega
  · rw [hmax]
    split <;> omega

/-! ## Texts -/

theorem fastText_eq {x : Magnitude} (hw : x.isWhole = true) (hs : x.isShort = true)
    (negative : Bool) : x.fastText negative = signOf negative ++ digitsOf x.whole := by
  have hzero := whole_eq_zero_iff hw
  unfold fastText integerText
  rw [toInt_toInt64 hs]
  cases negative with
  | false =>
    have hsign : decide ((x.whole : Int) < 0) = false := decide_eq_false (by omega)
    simp [hsign]
  | true =>
    by_cases h : x.significand = 0
    · rw [if_pos ⟨h, rfl⟩, hzero.2 h, digitsOf]
      rfl
    · have hpos : 0 < x.whole := by omega
      simp [h, hpos]

theorem generalText_eq {x : Magnitude} (hw : x.isWhole = true) (negative : Bool) :
    x.generalText negative = signOf negative ++ digitsOf x.whole := by
  rw [generalText, if_pos hw, roundHalfEven_of_isWhole hw]

/-- A whole number is printed by its digits, any other one by its shortest digits. -/
theorem text_eq (x : Magnitude) (negative : Bool) :
    x.text negative =
      signOf negative ++ if x.isWhole then digitsOf x.whole else printed.show x := by
  unfold text
  cases hw : x.isWhole with
  | false => simp [generalText, hw]
  | true =>
    cases hs : x.isShort with
    | false => simpa using generalText_eq hw negative
    | true => simpa using fastText_eq hw hs negative

end Lox.Number.Magnitude
