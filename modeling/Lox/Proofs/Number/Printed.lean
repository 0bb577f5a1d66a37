import Lox.Proofs.Number.Digits
import Lox.Proofs.Number.Nearest
import Lox.Proofs.Number.Shortest

/-!
# Printed numbers read back

What is printed for a double is a numeral for a number near it (`exists_numeral`), its exact value
or its shortest digits, and so it is read as the double itself (`scan_text`). Whole numbers have one
text, however they are printed: below the bound no whole number but the magnitude is near it
(`show_of_isShort`).
-/

set_option autoImplicit false

namespace Lox.Number

open Lexer (isDigit)

/-! ## Whole numbers -/

namespace Magnitude

variable {x : Magnitude}

/-- A whole number is its whole part. -/
theorem value_of_isWhole (h : x.isWhole = true) : x.value = x.whole := by
  have hden : (x.ratio.2 : ℚ) ≠ 0 := by exact_mod_cast x.ratio_snd_pos.ne'
  rw [value_eq_ratio, ratio_fst_of_isWhole h, Nat.cast_mul, mul_div_assoc, div_self hden, mul_one]

theorem isWhole_of_value {n : ℕ} (h : x.value = n) : x.isWhole = true := by
  have hden : (x.ratio.2 : ℚ) ≠ 0 := by exact_mod_cast x.ratio_snd_pos.ne'
  rw [value_eq_ratio, div_eq_iff hden] at h
  have hratio : x.ratio.1 = n * x.ratio.2 := by exact_mod_cast h
  simp [isWhole, hratio]

/-- Whole numbers below the bound have no digit behind the point that counts: a last place is at
most one. -/
theorem exponent_nonpos (hc : x.Canonical) (hw : x.isWhole = true) (hs : x.isShort = true) :
    x.exponent ≤ 0 := by
  by_contra hpos
  have hfull : fieldUnit ≤ x.significand := hc.full.resolve_right (by omega)
  have hlt : x.value < 2 * fieldUnit := by
    rw [value_of_isWhole hw]
    have := whole_lt_of_isShort hs
    have hbound : integerBound < 2 * fieldUnit := by decide
    exact_mod_cast this.trans hbound
  have hge : (2 : ℚ) * fieldUnit ≤ x.value := by
    have hpow : (2 : ℚ) ^ (1 : ℤ) ≤ 2 ^ x.exponent := by gcongr <;> norm_num; omega
    have hsignificand : (fieldUnit : ℚ) ≤ x.significand := by exact_mod_cast hfull
    unfold value
    rw [mul_comm]
    norm_num at hpow
    gcongr
  exact absurd hlt (not_lt.2 hge)

/-- A whole number near another one with a last place of at most one is that number. -/
theorem eq_of_near {n k : ℕ} (he : x.exponent ≤ 0) (hv : x.value = n) (h : x.Near k) : k = n := by
  have hplace : (2 : ℚ) ^ x.exponent ≤ 1 := zpow_le_one_of_nonpos₀ (by norm_num) he
  have hslack : x.slack * 2 ^ x.exponent ≤ 1 / 2 * 1 :=
    mul_le_mul x.slack_bounds.2 hplace (by positivity) (by norm_num)
  have hlow := h.low
  have hhigh := h.high
  rw [sub_mul, show (x.significand : ℚ) * 2 ^ x.exponent = n from hv] at hlow
  rw [add_mul, show (x.significand : ℚ) * 2 ^ x.exponent = n from hv] at hhigh
  have hlt : (k : ℚ) < n + 1 := by linarith
  have hgt : (n : ℚ) < k + 1 := by linarith
  have hlt' : k < n + 1 := by exact_mod_cast hlt
  have hgt' : n < k + 1 := by exact_mod_cast hgt
  omega

end Magnitude

theorem show_eq {x : Magnitude} (hx : 0 < x.significand) :
    printed.show x = (shortest .up x).positional [] := by
  unfold Layout.show
  rw [if_neg hx.ne']
  rfl

/-- The shortest digits of a whole number below the bound are all its digits. -/
theorem show_of_isShort {x : Magnitude} (hc : x.Canonical) (hw : x.isWhole = true)
    (hs : x.isShort = true) : printed.show x = digitsOf x.whole := by
  rcases Nat.eq_zero_or_pos x.significand with hzero | hx
  · rw [(Magnitude.whole_eq_zero_iff hw).2 hzero]
    simp [Layout.show, hzero, printed, Decimal.positional]
  have hvalue := Magnitude.value_of_isWhole hw
  have hlog : Int.log 10 x.value = Nat.log 10 x.whole := by rw [hvalue, Int.log_natCast]
  -- the whole number itself is on the grid of ones, within seventeen steps of the first digit
  have hcount : Nat.log 10 x.whole < 17 := by
    have hlt : x.whole < 10 ^ 17 := (Magnitude.whole_lt_of_isShort hs).trans (by decide)
    exact Nat.log_lt_of_lt_pow' (by norm_num) hlt
  obtain ⟨hnear, hexp⟩ := exists_shortest .up hx hcount
    ⟨x.whole, by simpa [hlog, ← hvalue] using x.near_value⟩
  rw [hlog, sub_self] at hexp
  have hdecimal : (shortest .up x).value
      = ((shortest .up x).digits * 10 ^ (shortest .up x).exponent.toNat : ℕ) := by
    unfold Decimal.value
    push_cast
    rw [← zpow_natCast, Int.toNat_of_nonneg hexp]
  rw [hdecimal] at hnear
  have heq := Magnitude.eq_of_near (Magnitude.exponent_nonpos hc hw hs) hvalue hnear
  have hdigits : (shortest .up x).digits ≠ 0 := by
    intro hzero
    rw [hzero, Nat.zero_mul] at heq
    exact hx.ne' ((Magnitude.whole_eq_zero_iff hw).1 heq.symm)
  rw [show_eq hx, Decimal.positional, if_pos hexp, List.append_nil, ← heq, digitsOf_mul_pow hdigits]

/-! ## Printing and reading -/

/-- What is printed for a double is a numeral near it. -/
theorem exists_numeral {x : Magnitude} (hc : x.Canonical) :
    ∃ num den, Numeral (x.text false) num den ∧ x.Near (num / den) := by
  rw [Magnitude.text_eq]
  cases hw : x.isWhole with
  | true =>
    refine ⟨_, _, numeral_digitsOf x.whole, ?_⟩
    rw [Nat.cast_one, div_one, ← Magnitude.value_of_isWhole hw]
    exact x.near_value
  | false =>
    have hx : 0 < x.significand := by
      by_contra hzero
      have hvalue : x.value = (0 : ℕ) := by simp [Magnitude.value, (by omega : x.significand = 0)]
      rw [Magnitude.isWhole_of_value hvalue] at hw
      cases hw
    obtain ⟨num, den, hnumeral, hvalue⟩ := (shortest .up x).positional_numeral
    refine ⟨num, den, ?_, hvalue ▸ shortest_near .up hc hx⟩
    show Numeral (printed.show x) num den
    rw [show_eq hx]
    exact hnumeral

/-- **Printed numbers read back.** The text of a finite double without a sign is read as one number
token over the whole text, of which the payload is the double, and then the end. The text of a whole
number of any size is its decimal digits, without a leading zero. Below the bound, printing as a
64-bit integer, printing without a bound and printing the shortest digits give the same text. -/
theorem scan_text {x : Float} {size : Magnitude} (hx : Meaning.of x = .finite false size) :
    Lexer.scan (text x) = [.ok ⟨.number x, text x, 1⟩, .ok ⟨.eof, "", 1⟩] ∧
      (∀ n : ℕ, size.value = n →
        text x = n.repr ∧ (∀ c ∈ (text x).toList, isDigit c = true) ∧
          ((text x).toList.head? = some '0' → n = 0)) ∧
      (size.isWhole = true → size.isShort = true → ∀ negative,
        size.fastText negative = size.generalText negative ∧
          size.fastText negative = signOf negative ++ printed.show size) := by
  obtain ⟨hbits, hfinite, hc⟩ := ofBits_bits hx
  have htext : text x = String.ofList (size.text false) := by
    unfold text
    rw [hx]
  refine ⟨?_, fun n hn => ?_, fun hw hs negative => ⟨?_, ?_⟩⟩
  · obtain ⟨num, den, hnumeral, hnear⟩ := exists_numeral hc
    have hread : nearest num den = x := by
      rw [nearest, Magnitude.nearestBits_eq hc hnumeral.den_pos hnear, Nat.min_eq_left hfinite.le,
        hbits]
    rw [htext, hnumeral.scan_eq, hread]
  · have hw := Magnitude.isWhole_of_value hn
    have hwhole : size.whole = n := by
      have := (Magnitude.value_of_isWhole hw).symm.trans hn
      exact_mod_cast this
    have hdigits : (text x).toList = digitsOf n := by
      rw [htext, String.toList_ofList, Magnitude.text_eq, hw, hwhole]
      rfl
    refine ⟨?_, ?_, ?_⟩
    · rw [← String.toList_inj, hdigits, Nat.toList_repr, digitsOf_eq_toDigits]
    · rw [hdigits]
      exact isDigit_of_mem_digitsOf
    · rw [hdigits]
      exact eq_zero_of_head?_digitsOf
  · rw [Magnitude.fastText_eq hw hs, Magnitude.generalText_eq hw]
  · rw [Magnitude.fastText_eq hw hs, show_of_isShort hc hw hs]

/-- Ten to the power of 23 is between two doubles. It is read as the lower one, and that is printed
with all its digits. -/
theorem scan_text_whole :
    Meaning.of (.ofBits 0x44B52D02C7E14AF6) = .finite false ⟨5960464477539062, 24⟩ ∧
      Lexer.scan (text (.ofBits 0x44B52D02C7E14AF6))
        = [.ok ⟨.number (.ofBits 0x44B52D02C7E14AF6), "99999999999999991611392", 1⟩,
          .ok ⟨.eof, "", 1⟩] := by
  have hx : Meaning.of (.ofBits 0x44B52D02C7E14AF6) = .finite false ⟨5960464477539062, 24⟩ := by
    decide
  obtain ⟨hscan, hwhole, -⟩ := scan_text hx
  obtain ⟨htext, -, -⟩ := hwhole 99999999999999991611392 (by norm_num [Magnitude.value])
  refine ⟨hx, ?_⟩
  rw [htext] at hscan ⊢
  exact hscan

end Lox.Number
