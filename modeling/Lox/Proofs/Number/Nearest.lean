import Lox.Proofs.Number.Bits
import Lox.Proofs.Number.Value

/-!
# Reading the nearest double

A ratio near a magnitude is read as its bits (`nearestBits_eq`). Rounded to the last place of the
magnitude it gives the significand; just below a power of two the last place of the ratio is half as
big, and it gives twice the significand, which is the same double.
-/

set_option autoImplicit false

namespace Lox.Number

/-- What is within a half of a whole number is rounded to it, and at a half if it is even. -/
theorem roundHalfEven_eq {num den m : ℕ} (hden : 0 < den)
    (hlow : (m : ℚ) - 1 / 2 ≤ num / den) (hhigh : (num : ℚ) / den ≤ m + 1 / 2)
    (hodd : m % 2 = 1 → (m : ℚ) - 1 / 2 ≠ num / den ∧ (num : ℚ) / den ≠ m + 1 / 2) :
    roundHalfEven num den = m := by
  have hdenq : (0 : ℚ) < den := by exact_mod_cast hden
  have hlow' : 2 * m * den ≤ 2 * num + den := by
    rw [le_div_iff₀ hdenq] at hlow
    have : (2 * m * den : ℚ) ≤ 2 * num + den := by linarith
    exact_mod_cast this
  have hhigh' : 2 * num ≤ 2 * m * den + den := by
    rw [div_le_iff₀ hdenq] at hhigh
    have : (2 * num : ℚ) ≤ 2 * m * den + den := by linarith
    exact_mod_cast this
  have hodd' : m % 2 = 1 → 2 * m * den ≠ 2 * num + den ∧ 2 * num ≠ 2 * m * den + den := by
    intro hm
    obtain ⟨hl, hh⟩ := hodd hm
    refine ⟨fun h => hl ?_, fun h => hh ?_⟩
    · have : (2 * m * den : ℚ) = 2 * num + den := by exact_mod_cast h
      rw [eq_div_iff hdenq.ne']
      linarith
    · have : (2 * num : ℚ) = 2 * m * den + den := by exact_mod_cast h
      rw [div_eq_iff hdenq.ne']
      linarith
  have hsplit := Nat.div_add_mod num den
  have hmod := Nat.mod_lt num hden
  unfold roundHalfEven
  dsimp only
  generalize num / den = q at hsplit ⊢
  generalize num % den = r at hsplit hmod ⊢
  have hm : m = q ∨ m = q + 1 := by
    rcases Nat.lt_trichotomy m q with h | h | h
    · have := Nat.mul_le_mul_right den (by omega : m + 1 ≤ q)
      rw [Nat.add_mul] at this
      nlinarith
    · exact .inl h
    · rcases (by omega : m = q + 1 ∨ q + 2 ≤ m) with h | h
      · exact .inr h
      · have := Nat.mul_le_mul_right den h
        rw [Nat.add_mul] at this
        nlinarith
  rcases hm with rfl | rfl
  · have hr : 2 * r ≤ den := by nlinarith
    have hne : m % 2 = 1 → 2 * r ≠ den := fun h hr => (hodd' h).2 (by nlinarith)
    rw [if_pos (by omega)]
  · have hr : den ≤ 2 * r := by nlinarith
    have hne : (q + 1) % 2 = 1 → 2 * r ≠ den := fun h hr => (hodd' h).1 (by nlinarith)
    rw [if_neg (by omega)]

namespace Magnitude

variable {x : Magnitude} {num den : ℕ}

/-- The exponent of the last place to which a ratio is rounded. -/
def placeOf (r : ℚ) : ℤ :=
  max (Int.log 2 r - 52) (-1074)

/-- The bits of the nearest double, in exact terms. -/
theorem nearestBits_of_pos (hnum : 0 < num) (hden : 0 < den) {e : ℤ} {m : ℕ}
    (he : placeOf ((num : ℚ) / den) = e)
    (hm : roundHalfEven (num * 2 ^ (-e).toNat) (den * 2 ^ e.toNat) = m) :
    nearestBits num den = min ((e + 1074).toNat * fieldUnit + m) infinityBits := by
  unfold nearestBits
  rw [if_neg hnum.ne', log2Floor_eq hnum hden]
  dsimp only
  rw [show max (Int.log 2 ((num : ℚ) / den) - 52) (-1074) = e from he, hm]

/-- Counted in the last place of another exponent. -/
theorem ratio_scaled (num den : ℕ) (e : ℤ) :
    ((num * 2 ^ (-e).toNat : ℕ) : ℚ) / (den * 2 ^ e.toNat : ℕ) = num / den / 2 ^ e := by
  push_cast
  rw [← div_pow_toNat (by norm_num : (2 : ℚ) ≠ 0) e]
  field_simp

/-- A power of two at the place of another exponent. -/
theorem two_zpow_add (e k : ℤ) : (2 : ℚ) ^ (e + k) = 2 ^ k * 2 ^ e := by
  rw [zpow_add₀ (by norm_num), mul_comm]

/-- A number near a magnitude is rounded to its last place, or, below a power of two, to the next
smaller place. -/
theorem Near.placeOf_eq {r : ℚ} (hx : x.Canonical) (h : x.Near r) (hr : 0 < r) :
    placeOf r = x.exponent ∨
      placeOf r = x.exponent - 1 ∧ -1074 < x.exponent ∧ x.significand = fieldUnit ∧
        x.slack = 1 / 4 ∧ r < x.value := by
  have hunit : (fieldUnit : ℚ) = 2 ^ (52 : ℤ) := by norm_num [fieldUnit]
  have hpos : (0 : ℚ) < 2 ^ x.exponent := by positivity
  have hleast := hx.least
  unfold placeOf
  by_cases hfull : (2 : ℚ) ^ (x.exponent + 52) ≤ r
  · -- the ratio has all 53 digits at the place of the magnitude
    have hlt : r < 2 ^ (x.exponent + 53) := by
      have hm : (x.significand : ℚ) + 1 ≤ 2 * fieldUnit := by exact_mod_cast hx.lt
      rw [hunit] at hm
      refine h.high.trans_lt ?_
      rw [two_zpow_add]
      gcongr
      norm_num at hm ⊢
      linarith
    have hle := (Int.zpow_le_iff_le_log (b := 2) (by norm_num) hr).1 (by exact_mod_cast hfull)
    have hlog := (Int.lt_zpow_iff_log_lt (b := 2) (by norm_num) hr).1 (by exact_mod_cast hlt)
    left
    omega
  · have hlog := (Int.lt_zpow_iff_log_lt (b := 2) (by norm_num) hr).1
      (by exact_mod_cast not_le.1 hfull)
    rcases hx.full with hm | he
    · by_cases he : x.exponent = -1074
      · left
        omega
      -- the magnitude is a power of two, and the ratio is just below it
      have hslack := x.slack_bounds.2
      have hlow := h.low.trans_lt (not_le.1 hfull)
      rw [two_zpow_add, mul_lt_mul_iff_left₀ hpos, ← hunit] at hlow
      have hsignificand : x.significand = fieldUnit := by
        have hlt : (x.significand : ℚ) < fieldUnit + 1 := by linarith
        have : x.significand < fieldUnit + 1 := by exact_mod_cast hlt
        omega
      have hcloser : x.slack = 1 / 4 := by
        have hlower : x.isLowerCloser = true := by
          simp only [isLowerCloser, hsignificand, beq_self_eq_true, Bool.true_and,
            decide_eq_true_eq]
          omega
        rw [slack, if_pos hlower]
      have hvalue : x.value = 2 ^ (x.exponent + 52) := by
        rw [value, hsignificand, hunit, two_zpow_add]
      have hge : (2 : ℚ) ^ (x.exponent + 51) ≤ r := by
        refine le_trans ?_ h.low
        rw [two_zpow_add, hsignificand, hcloser, hunit]
        gcongr
        norm_num
      have hle := (Int.zpow_le_iff_le_log (b := 2) (by norm_num) hr).1 (by exact_mod_cast hge)
      refine .inr ⟨by omega, by omega, hsignificand, hcloser, ?_⟩
      rw [hvalue]
      exact not_le.1 hfull
    · left
      omega

/-- The interval, counted in the last place. -/
theorem Near.scaled {r : ℚ} (h : x.Near r) :
    x.significand - x.slack ≤ r / 2 ^ x.exponent ∧ r / 2 ^ x.exponent ≤ x.significand + 1 / 2 ∧
      (x.significand % 2 = 1 →
        x.significand - x.slack ≠ r / 2 ^ x.exponent ∧
          r / 2 ^ x.exponent ≠ x.significand + 1 / 2) := by
  have hpos : (0 : ℚ) < 2 ^ x.exponent := by positivity
  rw [le_div_iff₀ hpos, div_le_iff₀ hpos, ne_eq, ne_eq, eq_div_iff hpos.ne', div_eq_iff hpos.ne']
  exact ⟨h.low, h.high, h.odd⟩

/-- A ratio near a finite magnitude is read as that double. -/
theorem nearestBits_eq (hx : x.Canonical) (hden : 0 < den) (h : x.Near (num / den)) :
    nearestBits num den = min x.bits infinityBits := by
  rcases Nat.eq_zero_or_pos num with rfl | hnum
  · have hzero : x.significand = 0 := by
      by_contra hne
      simpa using h.pos (by omega)
    have hexponent : x.exponent = -1074 :=
      hx.full.resolve_left (by rw [hzero]; decide)
    simp [nearestBits, bits, hzero, hexponent]
  have hpos : (0 : ℚ) < num / den := by positivity
  have hdenScaled (e : ℤ) : 0 < den * 2 ^ e.toNat := by positivity
  obtain ⟨hlow, hhigh, hodd⟩ := h.scaled
  rcases h.placeOf_eq hx hpos with hplace | ⟨hplace, hleast, hsignificand, hslack, hbelow⟩
  · refine nearestBits_of_pos hnum hden hplace (roundHalfEven_eq (hdenScaled _) ?_ ?_ ?_)
    all_goals rw [ratio_scaled]
    · linarith [x.slack_bounds.2]
    · exact hhigh
    · intro hm
      refine ⟨fun heq => ?_, (hodd hm).2⟩
      exact (hodd hm).1 (le_antisymm hlow (by linarith [x.slack_bounds.2]))
  · have hbits : x.bits = (x.exponent - 1 + 1074).toNat * fieldUnit + 2 * fieldUnit := by
      unfold bits
      rw [hsignificand, show (x.exponent + 1074).toNat = (x.exponent - 1 + 1074).toNat + 1 by omega,
        Nat.add_mul]
      omega
    have htwice : (num : ℚ) / den / 2 ^ (x.exponent - 1) = 2 * (num / den / 2 ^ x.exponent) := by
      rw [zpow_sub₀ (by norm_num)]
      field_simp
    have hless : (num : ℚ) / den / 2 ^ x.exponent < fieldUnit := by
      rw [div_lt_iff₀ (by positivity), ← hsignificand]
      exact hbelow
    rw [hsignificand, hslack] at hlow
    rw [hbits]
    refine nearestBits_of_pos hnum hden hplace (roundHalfEven_eq (hdenScaled _) ?_ ?_ ?_)
    all_goals rw [ratio_scaled, htwice]
    · push_cast
      linarith
    · push_cast
      linarith
    · intro hm
      exact absurd hm (by omega)

end Magnitude

end Lox.Number
