import Lox.Number.Text
import Mathlib

/-!
# Exact values

Magnitudes and decimals stand for rational numbers (`Magnitude.value`, `Decimal.value`). A number is
`Near` a magnitude if it lies between the midpoints to the doubles beside it; `readsBack` decides
that for decimals (`readsBack_iff`), and the two logarithms are those of the ratio
(`log2Floor_eq`, `log10Floor_eq`).
-/

set_option autoImplicit false

namespace Lox.Number

/-- The exact value of a magnitude. -/
def Magnitude.value (x : Magnitude) : ℚ :=
  x.significand * 2 ^ x.exponent

/-- The exact value of a decimal. -/
def Decimal.value (d : Decimal) : ℚ :=
  d.digits * 10 ^ d.exponent

/-! ## Powers -/

section

variable {b : ℚ}

/-- A negative power is moved to the other side. -/
theorem zpow_mul_pow_toNat (hb : b ≠ 0) (p : ℤ) : b ^ p * b ^ (-p).toNat = b ^ p.toNat := by
  rw [← zpow_natCast, ← zpow_natCast, ← zpow_add₀ hb]
  congr 1
  omega

theorem div_pow_toNat (hb : b ≠ 0) (p : ℤ) : b ^ p.toNat / b ^ (-p).toNat = b ^ p := by
  rw [← zpow_mul_pow_toNat hb p, mul_div_assoc, div_self (pow_ne_zero _ hb), mul_one]

end

theorem Magnitude.value_eq_ratio (x : Magnitude) : x.value = x.ratio.1 / x.ratio.2 := by
  unfold value ratio
  push_cast
  rw [mul_div_assoc, div_pow_toNat (by norm_num)]

/-- Comparing with whole numbers only is comparing the values. -/
theorem compareDecimal_eq (a : ℕ) (p : ℤ) (b : ℕ) (q : ℤ) :
    compareDecimal a p b q = cmp ((a : ℚ) * 10 ^ p) (b * 2 ^ q) := by
  have hscale : (0 : ℚ) < 10 ^ (-p).toNat * 2 ^ (-q).toNat := by positivity
  have hleft : (a : ℚ) * 10 ^ p * (10 ^ (-p).toNat * 2 ^ (-q).toNat)
      = (a * 10 ^ p.toNat * 2 ^ (-q).toNat : ℕ) := by
    push_cast
    rw [← zpow_mul_pow_toNat (by norm_num : (10 : ℚ) ≠ 0) p]
    ring
  have hright : (b : ℚ) * 2 ^ q * (10 ^ (-p).toNat * 2 ^ (-q).toNat)
      = (b * 2 ^ q.toNat * 10 ^ (-p).toNat : ℕ) := by
    push_cast
    rw [← zpow_mul_pow_toNat (by norm_num : (2 : ℚ) ≠ 0) q]
    ring
  rw [← cmp_mul_pos_right hscale, hleft, hright, Nat.strictMono_cast.cmp_map_eq, cmp_eq_compare]
  rfl

/-! ## Logarithms -/

/-- The digits of both sides of a ratio give its logarithm up to one, and one comparison decides. -/
theorem log_ratio {b num den : ℕ} (hb : 1 < b) (hnum : 0 < num) (hden : 0 < den) {guess : ℤ}
    (hguess : guess = (Nat.log b num : ℤ) - Nat.log b den) :
    (if den * b ^ guess.toNat ≤ num * b ^ (-guess).toNat then guess else guess - 1)
      = Int.log b ((num : ℚ) / den) := by
  have hbase : (0 : ℚ) < b := by exact_mod_cast (by omega : 0 < b)
  have hdenq : (0 : ℚ) < den := by exact_mod_cast hden
  have hr : (0 : ℚ) < (num : ℚ) / den := by positivity
  have htest : den * b ^ guess.toNat ≤ num * b ^ (-guess).toNat ↔ (b : ℚ) ^ guess ≤ num / den := by
    rw [← div_pow_toNat hbase.ne', div_le_div_iff₀ (by positivity) hdenq]
    rw [mul_comm]
    exact_mod_cast Iff.rfl
  have hnumlow : (b : ℚ) ^ Nat.log b num ≤ num := by
    exact_mod_cast Nat.pow_log_le_self b hnum.ne'
  have hnumhigh : (num : ℚ) < b ^ (Nat.log b num + 1) := by
    exact_mod_cast Nat.lt_pow_succ_log_self hb num
  have hdenlow : (b : ℚ) ^ Nat.log b den ≤ den := by
    exact_mod_cast Nat.pow_log_le_self b hden.ne'
  have hdenhigh : (den : ℚ) < b ^ (Nat.log b den + 1) := by
    exact_mod_cast Nat.lt_pow_succ_log_self hb den
  have hlow : (b : ℚ) ^ (guess - 1) < num / den := by
    rw [lt_div_iff₀ hdenq]
    calc (b : ℚ) ^ (guess - 1) * den < b ^ (guess - 1) * b ^ (Nat.log b den + 1) := by gcongr
      _ = b ^ Nat.log b num := by
        rw [← zpow_natCast, ← zpow_natCast, ← zpow_add₀ hbase.ne']
        congr 1
        push_cast
        omega
      _ ≤ num := hnumlow
  have hhigh : (num : ℚ) / den < b ^ (guess + 1) := by
    rw [div_lt_iff₀ hdenq]
    calc (num : ℚ) < b ^ (Nat.log b num + 1) := hnumhigh
      _ = b ^ (guess + 1) * b ^ Nat.log b den := by
        rw [← zpow_natCast, ← zpow_natCast, ← zpow_add₀ hbase.ne']
        congr 1
        push_cast
        omega
      _ ≤ b ^ (guess + 1) * den := by gcongr
  have hle := (Int.zpow_le_iff_le_log hb hr).1 hlow.le
  have hlt := (Int.lt_zpow_iff_log_lt hb hr).1 hhigh
  by_cases h : (b : ℚ) ^ guess ≤ num / den
  · have := (Int.zpow_le_iff_le_log hb hr).1 h
    rw [if_pos (htest.2 h)]
    omega
  · have := (Int.lt_zpow_iff_log_lt hb hr).1 (not_le.1 h)
    rw [if_neg (htest.not.2 h)]
    omega

theorem log2Floor_eq {num den : ℕ} (hnum : 0 < num) (hden : 0 < den) :
    log2Floor num den = Int.log 2 ((num : ℚ) / den) := by
  unfold log2Floor
  exact log_ratio (by norm_num) hnum hden (by rw [Nat.log2_eq_log_two, Nat.log2_eq_log_two])

theorem digitCount_eq (n : ℕ) : digitCount n = Nat.log 10 n + 1 := by
  fun_induction digitCount n with
  | case1 n h => rw [Nat.log_of_lt h]
  | case2 n h ih => rw [ih, ← Nat.log_of_one_lt_of_le (n := n) (by norm_num) (by omega)]

theorem log10Floor_eq {num den : ℕ} (hnum : 0 < num) (hden : 0 < den) :
    log10Floor num den = Int.log 10 ((num : ℚ) / den) := by
  unfold log10Floor
  refine log_ratio (by norm_num) hnum hden ?_
  rw [digitCount_eq, digitCount_eq]
  omega

/-! ## Rounding intervals -/

namespace Magnitude

/-- How far below a magnitude the midpoint to the next double is, in units of the last place. -/
def slack (x : Magnitude) : ℚ :=
  if x.isLowerCloser then 1 / 4 else 1 / 2

/-- The number lies between the midpoints to the neighbouring doubles. A midpoint is nearest to the
even one of its two neighbours. -/
structure Near (x : Magnitude) (r : ℚ) : Prop where
  low : (x.significand - x.slack) * 2 ^ x.exponent ≤ r
  high : r ≤ (x.significand + 1 / 2) * 2 ^ x.exponent
  odd : x.significand % 2 = 1 →
    (x.significand - x.slack) * 2 ^ x.exponent ≠ r ∧ r ≠ (x.significand + 1 / 2) * 2 ^ x.exponent

theorem slack_bounds (x : Magnitude) : 1 / 4 ≤ x.slack ∧ x.slack ≤ 1 / 2 := by
  unfold slack
  split <;> norm_num

theorem low_lt_value (x : Magnitude) :
    (x.significand - x.slack) * 2 ^ x.exponent < x.value := by
  have := x.slack_bounds.1
  unfold value
  gcongr
  linarith

theorem value_lt_high (x : Magnitude) :
    x.value < (x.significand + 1 / 2) * 2 ^ x.exponent := by
  unfold value
  gcongr
  linarith

/-- A number strictly between the midpoints is near the magnitude. -/
theorem near_of_lt {x : Magnitude} {r : ℚ}
    (hlow : (x.significand - x.slack) * 2 ^ x.exponent < r)
    (hhigh : r < (x.significand + 1 / 2) * 2 ^ x.exponent) : x.Near r :=
  ⟨hlow.le, hhigh.le, fun _ => ⟨hlow.ne, hhigh.ne⟩⟩

/-- A magnitude is near itself. -/
theorem near_value (x : Magnitude) : x.Near x.value :=
  near_of_lt x.low_lt_value x.value_lt_high

/-- What lies between two numbers near a magnitude is near it too. -/
theorem Near.between {x : Magnitude} {q r s : ℚ} (hq : x.Near q) (hs : x.Near s) (hqr : q ≤ r)
    (hrs : r ≤ s) : x.Near r := by
  refine ⟨hq.low.trans hqr, hrs.trans hs.high, fun hodd => ⟨fun h => ?_, fun h => ?_⟩⟩
  · exact (hq.odd hodd).1 (le_antisymm hq.low (h ▸ hqr))
  · exact (hs.odd hodd).2 (le_antisymm hs.high (h ▸ hrs))

/-- Only positive numbers are near a positive magnitude. -/
theorem Near.pos {x : Magnitude} {r : ℚ} (h : x.Near r) (hx : 0 < x.significand) : 0 < r := by
  have hone : (1 : ℚ) ≤ x.significand := by exact_mod_cast hx
  have hslack := x.slack_bounds.2
  have hpos : (0 : ℚ) < 2 ^ x.exponent := by positivity
  have hlow : 0 < (x.significand - x.slack) * 2 ^ x.exponent := mul_pos (by linarith) hpos
  exact hlow.trans_le h.low

/-- A comparison as the lower end of an interval. -/
theorem match_cmp_low {a b : ℚ} {closed : Bool} :
    (match cmp a b with
      | .lt => false
      | .eq => closed
      | .gt => true) = true ↔ b ≤ a ∧ (closed = false → b ≠ a) := by
  cases h : cmp a b with
  | lt => simp [(cmp_eq_lt_iff a b).1 h]
  | eq => simp [(cmp_eq_eq_iff a b).1 h]
  | gt =>
    have hlt := (cmp_eq_gt_iff a b).1 h
    simp [hlt.le, hlt.ne]

/-- A comparison as the upper end of an interval. -/
theorem match_cmp_high {a b : ℚ} {closed : Bool} :
    (match cmp a b with
      | .lt => true
      | .eq => closed
      | .gt => false) = true ↔ a ≤ b ∧ (closed = false → a ≠ b) := by
  cases h : cmp a b with
  | lt =>
    have hlt := (cmp_eq_lt_iff a b).1 h
    simp [hlt.le, hlt.ne]
  | eq => simp [(cmp_eq_eq_iff a b).1 h]
  | gt => simp [(cmp_eq_gt_iff a b).1 h]

/-- A quarter of the last place is the unit in which the midpoints are counted. -/
theorem mul_quarter (x : Magnitude) (k : ℚ) :
    k * 2 ^ (x.exponent - 2) = k / 4 * 2 ^ x.exponent := by
  rw [zpow_sub₀ (by norm_num)]
  ring

theorem readsBack_iff {x : Magnitude} (hx : 0 < x.significand) (c : ℕ) (p : ℤ) :
    x.readsBack c p = true ↔ x.Near (c * 10 ^ p) := by
  have hlow : ((if x.isLowerCloser then 4 * x.significand - 1 else 4 * x.significand - 2 : ℕ) : ℚ)
      * 2 ^ (x.exponent - 2) = (x.significand - x.slack) * 2 ^ x.exponent := by
    rw [mul_quarter, slack]
    split
    · rw [Nat.cast_sub (by omega)]
      push_cast
      ring
    · rw [Nat.cast_sub (by omega)]
      push_cast
      ring
  have hhigh : ((4 * x.significand + 2 : ℕ) : ℚ) * 2 ^ (x.exponent - 2)
      = (x.significand + 1 / 2) * 2 ^ x.exponent := by
    rw [mul_quarter]
    push_cast
    ring
  have hodd : (x.significand % 2 == 0) = false ↔ x.significand % 2 = 1 := by
    rw [beq_eq_false_iff_ne]
    omega
  unfold readsBack
  dsimp only
  rw [compareDecimal_eq, compareDecimal_eq, hlow, hhigh, Bool.and_eq_true]
  refine (and_congr match_cmp_low match_cmp_high).trans ?_
  rw [hodd]
  constructor
  · rintro ⟨⟨hl, hl'⟩, hh, hh'⟩
    exact ⟨hl, hh, fun h => ⟨hl' h, hh' h⟩⟩
  · rintro ⟨hl, hh, h⟩
    exact ⟨⟨hl, fun hm => (h hm).1⟩, hh, fun hm => (h hm).2⟩

end Magnitude
end Lox.Number
