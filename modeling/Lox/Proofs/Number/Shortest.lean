import Lox.Proofs.Number.Bits
import Lox.Proofs.Number.Value
import Lox.Proofs.Number.Whole

/-!
# Shortest digits read back

The shortest digits of a double are near it (`shortest_near`): a grid with a point near the
magnitude has one of its two neighbours near it, and the interval of the numbers near a magnitude is
wider than the seventeenth grid (`exists_near_seventeenth`), so that the search ends.
-/

set_option autoImplicit false

namespace Lox.Number

namespace Magnitude

variable {x : Magnitude} {tie : Tie} {p : ℤ}

theorem value_pos (hx : 0 < x.significand) : 0 < x.value := by
  have : (0 : ℚ) < x.significand := by exact_mod_cast hx
  unfold value
  positivity

/-! ## One grid -/

/-- The lower neighbour on a grid. -/
def below (x : Magnitude) (p : ℤ) : ℕ :=
  x.ratio.1 * 10 ^ (-p).toNat / (x.ratio.2 * 10 ^ p.toNat)

theorem below_eq_floor (x : Magnitude) (p : ℤ) : x.below p = ⌊x.value / 10 ^ p⌋₊ := by
  unfold below
  rw [← Nat.floor_div_eq_div (K := ℚ), value_eq_ratio,
    ← div_pow_toNat (by norm_num : (10 : ℚ) ≠ 0) p]
  congr 1
  push_cast
  field_simp

theorem below_le (hx : 0 < x.significand) : (x.below p : ℚ) * 10 ^ p ≤ x.value := by
  have hgrid : (0 : ℚ) < 10 ^ p := by positivity
  rw [← le_div_iff₀ hgrid, below_eq_floor]
  exact Nat.floor_le (div_pos (value_pos hx) hgrid).le

theorem lt_below_succ (x : Magnitude) (p : ℤ) : x.value < ((x.below p + 1 : ℕ) : ℚ) * 10 ^ p := by
  have hgrid : (0 : ℚ) < 10 ^ p := by positivity
  rw [← div_lt_iff₀ hgrid, below_eq_floor]
  exact_mod_cast Nat.lt_floor_add_one _

theorem nearer_eq (x : Magnitude) (tie : Tie) (c : ℕ) (p : ℤ) :
    x.nearer tie c p = c ∨ x.nearer tie c p = c + 1 := by
  unfold nearer
  repeat' split
  all_goals simp

/-- What a grid gives is near the magnitude. -/
theorem near_of_onGrid (hx : 0 < x.significand) {c : ℕ} (h : x.onGrid tie p = some c) :
    x.Near (c * 10 ^ p) := by
  rw [← readsBack_iff hx]
  unfold onGrid at h
  dsimp only at h
  split at h <;> cases h
  · rename_i hlow hhigh
    have hc := x.nearer_eq tie (x.below p) p
    unfold below at hc
    rcases hc with hc | hc
    · rwa [hc]
    · rwa [hc]
  · assumption
  · assumption

/-- A grid with a point near the magnitude gives one. -/
theorem isSome_onGrid (hx : 0 < x.significand) {k : ℕ} (h : x.Near (k * 10 ^ p)) :
    (x.onGrid tie p).isSome = true := by
  have hneighbour : x.readsBack (x.below p) p = true ∨ x.readsBack (x.below p + 1) p = true := by
    rw [readsBack_iff hx, readsBack_iff hx]
    rcases Nat.lt_or_ge (x.below p) k with hk | hk
    · right
      have hle : ((x.below p + 1 : ℕ) : ℚ) ≤ k := by exact_mod_cast hk
      exact x.near_value.between h (x.lt_below_succ p).le (by gcongr)
    · left
      have hle : (k : ℚ) ≤ x.below p := by exact_mod_cast hk
      exact h.between x.near_value (by gcongr) (below_le hx)
  unfold onGrid
  dsimp only
  split
  · rfl
  · rfl
  · rfl
  · rename_i hlow hhigh
    rw [below, hlow, hhigh] at hneighbour
    simp at hneighbour

/-! ## The search -/

theorem near_of_firstGrid (hx : 0 < x.significand) {d : Decimal} {count : ℕ}
    (h : x.firstGrid tie count p = some d) : x.Near d.value := by
  induction count generalizing p with
  | zero => cases h
  | succ count ih =>
    unfold firstGrid at h
    split at h
    · rename_i c hc
      cases h
      exact near_of_onGrid hx hc
    · exact ih h

/-- The search ends at a grid that has a point, or before. -/
theorem exists_firstGrid {count k : ℕ} (hk : k < count)
    (h : (x.onGrid tie (p - k)).isSome = true) :
    ∃ d, x.firstGrid tie count p = some d ∧ p - k ≤ d.exponent := by
  induction count generalizing p k with
  | zero => omega
  | succ count ih =>
    unfold firstGrid
    split
    · exact ⟨_, rfl, by dsimp only; omega⟩
    · rename_i hnone
      cases k with
      | zero =>
        rw [Nat.cast_zero, sub_zero, hnone] at h
        cases h
      | succ k =>
        have hgrid : p - 1 - (k : ℤ) = p - (k + 1 : ℕ) := by push_cast; ring
        obtain ⟨d, hd, hle⟩ := ih (by omega : k < count) (hgrid ▸ h)
        exact ⟨d, hd, hgrid ▸ hle⟩

/-- The numbers near a magnitude fill more than a step of the grid at the seventeenth digit. -/
theorem seventeenth_lt (hc : x.Canonical) (hx : 0 < x.significand) :
    (10 : ℚ) ^ (Int.log 10 x.value - 16) < (1 / 2 + x.slack) * 2 ^ x.exponent := by
  have hplace : (0 : ℚ) < 2 ^ x.exponent := by positivity
  have hlog : (10 : ℚ) ^ (Int.log 10 x.value - 16) * 10 ^ 16 ≤ x.value := by
    rw [← zpow_natCast, ← zpow_add₀ (by norm_num)]
    simpa using Int.zpow_log_le_self (b := 10) (by norm_num) (value_pos hx)
  -- a significand of 53 digits is below 10 ^ 16, and at a power of two below three quarters of that
  have hsignificand : (x.significand : ℚ) < (1 / 2 + x.slack) * 10 ^ 16 := by
    unfold slack isLowerCloser
    split
    · rename_i hlower
      obtain ⟨hunit, -⟩ : x.significand = fieldUnit ∧ _ := by simpa using hlower
      rw [hunit]
      norm_num [fieldUnit]
    · have hlt : (x.significand : ℚ) < (2 * fieldUnit : ℕ) := by exact_mod_cast hc.lt
      refine hlt.trans ?_
      norm_num [fieldUnit]
  have hvalue : x.value < (1 / 2 + x.slack) * 10 ^ 16 * 2 ^ x.exponent := by
    unfold value
    gcongr
  refine lt_of_mul_lt_mul_right (a := (10 : ℚ) ^ 16) ?_ (by positivity)
  calc (10 : ℚ) ^ (Int.log 10 x.value - 16) * 10 ^ 16 ≤ x.value := hlog
    _ < (1 / 2 + x.slack) * 10 ^ 16 * 2 ^ x.exponent := hvalue
    _ = (1 / 2 + x.slack) * 2 ^ x.exponent * 10 ^ 16 := by ring

/-- Seventeen digits are enough. -/
theorem exists_near_seventeenth (hc : x.Canonical) (hx : 0 < x.significand) :
    ∃ k : ℕ, x.Near (k * 10 ^ (Int.log 10 x.value - 16)) := by
  have hstep := seventeenth_lt hc hx
  have hle := below_le (p := Int.log 10 x.value - 16) hx
  have hlt := x.lt_below_succ (Int.log 10 x.value - 16)
  generalize Int.log 10 x.value - 16 = p at hstep hle hlt ⊢
  push_cast at hlt
  by_cases hlow : (x.significand - x.slack) * 2 ^ x.exponent < x.below p * 10 ^ p
  · refine ⟨x.below p, near_of_lt hlow (hle.trans_lt x.value_lt_high)⟩
  · refine ⟨x.below p + 1, near_of_lt ?_ ?_⟩
    · push_cast
      exact x.low_lt_value.trans hlt
    · push_cast
      linarith

end Magnitude

/-! ## Shortest digits -/

theorem Decimal.strip_value (d : Decimal) : d.strip.value = d.value := by
  fun_induction strip d with
  | case1 d h => rfl
  | case2 d h ih =>
    have hdigits : d.digits = 10 * (d.digits / 10) := by omega
    rw [ih]
    unfold value
    dsimp only
    conv_rhs => rw [hdigits]
    rw [zpow_add₀ (by norm_num)]
    push_cast
    ring

theorem Decimal.le_strip_exponent (d : Decimal) : d.exponent ≤ d.strip.exponent := by
  fun_induction strip d with
  | case1 d h => rfl
  | case2 d h ih =>
    dsimp only at ih
    omega

variable {x : Magnitude}

/-- The search finds digits, at the latest on a grid within the seventeenth that has a point. -/
theorem exists_shortest (tie : Tie) (hx : 0 < x.significand) {k : ℕ} (hk : k < 17)
    (h : ∃ c : ℕ, x.Near (c * 10 ^ (Int.log 10 x.value - k))) :
    x.Near (shortest tie x).value ∧ Int.log 10 x.value - k ≤ (shortest tie x).exponent := by
  have htop : log10Floor x.ratio.1 x.ratio.2 = Int.log 10 x.value := by
    have hratio : 0 < x.ratio.1 := Nat.mul_pos hx (Nat.two_pow_pos _)
    rw [log10Floor_eq hratio x.ratio_snd_pos, x.value_eq_ratio]
  obtain ⟨c, hc⟩ := h
  have hgrid : (x.onGrid tie (Int.log 10 x.value - k)).isSome = true :=
    Magnitude.isSome_onGrid hx hc
  obtain ⟨d, hd, hle⟩ := Magnitude.exists_firstGrid hk hgrid
  unfold shortest
  dsimp only
  rw [htop, hd, Option.getD_some, d.strip_value]
  exact ⟨Magnitude.near_of_firstGrid hx hd, hle.trans d.le_strip_exponent⟩

/-- The shortest digits of a double are near it. -/
theorem shortest_near (tie : Tie) (hc : x.Canonical) (hx : 0 < x.significand) :
    x.Near (shortest tie x).value :=
  (exists_shortest (k := 16) tie hx (by norm_num) (Magnitude.exists_near_seventeenth hc hx)).1

end Lox.Number
