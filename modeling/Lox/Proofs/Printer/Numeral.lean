import Lox.Proofs.Number.Whole
import Lox.Token.Lexer
import Mathlib.Tactic.IntervalCases
import Mathlib.Tactic.Positivity

/-!
# Numbers in trees

A number is listed in a tree as it is printed, and a whole number with `.0` after it. The latter
loses nothing (`literal_eq_iff`): what is printed for a number that is not whole never ends in `.0`,
because its shortest digits do not end in a zero.
-/

set_option autoImplicit false

namespace Lox.Number

open Lexer (isDigit)

/-! ## Digits -/

theorem isDigit_digitChar {n : Nat} (h : n < 10) : isDigit n.digitChar = true := by
  interval_cases n <;> rfl

theorem digitChar_ne_zero {n : Nat} (h : n < 10) (hn : n ≠ 0) : n.digitChar ≠ '0' := by
  interval_cases n <;> first | contradiction | decide

theorem isDigit_of_mem_digitsOf {n : Nat} : ∀ c ∈ digitsOf n, isDigit c = true := by
  fun_induction digitsOf n with
  | case1 n h => simpa using isDigit_digitChar h
  | case2 n h ih =>
    intro c hc
    rcases List.mem_append.1 hc with hc | hc
    · exact ih c hc
    · rw [List.mem_singleton.1 hc]
      exact isDigit_digitChar (Nat.mod_lt n (by decide))

/-- The last digit. -/
theorem exists_digitsOf_eq (n : Nat) : ∃ front, digitsOf n = front ++ [(n % 10).digitChar] := by
  rw [digitsOf]
  split
  · rename_i h
    exact ⟨[], by rw [Nat.mod_eq_of_lt h]; rfl⟩
  · exact ⟨_, rfl⟩

theorem digitsOf_ne_nil (n : Nat) : digitsOf n ≠ [] := by
  obtain ⟨front, h⟩ := exists_digitsOf_eq n
  rw [h]
  exact List.concat_ne_nil _ _

/-! ## Shortest digits -/

/-- Zero does not read back as any other number. -/
theorem Magnitude.readsBack_zero {x : Magnitude} (hx : x.significand ≠ 0) (p : Int) :
    x.readsBack 0 p = false := by
  have hlow (low : Nat) (hpos : 0 < low) (q : Int) : compareDecimal 0 p low q = .lt := by
    unfold compareDecimal
    rw [Nat.compare_eq_lt, Nat.zero_mul, Nat.zero_mul]
    positivity
  unfold readsBack
  dsimp only
  rw [hlow _ (by split <;> omega)]
  rfl

theorem Magnitude.ne_zero_of_onGrid {x : Magnitude} (hx : x.significand ≠ 0) {tie : Tie} {p : Int}
    {c : Nat} (h : x.onGrid tie p = some c) : c ≠ 0 := by
  have hreads {n : Nat} (hn : x.readsBack n p = true) : n ≠ 0 := by
    rintro rfl
    rw [readsBack_zero hx] at hn
    cases hn
  unfold onGrid at h
  dsimp only at h
  generalize x.ratio.1 * 10 ^ (-p).toNat / (x.ratio.2 * 10 ^ p.toNat) = n at h
  split at h
  · rename_i hn _
    have hne := hreads hn
    cases h
    unfold nearer
    repeat' split
    all_goals omega
  · rename_i hn _
    cases h
    exact hreads hn
  · cases h
    exact Nat.succ_ne_zero n
  · cases h

theorem Magnitude.ne_zero_of_firstGrid {x : Magnitude} (hx : x.significand ≠ 0) {tie : Tie}
    {d : Decimal} : ∀ {count : Nat} {p : Int}, x.firstGrid tie count p = some d → d.digits ≠ 0
  | 0, _, h => by cases h
  | count + 1, p, h => by
    unfold firstGrid at h
    split at h
    · rename_i hgrid
      cases h
      exact ne_zero_of_onGrid hx hgrid
    · exact ne_zero_of_firstGrid hx h

/-- Stripped digits end in no zero, unless they are zero. -/
theorem Decimal.strip_digits (d : Decimal) :
    (d.digits = 0 ∧ d.strip = d) ∨ d.strip.digits % 10 ≠ 0 := by
  fun_induction strip d with
  | case1 d h =>
    rcases h with h | h
    · exact .inl ⟨h, rfl⟩
    · exact .inr h
  | case2 d h ih =>
    obtain ⟨hpos, hzero⟩ := not_or.1 h
    rcases ih with ⟨hdiv, -⟩ | hlast
    · dsimp only at hdiv
      omega
    · exact .inr hlast

/-- The shortest digits of a number with a fraction end in no zero. -/
theorem shortest_digits {x : Magnitude} (hx : x.significand ≠ 0) {tie : Tie}
    (hneg : (shortest tie x).exponent < 0) : (shortest tie x).digits % 10 ≠ 0 := by
  unfold shortest at hneg ⊢
  dsimp only at hneg ⊢
  rcases Decimal.strip_digits ((x.firstGrid tie 17 (log10Floor x.ratio.1 x.ratio.2)).getD ⟨0, 0⟩)
    with ⟨hzero, hstrip⟩ | hlast
  · rw [hstrip] at hneg
    cases hgrid : x.firstGrid tie 17 (log10Floor x.ratio.1 x.ratio.2) with
    | none =>
      rw [hgrid] at hneg
      exact absurd hneg (by decide)
    | some d =>
      rw [hgrid] at hzero
      exact absurd hzero (Magnitude.ne_zero_of_firstGrid hx hgrid)
  · exact hlast

/-! ## Layout -/

/-- A decimal without an exponent is written in digits, or with a point and the digits after it. -/
theorem Decimal.positional_cases (d : Decimal) :
    (0 ≤ d.exponent ∧ ∀ c ∈ d.positional [], isDigit c = true) ∨
      d.exponent < 0 ∧ (∀ c ∈ d.positional [], isDigit c = true ∨ c = '.') ∧
        ∃ front, d.positional [] = front ++ [(d.digits % 10).digitChar] := by
  obtain ⟨front, hlast⟩ := exists_digitsOf_eq d.digits
  unfold positional
  dsimp only
  split
  · rename_i h
    refine .inl ⟨h, fun c hc => ?_⟩
    rw [List.append_nil] at hc
    rcases List.mem_append.1 hc with hc | hc
    · exact isDigit_of_mem_digitsOf c hc
    · rw [List.eq_of_mem_replicate hc]
      rfl
  rename_i h
  refine .inr ⟨Int.not_le.1 h, ?_⟩
  split
  · rename_i hpoint
    generalize hn : ((digitsOf d.digits).length + d.exponent).toNat = n
    have hlong : n < (digitsOf d.digits).length := by omega
    refine ⟨fun c hc => ?_, ?_⟩
    · simp only [List.mem_append, List.mem_cons] at hc
      rcases hc with hc | rfl | hc
      · exact .inl (isDigit_of_mem_digitsOf c (List.mem_of_mem_take hc))
      · exact .inr rfl
      · exact .inl (isDigit_of_mem_digitsOf c (List.mem_of_mem_drop hc))
    · rw [hlast, List.length_append, List.length_singleton] at hlong
      refine ⟨(digitsOf d.digits).take n ++ '.' :: front.drop n, ?_⟩
      rw [List.append_assoc, List.cons_append]
      congr 2
      rw [hlast, List.drop_append_of_le_length (by omega)]
  · refine ⟨fun c hc => ?_, ?_⟩
    · simp only [List.mem_append, List.mem_cons] at hc
      rcases hc with rfl | rfl | hc | hc
      · exact .inl rfl
      · exact .inr rfl
      · rw [List.eq_of_mem_replicate hc]
        exact .inl rfl
      · exact .inl (isDigit_of_mem_digitsOf c hc)
    · rw [hlast, ← List.append_assoc]
      exact ⟨'0' :: '.' :: (_ ++ front), rfl⟩

theorem printed_ne_nil (x : Magnitude) : printed.show x ≠ [] := by
  have hpositional (d : Decimal) : d.positional [] ≠ [] := by
    unfold Decimal.positional
    dsimp only
    split
    · simp [digitsOf_ne_nil]
    · split <;> simp
  exact hpositional _

/-- A number that is not whole is printed in digits only, or it ends in a digit other than zero. -/
theorem show_cases {x : Magnitude} (hx : x.isWhole = false) :
    (∀ c ∈ printed.show x, isDigit c = true) ∨
      (∀ c ∈ printed.show x, isDigit c = true ∨ c = '.') ∧
        ∃ front c, printed.show x = front ++ [c] ∧ c ≠ '0' := by
  have hne : x.significand ≠ 0 := by
    intro hzero
    simp [Magnitude.isWhole, Magnitude.ratio, hzero] at hx
  have hshow : printed.show x = (shortest .up x).positional [] := by
    unfold Layout.show
    rw [if_neg hne]
    rfl
  rw [hshow]
  rcases (shortest .up x).positional_cases with ⟨-, hdigits⟩ | ⟨hneg, hchars, front, hlast⟩
  · exact .inl hdigits
  · refine .inr ⟨hchars, front, _, hlast, ?_⟩
    exact digitChar_ne_zero (Nat.mod_lt _ (by decide)) (shortest_digits hne hneg)

/-! ## Texts -/

/-- The number is finite. -/
def IsFinite (x : Float) : Prop :=
  ∃ negative size, Meaning.of x = .finite negative size

instance (x : Float) : Decidable (IsFinite x) :=
  match h : Meaning.of x with
  | .finite negative size => isTrue ⟨negative, size, h⟩
  | .nan | .infinite _ => isFalse fun ⟨_, _, hx⟩ => by rw [h] at hx; cases hx

/-- The characters of finite numbers. -/
def isNumeralChar (c : Char) : Bool :=
  isDigit c || c == '.' || c == '-'

/-- What is listed for a finite number. -/
theorem toList_literal {x : Float} {negative : Bool} {size : Magnitude}
    (hx : Meaning.of x = .finite negative size) :
    (literal x).toList = signOf negative ++
      if size.isWhole then digitsOf size.whole ++ ['.', '0'] else printed.show size := by
  unfold literal text
  rw [hx]
  dsimp only
  rw [Magnitude.text_eq]
  cases size.isWhole <;> simp

theorem toList_literal_ne_nil {x : Float} (hx : IsFinite x) : (literal x).toList ≠ [] := by
  obtain ⟨negative, size, hx⟩ := hx
  rw [toList_literal hx]
  split <;> simp [digitsOf_ne_nil, printed_ne_nil]

theorem isNumeralChar_of_mem_literal {x : Float} (hx : IsFinite x) :
    ∀ c ∈ (literal x).toList, isNumeralChar c = true := by
  obtain ⟨negative, size, hx⟩ := hx
  intro c hc
  rw [toList_literal hx] at hc
  unfold isNumeralChar
  rcases List.mem_append.1 hc with hc | hc
  · cases negative with
    | false => cases hc
    | true => simp [List.mem_singleton.1 hc]
  · cases hw : size.isWhole with
    | true =>
      simp only [hw, if_true, List.mem_append] at hc
      rcases hc with hc | hc
      · simp [isDigit_of_mem_digitsOf c hc]
      · simp only [List.mem_cons, List.not_mem_nil, or_false] at hc
        rcases hc with rfl | rfl <;> rfl
    | false =>
      simp only [hw, Bool.false_eq_true, if_false] at hc
      rcases show_cases hw with hdigits | ⟨hchars, -⟩
      · simp [hdigits c hc]
      · rcases hchars c hc with hc | rfl
        · simp [hc]
        · rfl

/-- A whole number is not listed as one that is not whole. -/
theorem whole_ne {negative : Bool} {size : Magnitude} (hw : size.isWhole = false)
    (cs : List Char) : cs ++ ['.', '0'] ≠ signOf negative ++ printed.show size := by
  intro h
  rcases show_cases hw with hdigits | ⟨-, front, c, hlast, hc⟩
  · have hmem : '.' ∈ signOf negative ++ printed.show size := h ▸ by simp
    rcases List.mem_append.1 hmem with hmem | hmem
    · cases negative <;> simp [signOf] at hmem
    · exact absurd (hdigits _ hmem) (by decide)
  · have hends := congrArg List.getLast? h
    rw [hlast] at hends
    simp at hends
    exact hc hends.symm

/-- Two finite numbers are listed in the same way only if they are printed in the same way. -/
theorem text_eq_of_literal_eq {x y : Float} (hx : IsFinite x) (hy : IsFinite y)
    (h : literal x = literal y) : text x = text y := by
  obtain ⟨negative, size, hx⟩ := hx
  obtain ⟨negative', size', hy⟩ := hy
  have hchars := congrArg String.toList h
  rw [toList_literal hx, toList_literal hy] at hchars
  unfold text
  rw [hx, hy]
  dsimp only
  rw [Magnitude.text_eq, Magnitude.text_eq]
  congr 1
  cases hw : size.isWhole <;> cases hw' : size'.isWhole <;>
    simp only [hw, hw', if_true, Bool.false_eq_true, if_false] at hchars ⊢
  · exact hchars
  · rw [← List.append_assoc] at hchars
    exact absurd hchars.symm (whole_ne hw _)
  · rw [← List.append_assoc] at hchars
    exact absurd hchars (whole_ne hw' _)
  · simpa [← List.append_assoc] using hchars

end Lox.Number
