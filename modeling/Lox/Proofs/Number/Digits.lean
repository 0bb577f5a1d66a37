import Lox.Proofs.Number.Value
import Lox.Proofs.Printer.Numeral
import Lox.Proofs.Token.Rescan
import Mathlib

/-!
# Numerals

The digits of a number stand for it (`ofDigits_digitsOf`). A `Numeral` is a text of digits, or of
digits around a point, that stands for a ratio. It is read as one number token with the nearest
double (`Numeral.scan_eq`), and every decimal is written as a numeral for its value
(`Decimal.positional_numeral`).
-/

set_option autoImplicit false

namespace Lox.Number

open Lexer (isDigit Lexeme)

/-! ## Digits -/

theorem digitsOf_eq_toDigits (n : ℕ) : digitsOf n = Nat.toDigits 10 n := by
  fun_induction digitsOf n with
  | case1 n h => rw [Nat.toDigits_of_lt_base h]
  | case2 n h ih => rw [ih, Nat.toDigits_of_base_le (n := n) (by norm_num) (by omega)]

theorem ofDigits_concat (cs : List Char) (c : Char) :
    ofDigits (cs ++ [c]) = 10 * ofDigits cs + (c.toNat - '0'.toNat) := by
  simp [ofDigits]

theorem toNat_digitChar {n : ℕ} (h : n < 10) : n.digitChar.toNat - '0'.toNat = n := by
  interval_cases n <;> rfl

@[simp] theorem ofDigits_digitsOf (n : ℕ) : ofDigits (digitsOf n) = n := by
  fun_induction digitsOf n with
  | case1 n h =>
    have hdigit := toNat_digitChar h
    simpa [ofDigits] using hdigit
  | case2 n h ih =>
    rw [ofDigits_concat, ih, toNat_digitChar (Nat.mod_lt _ (by norm_num))]
    omega

/-- Zeros behind count as powers of ten. -/
theorem ofDigits_append_replicate (cs : List Char) (k : ℕ) :
    ofDigits (cs ++ List.replicate k '0') = ofDigits cs * 10 ^ k := by
  induction k with
  | zero => simp
  | succ k ih =>
    rw [List.replicate_succ', ← List.append_assoc, ofDigits_concat, ih, pow_succ]
    simp only [Nat.sub_self, Nat.add_zero]
    ring

/-- Only zero begins with a zero. -/
theorem eq_zero_of_head?_digitsOf {n : ℕ} : (digitsOf n).head? = some '0' → n = 0 := by
  fun_induction digitsOf n with
  | case1 n h =>
    intro hhead
    by_contra hn
    exact digitChar_ne_zero h hn (by simpa using hhead)
  | case2 n h ih =>
    rw [List.head?_append_of_ne_nil _ (digitsOf_ne_nil _)]
    intro hhead
    have := ih hhead
    omega

/-- Zeros in front count for nothing. -/
theorem ofDigits_replicate_append (k : ℕ) (cs : List Char) :
    ofDigits (List.replicate k '0' ++ cs) = ofDigits cs := by
  induction k with
  | zero => rfl
  | succ k ih => exact ih

/-- A number with zeros behind it. -/
theorem digitsOf_mul_pow {n : ℕ} (hn : n ≠ 0) (k : ℕ) :
    digitsOf (n * 10 ^ k) = digitsOf n ++ List.replicate k '0' := by
  induction k with
  | zero => simp
  | succ k ih =>
    have hbig : ¬ n * 10 ^ (k + 1) < 10 := by
      have := Nat.mul_le_mul (Nat.pos_of_ne_zero hn) (Nat.one_le_pow k 10 (by norm_num))
      rw [pow_succ, ← mul_assoc]
      omega
    have hdiv : n * 10 ^ (k + 1) / 10 = n * 10 ^ k := by
      rw [pow_succ, ← mul_assoc, Nat.mul_div_cancel _ (by norm_num)]
    have hmod : n * 10 ^ (k + 1) % 10 = 0 := by
      rw [pow_succ, ← mul_assoc, Nat.mul_mod_left]
    rw [digitsOf, if_neg hbig, hdiv, hmod, ih, List.append_assoc, List.replicate_succ']
    rfl

/-! ## Numerals -/

/-- The text is a number literal, and stands for the ratio. -/
inductive Numeral : List Char → ℕ → ℕ → Prop
  | whole {digits : List Char} (hne : digits ≠ []) (hd : ∀ c ∈ digits, isDigit c = true) :
      Numeral digits (ofDigits digits) 1
  | decimal {whole fraction : List Char} (hw : whole ≠ []) (hf : fraction ≠ [])
      (hwd : ∀ c ∈ whole, isDigit c = true) (hfd : ∀ c ∈ fraction, isDigit c = true) :
      Numeral (whole ++ '.' :: fraction) (ofDigits (whole ++ fraction)) (10 ^ fraction.length)

namespace Numeral

variable {text : List Char} {num den : ℕ}

theorem den_pos (h : Numeral text num den) : 0 < den := by
  cases h with
  | whole => exact Nat.one_pos
  | decimal => exact Nat.pow_pos (by norm_num)

/-- A numeral is a number token, with the nearest double as its payload. -/
theorem lexeme (h : Numeral text num den) :
    Lexeme (.token (.number (nearest num den))) text := by
  cases h with
  | whole hne hd =>
    have hvalue := Lexer.ofNumeral_eq text []
    rw [ofNumeral, List.append_nil] at hvalue
    rw [show nearest (ofDigits text) 1 = _ from hvalue]
    exact .whole hne hd
  | decimal hw hf hwd hfd =>
    rw [show nearest _ _ = _ from Lexer.ofNumeral_eq _ _]
    exact .decimal hw hf hwd hfd

theorem newline_not_mem (h : Numeral text num den) : '\n' ∉ text := by
  cases h with
  | whole _ hd => exact fun hmem => absurd (hd _ hmem) (by decide)
  | decimal _ _ hwd hfd =>
    intro hmem
    rcases List.mem_append.1 hmem with hmem | hmem
    · exact absurd (hwd _ hmem) (by decide)
    · rcases List.mem_cons.1 hmem with heq | hmem
      · exact absurd heq (by decide)
      · exact absurd (hfd _ hmem) (by decide)

/-- A numeral is read as one token, and then comes the end. -/
theorem scan_eq (h : Numeral text num den) :
    Lexer.scan (String.ofList text)
      = [.ok ⟨.number (nearest num den), String.ofList text, 1⟩, .ok ⟨.eof, "", 1⟩] := by
  have hscan := @Lexer.scanFrom_token _ _ [] h.lexeme (by simp) 1
  rw [List.append_nil, List.count_eq_zero_of_not_mem h.newline_not_mem] at hscan
  rw [Lexer.scan, String.toList_ofList, hscan, Lexer.scanFrom]

end Numeral

theorem numeral_digitsOf (n : ℕ) : Numeral (digitsOf n) n 1 := by
  have h := Numeral.whole (digitsOf_ne_nil n) isDigit_of_mem_digitsOf
  rwa [ofDigits_digitsOf] at h

/-- A decimal without an exponent is a numeral for its value. -/
theorem Decimal.positional_numeral (d : Decimal) :
    ∃ num den, Numeral (d.positional []) num den ∧ (num : ℚ) / den = d.value := by
  have hne := digitsOf_ne_nil d.digits
  have hdigit : ∀ c ∈ digitsOf d.digits, isDigit c = true := isDigit_of_mem_digitsOf
  have hzero (k : ℕ) : ∀ c ∈ List.replicate k '0', isDigit c = true := fun c hc => by
    rw [List.eq_of_mem_replicate hc]
    rfl
  unfold positional value
  dsimp only
  split
  · rename_i hexp
    refine ⟨_, _, .whole ?_ ?_, ?_⟩
    · simp [hne]
    · rw [List.append_nil]
      exact List.forall_mem_append.2 ⟨hdigit, hzero _⟩
    · rw [List.append_nil, ofDigits_append_replicate, ofDigits_digitsOf, Nat.cast_one, div_one]
      push_cast
      rw [← zpow_natCast, Int.toNat_of_nonneg hexp]
  rename_i hexp
  have hnegative (k : ℕ) (hk : (k : ℤ) = -d.exponent) :
      (d.digits : ℚ) / (10 ^ k : ℕ) = d.digits * 10 ^ d.exponent := by
    push_cast
    rw [← zpow_natCast, hk, zpow_neg, div_inv_eq_mul]
  split
  · rename_i hpoint
    generalize hn : ((digitsOf d.digits).length + d.exponent).toNat = n
    refine ⟨_, _, .decimal ?_ ?_ ?_ ?_, ?_⟩
    · rw [ne_eq, List.take_eq_nil_iff]
      simp only [hne, or_false]
      omega
    · rw [ne_eq, List.drop_eq_nil_iff]
      omega
    · exact fun c hc => hdigit c (List.mem_of_mem_take hc)
    · exact fun c hc => hdigit c (List.mem_of_mem_drop hc)
    · rw [List.take_append_drop, ofDigits_digitsOf]
      apply hnegative
      rw [List.length_drop]
      omega
  · rename_i hpoint
    refine ⟨_, _, @Numeral.decimal ['0'] _ (by simp) ?_ (hzero 1) ?_, ?_⟩
    · simp [hne]
    · exact List.forall_mem_append.2 ⟨hzero _, hdigit⟩
    · rw [show ['0'] = List.replicate 1 '0' from rfl, ofDigits_replicate_append,
        ofDigits_replicate_append, ofDigits_digitsOf]
      apply hnegative
      rw [List.length_append, List.length_replicate]
      omega

end Lox.Number
