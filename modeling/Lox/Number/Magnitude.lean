/-!
# Doubles as exact numbers

A finite double is a sign and a magnitude `significand * 2 ^ exponent`. `Magnitude.ofBits` reads the
magnitude off a bit pattern, `nearestBits` goes the other way: from an exact ratio to the bits of
the double nearest to it. Everything here is arithmetic on `Nat` and `Int`.
-/

set_option autoImplicit false

namespace Lox.Number

/-- Powers are those of `Nat`, also where another library brings its own. -/
scoped instance (priority := 1100) natPow : Pow Nat Nat := instPowNat

/-- The weight of the bit above the fraction field, and the unit of the exponent field. -/
def fieldUnit : Nat := 2 ^ (52 : Nat)

/-- The weight of the sign bit. -/
def signUnit : Nat := 2 ^ (63 : Nat)

/-- The number `significand * 2 ^ exponent`. -/
structure Magnitude where
  significand : Nat
  exponent : Int
  deriving DecidableEq, Repr

namespace Magnitude

/-- The magnitude of the finite double with these sign-free bits. A zero exponent field stands for
the least exponent and no hidden bit; any other field adds the hidden bit. -/
def ofBits (bits : Nat) : Magnitude :=
  let field : Nat := bits / fieldUnit
  let fraction : Nat := bits % fieldUnit
  if field = 0 then ⟨fraction, -1074⟩ else ⟨fieldUnit + fraction, (field : Int) - 1075⟩

/-- The magnitude as a ratio of two natural numbers. -/
def ratio (x : Magnitude) : Nat × Nat :=
  (x.significand * 2 ^ x.exponent.toNat, 2 ^ (-x.exponent).toNat)

/-- Whether the magnitude is a whole number. -/
def isWhole (x : Magnitude) : Bool :=
  x.ratio.1 % x.ratio.2 == 0

/-- The whole part of the magnitude. -/
def whole (x : Magnitude) : Nat :=
  x.ratio.1 / x.ratio.2

end Magnitude

/-! ## Reading a double -/

/-- What a double stands for. -/
inductive Meaning where
  | nan
  | infinite (negative : Bool)
  | finite (negative : Bool) (size : Magnitude)
  deriving DecidableEq, Repr

/-- The sign-free bits of infinity, one past those of the largest finite double. -/
def infinityBits : Nat := 2047 * fieldUnit

/-- Splits a bit pattern into its sign and what the rest stands for. -/
def Meaning.ofBits (bits : Nat) : Meaning :=
  let negative := decide (signUnit ≤ bits)
  let rest := bits % signUnit
  if rest < infinityBits then .finite negative (.ofBits rest)
  else if rest = infinityBits then .infinite negative
  else .nan

/-- What the double `x` stands for. -/
def Meaning.of (x : Float) : Meaning :=
  .ofBits x.toBits.toNat

/-! ## The double nearest to a ratio -/

/-- The exponent of the highest power of two that is at most `num / den`, for positive `num` and
`den`. -/
def log2Floor (num den : Nat) : Int :=
  let guess : Int := (num.log2 : Int) - den.log2
  if den * 2 ^ guess.toNat ≤ num * 2 ^ (-guess).toNat then guess else guess - 1

/-- `num / den` rounded to a whole number, a half going to the even neighbour. -/
def roundHalfEven (num den : Nat) : Nat :=
  let q := num / den
  let twice := 2 * (num % den)
  if twice < den ∨ (twice = den ∧ q % 2 = 0) then q else q + 1

/-- The sign-free bits of the double nearest to `num / den`, a tie going to the even one. The ratio
is rounded to 53 binary digits, or to fewer at the least exponent; a carry out of the significand
moves into the exponent field by itself, and a ratio past the largest double gives infinity. -/
def nearestBits (num den : Nat) : Nat :=
  if num = 0 then 0
  else
    let exponent := max (log2Floor num den - 52) (-1074)
    let significand := roundHalfEven (num * 2 ^ (-exponent).toNat) (den * 2 ^ exponent.toNat)
    min ((exponent + 1074).toNat * fieldUnit + significand) infinityBits

/-- The double nearest to `num / den`. -/
def nearest (num den : Nat) : Float :=
  .ofBits (nearestBits num den).toUInt64

/-- The double nearest to an integer. -/
def ofInt (i : Int) : Float :=
  if i < 0 then -nearest i.natAbs 1 else nearest i.natAbs 1

end Lox.Number
