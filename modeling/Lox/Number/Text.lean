import Lox.Number.Shortest

/-!
# Numbers as text

Digits are read with `ofDigits` and written three ways: `text` is what a program prints, `literal`
marks whole numbers with `.0` as in a token or tree listing, and `json?` is a JSON number. A whole
number is printed as the exact integer, by way of a 64-bit integer if it is short; any other one,
and every JSON number, by its shortest digits.
-/

set_option autoImplicit false

namespace Lox.Number

/-! ## Digits -/

/-- The decimal digits of a number, highest first. -/
def digitsOf (n : Nat) : List Char :=
  if n < 10 then [n.digitChar] else digitsOf (n / 10) ++ [(n % 10).digitChar]

/-- The number that a list of decimal digits stands for. -/
def ofDigits (cs : List Char) : Nat :=
  cs.foldl (fun n c => 10 * n + (c.toNat - '0'.toNat)) 0

/-- The double nearest to the numeral with these digits before and after the point. -/
def ofNumeral (whole fraction : List Char) : Float :=
  nearest (ofDigits (whole ++ fraction)) (10 ^ fraction.length)

/-! ## Layout of shortest digits -/

/-- How shortest digits are laid out. -/
structure Layout where
  /-- Which of two equally near decimals is shown. -/
  tie : Tie
  /-- Whether a number whose first digit counts powers of ten `10 ^ e` is written without an
  exponent. -/
  isPositional : Int → Bool
  /-- What follows a positional number that has no fraction. -/
  wholeMark : List Char

/-- Printed numbers never have an exponent, and a half goes up. -/
def printed : Layout := ⟨.up, fun _ => true, []⟩

/-- JSON numbers are positional from 1e-5 up to 1e16, and a half goes to the even digit. -/
def inJson : Layout := ⟨.even, fun e => decide (-5 ≤ e ∧ e < 16), ['.', '0']⟩

namespace Decimal

/-- The exponent of the power of ten that the first digit counts. -/
def leading (d : Decimal) : Int :=
  (digitsOf d.digits).length - 1 + d.exponent

/-- The decimal without an exponent; `wholeMark` follows it if it has no fraction. -/
def positional (wholeMark : List Char) (d : Decimal) : List Char :=
  let ds := digitsOf d.digits
  let point : Int := ds.length + d.exponent
  if 0 ≤ d.exponent then ds ++ List.replicate d.exponent.toNat '0' ++ wholeMark
  else if 0 < point then ds.take point.toNat ++ '.' :: ds.drop point.toNat
  else '0' :: '.' :: (List.replicate (-point).toNat '0' ++ ds)

/-- The decimal with one digit before the point and a signed exponent. -/
def scientific (d : Decimal) : List Char :=
  let ds := digitsOf d.digits
  let fraction := if ds.length ≤ 1 then [] else '.' :: ds.drop 1
  let sign := if d.leading < 0 then '-' else '+'
  ds.take 1 ++ fraction ++ 'e' :: sign :: digitsOf d.leading.natAbs

end Decimal

/-- The shortest digits of a magnitude in a layout. -/
def Layout.show (l : Layout) (x : Magnitude) : List Char :=
  let d := if x.significand = 0 then ⟨0, 0⟩ else shortest l.tie x
  if l.isPositional d.leading then d.positional l.wholeMark else d.scientific

/-! ## Writing -/

/-- A minus sign for negative numbers, negative zero included. -/
def signOf (negative : Bool) : List Char :=
  if negative then ['-'] else []

/-- The size from which whole numbers are no longer printed as 64-bit integers. -/
def integerBound : Nat := 9 * 10 ^ (15 : Nat)

/-- A 64-bit integer in decimal digits. -/
def integerText (i : Int64) : List Char :=
  signOf (decide (i.toInt < 0)) ++ digitsOf i.toInt.natAbs

namespace Magnitude

/-- Whether the magnitude is below `integerBound`. -/
def isShort (x : Magnitude) : Bool :=
  decide (x.ratio.1 < integerBound * x.ratio.2)

/-- The number as a 64-bit integer: what is behind the point is cut off, and a number out of range
becomes the nearest one in range. -/
def toInt64 (negative : Bool) (x : Magnitude) : Int64 :=
  .ofIntClamp (if negative then -(x.whole : Int) else x.whole)

/-- The number printed as a 64-bit integer; there is no negative zero among those. -/
def fastText (negative : Bool) (x : Magnitude) : List Char :=
  if x.significand = 0 ∧ negative = true then ['-', '0'] else integerText (x.toInt64 negative)

/-- The number printed without a bound: a whole one with no places behind the point, where a half
would go to the even digit, and any other one by its shortest digits. -/
def generalText (negative : Bool) (x : Magnitude) : List Char :=
  signOf negative ++
    if x.isWhole then digitsOf (roundHalfEven x.ratio.1 x.ratio.2) else printed.show x

/-- What a program prints for a finite number. -/
def text (negative : Bool) (x : Magnitude) : List Char :=
  if x.isWhole && x.isShort then x.fastText negative else x.generalText negative

end Magnitude

/-- What a program prints for a number. -/
def text (x : Float) : String :=
  match Meaning.of x with
  | .nan => "NaN"
  | .infinite negative => String.ofList (signOf negative ++ ['i', 'n', 'f'])
  | .finite negative size => String.ofList (size.text negative)

/-- A number as it is listed in tokens and trees: whole numbers end in `.0`. -/
def literal (x : Float) : String :=
  match Meaning.of x with
  | .finite _ size => if size.isWhole then text x ++ ".0" else text x
  | _ => text x

/-- A JSON number; infinities and NaN have none. -/
def json? (x : Float) : Option String :=
  match Meaning.of x with
  | .finite negative size => some (String.ofList (signOf negative ++ inJson.show size))
  | _ => none

end Lox.Number
