import Lox.Number.Magnitude

/-!
# The fewest digits that read back

`shortest` gives a positive finite magnitude as a decimal `digits * 10 ^ exponent` that rounds to
the same double, with as few digits as any such decimal has and, among those, nearest to it. The
search goes through the decimal grids around the number, coarsest first: on each it looks at the
number's two neighbours, so no coarser grid is passed over that has a point which reads back.
-/

set_option autoImplicit false

namespace Lox.Number

/-- The number `digits * 10 ^ exponent`. -/
structure Decimal where
  digits : Nat
  exponent : Int
  deriving DecidableEq, Repr

/-- Which of two equally near decimals is taken. -/
inductive Tie where
  | up
  | even
  deriving DecidableEq, Repr

/-- Compares `a * 10 ^ p` with `b * 2 ^ q` exactly, both sides brought to whole numbers. -/
def compareDecimal (a : Nat) (p : Int) (b : Nat) (q : Int) : Ordering :=
  compare (a * 10 ^ p.toNat * 2 ^ (-q).toNat) (b * 2 ^ q.toNat * 10 ^ (-p).toNat)

namespace Magnitude

/-- The distance down to the next double is half the distance up just above a power of two, except
at the least exponent. -/
def isLowerCloser (x : Magnitude) : Bool :=
  x.significand == fieldUnit && decide (-1074 < x.exponent)

/-- Whether `c * 10 ^ p` rounds to `x`: it lies between the midpoints to the neighbouring doubles,
counted in quarters of the last place. A midpoint itself rounds to `x` when `x` is even. -/
def readsBack (x : Magnitude) (c : Nat) (p : Int) : Bool :=
  let low := if x.isLowerCloser then 4 * x.significand - 1 else 4 * x.significand - 2
  let high := 4 * x.significand + 2
  let isEven := x.significand % 2 == 0
  let above := match compareDecimal c p low (x.exponent - 2) with
    | .lt => false
    | .eq => isEven
    | .gt => true
  let below := match compareDecimal c p high (x.exponent - 2) with
    | .lt => true
    | .eq => isEven
    | .gt => false
  above && below

/-- Of the neighbours `c` and `c + 1` of `x` on the grid of `10 ^ p`, the nearer one. -/
def nearer (x : Magnitude) (tie : Tie) (c : Nat) (p : Int) : Nat :=
  match compareDecimal (2 * c + 1) p (2 * x.significand) x.exponent with
  | .lt => c + 1
  | .gt => c
  | .eq => if tie = .even ∧ c % 2 = 0 then c else c + 1

/-- The neighbour of `x` on the grid of `10 ^ p` that reads back, the nearer one if both do. -/
def onGrid (x : Magnitude) (tie : Tie) (p : Int) : Option Nat :=
  let c := x.ratio.1 * 10 ^ (-p).toNat / (x.ratio.2 * 10 ^ p.toNat)
  match x.readsBack c p, x.readsBack (c + 1) p with
  | true, true => some (x.nearer tie c p)
  | true, false => some c
  | false, true => some (c + 1)
  | false, false => none

/-- The first of the next `count` grids, from that of `10 ^ p` downwards, with a neighbour that
reads back. -/
def firstGrid (x : Magnitude) (tie : Tie) : Nat → Int → Option Decimal
  | 0, _ => none
  | count + 1, p =>
    match x.onGrid tie p with
    | some c => some ⟨c, p⟩
    | none => x.firstGrid tie count (p - 1)

end Magnitude

/-- How many decimal digits a number has; zero has one. -/
def digitCount (n : Nat) : Nat :=
  if n < 10 then 1 else digitCount (n / 10) + 1

/-- The exponent of the highest power of ten that is at most `num / den`, for positive `num` and
`den`. -/
def log10Floor (num den : Nat) : Int :=
  let guess : Int := (digitCount num : Int) - digitCount den
  if den * 10 ^ guess.toNat ≤ num * 10 ^ (-guess).toNat then guess else guess - 1

/-- Moves the zeros that the digits end in into the exponent. -/
def Decimal.strip (d : Decimal) : Decimal :=
  if d.digits = 0 ∨ d.digits % 10 ≠ 0 then d else strip ⟨d.digits / 10, d.exponent + 1⟩
termination_by d.digits
decreasing_by omega

/-- The shortest decimal that reads back as `x`; seventeen digits are always enough. -/
def shortest (tie : Tie) (x : Magnitude) : Decimal :=
  let top := log10Floor x.ratio.1 x.ratio.2
  ((x.firstGrid tie 17 top).getD ⟨0, 0⟩).strip

end Lox.Number
