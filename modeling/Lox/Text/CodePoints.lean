/-!
# Sets of code points

A set of code points is the list of its closed ranges, ascending and apart. Sets are given as
tables, in `NonGraphic` and `Combining`; all are those of version 17.0 of the standard.
-/

set_option autoImplicit false

namespace Lox.Text

/-- Whether ranges ascend with gaps between them. -/
def isAscending : List (Nat × Nat) → Bool
  | [] => true
  | [r] => decide (r.1 ≤ r.2)
  | r :: s :: rest => decide (r.1 ≤ r.2 ∧ r.2 + 1 < s.1) && isAscending (s :: rest)

/-- A set of code points, as its closed ranges. -/
structure CodePoints where
  ranges : List (Nat × Nat)
  ascending : isAscending ranges = true

/-- Whether a character is in the set. -/
def CodePoints.has (s : CodePoints) (c : Char) : Bool :=
  s.ranges.any fun r => decide (r.1 ≤ c.toNat ∧ c.toNat ≤ r.2)

end Lox.Text
