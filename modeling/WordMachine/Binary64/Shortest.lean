import WordMachine.Binary64.Rounding

/-!
# Shortest decimals

The decimal that stands for a number is **the one with the fewest digits that rounds to it**, and
among those of that length the one closest to it, with an even last digit on a tie.

For each count of digits there is a grid of decimals of that precision around the number. If any
point of a grid rounds to the number, then so does one of the number's two neighbours on that grid,
because what rounds to a number is an interval around it. So the search looks at the nearer
neighbour, then at the other, on finer and finer grids. Seventeen digits always suffice, hence
nothing is tested on the last grid.
-/

set_option autoImplicit false

namespace WordMachine

/-- A decimal magnitude, `digits * 10 ^ exponent`. -/
structure Decimal where
  digits : Nat
  exponent : Int
deriving DecidableEq

/-- How many decimal digits a natural has; zero has one. They are counted thirty-two at a time while
there are that many more. -/
def digitCount (n : Nat) : Nat :=
  if n < 10 then 1
  else if n < power 10 32 then digitCount (n / 10) + 1
  else digitCount (n / power 10 32) + 32
termination_by n
decreasing_by
  · omega
  · exact Nat.div_lt_self (by omega) (by decide)

theorem digitCount_pos (n : Nat) : 0 < digitCount n := by
  rw [digitCount]
  split
  · omega
  · split <;> omega

/-- The count of digits places a natural between two powers of ten. -/
theorem digitCount_spec {n : Nat} (h : 0 < n) :
    power 10 (digitCount n - 1) ≤ n ∧ n < power 10 (digitCount n) := by
  fun_induction digitCount n with
  | case1 n hlt => exact ⟨h, hlt⟩
  | case2 n hge _ ih =>
    obtain ⟨low, high⟩ := ih (by omega)
    have hpos := digitCount_pos (n / 10)
    rw [show digitCount (n / 10) + 1 - 1 = digitCount (n / 10) - 1 + 1 by omega, power_succ,
      power_succ]
    omega
  | case3 n hge hbig ih =>
    have hten : 0 < power 10 32 := by decide
    obtain ⟨low, high⟩ := ih (Nat.div_pos (by omega) hten)
    have hpos := digitCount_pos (n / power 10 32)
    rw [show digitCount (n / power 10 32) + 32 - 1 = digitCount (n / power 10 32) - 1 + 32 by omega,
      power_add, power_add]
    exact ⟨(Nat.le_div_iff_mul_le hten).1 low, (Nat.div_lt_iff_lt_mul hten).1 high⟩

namespace Decimal

/-- The same magnitude without trailing zeros in its digits. -/
def trim (d : Decimal) : Decimal :=
  if d.digits ≠ 0 ∧ d.digits % 10 = 0 then trim ⟨d.digits / 10, d.exponent + 1⟩ else d
termination_by d.digits

end Decimal

namespace Binary64

/-- The magnitude, in units, that a decimal is rounded to. -/
def unitsOfDecimal (d : Decimal) : Nat :=
  roundUnits (scaledNum 10 d.digits d.exponent) (scaledDen 10 d.exponent)

/-- The decimal exponent of a positive magnitude `u`: it lies between the power of ten before this
one, included, and this one. -/
def decimalExponent (u : Nat) : Int :=
  (digitCount (u * power 10 324 / unitsPerOne) : Int) - 324

/-- The numerator of `u` in steps of the grid `10 ^ exponent`. -/
def gridNum (u : Nat) (exponent : Int) : Nat := u * power 10 (-exponent).toNat

/-- The denominator of a magnitude in steps of the grid `10 ^ exponent`. -/
def gridDen (exponent : Int) : Nat := unitsPerOne * power 10 exponent.toNat

/-- The neighbour of `u` on a grid that is nearer to it. -/
def nearNeighbour (u : Nat) (exponent : Int) : Decimal :=
  ⟨roundDiv (gridNum u exponent) (gridDen exponent), exponent⟩

/-- The neighbour of `u` on a grid on the other side of the nearer one. -/
def farNeighbour (u : Nat) (exponent : Int) : Decimal :=
  let near := (nearNeighbour u exponent).digits
  ⟨if near * gridDen exponent ≤ gridNum u exponent then near + 1 else near - 1, exponent⟩

/-- A neighbour of `u` on a grid that rounds to `u`, the nearer one if it does. -/
def neighbourFor? (u : Nat) (exponent : Int) : Option Decimal :=
  [nearNeighbour u exponent, farNeighbour u exponent].find? fun d => unitsOfDecimal d == u

/-- The first hit on the grids of one to sixteen digits below `10 ^ whole`. -/
def hit? (u : Nat) (whole : Int) : Option Decimal :=
  (List.range' 1 16).findSome? fun count => neighbourFor? u (whole - (count : Nat))

/-- The shortest decimal for a positive magnitude in units: the first hit, and else the nearer
neighbour on the grid of seventeen digits. -/
def shortest (u : Nat) : Decimal :=
  let whole := decimalExponent u
  ((hit? u whole).getD (nearNeighbour u (whole - 17))).trim

theorem unitsOfDecimal_of_neighbourFor? {u : Nat} {exponent : Int} {d : Decimal}
    (h : neighbourFor? u exponent = some d) : unitsOfDecimal d = u := by
  simpa using List.find?_some h

end Binary64
end WordMachine
