import WordMachine.Binary64.Rounding

/-!
# Arithmetic

Each operation computes its exact result in units and rounds it once. What is left is the treatment
of the special numbers, which is the same everywhere:

* an operand that is not a number is the result, the left one first, with its sign;
* an operation without a result (`∞ - ∞`, `0 * ∞`, `0 / 0`, `∞ / ∞`, the root of a negative number)
  gives a NaN whose sign bit is set;
* a zero result of an addition is negative only if both operands are; a product or a quotient has
  the sign that its operands' signs give.
-/

set_option autoImplicit false

namespace WordMachine
namespace Binary64

/-- The result of an operation that has none. -/
def invalid : Binary64 := nan true

/-- The sum. -/
def add (x y : Binary64) : Binary64 :=
  if x.isNaN then x
  else if y.isNaN then y
  else if x.isInfinite then
    if y.isInfinite && x.negative != y.negative then invalid else x
  else if y.isInfinite then y
  else
    let sum := x.signedUnits + y.signedUnits
    if sum = 0 then zero (x.negative && y.negative) else round (sum < 0) sum.natAbs 1

/-- The difference: the sum with the opposite number, a NaN keeping its sign. -/
def sub (x y : Binary64) : Binary64 := if y.isNaN && !x.isNaN then y else x.add y.neg

/-- The product. -/
def mul (x y : Binary64) : Binary64 :=
  let negative := x.negative != y.negative
  if x.isNaN then x
  else if y.isNaN then y
  else if x.isInfinite || y.isInfinite then
    if x.isZero || y.isZero then invalid else infinity negative
  else round negative (x.units * y.units) unitsPerOne

/-- The quotient. -/
def div (x y : Binary64) : Binary64 :=
  let negative := x.negative != y.negative
  if x.isNaN then x
  else if y.isNaN then y
  else if x.isInfinite then
    if y.isInfinite then invalid else infinity negative
  else if y.isInfinite then zero negative
  else if y.isZero then
    if x.isZero then invalid else infinity negative
  else round negative (x.units * unitsPerOne) y.units

/-! ## Square roots -/

/-- The natural square root, rounded down, two bits at a time. -/
def floorSqrt (n : Nat) : Nat :=
  if n = 0 then 0
  else
    let root := 2 * floorSqrt (n / 4)
    if (root + 1) * (root + 1) ≤ n then root + 1 else root
termination_by n

/-- The magnitude nearest to the square root of `n`, for an `n` of more than 120 bits. Its leading
bits are enough: `root` has more of them than a double keeps, and one more bit records whether
anything was left over. -/
def roundSqrt (n : Nat) : Nat :=
  let half := n.log2 / 2 - 60
  let root := floorSqrt (n / power 4 half)
  let rest := if root * root * power 4 half = n then 0 else 1
  roundUnits ((2 * root + rest) * power 2 half) 2

/-- The square root. The root of a zero is that zero. -/
def sqrt (x : Binary64) : Binary64 :=
  if x.isNaN || x.isZero then x
  else if x.negative then invalid
  else if x.isInfinite then x
  else ofUnits false (roundSqrt (x.units * unitsPerOne))

/-- What `floorSqrt` computes. -/
theorem floorSqrt_spec (n : Nat) :
    floorSqrt n * floorSqrt n ≤ n ∧ n < (floorSqrt n + 1) * (floorSqrt n + 1) := by
  fun_induction floorSqrt n with
  | case1 => simp
  | case2 n h root hle ih =>
    refine ⟨hle, ?_⟩
    have : n / 4 + 1 ≤ (floorSqrt (n / 4) + 1) * (floorSqrt (n / 4) + 1) := ih.2
    grind
  | case3 n h root hgt ih =>
    refine ⟨?_, by grind⟩
    have : floorSqrt (n / 4) * floorSqrt (n / 4) ≤ n / 4 := ih.1
    grind

end Binary64
end WordMachine
