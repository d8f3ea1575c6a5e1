import WordMachine.Power

/-!
# Double-precision numbers

The numbers of the machine are the 64-bit binary floating-point numbers: a sign, eleven bits of
exponent and fifty-two bits of fraction. They are kept as those three fields.

**Magnitudes are whole numbers.** Every finite number is a multiple of `2 ^ -1074`, the least
positive one, so its magnitude is counted in those *units* (`Binary64.units`), exactly and in `Nat`.
All of the arithmetic, printing and reading is stated on units; no approximate arithmetic is
involved anywhere.
-/

set_option autoImplicit false

namespace WordMachine

/-- A double-precision number by its fields. -/
structure Binary64 where
  /-- The sign bit. -/
  negative : Bool
  /-- The exponent field, `0` for zeros and subnormals, `2047` for infinities and NaNs. -/
  exponent : Nat
  /-- The fraction field. -/
  fraction : Nat
  exponent_lt : exponent < 0x800
  fraction_lt : fraction < 0x10000000000000
deriving DecidableEq

namespace Binary64

/-- How many units make one. -/
def unitsPerOne : Nat := power 2 1074

/-- The number with the given 64 bits. -/
def ofBits (bits : UInt64) : Binary64 where
  negative := bits.toNat / 0x8000000000000000 = 1
  exponent := bits.toNat / 0x10000000000000 % 0x800
  fraction := bits.toNat % 0x10000000000000
  exponent_lt := Nat.mod_lt _ (by decide)
  fraction_lt := Nat.mod_lt _ (by decide)

/-- The 64 bits of a number. -/
def toBits (x : Binary64) : UInt64 :=
  UInt64.ofNat
    ((if x.negative then 0x8000000000000000 else 0) + x.exponent * 0x10000000000000 + x.fraction)

theorem least_exponent_lt : 0 < 0x800 := by decide

/-- Zero, with a sign. -/
def zero (negative : Bool) : Binary64 := ⟨negative, 0, 0, least_exponent_lt, by decide⟩

/-- Infinity, with a sign. -/
def infinity (negative : Bool) : Binary64 := ⟨negative, 2047, 0, by decide, by decide⟩

/-- A quiet NaN, with a sign. -/
def nan (negative : Bool) : Binary64 := ⟨negative, 2047, 0x8000000000000, by decide, by decide⟩

/-- Not a number. -/
def isNaN (x : Binary64) : Bool := x.exponent = 2047 ∧ x.fraction ≠ 0

/-- One of the two infinities. -/
def isInfinite (x : Binary64) : Bool := x.exponent = 2047 ∧ x.fraction = 0

/-- Neither infinite nor NaN. -/
def isFinite (x : Binary64) : Bool := x.exponent ≠ 2047

/-- One of the two zeros. -/
def isZero (x : Binary64) : Bool := x.exponent = 0 ∧ x.fraction = 0

/-- Finite, not zero, and below the least normal number in magnitude. -/
def isSubnormal (x : Binary64) : Bool := x.exponent = 0 ∧ x.fraction ≠ 0

/-- The magnitude of a finite number, in units. -/
def units (x : Binary64) : Nat :=
  if x.exponent = 0 then x.fraction else (0x10000000000000 + x.fraction) * power 2 (x.exponent - 1)

/-- A finite number in units, with its sign. -/
def signedUnits (x : Binary64) : Int := if x.negative then -(x.units : Int) else x.units

/-- The number of opposite sign. -/
def neg (x : Binary64) : Binary64 := { x with negative := !x.negative }

/-- Equality of numbers as a comparison: a NaN differs from everything, and the two zeros are
equal. -/
def agrees (x y : Binary64) : Bool :=
  !x.isNaN && !y.isNaN && (x == y || (x.isZero && y.isZero))

/-! ## Fields and bits -/

theorem toBits_lt (x : Binary64) :
    (if x.negative then 0x8000000000000000 else 0) + x.exponent * 0x10000000000000 + x.fraction
      < 0x10000000000000000 := by
  have := x.exponent_lt
  have := x.fraction_lt
  split <;> omega

/-- The bits of a number determine it. -/
theorem ofBits_toBits (x : Binary64) : ofBits x.toBits = x := by
  have hn : x.toBits.toNat
      = (if x.negative then 0x8000000000000000 else 0) + x.exponent * 0x10000000000000
        + x.fraction := by
    rw [toBits, UInt64.toNat_ofNat']
    exact Nat.mod_eq_of_lt x.toBits_lt
  obtain ⟨negative, exponent, fraction, he, hf⟩ := x
  simp only at hn
  cases negative <;> simp [ofBits, hn] <;> omega

theorem isFinite_eq (x : Binary64) : x.isFinite = (!x.isNaN && !x.isInfinite) := by
  by_cases h : x.exponent = 2047 <;> by_cases hf : x.fraction = 0 <;>
    simp [isFinite, isNaN, isInfinite, h, hf]

theorem special_of_isFinite {x : Binary64} (h : x.isFinite = true) :
    x.isNaN = false ∧ x.isInfinite = false := by
  rw [isFinite_eq, Bool.and_eq_true, Bool.not_eq_true', Bool.not_eq_true'] at h
  exact h

theorem eq_infinity {x : Binary64} (h : x.isInfinite = true) : x = infinity x.negative := by
  obtain ⟨negative, exponent, fraction, _, _⟩ := x
  simp_all [isInfinite, infinity]

/-- Zeros are the numbers of no units. -/
theorem isZero_iff_units (x : Binary64) : x.isZero = true ↔ x.units = 0 := by
  unfold isZero units
  by_cases h : x.exponent = 0
  · simp [h]
  · have : 0 < (0x10000000000000 + x.fraction) * power 2 (x.exponent - 1) :=
      Nat.mul_pos (by omega) (power_pos (by decide) _)
    simp only [h, false_and, decide_false, Bool.false_eq_true, if_false, false_iff]
    omega

end Binary64
end WordMachine
