import WordMachine.Binary64.Basic

/-!
# Rounding

A magnitude that is not a double is replaced by the nearest one, and a magnitude halfway between
two doubles by the one with an even last bit. Magnitudes are fractions `num / den` of units, so
that rounding is one division with remainder: doubles below `2 ^ 53` units lie one unit apart, and
above that their spacing doubles with every power of two (`spacing`).

**Rounding keeps what needs none** (`ofUnits_units`): a finite number is recovered from its units.
-/

set_option autoImplicit false

namespace WordMachine

/-- The natural nearest to `num / den`; a half goes to the even neighbour. -/
def roundDiv (num den : Nat) : Nat :=
  let quotient := num / den
  let twice := 2 * (num % den)
  if twice < den ∨ (twice = den ∧ quotient % 2 = 0) then quotient else quotient + 1

namespace Binary64

/-- The binary exponent of the distance between the doubles around `num / den` units. -/
def spacing (num den : Nat) : Nat := (num / den).log2 - 52

/-- The magnitude, in units, that `num / den` units are rounded to. Infinity is not considered: the
result may lie beyond the greatest finite number. -/
def roundUnits (num den : Nat) : Nat :=
  roundDiv num (den * power 2 (spacing num den)) * power 2 (spacing num den)

/-- The number of a sign and a magnitude in units that needs no rounding; infinity beyond the
greatest finite number. -/
def ofUnits (negative : Bool) (u : Nat) : Binary64 :=
  if h : u < 0x10000000000000 then ⟨negative, 0, u, least_exponent_lt, h⟩
  else
    let s := u.log2 - 52
    if h : s + 1 < 2047 then
      ⟨negative, s + 1, u / power 2 s % 0x10000000000000, by omega, Nat.mod_lt _ (by decide)⟩
    else infinity negative

/-- The number nearest to `num / den` units. -/
def round (negative : Bool) (num den : Nat) : Binary64 := ofUnits negative (roundUnits num den)

/-- The number nearest to a natural. -/
def ofNat (n : Nat) : Binary64 := round false (n * unitsPerOne) 1

/-! ## Powers of a base

A numeral is a natural times a power of its base. As a fraction of units, a positive power goes to
the numerator and a negative one to the denominator. -/

/-- The numerator of `digits * base ^ exponent`, as a fraction of units. -/
def scaledNum (base digits : Nat) (exponent : Int) : Nat :=
  digits * unitsPerOne * power base exponent.toNat

/-- The denominator of `digits * base ^ exponent`, as a fraction of units. -/
def scaledDen (base : Nat) (exponent : Int) : Nat := power base (-exponent).toNat

/-! ## What needs no rounding -/

theorem log2_mul_power {m : Nat} (s : Nat) (hlo : 0x10000000000000 ≤ m)
    (hhi : m < 0x20000000000000) : (m * power 2 s).log2 = 52 + s := by
  have hpos : 0 < power 2 s := power_pos (by decide) s
  have hne : m * power 2 s ≠ 0 := by
    have : 0 < m * power 2 s := Nat.mul_pos (by omega) hpos
    omega
  rw [Nat.log2_eq_iff hne]
  refine ⟨?_, ?_⟩
  · rw [Nat.pow_add]
    exact Nat.mul_le_mul_right _ hlo
  · rw [show 52 + s + 1 = 53 + s by omega, Nat.pow_add]
    exact Nat.mul_lt_mul_of_pos_right hhi hpos

/-- A finite number is the one of its sign and its units. -/
theorem ofUnits_units {x : Binary64} (h : x.isFinite = true) :
    ofUnits x.negative x.units = x := by
  obtain ⟨negative, exponent, fraction, he, hf⟩ := x
  have hfin : exponent ≠ 2047 := by simpa [isFinite] using h
  by_cases h0 : exponent = 0
  · subst h0
    rw [units, if_pos rfl, ofUnits, dif_pos hf]
  · have hlog : ((0x10000000000000 + fraction) * power 2 (exponent - 1)).log2
        = 52 + (exponent - 1) := log2_mul_power _ (by omega) (by omega)
    have hpos : 0 < power 2 (exponent - 1) := power_pos (by decide) _
    have hge : ¬(0x10000000000000 + fraction) * power 2 (exponent - 1) < 0x10000000000000 := by
      have := Nat.le_mul_of_pos_right (0x10000000000000 + fraction) hpos
      omega
    have hs : 52 + (exponent - 1) - 52 + 1 = exponent := by omega
    simp only [units, h0, if_false, ofUnits, hge, dite_false, hlog]
    rw [dif_pos (by omega)]
    simp only [Binary64.mk.injEq, true_and]
    refine ⟨hs, ?_⟩
    rw [show 52 + (exponent - 1) - 52 = exponent - 1 by omega, Nat.mul_div_cancel _ hpos]
    omega

end Binary64
end WordMachine
