import WordMachine.Proofs.Binary64.Halfway

/-!
# Operations round once

**An operation on finite numbers gives its exact result, rounded to the nearest double**, with ties
to even, and infinity where the nearest one would be too large (`add_rounds`, `sub_rounds`,
`mul_rounds`, `div_rounds`, `sqrt_rounds`). A magnitude and a sign leave no choice of the number
that they are rounded to (`Rounds.unique`), so nothing else could be the result.

Of operands that are not finite it is said when there is no result. A NaN comes from a NaN, or from
infinities and zeros that leave the result undetermined (`isNaN_add_iff` and the like).
-/

set_option autoImplicit false

namespace WordMachine
namespace Binary64

/-! ## Numbers -/

theorem negative_ofUnits (negative : Bool) (u : Nat) :
    (ofUnits negative u).negative = negative := by
  unfold ofUnits
  split
  · rfl
  · simp only
    split <;> rfl

theorem ofUnits_of_power_le {u : Nat} (negative : Bool) (h : power 2 2098 ≤ u) :
    ofUnits negative u = infinity negative := by
  obtain ⟨-, hlog⟩ := le_log2_of_power_le h
  have hlarge : ¬u < 0x10000000000000 := by
    have := power_le_power (show 52 ≤ 2098 by decide)
    exact Nat.not_lt.mpr (Nat.le_trans this h)
  rw [ofUnits, dif_neg hlarge]
  simp only
  rw [dif_neg (by omega)]

/-- A magnitude that is not too large is that of the number made of it. -/
theorem units_ofUnits {u : Nat} (negative : Bool) (hu : Representable u) (h : u < power 2 2098) :
    (ofUnits negative u).isFinite = true ∧ (ofUnits negative u).units = u := by
  by_cases hsmall : u < 0x10000000000000
  · rw [ofUnits, dif_pos hsmall]
    exact ⟨rfl, rfl⟩
  · obtain ⟨hne, hlog⟩ := le_log2_of_power_le (k := 52) (Nat.not_lt.mp hsmall)
    have hlow : power 2 u.log2 ≤ u := Nat.log2_self_le hne
    have hhigh : u < power 2 (u.log2 + 1) := Nat.lt_log2_self
    have hlog' : u.log2 < 2098 := by
      refine Nat.lt_of_not_le fun hge => ?_
      exact absurd (Nat.lt_of_lt_of_le h (power_le_power hge)) (Nat.not_lt.mpr hlow)
    generalize hs : u.log2 - 52 = s
    rw [show u.log2 = 52 + s by omega] at hlow hhigh
    obtain ⟨m, rfl⟩ := hu.power_dvd hlow
    rw [ofUnits, dif_neg hsmall]
    simp only [hs]
    rw [dif_pos (by omega)]
    have hpos := power_two_pos s
    -- the bit before the fraction is the leading one
    have hbits : 0x10000000000000 ≤ m ∧ m < 0x20000000000000 := by
      rw [power_add, Nat.mul_comm] at hlow
      rw [Nat.add_right_comm, power_add, Nat.mul_comm] at hhigh
      exact ⟨Nat.le_of_mul_le_mul_left hlow hpos, Nat.lt_of_mul_lt_mul_right hhigh⟩
    refine ⟨?_, ?_⟩
    · simp only [isFinite, decide_eq_true_eq]
      omega
    · rw [units, if_neg (Nat.succ_ne_zero s)]
      simp only [Nat.mul_div_cancel_left m hpos, Nat.add_sub_cancel]
      rw [show 0x10000000000000 + m % 0x10000000000000 = m by omega, Nat.mul_comm]

/-- A number of the given sign whose magnitude is an exact one, rounded. The number is infinite if
what is nearest lies beyond the greatest finite one. -/
structure Rounds (a : Magnitude) (negative : Bool) (x : Binary64) : Prop where
  sign : x.negative = negative
  magnitude : ∃ u, Nearest a u ∧
    ((u < power 2 2098 ∧ x.isFinite = true ∧ x.units = u) ∨
      (power 2 2098 ≤ u ∧ x.isInfinite = true))

theorem rounds_ofUnits {a : Magnitude} {u : Nat} (negative : Bool) (h : Nearest a u) :
    Rounds a negative (ofUnits negative u) := by
  refine ⟨negative_ofUnits negative u, u, h, ?_⟩
  rcases Nat.lt_or_ge u (power 2 2098) with hlt | hge
  · exact Or.inl ⟨hlt, units_ofUnits negative h.representable hlt⟩
  · refine Or.inr ⟨hge, ?_⟩
    rw [ofUnits_of_power_le negative hge]
    rfl

theorem rounds_round (negative : Bool) (num : Nat) {den : Nat} (hden : 0 < den) :
    Rounds (.fraction num den hden) negative (round negative num den) :=
  rounds_ofUnits negative (nearest_roundUnits num hden)

namespace Rounds

variable {a : Magnitude} {negative : Bool} {x y : Binary64}

/-- An exact magnitude and a sign leave no choice of the number. -/
theorem unique (hx : Rounds a negative x) (hy : Rounds a negative y) : x = y := by
  have hsign : x.negative = y.negative := hx.sign.trans hy.sign.symm
  obtain ⟨u, hu, hxu⟩ := hx.magnitude
  obtain ⟨v, hv, hyv⟩ := hy.magnitude
  obtain rfl := hu.unique hv
  rcases hxu with ⟨hlt, hxfinite, hxunits⟩ | ⟨hge, hxinfinite⟩
  · rcases hyv with ⟨-, hyfinite, hyunits⟩ | ⟨hge, -⟩
    · rw [← ofUnits_units hxfinite, ← ofUnits_units hyfinite, hsign, hxunits, hyunits]
    · exact absurd hlt (Nat.not_lt.mpr hge)
  · rcases hyv with ⟨hlt, -⟩ | ⟨-, hyinfinite⟩
    · exact absurd hlt (Nat.not_lt.mpr hge)
    · rw [eq_infinity hxinfinite, eq_infinity hyinfinite, hsign]

/-- A finite result is nearest to the exact one. -/
theorem nearest_units (h : Rounds a negative x) (hx : x.isFinite = true) : Nearest a x.units := by
  obtain ⟨u, hu, ⟨-, -, rfl⟩ | ⟨-, hinfinite⟩⟩ := h.magnitude
  · exact hu
  · simp_all [isFinite, isInfinite]

/-- Of two numbers that are as near, it is the one whose last bit is zero. -/
theorem two_dvd_fraction (h : Rounds a negative x) (hx : x.isFinite = true)
    (hne : y.units ≠ x.units) (hmost : a.AtMost (x.units + y.units))
    (hleast : a.AtLeast (x.units + y.units)) : 2 ∣ x.fraction := by
  rw [← endsEven_units_iff]
  exact (h.nearest_units hx).even (representable_units y) hne hmost hleast

theorem isNaN_eq_false (h : Rounds a negative x) : x.isNaN = false := by
  obtain ⟨u, -, ⟨-, hfinite, -⟩ | ⟨-, hinfinite⟩⟩ := h.magnitude
  · exact (special_of_isFinite hfinite).1
  · simp_all [isInfinite, isNaN]

end Rounds

/-! ## Operations -/

section

variable {x y : Binary64}

theorem unitsPerOne_pos : 0 < unitsPerOne := power_two_pos 1074

theorem round_zero (negative : Bool) : round negative 0 1 = zero negative := by
  cases negative <;> decide

/-- **The sum is rounded once.** -/
theorem add_rounds (hx : x.isFinite = true) (hy : y.isFinite = true) :
    Rounds (.fraction (x.signedUnits + y.signedUnits).natAbs 1 Nat.one_pos)
      (if x.signedUnits + y.signedUnits = 0 then x.negative && y.negative
        else decide (x.signedUnits + y.signedUnits < 0))
      (x.add y) := by
  obtain ⟨hxnan, hxinfinite⟩ := special_of_isFinite hx
  obtain ⟨hynan, hyinfinite⟩ := special_of_isFinite hy
  simp only [add, hxnan, hynan, hxinfinite, hyinfinite, Bool.false_eq_true, if_false]
  generalize x.signedUnits + y.signedUnits = sum
  by_cases hzero : sum = 0
  · rw [if_pos hzero, if_pos hzero, hzero, Int.natAbs_zero, ← round_zero]
    exact rounds_round _ 0 Nat.one_pos
  · rw [if_neg hzero, if_neg hzero]
    exact rounds_round _ _ Nat.one_pos

theorem signedUnits_neg (x : Binary64) : x.neg.signedUnits = -x.signedUnits := by
  have hunits : x.neg.units = x.units := rfl
  unfold signedUnits
  rw [hunits, neg]
  cases x.negative <;> simp

/-- **The difference is rounded once.** -/
theorem sub_rounds (hx : x.isFinite = true) (hy : y.isFinite = true) :
    Rounds (.fraction (x.signedUnits - y.signedUnits).natAbs 1 Nat.one_pos)
      (if x.signedUnits - y.signedUnits = 0 then x.negative && !y.negative
        else decide (x.signedUnits - y.signedUnits < 0))
      (x.sub y) := by
  have hsub : x.sub y = x.add y.neg := by
    simp only [sub, (special_of_isFinite hy).1, Bool.false_and, Bool.false_eq_true, if_false]
  have hneg : y.neg.isFinite = true := hy
  have h := add_rounds hx hneg
  rw [signedUnits_neg, ← Int.sub_eq_add_neg] at h
  rw [hsub]
  exact h

/-- **The product is rounded once.** -/
theorem mul_rounds (hx : x.isFinite = true) (hy : y.isFinite = true) :
    Rounds (.fraction (x.units * y.units) unitsPerOne unitsPerOne_pos)
      (x.negative != y.negative) (x.mul y) := by
  obtain ⟨hxnan, hxinfinite⟩ := special_of_isFinite hx
  obtain ⟨hynan, hyinfinite⟩ := special_of_isFinite hy
  have hmul : x.mul y = round (x.negative != y.negative) (x.units * y.units) unitsPerOne := by
    simp only [mul, hxnan, hynan, hxinfinite, hyinfinite, Bool.or_false, Bool.false_eq_true,
      if_false]
  rw [hmul]
  exact rounds_round _ _ unitsPerOne_pos

/-- **The quotient is rounded once.** -/
theorem div_rounds (hx : x.isFinite = true) (hy : y.isFinite = true) (hpos : 0 < y.units) :
    Rounds (.fraction (x.units * unitsPerOne) y.units hpos)
      (x.negative != y.negative) (x.div y) := by
  obtain ⟨hxnan, hxinfinite⟩ := special_of_isFinite hx
  obtain ⟨hynan, hyinfinite⟩ := special_of_isFinite hy
  have hyzero : ¬y.isZero = true := fun h => Nat.ne_of_gt hpos (y.isZero_iff_units.mp h)
  have hdiv : x.div y = round (x.negative != y.negative) (x.units * unitsPerOne) y.units := by
    simp only [div, hxnan, hynan, hxinfinite, hyinfinite, hyzero, Bool.false_eq_true, if_false]
  rw [hdiv]
  exact rounds_round _ _ hpos

theorem nearest_squareRoot_zero : Nearest (.squareRoot 0) 0 := by
  refine ⟨⟨0, 0, by decide, rfl⟩, ?_, ?_, ?_⟩
  · intro v _ _
    exact Nat.zero_le _
  · intro v _ hlt
    exact absurd hlt (Nat.not_lt_zero v)
  · intro v _ _ _ _
    exact ⟨0, 0, by decide, rfl⟩

/-- **The square root is rounded once.** That of a negative zero is a negative zero. -/
theorem sqrt_rounds (hx : x.isFinite = true) (hsign : x.negative = true → x.isZero = true) :
    Rounds (.squareRoot (x.units * unitsPerOne)) x.negative x.sqrt := by
  obtain ⟨hnan, hinfinite⟩ := special_of_isFinite hx
  by_cases hzero : x.isZero = true
  · have hunits := x.isZero_iff_units.mp hzero
    have hsqrt : x.sqrt = x := by
      simp only [sqrt, hzero, Bool.or_true, if_true]
    rw [hsqrt, hunits, Nat.zero_mul]
    exact ⟨rfl, 0, nearest_squareRoot_zero, Or.inl ⟨power_two_pos 2098, hx, hunits⟩⟩
  · have hnegative : x.negative = false := Bool.eq_false_iff.mpr fun h => hzero (hsign h)
    have hpos : 0 < x.units := Nat.pos_of_ne_zero fun h => hzero (x.isZero_iff_units.mpr h)
    have hsqrt : x.sqrt = ofUnits false (roundSqrt (x.units * unitsPerOne)) := by
      simp only [sqrt, hnan, hzero, hnegative, hinfinite, Bool.or_self, Bool.false_eq_true,
        if_false]
    have hbits : power 2 120 ≤ x.units * unitsPerOne :=
      Nat.le_trans (power_le_power (by decide)) (Nat.le_mul_of_pos_left unitsPerOne hpos)
    rw [hsqrt, hnegative]
    exact rounds_ofUnits false (nearest_roundSqrt hbits)

/-! ## Special numbers

An operation gives a NaN if it is handed one, and else only where its result is undetermined. -/

@[simp] theorem isNaN_infinity (negative : Bool) : (infinity negative).isNaN = false := by
  simp [infinity, isNaN]

@[simp] theorem isNaN_invalid : invalid.isNaN = true := by decide

@[simp] theorem isNaN_zero (negative : Bool) : (zero negative).isNaN = false := by
  simp [zero, isNaN]

theorem isNaN_add_iff :
    (x.add y).isNaN = true ↔ x.isNaN = true ∨ y.isNaN = true ∨
      (x.isInfinite = true ∧ y.isInfinite = true ∧ x.negative ≠ y.negative) := by
  by_cases hxnan : x.isNaN = true
  · simp [add, hxnan]
  by_cases hynan : y.isNaN = true
  · simp [add, hxnan, hynan]
  by_cases hxinfinite : x.isInfinite = true
  · by_cases hopposite : y.isInfinite = true ∧ x.negative ≠ y.negative
    · simp [add, hxnan, hynan, hxinfinite, hopposite]
    · have hadd : x.add y = x := by simp_all [add]
      simp [hadd, hxnan, hynan, hopposite]
  by_cases hyinfinite : y.isInfinite = true
  · simp [add, hxnan, hynan, hxinfinite, hyinfinite]
  · have hx : x.isFinite = true := by simp [isFinite_eq, hxnan, hxinfinite]
    have hy : y.isFinite = true := by simp [isFinite_eq, hynan, hyinfinite]
    simp [(add_rounds hx hy).isNaN_eq_false, hxnan, hynan, hxinfinite]

theorem isNaN_sub_iff :
    (x.sub y).isNaN = true ↔ x.isNaN = true ∨ y.isNaN = true ∨
      (x.isInfinite = true ∧ y.isInfinite = true ∧ x.negative = y.negative) := by
  have hnan : y.neg.isNaN = y.isNaN := rfl
  have hinfinite : y.neg.isInfinite = y.isInfinite := rfl
  have hsign : x.negative ≠ y.neg.negative ↔ x.negative = y.negative := by
    show x.negative ≠ !y.negative ↔ _
    cases x.negative <;> cases y.negative <;> decide
  unfold sub
  by_cases hy : y.isNaN = true ∧ x.isNaN = false
  · simp [hy]
  · rw [if_neg (by simpa using hy), isNaN_add_iff, hnan, hinfinite, hsign]

theorem isZero_of_isInfinite (h : x.isInfinite = true) : x.isZero = false := by
  simp_all [isInfinite, isZero]

theorem isNaN_mul_iff :
    (x.mul y).isNaN = true ↔ x.isNaN = true ∨ y.isNaN = true ∨
      (x.isInfinite = true ∧ y.isZero = true) ∨ (x.isZero = true ∧ y.isInfinite = true) := by
  by_cases hxnan : x.isNaN = true
  · simp [mul, hxnan]
  by_cases hynan : y.isNaN = true
  · simp [mul, hxnan, hynan]
  by_cases hxinfinite : x.isInfinite = true
  · have hxzero := isZero_of_isInfinite hxinfinite
    by_cases hyzero : y.isZero = true
    · simp [mul, hxnan, hynan, hxinfinite, hyzero]
    · simp [mul, hxnan, hynan, hxinfinite, hxzero, hyzero]
  by_cases hyinfinite : y.isInfinite = true
  · have hyzero := isZero_of_isInfinite hyinfinite
    by_cases hxzero : x.isZero = true
    · simp [mul, hxnan, hynan, hyinfinite, hxzero]
    · simp [mul, hxnan, hynan, hyinfinite, hxzero, hyzero]
  · have hx : x.isFinite = true := by simp [isFinite_eq, hxnan, hxinfinite]
    have hy : y.isFinite = true := by simp [isFinite_eq, hynan, hyinfinite]
    simp [(mul_rounds hx hy).isNaN_eq_false, hxnan, hynan, hxinfinite, hyinfinite]

theorem isNaN_div_iff :
    (x.div y).isNaN = true ↔ x.isNaN = true ∨ y.isNaN = true ∨
      (x.isInfinite = true ∧ y.isInfinite = true) ∨ (x.isZero = true ∧ y.isZero = true) := by
  by_cases hxnan : x.isNaN = true
  · simp [div, hxnan]
  by_cases hynan : y.isNaN = true
  · simp [div, hxnan, hynan]
  by_cases hxinfinite : x.isInfinite = true
  · have hxzero := isZero_of_isInfinite hxinfinite
    by_cases hyinfinite : y.isInfinite = true
    · simp [div, hxnan, hynan, hxinfinite, hyinfinite]
    · simp [div, hxnan, hynan, hxinfinite, hyinfinite, hxzero]
  by_cases hyinfinite : y.isInfinite = true
  · have hyzero := isZero_of_isInfinite hyinfinite
    simp [div, hxnan, hynan, hxinfinite, hyinfinite, hyzero]
  by_cases hyzero : y.isZero = true
  · by_cases hxzero : x.isZero = true
    · simp [div, hxnan, hynan, hxinfinite, hyinfinite, hyzero, hxzero]
    · simp [div, hxnan, hynan, hxinfinite, hyinfinite, hyzero, hxzero]
  · have hx : x.isFinite = true := by simp [isFinite_eq, hxnan, hxinfinite]
    have hy : y.isFinite = true := by simp [isFinite_eq, hynan, hyinfinite]
    have hpos : 0 < y.units := Nat.pos_of_ne_zero fun h => hyzero (y.isZero_iff_units.mpr h)
    simp [(div_rounds hx hy hpos).isNaN_eq_false, hxnan, hynan, hxinfinite, hyzero]

theorem isNaN_sqrt_iff :
    x.sqrt.isNaN = true ↔ x.isNaN = true ∨ (x.negative = true ∧ x.isZero = false) := by
  by_cases hnan : x.isNaN = true
  · simp [sqrt, hnan]
  by_cases hzero : x.isZero = true
  · simp [sqrt, hzero, hnan]
  by_cases hnegative : x.negative = true
  · simp [sqrt, hzero, hnan, hnegative]
  by_cases hinfinite : x.isInfinite = true
  · simp [sqrt, hzero, hnan, hnegative, hinfinite]
  · have hx : x.isFinite = true := by simp [isFinite_eq, hnan, hinfinite]
    have hsign : x.negative = true → x.isZero = true := fun h => absurd h hnegative
    simp [(sqrt_rounds hx hsign).isNaN_eq_false, hnan, hnegative]

end

end Binary64
end WordMachine
