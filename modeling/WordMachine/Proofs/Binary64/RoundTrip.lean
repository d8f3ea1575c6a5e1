import WordMachine.Proofs.Binary64.Length

/-!
# Printed numbers read back

A zero, a normal number or an infinity is read back from what is written for it bit for bit, and a
NaN as a NaN of the same sign. **A subnormal number is not read back at all.** Its text is the
numeral of a decimal that rounds to it but does not equal it, and the reader refuses what is inexact
and below the least normal number. There is room for the text of every number (`bufferedText_eq`),
so it is texts that are spoken of before the last statement.

* *Finite numbers.* The decimal that is read rounds to the number printed (`spells_magnitudeText`).
  What is left is that the reader does not refuse it: its power is not outlying, and it does not
  underflow. More than `2 ^ 52` units never underflow (`not_underflows_of_lt`), but a decimal that
  rounds to `2 ^ 52` units, the least normal number, may lie so far below it that it does. So for
  that one number the shortest decimal is computed (`shortest_least`).
* *Subnormal numbers.* A decimal below `2 ^ 52` units that is exact in binary has more than a
  thousand decimal places (`scaled_ne`), and a shortest decimal never has more than 340.
-/

set_option autoImplicit false

namespace WordMachine

theorem digitCount_eq {n count : Nat} (hlow : power 10 (count - 1) ≤ n)
    (hhigh : n < power 10 count) : digitCount n = count := by
  have hpos : 0 < n := Nat.lt_of_lt_of_le (power_pos (by decide) _) hlow
  obtain ⟨hlow', hhigh'⟩ := digitCount_spec hpos
  have h₁ : digitCount n - 1 < count := lt_of_power_lt (Nat.lt_of_le_of_lt hlow' hhigh)
  have h₂ : count - 1 < digitCount n := lt_of_power_lt (Nat.lt_of_le_of_lt hlow hhigh')
  omega

namespace Binary64

/-! ## Magnitudes of numbers -/

/-- A pattern of bits is recovered from the number that it encodes. -/
theorem toBits_ofBits (bits : UInt64) : (ofBits bits).toBits = bits := by
  have hlt := bits.toNat_lt
  refine UInt64.toNat_inj.mp ?_
  rw [toBits, UInt64.toNat_ofNat', Nat.mod_eq_of_lt (ofBits bits).toBits_lt]
  simp only [ofBits, decide_eq_true_eq]
  split <;> omega

theorem least_le_units {x : Binary64} (h : x.exponent ≠ 0) : 0x10000000000000 ≤ x.units := by
  rw [units, if_neg h]
  exact Nat.le_trans (Nat.le_add_right _ _) (Nat.le_mul_of_pos_right _ (power_two_pos _))

/-! ## The decimal that is read -/

variable {u : Nat} {d : Decimal}

theorem scaledDen_pos (exponent : Int) : 0 < scaledDen 10 exponent := power_pos (by decide) _

theorem scaledDen_of_nonneg {exponent : Int} (h : 0 ≤ exponent) : scaledDen 10 exponent = 1 := by
  rw [scaledDen, show (-exponent).toNat = 0 by omega, power_zero]

theorem digits_ne_zero (h : unitsOfDecimal d ≠ 0) : d.digits ≠ 0 := by
  intro hzero
  have hden := scaledDen_pos d.exponent
  refine h ?_
  rw [unitsOfDecimal, scaledNum, hzero, Nat.zero_mul, Nat.zero_mul, roundUnits_of_lt (by omega)]
  exact roundDiv_eq_of_near (by omega) (by omega)

/-- A decimal without places after the point is a whole number, also after rounding. -/
theorem unitsPerOne_dvd_unitsOfDecimal (h : 0 ≤ d.exponent) : unitsPerOne ∣ unitsOfDecimal d := by
  rw [unitsOfDecimal, scaledDen_of_nonneg h]
  refine power_dvd_roundUnits ?_
  rw [scaledNum, Nat.mul_right_comm]
  exact Nat.dvd_mul_left _ _

/-- A printed magnitude is the numeral of a decimal that rounds to it: of its shortest decimal, or
of the whole number that it is. -/
theorem spells_magnitudeText (hpos : 0 < u) (hu : Representable u) :
    ∃ d, Spells (magnitudeText u) d ∧ unitsOfDecimal d = u ∧ -340 ≤ d.exponent ∧
      (u < unitsPerOne → d = shortest u) := by
  have hshortest := unitsOfDecimal_shortest hpos hu
  rcases magnitudeText_cases u with h | ⟨hnonneg, h⟩
  · exact ⟨shortest u, h, hshortest, le_exponent_shortest hpos hu, fun _ => rfl⟩
  · have hdvd := unitsPerOne_dvd_unitsOfDecimal hnonneg
    rw [hshortest] at hdvd
    refine ⟨⟨u / unitsPerOne, 0⟩, h, ?_, show (-340 : Int) ≤ 0 by decide, fun hlt => ?_⟩
    · rw [unitsOfDecimal, scaledDen_of_nonneg (Int.le_refl 0), scaledNum,
        Nat.div_mul_cancel hdvd, Int.toNat_zero, power_zero, Nat.mul_one, roundUnits_self hu]
    · exact absurd (Nat.le_of_dvd hpos hdvd) (Nat.not_le.mpr hlt)

/-! ## What is accepted -/

/-- A power above `10 ^ 1100` takes every decimal beyond the greatest finite number. -/
theorem not_isOutlying (hdigits : d.digits ≠ 0) (hlow : -1200 ≤ d.exponent)
    (hhigh : unitsOfDecimal d < power 2 2098) : Numeral.isOutlying d.digits d.exponent = false := by
  have hbound : d.exponent ≤ 1100 := by
    refine Int.not_lt.mp fun hlarge => ?_
    have hscale : power 2 1101 ≤ power 10 d.exponent.toNat :=
      Nat.le_trans (power_le_power (by omega)) (Nat.pow_le_pow_left (by decide) _)
    have hnum : power 2 (1074 + 1101) * scaledDen 10 d.exponent
        ≤ scaledNum 10 d.digits d.exponent := by
      rw [scaledDen_of_nonneg (by omega), Nat.mul_one, power_add, scaledNum]
      refine Nat.mul_le_mul (Nat.le_mul_of_pos_left _ (Nat.pos_of_ne_zero hdigits)) hscale
    have hunits := power_le_roundUnits (scaledDen_pos _) hnum
    have := power_le_power (show 2098 ≤ 1074 + 1101 by omega)
    rw [unitsOfDecimal] at hhigh
    omega
  simp only [Numeral.isOutlying, decide_eq_false_iff_not]
  omega

/-- What rounds to more than the least normal number is not below it with fifty-three bits. -/
theorem not_underflows_of_lt {reach num den : Nat} (hden : 0 < den)
    (h : 0x10000000000000 < roundUnits num den) : Numeral.underflows reach num den = false := by
  simp only [Numeral.underflows, decide_eq_false_iff_not]
  rintro ⟨-, hlt⟩
  have hsmall : num < 0x20000000000000 * den := by omega
  rw [roundUnits_of_lt hsmall] at h
  obtain ⟨hnear, -⟩ := roundDiv_near num hden
  have := Nat.mul_le_mul_right den h
  omega

/-- A decimal that rounds to a finite number, and is not refused, is read as that number. -/
theorem value?_eq_some {x : Binary64} (hfinite : x.isFinite = true) (hne : x.units ≠ 0)
    (hunits : unitsOfDecimal d = x.units) (hlow : -340 ≤ d.exponent)
    (hunder : Numeral.underflows Radix.decimal.reach (scaledNum 10 d.digits d.exponent)
      (scaledDen 10 d.exponent) = false) :
    (Numeral.scaled .decimal d.digits d.exponent).value? x.negative = some x := by
  have hdigits : d.digits ≠ 0 := digits_ne_zero (by rw [hunits]; exact hne)
  have houtlying : Numeral.isOutlying d.digits d.exponent = false :=
    not_isOutlying hdigits (by omega) (by rw [hunits]; exact units_lt hfinite)
  have hround : round x.negative (scaledNum 10 d.digits d.exponent) (scaledDen 10 d.exponent)
      = x := by
    rw [round, ← unitsOfDecimal, hunits, ofUnits_units hfinite]
  have hinfinite : x.isInfinite = false := (special_of_isFinite hfinite).2
  rw [Numeral.value?, if_neg hdigits, houtlying, if_neg Bool.false_ne_true,
    show Radix.decimal.scale = 10 from rfl]
  simp only [hunder, hround, hinfinite, Bool.false_eq_true, if_false]

/-! ## The least normal number -/

theorem decimalExponent_least : decimalExponent 0x10000000000000 = -307 := by
  have hcount : digitCount (0x10000000000000 * power 10 324 / unitsPerOne) = 17 :=
    digitCount_eq (by decide +kernel) (by decide +kernel)
  rw [decimalExponent, hcount]
  rfl

theorem shortest_least : shortest 0x10000000000000 = ⟨22250738585072014, -324⟩ := by
  have hhit : hit? 0x10000000000000 (-307) = none := by decide +kernel
  have hnear : nearNeighbour 0x10000000000000 (-307 - 17) = ⟨22250738585072014, -324⟩ := by
    decide +kernel
  rw [shortest, decimalExponent_least, hhit, hnear, Option.getD_none, Decimal.trim]
  rfl

/-- No decimal that is read for a normal number underflows. -/
theorem not_underflows_of_normal (hlow : 0x10000000000000 ≤ u)
    (hunits : unitsOfDecimal d = u) (hd : u < unitsPerOne → d = shortest u) :
    Numeral.underflows Radix.decimal.reach (scaledNum 10 d.digits d.exponent)
      (scaledDen 10 d.exponent) = false := by
  rcases Nat.lt_or_eq_of_le hlow with hlt | rfl
  · refine not_underflows_of_lt (scaledDen_pos _) ?_
    rw [← unitsOfDecimal, hunits]
    exact hlt
  · -- the decimal of the least normal number lies above it
    rw [hd (by decide +kernel), shortest_least]
    decide +kernel

/-! ## Subnormal magnitudes -/

/-- A decimal that is not a whole number of units, hence equal to no number, and that lies below the
least normal number, which is `2 ^ 52` units. -/
structure InexactSubnormal (d : Decimal) : Prop where
  inexact : ∀ u, scaledNum 10 d.digits d.exponent ≠ u * scaledDen 10 d.exponent
  below : scaledNum 10 d.digits d.exponent < 0x10000000000000 * scaledDen 10 d.exponent

theorem exponent_neg_of_scaledNum_lt (hdigits : d.digits ≠ 0)
    (h : scaledNum 10 d.digits d.exponent < 0x10000000000000 * scaledDen 10 d.exponent) :
    d.exponent < 0 := by
  refine Int.not_le.mp fun hnonneg => ?_
  rw [scaledDen_of_nonneg hnonneg, scaledNum] at h
  have hone := Nat.le_mul_of_pos_left unitsPerOne (Nat.pos_of_ne_zero hdigits)
  have hscale := Nat.le_mul_of_pos_right (d.digits * unitsPerOne)
    (power_pos (show 0 < 10 by decide) d.exponent.toNat)
  have hlarge : 0x10000000000000 ≤ unitsPerOne := by decide +kernel
  omega

/-- A decimal of `n` places that is a binary fraction has digits that `5 ^ n` divides. Below the
least normal number there is no room for them, with as few places as a shortest decimal has. -/
theorem scaled_ne (hdigits : d.digits ≠ 0) (hexponent : -340 ≤ d.exponent)
    (hlt : scaledNum 10 d.digits d.exponent < 0x10000000000000 * scaledDen 10 d.exponent)
    (place a : Nat) :
    scaledNum 10 d.digits d.exponent * power 2 place ≠ a * scaledDen 10 d.exponent := by
  have hneg := exponent_neg_of_scaledNum_lt hdigits hlt
  obtain ⟨n, hn⟩ : ∃ n : Nat, d.exponent = -(n : Int) := ⟨d.exponent.natAbs, by omega⟩
  have hnum : scaledNum 10 d.digits d.exponent = d.digits * power 2 1074 := by
    rw [scaledNum, show d.exponent.toNat = 0 by omega, power_zero, Nat.mul_one, unitsPerOne]
  have hden : scaledDen 10 d.exponent = power 5 n * power 2 n := by
    rw [scaledDen, show (-d.exponent).toNat = n by omega]
    exact Nat.mul_pow 5 2 n
  rw [hnum, hden] at hlt ⊢
  intro heq
  -- the fives of the denominator can only come out of the digits
  have hdvd : power 5 n ∣ d.digits := by
    have hproduct : power 5 n ∣ d.digits * power 2 (1074 + place) := by
      rw [power_add, ← Nat.mul_assoc, heq, Nat.mul_left_comm]
      exact Nat.dvd_mul_right _ _
    have hcoprime : Nat.Coprime (power 5 n) (power 2 (1074 + place)) :=
      Nat.Coprime.pow _ _ (by decide)
    exact hcoprime.dvd_of_dvd_mul_right hproduct
  have hle := Nat.le_of_dvd (Nat.pos_of_ne_zero hdigits) hdvd
  have hbits : power 5 n * power 2 1074 < power 5 n * power 2 (52 + n) := by
    calc power 5 n * power 2 1074 ≤ d.digits * power 2 1074 := Nat.mul_le_mul_right _ hle
      _ < power 2 52 * (power 5 n * power 2 n) := hlt
      _ = power 5 n * power 2 (52 + n) := by rw [power_add, Nat.mul_left_comm]
  have hsmall := power_le_power (show 52 + n ≤ 1074 by omega)
  exact absurd (Nat.lt_of_mul_lt_mul_left hbits) (Nat.not_lt.mpr hsmall)

theorem scaledNum_lt_of_unitsOfDecimal_lt (h : unitsOfDecimal d < 0x10000000000000) :
    scaledNum 10 d.digits d.exponent < 0x10000000000000 * scaledDen 10 d.exponent := by
  refine Nat.lt_of_not_le fun hle => ?_
  exact absurd (power_le_roundUnits (k := 52) (scaledDen_pos _) hle) (Nat.not_le.mpr h)

section

variable (hexponent : -340 ≤ d.exponent) (hpos : 0 < unitsOfDecimal d)
  (hlt : unitsOfDecimal d < 0x10000000000000)
include hexponent hpos hlt

theorem inexactSubnormal_of_units : InexactSubnormal d := by
  have hbelow := scaledNum_lt_of_unitsOfDecimal_lt hlt
  refine ⟨fun u hexact => ?_, hbelow⟩
  refine scaled_ne (digits_ne_zero (Nat.ne_of_gt hpos)) hexponent hbelow 0 u ?_
  rw [power_zero, Nat.mul_one, hexact]

/-- What a decimal that rounds to a subnormal number loses is never the fifty-fourth bit alone. -/
theorem losesBits_of_units (reach : Nat) :
    Numeral.losesBits reach (scaledNum 10 d.digits d.exponent) (scaledDen 10 d.exponent)
      = true := by
  obtain ⟨hinexact, hbelow⟩ := inexactSubnormal_of_units hexponent hpos hlt
  have hne := scaled_ne (digits_ne_zero (Nat.ne_of_gt hpos)) hexponent hbelow
  simp only [Numeral.losesBits, decide_eq_true_eq]
  exact ⟨hinexact _, fun h => hne _ _ h.2.2⟩

theorem underflows_of_units (reach : Nat) :
    Numeral.underflows reach (scaledNum 10 d.digits d.exponent) (scaledDen 10 d.exponent)
      = true := by
  have hloses := losesBits_of_units hexponent hpos hlt reach
  have hbelow := scaledNum_lt_of_unitsOfDecimal_lt hlt
  have hden := scaledDen_pos d.exponent
  -- below `2 ^ 53` units there is no rounding to fewer bits, so the fraction is half a unit away
  rw [unitsOfDecimal, roundUnits_of_lt (by omega)] at hlt
  generalize scaledNum 10 d.digits d.exponent = num at *
  generalize scaledDen 10 d.exponent = den at *
  have hroom : 4 * num < 0x3fffffffffffff * den := by
    obtain ⟨-, hnear⟩ := roundDiv_near num hden
    have := Nat.mul_le_mul_right den (Nat.le_sub_one_of_lt hlt)
    omega
  simp only [Numeral.underflows, decide_eq_true_eq]
  exact ⟨hloses, hroom⟩

/-- A decimal that rounds to a subnormal number is refused. -/
theorem value?_eq_none (negative : Bool) :
    (Numeral.scaled .decimal d.digits d.exponent).value? negative = none := by
  have hdigits : d.digits ≠ 0 := digits_ne_zero (Nat.ne_of_gt hpos)
  have hunder := underflows_of_units hexponent hpos hlt Radix.decimal.reach
  rw [Numeral.value?, if_neg hdigits, show Radix.decimal.scale = 10 from rfl]
  simp only [hunder, if_true, ite_self]

end

/-! ## Texts -/

theorem read?_text_of_isNaN {x : Binary64} (h : x.isNaN = true) :
    read? x.text = some (nan x.negative) := by
  rw [text, if_pos h]
  cases x.negative <;> rfl

theorem read?_text_of_isInfinite {x : Binary64} (h : x.isInfinite = true) :
    read? x.text = some x := by
  have hnan : x.isNaN = false := by simp_all [isInfinite, isNaN]
  have hread : read? x.text = some (infinity x.negative) := by
    rw [text, hnan, if_neg Bool.false_ne_true, if_pos h]
    cases x.negative <;> rfl
  rw [hread, ← eq_infinity h]

theorem read?_text_of_isZero {x : Binary64} (h : x.isZero = true) : read? x.text = some x := by
  have hnan : x.isNaN = false := by simp_all [isZero, isNaN]
  have hinfinite : x.isInfinite = false := by simp_all [isZero, isInfinite]
  have hx : x = zero x.negative := by
    obtain ⟨negative, exponent, fraction, _, _⟩ := x
    simp_all [isZero, zero]
  have hread : read? x.text = some (zero x.negative) := by
    rw [text, hnan, hinfinite, if_neg Bool.false_ne_true, if_neg Bool.false_ne_true, if_pos h]
    cases x.negative <;> rfl
  rw [hread, ← hx]

theorem read?_text_of_normal {x : Binary64} (hfinite : x.isFinite = true) (h : x.exponent ≠ 0) :
    read? x.text = some x := by
  have hlow := least_le_units h
  have hpos : 0 < x.units := by omega
  obtain ⟨d, hspells, hunits, hexponent, hd⟩ := spells_magnitudeText hpos (representable_units x)
  rw [text_of_units_pos hfinite hpos, read?_signed hspells]
  exact value?_eq_some hfinite (Nat.ne_of_gt hpos) hunits hexponent
    (not_underflows_of_normal hlow hunits hd)

/-- Every number is read back that is neither a NaN nor subnormal. -/
theorem read?_text {x : Binary64} (hnan : x.isNaN = false) (hsub : x.isSubnormal = false) :
    read? x.text = some x := by
  by_cases hinfinite : x.isInfinite = true
  · exact read?_text_of_isInfinite hinfinite
  by_cases hzero : x.isZero = true
  · exact read?_text_of_isZero hzero
  · have hfinite : x.isFinite = true := by simp [isFinite_eq, hnan, hinfinite]
    refine read?_text_of_normal hfinite fun hexponent => ?_
    simp_all [isSubnormal, isZero]

theorem units_of_isSubnormal {x : Binary64} (h : x.isSubnormal = true) :
    0 < x.units ∧ x.units < 0x10000000000000 := by
  simp only [isSubnormal, decide_eq_true_eq] at h
  rw [units, if_pos h.1]
  exact ⟨Nat.pos_of_ne_zero h.2, x.fraction_lt⟩

theorem text_of_isSubnormal {x : Binary64} (h : x.isSubnormal = true) :
    x.text = (if x.negative then Text.ofString "-" else []) ++ magnitudeText x.units ∧
      Spells (magnitudeText x.units) (shortest x.units) := by
  have hfinite : x.isFinite = true := by simp_all [isSubnormal, isFinite]
  obtain ⟨hpos, hlt⟩ := units_of_isSubnormal h
  obtain ⟨d, hspells, -, -, hd⟩ := spells_magnitudeText hpos (representable_units x)
  rw [hd (Nat.lt_trans hlt (by decide +kernel))] at hspells
  exact ⟨text_of_units_pos hfinite hpos, hspells⟩

/-- **Printed numbers read back**, from every pattern of bits: zeros, normal numbers and infinities
bit for bit, NaNs as NaNs of the same sign. What is written for a subnormal number is refused,
because the shortest decimal, of which it is the numeral, is inexact and below the least normal
number. -/
theorem bufferedText_reads_back (bits : UInt64) :
    ((ofBits bits).isNaN = false → (ofBits bits).isSubnormal = false →
      (read? (ofBits bits).bufferedText).map toBits = some bits) ∧
    ((ofBits bits).isNaN = true →
      ∃ y, read? (ofBits bits).bufferedText = some y ∧
        y.isNaN = true ∧ y.negative = (ofBits bits).negative) ∧
    ((ofBits bits).isSubnormal = true →
      read? (ofBits bits).bufferedText = none ∧
      (ofBits bits).bufferedText = (if (ofBits bits).negative then Text.ofString "-" else [])
        ++ magnitudeText (ofBits bits).units ∧
      Spells (magnitudeText (ofBits bits).units) (shortest (ofBits bits).units) ∧
      InexactSubnormal (shortest (ofBits bits).units)) := by
  rw [bufferedText_eq]
  refine ⟨fun hnan hsub => ?_, fun hnan => ?_, fun hsub => ?_⟩
  · rw [read?_text hnan hsub, Option.map_some, toBits_ofBits]
  · exact ⟨nan (ofBits bits).negative, read?_text_of_isNaN hnan, rfl, rfl⟩
  · obtain ⟨htext, hspells⟩ := text_of_isSubnormal hsub
    obtain ⟨hpos, hlt⟩ := units_of_isSubnormal hsub
    have hunits := unitsOfDecimal_shortest hpos (representable_units (ofBits bits))
    have hexponent := le_exponent_shortest hpos (representable_units (ofBits bits))
    rw [← hunits] at hpos hlt
    refine ⟨?_, htext, hspells, inexactSubnormal_of_units hexponent hpos hlt⟩
    rw [htext, read?_signed hspells]
    exact value?_eq_none hexponent hpos hlt _

/-- The least normal number, the subnormal number before it, and a NaN with another payload than
the one that is read. -/
theorem bufferedText_reads_back_classes :
    (read? (ofBits 0x10000000000000).bufferedText).map toBits = some 0x10000000000000 ∧
    read? (ofBits 0xfffffffffffff).bufferedText = none ∧
    ∃ y, read? (ofBits 0xfff0000000000001).bufferedText = some y ∧
      y.isNaN = true ∧ y.negative = true :=
  ⟨(bufferedText_reads_back 0x10000000000000).1 (by decide) (by decide),
    ((bufferedText_reads_back 0xfffffffffffff).2.2 (by decide)).1,
    (bufferedText_reads_back 0xfff0000000000001).2.1 (by decide)⟩

end Binary64
end WordMachine
