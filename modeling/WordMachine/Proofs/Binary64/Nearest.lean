import WordMachine.Binary64.Rounding

/-!
# What is close to a double rounds to it

Magnitudes are fractions `num / den` of units. The magnitudes of doubles are the naturals of at most
fifty-three significant bits (`Representable`), and the fact that everything else about printed
numbers rests on is `roundUnits_eq_of_near`: **a fraction that differs from such a natural by less
than one part in `2 ^ 54` rounds to it.** That much room is left on either side even of a power of
two, below which doubles lie twice as close as above it.

The other facts say what a rounded fraction cannot do: it does not fall below a power of two
(`power_le_roundUnits`), below `2 ^ 53` it is within half a unit (`roundUnits_of_lt`), and it keeps
the powers of two that divide it (`power_dvd_roundUnits`). Underneath is the natural nearest to a
fraction, the even one where there are two (`roundDiv_even`).
-/

set_option autoImplicit false

namespace WordMachine

/-! ## The nearest natural -/

theorem mul_add_le_of_lt {m n : Nat} (h : m < n) (den : Nat) : m * den + den ≤ n * den := by
  rw [← Nat.succ_mul]
  exact Nat.mul_le_mul_right den h

theorem roundDiv_eq_of_near {num den q : Nat} (hlow : 2 * (q * den) < 2 * num + den)
    (hhigh : 2 * num < 2 * (q * den) + den) : roundDiv num den = q := by
  have hdiv : den * (num / den) + num % den = num := Nat.div_add_mod num den
  unfold roundDiv
  by_cases hle : q * den ≤ num
  · have hquotient : num / den = q :=
      Nat.div_eq_of_lt_le hle (by rw [Nat.add_mul]; omega)
    rw [hquotient, Nat.mul_comm] at hdiv
    rw [hquotient]
    exact if_pos (Or.inl (by omega))
  · -- the fraction lies below `q`, so its whole part is the natural before
    obtain ⟨k, rfl⟩ : ∃ k, q = k + 1 := Nat.exists_eq_succ_of_ne_zero fun h => hle (by simp [h])
    rw [Nat.add_mul] at hlow hhigh hle
    have hquotient : num / den = k :=
      Nat.div_eq_of_lt_le (by omega) (by rw [Nat.add_mul]; omega)
    rw [hquotient, Nat.mul_comm] at hdiv
    rw [hquotient]
    exact if_neg (by omega)

/-- What is rounded differs from the result by a half at most. -/
theorem roundDiv_near (num : Nat) {den : Nat} (h : 0 < den) :
    2 * (roundDiv num den * den) ≤ 2 * num + den ∧
      2 * num ≤ 2 * (roundDiv num den * den) + den := by
  have hdiv : num / den * den + num % den = num := Nat.div_add_mod' num den
  have hmod : num % den < den := Nat.mod_lt num h
  unfold roundDiv
  simp only
  split
  · omega
  · rw [Nat.add_mul]; omega

theorem roundDiv_le {num den n : Nat} (hden : 0 < den) (h : num ≤ n * den) :
    roundDiv num den ≤ n := by
  have hnear := (roundDiv_near num hden).1
  refine Nat.le_of_not_lt fun hlt => ?_
  have hstep := mul_add_le_of_lt hlt den
  omega

section

variable {num den k : Nat} (hden : 0 < den)
include hden

theorem roundDiv_below (hk : roundDiv num den < k) : 2 * num ≤ (roundDiv num den + k) * den := by
  have hnear := (roundDiv_near num hden).2
  have hstep := mul_add_le_of_lt hk den
  rw [Nat.add_mul]
  omega

theorem roundDiv_above (hk : k < roundDiv num den) : (roundDiv num den + k) * den ≤ 2 * num := by
  have hnear := (roundDiv_near num hden).1
  have hstep := mul_add_le_of_lt hk den
  rw [Nat.add_mul]
  omega

/-- What lies in the middle of two naturals is rounded to an even one. -/
theorem roundDiv_even (hk : k ≠ roundDiv num den) (h : 2 * num = (roundDiv num den + k) * den) :
    2 ∣ roundDiv num den := by
  have hdiv : num / den * den + num % den = num := Nat.div_add_mod' num den
  have hmod : num % den < den := Nat.mod_lt num hden
  unfold roundDiv at hk h ⊢
  generalize num / den = q at hdiv hk h ⊢
  generalize num % den = r at hdiv hmod hk h ⊢
  simp only at hk h ⊢
  by_cases hdown : 2 * r < den ∨ (2 * r = den ∧ q % 2 = 0)
  · -- the other one is the natural after, a half away
    rw [if_pos hdown] at hk h ⊢
    rw [Nat.add_mul] at h
    have hlt : q < k := by
      refine Nat.lt_of_not_le fun hle => ?_
      have hstep := mul_add_le_of_lt (Nat.lt_of_le_of_ne hle hk) den
      omega
    have hstep := mul_add_le_of_lt hlt den
    omega
  · -- the other one is the whole part, a half away
    rw [if_neg hdown] at hk h ⊢
    rw [Nat.add_mul, Nat.add_mul, Nat.one_mul] at h
    obtain rfl : k = q := by
      refine Nat.le_antisymm (Nat.le_of_not_lt fun hlt => ?_) (Nat.le_of_not_lt fun hlt => ?_)
      · have hstep := mul_add_le_of_lt (Nat.lt_of_le_of_ne hlt hk.symm) den
        rw [Nat.succ_mul] at hstep
        omega
      · have hstep := mul_add_le_of_lt hlt den
        omega
    omega

end

theorem div_le_roundDiv (num den : Nat) : num / den ≤ roundDiv num den := by
  unfold roundDiv
  simp only
  split <;> omega

theorem roundDiv_mul_left {k : Nat} (h : 0 < k) (num den : Nat) :
    roundDiv (k * num) (k * den) = roundDiv num den := by
  have htwice : 2 * (k * (num % den)) = k * (2 * (num % den)) := Nat.mul_left_comm 2 k _
  unfold roundDiv
  simp only [Nat.mul_div_mul_left num den h, Nat.mul_mod_mul_left, htwice,
    Nat.mul_lt_mul_left h, Nat.mul_right_inj (Nat.ne_of_gt h)]

namespace Binary64

/-! ## Powers of two -/

theorem power_lt_power {a b : Nat} (h : a < b) : power 2 a < power 2 b :=
  Nat.pow_lt_pow_right (by decide) h

theorem power_le_power {a b : Nat} (h : a ≤ b) : power 2 a ≤ power 2 b :=
  Nat.pow_le_pow_right (by decide) h

theorem power_two_pos (a : Nat) : 0 < power 2 a := power_pos (by decide) a

/-- The distance between doubles, by the powers of two around the fraction. -/
theorem spacing_spec {num den : Nat} (h : 0 < den) :
    num < power 2 (53 + spacing num den) * den ∧
      (0 < spacing num den → power 2 (52 + spacing num den) * den ≤ num) := by
  have hhigh : num / den < power 2 ((num / den).log2 + 1) := Nat.lt_log2_self
  refine ⟨?_, fun hpos => ?_⟩
  · refine (Nat.div_lt_iff_lt_mul h).mp (Nat.lt_of_lt_of_le hhigh (power_le_power ?_))
    unfold spacing
    omega
  · have hlog : 52 + spacing num den = (num / den).log2 := by
      unfold spacing at hpos ⊢
      omega
    have hne : num / den ≠ 0 := by
      intro hzero
      rw [spacing, hzero] at hpos
      exact absurd hpos (by decide)
    rw [hlog]
    exact (Nat.le_div_iff_mul_le h).mp (Nat.log2_self_le hne)

theorem power_eq_mul {s t : Nat} (h : s ≤ t) : power 2 t = power 2 (t - s) * power 2 s := by
  rw [← power_add, Nat.sub_add_cancel h]

/-! ## Close fractions -/

/-- The naturals of at most fifty-three significant bits. -/
def Representable (u : Nat) : Prop := ∃ m t, m < 0x20000000000000 ∧ u = m * power 2 t

theorem representable_mul {m : Nat} (t : Nat) (h : m ≤ 0x20000000000000) :
    Representable (m * power 2 t) := by
  rcases Nat.lt_or_eq_of_le h with hlt | rfl
  · exact ⟨m, t, hlt, rfl⟩
  · refine ⟨1, 53 + t, by decide, ?_⟩
    rw [power_add, Nat.one_mul]
    rfl

theorem representable_units (x : Binary64) : Representable x.units := by
  unfold units
  split
  · exact ⟨x.fraction, 0, Nat.lt_trans x.fraction_lt (by decide), by simp⟩
  · exact ⟨0x10000000000000 + x.fraction, x.exponent - 1, by have := x.fraction_lt; omega, rfl⟩

/-- Where doubles lie so far apart, a magnitude is a multiple of the distance. -/
theorem Representable.power_dvd {u s : Nat} (hu : Representable u) (h : power 2 (52 + s) ≤ u) :
    power 2 s ∣ u := by
  obtain ⟨m, t, hm, rfl⟩ := hu
  by_cases ht : s ≤ t
  · rw [power_eq_mul ht, ← Nat.mul_assoc]
    exact Nat.dvd_mul_left _ _
  · -- a last bit worth less would need more than fifty-three bits to get that far
    have hbits : m * power 2 t < power 2 53 * power 2 t :=
      Nat.mul_lt_mul_of_pos_right hm (power_two_pos t)
    rw [← power_add] at hbits
    have := power_le_power (show 53 + t ≤ 52 + s by omega)
    omega

/-- A magnitude is a multiple of the distance between the doubles around a fraction, or it lies
before a power of two that the fraction does not lie before. -/
theorem Representable.multiple_or_lt {v : Nat} (hv : Representable v) (num : Nat) {den : Nat}
    (hden : 0 < den) :
    (∃ k, v = k * power 2 (spacing num den)) ∨
      (v < power 2 (52 + spacing num den) ∧ power 2 (52 + spacing num den) * den ≤ num) := by
  rcases Nat.eq_zero_or_pos (spacing num den) with hzero | hpos
  · refine Or.inl ⟨v, ?_⟩
    rw [hzero, power_zero, Nat.mul_one]
  rcases Nat.lt_or_ge v (power 2 (52 + spacing num den)) with hlt | hge
  · exact Or.inr ⟨hlt, (spacing_spec hden).2 hpos⟩
  · obtain ⟨k, hk⟩ := hv.power_dvd hge
    exact Or.inl ⟨k, by rw [hk, Nat.mul_comm]⟩

theorem units_lt {x : Binary64} (h : x.isFinite = true) : x.units < power 2 2098 := by
  have hexponent : x.exponent ≠ 2047 := by simpa [isFinite] using h
  have hlt := x.exponent_lt
  have hfraction := x.fraction_lt
  unfold units
  split
  · exact Nat.lt_trans hfraction (by decide +kernel)
  · have hbits : 0x10000000000000 + x.fraction < power 2 53 := by
      rw [show power 2 53 = 0x20000000000000 from rfl]
      omega
    calc (0x10000000000000 + x.fraction) * power 2 (x.exponent - 1)
        < power 2 53 * power 2 (x.exponent - 1) :=
          Nat.mul_lt_mul_of_pos_right hbits (power_two_pos _)
      _ = power 2 (53 + (x.exponent - 1)) := (power_add ..).symm
      _ ≤ power 2 2098 := power_le_power (by omega)

/-- A fraction that differs from `u` by less than one part in `2 ^ 54`. -/
structure Near (u num den : Nat) : Prop where
  low : 0x40000000000000 * (u * den) < 0x40000000000000 * num + u * den
  high : 0x40000000000000 * num < 0x40000000000000 * (u * den) + u * den

namespace Near

variable {u num den k : Nat}

theorem den_pos (h : Near u num den) : 0 < den := by
  refine Nat.pos_of_ne_zero fun hzero => ?_
  have hhigh := h.high
  rw [hzero, Nat.mul_zero] at hhigh
  omega

/-- Counted in the last of its bits, `u` is less than a half away. -/
theorem half {m t : Nat} (h : Near (m * power 2 t) num den) (hm : m < 0x20000000000000) :
    2 * (m * (power 2 t * den)) < 2 * num + power 2 t * den ∧
      2 * num < 2 * (m * (power 2 t * den)) + power 2 t * den := by
  obtain ⟨hlow, hhigh⟩ := h
  have hbits : m * (power 2 t * den) ≤ 0x20000000000000 * (power 2 t * den) :=
    Nat.mul_le_mul_right _ (Nat.le_of_lt hm)
  rw [Nat.mul_assoc m] at hlow hhigh
  constructor <;> omega

/-- No power of two separates `u` from a fraction above it. -/
theorem lt_of_lt_power (h : Near u num den) (hu : Representable u) (hk : u < power 2 k) :
    num < power 2 k * den := by
  obtain ⟨m, t, hm, rfl⟩ := hu
  obtain ⟨-, hhigh⟩ := h.half hm
  by_cases ht : t ≤ k
  · rw [power_eq_mul ht] at hk ⊢
    have hsucc : m + 1 ≤ power 2 (k - t) := Nat.lt_of_mul_lt_mul_right hk
    have hroom := Nat.mul_le_mul_right (power 2 t * den) hsucc
    rw [Nat.add_mul] at hroom
    rw [Nat.mul_assoc]
    omega
  · -- the last bit of `u` is worth more than the power, so `u` is zero
    have hzero : m = 0 := by
      refine Nat.eq_zero_of_not_pos fun hpos => ?_
      have := Nat.mul_le_mul_right (power 2 t) hpos
      have := power_lt_power (Nat.lt_of_not_le ht)
      omega
    have := h.high
    simp [hzero] at this

/-- No power of two separates `u` from a fraction below it. -/
theorem le_of_power_lt (h : Near u num den) (hu : Representable u) (hk : power 2 k < u) :
    power 2 k * den ≤ num := by
  obtain ⟨m, t, hm, rfl⟩ := hu
  obtain ⟨hlow, -⟩ := h.half hm
  by_cases ht : t ≤ k
  · rw [power_eq_mul ht] at hk ⊢
    have hsucc : power 2 (k - t) + 1 ≤ m := Nat.lt_of_mul_lt_mul_right hk
    have hroom := Nat.mul_le_mul_right (power 2 t * den) hsucc
    rw [Nat.add_mul] at hroom
    rw [Nat.mul_assoc]
    omega
  · have hm : 1 ≤ m := Nat.pos_of_ne_zero fun hzero => by simp [hzero] at hk
    have hone := Nat.mul_le_mul_right (power 2 t * den) hm
    have htwo : power 2 (k + 1) * den ≤ power 2 t * den :=
      Nat.mul_le_mul_right den (power_le_power (by omega))
    rw [power_succ, Nat.mul_right_comm] at htwo
    omega

/-- The distance between the doubles around the fraction divides `u`. -/
theorem exists_eq_mul_spacing (h : Near u num den) (hu : Representable u) :
    ∃ q, u = q * power 2 (spacing num den) := by
  rcases hu.multiple_or_lt num h.den_pos with hmultiple | ⟨hlt, hge⟩
  · exact hmultiple
  · exact absurd (h.lt_of_lt_power hu hlt) (Nat.not_lt.mpr hge)

end Near

/-- **What is close to a representable magnitude rounds to it.** -/
theorem roundUnits_eq_of_near {u num den : Nat} (hu : Representable u) (h : Near u num den) :
    roundUnits num den = u := by
  obtain ⟨q, hq⟩ := h.exists_eq_mul_spacing hu
  have hle : u ≤ power 2 53 * power 2 (spacing num den) := by
    rw [← power_add]
    refine Nat.le_of_not_lt fun hlt => ?_
    exact absurd (spacing_spec h.den_pos).1 (Nat.not_lt.mpr (h.le_of_power_lt hu hlt))
  have hdistance : u * den ≤ 0x20000000000000 * (den * power 2 (spacing num den)) := by
    rw [Nat.mul_comm den, ← Nat.mul_assoc]
    exact Nat.mul_le_mul_right den hle
  have hsame : q * (den * power 2 (spacing num den)) = u * den := by
    rw [hq, Nat.mul_comm den, Nat.mul_assoc]
  have hnear : roundDiv num (den * power 2 (spacing num den)) = q := by
    obtain ⟨hlow, hhigh⟩ := h
    refine roundDiv_eq_of_near ?_ ?_ <;> rw [hsame] <;> omega
  rw [roundUnits, hnear, hq]

/-- A representable magnitude needs no rounding. -/
theorem roundUnits_self {u : Nat} (hu : Representable u) : roundUnits u 1 = u := by
  rcases Nat.eq_zero_or_pos u with rfl | hpos
  · rfl
  · refine roundUnits_eq_of_near hu ⟨?_, ?_⟩ <;> omega

/-! ## Other fractions -/

theorem roundUnits_mul_left {k : Nat} (h : 0 < k) (num den : Nat) :
    roundUnits (k * num) (k * den) = roundUnits num den := by
  have hspacing : spacing (k * num) (k * den) = spacing num den := by
    rw [spacing, spacing, Nat.mul_div_mul_left num den h]
  rw [roundUnits, roundUnits, hspacing, Nat.mul_assoc, roundDiv_mul_left h]

theorem roundUnits_of_lt {num den : Nat} (h : num < 0x20000000000000 * den) :
    roundUnits num den = roundDiv num den := by
  have hden : 0 < den := by omega
  have hspacing : spacing num den = 0 := by
    refine Nat.eq_zero_of_not_pos fun hpos => ?_
    have hge := (spacing_spec hden).2 hpos
    have hpower : power 2 53 * den ≤ power 2 (52 + spacing num den) * den :=
      Nat.mul_le_mul_right den (power_le_power (by omega))
    exact absurd h (Nat.not_lt.mpr (Nat.le_trans hpower hge))
  rw [roundUnits, hspacing, power_zero, Nat.mul_one, Nat.mul_one]

theorem power_le_roundUnits {num den k : Nat} (hden : 0 < den) (h : power 2 k * den ≤ num) :
    power 2 k ≤ roundUnits num den := by
  have hscale : 0 < den * power 2 (spacing num den) := Nat.mul_pos hden (power_two_pos _)
  -- counted in the distance between doubles, a bound below the fraction is one below the result
  have hbound : ∀ c, c * (den * power 2 (spacing num den)) ≤ num →
      c * power 2 (spacing num den) ≤ roundUnits num den := by
    intro c hc
    refine Nat.mul_le_mul_right _ (Nat.le_trans ?_ (div_le_roundDiv _ _))
    exact (Nat.le_div_iff_mul_le hscale).mpr hc
  by_cases hs : spacing num den ≤ k
  · rw [power_eq_mul hs] at h ⊢
    refine hbound _ ?_
    rw [Nat.mul_comm den, ← Nat.mul_assoc]
    exact h
  · have hone : 1 * power 2 (spacing num den) ≤ roundUnits num den := by
      refine hbound 1 ?_
      have hge : power 2 (52 + spacing num den) * den ≤ num := (spacing_spec hden).2 (by omega)
      have hpower := Nat.mul_le_mul_right den
        (power_le_power (show spacing num den ≤ 52 + spacing num den by omega))
      rw [Nat.one_mul, Nat.mul_comm den]
      omega
    have := power_lt_power (Nat.lt_of_not_le hs)
    omega

theorem power_dvd_roundUnits {num k : Nat} (h : power 2 k ∣ num) :
    power 2 k ∣ roundUnits num 1 := by
  by_cases hs : spacing num 1 ≤ k
  · -- the distance between doubles divides `num`, so nothing is rounded
    obtain ⟨c, rfl⟩ := h
    have hsame : power 2 k * c
        = power 2 (k - spacing (power 2 k * c) 1) * c * power 2 (spacing (power 2 k * c) 1) := by
      rw [Nat.mul_right_comm, ← power_eq_mul hs]
    have hexact : roundUnits (power 2 k * c) 1 = power 2 k * c := by
      have hquotient : roundDiv (power 2 k * c) (1 * power 2 (spacing (power 2 k * c) 1))
          = power 2 (k - spacing (power 2 k * c) 1) * c := by
        have := power_two_pos (spacing (power 2 k * c) 1)
        refine roundDiv_eq_of_near ?_ ?_ <;> rw [Nat.one_mul, ← hsame] <;> omega
      rw [roundUnits, hquotient, ← hsame]
    rw [hexact]
    exact Nat.dvd_mul_right _ c
  · rw [roundUnits, power_eq_mul (Nat.le_of_not_le hs), ← Nat.mul_assoc]
    exact Nat.dvd_mul_left _ _

end Binary64
end WordMachine
