import WordMachine.Binary64.Arithmetic
import WordMachine.Proofs.Binary64.Nearest

/-!
# On which side of the middle

The exact result of an operation need not be a whole number of units, and that of a square root is
not even a fraction of them. But all that rounding asks of it is **on which side of the middle** of
two doubles it lies, and such a middle is a whole number of halves. So an exact magnitude is known
by how it compares with halves (`Magnitude`): a fraction by cross-multiplication, a root by squares.
What is nearest to it (`Nearest`) is said without a word about how it is found, and leaves no choice
(`Nearest.unique`).

* *Fractions* (`nearest_roundUnits`). From a certain power of two on, the magnitudes of doubles are
  multiples of the distance between the doubles around a fraction. Among those multiples the nearest
  one is that of the nearest natural, and what lies before that power of two is farther away.
* *Roots* (`nearest_roundSqrt`). A root is computed from the leading bits of the square, with one
  bit for all of the others. The middles of doubles of that size are whole steps, and to those the
  bits that are left out make no difference (`Nearest.congr`).
-/

set_option autoImplicit false

namespace WordMachine
namespace Binary64

/-! ## Exact magnitudes -/

/-- A magnitude that need not be a whole number of units, by the numbers of halves that it does not
exceed and those that it reaches. -/
structure Magnitude where
  AtMost : Nat → Prop
  AtLeast : Nat → Prop
  total : ∀ m, AtMost m ∨ AtLeast m
  separated : ∀ {m n}, m < n → AtLeast n → ¬AtMost m

namespace Magnitude

theorem atLeast_of_lt (a : Magnitude) {m n : Nat} (h : m < n) (hn : a.AtLeast n) :
    a.AtLeast m :=
  (a.total m).resolve_left (a.separated h hn)

/-- As many units as the fraction `num / den`. -/
def fraction (num den : Nat) (h : 0 < den) : Magnitude where
  AtMost m := 2 * num ≤ m * den
  AtLeast m := m * den ≤ 2 * num
  total _ := Nat.le_total _ _
  separated hlt hn hm :=
    absurd (Nat.le_trans hn hm) (Nat.not_le.mpr (Nat.mul_lt_mul_of_pos_right hlt h))

/-- As many units as the square root of `n`. -/
def squareRoot (n : Nat) : Magnitude where
  AtMost m := 4 * n ≤ m * m
  AtLeast m := m * m ≤ 4 * n
  total _ := Nat.le_total _ _
  separated hlt hn hm :=
    absurd (Nat.le_trans hn hm) (Nat.not_le.mpr (Nat.mul_self_lt_mul_self hlt))

variable {num den m n : Nat}

theorem fraction_atMost {h : 0 < den} : (fraction num den h).AtMost m ↔ 2 * num ≤ m * den :=
  Iff.rfl

theorem fraction_atLeast {h : 0 < den} : (fraction num den h).AtLeast m ↔ m * den ≤ 2 * num :=
  Iff.rfl

theorem squareRoot_atMost : (squareRoot n).AtMost m ↔ 4 * n ≤ m * m := Iff.rfl

theorem squareRoot_atLeast : (squareRoot n).AtLeast m ↔ m * m ≤ 4 * n := Iff.rfl

end Magnitude

/-- The magnitudes whose fifty-three bits end in a zero. -/
def EndsEven (u : Nat) : Prop := ∃ m t, m < 0x10000000000000 ∧ u = m * power 2 (t + 1)

theorem endsEven_mul {m : Nat} (t : Nat) (h : m ≤ 0x20000000000000) (heven : 2 ∣ m) :
    EndsEven (m * power 2 t) := by
  obtain ⟨k, rfl⟩ := heven
  rcases Nat.lt_or_eq_of_le (show k ≤ 0x10000000000000 by omega) with hlt | rfl
  · refine ⟨k, t, hlt, ?_⟩
    rw [power_succ, Nat.mul_comm 2 k, Nat.mul_assoc, Nat.mul_comm 2]
  · refine ⟨1, 52 + t, by decide, ?_⟩
    rw [Nat.add_right_comm, power_add, Nat.one_mul]
    rfl

/-- A number ends even if its fraction does. -/
theorem endsEven_units_iff (x : Binary64) : EndsEven x.units ↔ 2 ∣ x.fraction := by
  have hfraction := x.fraction_lt
  unfold units
  constructor
  · rintro ⟨m, t, hm, h⟩
    split at h
    · rw [h, power_succ, ← Nat.mul_assoc]
      exact Nat.dvd_mul_left _ _
    · generalize x.exponent - 1 = e at h
      -- with smaller steps, fifty-two bits would not get as far
      have hsteps : e < t + 1 := by
        refine Nat.lt_of_not_le fun hle => ?_
        rw [power_eq_mul hle, ← Nat.mul_assoc] at h
        have hbits := Nat.eq_of_mul_eq_mul_right (power_two_pos (t + 1)) h
        have := Nat.le_mul_of_pos_right (0x10000000000000 + x.fraction)
          (power_two_pos (e - (t + 1)))
        omega
      rw [power_eq_mul (Nat.le_of_lt hsteps), ← Nat.mul_assoc] at h
      have hbits := Nat.eq_of_mul_eq_mul_right (power_two_pos e) h
      rw [show t + 1 - e = t - e + 1 by omega, power_succ, ← Nat.mul_assoc] at hbits
      omega
  · intro heven
    split
    · have := endsEven_mul 0 (show x.fraction ≤ 0x20000000000000 by omega) heven
      rwa [power_zero, Nat.mul_one] at this
    · exact endsEven_mul _ (by omega) (by omega)

/-- Of the magnitudes of doubles, were there no greatest one, `u` is nearest to an exact magnitude,
and of two that are as near it is the one that ends even. The middle of `u` and `v` is `u + v`
halves. -/
structure Nearest (a : Magnitude) (u : Nat) : Prop where
  representable : Representable u
  below : ∀ {v}, Representable v → u < v → a.AtMost (u + v)
  above : ∀ {v}, Representable v → v < u → a.AtLeast (u + v)
  even : ∀ {v}, Representable v → v ≠ u → a.AtMost (u + v) → a.AtLeast (u + v) → EndsEven u

/-- Between two multiples of a power of two, an odd multiple of the power before. -/
theorem odd_between {m k n : Nat} (t : Nat) (hm : m ≤ k) (hn : k < n) :
    m * power 2 (t + 1) < (2 * k + 1) * power 2 t ∧
      (2 * k + 1) * power 2 t < n * power 2 (t + 1) := by
  have hlow := Nat.mul_le_mul_right (power 2 t) hm
  have hhigh := mul_add_le_of_lt hn (power 2 t)
  have hpos := power_two_pos t
  rw [power_succ, ← Nat.mul_assoc, ← Nat.mul_assoc, Nat.add_mul, Nat.mul_assoc 2, Nat.one_mul]
  omega

/-- Between two magnitudes that end even there is another. -/
theorem EndsEven.exists_between {u v : Nat} (hu : EndsEven u) (hv : EndsEven v) (h : u < v) :
    ∃ w, Representable w ∧ u < w ∧ w < v := by
  obtain ⟨m, t, hm, rfl⟩ := hu
  obtain ⟨n, s, hn, rfl⟩ := hv
  -- one step on from the one that takes the smaller steps
  by_cases hts : t ≤ s
  · rw [power_eq_mul (Nat.succ_le_succ hts), ← Nat.mul_assoc] at h ⊢
    have hlt := Nat.lt_of_mul_lt_mul_right h
    exact ⟨(2 * m + 1) * power 2 t, ⟨2 * m + 1, t, by omega, rfl⟩,
      odd_between t (Nat.le_refl m) hlt⟩
  · rw [power_eq_mul (show s + 1 ≤ t + 1 by omega), ← Nat.mul_assoc] at h ⊢
    have hlt := Nat.lt_of_mul_lt_mul_right h
    exact ⟨(2 * (n - 1) + 1) * power 2 s, ⟨2 * (n - 1) + 1, s, by omega, rfl⟩,
      odd_between s (Nat.le_sub_one_of_lt hlt) (by omega)⟩

namespace Nearest

variable {a : Magnitude} {u v : Nat}

theorem not_lt (hu : Nearest a u) (hv : Nearest a v) : ¬u < v := by
  intro hlt
  have hmost : a.AtMost (u + v) := hu.below hv.representable hlt
  have hleast : a.AtLeast (v + u) := hv.above hu.representable hlt
  have hleast' : a.AtLeast (u + v) := Nat.add_comm v u ▸ hleast
  have hmost' : a.AtMost (v + u) := Nat.add_comm u v ▸ hmost
  have hu_even := hu.even hv.representable (Nat.ne_of_gt hlt) hmost hleast'
  have hv_even := hv.even hu.representable (Nat.ne_of_lt hlt) hmost' hleast
  -- in the middle of the two, something else would be nearer than either
  obtain ⟨w, hw, huw, hwv⟩ := hu_even.exists_between hv_even hlt
  exact a.separated (Nat.add_lt_add_left hwv u) hleast' (hu.below hw huw)

/-- There is no choice of what is nearest. -/
theorem unique (hu : Nearest a u) (hv : Nearest a v) : u = v :=
  Nat.le_antisymm (Nat.le_of_not_lt (hv.not_lt hu)) (Nat.le_of_not_lt (hu.not_lt hv))

/-- Beyond a power of two, the middles are whole steps. Magnitudes that whole steps cannot tell
apart have the same nearest one there. -/
theorem congr {b : Magnitude} {s : Nat} (h : Nearest a u) (hu : power 2 (52 + s) < u)
    (hmost : ∀ {m}, power 2 s ∣ m → (b.AtMost m ↔ a.AtMost m))
    (hleast : ∀ {m}, power 2 s ∣ m → (b.AtLeast m ↔ a.AtLeast m)) : Nearest b u := by
  have hsteps : ∀ {v}, Representable v → power 2 (52 + s) ≤ v → power 2 s ∣ u + v := by
    intro v hv hge
    exact Nat.dvd_add (h.representable.power_dvd (Nat.le_of_lt hu)) (hv.power_dvd hge)
  -- what lies before the power of two is farther away than the power itself
  have hreach : b.AtLeast (u + power 2 (52 + s)) := by
    have hv : Representable (power 2 (52 + s)) := ⟨1, 52 + s, by decide, by rw [Nat.one_mul]⟩
    exact (hleast (hsteps hv (Nat.le_refl _))).mpr (h.above hv hu)
  refine ⟨h.representable, ?_, ?_, ?_⟩
  · intro v hv hlt
    have hge := Nat.le_of_lt (Nat.lt_trans hu hlt)
    exact (hmost (hsteps hv hge)).mpr (h.below hv hlt)
  · intro v hv hlt
    rcases Nat.lt_or_ge v (power 2 (52 + s)) with hbefore | hge
    · exact b.atLeast_of_lt (Nat.add_lt_add_left hbefore u) hreach
    · exact (hleast (hsteps hv hge)).mpr (h.above hv hlt)
  · intro v hv hne hb hb'
    rcases Nat.lt_or_ge v (power 2 (52 + s)) with hbefore | hge
    · exact absurd hb (b.separated (Nat.add_lt_add_left hbefore u) hreach)
    · exact h.even hv hne ((hmost (hsteps hv hge)).mp hb) ((hleast (hsteps hv hge)).mp hb')

end Nearest

/-! ## Fractions -/

/-- The middle of the rounded fraction and another multiple, counted in those multiples. -/
theorem middle_eq (num den k : Nat) :
    (roundUnits num den + k * power 2 (spacing num den)) * den
      = (roundDiv num (den * power 2 (spacing num den)) + k)
        * (den * power 2 (spacing num den)) := by
  rw [roundUnits, ← Nat.add_mul, Nat.mul_assoc, Nat.mul_comm den]

section

variable {num den : Nat} (hden : 0 < den)
include hden

theorem grid_pos : 0 < den * power 2 (spacing num den) := Nat.mul_pos hden (power_two_pos _)

/-- What lies before that power of two is farther from the fraction than what it is rounded to. -/
theorem roundUnits_add_lt {v : Nat} (hv : v < power 2 (52 + spacing num den))
    (hge : power 2 (52 + spacing num den) * den ≤ num) :
    (roundUnits num den + v) * den < 2 * num := by
  have hmiddle : (roundUnits num den + power 2 (52 + spacing num den)) * den ≤ 2 * num := by
    rcases Nat.lt_or_eq_of_le (power_le_roundUnits hden hge) with hlt | heq
    · rw [power_add] at hlt ⊢
      rw [middle_eq]
      exact roundDiv_above (grid_pos hden) (Nat.lt_of_mul_lt_mul_right hlt)
    · rw [← heq, Nat.add_mul]
      omega
  refine Nat.lt_of_lt_of_le (Nat.mul_lt_mul_of_pos_right ?_ hden) hmiddle
  exact Nat.add_lt_add_left hv _

theorem roundDiv_le_bits : roundDiv num (den * power 2 (spacing num den)) ≤ 0x20000000000000 := by
  refine roundDiv_le (grid_pos hden) ?_
  have hlt : num < power 2 (53 + spacing num den) * den := (spacing_spec hden).1
  rw [power_add, Nat.mul_assoc, Nat.mul_comm _ den] at hlt
  exact Nat.le_of_lt hlt

end

/-- **Fractions are rounded to the nearest magnitude.** -/
theorem nearest_roundUnits (num : Nat) {den : Nat} (hden : 0 < den) :
    Nearest (.fraction num den hden) (roundUnits num den) := by
  have hgrid : 0 < den * power 2 (spacing num den) := grid_pos hden
  refine ⟨representable_mul _ (roundDiv_le_bits hden), ?_, ?_, ?_⟩
  · intro v hv hlt
    rw [Magnitude.fraction_atMost]
    rcases hv.multiple_or_lt num hden with ⟨k, rfl⟩ | ⟨hsmall, hge⟩
    · rw [middle_eq]
      exact roundDiv_below hgrid (Nat.lt_of_mul_lt_mul_right hlt)
    · exact absurd (Nat.lt_trans hlt hsmall) (Nat.not_lt.mpr (power_le_roundUnits hden hge))
  · intro v hv hlt
    rw [Magnitude.fraction_atLeast]
    rcases hv.multiple_or_lt num hden with ⟨k, rfl⟩ | ⟨hsmall, hge⟩
    · rw [middle_eq]
      exact roundDiv_above hgrid (Nat.lt_of_mul_lt_mul_right hlt)
    · exact Nat.le_of_lt (roundUnits_add_lt hden hsmall hge)
  · intro v hv hne hmost hleast
    have htie : 2 * num = (roundUnits num den + v) * den := Nat.le_antisymm hmost hleast
    rcases hv.multiple_or_lt num hden with ⟨k, rfl⟩ | ⟨hsmall, hge⟩
    · rw [middle_eq] at htie
      refine endsEven_mul _ (roundDiv_le_bits hden) (roundDiv_even hgrid ?_ htie)
      rintro rfl
      exact hne rfl
    · exact absurd htie (Nat.ne_of_gt (roundUnits_add_lt hden hsmall hge))

/-! ## Square roots -/

theorem le_log2_of_power_le {n k : Nat} (h : power 2 k ≤ n) : n ≠ 0 ∧ k ≤ n.log2 := by
  have hne : n ≠ 0 := Nat.ne_of_gt (Nat.lt_of_lt_of_le (power_two_pos k) h)
  exact ⟨hne, (Nat.le_log2 hne).mpr h⟩

theorem power_four (s : Nat) : power 4 s = power 2 s * power 2 s := Nat.mul_pow 2 2 s

/-- The leading bits of a root: `root` counts them in steps of `2 ^ half` units, and they are more
than a double has. -/
structure Leading (n root half : Nat) : Prop where
  low : root * root * power 4 half ≤ n
  high : n < (root + 1) * (root + 1) * power 4 half
  bits : power 2 60 ≤ root

/-- One bit after the leading ones, for whether anything is left. -/
def sticky (n root half : Nat) : Nat := if root * root * power 4 half = n then 0 else 1

/-- What is rounded in place of the root, in halves. -/
def halves (n root half : Nat) : Nat := (2 * root + sticky n root half) * power 2 half

theorem roundSqrt_eq {n : Nat} (h : power 2 120 ≤ n) :
    ∃ root half, Leading n root half ∧ roundSqrt n = roundUnits (halves n root half) 2 := by
  refine ⟨floorSqrt (n / power 4 (n.log2 / 2 - 60)), n.log2 / 2 - 60, ?_, rfl⟩
  obtain ⟨hne, hlog⟩ := le_log2_of_power_le h
  have hbits : power 2 120 * power 4 (n.log2 / 2 - 60) ≤ n := by
    rw [power_four, ← power_add, ← power_add]
    exact Nat.le_trans (power_le_power (by omega)) (Nat.log2_self_le hne)
  generalize n.log2 / 2 - 60 = half at hbits ⊢
  have hpos : 0 < power 4 half := power_pos (by decide) half
  obtain ⟨hle, hlt⟩ := floorSqrt_spec (n / power 4 half)
  generalize floorSqrt (n / power 4 half) = root at hle hlt ⊢
  refine ⟨(Nat.le_div_iff_mul_le hpos).mp hle, (Nat.div_lt_iff_lt_mul hpos).mp hlt, ?_⟩
  have hsquare : power 2 60 * power 2 60 < (root + 1) * (root + 1) := by
    rw [← power_add]
    exact Nat.lt_of_le_of_lt ((Nat.le_div_iff_mul_le hpos).mpr hbits) hlt
  exact Nat.le_of_lt_succ (Nat.mul_self_lt_mul_self_iff.mp hsquare)

theorem square_steps (half k : Nat) :
    power 2 (half + 1) * k * (power 2 (half + 1) * k) = 4 * (k * k * power 4 half) := by
  rw [power_four, power_succ]
  grind

theorem middle_steps (half k : Nat) : power 2 (half + 1) * k * 2 = 2 * (2 * k * power 2 half) := by
  rw [power_succ]
  grind

namespace Leading

variable {n root half : Nat} (h : Leading n root half)
include h

theorem le_square_iff (k : Nat) :
    n ≤ k * k * power 4 half ↔ 2 * root + sticky n root half ≤ 2 * k := by
  have hpos : 0 < power 4 half := power_pos (by decide) half
  obtain ⟨hlow, hhigh, -⟩ := h
  unfold sticky
  by_cases hexact : root * root * power 4 half = n
  · rw [if_pos hexact, ← hexact, Nat.mul_le_mul_right_iff hpos, Nat.mul_self_le_mul_self_iff]
    omega
  · rw [if_neg hexact]
    constructor
    · intro hle
      have hlt : root * root * power 4 half < k * k * power 4 half := by omega
      have := Nat.mul_self_lt_mul_self_iff.mp (Nat.lt_of_mul_lt_mul_right hlt)
      omega
    · intro hle
      have := Nat.mul_le_mul_right (power 4 half)
        (Nat.mul_self_le_mul_self (show root + 1 ≤ k by omega))
      omega

theorem square_le_iff (k : Nat) :
    k * k * power 4 half ≤ n ↔ 2 * k ≤ 2 * root + sticky n root half := by
  obtain ⟨hlow, hhigh, -⟩ := h
  have hsticky : sticky n root half ≤ 1 := by
    unfold sticky
    split <;> decide
  constructor
  · intro hle
    have hlt := Nat.lt_of_mul_lt_mul_right (Nat.lt_of_le_of_lt hle hhigh)
    have := Nat.mul_self_lt_mul_self_iff.mp hlt
    omega
  · intro hle
    have := Nat.mul_le_mul_right (power 4 half)
      (Nat.mul_self_le_mul_self (show k ≤ root by omega))
    omega

/-- Whole steps cannot tell what is rounded from the root. -/
theorem atMost_iff {m : Nat} (hm : power 2 (half + 1) ∣ m) :
    (Magnitude.squareRoot n).AtMost m ↔
      (Magnitude.fraction (halves n root half) 2 Nat.two_pos).AtMost m := by
  obtain ⟨k, rfl⟩ := hm
  rw [Magnitude.squareRoot_atMost, square_steps, Nat.mul_le_mul_left_iff (by decide),
    h.le_square_iff]
  rw [Magnitude.fraction_atMost, middle_steps, halves, Nat.mul_le_mul_left_iff (by decide),
    Nat.mul_le_mul_right_iff (power_two_pos half)]

theorem atLeast_iff {m : Nat} (hm : power 2 (half + 1) ∣ m) :
    (Magnitude.squareRoot n).AtLeast m ↔
      (Magnitude.fraction (halves n root half) 2 Nat.two_pos).AtLeast m := by
  obtain ⟨k, rfl⟩ := hm
  rw [Magnitude.squareRoot_atLeast, square_steps, Nat.mul_le_mul_left_iff (by decide),
    h.square_le_iff]
  rw [Magnitude.fraction_atLeast, middle_steps, halves, Nat.mul_le_mul_left_iff (by decide),
    Nat.mul_le_mul_right_iff (power_two_pos half)]

theorem power_le_rounded : power 2 (60 + half) ≤ roundUnits (halves n root half) 2 := by
  refine power_le_roundUnits Nat.two_pos ?_
  have hbits : power 2 60 * 2 ≤ 2 * root + sticky n root half := by
    have := h.bits
    omega
  rw [power_add, Nat.mul_right_comm]
  exact Nat.mul_le_mul_right _ hbits

end Leading

/-- **Roots are rounded to the nearest magnitude**, for all squares of enough bits. -/
theorem nearest_roundSqrt {n : Nat} (h : power 2 120 ≤ n) :
    Nearest (.squareRoot n) (roundSqrt n) := by
  obtain ⟨root, half, hleading, heq⟩ := roundSqrt_eq h
  have hsize : power 2 (52 + (half + 1)) < roundUnits (halves n root half) 2 :=
    Nat.lt_of_lt_of_le (power_lt_power (by omega)) hleading.power_le_rounded
  rw [heq]
  exact (nearest_roundUnits _ Nat.two_pos).congr hsize hleading.atMost_iff hleading.atLeast_iff

end Binary64
end WordMachine
