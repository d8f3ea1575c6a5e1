import WordMachine.Proofs.Binary64.Numerals
import WordMachine.Proofs.Binary64.Shortest
import WordMachine.Value

/-!
# Printed numbers are short

**No number takes more than twenty-four bytes**, so that the buffer it is written into is never too
small, and the question mark that stands for a longer text is never seen (`bufferedText_eq`).

In fixed form the greatest numbers would need more than three hundred digits, and the least ones as
many places. But that form is taken only if it is not longer than the scientific one, which is short
for every number: it has a sign, a point, seventeen digits at most (`length_digits_shortest`) and an
exponent of at most three (`exponent_shortest`). On a grid of seventeen digits rounding can go up to
a number of eighteen, but only to a power of ten, and that is a single digit once its zeros are cut
off (`Decimal.digits_trim_lt`).
-/

set_option autoImplicit false

namespace WordMachine

/-! ## Digits of naturals -/

theorem lt_of_power_lt {a b : Nat} (h : power 10 a < power 10 b) : a < b :=
  (Nat.pow_lt_pow_iff_right (by decide)).mp h

namespace Text

theorem length_ofNat_pos (n : Nat) : 0 < (ofNat n).length :=
  List.length_pos_iff.mpr (ofNat_ne_nil n)

theorem length_ofNat_of_le {n : Nat} (h : 10 ≤ n) :
    (ofNat n).length = (ofNat (n / 10)).length + 1 := by
  rw [ofNat, if_neg (Nat.not_lt.mpr h), List.length_append, List.length_singleton]

theorem length_ofNat_le {n count : Nat} (hcount : 0 < count) (h : n < power 10 count) :
    (ofNat n).length ≤ count := by
  induction count generalizing n with
  | zero => exact absurd hcount (Nat.lt_irrefl 0)
  | succ count ih =>
    rcases Nat.lt_or_ge n 10 with hsmall | hlarge
    · rw [ofNat, if_pos hsmall]
      exact Nat.succ_le_succ (Nat.zero_le count)
    · rw [power_succ] at h
      have hrest : n / 10 < power 10 count := Nat.div_lt_of_lt_mul (by rw [Nat.mul_comm]; exact h)
      have hcount' : 0 < count := by
        refine Nat.pos_of_ne_zero ?_
        rintro rfl
        rw [power_zero] at hrest
        omega
      rw [length_ofNat_of_le hlarge]
      exact Nat.succ_le_succ (ih hcount' hrest)

end Text

/-! ## Trailing zeros -/

namespace Decimal

/-- Digits up to a power of ten are below it once the trailing zeros are cut off. -/
theorem digits_trim_lt {d : Decimal} {count : Nat} (hcount : 0 < count)
    (h : d.digits ≤ power 10 count) : d.trim.digits < power 10 count := by
  fun_induction trim d with
  | case1 d hzero ih => exact ih (Nat.le_trans (Nat.div_le_self _ _) h)
  | case2 d hstop =>
    -- a power of ten ends in a zero, so it would not have been left as it is
    refine Nat.lt_of_le_of_ne h fun heq => hstop ?_
    obtain ⟨n, rfl⟩ : ∃ n, count = n + 1 := ⟨count - 1, by omega⟩
    rw [heq, power_succ]
    have hpos := power_pos (show 0 < 10 by decide) n
    exact ⟨by omega, Nat.mul_mod_left _ _⟩

/-- The first digit stays where it is. -/
theorem exponent_trim (d : Decimal) :
    d.trim.exponent + (Text.ofNat d.trim.digits).length
      = d.exponent + (Text.ofNat d.digits).length := by
  fun_induction trim d with
  | case1 d hzero ih =>
    have hlength := Text.length_ofNat_of_le (n := d.digits) (by omega)
    rw [ih, hlength]
    simp only
    omega
  | case2 d hstop => rfl

end Decimal

namespace Binary64

variable {u : Nat}

/-! ## Digits and exponents -/

/-- On the grid of so many digits, `u` is less than the power of ten with one digit more. -/
theorem grid_lt (h : 0 < u) (count : Nat) :
    gridNum u (decimalExponent u - count)
      < power 10 count * gridDen (decimalExponent u - count) := by
  obtain ⟨whole, -, hexponent, -, hlt⟩ := decimalExponent_spec h
  rw [hexponent, gridDen, gridNum]
  generalize hp : ((whole : Int) - 324 - count).toNat = p
  generalize hn : (-((whole : Int) - 324 - count)).toNat = n
  have hbalance : whole + n = 324 + count + p := by omega
  refine Nat.lt_of_mul_lt_mul_left (a := power 10 324) ?_
  calc power 10 324 * (u * power 10 n)
      = u * power 10 324 * power 10 n := by rw [← Nat.mul_assoc, Nat.mul_comm u]
    _ < power 10 whole * unitsPerOne * power 10 n :=
        Nat.mul_lt_mul_of_pos_right hlt (power_pos (by decide) n)
    _ = power 10 (324 + count + p) * unitsPerOne := by
        rw [Nat.mul_right_comm, ← power_add, hbalance]
    _ = power 10 324 * (power 10 count * (unitsPerOne * power 10 p)) := by
        rw [power_add, power_add, Nat.mul_comm unitsPerOne, Nat.mul_assoc, Nat.mul_assoc]

theorem digits_nearNeighbour_le (h : 0 < u) (count : Nat) :
    (nearNeighbour u (decimalExponent u - count)).digits ≤ power 10 count := by
  rw [digits_nearNeighbour]
  exact roundDiv_le (gridDen_pos _) (Nat.le_of_lt (grid_lt h count))

theorem digits_farNeighbour_le (h : 0 < u) (count : Nat) :
    (farNeighbour u (decimalExponent u - count)).digits ≤ power 10 count := by
  have hnear := digits_nearNeighbour_le h count
  have hlt := grid_lt h count
  rw [farNeighbour]
  generalize (nearNeighbour u (decimalExponent u - count)).digits = near at hnear ⊢
  generalize gridNum u (decimalExponent u - count) = num at hlt ⊢
  generalize gridDen (decimalExponent u - count) = den at hlt ⊢
  by_cases hle : near * den ≤ num
  · rw [if_pos hle]
    exact Nat.lt_of_mul_lt_mul_right (Nat.lt_of_le_of_lt hle hlt)
  · rw [if_neg hle]
    exact Nat.le_trans (Nat.sub_le near 1) hnear

/-- The shortest decimal comes from the grid of one of the counts up to seventeen, and has that many
digits, or is the next power of ten. -/
theorem shortest_of_grid (h : 0 < u) :
    ∃ (d : Decimal) (count : Nat), 0 < count ∧ count ≤ 17 ∧ shortest u = d.trim ∧
      d.exponent = decimalExponent u - count ∧ d.digits ≤ power 10 count := by
  cases hhit : hit? u (decimalExponent u) with
  | some d =>
    obtain ⟨count, hmem, hcount⟩ := List.exists_of_findSome?_eq_some hhit
    have hrange := List.mem_range'_1.mp hmem
    refine ⟨d, count, by omega, by omega, ?_, exponent_of_neighbourFor? hcount, ?_⟩
    · rw [shortest, hhit, Option.getD_some]
    · rcases List.mem_cons.mp (List.mem_of_find?_eq_some hcount) with rfl | hfar
      · exact digits_nearNeighbour_le h count
      · rw [List.mem_singleton.mp hfar]
        exact digits_farNeighbour_le h count
  | none =>
    refine ⟨nearNeighbour u (decimalExponent u - (17 : Nat)), 17, by decide, by decide, ?_,
      exponent_nearNeighbour _ _, digits_nearNeighbour_le h 17⟩
    rw [shortest, hhit, Option.getD_none]
    rfl

theorem length_digits_shortest (h : 0 < u) : (Text.ofNat (shortest u).digits).length ≤ 17 := by
  obtain ⟨d, count, hpos, hcount, hshortest, -, hdigits⟩ := shortest_of_grid h
  rw [hshortest]
  exact Nat.le_trans (Text.length_ofNat_le hpos (Decimal.digits_trim_lt hpos hdigits)) hcount

/-- Finite magnitudes lie below `10 ^ 309`. -/
theorem decimalExponent_le (h : 0 < u) (hu : u < power 2 2098) : decimalExponent u ≤ 309 := by
  obtain ⟨count, -, hexponent, hle, -⟩ := decimalExponent_spec h
  have hfinite : power 2 2098 * power 10 324 ≤ power 10 633 * unitsPerOne := by decide +kernel
  have hlt : power 10 (count - 1) * unitsPerOne < power 10 633 * unitsPerOne :=
    Nat.lt_of_le_of_lt hle (Nat.lt_of_lt_of_le
      (Nat.mul_lt_mul_of_pos_right hu (power_pos (by decide) 324)) hfinite)
  have hcount : count - 1 < 633 := lt_of_power_lt (Nat.lt_of_mul_lt_mul_right hlt)
  omega

/-- The power of ten of the first digit. -/
theorem exponent_shortest (h : 0 < u) (hu : u < power 2 2098) :
    -340 ≤ (shortest u).exponent + (Text.ofNat (shortest u).digits).length - 1 ∧
      (shortest u).exponent + (Text.ofNat (shortest u).digits).length - 1 ≤ 309 := by
  obtain ⟨d, count, hpos, hcount, hshortest, hexponent, hdigits⟩ := shortest_of_grid h
  have hten : power 10 count < power 10 (count + 1) := by
    have := power_pos (show 0 < 10 by decide) count
    rw [power_succ]
    omega
  have hlength := Text.length_ofNat_le (Nat.succ_pos count) (Nat.lt_of_le_of_lt hdigits hten)
  have hlength' := Text.length_ofNat_pos d.digits
  have hhigh := decimalExponent_le h hu
  obtain ⟨whole, hwhole, hlow, -⟩ := decimalExponent_spec h
  -- zeros that are cut off count for the exponent, so the first digit can be found before that
  rw [hshortest, d.exponent_trim]
  omega

/-! ## Lengths -/

theorem length_exponentText_le {exponent : Int} (h : exponent.natAbs < 1000) :
    (exponentText exponent).length ≤ 5 := by
  have hdigits : (Text.ofNat exponent.natAbs).length ≤ 3 := Text.length_ofNat_le (by decide) h
  rw [exponentText_eq, List.length_cons, List.length_cons, List.length_leftpad]
  omega

theorem length_scientificText_le {d : Decimal} {count : Nat}
    (hdigits : (Text.ofNat d.digits).length ≤ count)
    (hexponent : (d.exponent + (Text.ofNat d.digits).length - 1).natAbs < 1000) :
    (scientificText d).length ≤ count + 6 := by
  have hpos := Text.length_ofNat_pos d.digits
  have hlast : (exponentText (d.exponent + ((Text.ofNat d.digits).drop 1).length)).length ≤ 5 := by
    refine length_exponentText_le ?_
    rw [List.length_drop]
    omega
  -- the point stands only before other digits, so it takes no more than the first digit leaves
  have hpoint : (if ((Text.ofNat d.digits).drop 1).isEmpty then []
      else Text.ofString "." ++ (Text.ofNat d.digits).drop 1).length
        ≤ (Text.ofNat d.digits).length := by
    split
    · exact Nat.zero_le _
    · rw [List.length_append, List.length_drop, show (Text.ofString ".").length = 1 from rfl]
      omega
  rw [scientificText, List.length_append, List.length_append, List.length_take]
  omega

/-- A magnitude takes no more bytes than its scientific form, which is taken if it is shorter. -/
theorem length_magnitudeText_le (h : 0 < u) (hu : u < power 2 2098) :
    (magnitudeText u).length ≤ 23 := by
  have hexponent := exponent_shortest h hu
  have hscientific : (scientificText (shortest u)).length ≤ 17 + 6 :=
    length_scientificText_le (length_digits_shortest h) (by omega)
  rw [magnitudeText]
  generalize shortest u = d at hscientific ⊢
  by_cases hle : (fixedText u d).length ≤ (scientificText d).length
  · rw [if_pos hle]
    exact Nat.le_trans hle hscientific
  · rw [if_neg hle]
    exact hscientific

theorem magnitudeText_ne_nil (u : Nat) : magnitudeText u ≠ [] := by
  have hstarts : ∃ b rest, magnitudeText u = b :: rest ∧ Text.isDigit b = true := by
    rcases magnitudeText_cases u with h | ⟨-, h⟩
    · exact h.starts
    · exact h.starts
  obtain ⟨b, rest, hcons, -⟩ := hstarts
  rw [hcons]
  exact List.cons_ne_nil b rest

theorem text_of_units_pos {x : Binary64} (hfinite : x.isFinite = true) (hpos : 0 < x.units) :
    x.text = (if x.negative then Text.ofString "-" else []) ++ magnitudeText x.units := by
  have hzero : ¬x.isZero = true := fun h => Nat.ne_of_gt hpos (x.isZero_iff_units.mp h)
  obtain ⟨hnan, hinfinite⟩ := special_of_isFinite hfinite
  rw [text, hnan, hinfinite, if_neg Bool.false_ne_true, if_neg Bool.false_ne_true, if_neg hzero]

/-- What stands behind the sign of a number is short. -/
theorem text_eq_sign_append (x : Binary64) :
    ∃ t, x.text = (if x.negative then Text.ofString "-" else []) ++ t ∧ t ≠ [] ∧ t.length ≤ 23 := by
  by_cases hnan : x.isNaN = true
  · exact ⟨Text.ofString "nan", by rw [text, if_pos hnan], by decide, by decide⟩
  by_cases hinfinite : x.isInfinite = true
  · exact ⟨Text.ofString "inf", by rw [text, if_neg hnan, if_pos hinfinite], by decide, by decide⟩
  have hfinite : x.isFinite = true := by simp [isFinite_eq, hnan, hinfinite]
  by_cases hzero : x.isZero = true
  · refine ⟨Text.ofString "0", ?_, by decide, by decide⟩
    rw [text, if_neg hnan, if_neg hinfinite, if_pos hzero]
  · have hpos : 0 < x.units := Nat.pos_of_ne_zero fun h => hzero (x.isZero_iff_units.mpr h)
    exact ⟨magnitudeText x.units, text_of_units_pos hfinite hpos, magnitudeText_ne_nil _,
      length_magnitudeText_le hpos (units_lt hfinite)⟩

theorem length_text (x : Binary64) : 1 ≤ x.text.length ∧ x.text.length ≤ 24 := by
  obtain ⟨t, htext, hne, hlength⟩ := x.text_eq_sign_append
  have hpos := List.length_pos_iff.mpr hne
  have hsign : (if x.negative then Text.ofString "-" else []).length ≤ 1 := by
    split
    · exact Nat.le_refl 1
    · exact Nat.zero_le 1
  rw [htext, List.length_append]
  omega

/-- There is room for every number, so none is written as a question mark. -/
theorem bufferedText_eq (x : Binary64) : x.bufferedText = x.text := by
  have hroom : x.text.length ≤ bufferSize := Nat.le_trans x.length_text.2 (by decide)
  rw [bufferedText, if_pos hroom]

end Binary64

theorem Value.payloadText_number (x : Binary64) : (Value.number x).payloadText = x.text :=
  x.bufferedText_eq

namespace Binary64

/-- **Every number fits into its buffer**, from every pattern of bits: one to twenty-four bytes are
written, and they are the text of the number, never a question mark. That text is in figures or one
of the four words for infinities and NaNs, so that nothing in it can end the text around it: no NUL,
no newline, no comma and no closing parenthesis. -/
theorem bufferedText_fits (bits : UInt64) :
    1 ≤ (ofBits bits).bufferedText.length ∧ (ofBits bits).bufferedText.length ≤ 24 ∧
    (ofBits bits).text.length ≤ bufferSize ∧
    (ofBits bits).bufferedText = (ofBits bits).text ∧
    (ofBits bits).bufferedText ≠ Text.ofString "?" ∧
    (Value.number (ofBits bits)).payloadText = (ofBits bits).text ∧
    (InFigures (ofBits bits).bufferedText ∨ (ofBits bits).bufferedText ∈ specialTexts) ∧
    0x00 ∉ (ofBits bits).bufferedText ∧ 0x0a ∉ (ofBits bits).bufferedText ∧
    0x2c ∉ (ofBits bits).bufferedText ∧ 0x29 ∉ (ofBits bits).bufferedText := by
  obtain ⟨hlow, hhigh⟩ := (ofBits bits).length_text
  have hmark : (ofBits bits).text ≠ Text.ofString "?" := by
    intro h
    have hnot : 0x3f ∉ (ofBits bits).text := not_mem_text (by decide) (by decide) _
    rw [h] at hnot
    exact hnot List.mem_cons_self
  rw [bufferedText_eq]
  exact ⟨hlow, hhigh, Nat.le_trans hhigh (by decide), rfl, hmark, Value.payloadText_number _,
    text_cases _, zero_not_mem_text _, newline_not_mem_text _,
    not_mem_text (by decide) (by decide) _, not_mem_text (by decide) (by decide) _⟩

/-- The negative of the least normal number takes all of the twenty-four bytes. -/
example : (ofBits 0x8010000000000000).bufferedText.length = 24 := by decide +kernel

end Binary64
end WordMachine
