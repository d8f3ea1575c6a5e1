import WordMachine.Binary64.Printer

/-!
# The bytes of a printed number

Whatever form a number is printed in, it is made of digits, signs, points and the letter before an
exponent, unless it is one of the four words for infinities and NaNs (`text_cases`). So a printed
number can stand inside any other text without ending it early: it holds no NUL and no newline, and
`not_mem_text` serves for any other byte that a surrounding text gives a meaning to.
-/

set_option autoImplicit false

namespace WordMachine
namespace Binary64

/-- The bytes that numbers in figures are made of. -/
def isFigure (b : UInt8) : Bool :=
  Text.isDigit b || b == 0x2b || b == 0x2d || b == 0x2e || b == 0x65

/-- A text of nothing but figures. -/
def InFigures (t : Text) : Prop := ∀ b ∈ t, isFigure b = true

theorem InFigures.append {s t : Text} (hs : InFigures s) (ht : InFigures t) :
    InFigures (s ++ t) := by
  intro b hb
  rcases List.mem_append.mp hb with h | h
  · exact hs b h
  · exact ht b h

theorem InFigures.take {t : Text} (h : InFigures t) (n : Nat) : InFigures (t.take n) :=
  fun b hb => h b (List.mem_of_mem_take hb)

theorem InFigures.drop {t : Text} (h : InFigures t) (n : Nat) : InFigures (t.drop n) :=
  fun b hb => h b (List.mem_of_mem_drop hb)

/-- Padding with zeros. -/
theorem InFigures.leftpad {t : Text} (h : InFigures t) (n : Nat) :
    InFigures (List.leftpad n 0x30 t) := by
  refine InFigures.append (fun b hb => ?_) h
  rw [List.eq_of_mem_replicate hb]
  rfl

theorem inFigures_of_all {t : Text} (h : t.all isFigure = true) : InFigures t :=
  List.all_eq_true.mp h

theorem inFigures_ofNat (n : Nat) : InFigures (Text.ofNat n) := by
  intro b hb
  have hdigit := Text.isDigit_of_mem_ofNat n b hb
  simp only [isFigure, hdigit, Bool.true_or]

theorem inFigures_pointed {digits : Text} (h : InFigures digits) (places : Nat) :
    InFigures (pointed digits places) := by
  unfold pointed
  split
  · exact ((h.take _).append (inFigures_of_all rfl)).append (h.drop _)
  · exact (inFigures_of_all rfl).append (h.leftpad places)

theorem inFigures_fixedText (u : Nat) (d : Decimal) : InFigures (fixedText u d) := by
  unfold fixedText
  split
  · exact inFigures_ofNat _
  · exact inFigures_pointed (inFigures_ofNat _) _

theorem inFigures_exponentText (exponent : Int) : InFigures (exponentText exponent) := by
  refine InFigures.append ?_ ((inFigures_ofNat _).leftpad 2)
  split
  · exact inFigures_of_all rfl
  · exact inFigures_of_all rfl

theorem inFigures_scientificText (d : Decimal) : InFigures (scientificText d) := by
  have hdigits := inFigures_ofNat d.digits
  refine ((hdigits.take 1).append ?_).append (inFigures_exponentText _)
  split
  · exact inFigures_of_all rfl
  · exact (inFigures_of_all rfl).append (hdigits.drop 1)

theorem inFigures_magnitudeText (u : Nat) : InFigures (magnitudeText u) := by
  unfold magnitudeText
  simp only
  split
  · exact inFigures_fixedText u _
  · exact inFigures_scientificText _

/-- The texts of numbers that are not finite. -/
def specialTexts : List Text :=
  [Text.ofString "inf", Text.ofString "-inf", Text.ofString "nan", Text.ofString "-nan"]

/-- A number is printed in figures or as one of four words. -/
theorem text_cases (x : Binary64) : InFigures x.text ∨ x.text ∈ specialTexts := by
  have hsign : InFigures (if x.negative then Text.ofString "-" else []) := by
    split
    · exact inFigures_of_all rfl
    · exact inFigures_of_all rfl
  unfold text
  by_cases hnan : x.isNaN = true
  · rw [if_pos hnan]
    refine Or.inr ?_
    cases x.negative with
    | false => exact List.mem_of_elem_eq_true rfl
    | true => exact List.mem_of_elem_eq_true rfl
  · rw [if_neg hnan]
    by_cases hinf : x.isInfinite = true
    · rw [if_pos hinf]
      refine Or.inr ?_
      cases x.negative with
      | false => exact List.mem_of_elem_eq_true rfl
      | true => exact List.mem_of_elem_eq_true rfl
    · rw [if_neg hinf]
      refine Or.inl (hsign.append ?_)
      split
      · exact inFigures_of_all rfl
      · exact inFigures_magnitudeText _

/-- A byte that is no figure and stands in none of the four words is not printed. -/
theorem not_mem_text {b : UInt8} (hfigure : isFigure b = false)
    (hspecial : specialTexts.all (fun t => !t.contains b) = true) (x : Binary64) : b ∉ x.text := by
  intro hb
  rcases x.text_cases with h | h
  · rw [h b hb] at hfigure
    cases hfigure
  · have hnot := List.all_eq_true.mp hspecial _ h
    rw [List.contains_iff_mem.mpr hb] at hnot
    cases hnot

theorem zero_not_mem_text (x : Binary64) : (0 : UInt8) ∉ x.text :=
  not_mem_text (by decide) (by decide) x

theorem newline_not_mem_text (x : Binary64) : (0x0a : UInt8) ∉ x.text :=
  not_mem_text (by decide) (by decide) x

end Binary64
end WordMachine
