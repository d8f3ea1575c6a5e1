import Mathlib.Data.List.TakeWhile
import WordMachine.CommandLine.Options

/-!
# The grammar of counts

A whole number is written as white space, an optional sign and decimal digits, as many as one likes
(`Denotes`). A count is a whole number with nothing left over that is not negative; a minus sign is
fine before zeros. `Counts t n` gives that form, with `n` the number denoted as far as it fits, and
`readCount?_eq_some_iff` says that counts are read from exactly the texts of this form.

Reading goes through a machine word, where numbers that do not fit end up at the ends of its range.
**The ends have the signs of the numbers that end up there** (`ofIntClamp_lt_zero_iff`), so a
negative number is refused however large it is.
-/

set_option autoImplicit false

namespace WordMachine
namespace Options

/-- The greatest count; any greater one means the same. -/
def maxCount : Nat := 0x7fffffffffffffff

/-- An optional sign, and whether it is a minus. -/
inductive Sign : Text → Bool → Prop
  | none : Sign [] false
  | plus : Sign [0x2b] false
  | minus : Sign [0x2d] true

/-- The texts that are whole numbers, with the numbers they denote. -/
inductive Denotes : Text → Int → Prop
  | written {blanks sign digits : Text} {negative : Bool} :
      (∀ b ∈ blanks, Text.isBlank b = true) → Sign sign negative → digits ≠ [] →
      (∀ b ∈ digits, Text.isDigit b = true) →
      Denotes (blanks ++ sign ++ digits)
        (if negative then -(Text.toNat digits : Int) else Text.toNat digits)

/-- The texts that are counts, with what they count to. -/
inductive Counts : Text → Nat → Prop
  | written {blanks sign digits : Text} {negative : Bool} :
      (∀ b ∈ blanks, Text.isBlank b = true) → Sign sign negative → digits ≠ [] →
      (∀ b ∈ digits, Text.isDigit b = true) → (negative = true → Text.toNat digits = 0) →
      Counts (blanks ++ sign ++ digits) (min (Text.toNat digits) maxCount)

/-! ## Cutting a text into its parts -/

theorem sign_of_takeSign {t digits : Text} {negative : Bool}
    (h : Text.takeSign t = (negative, digits)) :
    ∃ sign, Sign sign negative ∧ t = sign ++ digits := by
  cases t with
  | nil => cases h; exact ⟨[], .none, rfl⟩
  | cons b rest =>
    rw [Text.takeSign] at h
    by_cases hminus : b = 0x2d
    · rw [if_pos hminus] at h
      cases h
      exact ⟨[0x2d], .minus, by rw [hminus]; rfl⟩
    · rw [if_neg hminus] at h
      by_cases hplus : b = 0x2b
      · rw [if_pos hplus] at h
        cases h
        exact ⟨[0x2b], .plus, by rw [hplus]; rfl⟩
      · rw [if_neg hplus] at h
        cases h
        exact ⟨[], .none, rfl⟩

theorem takeSign_append {sign digits : Text} {negative : Bool} (hs : Sign sign negative)
    (hne : digits ≠ []) (hd : ∀ b ∈ digits, Text.isDigit b = true) :
    Text.takeSign (sign ++ digits) = (negative, digits) := by
  cases hs with
  | none =>
    cases digits with
    | nil => exact absurd rfl hne
    | cons b rest =>
      obtain ⟨hminus, hplus, -⟩ := Text.not_blank_of_isDigit (hd b List.mem_cons_self)
      rw [List.nil_append, Text.takeSign, if_neg hminus, if_neg hplus]
  | plus => rfl
  | minus => rfl

theorem dropWhile_blanks {blanks sign digits : Text} {negative : Bool}
    (hb : ∀ b ∈ blanks, Text.isBlank b = true) (hs : Sign sign negative) (hne : digits ≠ [])
    (hd : ∀ b ∈ digits, Text.isDigit b = true) :
    (blanks ++ sign ++ digits).dropWhile Text.isBlank = sign ++ digits := by
  rw [List.append_assoc, List.dropWhile_append_of_pos hb]
  cases hs with
  | none =>
    cases digits with
    | nil => exact absurd rfl hne
    | cons b rest =>
      obtain ⟨-, -, hblank⟩ := Text.not_blank_of_isDigit (hd b List.mem_cons_self)
      exact List.dropWhile_cons_of_neg (by rw [hblank]; decide)
  | plus => rfl
  | minus => rfl

/-! ## Machine words -/

theorem ofIntClamp_lt_zero_iff {z : Int} : Int64.ofIntClamp z < 0 ↔ z < 0 := by
  rw [Int64.lt_iff_toInt_lt, Int64.toInt_zero]
  by_cases hlow : Int64.minValue.toInt ≤ z
  · by_cases hhigh : z ≤ Int64.maxValue.toInt
    · rw [Int64.toInt_ofIntClamp hlow hhigh]
    · rw [Int64.ofIntClamp, dif_pos hlow, dif_neg hhigh]
      rw [Int64.toInt_maxValue] at hhigh ⊢
      omega
  · rw [Int64.ofIntClamp, dif_neg hlow]
    rw [Int64.toInt_minValue] at hlow ⊢
    omega

theorem toNat_ofIntClamp {z : Int} (h : 0 ≤ z) :
    (Int64.ofIntClamp z).toUInt64.toNat = min z.toNat maxCount := by
  have hword : 0 ≤ Int64.ofIntClamp z := by
    rw [← Int64.not_lt, ofIntClamp_lt_zero_iff]
    omega
  have hlow : Int64.minValue.toInt ≤ z := by
    rw [Int64.toInt_minValue]
    omega
  rw [Int64.toNat_toUInt64_of_le hword, Int64.toNatClampNeg, maxCount]
  by_cases hhigh : z ≤ Int64.maxValue.toInt
  · rw [Int64.toInt_ofIntClamp hlow hhigh, Nat.min_eq_left]
    rw [Int64.toInt_maxValue] at hhigh
    omega
  · rw [Int64.ofIntClamp, dif_pos hlow, dif_neg hhigh, Nat.min_eq_right]
    · rfl
    · rw [Int64.toInt_maxValue] at hhigh
      omega

/-! ## Reading -/

/-- A whole number is read to the end of exactly the texts that are one. -/
theorem readWord?_eq_some_iff {t : Text} {w : Int64} :
    readWord? t = some (w, []) ↔ ∃ z, Denotes t z ∧ w = .ofIntClamp z := by
  constructor
  · intro h
    rcases hts : Text.takeSign (t.dropWhile Text.isBlank) with ⟨negative, digits⟩
    simp only [readWord?, hts] at h
    by_cases hnone : digits.takeWhile Text.isDigit = []
    · rw [if_pos hnone] at h
      cases h
    · rw [if_neg hnone, Option.some.injEq, Prod.mk.injEq] at h
      obtain ⟨hw, hrest⟩ := h
      have hall : ∀ b ∈ digits, Text.isDigit b = true := List.dropWhile_eq_nil_iff.mp hrest
      have htake : digits.takeWhile Text.isDigit = digits := List.takeWhile_eq_self_iff.mpr hall
      rw [htake] at hnone hw
      -- put the text together again from what was cut off it
      obtain ⟨sign, hs, hsplit⟩ := sign_of_takeSign hts
      have ht : t = t.takeWhile Text.isBlank ++ sign ++ digits := by
        rw [List.append_assoc, ← hsplit, List.takeWhile_append_dropWhile]
      rw [ht]
      exact ⟨_, .written (List.all_eq_true.mp List.all_takeWhile) hs hnone hall, hw.symm⟩
  · rintro ⟨z, ⟨hb, hs, hne, hd⟩, rfl⟩
    rename_i blanks sign digits negative
    have htake : digits.takeWhile Text.isDigit = digits := List.takeWhile_eq_self_iff.mpr hd
    have hdrop : digits.dropWhile Text.isDigit = [] := List.dropWhile_eq_nil_iff.mpr hd
    simp only [readWord?, dropWhile_blanks hb hs hne hd, takeSign_append hs hne hd, htake, hdrop]
    rw [if_neg hne]

theorem readCount?_eq_some_iff_denotes {t : Text} {n : Nat} :
    readCount? t = some n ↔ ∃ z, Denotes t z ∧ 0 ≤ z ∧ n = min z.toNat maxCount := by
  constructor
  · intro h
    cases hword : readWord? t with
    | none =>
      rw [readCount?, hword] at h
      cases h
    | some r =>
      obtain ⟨w, rest⟩ := r
      simp only [readCount?, hword] at h
      by_cases hbad : rest ≠ [] ∨ w < 0
      · rw [if_pos hbad] at h
        cases h
      · rw [if_neg hbad] at h
        cases h
        obtain ⟨hrest, hw⟩ := not_or.mp hbad
        rw [Decidable.not_not.mp hrest] at hword
        obtain ⟨z, hz, rfl⟩ := readWord?_eq_some_iff.mp hword
        have hsign : 0 ≤ z := Int.not_lt.mp (ofIntClamp_lt_zero_iff.not.mp hw)
        exact ⟨z, hz, hsign, toNat_ofIntClamp hsign⟩
  · rintro ⟨z, hz, hsign, rfl⟩
    have hgood : ¬(([] : Text) ≠ [] ∨ Int64.ofIntClamp z < 0) := by
      rw [ofIntClamp_lt_zero_iff]
      simp
      omega
    simp only [readCount?, readWord?_eq_some_iff.mpr ⟨z, hz, rfl⟩]
    rw [if_neg hgood, toNat_ofIntClamp hsign]

theorem counts_iff_denotes {t : Text} {n : Nat} :
    Counts t n ↔ ∃ z, Denotes t z ∧ 0 ≤ z ∧ n = min z.toNat maxCount := by
  constructor
  · rintro ⟨hb, hs, hne, hd, hn⟩
    rename_i blanks sign digits negative
    refine ⟨_, .written hb hs hne hd, ?_⟩
    cases negative with
    | false => simp
    | true => simp [hn rfl]
  · rintro ⟨z, ⟨hb, hs, hne, hd⟩, hsign, rfl⟩
    rename_i blanks sign digits negative
    have hzero : negative = true → Text.toNat digits = 0 := by
      rintro rfl
      simp at hsign
      omega
    have hvalue : (if negative then -(Text.toNat digits : Int) else Text.toNat digits).toNat
        = Text.toNat digits := by
      cases negative with
      | false => simp
      | true => simp [hzero rfl]
    rw [hvalue]
    exact .written hb hs hne hd hzero

/-- Counts are read from exactly the texts of their form. -/
theorem readCount?_eq_some_iff {t : Text} {n : Nat} : readCount? t = some n ↔ Counts t n :=
  readCount?_eq_some_iff_denotes.trans counts_iff_denotes.symm

end Options
end WordMachine
