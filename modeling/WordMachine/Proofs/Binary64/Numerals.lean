import WordMachine.Binary64.Reader
import WordMachine.Proofs.Binary64.Alphabet

/-!
# Printed magnitudes are numerals

A magnitude is printed as a whole number, with a decimal point, or with an exponent, and zeros are
supplied where the form needs them. Each of these forms is a numeral again, of the same digits and
the same exponent (`Spells`): the digits before and after the point are read as one number, the
digits after it count against the exponent, and zeros in front change nothing.

A printed magnitude is therefore read as its shortest decimal, except that a whole number in fixed
form is read as the number it is, all of whose digits are shown (`magnitudeText_cases`).
-/

set_option autoImplicit false

namespace WordMachine

/-! ## Digits -/

namespace Text

theorem toNat_zeros_append (n : Nat) (t : Text) : toNat (List.replicate n 0x30 ++ t) = toNat t := by
  induction n with
  | zero => rfl
  | succ n ih =>
    rw [List.replicate_succ, List.cons_append, ← ih]
    rfl

theorem toNat_leftpad (n : Nat) (t : Text) : toNat (List.leftpad n 0x30 t) = toNat t :=
  toNat_zeros_append _ t

/-- A text of nothing but decimal digits. -/
def InDigits (t : Text) : Prop := ∀ b ∈ t, isDigit b = true

theorem inDigits_ofNat (n : Nat) : InDigits (ofNat n) := isDigit_of_mem_ofNat n

theorem InDigits.append {s t : Text} (hs : InDigits s) (ht : InDigits t) : InDigits (s ++ t) := by
  intro b hb
  rcases List.mem_append.mp hb with h | h
  · exact hs b h
  · exact ht b h

theorem InDigits.take {t : Text} (h : InDigits t) (n : Nat) : InDigits (t.take n) :=
  fun b hb => h b (List.mem_of_mem_take hb)

theorem InDigits.drop {t : Text} (h : InDigits t) (n : Nat) : InDigits (t.drop n) :=
  fun b hb => h b (List.mem_of_mem_drop hb)

theorem InDigits.leftpad {t : Text} (h : InDigits t) (n : Nat) :
    InDigits (List.leftpad n 0x30 t) := by
  refine InDigits.append (fun b hb => ?_) h
  rw [List.eq_of_mem_replicate hb]
  rfl

end Text

namespace Binary64

open Text (InDigits)

theorem InFigures.of_inDigits {t : Text} (h : InDigits t) : InFigures t := by
  intro b hb
  simp only [isFigure, h b hb, Bool.true_or]

namespace Radix

theorem digitValue?_of_isDigit {b : UInt8} (h : Text.isDigit b = true) :
    Radix.decimal.digitValue? b = some (b.toNat - 0x30) := by
  have hrange := Text.range_of_isDigit h
  have hlt : b.toNat - 0x30 < 10 := by omega
  simp [digitValue?, Text.digitIn?, Text.hexValue?, h, decimal, hlt]

theorem isDigit_of_inDigits {t : Text} (h : InDigits t) :
    ∀ b ∈ t, Radix.decimal.isDigit b = true := by
  intro b hb
  rw [isDigit, digitValue?_of_isDigit (h b hb)]
  rfl

theorem valueIn_of_inDigits {t : Text} (h : InDigits t) :
    Text.valueIn 10 (t.filterMap Radix.decimal.digitValue?) = Text.toNat t := by
  have hvalues : t.filterMap Radix.decimal.digitValue? = t.map fun b => b.toNat - 0x30 := by
    induction t with
    | nil => rfl
    | cons b rest ih =>
      rw [List.filterMap_cons_some (digitValue?_of_isDigit (h b List.mem_cons_self)),
        ih fun c hc => h c (List.mem_cons_of_mem b hc)]
      rfl
  rw [hvalues]
  rfl

end Radix

/-! ## Exponents -/

theorem exponentText_eq (exponent : Int) :
    exponentText exponent = 0x65 :: (if exponent < 0 then 0x2d else 0x2b)
      :: List.leftpad 2 0x30 (Text.ofNat exponent.natAbs) := by
  unfold exponentText
  split <;> rfl

theorem exponentDigits_ne_nil (exponent : Int) :
    List.leftpad 2 0x30 (Text.ofNat exponent.natAbs) ≠ [] :=
  fun hnil => Text.ofNat_ne_nil _ (List.append_eq_nil_iff.mp hnil).2

theorem Radix.readExponent?_signed {digits : Text} (hne : digits ≠ []) (h : InDigits digits)
    (negative : Prop) [Decidable negative] :
    Radix.decimal.readExponent? (0x65 :: (if negative then 0x2d else 0x2b) :: digits)
      = some (if negative then -(Text.toNat digits : Int) else Text.toNat digits) := by
  have hform : Text.lowerByte 0x65 = Radix.decimal.marker ∧ digits ≠ []
      ∧ digits.all Text.isDigit = true := ⟨rfl, hne, List.all_eq_true.mpr h⟩
  by_cases hneg : negative
  · rw [if_pos hneg, if_pos hneg, readExponent?, Text.takeSign, if_pos rfl]
    exact if_pos hform
  · rw [if_neg hneg, if_neg hneg, readExponent?, Text.takeSign, if_neg (by decide), if_pos rfl]
    exact if_pos hform

/-- What may stand behind the digits of a numeral: nothing, or an exponent. -/
inductive ExponentPart : Text → Int → Prop
  | none : ExponentPart [] 0
  | written (exponent : Int) : ExponentPart (exponentText exponent) exponent

namespace ExponentPart

variable {t : Text} {exponent : Int}

theorem inFigures (h : ExponentPart t exponent) : InFigures t := by
  cases h with
  | none => exact inFigures_of_all rfl
  | written => exact inFigures_exponentText exponent

theorem cases_head (h : ExponentPart t exponent) : t = [] ∨ ∃ rest, t = 0x65 :: rest := by
  cases h with
  | none => exact Or.inl rfl
  | written => exact Or.inr ⟨_, exponentText_eq exponent⟩

theorem takeWhile_eq (h : ExponentPart t exponent) : t.takeWhile Radix.decimal.isDigit = [] := by
  rcases h.cases_head with rfl | ⟨rest, rfl⟩
  · rfl
  · exact List.takeWhile_cons_of_neg (by decide)

theorem dropWhile_eq (h : ExponentPart t exponent) : t.dropWhile Radix.decimal.isDigit = t := by
  rcases h.cases_head with rfl | ⟨rest, rfl⟩
  · rfl
  · exact List.dropWhile_cons_of_neg (by decide)

/-- An exponent is read as it was written. -/
theorem readExponent? (h : ExponentPart t exponent) :
    Radix.decimal.readExponent? t = some exponent := by
  cases h with
  | none => rfl
  | written =>
    have hvalue := Text.toNat_leftpad 2 (Text.ofNat exponent.natAbs)
    rw [Text.toNat_ofNat] at hvalue
    rw [exponentText_eq, Radix.readExponent?_signed (exponentDigits_ne_nil exponent)
      ((Text.inDigits_ofNat _).leftpad 2), hvalue]
    exact congrArg some (by split <;> omega)

end ExponentPart

/-! ## Digits with or without a point -/

namespace Radix

variable {whole part rest : Text} {exponent : Int}

theorem splitPoint_point (hw : InDigits whole) (hp : InDigits part)
    (hr : ExponentPart rest exponent) :
    Radix.decimal.splitPoint (whole ++ 0x2e :: (part ++ rest)) = (whole, part, rest) := by
  have hw' := isDigit_of_inDigits hw
  have hp' := isDigit_of_inDigits hp
  have hpoint : ¬Radix.decimal.isDigit 0x2e = true := by decide
  rw [splitPoint, List.dropWhile_append_of_pos hw', List.dropWhile_cons_of_neg hpoint]
  simp only [if_true]
  rw [List.takeWhile_append_of_pos hw', List.takeWhile_cons_of_neg hpoint, List.append_nil,
    List.takeWhile_append_of_pos hp', hr.takeWhile_eq, List.append_nil,
    List.dropWhile_append_of_pos hp', hr.dropWhile_eq]

theorem splitPoint_whole (hw : InDigits whole) (hr : ExponentPart rest exponent) :
    Radix.decimal.splitPoint (whole ++ rest) = (whole, [], rest) := by
  have hw' := isDigit_of_inDigits hw
  rw [splitPoint, List.dropWhile_append_of_pos hw', hr.dropWhile_eq]
  rcases hr.cases_head with rfl | ⟨tail, rfl⟩
  · simp
  · simp only [show ¬(0x65 : UInt8) = 0x2e by decide, if_false]
    rw [List.takeWhile_append_of_pos hw', hr.takeWhile_eq, List.append_nil]

theorem read?_point (hne : whole ≠ []) (hw : InDigits whole) (hp : InDigits part)
    (hr : ExponentPart rest exponent) :
    Radix.decimal.read? (whole ++ 0x2e :: (part ++ rest))
      = some (.scaled .decimal (Text.toNat (whole ++ part)) (exponent - part.length)) := by
  rw [read?, splitPoint_point hw hp hr]
  simp only [List.append_eq_nil_iff, hne, false_and, if_false, hr.readExponent?, Option.map_some]
  rw [show Radix.decimal.base = 10 from rfl, valueIn_of_inDigits (hw.append hp),
    show Radix.decimal.places = 1 from rfl, Int.natCast_one, Int.one_mul]

theorem read?_whole (hne : whole ≠ []) (hw : InDigits whole) (hr : ExponentPart rest exponent) :
    Radix.decimal.read? (whole ++ rest)
      = some (.scaled .decimal (Text.toNat whole) exponent) := by
  rw [read?, splitPoint_whole hw hr]
  simp only [List.append_nil, hne, if_false, hr.readExponent?, Option.map_some, List.length_nil]
  rw [show Radix.decimal.base = 10 from rfl, valueIn_of_inDigits hw]
  simp

end Radix

/-! ## Whole numerals -/

theorem lowerByte_of_isFigure {b : UInt8} (h : isFigure b = true) : Text.lowerByte b = b := by
  simp only [isFigure, Bool.or_eq_true, beq_iff_eq] at h
  rcases h with (((hdigit | rfl) | rfl) | rfl) | rfl
  · have hrange := Text.range_of_isDigit hdigit
    refine if_neg ?_
    simp only [UInt8.le_iff_toNat_le, UInt8.reduceToNat, Bool.and_eq_true, decide_eq_true_eq]
    omega
  · rfl
  · rfl
  · rfl
  · rfl

theorem InFigures.ne {t w : Text} (h : InFigures t) (hw : w.all isFigure = false) : t ≠ w := by
  rintro rfl
  rw [List.all_eq_true.mpr h] at hw
  cases hw

/-- Figures spell none of the words that begin another kind of numeral. -/
theorem Numeral.read?_of_inFigures {t : Text} (h : InFigures t) :
    Numeral.read? t = Radix.decimal.read? t := by
  have hlower : t.map Text.lowerByte = t := by
    rw [List.map_congr_left fun b hb => lowerByte_of_isFigure (h b hb), List.map_id']
  have hinf : ¬(t = Text.ofString "inf" ∨ t = Text.ofString "infinity") :=
    not_or.mpr ⟨h.ne rfl, h.ne rfl⟩
  have hnan : ¬isNanWord t = true := by
    simp only [isNanWord, beq_eq_false_iff_ne.mpr (h.ne (w := Text.ofString "nan") rfl),
      beq_eq_false_iff_ne.mpr ((h.take 4).ne (w := Text.ofString "nan(") rfl), Bool.false_and,
      Bool.or_self, Bool.false_eq_true, not_false_eq_true]
  have hhex : ¬t.take 2 = Text.ofString "0x" := (h.take 2).ne rfl
  simp only [read?, hlower]
  rw [if_neg hinf, if_neg hnan, if_neg hhex]

/-- A numeral that begins with a digit and denotes a decimal. -/
structure Spells (t : Text) (d : Decimal) : Prop where
  starts : ∃ b rest, t = b :: rest ∧ Text.isDigit b = true
  reads : Numeral.read? t = some (.scaled .decimal d.digits d.exponent)

theorem starts_append {whole : Text} (hne : whole ≠ []) (hw : InDigits whole) (t : Text) :
    ∃ b rest, whole ++ t = b :: rest ∧ Text.isDigit b = true := by
  obtain ⟨b, rest, rfl⟩ := List.exists_cons_of_ne_nil hne
  exact ⟨b, rest ++ t, rfl, hw b List.mem_cons_self⟩

theorem spells_point {whole part rest : Text} {exponent : Int} (hne : whole ≠ [])
    (hw : InDigits whole) (hp : InDigits part) (hr : ExponentPart rest exponent) :
    Spells (whole ++ 0x2e :: (part ++ rest))
      ⟨Text.toNat (whole ++ part), exponent - part.length⟩ := by
  refine ⟨starts_append hne hw _, ?_⟩
  have hpoint : InFigures (0x2e :: (part ++ rest)) :=
    InFigures.append (inFigures_of_all rfl : InFigures [0x2e])
      ((InFigures.of_inDigits hp).append hr.inFigures)
  rw [Numeral.read?_of_inFigures ((InFigures.of_inDigits hw).append hpoint),
    Radix.read?_point hne hw hp hr]

theorem spells_whole {whole rest : Text} {exponent : Int} (hne : whole ≠ [])
    (hw : InDigits whole) (hr : ExponentPart rest exponent) :
    Spells (whole ++ rest) ⟨Text.toNat whole, exponent⟩ := by
  refine ⟨starts_append hne hw rest, ?_⟩
  rw [Numeral.read?_of_inFigures ((InFigures.of_inDigits hw).append hr.inFigures),
    Radix.read?_whole hne hw hr]

/-! ## The three forms -/

theorem spells_ofNat (n : Nat) : Spells (Text.ofNat n) ⟨n, 0⟩ := by
  have h := spells_whole (Text.ofNat_ne_nil n) (Text.inDigits_ofNat n) .none
  rw [List.append_nil, Text.toNat_ofNat] at h
  exact h

theorem spells_pointed (n places : Nat) :
    Spells (pointed (Text.ofNat n) places) ⟨n, -(places : Int)⟩ := by
  have hdigits := Text.inDigits_ofNat n
  unfold pointed
  split
  · rename_i hlt
    -- the point stands inside the digits
    generalize hplace : (Text.ofNat n).length - places = place
    have hne : (Text.ofNat n).take place ≠ [] := by
      rw [ne_eq, List.take_eq_nil_iff, not_or]
      exact ⟨by omega, Text.ofNat_ne_nil n⟩
    have h := spells_point hne (hdigits.take place) (hdigits.drop place) .none
    rw [List.take_append_drop, Text.toNat_ofNat, List.length_drop, List.append_nil,
      show (0 : Int) - ((Text.ofNat n).length - place : Nat) = -(places : Int) by omega] at h
    rw [List.append_assoc]
    exact h
  · rename_i hge
    -- the point stands before all of them, and zeros fill the places in between
    have hzero : InDigits [0x30] := (fun b hb => by rw [List.mem_singleton.mp hb]; rfl)
    have hvalue : Text.toNat ([0x30] ++ List.leftpad places 0x30 (Text.ofNat n)) = n := by
      rw [← List.replicate_one, Text.toNat_zeros_append, Text.toNat_leftpad, Text.toNat_ofNat]
    have h := spells_point (by decide) hzero (hdigits.leftpad places) .none
    rw [hvalue, List.length_leftpad, List.append_nil,
      show (0 : Int) - (max places (Text.ofNat n).length : Nat) = -(places : Int) by omega] at h
    exact h

theorem spells_scientificText (d : Decimal) : Spells (scientificText d) d := by
  have hdigits := Text.inDigits_ofNat d.digits
  have hvalue := Text.toNat_ofNat d.digits
  obtain ⟨b, rest, hcons⟩ := List.exists_cons_of_ne_nil (Text.ofNat_ne_nil d.digits)
  rw [hcons] at hdigits hvalue
  have hb : InDigits [b] := hdigits.take 1
  have htext : scientificText d = [b] ++ (if rest.isEmpty then [] else Text.ofString "." ++ rest)
      ++ exponentText (d.exponent + rest.length) := by
    rw [scientificText, hcons]
    rfl
  rw [htext]
  cases rest with
  | nil =>
    have h := spells_whole (List.cons_ne_nil b []) hb (.written d.exponent)
    rw [hvalue] at h
    simp only [List.length_nil, Int.natCast_zero, Int.add_zero]
    exact h
  | cons c cs =>
    have h := spells_point (List.cons_ne_nil b []) hb (hdigits.drop 1)
      (.written (d.exponent + (c :: cs).length))
    -- the places behind the point were added to the exponent that is written
    simp only [List.drop_succ_cons, List.drop_zero, List.singleton_append, hvalue,
      Int.add_sub_cancel] at h
    rw [List.append_assoc]
    exact h

theorem fixedText_cases (u : Nat) (d : Decimal) :
    Spells (fixedText u d) d ∨ (0 ≤ d.exponent ∧ Spells (fixedText u d) ⟨u / unitsPerOne, 0⟩) := by
  by_cases hnonneg : 0 ≤ d.exponent
  · rw [fixedText, if_pos hnonneg]
    exact Or.inr ⟨hnonneg, spells_ofNat _⟩
  · have h := spells_pointed d.digits (-d.exponent).toNat
    rw [show -((-d.exponent).toNat : Int) = d.exponent by omega] at h
    rw [fixedText, if_neg hnonneg]
    exact Or.inl h

/-- **A printed magnitude is read as its shortest decimal**, or as the whole number that it is. -/
theorem magnitudeText_cases (u : Nat) :
    Spells (magnitudeText u) (shortest u) ∨
      (0 ≤ (shortest u).exponent ∧ Spells (magnitudeText u) ⟨u / unitsPerOne, 0⟩) := by
  rw [magnitudeText]
  generalize shortest u = d
  by_cases hle : (fixedText u d).length ≤ (scientificText d).length
  · rw [if_pos hle]
    exact fixedText_cases u d
  · rw [if_neg hle]
    exact Or.inl (spells_scientificText d)

/-- A sign in front of a numeral is taken off it. -/
theorem read?_signed {t : Text} {d : Decimal} (h : Spells t d) (negative : Bool) :
    read? ((if negative then Text.ofString "-" else []) ++ t)
      = (Numeral.scaled .decimal d.digits d.exponent).value? negative := by
  obtain ⟨⟨b, rest, rfl, hb⟩, hreads⟩ := h
  obtain ⟨hminus, hplus, hblank⟩ := Text.not_blank_of_isDigit hb
  have hsign : Text.takeSign (((if negative then Text.ofString "-" else [])
      ++ b :: rest).dropWhile Text.isBlank) = (negative, b :: rest) := by
    cases negative with
    | true => rfl
    | false =>
      rw [if_neg Bool.false_ne_true, List.nil_append,
        List.dropWhile_cons_of_neg (by rw [hblank]; decide), Text.takeSign, if_neg hminus,
        if_neg hplus]
  rw [read?, hsign]
  simp only [hreads, Option.bind_some]

end Binary64
end WordMachine
