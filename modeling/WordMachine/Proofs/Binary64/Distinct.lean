import WordMachine.Proofs.Binary64.RoundTrip

/-!
# Printed numbers are told apart

**Two numbers have the same text if and only if they have the same bits, or are NaNs of one sign.**

That a number is read back from its text would do for most of them, but not for the subnormal ones,
whose texts the reader refuses. The reader does not refuse to take such a text apart, though: what
it refuses is to round the decimal that the text spells. So a text is followed only as far as the
numeral, and a numeral leaves no choice of the magnitude (`Numeral.Names`).
-/

set_option autoImplicit false

namespace WordMachine
namespace Binary64

/-- The same bits, or two NaNs of one sign, whatever their payloads. -/
def Alike (x y : Binary64) : Prop :=
  x.toBits = y.toBits ∨ (x.isNaN = true ∧ y.isNaN = true ∧ x.negative = y.negative)

theorem Alike.of_eq {x y : Binary64} (h : x = y) : x.Alike y := Or.inl (congrArg toBits h)

/-- A numeral gives the magnitude of a number. A decimal rounds to it, also where it underflows. -/
inductive Numeral.Names : Numeral → Binary64 → Prop
  | notANumber {x : Binary64} : x.isNaN = true → Names .notANumber x
  | infinity {x : Binary64} : x.isInfinite = true → Names .infinity x
  | finite {x : Binary64} {digits : Nat} {exponent : Int} : x.isFinite = true →
      unitsOfDecimal ⟨digits, exponent⟩ = x.units → Names (.scaled .decimal digits exponent) x

/-- A numeral and a sign leave no choice of the number, except among NaNs. -/
theorem Numeral.Names.alike {n : Numeral} {x y : Binary64} (hx : n.Names x) (hy : n.Names y)
    (hsign : x.negative = y.negative) : x.Alike y := by
  cases hx with
  | notANumber hx =>
    cases hy with
    | notANumber hy => exact Or.inr ⟨hx, hy, hsign⟩
  | infinity hx =>
    cases hy with
    | infinity hy =>
      rw [eq_infinity hx, eq_infinity hy, hsign]
      exact .of_eq rfl
  | finite hx hunits =>
    cases hy with
    | finite hy hunits' =>
      refine .of_eq ?_
      rw [← ofUnits_units hx, ← ofUnits_units hy, ← hunits, ← hunits', hsign]

/-! ## The numeral behind the sign -/

theorem unitsOfDecimal_zero (exponent : Int) : unitsOfDecimal ⟨0, exponent⟩ = 0 :=
  Decidable.byContradiction fun hne => digits_ne_zero hne rfl

/-- A numeral of a number that begins with no sign, so that a sign in front of it can be seen. -/
structure Numeral.Body (x : Binary64) (t : Text) : Prop where
  unsigned : t.head? ≠ some 0x2d
  names : ∃ n : Numeral, Numeral.read? t = some n ∧ n.Names x

theorem Spells.body {x : Binary64} {t : Text} {d : Decimal} (h : Spells t d)
    (hfinite : x.isFinite = true) (hunits : unitsOfDecimal d = x.units) : Numeral.Body x t := by
  obtain ⟨⟨b, rest, rfl, hb⟩, hreads⟩ := h
  refine ⟨?_, _, hreads, .finite hfinite hunits⟩
  rw [List.head?_cons, ne_eq, Option.some_inj]
  exact (Text.not_blank_of_isDigit hb).1

/-- The text of a number is its sign before one of its numerals. -/
theorem text_eq_signed (x : Binary64) :
    ∃ t, x.text = (if x.negative then Text.ofString "-" else []) ++ t ∧ Numeral.Body x t := by
  by_cases hnan : x.isNaN = true
  · refine ⟨Text.ofString "nan", ?_, by decide, .notANumber, rfl, .notANumber hnan⟩
    rw [text, if_pos hnan]
  by_cases hinfinite : x.isInfinite = true
  · refine ⟨Text.ofString "inf", ?_, by decide, .infinity, rfl, .infinity hinfinite⟩
    rw [text, if_neg hnan, if_pos hinfinite]
  have hfinite : x.isFinite = true := by simp [isFinite_eq, hnan, hinfinite]
  by_cases hzero : x.isZero = true
  · have htext : Text.ofNat 0 = Text.ofString "0" := by rw [Text.ofNat]; rfl
    refine ⟨Text.ofNat 0, ?_, (spells_ofNat 0).body hfinite ?_⟩
    · rw [text, if_neg hnan, if_neg hinfinite, if_pos hzero, htext]
    · rw [unitsOfDecimal_zero, x.isZero_iff_units.mp hzero]
  · have hpos : 0 < x.units := Nat.pos_of_ne_zero fun h => hzero (x.isZero_iff_units.mpr h)
    obtain ⟨d, hspells, hunits, -⟩ := spells_magnitudeText hpos (representable_units x)
    exact ⟨magnitudeText x.units, text_of_units_pos hfinite hpos, hspells.body hfinite hunits⟩

theorem head?_text_eq_iff (x : Binary64) : x.text.head? = some 0x2d ↔ x.negative = true := by
  obtain ⟨t, htext, hbody⟩ := x.text_eq_signed
  rw [htext]
  cases x.negative with
  | true => exact ⟨fun _ => rfl, fun _ => rfl⟩
  | false => exact ⟨fun h => absurd h hbody.unsigned, nofun⟩

/-- **Numbers have the same text if and only if they are alike.** -/
theorem text_eq_iff {x y : Binary64} : x.text = y.text ↔ x.Alike y := by
  constructor
  · intro h
    have hsign : x.negative = y.negative := by
      rw [Bool.eq_iff_iff, ← head?_text_eq_iff, ← head?_text_eq_iff, h]
    obtain ⟨t, htext, -, n, hread, hnames⟩ := x.text_eq_signed
    obtain ⟨t', htext', -, n', hread', hnames'⟩ := y.text_eq_signed
    -- behind equal signs stand equal numerals
    rw [htext, htext', hsign, List.append_cancel_left_eq] at h
    subst h
    rw [hread] at hread'
    cases hread'
    exact hnames.alike hnames' hsign
  · rintro (hbits | ⟨hx, hy, hsign⟩)
    · rw [← ofBits_toBits x, hbits, ofBits_toBits]
    · rw [text, text, if_pos hx, if_pos hy, hsign]

end Binary64
end WordMachine
