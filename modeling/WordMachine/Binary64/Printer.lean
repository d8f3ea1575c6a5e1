import WordMachine.Binary64.Shortest
import WordMachine.Text

/-!
# Numbers as text

A number is written with the digits of its shortest decimal, in fixed or in scientific form,
whichever is shorter, and **in fixed form on a tie**. So `10000` stays as it is, `100000` is written
`1e+05` and `120000` again in full.

A whole number that is written in fixed form shows all of its own digits, not the shortest ones
followed by zeros.

A number is written into a buffer of thirty-two bytes. A text that does not fit in is not cut short:
a question mark stands for it (`bufferedText`).
-/

set_option autoImplicit false

namespace WordMachine
namespace Binary64

/-- Digits followed by a power of ten below one, with a decimal point: the point stands before the
last `places` digits, and zeros are supplied on its left as needed. -/
def pointed (digits : Text) (places : Nat) : Text :=
  if places < digits.length then
    digits.take (digits.length - places) ++ Text.ofString "."
      ++ digits.drop (digits.length - places)
  else Text.ofString "0." ++ List.leftpad places 0x30 digits

/-- A positive magnitude `u` whose shortest decimal is `d`, in fixed form. -/
def fixedText (u : Nat) (d : Decimal) : Text :=
  if 0 ≤ d.exponent then Text.ofNat (u / unitsPerOne)
  else pointed (Text.ofNat d.digits) (-d.exponent).toNat

/-- The exponent of the scientific form: a sign, then at least two digits. -/
def exponentText (exponent : Int) : Text :=
  Text.ofString (if exponent < 0 then "e-" else "e+")
    ++ List.leftpad 2 0x30 (Text.ofNat exponent.natAbs)

/-- A decimal in scientific form: one digit, the others after a point, and the exponent. -/
def scientificText (d : Decimal) : Text :=
  let digits := Text.ofNat d.digits
  let others := digits.drop 1
  digits.take 1 ++ (if others.isEmpty then [] else Text.ofString "." ++ others)
    ++ exponentText (d.exponent + others.length)

/-- A positive magnitude in the shorter form, fixed on a tie. -/
def magnitudeText (u : Nat) : Text :=
  let d := shortest u
  let fixed := fixedText u d
  let scientific := scientificText d
  if fixed.length ≤ scientific.length then fixed else scientific

/-- A number as text. The sign bit shows on every number, zeros and NaNs included. -/
def text (x : Binary64) : Text :=
  (if x.negative then Text.ofString "-" else [])
    ++ (if x.isNaN then Text.ofString "nan"
      else if x.isInfinite then Text.ofString "inf"
      else if x.isZero then Text.ofString "0"
      else magnitudeText x.units)

/-- How many bytes there are to write a number into. -/
def bufferSize : Nat := 32

/-- A number as it is written: its text if there is room for it, and else a question mark. -/
def bufferedText (x : Binary64) : Text :=
  if x.text.length ≤ bufferSize then x.text else Text.ofString "?"

end Binary64
end WordMachine
