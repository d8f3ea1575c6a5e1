import WordMachine.Binary64.Rounding
import WordMachine.Text

/-!
# Numerals

The texts that denote a number: white space, a sign, and then a decimal or hexadecimal numeral,
`inf`, `infinity` or `nan`, in any case, **with nothing left over**. A numeral is rounded to the
nearest number.

Two kinds of numeral are refused because no number does them justice (`Numeral.value?`): those that
round beyond the greatest finite number, and those that lose something in rounding and lie below the
least normal number even when they are rounded to the full fifty-three bits.

**A lone fifty-fourth bit is not a loss.** Below the least normal number a numeral is cut to its
leading fifty-three bits before it is rounded, and the bit after those is forgotten unless another
one follows it. So a subnormal number is read from the numerals that are exact, and from those that
exceed it by just that bit (`Numeral.losesBits`).
-/

set_option autoImplicit false

namespace WordMachine
namespace Binary64

/-- How a positional numeral is written. -/
structure Radix where
  /-- The base of the digits. -/
  base : Nat
  /-- The base of the power that the exponent gives. -/
  scale : Nat
  /-- How far one digit after the point lowers the exponent. -/
  places : Nat
  /-- The letter, in lower case, before the exponent. -/
  marker : UInt8
  /-- The finest binary place, counted after the point, down to which digits are turned into bits;
  beyond it one only knows whether something is left. -/
  reach : Nat
deriving DecidableEq

/-- Decimal numerals, such as `1.5e-3`. -/
def Radix.decimal : Radix := ⟨10, 10, 1, 0x65, 1076⟩

/-- Hexadecimal numerals after their `0x`, such as `1.8p1`. Their digits are bits, so the reach
takes in the fifty-fourth bit of every subnormal magnitude. -/
def Radix.hexadecimal : Radix := ⟨16, 2, 4, 0x70, 1127⟩

/-- What a numeral denotes, its sign apart. -/
inductive Numeral where
  | infinity
  | notANumber
  /-- The magnitude `digits * scale ^ exponent`, with the scale of the radix. -/
  | scaled (radix : Radix) (digits : Nat) (exponent : Int)
deriving DecidableEq

namespace Radix

/-- The value of a digit of this radix. -/
def digitValue? (r : Radix) (b : UInt8) : Option Nat := Text.digitIn? r.base b

/-- The digits of this radix. -/
def isDigit (r : Radix) (b : UInt8) : Bool := (r.digitValue? b).isSome

/-- Reads an exponent that takes the whole text; the empty text is the exponent zero. -/
def readExponent? (r : Radix) : Text → Option Int
  | [] => some 0
  | b :: rest =>
    let (negative, digits) := Text.takeSign rest
    if Text.lowerByte b = r.marker ∧ digits ≠ [] ∧ digits.all Text.isDigit then
      some (if negative then -(Text.toNat digits : Int) else Text.toNat digits)
    else none

/-- Splits a text into the digits before the point, those after it, and the rest. -/
def splitPoint (r : Radix) (t : Text) : Text × Text × Text :=
  match t.dropWhile r.isDigit with
  | [] => (t, [], [])
  | b :: rest =>
    if b = 0x2e then (t.takeWhile r.isDigit, rest.takeWhile r.isDigit, rest.dropWhile r.isDigit)
    else (t.takeWhile r.isDigit, [], b :: rest)

/-- Reads a numeral that takes the whole text: digits with an optional point among or around them,
at least one of them, and an optional exponent. -/
def read? (r : Radix) (t : Text) : Option Numeral :=
  let (whole, part, rest) := r.splitPoint t
  let digits := whole ++ part
  if digits = [] then none
  else (r.readExponent? rest).map fun exponent =>
    .scaled r (Text.valueIn r.base (digits.filterMap r.digitValue?))
      (exponent - r.places * part.length)

end Radix

namespace Numeral

/-- The bytes that may stand between the parentheses after `nan`. -/
def isTagByte (b : UInt8) : Bool :=
  Text.isDigit b || (0x61 ≤ Text.lowerByte b && Text.lowerByte b ≤ 0x7a) || b == 0x5f

/-- The number that a tag in lower case begins with: hexadecimal after `0x`, octal after any other
zero, and decimal otherwise. A tag that begins with none counts as zero. -/
def tagNumber (tag : Text) : Nat :=
  if tag.take 2 = Text.ofString "0x" then Text.leadingNat 16 (tag.drop 2)
  else if tag.take 1 = Text.ofString "0" then Text.leadingNat 8 tag
  else Text.leadingNat 10 tag

/-- Whether a text in lower case may stand between the parentheses after `nan`: letters, digits and
underscores, beginning with no number that is too great for sixty-four bits. -/
def isTag (tag : Text) : Bool := tag.all isTagByte ∧ tagNumber tag < 0x10000000000000000

/-- Whether a text in lower case is `nan`, alone or with a tag in parentheses. -/
def isNanWord (t : Text) : Bool :=
  t == Text.ofString "nan"
    || (t.take 4 == Text.ofString "nan(" && t.getLast? == some 0x29 && isTag (t.drop 4).dropLast)

/-- Reads an unsigned numeral that takes the whole text. -/
def read? (t : Text) : Option Numeral :=
  let lower := t.map Text.lowerByte
  if lower = Text.ofString "inf" ∨ lower = Text.ofString "infinity" then some .infinity
  else if isNanWord lower then some .notANumber
  else if lower.take 2 = Text.ofString "0x" then Radix.hexadecimal.read? (t.drop 2)
  else Radix.decimal.read? t

/-- Whether a power is so large or so small that it decides by itself that the numeral is refused,
whatever the digits before it. -/
def isOutlying (digits : Nat) (exponent : Int) : Bool :=
  1100 < exponent ∨ exponent + digits.log2 < -1200

/-- Whether rounding a subnormal magnitude of `num / den` units to `u` loses something that counts.
What the magnitude exceeds `u` by does not count if it is the fifty-fourth bit alone, the leading
bit of `u` being the first, and that bit is within reach. -/
def losesBits (reach num den : Nat) : Bool :=
  let u := roundUnits num den
  let place := 53 - u.log2
  num ≠ u * den
    ∧ ¬(u ≠ 0 ∧ 1074 + place ≤ reach ∧ num * power 2 place = (u * power 2 place + 1) * den)

/-- Whether rounding `num / den` units loses something, and loses it below the least normal
number: even with all fifty-three bits the result stays under `2 ^ 52` units. -/
def underflows (reach num den : Nat) : Bool :=
  losesBits reach num den ∧ 4 * num < 0x3fffffffffffff * den

/-- The number that a numeral stands for, unless it overflows or underflows. -/
def value? (negative : Bool) : Numeral → Option Binary64
  | .infinity => some (Binary64.infinity negative)
  | .notANumber => some (nan negative)
  | .scaled radix digits exponent =>
    if digits = 0 then some (zero negative)
    else if isOutlying digits exponent then none
    else
      let num := scaledNum radix.scale digits exponent
      let den := scaledDen radix.scale exponent
      if underflows radix.reach num den then none
      else
        let x := round negative num den
        if x.isInfinite then none else some x

end Numeral

/-- The number that a whole text denotes. -/
def read? (t : Text) : Option Binary64 :=
  let (negative, numeral) := Text.takeSign (t.dropWhile Text.isBlank)
  (Numeral.read? numeral).bind (·.value? negative)

end Binary64
end WordMachine
