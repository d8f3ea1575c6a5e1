/-!
# Texts

Everything the machine names, stores or prints is a **list of bytes**. Nothing requires a text to
be well-formed UTF-8: the scanner of command-line options reports single bytes of a character, and
string values may hold any byte, NUL included. Wording of the machine's own is written as a string
literal and enters through `Text.ofString`.
-/

set_option autoImplicit false

namespace WordMachine

/-- A text is a sequence of bytes. -/
abbrev Text := List UInt8

namespace Text

/-- The UTF-8 bytes of a string. -/
def ofString (s : String) : Text := s.toUTF8.data.toList

/-! ## Classes of bytes -/

/-- The decimal digits `0` to `9`. -/
def isDigit (b : UInt8) : Bool := 0x30 ≤ b && b ≤ 0x39

/-- White space: the blank, and the controls from tab to carriage return. -/
def isBlank (b : UInt8) : Bool := b == 0x20 || (0x09 ≤ b && b ≤ 0x0d)

/-- A letter in lower case; every other byte as it is. -/
def lowerByte (b : UInt8) : UInt8 := if 0x41 ≤ b && b ≤ 0x5a then b + 0x20 else b

/-- The value of a hexadecimal digit, in either case. -/
def hexValue? (b : UInt8) : Option Nat :=
  if isDigit b then some (b.toNat - 0x30)
  else if 0x61 ≤ lowerByte b && lowerByte b ≤ 0x66 then some ((lowerByte b).toNat - 0x57)
  else none

/-- The lower-case hexadecimal digit for a value below sixteen. -/
def hexDigit (n : Nat) : UInt8 := if n < 10 then UInt8.ofNat (0x30 + n) else UInt8.ofNat (0x57 + n)

/-! ## Naturals -/

/-- The decimal digit for a value below ten. -/
def digit (n : Nat) : UInt8 := UInt8.ofNat (0x30 + n)

/-- A natural in decimal, without leading zeros; zero is one digit. -/
def ofNat (n : Nat) : Text :=
  if n < 10 then [digit n] else ofNat (n / 10) ++ [digit (n % 10)]

/-- The value of a run of digits in a base, most significant first. -/
def valueIn (base : Nat) (digits : List Nat) : Nat :=
  digits.foldl (fun value d => base * value + d) 0

/-- The value of a digit of a base up to sixteen. -/
def digitIn? (base : Nat) (b : UInt8) : Option Nat := (hexValue? b).filter (· < base)

/-- The natural that the digits at the front of a text denote; zero if there are none. -/
def leadingNat (base : Nat) (t : Text) : Nat :=
  valueIn base ((t.takeWhile fun b => (digitIn? base b).isSome).filterMap (digitIn? base))

/-- The natural that a run of decimal digits denotes; the empty run denotes zero. -/
def toNat (digits : Text) : Nat := valueIn 10 (digits.map fun b => b.toNat - 0x30)

/-! ## Cutting and joining -/

/-- Takes an optional sign off the front: whether it is a minus, and the rest. -/
def takeSign : Text → Bool × Text
  | [] => (false, [])
  | b :: rest =>
    if b = 0x2d then (true, rest) else if b = 0x2b then (false, rest) else (false, b :: rest)

/-- The part of a text before its first NUL. -/
def upToNul (t : Text) : Text := t.takeWhile (· != 0)

/-- Texts joined by a separator. -/
def join (separator : Text) : List Text → Text
  | [] => []
  | first :: rest => first ++ rest.flatMap (separator ++ ·)

/-! ## Basic facts -/

theorem valueIn_append (base : Nat) (ds : List Nat) (d : Nat) :
    valueIn base (ds ++ [d]) = base * valueIn base ds + d := by
  simp [valueIn]

theorem toNat_append_digit (t : Text) (b : UInt8) :
    toNat (t ++ [b]) = 10 * toNat t + (b.toNat - 0x30) := by
  simp [toNat, valueIn_append]

theorem toNat_digit {n : Nat} (h : n < 10) : (digit n).toNat = 0x30 + n := by
  simp [digit]; omega

theorem isDigit_digit {n : Nat} (h : n < 10) : isDigit (digit n) = true := by
  simp [isDigit, UInt8.le_iff_toNat_le, toNat_digit h]; omega

theorem range_of_isDigit {b : UInt8} (h : isDigit b = true) :
    0x30 ≤ b.toNat ∧ b.toNat ≤ 0x39 := by
  simpa [isDigit, UInt8.le_iff_toNat_le] using h

/-- A digit is neither a sign nor white space, so it ends both. -/
theorem not_blank_of_isDigit {b : UInt8} (h : isDigit b = true) :
    b ≠ 0x2d ∧ b ≠ 0x2b ∧ isBlank b = false := by
  have hrange := range_of_isDigit h
  refine ⟨?_, ?_, ?_⟩
  · rintro rfl
    exact absurd hrange.1 (by decide)
  · rintro rfl
    exact absurd hrange.1 (by decide)
  · have hne : b ≠ 0x20 := by
      rintro rfl
      exact absurd hrange.1 (by decide)
    simp only [isBlank, UInt8.le_iff_toNat_le, Bool.or_eq_false_iff, beq_eq_false_iff_ne,
      Bool.and_eq_false_iff, decide_eq_false_iff_not]
    exact ⟨hne, Or.inr (by simp only [UInt8.reduceToNat]; omega)⟩

/-- The decimal digits of a natural denote it. -/
theorem toNat_ofNat (n : Nat) : toNat (ofNat n) = n := by
  fun_induction ofNat n with
  | case1 n h => simp [toNat, valueIn, toNat_digit h]
  | case2 n h ih =>
    rw [toNat_append_digit, ih, toNat_digit (Nat.mod_lt n (by decide))]
    omega

/-- Only digits are written for a natural. -/
theorem isDigit_of_mem_ofNat (n : Nat) : ∀ b ∈ ofNat n, isDigit b = true := by
  fun_induction ofNat n with
  | case1 n h => simpa using isDigit_digit h
  | case2 n h ih =>
    intro b hb
    rcases List.mem_append.1 hb with hb | hb
    · exact ih b hb
    · rw [List.mem_singleton.1 hb]
      exact isDigit_digit (Nat.mod_lt n (by decide))

theorem ofNat_ne_nil (n : Nat) : ofNat n ≠ [] := by
  rw [ofNat]; split <;> simp

/-- A text without NUL is left whole. -/
theorem upToNul_eq_self {t : Text} (h : (0 : UInt8) ∉ t) : upToNul t = t := by
  induction t with
  | nil => rfl
  | cons b rest ih =>
    have hb : b ≠ 0 := fun hz => h (hz ▸ List.mem_cons_self)
    have hrest := ih fun hr => h (List.mem_cons_of_mem _ hr)
    simpa [upToNul, hb] using hrest

end Text

end WordMachine
