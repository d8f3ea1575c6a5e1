import WordMachine.Text

/-!
# Quoted texts

The written form of a string value: the text between double quotes, with quotes, backslashes and
control bytes escaped. Bytes from `0x20` on, apart from those two, are written as they are, so a
text in UTF-8 stays readable.

**The form is self-delimiting.** `decode` reads a quoted text from the front of any text and hands
back what follows the closing quote (`decode_encode_append`), so a quoted text can be found again
inside whatever it was printed into.
-/

set_option autoImplicit false

namespace WordMachine
namespace Text
namespace Quoted

/-- The double quote. -/
def quote : UInt8 := 0x22

/-- The backslash. -/
def backslash : UInt8 := 0x5c

/-- The bytes with an escape of their own, each with the letter that stands for it after a
backslash. -/
def escapes : List (UInt8 × UInt8) :=
  [(quote, quote), (backslash, backslash), (0x0a, 0x6e), (0x09, 0x74), (0x0d, 0x72), (0x08, 0x62),
    (0x0c, 0x66)]

/-- The letter that stands after a backslash for a byte with an escape of its own. -/
def letter? (b : UInt8) : Option UInt8 := (escapes.find? (·.1 == b)).map (·.2)

/-- The byte that a letter after a backslash stands for. -/
def ofLetter? (c : UInt8) : Option UInt8 := (escapes.find? (·.2 == c)).map (·.1)

/-- The written form of one byte: an escape by letter, `\u00` and two hexadecimal digits for any
other control byte, and the byte itself otherwise. -/
def encodeByte (b : UInt8) : Text :=
  match letter? b with
  | some c => [backslash, c]
  | none =>
    if b < 0x20 then
      [backslash, 0x75, 0x30, 0x30, hexDigit (b.toNat / 16), hexDigit (b.toNat % 16)]
    else [b]

/-- A text between quotes. -/
def encode (t : Text) : Text := quote :: t.flatMap encodeByte ++ [quote]

/-- Reads what stands after a backslash: the byte that it denotes, and the rest. -/
def readEscape : Text → Option (UInt8 × Text)
  | [] => none
  | c :: rest =>
    match ofLetter? c with
    | some b => some (b, rest)
    | none =>
      match rest with
      | z :: z' :: h :: l :: rest =>
        match hexValue? h, hexValue? l with
        | some high, some low =>
          if c = 0x75 ∧ z = 0x30 ∧ z' = 0x30 then some (UInt8.ofNat (16 * high + low), rest)
          else none
        | _, _ => none
      | _ => none

theorem length_readEscape {t rest : Text} {b : UInt8} (h : readEscape t = some (b, rest)) :
    rest.length < t.length := by
  unfold readEscape at h
  grind

/-- Reads up to the first quote that no backslash precedes: the text denoted, and what follows the
quote. -/
def decodeBody (t : Text) : Option (Text × Text) :=
  match t with
  | [] => none
  | b :: rest =>
    if b = quote then some ([], rest)
    else if b = backslash then
      match _h : readEscape rest with
      | none => none
      | some (c, rest') => (decodeBody rest').map fun r => (c :: r.1, r.2)
    else (decodeBody rest).map fun r => (b :: r.1, r.2)
termination_by t.length
decreasing_by
  · have := length_readEscape _h
    simp only [List.length_cons]; omega
  · simp

/-- Reads a quoted text from the front of a text: what it denotes, and what follows it. -/
def decode : Text → Option (Text × Text)
  | [] => none
  | b :: rest => if b = quote then decodeBody rest else none

/-! ## Reading what was written -/

theorem ofLetter?_letter {b c : UInt8} (h : letter? b = some c) : ofLetter? c = some b := by
  obtain ⟨p, hp, rfl⟩ := Option.map_eq_some_iff.1 h
  have key : escapes.all (fun p => ofLetter? p.2 == some p.1) = true := by decide
  have hp' := List.all_eq_true.1 key p (List.mem_of_find?_eq_some hp)
  have hb : p.1 = b := by simpa using List.find?_some hp
  rw [eq_of_beq hp', hb]

theorem readEscape_letter {b c : UInt8} (h : letter? b = some c) (tail : Text) :
    readEscape (c :: tail) = some (b, tail) := by
  simp [readEscape, ofLetter?_letter h]

theorem readEscape_control {b : UInt8} (h : b < 0x20) (tail : Text) :
    readEscape (0x75 :: 0x30 :: 0x30 :: hexDigit (b.toNat / 16) :: hexDigit (b.toNat % 16) :: tail)
      = some (b, tail) := by
  have key : ∀ n : Fin 32, hexValue? (hexDigit (n.1 / 16)) = some (n.1 / 16)
      ∧ hexValue? (hexDigit (n.1 % 16)) = some (n.1 % 16) := by decide
  have hb : b.toNat < 32 := by simpa [UInt8.lt_iff_toNat_lt] using h
  obtain ⟨high, low⟩ := key ⟨b.toNat, hb⟩
  simp only [readEscape, show ofLetter? 0x75 = none by decide, high, low, and_self, if_true]
  rw [show 16 * (b.toNat / 16) + b.toNat % 16 = b.toNat by omega]
  simp

theorem letter?_quote : letter? quote = some quote := rfl

theorem letter?_backslash : letter? backslash = some backslash := rfl

/-- Reading undoes the written form of one byte. -/
theorem decodeBody_encodeByte (b : UInt8) (tail : Text) :
    decodeBody (encodeByte b ++ tail) = (decodeBody tail).map fun r => (b :: r.1, r.2) := by
  have hbq : backslash ≠ quote := by decide
  unfold encodeByte
  split
  · rename_i c hc
    rw [List.cons_append, List.cons_append, List.nil_append, decodeBody]
    simp only [hbq, if_false, if_true]
    split <;> simp_all [readEscape_letter hc tail]
  · rename_i hnone
    split
    · rename_i hlow
      simp only [List.cons_append, List.nil_append]
      rw [decodeBody]
      simp only [hbq, if_false, if_true]
      split <;> simp_all [readEscape_control hlow tail]
    · have hq : b ≠ quote := fun h => by simp [h, letter?_quote] at hnone
      have hb : b ≠ backslash := fun h => by simp [h, letter?_backslash] at hnone
      rw [List.cons_append, List.nil_append, decodeBody]
      simp [hq, hb]

theorem decodeBody_flatMap (t tail : Text) :
    decodeBody (t.flatMap encodeByte ++ quote :: tail) = some (t, tail) := by
  induction t with
  | nil => simp [decodeBody]
  | cons b t ih => rw [List.flatMap_cons, List.append_assoc, decodeBody_encodeByte, ih]; rfl

/-- A quoted text is read back whole, whatever follows it. -/
theorem decode_encode_append (t tail : Text) : decode (encode t ++ tail) = some (t, tail) := by
  simp [encode, decode, decodeBody_flatMap]

end Quoted
end Text
end WordMachine
