import WordMachine.Text

/-!
# Command-line flags

How the arguments of a command are split into flags and operands. A flag is a letter after a dash;
letters may share a dash, as in `-VVl`, and the value of `-n` may be attached to it or be the next
argument, **whatever that argument looks like**. The first argument that does not start with a dash,
or is nothing but a dash, ends the flags; so does `--`, which belongs to neither side.

Letters are bytes. A letter without a meaning is still a flag: what to make of it is not decided
here.
-/

set_option autoImplicit false

namespace WordMachine

/-- A flag as it was scanned. -/
inductive Flag where
  | verbose
  | list
  /-- A count with its value, as text. -/
  | count (value : Text)
  /-- A letter that means nothing. -/
  | unknown (letter : UInt8)
  /-- A count at the end of the arguments, where its value is missing. -/
  | missingCount
deriving DecidableEq

namespace Flag

/-- The dash. -/
def dash : UInt8 := 0x2d

/-- The letter of the flag that takes a value. -/
def countLetter : UInt8 := 0x6e

/-- The flag of a letter that takes no value. -/
def ofLetter (letter : UInt8) : Flag :=
  if letter = 0x56 then .verbose else if letter = 0x6c then .list else .unknown letter

/-- The flags of the letters that share a dash, and whether the last one still needs its value. -/
def cluster : Text → List Flag × Bool
  | [] => ([], false)
  | letter :: rest =>
    if letter = countLetter then
      if rest = [] then ([], true) else ([.count rest], false)
    else
      let (flags, awaits) := cluster rest
      (ofLetter letter :: flags, awaits)

/-- The letters of an argument that is a flag or several; `none` if it is an operand. -/
def letters? : Text → Option Text
  | [] => none
  | b :: letters => if b = dash ∧ letters ≠ [] then some letters else none

/-- Splits arguments into flags and operands. -/
def scan : List Text → List Flag × List Text
  | [] => ([], [])
  | argument :: rest =>
    match letters? argument with
    | none => ([], argument :: rest)
    | some letters =>
      if letters = [dash] then ([], rest)
      else
        match cluster letters, rest with
        | (flags, false), rest =>
          let (more, operands) := scan rest
          (flags ++ more, operands)
        | (flags, true), [] => (flags ++ [.missingCount], [])
        | (flags, true), value :: rest =>
          let (more, operands) := scan rest
          (flags ++ .count value :: more, operands)

end Flag
end WordMachine
