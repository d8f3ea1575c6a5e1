import WordMachine.Binary64.Reader
import WordMachine.CommandLine.Flag
import WordMachine.Demo
import WordMachine.Display

/-!
# Command-line options

What a command asks for: how much to say, how many values to show, and either the list of demos or
one demo with its numbers. Flags are taken in order, then the name, then the numbers, and the
**first** thing that is wrong ends the reading (`Complaint`); the options read until then stand.
-/

set_option autoImplicit false

namespace WordMachine

/-- What a command asks for. -/
structure Options where
  verbosity : UInt32 := 0
  showCount : Nat := defaultShowCount
  list : Bool := false
  program : Text := []
  numbers : List Binary64 := []
deriving DecidableEq

/-- What is wrong with a command. -/
inductive Complaint where
  | unknownFlag (letter : UInt8)
  | missingCount
  | invalidCount (value : Text)
  | noProgram
  | unknownProgram (name : Text)
  | notANumber (argument : Text)
  | wrongArity (demo : Demo) (given : Nat)
deriving DecidableEq

/-- The line that a complaint is reported with, by a command of the given name. A command without a
program is not commented on. -/
def Complaint.text (command : Text) : Complaint → Text
  | .unknownFlag letter =>
    command ++ Text.ofString ": invalid option -- '" ++ [letter] ++ Text.ofString "'\n"
  | .missingCount =>
    command ++ Text.ofString ": option requires an argument -- '" ++ [Flag.countLetter]
      ++ Text.ofString "'\n"
  | .invalidCount value => Text.ofString "Invalid item count: " ++ value ++ Text.ofString "\n"
  | .noProgram => []
  | .unknownProgram name => Text.ofString "Unknown program: " ++ name ++ Text.ofString "\n"
  | .notANumber argument => Text.ofString "Not a number: " ++ argument ++ Text.ofString "\n"
  | .wrongArity demo given =>
    Text.ofString "Program " ++ demo.name ++ Text.ofString " takes "
      ++ Text.ofNat demo.parameterCount ++ Text.ofString " arguments, got " ++ Text.ofNat given
      ++ Text.ofString "\n"

namespace Options

/-- Reads a whole number off the front of a text: white space, a sign, and as many digits as there
are. A number that does not fit a machine word is read as the nearest one that does. -/
def readWord? (t : Text) : Option (Int64 × Text) :=
  let (negative, rest) := Text.takeSign (t.dropWhile Text.isBlank)
  let digits := rest.takeWhile Text.isDigit
  if digits = [] then none
  else
    let magnitude : Int := Text.toNat digits
    some (.ofIntClamp (if negative then -magnitude else magnitude), rest.dropWhile Text.isDigit)

/-- Reads a count that takes the whole text: a whole number, not negative. -/
def readCount? (t : Text) : Option Nat :=
  match readWord? t with
  | none => none
  | some (count, rest) => if rest ≠ [] ∨ count < 0 then none else some count.toUInt64.toNat

/-- Takes flags in order, up to the first that is wrong. -/
def takeFlags (o : Options) : List Flag → Options × Option Complaint
  | [] => (o, none)
  | .verbose :: rest => takeFlags { o with verbosity := o.verbosity + 1 } rest
  | .list :: rest => takeFlags { o with list := true } rest
  | .count value :: rest =>
    match readCount? value with
    | some n => takeFlags { o with showCount := n } rest
    | none => (o, some (.invalidCount value))
  | .unknown letter :: _ => (o, some (.unknownFlag letter))
  | .missingCount :: _ => (o, some .missingCount)

/-- Reads numbers, up to the first argument that is none. -/
def readNumbers : List Text → List Binary64 × Option Text
  | [] => ([], none)
  | t :: rest =>
    match Binary64.read? t with
    | none => ([], some t)
    | some x =>
      let (numbers, refused) := readNumbers rest
      (x :: numbers, refused)

/-- Takes the operands: the name of a demo and as many numbers as it has parameters. -/
def takeOperands (o : Options) : List Text → Options × Option Complaint
  | [] => (o, some .noProgram)
  | name :: arguments =>
    let o := { o with program := name }
    match Demo.find? name with
    | none => (o, some (.unknownProgram name))
    | some demo =>
      let (numbers, refused) := readNumbers arguments
      let o := { o with numbers := numbers }
      match refused with
      | some argument => (o, some (.notANumber argument))
      | none =>
        if numbers.length = demo.parameterCount then (o, none)
        else (o, some (.wrongArity demo numbers.length))

/-- Reads the arguments of a command. Operands do not count if the list of demos is asked for. -/
def parse (arguments : List Text) : Options × Option Complaint :=
  let (flags, operands) := Flag.scan arguments
  match takeFlags {} flags with
  | (o, some complaint) => (o, some complaint)
  | (o, none) => if o.list then (o, none) else o.takeOperands operands

end Options
end WordMachine
