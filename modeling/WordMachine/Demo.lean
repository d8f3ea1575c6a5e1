import WordMachine.Program

/-!
# Demos

The programs that the command line can run by name: the sum of one and two, and the distance
between two points, `√((x₁ - x₂)² + (y₁ - y₂)²)`.
-/

set_option autoImplicit false

namespace WordMachine

/-- A program with a name. -/
inductive Demo where
  | smoke
  | distance
deriving DecidableEq

namespace Demo

/-- All demos, in the order in which they are listed. -/
def all : List Demo := [.smoke, .distance]

/-- The name by which a demo is called. -/
def name : Demo → Text
  | .smoke => Text.ofString "smoke"
  | .distance => Text.ofString "distance"

/-- What a demo does, in words. -/
def description : Demo → Text
  | .smoke => Text.ofString "adds 1 and 2"
  | .distance => Text.ofString "distance between (x1, y1) and (x2, y2)"

/-- How many numbers a demo takes. -/
def parameterCount : Demo → Nat
  | .smoke => 0
  | .distance => 4

/-- The demo of a name. -/
def find? (name : Text) : Option Demo := all.find? (·.name == name)

/-- `1 2 +` -/
def smokeProgram : Program :=
  ⟨[.number (Binary64.ofNat 1), .number (Binary64.ofNat 2), .word StandardWord.add.name]⟩

/-- The difference of two numbers, squared. -/
def squaredDifference (a b : Binary64) : List Value :=
  [.number a, .number b, .word StandardWord.subtract.name, .word StandardWord.dup.name,
    .word StandardWord.multiply.name]

/-- The distance between two points. -/
def distanceProgram (x₁ y₁ x₂ y₂ : Binary64) : Program :=
  ⟨squaredDifference x₁ x₂ ++ squaredDifference y₁ y₂
    ++ [.word StandardWord.add.name, .word StandardWord.sqrt.name]⟩

/-- The program of a demo for given numbers, of which those in excess are ignored; there is none if
some are missing. -/
def program? : Demo → List Binary64 → Option Program
  | .smoke, _ => some smokeProgram
  | .distance, x₁ :: y₁ :: x₂ :: y₂ :: _ => some (distanceProgram x₁ y₁ x₂ y₂)
  | .distance, _ => none

/-- A demo is found under its name, and under no other. -/
theorem find?_eq_some_iff {name : Text} {d : Demo} : find? name = some d ↔ d.name = name := by
  constructor
  · intro h
    simpa using List.find?_some h
  · rintro rfl
    cases d <;> decide

end Demo
end WordMachine
