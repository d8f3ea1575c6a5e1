import WordMachine.Binary64.Arithmetic
import WordMachine.Stack

/-!
# The standard words

What the nine standard words do to a stack. An arithmetic word takes its right operand off the top
first and checks it before it looks at the left one, so **with two faults at once the top decides**:
a string on top is a type mismatch even if nothing lies below it.

The stack words move values of any kind.
-/

set_option autoImplicit false

namespace WordMachine
namespace StandardWord

/-- Takes a number off the stack for a word. -/
def popNumber (w : StandardWord) (s : Stack) : Except Error (Binary64 × Stack) := do
  let (v, rest) ← s.pop
  match v with
  | .number x => return (x, rest)
  | other => throw (.typeMismatch w.name (Text.ofString "expected number, got " ++ other.tag.name))

/-- Replaces two numbers by one, the top being the right operand. -/
def binary (w : StandardWord) (op : Binary64 → Binary64 → Binary64) (s : Stack) :
    Except Error Stack := do
  let (y, s) ← w.popNumber s
  let (x, s) ← w.popNumber s
  return s.push (.number (op x y))

/-- Replaces a number by another. -/
def unary (w : StandardWord) (op : Binary64 → Binary64) (s : Stack) : Except Error Stack := do
  let (x, s) ← w.popNumber s
  return s.push (.number (op x))

/-- What a standard word does to a stack. -/
def perform (w : StandardWord) (s : Stack) : Except Error Stack :=
  match w with
  | .add => w.binary Binary64.add s
  | .subtract => w.binary Binary64.sub s
  | .multiply => w.binary Binary64.mul s
  | .divide => w.binary Binary64.div s
  | .sqrt => w.unary Binary64.sqrt s
  | .dup => do
    let v ← s.top
    return s.push v
  | .drop => do
    let (_, s) ← s.pop
    return s
  | .swap => do
    let (y, s) ← s.pop
    let (x, s) ← s.pop
    return (s.push y).push x
  | .over => do
    let v ← s.peek 1
    return s.push v

end StandardWord
end WordMachine
