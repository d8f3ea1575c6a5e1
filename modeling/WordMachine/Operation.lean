import WordMachine.Text

/-!
# Operations

What a primitive does when it is applied. There are nine standard words, whose meaning is fixed
(`WordMachine.Operation.Standard`), and operations supplied by the host, known to the machine by a
handle only.

**An operation has an identity.** Every time the standard words are loaded they are made anew, and
two operations made at different times differ even if they do the same. The serial number of a
standard operation, and the handle of a hosted one, is that identity; equality of operations is the
comparison that values use.
-/

set_option autoImplicit false

namespace WordMachine

/-- The words that every program can be given. -/
inductive StandardWord where
  | add
  | subtract
  | multiply
  | divide
  | sqrt
  | dup
  | drop
  | swap
  | over
deriving DecidableEq

/-- The name that a standard word is bound to. -/
def StandardWord.name : StandardWord → Text
  | .add => Text.ofString "+"
  | .subtract => Text.ofString "-"
  | .multiply => Text.ofString "*"
  | .divide => Text.ofString "/"
  | .sqrt => Text.ofString "sqrt"
  | .dup => Text.ofString "dup"
  | .drop => Text.ofString "drop"
  | .swap => Text.ofString "swap"
  | .over => Text.ofString "over"

/-- An operation, by what it does and by when it was made. -/
inductive Operation where
  /-- A standard word, made by the load with this serial number. -/
  | standard (word : StandardWord) (serial : Nat)
  /-- An operation of the host. -/
  | hosted (handle : Nat)
deriving DecidableEq

/-- The standard words have names of their own. -/
theorem StandardWord.name_injective {v w : StandardWord} (h : v.name = w.name) : v = w := by
  revert h
  cases v <;> cases w <;> decide

end WordMachine
