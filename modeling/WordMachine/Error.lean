import WordMachine.Text

/-!
# Errors

What programs are expected to meet: a stack that is too short, a word without a binding, and a
primitive with too few operands or with one of the wrong kind.

**An underflow is somebody's fault.** When it happens inside a primitive it is reported as an arity
mismatch of that primitive (`Error.blame`), once; every other error is passed on unchanged.
-/

set_option autoImplicit false

namespace WordMachine

/-- The causes of failure. -/
inductive Error.Kind where
  | stackUnderflow
  | unboundWord
  | arityMismatch
  | typeMismatch
deriving DecidableEq

/-- A failure: its cause, the word or primitive concerned, and an explanation. -/
structure Error where
  kind : Error.Kind
  symbol : Text := []
  message : Text := []
deriving DecidableEq

namespace Error

/-- The name of a cause. -/
def Kind.name : Kind → Text
  | .stackUnderflow => Text.ofString "StackUnderflow"
  | .unboundWord => Text.ofString "UnboundWord"
  | .arityMismatch => Text.ofString "ArityMismatch"
  | .typeMismatch => Text.ofString "TypeMismatch"

/-- A stack was read at a depth that it does not have. -/
def stackUnderflow (requested available : Nat) : Error where
  kind := .stackUnderflow
  message := Text.ofString "requested depth " ++ Text.ofNat requested
    ++ Text.ofString " but stack holds " ++ Text.ofNat available

/-- A word has no binding. -/
def unboundWord (symbol : Text) : Error where
  kind := .unboundWord
  symbol := symbol
  message := Text.ofString "word `" ++ symbol ++ Text.ofString "' is not defined"

/-- A primitive was given too few operands. -/
def arityMismatch (primitive message : Text) : Error := ⟨.arityMismatch, primitive, message⟩

/-- A primitive was given an operand of the wrong kind. -/
def typeMismatch (primitive message : Text) : Error := ⟨.typeMismatch, primitive, message⟩

/-- An error as text: the cause, then the symbol and the message if there are any. -/
def text (e : Error) : Text :=
  e.kind.name
    ++ (if e.symbol = [] then [] else Text.ofString "(" ++ e.symbol ++ Text.ofString ")")
    ++ (if e.message = [] then [] else Text.ofString ": " ++ e.message)

/-- Errors are compared by cause and symbol; the message does not count. -/
def agrees (a b : Error) : Bool := a.kind = b.kind ∧ a.symbol = b.symbol

/-- An underflow inside a primitive is an arity mismatch of that primitive; any other error is left
as it is. -/
def blame (primitive : Text) (e : Error) : Error :=
  if e.kind = .stackUnderflow then
    arityMismatch primitive (Text.ofString "not enough operands, " ++ e.message)
  else e

theorem blame_of_underflow {e : Error} (h : e.kind = .stackUnderflow) (primitive : Text) :
    e.blame primitive
      = arityMismatch primitive (Text.ofString "not enough operands, " ++ e.message) :=
  if_pos h

theorem blame_of_kind_ne {e : Error} (h : e.kind ≠ .stackUnderflow) (primitive : Text) :
    e.blame primitive = e :=
  if_neg h

end Error

end WordMachine
