import WordMachine.Display
import WordMachine.Machine
import WordMachine.Text.Template

/-!
# Log messages

Messages for the person at the terminal: information, which is kept back at verbosity zero, and
errors, which are always written and name the domain they come from. Both are coloured. Like the
display of a stack, a message ends at the first NUL of any text it quotes.
-/

set_option autoImplicit false

namespace WordMachine

/-- Who logs, and how much of it is written. -/
structure Logger where
  domain : Text
  verbosity : UInt32

/-- A message: a plain text, or a template whose holes an argument fills. -/
def logMessage (format : Text) (argument : Option Text) : Text :=
  match argument with
  | none => format.upToNul
  | some a => Text.fill a.upToNul format.upToNul

namespace Logger

/-- A line of information. -/
def info (l : Logger) (message : Text) : Text :=
  if l.verbosity < 1 then []
  else Text.ofString "\x1b[33mINFO\x1b[0m: " ++ message ++ Text.ofString "\n"

/-- A line about an error. -/
def error (l : Logger) (message : Text) : Text :=
  Text.ofString "\x1b[1m\x1b[31m" ++ l.domain.upToNul ++ Text.ofString " ERROR\x1b[0m: "
    ++ message ++ Text.ofString "\n"

/-- The column before a listed value, with its position. -/
def column (position : Nat) : Text :=
  Text.ofString " " ++ List.leftpad 3 0x20 (Text.ofNat position) ++ Text.ofString " | "

/-- A value of a stack that is listed with its position from the top. -/
def itemLine (position : Nat) (v : Value) : Text := column position ++ v.line

/-- The values of a stack, all of them, on a line each. -/
def itemLines (s : Stack) : List Text := s.entries itemLine 0 s.depth

/-- The stack that a run left behind. -/
def stackLines (s : Stack) : Text :=
  if s.isEmpty then Text.ofString "     | <empty stack>\n"
  else Text.ofString "     | stack, top first:\n" ++ (itemLines s).flatten

/-- The report of a failed run. -/
def failure (l : Logger) (f : Failure) : Text :=
  l.error (f.error.text.upToNul ++ Text.ofString " at pc " ++ Text.ofNat f.pc)
    ++ stackLines f.stack

end Logger
end WordMachine
