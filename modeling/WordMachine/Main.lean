import WordMachine.CommandLine.Execute

/-!
# The command

Hands the arguments to `CommandLine.execute` and writes what it replies.
-/

set_option autoImplicit false

open WordMachine

/-- The bytes of a text. -/
def WordMachine.Text.toBytes (t : Text) : ByteArray := ⟨t.toArray⟩

/-- Runs the command and writes its reply. -/
def main (arguments : List String) : IO UInt32 := do
  match CommandLine.execute (Text.ofString "slang") (arguments.map Text.ofString) with
  | .ok reply =>
    (← IO.getStderr).write (Text.toBytes reply.messages)
    (← IO.getStdout).write (Text.toBytes reply.output)
    return reply.status
  | .error _ =>
    IO.eprintln "the command could not be run"
    return 2
