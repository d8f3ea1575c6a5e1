import WordMachine.CommandLine.Options
import WordMachine.Library
import WordMachine.Log
import WordMachine.Machine.Trace

/-!
# Running a command

A command with a complaint prints how it is used and ends with status one; a command that asks for
the list of demos prints it; any other runs its demo on the standard words and shows the top of the
resulting stack. What the command says while it works goes to the second channel.
-/

set_option autoImplicit false

namespace WordMachine

/-- What a command writes, and the status it ends with. -/
structure Reply where
  status : UInt32
  output : Text
  messages : Text
deriving DecidableEq

/-- What would keep a command from running its demo. -/
inductive Fault where
  | unknownDemo
  | missingNumbers
  | aborted (reason : Abort)
deriving DecidableEq

namespace CommandLine

/-- How the command is used. -/
def usage : Text :=
  Text.ofString "Usage:\n"
    ++ Text.ofString "\tslang [<options> ...] <program> [<args> ...]\n"
    ++ Text.ofString "\n"
    ++ Text.ofString "Options:\n"
    ++ Text.ofString "\t-V          verbose output. use twice to trace every step\n"
    ++ Text.ofString "\t-n <count>  number of stack items shown, top first (default 20)\n"
    ++ Text.ofString "\t-l          list the available programs\n"

/-- The list of demos, one to a line. -/
def listing : Text :=
  Demo.all.flatMap fun d =>
    Text.ofString "\t" ++ List.rightpad 10 0x20 d.name ++ Text.ofString " "
      ++ Text.ofNat d.parameterCount ++ Text.ofString " args  " ++ d.description
      ++ Text.ofString "\n"

/-- What is said before a demo runs. -/
def announcement (logger : Logger) (program : Text) : Text :=
  logger.info (logMessage (Text.ofString "loading standard library...") none)
    ++ logger.info (logMessage (Text.ofString "building program `%s'...") (some program))
    ++ logger.info (logMessage (Text.ofString "interpreting...") none)

/-- Runs the demo that the options name. -/
def runDemo (o : Options) : Except Fault Reply :=
  match Demo.find? o.program with
  | none => .error .unknownDemo
  | some demo =>
    match demo.program? o.numbers with
    | none => .error .missingNumbers
    | some program =>
      let logger : Logger := ⟨Text.ofString "RUNTIME", o.verbosity⟩
      let machine : Machine := ⟨.standard, .none⟩
      let (trace, outcome) := machine.runTraced ⟨true, o.verbosity⟩ program 0 .empty
      let said := announcement logger o.program ++ trace
      match outcome with
      | .done s => .ok ⟨0, s.display o.showCount, said⟩
      | .failed f => .ok ⟨1, [], said ++ logger.failure f⟩
      | .aborted reason => .error (.aborted reason)

/-- Runs a command of the given name with its arguments. -/
def execute (command : Text) (arguments : List Text) : Except Fault Reply :=
  match Options.parse arguments with
  | (_, some complaint) => .ok ⟨1, usage, complaint.text command⟩
  | (o, none) => if o.list then .ok ⟨0, listing, []⟩ else runDemo o

end CommandLine
end WordMachine
