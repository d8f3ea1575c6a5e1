import WordMachine.Machine

/-!
# Traces

An observed run keeps one record for each step it executes: where it was, the program's own
instruction there, and what came of it. **Observation changes nothing** (`observe_snd`): the outcome
is that of the run.

The records are written, one line each, from verbosity two on, and only if there is somewhere to
write them.
-/

set_option autoImplicit false

namespace WordMachine

/-- One step of an observed run. -/
structure TraceRecord where
  /-- The position of the step. -/
  pc : Nat
  /-- The instruction there, before it is looked up. -/
  instruction : Value
  /-- The depth of the stack after the step, or the error that it failed with. -/
  result : Except Error Nat

/-- A record as a line of text: the position in at least four digits, the instruction in at least
sixteen columns, and the result. -/
def TraceRecord.text (r : TraceRecord) : Text :=
  List.leftpad 4 0x30 (Text.ofNat r.pc) ++ Text.ofString "  "
    ++ List.rightpad 16 0x20 r.instruction.text ++ Text.ofString "  "
    ++ (match r.result with
      | .ok depth => Text.ofString "-> depth " ++ Text.ofNat depth
      | .error e => Text.ofString "!! " ++ e.text)
    ++ Text.ofString "\n"

/-- Whether and how much a run is traced. -/
structure Tracing where
  /-- Whether there is somewhere to write the trace. -/
  attached : Bool
  verbosity : UInt32

/-- Whether steps are written. -/
def Tracing.isOn (t : Tracing) : Bool := t.attached ∧ 2 ≤ t.verbosity

namespace Machine

/-- Executes instructions as `runList` does, and puts a record of each step in front of those
`seen` before. -/
def observeList (m : Machine) :
    List Value → Nat → Stack → List TraceRecord → List TraceRecord × Outcome Failure Stack
  | [], _, s, seen => (seen, .done s)
  | instruction :: rest, pc, s, seen =>
    match m.step instruction s with
    | .done s' => m.observeList rest (pc + 1) s' (⟨pc, instruction, .ok s'.depth⟩ :: seen)
    | .failed e => (⟨pc, instruction, .error e⟩ :: seen, .failed ⟨e, pc, s⟩)
    | .aborted r => (seen, .aborted r)

/-- Runs a program from a position with a stack, keeping the records of its steps in order. -/
def observe (m : Machine) (p : Program) (pc : Nat) (s : Stack) :
    List TraceRecord × Outcome Failure Stack :=
  let (seen, outcome) := m.observeList (p.instructions.drop pc) pc s []
  (seen.reverse, outcome)

/-- Runs a program and writes the trace that is asked for. -/
def runTraced (m : Machine) (tracing : Tracing) (p : Program) (pc : Nat) (s : Stack) :
    Text × Outcome Failure Stack :=
  let (records, outcome) := m.observe p pc s
  (if tracing.isOn then records.flatMap TraceRecord.text else [], outcome)

theorem observeList_snd (m : Machine) (instructions : List Value) (pc : Nat) (s : Stack)
    (seen : List TraceRecord) :
    (m.observeList instructions pc s seen).2 = m.runList instructions pc s := by
  induction instructions generalizing pc s seen with
  | nil => rfl
  | cons instruction rest ih =>
    rw [observeList, runList]
    cases m.step instruction s with
    | done s' => exact ih ..
    | failed e => rfl
    | aborted r => rfl

/-- An observed run ends as the run does. -/
theorem observe_snd (m : Machine) (p : Program) (pc : Nat) (s : Stack) :
    (m.observe p pc s).2 = m.run p pc s :=
  m.observeList_snd (p.instructions.drop pc) pc s []

end Machine
end WordMachine
