import WordMachine.Environment
import WordMachine.Operation.Standard
import WordMachine.Program

/-!
# The machine

A run goes through a program from a given position with a given stack. A word is resolved **once**:
a word bound to another word pushes that word. A primitive works on a stack of its own, so a failing
step leaves no mark, and a failure reports the position it happened at with the stack as it was
before that step. Run again from there, the program goes on as if it had never stopped.
-/

set_option autoImplicit false

namespace WordMachine

/-- The operations that a host supplies, by handle. -/
abbrev Host := Nat → Stack → Outcome Error Stack

/-- The host without operations. -/
def Host.none : Host := fun _ _ => .aborted .exhausted

/-- What an operation does to a stack. -/
def Operation.perform (host : Host) : Operation → Stack → Outcome Error Stack
  | .standard word _, s => .ofExcept (word.perform s)
  | .hosted handle, s => host handle s

/-- Applies a primitive. An underflow inside it is blamed on it. -/
def Primitive.apply (host : Host) (p : Primitive) (s : Stack) : Outcome Error Stack :=
  (p.operation.perform host s).mapError (Error.blame p.name)

/-- Where and why a run stopped, with the stack before the failing step. -/
structure Failure where
  error : Error
  pc : Nat
  stack : Stack
deriving DecidableEq

/-- What a program runs on: the words it may use, and the host behind its primitives. -/
structure Machine where
  environment : Environment
  host : Host

namespace Machine

/-- What an instruction stands for: a word stands for the value it is bound to, and anything else
for itself. -/
def resolve (m : Machine) : Value → Except Error Value
  | .word symbol => m.environment.lookup symbol
  | v => .ok v

/-- Executes what an instruction stands for: a primitive is applied, anything else is pushed. -/
def execute (m : Machine) (v : Value) (s : Stack) : Outcome Error Stack :=
  match v with
  | .primitive p => p.apply m.host s
  | v => .done (s.push v)

/-- Executes one instruction. -/
def step (m : Machine) (instruction : Value) (s : Stack) : Outcome Error Stack :=
  match m.resolve instruction with
  | .ok v => m.execute v s
  | .error e => .failed e

/-- Executes instructions in order, the first of which is at position `pc`. -/
def runList (m : Machine) : List Value → Nat → Stack → Outcome Failure Stack
  | [], _, s => .done s
  | instruction :: rest, pc, s =>
    match m.step instruction s with
    | .done s' => m.runList rest (pc + 1) s'
    | .failed e => .failed ⟨e, pc, s⟩
    | .aborted r => .aborted r

/-- Runs a program from a position with a stack. From the end, or beyond it, nothing is left to do
and the stack is the result. -/
def run (m : Machine) (p : Program) (pc : Nat) (s : Stack) : Outcome Failure Stack :=
  m.runList (p.instructions.drop pc) pc s

/-! ## Step by step -/

@[simp] theorem runList_nil (m : Machine) (pc : Nat) (s : Stack) :
    m.runList [] pc s = .done s := rfl

theorem runList_cons_of_done {m : Machine} {instruction : Value} {s s' : Stack}
    (h : m.step instruction s = .done s') (rest : List Value) (pc : Nat) :
    m.runList (instruction :: rest) pc s = m.runList rest (pc + 1) s' := by
  rw [runList, h]

theorem runList_cons_of_failed {m : Machine} {instruction : Value} {s : Stack} {e : Error}
    (h : m.step instruction s = .failed e) (rest : List Value) (pc : Nat) :
    m.runList (instruction :: rest) pc s = .failed ⟨e, pc, s⟩ := by
  rw [runList, h]

/-- Running one list after another is running them joined. -/
theorem runList_append (m : Machine) (first second : List Value) (pc : Nat) (s : Stack) :
    m.runList (first ++ second) pc s
      = (m.runList first pc s).bind fun s' => m.runList second (pc + first.length) s' := by
  induction first generalizing pc s with
  | nil => rfl
  | cons instruction rest ih =>
    rw [List.cons_append, runList, runList]
    cases m.step instruction s with
    | done s' =>
      simp only [ih, List.length_cons]
      rw [show pc + 1 + rest.length = pc + (rest.length + 1) by omega]
    | failed e => rfl
    | aborted r => rfl

/-- From the end of a program on, the stack is the result. -/
theorem run_of_size_le {m : Machine} {p : Program} {pc : Nat} (h : p.size ≤ pc) (s : Stack) :
    m.run p pc s = .done s := by
  rw [run, List.drop_eq_nil_of_le h, runList_nil]

end Machine
end WordMachine
