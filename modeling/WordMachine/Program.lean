import WordMachine.Value

/-!
# Programs

A program is a flat list of values. Literals are pushed when they are reached, words are looked up,
and primitives are applied; a program can also be read back as data.
-/

set_option autoImplicit false

namespace WordMachine

/-- A list of instructions. -/
structure Program where
  instructions : List Value
deriving DecidableEq

namespace Program

/-- The program without instructions. -/
def empty : Program := ⟨[]⟩

/-- How many instructions a program has. -/
def size (p : Program) : Nat := p.instructions.length

/-- Whether a program has no instructions. -/
def isEmpty (p : Program) : Bool := p.instructions.isEmpty

/-- The instruction at a position. -/
def fetch (p : Program) (pc : Nat) : Except Misuse Value :=
  match p.instructions[pc]? with
  | some v => .ok v
  | none => .error .noSuchInstruction

/-- Programs are compared instruction by instruction. -/
def agrees (p q : Program) : Bool := p.instructions.isEqv q.instructions Value.agrees

theorem fetch_eq_ok_iff {p : Program} {pc : Nat} {v : Value} :
    p.fetch pc = .ok v ↔ p.instructions[pc]? = some v := by
  unfold fetch
  cases p.instructions[pc]? <;> simp

end Program
end WordMachine
