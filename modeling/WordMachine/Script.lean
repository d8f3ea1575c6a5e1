import WordMachine.Machine

/-!
# Hosted operations

An operation of the host is a script: a list of small actions carried out in order on the stack
that the operation is given, until one fails. A script may apply primitives and run programs, which
may be made of scripts in turn; `World` says which environments, programs and scripts there are.

**Nesting is bounded by an explicit allowance.** A script that runs a program that applies the same
script need not come to an end, so a host counts down one level for each script inside another and
gives up at zero.
-/

set_option autoImplicit false

namespace WordMachine

/-- One action of a script. -/
inductive Action where
  /-- Drops the top value. -/
  | pop
  /-- Pushes a copy of the top value. -/
  | top
  /-- Pushes a copy of the value at a position. -/
  | peek (i : UInt64)
  /-- Pushes a value. -/
  | push (value : Value)
  /-- Pushes the depth, as a number. -/
  | depth
  /-- Drops everything. -/
  | clear
  /-- Replaces the number on top by its half; any other value is a misuse. -/
  | halve
  /-- Fails. -/
  | fail (error : Error)
  /-- Applies a primitive; any other value is a misuse. -/
  | apply (value : Value)
  /-- Runs a program in an environment, both by name, from its start. -/
  | run (environment program : Text)
deriving DecidableEq

/-- A list of actions. -/
abbrev Script := List Action

/-- What scripts can refer to. -/
structure World where
  environments : Text → Environment
  programs : Text → Program
  scripts : Nat → Script

namespace World

/-- Carries out one action; primitives and programs that it calls are left to `host`. -/
def act (w : World) (host : Host) (action : Action) (s : Stack) : Outcome Error Stack :=
  match action with
  | .pop => .ofExcept (s.pop.map (·.2))
  | .top => .ofExcept (s.top.map s.push)
  | .peek i => .ofExcept ((s.peek i).map s.push)
  | .push v => .done (s.push v)
  | .depth => .done (s.push (.number (Binary64.ofNat s.depth)))
  | .clear => .done .empty
  | .halve => do
    let (v, rest) ← .ofExcept s.pop
    let x ← .ofUse v.asNumber
    return rest.push (.number (x.div (Binary64.ofNat 2)))
  | .fail e => .failed e
  | .apply v => do
    let p ← .ofUse v.asPrimitive
    p.apply host s
  | .run environment program =>
    ((Machine.mk (w.environments environment) host).run (w.programs program) 0 s).mapError
      Failure.error

/-- Carries out the actions of a script in order. -/
def perform (w : World) (host : Host) : Script → Stack → Outcome Error Stack
  | [], s => .done s
  | action :: rest, s => (w.act host action s).bind (w.perform host rest)

/-- The host of a world, for scripts nested up to the given allowance. -/
def host (w : World) : Nat → Host
  | 0, _, _ => .aborted .exhausted
  | allowance + 1, handle, s => w.perform (w.host allowance) (w.scripts handle) s

/-- The machine that runs programs of a world in an environment. -/
def machine (w : World) (allowance : Nat) (e : Environment) : Machine := ⟨e, w.host allowance⟩

end World
end WordMachine
