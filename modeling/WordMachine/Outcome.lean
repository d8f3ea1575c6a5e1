import WordMachine.Text

/-!
# Outcomes

A computation of the machine ends in one of three ways: it is **done**, it has **failed** with an
error that programs are expected to meet, or it was **aborted** because the host misused a value.
Failures are reported and can be recovered from; an abort ends the whole computation.
-/

set_option autoImplicit false

namespace WordMachine

/-- A wrong use of the machine by its host. -/
inductive Misuse where
  /-- A value was taken for one of another tag. -/
  | wrongTag
  /-- A program has no instruction at that position. -/
  | noSuchInstruction
  /-- A primitive was to be made without an operation. -/
  | missingOperation (name : Text)
deriving DecidableEq

/-- The explanation that comes with a misuse, if any. -/
def Misuse.message : Misuse → Text
  | .missingOperation name =>
    Text.ofString "primitive `" ++ name ++ Text.ofString "' has no operation"
  | .wrongTag | .noSuchInstruction => []

/-- Why a computation was given up. -/
inductive Abort where
  /-- The host misused a value. -/
  | misuse (cause : Misuse)
  /-- Hosted operations were nested deeper than the host allows. -/
  | exhausted
deriving DecidableEq

/-- How a computation ends. -/
inductive Outcome (ε α : Type) where
  | done (result : α)
  | failed (error : ε)
  | aborted (reason : Abort)
deriving DecidableEq

namespace Outcome

variable {ε ε' α β : Type}

/-- Goes on with a result; a failure or an abort stays. -/
def bind (o : Outcome ε α) (f : α → Outcome ε β) : Outcome ε β :=
  match o with
  | .done a => f a
  | .failed e => .failed e
  | .aborted r => .aborted r

instance : Monad (Outcome ε) where
  pure := .done
  bind := bind

/-- The same outcome with another description of a failure. -/
def mapError (f : ε → ε') : Outcome ε α → Outcome ε' α
  | .done a => .done a
  | .failed e => .failed (f e)
  | .aborted r => .aborted r

/-- A computation that cannot be aborted. -/
def ofExcept : Except ε α → Outcome ε α
  | .ok a => .done a
  | .error e => .failed e

/-- A use of a value that aborts if it is a misuse. -/
def ofUse : Except Misuse α → Outcome ε α
  | .ok a => .done a
  | .error m => .aborted (.misuse m)

@[simp] theorem done_bind (a : α) (f : α → Outcome ε β) : (Outcome.done a >>= f) = f a := rfl

@[simp] theorem failed_bind (e : ε) (f : α → Outcome ε β) :
    ((Outcome.failed e : Outcome ε α) >>= f) = .failed e := rfl

@[simp] theorem aborted_bind (r : Abort) (f : α → Outcome ε β) :
    ((Outcome.aborted r : Outcome ε α) >>= f) = .aborted r := rfl

@[simp] theorem pure_eq_done (a : α) : (pure a : Outcome ε α) = .done a := rfl

theorem mapError_eq_failed_iff {o : Outcome ε α} {f : ε → ε'} {e' : ε'} :
    o.mapError f = .failed e' ↔ ∃ e, o = .failed e ∧ f e = e' := by
  cases o <;> simp [mapError]

end Outcome
end WordMachine
