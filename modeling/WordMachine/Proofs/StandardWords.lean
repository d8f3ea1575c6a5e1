import WordMachine.Library
import WordMachine.Proofs.Machine.Steps

/-!
# Standard words that succeed

What the words of the demos do to a stack that has their operands on top, and what this says about
the steps of a machine with the standard environment. A stack is written by the pushes that lead to
it, so each word is one equation: operands in, result out, and **whatever lies below is not
mentioned on either side but by name**.
-/

set_option autoImplicit false

namespace WordMachine

namespace StandardWord

theorem popNumber_push (w : StandardWord) (s : Stack) (x : Binary64) :
    w.popNumber (s.push (.number x)) = .ok (x, s) := by
  rw [popNumber, Stack.pop_push]
  rfl

/-- Two numbers become one; the top is the right operand. -/
theorem binary_push_push (w : StandardWord) (op : Binary64 → Binary64 → Binary64) (s : Stack)
    (x y : Binary64) :
    w.binary op ((s.push (.number x)).push (.number y)) = .ok (s.push (.number (op x y))) := by
  rw [binary, popNumber_push]
  change (w.popNumber (s.push (.number x)) >>= _) = _
  rw [popNumber_push]
  rfl

theorem unary_push (w : StandardWord) (op : Binary64 → Binary64) (s : Stack) (x : Binary64) :
    w.unary op (s.push (.number x)) = .ok (s.push (.number (op x))) := by
  rw [unary, popNumber_push]
  rfl

theorem perform_dup_push (s : Stack) (v : Value) :
    StandardWord.dup.perform (s.push v) = .ok ((s.push v).push v) := by
  change ((s.push v).top >>= _) = _
  rw [Stack.top_push]
  rfl

/-- The load of the standard library that makes a word. -/
def batch : StandardWord → Nat
  | .add | .subtract | .multiply | .divide => 0
  | .sqrt => 1
  | .dup | .drop | .swap | .over => 2

end StandardWord

/-- Every standard word is bound in the standard environment, to a primitive of its own. -/
theorem Environment.find?_standard (w : StandardWord) :
    Environment.standard.find? w.name = some (.primitive (w.primitive w.batch)) := by
  cases w <;> rfl

theorem StandardWord.apply_primitive {w : StandardWord} {s s' : Stack} (h : w.perform s = .ok s')
    (serial : Nat) (host : Host) : (w.primitive serial).apply host s = .done s' := by
  change (Outcome.ofExcept (w.perform s)).mapError _ = _
  rw [h]
  rfl

namespace Machine

theorem advances_number (m : Machine) (x : Binary64) (s : Stack) :
    m.Advances (.number x) s (s.push (.number x)) :=
  .push (.literal (by simp [Value.tag])) (by simp [Value.tag])

/-- With the standard environment, the name of a word performs it. -/
theorem advances_standard {host : Host} {w : StandardWord} {s s' : Stack}
    (h : w.perform s = .ok s') : Advances ⟨.standard, host⟩ (.word w.name) s s' :=
  .apply (.bound (Environment.find?_standard w)) (StandardWord.apply_primitive h _ _)

end Machine
end WordMachine
