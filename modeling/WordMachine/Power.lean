/-!
# Powers

Powers of naturals, and the two facts about them that scaling a magnitude rests on.
-/

set_option autoImplicit false

namespace WordMachine

/-- A base to a power. -/
def power (base exponent : Nat) : Nat := Nat.pow base exponent

@[simp] theorem power_zero (base : Nat) : power base 0 = 1 := rfl

theorem power_succ (base exponent : Nat) : power base (exponent + 1) = power base exponent * base :=
  rfl

theorem power_pos {base : Nat} (h : 0 < base) (exponent : Nat) : 0 < power base exponent :=
  Nat.pow_pos h

theorem power_add (base a b : Nat) : power base (a + b) = power base a * power base b :=
  Nat.pow_add base a b

end WordMachine
