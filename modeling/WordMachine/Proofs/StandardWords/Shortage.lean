import WordMachine.Proofs.Machine.Resumption
import WordMachine.Proofs.Stack.Printed
import WordMachine.Proofs.StandardWords.Cases

/-!
# What an underflow says

An underflow names two depths, the one asked for and the one there is, and the message determines
both (`Error.Names.unique`). **The depth that is there is that of the stack which was read**, and
what was asked for is more (`underflow_counts_what_is_left`).

For the operations of a stack that is the stack they are used on. A standard word reads a stack of
its own, and by the time it runs short it may have taken an operand off: the arithmetic words and
the swap take theirs one after the other. On a stack of one value they find none left and say so,
while the failure shows the stack as it was handed to them, with that value on it
(`lone_operand_not_counted`). `StandardWord.taken` accounts for the difference.

Depths asked for are machine words as positions are, so there is none below the last position of
all. There too the depth of the stack is named, but it is left open whether what was asked for is
more.
-/

set_option autoImplicit false

namespace WordMachine

theorem Text.ofNat_injective {m n : Nat} (h : ofNat m = ofNat n) : m = n := by
  rw [← toNat_ofNat m, h, toNat_ofNat]

theorem Text.blank_not_mem_ofNat (n : Nat) : (0x20 : UInt8) ∉ ofNat n := by
  intro h
  exact absurd (isDigit_of_mem_ofNat n _ h) (by decide)

/-! ## Reading the depths off a message -/

namespace Error

/-- The message of an error, after what leads up to it, names the depth asked for and the depth
there is. -/
def Names (e : Error) (lead : Text) (requested available : Nat) : Prop :=
  e.message = lead ++ (Text.ofString "requested depth " ++ Text.ofNat requested
    ++ Text.ofString " but stack holds " ++ Text.ofNat available)

theorem names_stackUnderflow (requested available : Nat) :
    (stackUnderflow requested available).Names [] requested available := rfl

theorem Names.unique {e : Error} {lead : Text} {r r' a a' : Nat} (h : e.Names lead r a)
    (h' : e.Names lead r' a') : r = r' ∧ a = a' := by
  have hboth := List.append_cancel_left (h.symm.trans h')
  simp only [List.append_assoc, List.append_cancel_left_eq] at hboth
  -- the first blank ends the depth asked for
  obtain ⟨hr, hrest⟩ := Text.append_cons_inj (Text.blank_not_mem_ofNat r)
    (Text.blank_not_mem_ofNat r') hboth
  have ha := (List.append_cancel_left_eq (Text.ofString "but stack holds ") _ _).mp hrest
  exact ⟨Text.ofNat_injective hr, Text.ofNat_injective ha⟩

end Error

/-! ## Stacks -/

namespace Stack

variable {s : Stack} {e : Error}

theorem names_of_pop (h : s.pop = .error e) : ∃ r, e.Names [] r s.depth ∧ s.depth < r := by
  obtain ⟨hdepth, rfl⟩ := pop_eq_error_iff.mp h
  rw [hdepth]
  exact ⟨1, Error.names_stackUnderflow 1 0, by decide⟩

theorem names_of_peek {i : UInt64} (h : s.peek i = .error e) :
    ∃ r, e.Names [] r s.depth ∧ (i.toNat + 1 < UInt64.size → s.depth < r) := by
  obtain ⟨hle, rfl⟩ := peek_eq_error_iff.mp h
  refine ⟨(i + 1).toNat, Error.names_stackUnderflow _ _, fun hi => ?_⟩
  rw [toNat_add_one hi]
  exact Nat.lt_succ_of_le hle

end Stack

/-! ## Words -/

namespace StandardWord

/-- The words that take two operands off, one after the other. -/
def takesTwo : StandardWord → Bool
  | .add | .subtract | .multiply | .divide | .swap => true
  | .sqrt | .dup | .drop | .over => false

/-- How many operands a word has taken off a stack when it runs short of another. -/
def taken (w : StandardWord) (s : Stack) : Nat := if w.takesTwo ∧ s.depth = 1 then 1 else 0

theorem takesTwo_of_operator {w : StandardWord} (h : w.operator?.isSome) : w.takesTwo := by
  cases w with
  | add | subtract | multiply | divide => rfl
  | sqrt | dup | drop | swap | «over» => cases h

/-- A word that runs short counts what it has left. -/
theorem Performs.underflow {w : StandardWord} {s : Stack} {e : Error}
    (h : w.Performs s (.error e)) (he : e.kind = .stackUnderflow) :
    ∃ r a, e = .stackUnderflow r a ∧ a < r ∧ a + w.taken s = s.depth := by
  cases h with
  | badTop _ _ => cases he
  | badLeft _ _ => cases he
  | empty _ => exact ⟨1, 0, rfl, by decide, by simp [taken]⟩
  | loneRight hw => exact ⟨1, 0, rfl, by decide, by simp [taken, takesTwo_of_operator hw]⟩
  | loneSwap => exact ⟨1, 0, rfl, by decide, by simp [taken, takesTwo]⟩
  | shortOver hs => exact ⟨2, s.depth, rfl, hs, by simp [taken, takesTwo]⟩

end StandardWord

/-- Applied as a primitive, the word says so in its own name. -/
theorem Primitive.arity_of_apply {p : Primitive} {w : StandardWord} {serial : Nat} {host : Host}
    {s : Stack} {e : Error} (hp : p.operation = .standard w serial)
    (h : p.apply host s = .failed e) (he : e.kind = .arityMismatch) :
    e.symbol = p.name ∧ ∃ r a, e.Names (Text.ofString "not enough operands, ") r a ∧ a < r ∧
      a + w.taken s = s.depth := by
  obtain ⟨cause, hcause, rfl⟩ := (apply_eq_failed_iff hp).mp h
  have hkind : cause.kind = .stackUnderflow := by
    rcases hcause.kind_error with hk | hk
    · exact hk
    · -- other errors are passed on, and this one is no arity mismatch
      rw [Error.blame_of_kind_ne (by simp [hk]), hk] at he
      cases he
  obtain ⟨r, a, rfl, hlt, htaken⟩ := hcause.underflow hkind
  rw [Error.blame_of_underflow hkind]
  exact ⟨rfl, r, a, rfl, hlt, htaken⟩

/-- **An underflow counts what is left.** When a stack has nothing to pop, or nothing at a position,
the message names its depth and, except at the last position of all, a greater one as the depth
asked for. When a standard word runs short, by itself or in a run, the message names a depth and a
greater one too; with the operand that the word had taken off before, if there was one, that is the
depth of the stack which it was handed, and which a failed run shows. -/
theorem underflow_counts_what_is_left (s : Stack) :
    (∀ e, s.pop = .error e → ∃ r, e.Names [] r s.depth ∧ s.depth < r) ∧
    (∀ e, s.top = .error e → ∃ r, e.Names [] r s.depth ∧ s.depth < r) ∧
    (∀ i e, s.peek i = .error e →
      ∃ r, e.Names [] r s.depth ∧ (i.toNat + 1 < UInt64.size → s.depth < r)) ∧
    (∀ (p : Primitive) (w : StandardWord) serial host e, p.operation = .standard w serial →
      p.apply host s = .failed e → e.kind = .arityMismatch →
      e.symbol = p.name ∧ ∃ r a, e.Names (Text.ofString "not enough operands, ") r a ∧ a < r ∧
        a + w.taken s = s.depth) ∧
    (∀ (m : Machine) program pc start e k instruction (p : Primitive) (w : StandardWord) serial,
      m.run program pc start = .failed ⟨e, k, s⟩ → program.fetch k = .ok instruction →
      m.Denotes instruction (.primitive p) → p.operation = .standard w serial →
      e.kind = .arityMismatch →
      e.symbol = p.name ∧ ∃ r a, e.Names (Text.ofString "not enough operands, ") r a ∧ a < r ∧
        a + w.taken s = s.depth) := by
  refine ⟨?_, ?_, ?_, ?_, ?_⟩
  · intro e h
    exact Stack.names_of_pop h
  · intro e h
    obtain ⟨r, hnames, hlt⟩ := Stack.names_of_peek (i := 0) h
    exact ⟨r, hnames, hlt (by decide)⟩
  · intro i e h
    exact Stack.names_of_peek h
  · intro p w serial host e hp h he
    exact Primitive.arity_of_apply hp h he
  · intro m program pc start e k instruction p w serial hrun hfetch hd hp he
    obtain ⟨-, -, -, i, hi, hh⟩ := Machine.run_eq_failed_iff.mp hrun
    obtain rfl : i = instruction := Except.ok.inj (hi.symm.trans hfetch)
    -- the step that halted is the application of the primitive
    have happly : p.apply m.host s = .failed e :=
      (Machine.step_of_denotes hd s).symm.trans (Machine.step_eq_failed_iff.mpr hh)
    exact Primitive.arity_of_apply hp happly he

/-- The swap of a lone value, in a run: with the value taken off, the failure adds up. -/
theorem underflow_counts_what_is_left_lone_swap :
    (Machine.mk .standard .none).run ⟨[.string [], .word StandardWord.swap.name]⟩ 0 .empty
      = .failed ⟨.arityMismatch StandardWord.swap.name
          (Text.ofString "not enough operands, " ++ (Error.stackUnderflow 1 0).message),
        1, .ofList [.string []]⟩ ∧
    ∃ r a, Error.Names (.arityMismatch StandardWord.swap.name
          (Text.ofString "not enough operands, " ++ (Error.stackUnderflow 1 0).message))
        (Text.ofString "not enough operands, ") r a ∧ a < r ∧
      a + StandardWord.swap.taken (.ofList [.string []]) = (Stack.ofList [.string []]).depth := by
  have hrun : (Machine.mk .standard .none).run ⟨[.string [], .word StandardWord.swap.name]⟩ 0 .empty
      = .failed ⟨.arityMismatch StandardWord.swap.name
          (Text.ofString "not enough operands, " ++ (Error.stackUnderflow 1 0).message),
        1, .ofList [.string []]⟩ := rfl
  obtain ⟨-, -, -, -, hfailed⟩ := underflow_counts_what_is_left (.ofList [.string []])
  have hd := Environment.find?_standard .swap
  exact ⟨hrun, (hfailed _ _ _ _ _ _ _ _ .swap _ hrun rfl (.bound hd) rfl rfl).2⟩

/-- A word does not count the operand that it has taken off: the sum of a lone number, by itself or
in a run, names another depth than that of the stack which it was handed and which the failure shows.
And below the last position of all no depth can be named, so none that is greater. -/
theorem lone_operand_not_counted :
    (∃ e, (StandardWord.add.primitive 0).apply .none (.ofList [.number (.ofNat 1)]) = .failed e ∧
      e.kind = .arityMismatch ∧
      ¬∃ r, e.Names (Text.ofString "not enough operands, ") r
        (Stack.ofList [.number (.ofNat 1)]).depth) ∧
    (∃ e, (Machine.mk .standard .none).run
        ⟨[.number (.ofNat 1), .word StandardWord.add.name]⟩ 0 .empty
        = .failed ⟨e, 1, .ofList [.number (.ofNat 1)]⟩ ∧
      e.kind = .arityMismatch ∧
      ¬∃ r, e.Names (Text.ofString "not enough operands, ") r
        (Stack.ofList [.number (.ofNat 1)]).depth) ∧
    ∃ e, Stack.empty.peek 0xffffffffffffffff = .error e ∧
      ¬∃ r, e.Names [] r Stack.empty.depth ∧ Stack.empty.depth < r := by
  have hnames : Error.Names (.arityMismatch StandardWord.add.name
      (Text.ofString "not enough operands, " ++ (Error.stackUnderflow 1 0).message))
      (Text.ofString "not enough operands, ") 1 0 := rfl
  have hnot : ¬∃ r, Error.Names (.arityMismatch StandardWord.add.name
      (Text.ofString "not enough operands, " ++ (Error.stackUnderflow 1 0).message))
      (Text.ofString "not enough operands, ") r (Stack.ofList [.number (.ofNat 1)]).depth := by
    rintro ⟨r, h⟩
    exact absurd (hnames.unique h).2 (by decide)
  refine ⟨⟨_, rfl, rfl, hnot⟩, ⟨_, rfl, rfl, hnot⟩, _, rfl, ?_⟩
  rintro ⟨r, h, hlt⟩
  have hzero := (Error.names_stackUnderflow 0 0).unique h
  omega

end WordMachine
