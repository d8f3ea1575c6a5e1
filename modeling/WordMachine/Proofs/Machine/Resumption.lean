import WordMachine.Library
import WordMachine.Proofs.Machine.Steps

/-!
# Where runs fail, and how they go on

A failure names an error, a position and a stack. This file says what those three are: the
instructions before the position succeeded and left that stack, and the instruction at the position
halted on it with that error. The stack is the one *before* the failing step, also where a primitive
had taken values off it before it failed, because a primitive works on a stack of its own.

**So a failure is a place to go on from.** Mend the environment in any way that leaves alone the
words executed so far; the run from the failure, with its stack, is then the run from the start
(`run_eq_run_of_executes`).
-/

set_option autoImplicit false

namespace WordMachine

/-- The instructions of a program from one position up to another, the latter excluded. -/
def Program.segment (p : Program) (pc k : Nat) : List Value :=
  (p.instructions.drop pc).take (k - pc)

theorem Program.segment_append_drop (p : Program) {pc k : Nat} (h : pc ≤ k) :
    p.segment pc k ++ p.instructions.drop k = p.instructions.drop pc := by
  have hk : p.instructions.drop k = (p.instructions.drop pc).drop (k - pc) := by
    rw [List.drop_drop, Nat.add_sub_cancel' h]
  rw [hk]
  exact List.take_append_drop (k - pc) (p.instructions.drop pc)

theorem Program.length_segment (p : Program) {pc k : Nat} (h : k ≤ p.size) :
    (p.segment pc k).length = k - pc := by
  have hsize : p.instructions.length = p.size := rfl
  rw [segment, List.length_take, List.length_drop, hsize]
  omega

/-- The instructions from a position on, split at a later one. -/
theorem Program.segment_of_drop_eq {p : Program} {pc : Nat} {before rest : List Value}
    (h : p.instructions.drop pc = before ++ rest) : p.segment pc (pc + before.length) = before := by
  rw [segment, h, Nat.add_sub_cancel_left]
  exact List.take_left

theorem Program.fetch_of_drop_eq {p : Program} {pc : Nat} {before after : List Value}
    {instruction : Value} (h : p.instructions.drop pc = before ++ instruction :: after) :
    p.fetch (pc + before.length) = .ok instruction := by
  rw [fetch_eq_ok_iff, ← List.getElem?_drop, h, List.getElem?_append_right (Nat.le_refl _),
    Nat.sub_self]
  rfl

theorem Program.lt_size_of_fetch {p : Program} {k : Nat} {instruction : Value}
    (h : p.fetch k = .ok instruction) : k < p.size := by
  obtain ⟨hk, -⟩ := List.getElem?_eq_some_iff.mp (fetch_eq_ok_iff.mp h)
  exact hk

theorem Program.drop_of_fetch {p : Program} {k : Nat} {instruction : Value}
    (h : p.fetch k = .ok instruction) :
    p.instructions.drop k = instruction :: p.instructions.drop (k + 1) := by
  obtain ⟨hk, hi⟩ := List.getElem?_eq_some_iff.mp (fetch_eq_ok_iff.mp h)
  rw [List.drop_eq_getElem_cons hk, hi]

namespace Machine

/-- Where a run of a program fails. -/
theorem run_eq_failed_iff {m : Machine} {p : Program} {pc k : Nat} {s t : Stack} {e : Error} :
    m.run p pc s = .failed ⟨e, k, t⟩ ↔
      pc ≤ k ∧ k < p.size ∧ m.Executes (p.segment pc k) s t ∧
        ∃ instruction, p.fetch k = .ok instruction ∧ m.Halts instruction t e := by
  rw [run, runList_eq_failed_iff]
  constructor
  · rintro ⟨before, instruction, after, hdrop, rfl, hx, hh⟩
    have hfetch := Program.fetch_of_drop_eq hdrop
    refine ⟨Nat.le_add_right _ _, Program.lt_size_of_fetch hfetch, ?_, instruction, hfetch, hh⟩
    rw [Program.segment_of_drop_eq hdrop]
    exact hx
  · rintro ⟨hle, hlt, hx, instruction, hfetch, hh⟩
    refine ⟨p.segment pc k, instruction, p.instructions.drop (k + 1), ?_, ?_, hx, hh⟩
    · rw [← Program.drop_of_fetch hfetch, p.segment_append_drop hle]
    · rw [p.length_segment (Nat.le_of_lt hlt), Nat.add_sub_cancel' hle]

/-- Instructions that succeed can be left out of a run that starts with the stack they leave. -/
theorem run_eq_run_of_executes {m : Machine} {p : Program} {pc k : Nat} {s t : Stack}
    (hle : pc ≤ k) (hk : k ≤ p.size) (hx : m.Executes (p.segment pc k) s t) :
    m.run p pc s = m.run p k t := by
  rw [run, ← p.segment_append_drop hle, runList_append, runList_eq_done_iff.mpr hx]
  -- what is left starts where the segment ends, which is at `k` because `k` is inside the program
  change m.runList (p.instructions.drop k) (pc + (p.segment pc k).length) t = _
  rw [p.length_segment hk, Nat.add_sub_cancel' hle, run]

/-- **Failures are exact, and runs resume from them.** A run fails with an error at a position with
a stack if and only if the instructions from its start to that position succeed and leave that
stack, and the instruction there halts on it with that error. If it does, then in every environment
that agrees on the words before the position, running from the failure is running from the
start. -/
theorem failure_exact_and_resumable (m : Machine) (p : Program) (pc k : Nat) (s t : Stack)
    (e : Error) :
    (m.run p pc s = .failed ⟨e, k, t⟩ ↔
      pc ≤ k ∧ k < p.size ∧ m.Executes (p.segment pc k) s t ∧
        ∃ instruction, p.fetch k = .ok instruction ∧ m.Halts instruction t e) ∧
    (m.run p pc s = .failed ⟨e, k, t⟩ →
      ∀ mended : Environment, AgreeOn (p.segment pc k) m.environment mended →
        (Machine.mk mended m.host).run p pc s = (Machine.mk mended m.host).run p k t) := by
  refine ⟨run_eq_failed_iff, fun h mended hagree => ?_⟩
  obtain ⟨hle, hlt, hx, -⟩ := run_eq_failed_iff.mp h
  exact run_eq_run_of_executes hle (Nat.le_of_lt hlt) (hx.congr hagree)

/-- A text is doubled and the sum refused, with both copies still on the stack. Once the sum is
bound to a text, the run goes on from there as from the start. -/
theorem failure_exact_and_resumable_doubled_text :
    (Machine.mk .standard .none).run
        ⟨[.word StandardWord.dup.name, .word StandardWord.add.name]⟩ 0 (.ofList [.string []])
      = .failed ⟨.typeMismatch StandardWord.add.name (Text.ofString "expected number, got string"),
          1, .ofList [.string [], .string []]⟩ ∧
    (Machine.mk (Environment.standard.define StandardWord.add.name (.string [])) .none).run
        ⟨[.word StandardWord.dup.name, .word StandardWord.add.name]⟩ 0 (.ofList [.string []])
      = (Machine.mk (Environment.standard.define StandardWord.add.name (.string [])) .none).run
        ⟨[.word StandardWord.dup.name, .word StandardWord.add.name]⟩ 1
        (.ofList [.string [], .string []]) := by
  have h : (Machine.mk .standard .none).run
        ⟨[.word StandardWord.dup.name, .word StandardWord.add.name]⟩ 0 (.ofList [.string []])
      = .failed ⟨.typeMismatch StandardWord.add.name (Text.ofString "expected number, got string"),
          1, .ofList [.string [], .string []]⟩ := rfl
  refine ⟨h, (failure_exact_and_resumable ⟨.standard, .none⟩ _ 0 1 _ _ _).2 h _ ?_⟩
  intro symbol hmem
  have hsymbol : symbol = StandardWord.dup.name := by simpa [Program.segment] using hmem
  rw [hsymbol]
  rfl

end Machine
end WordMachine
