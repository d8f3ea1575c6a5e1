import WordMachine.Machine

/-!
# Programs in sequence

Two programs joined run as one after the other. From a position inside the first, the run is that
of the first alone, and if it is done it goes on at the seam with the stack it left; from a position
inside the second, it is the run of the second alone with **the positions of its failures counted
from the start of the whole**. Both follow from one fact about lists of instructions: the position
that a run counts from shows in its failures and nowhere else (`runList_add`).
-/

set_option autoImplicit false

namespace WordMachine

/-- The same failure in a program that starts some instructions earlier. -/
def Failure.shift (offset : Nat) (f : Failure) : Failure := { f with pc := offset + f.pc }

namespace Machine

theorem runList_add (m : Machine) (instructions : List Value) (offset pc : Nat) (s : Stack) :
    m.runList instructions (offset + pc) s
      = (m.runList instructions pc s).mapError (Failure.shift offset) := by
  induction instructions generalizing pc s with
  | nil => rfl
  | cons instruction rest ih =>
    rw [runList, runList]
    -- only a failure mentions the position, so only that case has a shift to show
    cases m.step instruction s with
    | done s' => exact ih (pc + 1) s'
    | failed e => rfl
    | aborted r => rfl

/-- A run that starts in the first of two programs goes through the seam. -/
theorem run_append_of_le (m : Machine) {first : List Value} {pc : Nat} (h : pc ≤ first.length)
    (second : List Value) (s : Stack) :
    m.run ⟨first ++ second⟩ pc s
      = (m.run ⟨first⟩ pc s).bind fun s' => m.run ⟨first ++ second⟩ first.length s' := by
  have hseam : pc + (first.drop pc).length = first.length := by
    rw [List.length_drop]; omega
  have hsecond : (first ++ second).drop first.length = second := List.drop_left
  simp only [run, List.drop_append_of_le_length h, runList_append, hseam, hsecond]

/-- A run that starts in the second of two programs is a run of the second. -/
theorem run_append_add (m : Machine) (first second : List Value) (j : Nat) (s : Stack) :
    m.run ⟨first ++ second⟩ (first.length + j) s
      = (m.run ⟨second⟩ j s).mapError (Failure.shift first.length) := by
  have hdrop : (first ++ second).drop (first.length + j) = second.drop j :=
    List.drop_length_add_append j
  simp only [run, hdrop]
  exact m.runList_add (second.drop j) first.length j s

/-- **Running is a homomorphism.** The run of two programs joined is the run of the first, then the
run from the seam; past the seam it is the run of the second with shifted failures. So what stands
before the start of a run does not matter beyond its length, and from the end of a program on
nothing happens. -/
theorem run_append_homomorphic (m : Machine) (first second : List Value) (s : Stack) :
    (∀ pc, pc ≤ first.length →
      m.run ⟨first ++ second⟩ pc s
        = (m.run ⟨first⟩ pc s).bind fun s' => m.run ⟨first ++ second⟩ first.length s') ∧
    (∀ j, m.run ⟨first ++ second⟩ (first.length + j) s
      = (m.run ⟨second⟩ j s).mapError (Failure.shift first.length)) ∧
    (∀ other : List Value, other.length = first.length → ∀ j,
      m.run ⟨other ++ second⟩ (first.length + j) s
        = m.run ⟨first ++ second⟩ (first.length + j) s) ∧
    (∀ pc, (first ++ second).length ≤ pc → m.run ⟨first ++ second⟩ pc s = .done s) := by
  refine ⟨?_, ?_, ?_, ?_⟩
  · intro pc h
    exact m.run_append_of_le h second s
  · intro j
    exact m.run_append_add first second j s
  · intro other hlength j
    rw [m.run_append_add first, ← hlength]
    exact m.run_append_add other second j s
  · intro pc h
    exact run_of_size_le h s

/-- A failure beyond the seam: the second program fails at its start, the joined one after the
instruction before it. -/
theorem run_append_homomorphic_beyond_seam :
    (Machine.mk .empty .none).run ⟨[.string []] ++ [.word []]⟩ 1 .empty
      = .failed ⟨.unboundWord [], 1, .empty⟩ ∧
    (Machine.mk .empty .none).run ⟨[.string []] ++ [.word []]⟩ 0 .empty
      = ((Machine.mk .empty .none).run ⟨[.string []]⟩ 0 .empty).bind fun s' =>
          (Machine.mk .empty .none).run ⟨[.string []] ++ [.word []]⟩ 1 s' :=
  ⟨(run_append_homomorphic ⟨.empty, .none⟩ [.string []] [.word []] .empty).2.1 0,
    (run_append_homomorphic ⟨.empty, .none⟩ [.string []] [.word []] .empty).1 0 (by decide)⟩

end Machine
end WordMachine
