import WordMachine.Machine.Trace
import WordMachine.Proofs.Machine.Resumption

/-!
# Traces tell what happened

A trace is written while a program runs, from three places of the loop: after a step, after a word
without a binding, and after a primitive that failed. Here the lines are described from outside, by
runs alone. `Line` says what stands for one position: the depth of the stack that the program leaves
when it is run **up to that position and no further**, or, where the run as a whole failed, its
error. `IsTrace` says which positions have a line: those from the start on, one after another, up to
the end of the program, up to the failure, or up to a step that was given up.

The text is exactly the lines of such a trace, one after the other (`runTraced_faithful`), and
whether it is written or not makes no difference to the outcome.
-/

set_option autoImplicit false

namespace WordMachine

/-- A line of a trace: the position in at least four digits, the instruction in at least sixteen
columns, and what came of it. -/
def traceLine (pc : Nat) (instruction : Value) (result : Text) : Text :=
  List.leftpad 4 0x30 (Text.ofNat pc) ++ Text.ofString "  "
    ++ List.rightpad 16 0x20 instruction.text ++ Text.ofString "  " ++ result
    ++ Text.ofString "\n"

theorem Tracing.isOn_iff (tracing : Tracing) :
    tracing.isOn = true ↔ tracing.attached = true ∧ 2 ≤ tracing.verbosity := by
  simp [isOn]

theorem Program.segment_succ {p : Program} {pc j : Nat} {instruction : Value}
    (h : p.fetch j = .ok instruction) (hle : pc ≤ j) :
    p.segment pc (j + 1) = p.segment pc j ++ [instruction] := by
  have hget : (p.instructions.drop pc)[j - pc]? = some instruction := by
    rw [List.getElem?_drop, Nat.add_sub_cancel' hle]
    exact fetch_eq_ok_iff.mp h
  rw [segment, segment, Nat.sub_add_comm hle, List.take_add_one, hget]
  rfl

namespace Machine

/-- What stands in the trace of a run, from `pc` with `s`, for the position `j`. -/
inductive Line (m : Machine) (p : Program) (pc : Nat) (s : Stack) : Nat → Text → Prop
  | advanced {j : Nat} {instruction : Value} {t : Stack} :
      p.fetch j = .ok instruction → m.run ⟨p.segment pc (j + 1)⟩ 0 s = .done t →
      Line m p pc s j (traceLine j instruction (Text.ofString "-> depth " ++ Text.ofNat t.depth))
  | failed {j : Nat} {instruction : Value} {t : Stack} {e : Error} :
      p.fetch j = .ok instruction → m.run p pc s = .failed ⟨e, j, t⟩ →
      Line m p pc s j (traceLine j instruction (Text.ofString "!! " ++ e.text))

/-- Lines for the positions from `j` on, as many as the run takes. -/
structure IsTrace (m : Machine) (p : Program) (pc : Nat) (s : Stack) (j : Nat)
    (lines : List Text) : Prop where
  line : ∀ i line, lines[i]? = some line → m.Line p pc s (j + i) line
  done : ∀ t, m.run p pc s = .done t → lines.length = p.size - j
  failed : ∀ f, m.run p pc s = .failed f → j + lines.length = f.pc + 1
  aborted : ∀ r, m.run p pc s = .aborted r → ∃ t instruction,
    m.run ⟨p.segment pc (j + lines.length)⟩ 0 s = .done t ∧
      p.fetch (j + lines.length) = .ok instruction ∧ m.step instruction t = .aborted r

variable {m : Machine} {p : Program} {pc j : Nat} {s t : Stack}

theorem run_segment_eq_done_iff {k : Nat} :
    m.run ⟨p.segment pc k⟩ 0 s = .done t ↔ m.Executes (p.segment pc k) s t :=
  runList_eq_done_iff

/-! ## A position has one line -/

/-- The run up to a failure, with the failing step, fails. -/
theorem run_segment_ne_done {e : Error} (h : m.run p pc s = .failed ⟨e, j, t⟩) (u : Stack) :
    m.run ⟨p.segment pc (j + 1)⟩ 0 s ≠ .done u := by
  obtain ⟨hle, -, hx, instruction, hfetch, hh⟩ := run_eq_failed_iff.mp h
  have hfail : m.runList (p.segment pc (j + 1)) 0 s = .failed ⟨e, 0 + (p.segment pc j).length, t⟩ :=
    runList_eq_failed_iff.mpr
      ⟨p.segment pc j, instruction, [], Program.segment_succ hfetch hle, rfl, hx, hh⟩
  intro hdone
  cases hfail.symm.trans hdone

theorem Line.unique {a b : Text} (ha : m.Line p pc s j a) (hb : m.Line p pc s j b) : a = b := by
  cases ha with
  | advanced hf hr =>
    cases hb with
    | advanced hf' hr' =>
      cases hf.symm.trans hf'
      cases hr.symm.trans hr'
      rfl
    | failed _ hr' => exact absurd hr (run_segment_ne_done hr' _)
  | failed hf hr =>
    cases hb with
    | advanced _ hr' => exact absurd hr' (run_segment_ne_done hr _)
    | failed hf' hr' =>
      cases hf.symm.trans hf'
      cases hr.symm.trans hr'
      rfl

/-! ## Building a trace from its end

A trace ends where the run does, in one of three ways, and grows by a line towards the start. -/

theorem isTrace_of_done (hrun : m.run p pc s = .done t) (hsize : p.size ≤ j) :
    m.IsTrace p pc s j [] := by
  refine ⟨fun i line h => ?_, fun u _ => ?_, fun f h => ?_, fun r h => ?_⟩
  · cases h
  · rw [List.length_nil]; omega
  · cases hrun.symm.trans h
  · cases hrun.symm.trans h

theorem isTrace_of_failed {instruction : Value} {e : Error}
    (hrun : m.run p pc s = .failed ⟨e, j, t⟩) (hfetch : p.fetch j = .ok instruction) :
    m.IsTrace p pc s j [traceLine j instruction (Text.ofString "!! " ++ e.text)] := by
  refine ⟨fun i line h => ?_, fun u h => ?_, fun f h => ?_, fun r h => ?_⟩
  · cases i with
    | zero => cases h; exact .failed hfetch hrun
    | succ i => cases h
  · cases hrun.symm.trans h
  · cases hrun.symm.trans h; rfl
  · cases hrun.symm.trans h

theorem isTrace_of_aborted {instruction : Value} {r : Abort} (hrun : m.run p pc s = .aborted r)
    (hx : m.Executes (p.segment pc j) s t) (hfetch : p.fetch j = .ok instruction)
    (hs : m.step instruction t = .aborted r) : m.IsTrace p pc s j [] := by
  refine ⟨fun i line h => ?_, fun u h => ?_, fun f h => ?_, fun r' h => ?_⟩
  · cases h
  · cases hrun.symm.trans h
  · cases hrun.symm.trans h
  · cases hrun.symm.trans h
    exact ⟨t, instruction, run_segment_eq_done_iff.mpr hx, hfetch, hs⟩

theorem IsTrace.cons {line : Text} {lines : List Text} (hline : m.Line p pc s j line)
    (h : m.IsTrace p pc s (j + 1) lines) : m.IsTrace p pc s j (line :: lines) := by
  have hlength : j + (line :: lines).length = j + 1 + lines.length := by
    rw [List.length_cons]; omega
  have hj : j < p.size := by
    cases hline with
    | advanced hf _ => exact Program.lt_size_of_fetch hf
    | failed hf _ => exact Program.lt_size_of_fetch hf
  refine ⟨fun i l hl => ?_, fun t hr => ?_, fun f hr => ?_, fun r hr => ?_⟩
  · cases i with
    | zero => cases hl; exact hline
    | succ i =>
      rw [show j + (i + 1) = j + 1 + i by omega]
      exact h.line i l hl
  · have := h.done t hr
    rw [List.length_cons]; omega
  · rw [hlength]; exact h.failed f hr
  · rw [hlength]; exact h.aborted r hr

/-- What is recorded from a position on, after `seen`, is a trace from there. The invariant is that
the instructions before the position have left the stack that the others are run with. -/
theorem observeList_isTrace {l : List Value} (hle : pc ≤ j) (hl : p.instructions.drop j = l)
    (hx : m.Executes (p.segment pc j) s t) (hrun : m.run p pc s = m.runList l j t)
    (seen : List TraceRecord) :
    ∃ lines, m.IsTrace p pc s j lines ∧
      (m.observeList l j t seen).1.reverse.flatMap TraceRecord.text
        = seen.reverse.flatMap TraceRecord.text ++ lines.flatten := by
  induction l generalizing j t seen with
  | nil =>
    rw [runList_nil] at hrun
    refine ⟨[], isTrace_of_done hrun (List.drop_eq_nil_iff.mp hl), ?_⟩
    simp [observeList]
  | cons i rest ih =>
    have hfetch : p.fetch j = .ok i :=
      Program.fetch_of_drop_eq (show p.instructions.drop j = [] ++ i :: rest from hl)
    rw [observeList]
    cases hs : m.step i t with
    | done t' =>
      have hrest : p.instructions.drop (j + 1) = rest := by
        have hcons := Program.drop_of_fetch hfetch
        rw [hl] at hcons
        exact (List.cons.inj hcons).2.symm
      have hx' : m.Executes (p.segment pc (j + 1)) s t' := by
        rw [Program.segment_succ hfetch hle]
        exact hx.append (.cons (step_eq_done_iff.mp hs) .nil)
      rw [runList_cons_of_done hs] at hrun
      obtain ⟨lines, htrace, htext⟩ := ih (Nat.le_succ_of_le hle) hrest hx' hrun _
      refine ⟨_, htrace.cons (.advanced hfetch (run_segment_eq_done_iff.mpr hx')), ?_⟩
      rw [htext]
      simp [TraceRecord.text, traceLine]
    | failed e =>
      rw [runList_cons_of_failed hs] at hrun
      refine ⟨_, isTrace_of_failed hrun hfetch, ?_⟩
      simp [TraceRecord.text, traceLine]
    | aborted r =>
      rw [runList, hs] at hrun
      refine ⟨[], isTrace_of_aborted hrun hx hfetch hs, ?_⟩
      simp

theorem observe_isTrace (m : Machine) (p : Program) (pc : Nat) (s : Stack) :
    ∃ lines, m.IsTrace p pc s pc lines ∧
      (m.observe p pc s).1.flatMap TraceRecord.text = lines.flatten := by
  have hx : m.Executes (p.segment pc pc) s s := by
    rw [Program.segment, Nat.sub_self]
    exact .nil
  obtain ⟨lines, htrace, htext⟩ := observeList_isTrace (Nat.le_refl pc) rfl hx rfl []
  exact ⟨lines, htrace, htext⟩

/-- **Tracing is faithful and inert.** However a run is traced, its outcome is that of the run. The
text is empty below verbosity two, and without a place to write it; otherwise it consists of lines
that make a trace of the run: one for each position from the start on, up to the end of the program
or up to the failure, whose line comes last. Each position has one line that says what is so. -/
theorem runTraced_faithful (m : Machine) (tracing : Tracing) (p : Program) (pc : Nat) (s : Stack) :
    (m.runTraced tracing p pc s).2 = m.run p pc s ∧
    (tracing.attached = false ∨ tracing.verbosity < 2 → (m.runTraced tracing p pc s).1 = []) ∧
    (tracing.attached = true → 2 ≤ tracing.verbosity →
      ∃ lines, (m.runTraced tracing p pc s).1 = lines.flatten ∧ m.IsTrace p pc s pc lines) ∧
    (∀ j a b, m.Line p pc s j a → m.Line p pc s j b → a = b) := by
  refine ⟨m.observe_snd p pc s, fun hoff => ?_, fun hattached hverbosity => ?_,
    fun j a b => Line.unique⟩
  · have hnot : ¬tracing.isOn = true := by
      rw [Tracing.isOn_iff]
      rintro ⟨ha, hv⟩
      rcases hoff with h | h
      · rw [h] at ha; cases ha
      · exact absurd hv (UInt32.not_le.mpr h)
    change (if tracing.isOn = true then _ else _) = _
    rw [if_neg hnot]
  · obtain ⟨lines, htrace, htext⟩ := m.observe_isTrace p pc s
    refine ⟨lines, ?_, htrace⟩
    change (if tracing.isOn = true then _ else _) = _
    rw [if_pos ((Tracing.isOn_iff tracing).mpr ⟨hattached, hverbosity⟩)]
    exact htext

/-- A text, then a word without a binding: nothing is written while there is no place for it, and
otherwise two lines, the second with the error. -/
theorem runTraced_faithful_unbound :
    ((Machine.mk .empty .none).runTraced ⟨false, 2⟩ ⟨[.string [], .word []]⟩ 0 .empty).1 = [] ∧
    ∃ first, ((Machine.mk .empty .none).runTraced ⟨true, 2⟩ ⟨[.string [], .word []]⟩ 0 .empty).1
      = first ++ traceLine 1 (.word []) (Text.ofString "!! " ++ (Error.unboundWord []).text) := by
  refine ⟨(runTraced_faithful ⟨.empty, .none⟩ ⟨false, 2⟩ _ 0 .empty).2.1 (Or.inl rfl), ?_⟩
  obtain ⟨-, -, hon, hunique⟩ :=
    runTraced_faithful ⟨.empty, .none⟩ ⟨true, 2⟩ ⟨[.string [], .word []]⟩ 0 .empty
  obtain ⟨lines, htext, htrace⟩ := hon rfl (by decide)
  have hrun : (Machine.mk .empty .none).run ⟨[.string [], .word []]⟩ 0 .empty
      = .failed ⟨.unboundWord [], 1, .ofList [.string []]⟩ := rfl
  have hlength : 0 + lines.length = 2 := htrace.failed _ hrun
  match lines, hlength with
  | [first, second], _ =>
    have hsecond := hunique 1 second _ (htrace.line 1 second rfl) (.failed rfl hrun)
    exact ⟨first, by rw [htext, hsecond]; simp⟩

end Machine
end WordMachine
