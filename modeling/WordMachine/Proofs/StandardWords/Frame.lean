import WordMachine.Proofs.Machine.Resumption
import WordMachine.Proofs.StandardWords.Cases

/-!
# Values underneath do not matter

Put any values under the stack that a run starts with. If every primitive within reach is standard,
the run does what it did before and those values are under every stack it shows. **Only a failure
for want of operands can come out differently**: there may be operands now.

The argument is local. In each case of a word the stack is written by its pushes, so the values
below are one variable, and a case that succeeds, or that refuses an operand, holds for every value
of that variable (`Performs.frame_ok`, `Performs.frame_error`). Only the cases for stacks that are
too short name the whole stack.
-/

set_option autoImplicit false

namespace WordMachine

namespace Stack

@[simp] theorem append_push (base s : Stack) (v : Value) :
    base ++ s.push v = (base ++ s).push v := by
  apply ext_toTopFirst
  simp

end Stack

namespace StandardWord

variable {w : StandardWord} {s s' : Stack} {e : Error}

/-- A word that succeeds leaves alone what lies below. -/
theorem Performs.frame_ok (h : w.Performs s (.ok s')) (base : Stack) :
    w.Performs (base ++ s) (.ok (base ++ s')) := by
  cases h with
  | arithmetic hop => simp only [Stack.append_push]; exact .arithmetic hop
  | sqrt => simp only [Stack.append_push]; exact .sqrt
  | dup => simp only [Stack.append_push]; exact .dup
  | drop => simp only [Stack.append_push]; exact .drop
  | swap => simp only [Stack.append_push]; exact .swap
  | «over» => simp only [Stack.append_push]; exact .over

/-- A word that refuses an operand refuses it whatever lies below. -/
theorem Performs.frame_error (h : w.Performs s (.error e)) (he : e.kind ≠ .stackUnderflow)
    (base : Stack) : w.Performs (base ++ s) (.error e) := by
  cases h with
  | badTop hw hv => rw [Stack.append_push]; exact .badTop hw hv
  | badLeft hw hv => simp only [Stack.append_push]; exact .badLeft hw hv
  -- the errors of the other cases are underflows
  | empty _ => exact absurd rfl he
  | loneRight _ => exact absurd rfl he
  | loneSwap => exact absurd rfl he
  | shortOver _ => exact absurd rfl he

end StandardWord

namespace Primitive

variable {p : Primitive} {host : Host} {s s' : Stack} {e : Error}

theorem IsStandard.frame_done (hp : p.IsStandard) (h : p.apply host s = .done s') (base : Stack) :
    p.apply host (base ++ s) = .done (base ++ s') := by
  obtain ⟨word, serial, hop⟩ := hp
  rw [apply_eq_done_iff hop] at h ⊢
  exact h.frame_ok base

theorem IsStandard.frame_failed (hp : p.IsStandard) (h : p.apply host s = .failed e)
    (he : e.kind ≠ .arityMismatch) (base : Stack) : p.apply host (base ++ s) = .failed e := by
  obtain ⟨word, serial, hop⟩ := hp
  rw [apply_eq_failed_iff hop] at h ⊢
  obtain ⟨cause, hw, rfl⟩ := h
  -- an underflow would have been blamed on the primitive, as an arity mismatch
  have hcause : cause.kind ≠ .stackUnderflow := fun hk => he (by rw [Error.blame_of_underflow hk]; rfl)
  exact ⟨cause, hw.frame_error hcause base, rfl⟩

end Primitive

theorem EmbedStandard.of_fetch {p : Program} {k : Nat} {instruction : Value}
    (h : EmbedStandard p.instructions) (hfetch : p.fetch k = .ok instruction) :
    EmbedStandard [instruction] :=
  h.mono fun v hv => by
    rw [List.mem_singleton.mp hv]
    exact List.mem_of_getElem? (Program.fetch_eq_ok_iff.mp hfetch)

namespace Machine

variable {m : Machine} {instruction : Value} {instructions : List Value} {s s' t : Stack} {e : Error}

theorem Advances.frame (h : m.Advances instruction s s') (he : m.environment.BindsStandard)
    (hi : EmbedStandard [instruction]) (base : Stack) :
    m.Advances instruction (base ++ s) (base ++ s') := by
  cases h with
  | push hd hv => rw [Stack.append_push]; exact .push hd hv
  | apply hd hp => exact .apply hd ((hd.isStandard he hi).frame_done hp base)

theorem Halts.frame (h : m.Halts instruction s e) (he : m.environment.BindsStandard)
    (hi : EmbedStandard [instruction]) (hk : e.kind ≠ .arityMismatch) (base : Stack) :
    m.Halts instruction (base ++ s) e := by
  cases h with
  | unbound hf => exact .unbound hf
  | apply hd hp => exact .apply hd ((hd.isStandard he hi).frame_failed hp hk base)

theorem Executes.frame (h : m.Executes instructions s t) (he : m.environment.BindsStandard)
    (hi : EmbedStandard instructions) (base : Stack) :
    m.Executes instructions (base ++ s) (base ++ t) := by
  induction h with
  | nil => exact .nil
  | cons ha _ ih => exact .cons (ha.frame he hi.head base) (ih hi.tail)

/-- A step of standard primitives halts for one of three reasons. -/
theorem Halts.kind (h : m.Halts instruction s e) (he : m.environment.BindsStandard)
    (hi : EmbedStandard [instruction]) :
    e.kind = .unboundWord ∨ e.kind = .typeMismatch ∨ e.kind = .arityMismatch := by
  cases h with
  | unbound _ => exact Or.inl rfl
  | apply hd hp =>
    obtain ⟨word, serial, hop⟩ := hd.isStandard he hi
    obtain ⟨cause, hw, rfl⟩ := (Primitive.apply_eq_failed_iff hop).mp hp
    rcases hw.kind_error with hk | hk
    · exact Or.inr (Or.inr (by rw [Error.blame_of_underflow hk]; rfl))
    · exact Or.inr (Or.inl (by rw [Error.blame_of_kind_ne (by rw [hk]; decide), hk]))

/-- **The frame law.** Where every primitive within reach is standard, values put under a stack do
not change a run, which leaves them where they are: a run that succeeds succeeds with the same
result on top of them, and a run that fails fails in the same place with the same error and its
stack on top of them, unless it failed for want of operands. Those are the ways in which it can
fail, and it does come to an end. -/
theorem run_frame {m : Machine} {p : Program} (he : m.environment.BindsStandard)
    (hp : EmbedStandard p.instructions) (pc : Nat) (base s : Stack) :
    (∀ s', m.run p pc s = .done s' → m.run p pc (base ++ s) = .done (base ++ s')) ∧
    (∀ e k t, m.run p pc s = .failed ⟨e, k, t⟩ → e.kind = .unboundWord ∨ e.kind = .typeMismatch →
      m.run p pc (base ++ s) = .failed ⟨e, k, base ++ t⟩) ∧
    (∀ e k t, m.run p pc s = .failed ⟨e, k, t⟩ →
      e.kind = .unboundWord ∨ e.kind = .typeMismatch ∨ e.kind = .arityMismatch) ∧
    (∀ r, m.run p pc s ≠ .aborted r) := by
  refine ⟨?_, ?_, ?_, ?_⟩
  · intro s' h
    rw [run, runList_eq_done_iff] at h ⊢
    exact h.frame he (hp.drop pc) base
  · intro e k t h hk
    obtain ⟨hle, hlt, hx, instruction, hfetch, hh⟩ := run_eq_failed_iff.mp h
    have harity : e.kind ≠ .arityMismatch := by rcases hk with hk | hk <;> rw [hk] <;> decide
    have hseg : EmbedStandard (p.segment pc k) :=
      (hp.drop pc).mono fun _ hv => List.mem_of_mem_take hv
    refine run_eq_failed_iff.mpr ⟨hle, hlt, hx.frame he hseg base, instruction, hfetch, ?_⟩
    exact hh.frame he (hp.of_fetch hfetch) harity base
  · intro e k t h
    obtain ⟨-, -, -, instruction, hfetch, hh⟩ := run_eq_failed_iff.mp h
    exact hh.kind he (hp.of_fetch hfetch)
  · intro r
    exact runList_ne_aborted he (hp.drop pc) pc s r

/-- A text is refused as a summand, with a number below it and again with a word below that. The
text is bound beside the standard words, and one of the words is embedded as a primitive. -/
theorem run_frame_refused_text :
    (Machine.mk (Environment.standard.define [] (.string [])) .none).run
        ⟨[.primitive (StandardWord.dup.primitive 7), .word [], .word StandardWord.add.name]⟩ 0
        (.ofList [.number (.ofNat 1)])
      = .failed ⟨.typeMismatch StandardWord.add.name (Text.ofString "expected number, got string"),
          2, .ofList [.number (.ofNat 1), .number (.ofNat 1), .string []]⟩ ∧
    (Machine.mk (Environment.standard.define [] (.string [])) .none).run
        ⟨[.primitive (StandardWord.dup.primitive 7), .word [], .word StandardWord.add.name]⟩ 0
        (.ofList [.word []] ++ .ofList [.number (.ofNat 1)])
      = .failed ⟨.typeMismatch StandardWord.add.name (Text.ofString "expected number, got string"),
          2, .ofList [.word []] ++ .ofList [.number (.ofNat 1), .number (.ofNat 1), .string []]⟩ := by
  have he : (Environment.standard.define [] (.string [])).BindsStandard := by
    intro symbol p h
    rw [Environment.find?_define] at h
    split at h
    · cases h
    · exact Environment.bindsStandard_standard symbol p h
  have hp : EmbedStandard
      [.primitive (StandardWord.dup.primitive 7), .word [], .word StandardWord.add.name] := by
    intro p h
    have hp : p = StandardWord.dup.primitive 7 := by simpa using h
    exact ⟨.dup, 7, by rw [hp]; rfl⟩
  have h : (Machine.mk (Environment.standard.define [] (.string [])) .none).run
        ⟨[.primitive (StandardWord.dup.primitive 7), .word [], .word StandardWord.add.name]⟩ 0
        (.ofList [.number (.ofNat 1)])
      = .failed ⟨.typeMismatch StandardWord.add.name (Text.ofString "expected number, got string"),
          2, .ofList [.number (.ofNat 1), .number (.ofNat 1), .string []]⟩ := rfl
  refine ⟨h, ?_⟩
  exact (run_frame (m := ⟨_, .none⟩) (p := ⟨_⟩) he hp 0 _ _).2.1 _ _ _ h (Or.inr rfl)

end Machine
end WordMachine
