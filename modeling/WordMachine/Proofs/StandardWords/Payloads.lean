import Mathlib.Data.List.Forall2
import WordMachine.Proofs.StandardWords.Cases

/-!
# Payloads never steer

Two programs that differ in their numbers and in the texts of their strings, and in nothing else,
are run on stacks that hold values of the same kinds. **The runs keep step with each other**: both
are done, or both fail at the same instruction with the same error, and their stacks hold values of
the same kinds all along. So no number, not even one that is infinite or no number at all, decides
which instruction fails or whether one does.

What makes it so is that a word looks at the kinds of its operands and at the depth, and at nothing
else: each of its cases is also a case of any other stack of the same kinds
(`Performs.sameTags_ok`, `Performs.sameTags_error`).
-/

set_option autoImplicit false

namespace WordMachine

/-- Two stacks of one depth that hold values of the same kinds, position by position. -/
def Stack.SameTags (s t : Stack) : Prop :=
  s.toTopFirst.map Value.tag = t.toTopFirst.map Value.tag

/-- Two values that differ at most in the payload of a number or of a string. -/
inductive Value.SameForm : Value → Value → Prop
  | number {x y : Binary64} : SameForm (.number x) (.number y)
  | string {x y : Text} : SameForm (.string x) (.string y)
  | refl {v : Value} : SameForm v v

theorem Value.SameForm.tag_eq {u v : Value} (h : u.SameForm v) : u.tag = v.tag := by
  cases h with
  | number => rfl
  | string => rfl
  | refl => rfl

namespace Stack

variable {s t : Stack} {u v : Value}

theorem SameTags.depth_eq (h : s.SameTags t) : s.depth = t.depth := by
  have := congrArg List.length h
  simpa using this

theorem SameTags.push (h : s.SameTags t) (hv : u.tag = v.tag) : (s.push u).SameTags (t.push v) := by
  simp only [SameTags, toTopFirst_push, List.map_cons]
  rw [hv, h]

theorem SameTags.push_number (h : s.SameTags t) (x y : Binary64) :
    (s.push (.number x)).SameTags (t.push (.number y)) :=
  h.push rfl

theorem SameTags.eq_empty (h : empty.SameTags t) : t = empty := by
  rcases t.eq_empty_or_push with rfl | ⟨t, v, rfl⟩
  · rfl
  · have := h.depth_eq
    rw [depth_push] at this
    cases this

/-- What has the kinds of a stack with a top has a top of that kind. -/
theorem SameTags.exists_push (h : (s.push u).SameTags t) :
    ∃ t' v, t = Stack.push t' v ∧ u.tag = v.tag ∧ s.SameTags t' := by
  rcases t.eq_empty_or_push with rfl | ⟨t', v, rfl⟩
  · have := h.depth_eq
    rw [depth_push] at this
    cases this
  · simp only [SameTags, toTopFirst_push, List.map_cons, List.cons.injEq] at h
    exact ⟨t', v, rfl, h⟩

theorem SameTags.exists_push_number {x : Binary64} (h : (s.push (.number x)).SameTags t) :
    ∃ t' y, t = Stack.push t' (.number y) ∧ s.SameTags t' := by
  obtain ⟨t', v, rfl, hv, hst⟩ := h.exists_push
  obtain ⟨y, hy⟩ := Value.exists_number hv.symm
  exact ⟨t', y, by rw [hy], hst⟩

end Stack

namespace StandardWord

variable {w : StandardWord} {s s' t : Stack} {e : Error}

theorem refusal_of_tag_eq {u v : Value} (h : u.tag = v.tag) : w.refusal u = w.refusal v := by
  rw [refusal, refusal, h]

/-- A word that succeeds on one stack succeeds on every other of the same kinds. -/
theorem Performs.sameTags_ok (h : w.Performs s (.ok s')) (hst : s.SameTags t) :
    ∃ t', w.Performs t (.ok t') ∧ s'.SameTags t' := by
  cases h with
  | arithmetic hop =>
    obtain ⟨t₁, y', rfl, h₁⟩ := hst.exists_push_number
    obtain ⟨t₂, x', rfl, h₂⟩ := h₁.exists_push_number
    exact ⟨_, .arithmetic hop, h₂.push_number _ _⟩
  | sqrt =>
    obtain ⟨t₁, x', rfl, h₁⟩ := hst.exists_push_number
    exact ⟨_, .sqrt, h₁.push_number _ _⟩
  | dup =>
    obtain ⟨t₁, v', rfl, hv, h₁⟩ := hst.exists_push
    exact ⟨_, .dup, (h₁.push hv).push hv⟩
  | drop =>
    obtain ⟨t₁, v', rfl, hv, h₁⟩ := hst.exists_push
    exact ⟨_, .drop, h₁⟩
  | swap =>
    obtain ⟨t₁, v', rfl, hv, h₁⟩ := hst.exists_push
    obtain ⟨t₂, u', rfl, hu, h₂⟩ := h₁.exists_push
    exact ⟨_, .swap, (h₂.push hv).push hu⟩
  | «over» =>
    obtain ⟨t₁, v', rfl, hv, h₁⟩ := hst.exists_push
    obtain ⟨t₂, u', rfl, hu, h₂⟩ := h₁.exists_push
    exact ⟨_, .over, ((h₂.push hu).push hv).push hu⟩

/-- A word that fails on one stack fails with the same error on every other of the same kinds. -/
theorem Performs.sameTags_error (h : w.Performs s (.error e)) (hst : s.SameTags t) :
    w.Performs t (.error e) := by
  cases h with
  | badTop hw hv =>
    obtain ⟨t₁, v', rfl, hv', h₁⟩ := hst.exists_push
    rw [refusal_of_tag_eq hv']
    exact .badTop hw (hv' ▸ hv)
  | badLeft hw hv =>
    obtain ⟨t₁, y', rfl, h₁⟩ := hst.exists_push_number
    obtain ⟨t₂, v', rfl, hv', h₂⟩ := h₁.exists_push
    rw [refusal_of_tag_eq hv']
    exact .badLeft hw (hv' ▸ hv)
  | empty hw => rw [hst.eq_empty]; exact .empty hw
  | loneRight hw =>
    obtain ⟨t₁, y', rfl, h₁⟩ := hst.exists_push_number
    rw [h₁.eq_empty]
    exact .loneRight hw
  | loneSwap =>
    obtain ⟨t₁, v', rfl, hv, h₁⟩ := hst.exists_push
    rw [h₁.eq_empty]
    exact .loneSwap
  | shortOver hs =>
    rw [hst.depth_eq] at hs ⊢
    exact .shortOver hs

end StandardWord

namespace Machine

variable {m : Machine} {i j : Value} {s s' t : Stack} {e : Error}

theorem Denotes.sameForm {v : Value} (h : m.Denotes i v) (hij : i.SameForm j) :
    ∃ v', m.Denotes j v' ∧ v.SameForm v' := by
  cases hij with
  | number => cases h with | literal _ => exact ⟨_, .literal (by simp [Value.tag]), .number⟩
  | string => cases h with | literal _ => exact ⟨_, .literal (by simp [Value.tag]), .string⟩
  | refl => exact ⟨v, h, .refl⟩

/-- Forms tell primitives apart, so instructions of one form denote one primitive. -/
theorem Denotes.primitive_of_sameForm {p : Primitive} (h : m.Denotes i (.primitive p))
    (hij : i.SameForm j) : m.Denotes j (.primitive p) := by
  obtain ⟨v', hd, hv⟩ := h.sameForm hij
  cases hv with
  | refl => exact hd

theorem Advances.sameTags (h : m.Advances i s s') (he : m.environment.BindsStandard)
    (hi : EmbedStandard [i]) (hij : i.SameForm j) (hst : s.SameTags t) :
    ∃ t', m.Advances j t t' ∧ s'.SameTags t' := by
  cases h with
  | push hd hv =>
    obtain ⟨v', hd', hv'⟩ := hd.sameForm hij
    exact ⟨_, .push hd' (hv'.tag_eq ▸ hv), hst.push hv'.tag_eq⟩
  | apply hd hp =>
    obtain ⟨word, serial, hop⟩ := hd.isStandard he hi
    obtain ⟨t', hw, hst'⟩ := ((Primitive.apply_eq_done_iff hop).mp hp).sameTags_ok hst
    exact ⟨t', .apply (hd.primitive_of_sameForm hij) ((Primitive.apply_eq_done_iff hop).mpr hw), hst'⟩

theorem Halts.sameTags (h : m.Halts i s e) (he : m.environment.BindsStandard)
    (hi : EmbedStandard [i]) (hij : i.SameForm j) (hst : s.SameTags t) : m.Halts j t e := by
  cases h with
  | unbound hf => cases hij with | refl => exact .unbound hf
  | apply hd hp =>
    obtain ⟨word, serial, hop⟩ := hd.isStandard he hi
    obtain ⟨cause, hw, hcause⟩ := (Primitive.apply_eq_failed_iff hop).mp hp
    refine .apply (hd.primitive_of_sameForm hij) ?_
    exact (Primitive.apply_eq_failed_iff hop).mpr ⟨cause, hw.sameTags_error hst, hcause⟩

/-- Two runs in step: both are done, or both fail at one position with one error, and either way
with stacks of the same kinds. -/
inductive InStep : Outcome Failure Stack → Outcome Failure Stack → Prop
  | done {s t : Stack} : s.SameTags t → InStep (.done s) (.done t)
  | failed {s t : Stack} {e : Error} {k : Nat} : s.SameTags t →
      InStep (.failed ⟨e, k, s⟩) (.failed ⟨e, k, t⟩)

theorem runList_inStep {l l' : List Value} (he : m.environment.BindsStandard)
    (hl : List.Forall₂ Value.SameForm l l') (hi : EmbedStandard l) (pc : Nat)
    (hst : s.SameTags t) : InStep (m.runList l pc s) (m.runList l' pc t) := by
  induction hl generalizing pc s t with
  | nil => exact .done hst
  | @cons i j _ _ hij _ ih =>
    cases hs : m.step i s with
    | done s' =>
      obtain ⟨t', ha, hst'⟩ := (step_eq_done_iff.mp hs).sameTags he hi.head hij hst
      rw [runList_cons_of_done hs, runList_cons_of_done (step_eq_done_iff.mpr ha)]
      exact ih hi.tail (pc + 1) hst'
    | failed e =>
      have hh := (step_eq_failed_iff.mp hs).sameTags he hi.head hij hst
      rw [runList_cons_of_failed hs, runList_cons_of_failed (step_eq_failed_iff.mpr hh)]
      exact .failed hst
    -- only a hosted operation could be aborted
    | aborted r => exact absurd hs (step_ne_aborted he hi.head s r)

/-- **Two runs in step.** Programs that agree but for the payloads of numbers and strings, run with
the standard words from one position on stacks of the same kinds, are both done or both fail, at the
same position with the same error, and their stacks are of the same kinds. -/
theorem run_ignores_payloads (host : Host) (p q : Program) (pc : Nat) (s t : Stack)
    (hpq : List.Forall₂ Value.SameForm p.instructions q.instructions)
    (hp : EmbedStandard p.instructions) (hst : s.SameTags t) :
    InStep ((Machine.mk .standard host).run p pc s) ((Machine.mk .standard host).run q pc t) :=
  runList_inStep Environment.bindsStandard_standard (List.forall₂_drop pc hpq) (hp.drop pc) pc hst

/-- The quotient of two numbers and that of zero by zero, each added to a text, over one word or
another. -/
theorem run_ignores_payloads_quotients :
    InStep
      ((Machine.mk .standard .none).run
        ⟨[.number (.ofNat 6), .number (.ofNat 2), .word StandardWord.divide.name,
          .string [0x61], .word StandardWord.add.name]⟩ 0 (.ofList [.word []]))
      ((Machine.mk .standard .none).run
        ⟨[.number (.ofNat 0), .number (.ofNat 0), .word StandardWord.divide.name,
          .string [], .word StandardWord.add.name]⟩ 0 (.ofList [.word [0x61]])) := by
  refine run_ignores_payloads .none _ _ 0 _ _ ?_ ?_ rfl
  · exact .cons .number (.cons .number (.cons .refl (.cons .string (.cons .refl .nil))))
  · intro p h
    simp at h

end Machine
end WordMachine
