import WordMachine.Proofs.Machine.Resumption
import WordMachine.Proofs.StandardWords.Cases

/-!
# Where values come from

Numbers are made by arithmetic. Nothing else is made at all: where every primitive within reach is
standard, **every other value on a stack was there at the start or was put there by an
instruction**, as a string that stands in the program or as the value of a word. So a run neither
finds a primitive nor forges a word.

The argument is an invariant. Say from where values may come, in any way at all (`Stack.Sourced`).
A word that succeeds copies, drops and moves what it finds, and adds numbers at most, so it keeps
the invariant whatever the sources are (`Performs.sourced`). An instruction that pushes keeps it if
what it pushes is among the sources; and that is how the sources of a run are chosen.
-/

set_option autoImplicit false

namespace WordMachine

/-- Every value of a stack that is no number comes from the given source. -/
def Stack.Sourced (source : Value → Prop) (s : Stack) : Prop :=
  ∀ v ∈ s.toList, v.tag ≠ .number → source v

@[simp] theorem Stack.toList_push (s : Stack) (v : Value) :
    (s.push v).toList = s.toList ++ [v] := by
  simp [toList, push]

@[simp] theorem Stack.sourced_push {source : Value → Prop} {s : Stack} {v : Value} :
    (s.push v).Sourced source ↔ s.Sourced source ∧ (v.tag ≠ .number → source v) := by
  simp only [Sourced, toList_push, List.mem_append, List.mem_singleton]
  constructor
  · intro h
    exact ⟨fun u hu => h u (Or.inl hu), h v (Or.inr rfl)⟩
  · rintro ⟨hs, hv⟩ u (hu | rfl)
    · exact hs u hu
    · exact hv

theorem Stack.sourced_push_number {source : Value → Prop} {s : Stack} {x : Binary64} :
    (s.push (.number x)).Sourced source ↔ s.Sourced source := by
  rw [sourced_push]
  exact and_iff_left fun h => absurd rfl h

namespace StandardWord

/-- A word makes numbers and nothing else. -/
theorem Performs.sourced {w : StandardWord} {s s' : Stack} {source : Value → Prop}
    (h : w.Performs s (.ok s')) (hs : s.Sourced source) : s'.Sourced source := by
  cases h with
  | arithmetic hop =>
    rw [Stack.sourced_push_number] at hs ⊢
    exact Stack.sourced_push_number.mp hs
  | sqrt =>
    rw [Stack.sourced_push_number] at hs ⊢
    exact hs
  | dup =>
    have hv := (Stack.sourced_push.mp hs).2
    exact Stack.sourced_push.mpr ⟨hs, hv⟩
  | drop => exact (Stack.sourced_push.mp hs).1
  | swap =>
    simp only [Stack.sourced_push] at hs ⊢
    exact ⟨⟨hs.1.1, hs.2⟩, hs.1.2⟩
  | «over» =>
    have hu := (Stack.sourced_push.mp (Stack.sourced_push.mp hs).1).2
    exact Stack.sourced_push.mpr ⟨hs, hu⟩

end StandardWord

theorem Environment.BindsStandard.define {e : Environment} (h : e.BindsStandard) (key : Text)
    {v : Value} (hv : v.tag ≠ .primitive) : (e.define key v).BindsStandard := by
  intro symbol p hf
  rw [find?_define] at hf
  split at hf
  · cases hf
    exact absurd rfl hv
  · exact h symbol p hf

namespace Machine

variable {m : Machine} {source : Value → Prop} {s s' t : Stack}

/-- Some of the instructions put the value on the stack if they are executed: a string as it stands,
and a word the value it is bound to, if that is not a primitive. -/
def Supplies (m : Machine) (instructions : List Value) (v : Value) : Prop :=
  (v.tag = .string ∧ v ∈ instructions) ∨
    (v.tag ≠ .primitive ∧
      ∃ symbol, Value.word symbol ∈ instructions ∧ m.environment.find? symbol = some v)

/-- The stack that a run ends with, or fails with, and the instructions that led to it. -/
inductive Shows (m : Machine) (p : Program) (pc : Nat) (s : Stack) : List Value → Stack → Prop
  | done {t : Stack} : m.run p pc s = .done t → Shows m p pc s (p.instructions.drop pc) t
  | failed {e : Error} {k : Nat} {t : Stack} :
      m.run p pc s = .failed ⟨e, k, t⟩ → Shows m p pc s (p.segment pc k) t

theorem Advances.sourced {instruction : Value} (h : m.Advances instruction s s')
    (he : m.environment.BindsStandard) (hi : EmbedStandard [instruction]) (hs : s.Sourced source)
    (hd : ∀ v, m.Denotes instruction v → v.tag ≠ .primitive → v.tag ≠ .number → source v) :
    s'.Sourced source := by
  cases h with
  | push hv hp => exact Stack.sourced_push.mpr ⟨hs, hd _ hv hp⟩
  | apply hv hp =>
    obtain ⟨word, serial, hop⟩ := hv.isStandard he hi
    exact ((Primitive.apply_eq_done_iff hop).mp hp).sourced hs

theorem Executes.sourced {instructions : List Value} (h : m.Executes instructions s t)
    (he : m.environment.BindsStandard) (hi : EmbedStandard instructions) (hs : s.Sourced source)
    (hd : ∀ i ∈ instructions, ∀ v, m.Denotes i v → v.tag ≠ .primitive → v.tag ≠ .number →
      source v) :
    t.Sourced source := by
  induction h with
  | nil => exact hs
  | cons ha _ ih =>
    have hs' := ha.sourced he hi.head hs (hd _ List.mem_cons_self)
    exact ih hi.tail hs' fun i hmem => hd i (List.mem_cons_of_mem _ hmem)

/-- What an instruction pushes and is no number is what it supplies. -/
theorem Denotes.supplies {instructions : List Value} {i v : Value} (h : m.Denotes i v)
    (hi : i ∈ instructions) (hp : v.tag ≠ .primitive) (hn : v.tag ≠ .number) :
    m.Supplies instructions v := by
  cases h with
  | bound hf => exact Or.inr ⟨hp, _, hi, hf⟩
  | literal hw =>
    cases i with
    | string content => exact Or.inl ⟨rfl, hi⟩
    | number x => exact absurd rfl hn
    | word symbol => exact absurd rfl hw
    | primitive q => exact absurd rfl hp

theorem Shows.executes {p : Program} {pc : Nat} {executed : List Value}
    (h : m.Shows p pc s executed t) :
    m.Executes executed s t ∧ executed <+: p.instructions.drop pc := by
  cases h with
  | done h => exact ⟨runList_eq_done_iff.mp h, List.prefix_rfl⟩
  | failed h =>
    obtain ⟨-, -, hx, -⟩ := run_eq_failed_iff.mp h
    exact ⟨hx, List.take_prefix _ _⟩

theorem exists_shows {p : Program} (he : m.environment.BindsStandard)
    (hp : EmbedStandard p.instructions) (pc : Nat) (s : Stack) :
    ∃ executed t, m.Shows p pc s executed t := by
  cases h : m.run p pc s with
  | done t => exact ⟨_, t, .done h⟩
  | failed f => exact ⟨_, f.stack, .failed h⟩
  | aborted r => exact absurd h (runList_ne_aborted he (hp.drop pc) pc s r)

/-- **Values come from somewhere.** Where every primitive within reach is standard, a run ends with
a stack or fails with one; and whatever is on that stack and is no number was on the stack at the
start, or was supplied by an instruction executed, at the start position or later. A primitive was
therefore there from the start, and so was a word, unless it is what a word executed is bound to. -/
theorem run_values_sourced {m : Machine} {p : Program} (he : m.environment.BindsStandard)
    (hp : EmbedStandard p.instructions) (pc : Nat) (s : Stack) :
    (∃ executed t, m.Shows p pc s executed t) ∧
    ∀ executed t, m.Shows p pc s executed t →
      executed <+: p.instructions.drop pc ∧
      (∀ v ∈ t.toList, v.tag ≠ .number → v ∈ s.toList ∨ m.Supplies executed v) ∧
      (∀ q, Value.primitive q ∈ t.toList → Value.primitive q ∈ s.toList) ∧
      (∀ symbol, Value.word symbol ∈ t.toList → Value.word symbol ∈ s.toList ∨
        ∃ name, Value.word name ∈ executed ∧ m.environment.find? name = some (.word symbol)) := by
  refine ⟨exists_shows he hp pc s, ?_⟩
  intro executed t h
  obtain ⟨hx, hstart⟩ := h.executes
  have hembed : EmbedStandard executed :=
    (hp.drop pc).mono fun v hv => hstart.subset hv
  have hsourced : t.Sourced fun v => v ∈ s.toList ∨ m.Supplies executed v := by
    refine hx.sourced he hembed (fun v hv _ => Or.inl hv) ?_
    intro i hi v hd hprimitive hnumber
    exact Or.inr (hd.supplies hi hprimitive hnumber)
  refine ⟨hstart, hsourced, ?_, ?_⟩
  · intro q hq
    rcases hsourced _ hq (by simp [Value.tag]) with h | ⟨htag, -⟩ | ⟨htag, -⟩
    · exact h
    · cases htag
    · exact absurd rfl htag
  · intro symbol hsymbol
    rcases hsourced _ hsymbol (by simp [Value.tag]) with h | ⟨htag, -⟩ | ⟨-, hbound⟩
    · exact Or.inl h
    · cases htag
    · exact Or.inr hbound

/-- The sum refuses a word that lies over a text and over a primitive. The word was pushed by the
word that it is the value of, before the swap, and the primitive was there. -/
theorem run_values_sourced_refused_word :
    (Machine.mk (Environment.standard.define [0x61] (.word [0x62])) .none).run
        ⟨[.word [0x61], .string [], .word StandardWord.swap.name, .word StandardWord.add.name]⟩ 0
        (.ofList [.primitive (StandardWord.dup.primitive 7)])
      = .failed ⟨.typeMismatch StandardWord.add.name (Text.ofString "expected number, got word"), 3,
          .ofList [.primitive (StandardWord.dup.primitive 7), .string [], .word [0x62]]⟩ ∧
    (Value.word [0x62] ∈ (Stack.ofList [.primitive (StandardWord.dup.primitive 7)]).toList ∨
      ∃ name, Value.word name ∈ Program.segment ⟨[.word [0x61], .string [],
          .word StandardWord.swap.name, .word StandardWord.add.name]⟩ 0 3 ∧
        (Environment.standard.define [0x61] (.word [0x62])).find? name
          = some (.word [0x62])) := by
  have he : (Environment.standard.define [0x61] (.word [0x62])).BindsStandard :=
    Environment.bindsStandard_standard.define _ (by simp [Value.tag])
  have hp : EmbedStandard
      [.word [0x61], .string [], .word StandardWord.swap.name, .word StandardWord.add.name] := by
    intro p h
    simp at h
  have h : (Machine.mk (Environment.standard.define [0x61] (.word [0x62])) .none).run
        ⟨[.word [0x61], .string [], .word StandardWord.swap.name, .word StandardWord.add.name]⟩ 0
        (.ofList [.primitive (StandardWord.dup.primitive 7)])
      = .failed ⟨.typeMismatch StandardWord.add.name (Text.ofString "expected number, got word"), 3,
          .ofList [.primitive (StandardWord.dup.primitive 7), .string [], .word [0x62]]⟩ := rfl
  refine ⟨h, ?_⟩
  obtain ⟨-, hall⟩ := run_values_sourced (m := ⟨_, .none⟩) (p := ⟨_⟩) he hp 0
    (.ofList [.primitive (StandardWord.dup.primitive 7)])
  obtain ⟨-, -, -, hword⟩ := hall _ _ (.failed h)
  exact hword [0x62] (by simp [Stack.ofList, Stack.toList])

end Machine
end WordMachine
