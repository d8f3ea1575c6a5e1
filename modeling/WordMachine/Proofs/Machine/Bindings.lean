import WordMachine.Machine.Trace
import WordMachine.Proofs.StandardWords

/-!
# What a run takes from its environment

A run looks up the words among its own instructions and nothing else. Words also lie on the stack,
and words are what other words are bound to, but those are data: no step ever looks them up. Two
things follow.

**Bindings that no instruction names do not matter** (`run_reads_own_words`). Environments that
agree on the words from the start of a run on give the same run, with the same trace, so a key that
is not among those words can be bound to anything.

**Bindings can be written into the program** (`run_inline`). A word that is bound to anything but a
word may be replaced by that value; when this leaves no word from the start of the run on, the
environment has nothing left to say. Here it matters that a word is resolved once. A word bound to
a word pushes that word, and as an instruction that word would be looked up in its turn, so such a
word has to stay, and so has a word without a binding, because it is an error to reach it.

Both come down to single steps: a run is determined by what its instructions do to each stack
(`observeList_congr`, `runList_map`).
-/

set_option autoImplicit false

namespace WordMachine
namespace Machine

variable {m m' : Machine} {a b : Environment} {host : Host}

/-! ## Runs from steps -/

theorem observeList_congr {l : List Value} (h : ∀ i ∈ l, ∀ s, m.step i s = m'.step i s) (pc : Nat)
    (s : Stack) (seen : List TraceRecord) :
    m.observeList l pc s seen = m'.observeList l pc s seen := by
  induction l generalizing pc s seen with
  | nil => rfl
  | cons i rest ih =>
    have hrest : ∀ j ∈ rest, ∀ s, m.step j s = m'.step j s :=
      fun j hj => h j (List.mem_cons_of_mem i hj)
    rw [observeList, observeList, h i List.mem_cons_self s]
    cases m'.step i s with
    | done s' => exact ih hrest (pc + 1) s' _
    | failed e => rfl
    | aborted r => rfl

/-- Replacing each instruction by one that does the same leaves the run as it is. -/
theorem runList_map {l : List Value} {f : Value → Value}
    (h : ∀ i ∈ l, ∀ s, m'.step (f i) s = m.step i s) (pc : Nat) (s : Stack) :
    m'.runList (l.map f) pc s = m.runList l pc s := by
  induction l generalizing pc s with
  | nil => rfl
  | cons i rest ih =>
    have hrest : ∀ j ∈ rest, ∀ s, m'.step (f j) s = m.step j s :=
      fun j hj => h j (List.mem_cons_of_mem i hj)
    rw [List.map_cons, runList, runList, h i List.mem_cons_self s]
    cases m.step i s with
    | done s' => exact ih hrest (pc + 1) s'
    | failed e => rfl
    | aborted r => rfl

/-! ## Bindings that are not read -/

theorem resolve_congr {instruction : Value} (h : AgreeOn [instruction] a b) :
    (Machine.mk a host).resolve instruction = (Machine.mk b host).resolve instruction := by
  cases instruction with
  | word symbol => exact h symbol List.mem_cons_self
  | number x => rfl
  | string content => rfl
  | primitive p => rfl

theorem step_congr {instruction : Value} (h : AgreeOn [instruction] a b) (s : Stack) :
    (Machine.mk a host).step instruction s = (Machine.mk b host).step instruction s := by
  rw [step, step, resolve_congr h]
  -- what is executed is left to the host, which is the same
  rfl

theorem observe_congr {p : Program} {pc : Nat} (h : AgreeOn (p.instructions.drop pc) a b)
    (host : Host) (s : Stack) :
    (Machine.mk a host).observe p pc s = (Machine.mk b host).observe p pc s := by
  have hsteps : ∀ i ∈ p.instructions.drop pc, ∀ s,
      (Machine.mk a host).step i s = (Machine.mk b host).step i s := by
    intro i hi s
    refine step_congr (h.mono fun v hv => ?_) s
    rw [List.mem_singleton.mp hv]
    exact hi
  rw [observe, observe, observeList_congr hsteps]

theorem run_congr {p : Program} {pc : Nat} (h : AgreeOn (p.instructions.drop pc) a b)
    (host : Host) (s : Stack) :
    (Machine.mk a host).run p pc s = (Machine.mk b host).run p pc s := by
  rw [← observe_snd, ← observe_snd, observe_congr h]

theorem runTraced_congr {p : Program} {pc : Nat} (h : AgreeOn (p.instructions.drop pc) a b)
    (host : Host) (tracing : Tracing) (s : Stack) :
    (Machine.mk a host).runTraced tracing p pc s
      = (Machine.mk b host).runTraced tracing p pc s := by
  rw [runTraced, runTraced, observe_congr h]

theorem AgreeOn.define {l : List Value} {key : Text} (h : Value.word key ∉ l) (e : Environment)
    (v : Value) : AgreeOn l e (e.define key v) := by
  intro symbol hmem
  have hne : symbol ≠ key := by
    rintro rfl
    exact h hmem
  rw [Environment.lookup_eq_lookup_iff, Environment.find?_define, if_neg hne]

/-- **A run depends only on the bindings that its own instructions name.** Environments that agree
on the words from the start of a run on give the same outcome and, however it is traced, the same
trace; and so does an environment in which any other key is defined anew. -/
theorem run_reads_own_words (host : Host) (p : Program) (pc : Nat) (s : Stack)
    (e : Environment) (tracing : Tracing) :
    (∀ other, AgreeOn (p.instructions.drop pc) e other →
      (Machine.mk e host).run p pc s = (Machine.mk other host).run p pc s ∧
      (Machine.mk e host).runTraced tracing p pc s
        = (Machine.mk other host).runTraced tracing p pc s) ∧
    (∀ key v, Value.word key ∉ p.instructions.drop pc →
      (Machine.mk e host).run p pc s = (Machine.mk (e.define key v) host).run p pc s ∧
      (Machine.mk e host).runTraced tracing p pc s
        = (Machine.mk (e.define key v) host).runTraced tracing p pc s) := by
  refine ⟨fun other h => ?_, fun key v hkey => ?_⟩
  · exact ⟨run_congr h host s, runTraced_congr h host tracing s⟩
  · have h : AgreeOn (p.instructions.drop pc) e (e.define key v) := AgreeOn.define hkey e v
    exact ⟨run_congr h host s, runTraced_congr h host tracing s⟩

/-- A word lies on the stack, and the executed word is bound to it. Whether or not it is defined, as
a text, it is pushed as a word. -/
theorem run_reads_own_words_alias :
    (Machine.mk (Environment.empty.define [0x61] (.word [0x62])) .none).run
        ⟨[.word [0x62], .word [0x61]]⟩ 1 (.ofList [.word [0x62]])
      = (Machine.mk ((Environment.empty.define [0x61] (.word [0x62])).define [0x62] (.string []))
        .none).run ⟨[.word [0x62], .word [0x61]]⟩ 1 (.ofList [.word [0x62]]) ∧
    (Machine.mk (Environment.empty.define [0x61] (.word [0x62])) .none).runTraced ⟨true, 2⟩
        ⟨[.word [0x62], .word [0x61]]⟩ 1 (.ofList [.word [0x62]])
      = (Machine.mk ((Environment.empty.define [0x61] (.word [0x62])).define [0x62] (.string []))
        .none).runTraced ⟨true, 2⟩ ⟨[.word [0x62], .word [0x61]]⟩ 1 (.ofList [.word [0x62]]) :=
  (run_reads_own_words .none _ 1 _ _ _).2 [0x62] (.string []) (by decide)

end Machine

/-! ## Bindings written into the program -/

/-- What stands for an instruction when the bindings of an environment are written into a program:
the value that a word is bound to, unless that is a word again. Everything else stays. -/
def Environment.inline (e : Environment) : Value → Value
  | .word symbol =>
    match e.find? symbol with
    | some v => if v.tag = .word then .word symbol else v
    | none => .word symbol
  | v => v

/-- A program with the bindings of an environment written into it. -/
def Program.inline (p : Program) (e : Environment) : Program := ⟨p.instructions.map e.inline⟩

namespace Machine

theorem inline_of_denotes {m : Machine} {i v : Value} (h : m.Denotes i v) (hv : v.tag ≠ .word) :
    m.environment.inline i = v := by
  cases h with
  | bound hf => simp only [Environment.inline, hf, if_neg hv]
  | literal _ =>
    cases i with
    | word symbol => exact absurd rfl hv
    | number x => rfl
    | string content => rfl
    | primitive p => rfl

/-- An instruction is left as it is, or it denotes something that denotes itself. -/
theorem inline_cases (m : Machine) (i : Value) :
    m.environment.inline i = i ∨ ∃ v, m.Denotes i v ∧ v.tag ≠ .word := by
  cases i with
  | word symbol =>
    cases hf : m.environment.find? symbol with
    | none => exact Or.inl (by simp only [Environment.inline, hf])
    | some v =>
      by_cases hv : v.tag = .word
      · exact Or.inl (by simp only [Environment.inline, hf, if_pos hv])
      · exact Or.inr ⟨v, .bound hf, hv⟩
  | number x => exact Or.inl rfl
  | string content => exact Or.inl rfl
  | primitive p => exact Or.inl rfl

/-- What an instruction denotes can take its place under any environment, if it is no word. -/
theorem step_inline_of_denotes {m : Machine} {i v : Value} (h : m.Denotes i v)
    (hv : v.tag ≠ .word) (other : Environment) (s : Stack) :
    (Machine.mk other m.host).step (m.environment.inline i) s = m.step i s := by
  rw [inline_of_denotes h hv, step_of_denotes h, step_of_denotes (.literal hv)]
  rfl

theorem step_inline (m : Machine) (i : Value) (s : Stack) :
    m.step (m.environment.inline i) s = m.step i s := by
  rcases m.inline_cases i with h | ⟨v, hd, hv⟩
  · rw [h]
  · exact step_inline_of_denotes hd hv m.environment s

/-- A word that is bound to no word, like every instruction that is not a word, denotes something
that denotes itself. -/
theorem exists_denotes_of_bound {m : Machine} {i : Value}
    (h : ∀ symbol, i = .word symbol → ∃ v, m.environment.find? symbol = some v ∧ v.tag ≠ .word) :
    ∃ v, m.Denotes i v ∧ v.tag ≠ .word := by
  cases i with
  | word symbol =>
    obtain ⟨v, hf, hv⟩ := h symbol rfl
    exact ⟨v, .bound hf, hv⟩
  | number x => exact ⟨_, .literal (by simp [Value.tag]), by simp [Value.tag]⟩
  | string content => exact ⟨_, .literal (by simp [Value.tag]), by simp [Value.tag]⟩
  | primitive p => exact ⟨_, .literal (by simp [Value.tag]), by simp [Value.tag]⟩

/-- **Writing bindings into a program keeps its meaning.** The program runs as before, from every
position and with every stack, to the same outcome: the same stack, or the same failure at the same
position. If every word from the start of the run on is bound, and to no word, then the environment
is not needed any more: any other one, the empty one included, serves as well. -/
theorem run_inline (m : Machine) (p : Program) (pc : Nat) (s : Stack) :
    m.run (p.inline m.environment) pc s = m.run p pc s ∧
    ((∀ symbol, Value.word symbol ∈ p.instructions.drop pc →
        ∃ v, m.environment.find? symbol = some v ∧ v.tag ≠ .word) →
      ∀ other, (Machine.mk other m.host).run (p.inline m.environment) pc s = m.run p pc s) := by
  have hdrop : (p.inline m.environment).instructions.drop pc
      = (p.instructions.drop pc).map m.environment.inline := List.map_drop.symm
  refine ⟨?_, fun hbound other => ?_⟩
  · rw [run, hdrop, run]
    exact runList_map (fun i _ s => m.step_inline i s) pc s
  · rw [run, hdrop, run]
    refine runList_map (fun i hi s => ?_) pc s
    obtain ⟨v, hd, hv⟩ : ∃ v, m.Denotes i v ∧ v.tag ≠ .word :=
      exists_denotes_of_bound fun symbol hsymbol => hbound symbol (hsymbol ▸ hi)
    exact step_inline_of_denotes hd hv other s

/-- A text is doubled and the sum refused, by the words as by the primitives they are bound to, and
then without any environment; a word without a binding stands before the start. -/
theorem run_inline_doubled_text :
    (Machine.mk .empty .none).run
        (Program.inline ⟨[.word [], .string [], .word StandardWord.dup.name,
          .word StandardWord.add.name]⟩ .standard) 1 .empty
      = (Machine.mk .standard .none).run
        ⟨[.word [], .string [], .word StandardWord.dup.name, .word StandardWord.add.name]⟩ 1
        .empty := by
  refine (run_inline ⟨.standard, .none⟩ _ 1 .empty).2 (fun symbol hmem => ?_) .empty
  have hsymbol : symbol = StandardWord.dup.name ∨ symbol = StandardWord.add.name := by
    simpa using hmem
  rcases hsymbol with rfl | rfl
  · exact ⟨_, Environment.find?_standard .dup, by simp [Value.tag]⟩
  · exact ⟨_, Environment.find?_standard .add, by simp [Value.tag]⟩

end Machine
end WordMachine
