import WordMachine.Proofs.Machine.Steps

/-!
# Programs that are data

The values of a program are the values of a stack, and where no primitive comes into play, running a
program does nothing but copy it: **the instructions are put on the stack in their order, each word
replaced by the value it is bound to** (`Environment.datum`). The replacement is made once. A word
bound to a word leaves that word on the stack, so bindings that lead in a circle, or from a word to
itself, are as harmless as any other; the latter even give back the word that was there. A stack is
therefore a program for itself, under every environment that binds its words to themselves.
-/

set_option autoImplicit false

namespace WordMachine

namespace Stack

@[simp] theorem toTopFirst_ofList (values : List Value) :
    (ofList values).toTopFirst = values.reverse := rfl

@[simp] theorem append_ofList_nil (base : Stack) : base ++ ofList [] = base := by
  apply ext_toTopFirst
  simp

theorem append_ofList_cons (base : Stack) (v : Value) (rest : List Value) :
    base ++ ofList (v :: rest) = base.push v ++ ofList rest := by
  apply ext_toTopFirst
  simp

@[simp] theorem ofList_toList (s : Stack) : ofList s.toList = s := rfl

end Stack

/-- What an instruction leaves on the stack as data: a word the value it is bound to, whatever that
is, and everything else itself. -/
def Environment.datum (e : Environment) : Value → Value
  | .word symbol => (e.find? symbol).getD (.word symbol)
  | v => v

theorem Environment.datum_of_find? {e : Environment} {symbol : Text} {v : Value}
    (h : e.find? symbol = some v) : e.datum (.word symbol) = v := by
  simp [datum, h]

namespace Machine

variable {m : Machine}

/-- An instruction that is no primitive, nor a word bound to one, denotes its datum. -/
theorem denotes_datum {i : Value} (hprimitive : i.tag ≠ .primitive)
    (hbound : ∀ symbol, i = .word symbol →
      ∃ v, m.environment.find? symbol = some v ∧ v.tag ≠ .primitive) :
    m.Denotes i (m.environment.datum i) ∧ (m.environment.datum i).tag ≠ .primitive := by
  cases i with
  | number x => exact ⟨.literal (by simp [Value.tag]), hprimitive⟩
  | string content => exact ⟨.literal (by simp [Value.tag]), hprimitive⟩
  | primitive p => exact absurd rfl hprimitive
  | word symbol =>
    obtain ⟨v, hf, hv⟩ := hbound symbol rfl
    rw [Environment.datum_of_find? hf]
    exact ⟨.bound hf, hv⟩

/-- Instructions that push what they denote put it on the stack in order. -/
theorem executes_map {instructions : List Value} {datum : Value → Value}
    (h : ∀ i ∈ instructions, m.Denotes i (datum i) ∧ (datum i).tag ≠ .primitive) (base : Stack) :
    m.Executes instructions base (base ++ .ofList (instructions.map datum)) := by
  induction instructions generalizing base with
  | nil =>
    rw [List.map_nil, Stack.append_ofList_nil]
    exact .nil
  | cons i rest ih =>
    obtain ⟨hd, hi⟩ := h i List.mem_cons_self
    rw [List.map_cons, Stack.append_ofList_cons]
    -- the first instruction is pushed, and the others come on top of it
    exact .cons (.push hd hi) (ih (fun j hj => h j (List.mem_cons_of_mem _ hj)) _)

theorem executes_data {instructions : List Value}
    (hprimitive : ∀ q, Value.primitive q ∉ instructions)
    (hbound : ∀ symbol, Value.word symbol ∈ instructions →
      ∃ v, m.environment.find? symbol = some v ∧ v.tag ≠ .primitive) (base : Stack) :
    m.Executes instructions base (base ++ .ofList (instructions.map m.environment.datum)) := by
  apply executes_map
  intro i hi
  apply denotes_datum
  · intro htag
    cases i with
    | primitive q => exact hprimitive q hi
    | _ => cases htag
  · rintro symbol rfl
    exact hbound symbol hi

/-- **Code is data.** A program without primitives, all of whose words are bound to no primitive,
is copied onto the stack from the start of the run on: the run is done, and the stack is the one it
started with, with the instructions on top of it in their order and each word replaced by the value
it is bound to. So the values of a stack, run as a program, give that stack again if each of its
words is bound to itself. -/
theorem run_copies_data (m : Machine) (base : Stack) :
    (∀ (p : Program) (pc : Nat), (∀ q, Value.primitive q ∉ p.instructions.drop pc) →
      (∀ symbol, Value.word symbol ∈ p.instructions.drop pc →
        ∃ v, m.environment.find? symbol = some v ∧ v.tag ≠ .primitive) →
      m.run p pc base
        = .done (base ++ .ofList ((p.instructions.drop pc).map m.environment.datum))) ∧
    (∀ s : Stack, (∀ q, Value.primitive q ∉ s.toList) →
      (∀ symbol, Value.word symbol ∈ s.toList →
        m.environment.find? symbol = some (.word symbol)) →
      m.run ⟨s.toList⟩ 0 base = .done (base ++ s)) := by
  constructor
  · intro p pc hprimitive hbound
    exact runList_eq_done_iff.mpr (executes_data hprimitive hbound base)
  · intro s hprimitive hself
    have hbound : ∀ symbol, Value.word symbol ∈ s.toList →
        ∃ v, m.environment.find? symbol = some v ∧ v.tag ≠ .primitive := by
      intro symbol hmem
      exact ⟨_, hself symbol hmem, by simp [Value.tag]⟩
    have hdatum : s.toList.map m.environment.datum = s.toList := by
      refine (List.map_congr_left fun v hv => ?_).trans (List.map_id _)
      cases v with
      | word symbol => exact Environment.datum_of_find? (hself symbol hv)
      | _ => rfl
    have hx := executes_data hprimitive hbound base
    rw [hdatum, Stack.ofList_toList] at hx
    exact runList_eq_done_iff.mpr hx

/-- Two words are bound to each other and a third to itself. The first two change places, each with
one look-up; the third stays, as code and as data. -/
theorem run_copies_data_circle :
    (Machine.mk (((Environment.empty.define [0x61] (.word [0x62])).define [0x62]
        (.word [0x61])).define [0x63] (.word [0x63])) .none).run
        ⟨[.word [], .word [0x61], .word [0x62], .string []]⟩ 1 (.ofList [.word [0x64]])
      = .done (.ofList [.word [0x64]] ++ .ofList [.word [0x62], .word [0x61], .string []]) ∧
    (Machine.mk (((Environment.empty.define [0x61] (.word [0x62])).define [0x62]
        (.word [0x61])).define [0x63] (.word [0x63])) .none).run
        ⟨(Stack.ofList [.word [0x63], .string []]).toList⟩ 0 (.ofList [.word [0x64]])
      = .done (.ofList [.word [0x64]] ++ .ofList [.word [0x63], .string []]) := by
  obtain ⟨hcopy, hself⟩ := run_copies_data (Machine.mk (((Environment.empty.define [0x61]
    (.word [0x62])).define [0x62] (.word [0x61])).define [0x63] (.word [0x63])) .none)
    (.ofList [.word [0x64]])
  constructor
  · refine hcopy ⟨[.word [], .word [0x61], .word [0x62], .string []]⟩ 1 (by simp) ?_
    intro symbol hmem
    have hsymbol : symbol = [0x61] ∨ symbol = [0x62] := by simpa using hmem
    rcases hsymbol with rfl | rfl
    · exact ⟨.word [0x62], rfl, by simp [Value.tag]⟩
    · exact ⟨.word [0x61], rfl, by simp [Value.tag]⟩
  · refine hself (.ofList [.word [0x63], .string []]) (by simp [Stack.ofList, Stack.toList]) ?_
    intro symbol hmem
    have hsymbol : symbol = [0x63] := by simpa [Stack.ofList, Stack.toList] using hmem
    rw [hsymbol]
    rfl

end Machine
end WordMachine
